import Keylight.Courses
import Keylight.Launch

/-!
# The rollback anchor and its cached copy

The clock guard reads one copy of the anchor, the offline bound and the store
the other. They agree between calls, and only a launch, a deactivation or a
reply with a trusted lease moves them.
-/
namespace Keylight
open Bytes Sections Runs Client

/-- The reply has a JSON body with a lease that the installation trusts. -/
def CarriesTrusted (X : Site) (r : Result HttpResponse) : Prop :=
  ∃ resp j l, r = .ok resp ∧ Json.parse resp.body = .ok j ∧ leaseOf j = some l ∧
    X.trusts l = true

/-- The anchor in the store, 0 when there is none. -/
def loadedAnchor (E : Env) (w : World) : Int64 := (loadedJson E w).elim 0 storedAnchor

/-- A trusted lease in the verdict stood in the body of the reply. -/
theorem carriesTrusted_of_verdict {X : Site} {r : Result HttpResponse} {l : Lease}
    (hl : (validationVerdict r).lease = some l) (ht : X.trusts l = true) :
    CarriesTrusted X r := by
  have hfaithful := validationVerdict_faithful r
  cases r with
  | error e => cases hl
  | ok resp =>
    simp only [validationVerdict] at hl hfaithful
    cases hbody : Json.parse resp.body with
    | error e =>
      simp only [hbody] at hl
      split at hl
      · split at hl <;> cases hl
      · cases hl
    | ok j =>
      refine ⟨resp, j, l, rfl, hbody, ?_, ht⟩
      cases hlease : leaseOf j with
      | none =>
        simp only [hbody, hlease] at hl
        split at hl
        · split at hl <;> cases hl
        · exact hlease.symm.trans hl
      | some l' =>
        simp only [hbody, hlease] at hl
        split at hl
        · split at hl
          · exact hl
          · cases hl
        · exact hlease.symm.trans hl

/-- The same for the verdict on an activation. -/
theorem carriesTrusted_of_activation {X : Site} {r : Result HttpResponse} {j : Json} {l : Lease}
    (hv : activationVerdict r = .leased j l) (ht : X.trusts l = true) : CarriesTrusted X r := by
  cases r with
  | error e => cases hv
  | ok resp =>
    simp only [activationVerdict] at hv
    split at hv
    · cases hv
    · cases hbody : Json.parse resp.body with
      | error e => simp [hbody] at hv
      | ok j' =>
        simp only [hbody] at hv
        split at hv
        · cases hv
        · split at hv
          · next hsize =>
            cases hl : Lease.fromJson (j'.get (ascii "lease")) with
            | error e => simp [hl] at hv
            | ok l' =>
              simp only [hl, ActivationVerdict.leased.injEq] at hv
              refine ⟨resp, j', l, rfl, hbody, ?_, ht⟩
              simp [leaseOf, hsize, hl, hv.2, Except.toOption]
          · cases hv

/-- No other call moves the anchor. -/
theorem Outcome.anchor {X : Site} {E : Env} {w : World} {op : Op} {c : Core}
    (h : Outcome X E w op c) (hlaunch : op ≠ .relaunch) (hdeactivate : op ≠ .deactivate) :
    c.anchor = w.core.anchor ∨ CarriesTrusted X E.reply := by
  cases h with
  | blank _ => exact absurd rfl hlaunch
  | launched _ _ _ _ => exact absurd rfl hlaunch
  | reset _ => exact absurd rfl hdeactivate
  | kept _ => exact .inl rfl
  | graced _ _ _ _ => exact .inl rfl
  | resolved _ _ _ => exact .inl rfl
  | activated h =>
    generalize hv : activationVerdict E.reply = v at h
    cases h with
    | refused => exact .inl rfl
    | bare => exact .inl rfl
    | untrusted _ => exact .inl rfl
    | leased _ ht _ _ => exact .inr (carriesTrusted_of_activation hv ht)
  | settled _ h =>
    have hfaithful := validationVerdict_faithful E.reply
    generalize hv : validationVerdict E.reply = v at h hfaithful
    cases h with
    | denied => exact .inl rfl
    | rejectedUntrusted _ _ => exact .inl rfl
    | renewedUntrusted _ _ _ => exact .inl rfl
    | leaseless _ _ _ => exact .inl rfl
    | rejected _ ht _ _ =>
      refine .inr (carriesTrusted_of_verdict ?_ ht)
      rw [hv]
      rfl
    | renewed _ ht _ _ _ =>
      refine .inr (carriesTrusted_of_verdict ?_ ht)
      rw [hv]
      exact hfaithful
  | keyless _ h =>
    cases h with
    | kept _ => exact .inl rfl
    | resolved _ _ => exact .inl rfl
    | configured _ _ _ _ _ => exact .inl rfl
    | stamped _ _ _ _ => exact .inl rfl

/-- The copies agree. -/
def AnchorMirrored (w : World) : Prop := w.client.anchor = w.client.cache.lastValidatedOnline

theorem relaunch_anchor (X : Site) (E : Env) (w : World) :
    (Op.relaunch.exec X E w).client.anchor = loadedAnchor E { w with ticks := {} } ∧
      AnchorMirrored (Op.relaunch.exec X E w) := by
  obtain ⟨i, k, n, hcore⟩ := construct_core X E { w with ticks := {} }
  have hanchor : (Op.relaunch.exec X E w).client.anchor =
      ((construct X E).run { w with ticks := {} }).2.core.anchor := rfl
  have hcached : (Op.relaunch.exec X E w).client.cache.lastValidatedOnline =
      ((construct X E).run { w with ticks := {} }).2.core.cache.lastValidatedOnline := rfl
  rw [AnchorMirrored, hanchor, hcached, hcore, loadedAnchor]
  cases loadedJson E { w with ticks := {} } with
  | none => exact ⟨rfl, rfl⟩
  | some j => exact ⟨loadCache_anchor j, rfl⟩

/-- A deactivation resets both copies. -/
theorem deactivate_anchor (X : Site) (E : Env) (w : World) :
    (Op.deactivate.exec X E w).client.anchor = 0 ∧ AnchorMirrored (Op.deactivate.exec X E w) := by
  have hrun : Op.deactivate.exec X E w = ((deactivate X E).run { w with ticks := {} }).2 :=
    run_ignored _ _
  have hanchor : (Op.deactivate.exec X E w).client.anchor =
      ((deactivate X E).run { w with ticks := {} }).2.core.anchor := by
    rw [hrun]
    rfl
  have hcached : (Op.deactivate.exec X E w).client.cache.lastValidatedOnline =
      ((deactivate X E).run { w with ticks := {} }).2.core.cache.lastValidatedOnline := by
    rw [hrun]
    rfl
  rw [AnchorMirrored, hanchor, hcached]
  obtain hcore | ⟨i, hcore⟩ := deactivate_core X E { w with ticks := {} }
  · rw [hcore]
    exact ⟨rfl, rfl⟩
  · rw [hcore]
    exact ⟨rfl, rfl⟩

/-- Any other call keeps the anchor, or moves it to one of its clock readings. -/
theorem Op.exec_anchor (X : Site) (E : Env) {op : Op} (w : World) (hlaunch : op ≠ .relaunch)
    (hdeactivate : op ≠ .deactivate) :
    ((op.exec X E w).anchors = w.anchors ∨
      ∃ k < (op.exec X E w).ticks.now, (op.exec X E w).anchors = (E.now k, E.now k)) ∧
    ((op.exec X E w).client.anchor = w.client.anchor ∨ CarriesTrusted X E.reply) := by
  refine ⟨?_, (op.exec_outcome X E w).anchor hlaunch hdeactivate⟩
  obtain hsame | ⟨t, ht, hfalse | ⟨k, hk, rfl⟩⟩ :=
    (op.exec_course X E w hlaunch hdeactivate).anchored.anchors
  · exact .inl hsame
  · exact hfalse.elim
  · exact .inr ⟨k, hk, ht⟩

/-- No call leaves the copies apart. -/
theorem perform_anchorMirrored (X : Site) (call : Call) {w : World} (hw : AnchorMirrored w) :
    AnchorMirrored (perform X call w) := by
  obtain ⟨op, E⟩ := call
  by_cases hlaunch : op = .relaunch
  · subst hlaunch
    exact (relaunch_anchor X E w).2
  · by_cases hdeactivate : op = .deactivate
    · subst hdeactivate
      exact (deactivate_anchor X E w).2
    · obtain ⟨hsame | ⟨k, -, hmoved⟩, -⟩ := Op.exec_anchor X E w hlaunch hdeactivate
      · have hanchor := congrArg Prod.fst hsame
        have hcached := congrArg Prod.snd hsame
        exact hanchor.trans (hw.trans hcached.symm)
      · exact (congrArg Prod.fst hmoved).trans (congrArg Prod.snd hmoved).symm

/-- Between the calls of any run the two anchors agree. A launch sets them to the stored value, a
deactivation to 0, and any other call leaves them, or has a trusted lease in its reply and sets
them to a clock reading of its own. -/
theorem anchor_mirrored (X : Site) (store : Bytes) (calls : List Call) :
    let w := history X store calls
    w.client.anchor = w.client.cache.lastValidatedOnline ∧
    ∀ (op : Op) (E : Env), let v := op.exec X E w
      v.client.anchor = v.client.cache.lastValidatedOnline ∧
      (op = .relaunch → v.client.anchor = loadedAnchor E { w with ticks := {} }) ∧
      (op = .deactivate → v.client.anchor = 0) ∧
      (op ≠ .relaunch → op ≠ .deactivate → v.client.anchor = w.client.anchor ∨
        CarriesTrusted X E.reply ∧ ∃ k < v.ticks.now, v.client.anchor = E.now k) := by
  intro w
  have hw : AnchorMirrored w :=
    runAll_keeps (fun call _ _ hw => perform_anchorMirrored X call hw) rfl
  refine ⟨hw, fun op E => ⟨perform_anchorMirrored X (op, E) hw, ?_, ?_, ?_⟩⟩
  · rintro rfl
    exact (relaunch_anchor X E w).1
  · rintro rfl
    exact (deactivate_anchor X E w).1
  · intro hlaunch hdeactivate
    obtain ⟨hmoved, hsame | htrusted⟩ := Op.exec_anchor X E w hlaunch hdeactivate
    · exact .inl hsame
    · obtain hkept | ⟨k, hk, hread⟩ := hmoved
      · exact .inl (congrArg Prod.fst hkept)
      · exact .inr ⟨htrusted, k, hk, congrArg Prod.fst hread⟩

end Keylight
