import Keylight.Beacons
import Keylight.Routine

/-!
# What one operation does to the standing

An operation is steady, or it turns: it may first cache a lease, and then
`setState` looks once at the cached expiry. The anchor and its cached copy move
together, to a time the code was given or to a clock reading of the run.
-/
namespace Keylight
open Bytes Sections Client

/-- The anchor that the clock guard reads and the one that is persisted. -/
def World.anchors (w : World) : Int64 × Int64 :=
  (w.client.anchor, w.client.cache.lastValidatedOnline)

variable (E : Env) (T : Int64 → Prop)

/-- The anchors stay or become one time together: one in `T`, or a reading taken before the end. -/
structure Anchored (w v : World) : Prop where
  now : w.ticks.now ≤ v.ticks.now
  anchors : v.anchors = w.anchors ∨
    ∃ t, v.anchors = (t, t) ∧ (T t ∨ ∃ k < v.ticks.now, t = E.now k)

/-- A lease may have been cached; nothing has been announced. -/
structure Dated (w v : World) : Prop extends Anchored E T w v where
  rawState : v.client.rawState = w.client.rawState
  lastSeenExpiry : v.client.lastSeenExpiry = w.client.lastSeenExpiry
  announced : announced v.log = announced w.log

/-- The cached expiry has been looked at; a renewal was announced only over a licensed state and
an expiry that moved later than the one last seen. -/
structure Turn (w v : World) : Prop extends Anchored E T w v where
  seen : v.client.lastSeenExpiry = v.client.cache.expiresAt
  announced : ∃ evs, announced v.log = announced w.log ++ evs ∧
    (.renewed ∈ evs → w.client.rawState = .licensed ∧ v.client.rawState = .licensed ∧
      movedLater v.client.cache.expiresAt w.client.lastSeenExpiry = true)

variable {E T}

namespace Steady
variable {u v w : World}

theorem anchors (h : Steady v w) : w.anchors = v.anchors :=
  congrArg (fun s => (s.anchor, s.lastValidatedOnline)) h.standing

theorem anchored (h : Steady v w) : Anchored E T v w := ⟨h.now, .inl h.anchors⟩

end Steady

namespace Anchored
variable {u v w : World}

theorem trans (h₁ : Anchored E T u v) (h₂ : Anchored E T v w) : Anchored E T u w := by
  refine ⟨h₁.now.trans h₂.now, ?_⟩
  obtain hsame | hmoved := h₂.anchors
  · rw [hsame]
    obtain hsame' | ⟨t, ht, hgiven⟩ := h₁.anchors
    · exact .inl hsame'
    · refine .inr ⟨t, ht, hgiven.imp_right ?_⟩
      rintro ⟨k, hk, rfl⟩
      exact ⟨k, hk.trans_le h₂.now, rfl⟩
  · exact .inr hmoved

/-- A time read at the start of the run is a reading of the run. -/
theorem read {n : Nat} (hn : n < w.ticks.now) (h : Anchored E (· = E.now n) v w) :
    Anchored E T v w := by
  refine ⟨h.now, h.anchors.imp_right ?_⟩
  rintro ⟨t, ht, rfl | hread⟩
  · exact ⟨_, ht, .inr ⟨n, hn, rfl⟩⟩
  · exact ⟨t, ht, .inr hread⟩

end Anchored

namespace Dated
variable {u v w : World}

theorem before (h₁ : Steady u v) (h₂ : Dated E T v w) : Dated E T u w :=
  ⟨h₁.anchored.trans h₂.toAnchored,
    h₂.rawState.trans (congrArg Standing.rawState h₁.standing),
    h₂.lastSeenExpiry.trans (congrArg Standing.lastSeenExpiry h₁.standing),
    h₂.announced.trans h₁.announced⟩

theorem trans (h₁ : Dated E T u v) (h₂ : Dated E T v w) : Dated E T u w :=
  ⟨h₁.toAnchored.trans h₂.toAnchored, h₂.rawState.trans h₁.rawState,
    h₂.lastSeenExpiry.trans h₁.lastSeenExpiry, h₂.announced.trans h₁.announced⟩

end Dated

theorem Steady.dated {v w : World} (h : Steady v w) : Dated E T v w :=
  ⟨h.anchored, congrArg Standing.rawState h.standing, congrArg Standing.lastSeenExpiry h.standing,
    h.announced⟩

namespace Turn
variable {u v w : World}

theorem after (h₁ : Dated E T u v) (h₂ : Turn E T v w) : Turn E T u w := by
  obtain ⟨evs, hlog, hrenewed⟩ := h₂.announced
  refine ⟨h₁.toAnchored.trans h₂.toAnchored, h₂.seen, evs, ?_, ?_⟩
  · rw [hlog, h₁.announced]
  · rw [← h₁.rawState, ← h₁.lastSeenExpiry]
    exact hrenewed

theorem steady (h₁ : Turn E T u v) (h₂ : Steady v w) : Turn E T u w := by
  obtain ⟨evs, hlog, hrenewed⟩ := h₁.announced
  have hraw : w.client.rawState = v.client.rawState := congrArg Standing.rawState h₂.standing
  have hexpiry : w.client.cache.expiresAt = v.client.cache.expiresAt :=
    congrArg Standing.expiresAt h₂.standing
  refine ⟨h₁.toAnchored.trans h₂.anchored, ?_, evs, ?_, ?_⟩
  · rw [hexpiry, ← h₁.seen]
    exact congrArg Standing.lastSeenExpiry h₂.standing
  · rw [h₂.announced, hlog]
  · rw [hraw, hexpiry]
    exact hrenewed

theorem read {n : Nat} (hn : n < w.ticks.now) (h : Turn E (· = E.now n) v w) : Turn E T v w :=
  ⟨h.toAnchored.read hn, h.seen, h.announced⟩

end Turn

/-- Every run of `p` is related by `R`. -/
def Leads (R : World → World → Prop) (p : Code α) : Prop := ∀ w, R w (p.run w).2

namespace Leads
variable {R S M : World → World → Prop} {p : Code α} {k : α → Code β}

theorem bind (hp : Leads R p) (hk : ∀ a, Leads S (k a))
    (hM : ∀ {u v w}, R u v → S v w → M u w) : Leads M (p >>= k) := by
  intro w
  rw [Prog.run_bind]
  exact hM (hp w) (hk _ _)

theorem mono (hp : Leads R p) (hM : ∀ {v w}, R v w → M v w) : Leads M p := fun w => hM (hp w)

theorem steady (hp : Leads Steady p) (hk : ∀ a, Leads Steady (k a)) : Leads Steady (p >>= k) :=
  hp.bind hk Steady.trans

/-- Nothing before the state is set counts but a lease that is cached. -/
theorem dated_turn (hp : Leads (Dated E T) p) (hk : ∀ a, Leads (Turn E T) (k a)) :
    Leads (Turn E T) (p >>= k) := hp.bind hk fun h₁ h₂ => h₂.after h₁

theorem steady_turn (hp : Leads Steady p) (hk : ∀ a, Leads (Turn E T) (k a)) :
    Leads (Turn E T) (p >>= k) := dated_turn (hp.mono Steady.dated) hk

theorem turn_steady (hp : Leads (Turn E T) p) (hk : ∀ a, Leads Steady (k a)) :
    Leads (Turn E T) (p >>= k) := hp.bind hk fun h₁ h₂ => h₁.steady h₂

/-- Code that is handed a clock reading taken just before. -/
theorem read_turn {k : Int64 → Code α} (hk : ∀ t, Leads (Turn E (· = t)) (k t)) :
    Leads (Turn E T) (nowFn E >>= k) := by
  intro w
  have hnow : Steady w ((nowFn E).run w).2 := ((routinely_nowFn E).run w).toSteady
  have hturn := hk (E.now w.ticks.now) ((nowFn E).run w).2
  rw [Prog.run_bind]
  exact (hturn.read hturn.now).after hnow.dated

theorem read_dated {k : Int64 → Code α} (hk : ∀ t, Leads (Dated E (· = t)) (k t)) :
    Leads (Dated E T) (nowFn E >>= k) := by
  intro w
  have hnow : Steady w ((nowFn E).run w).2 := ((routinely_nowFn E).run w).toSteady
  have hdated := hk (E.now w.ticks.now) ((nowFn E).run w).2
  rw [Prog.run_bind]
  exact hnow.dated.trans ⟨hdated.read hdated.now, hdated.rawState, hdated.lastSeenExpiry,
    hdated.announced⟩

end Leads

namespace Client
variable {X : Site}

theorem steadily {p : Code α} (h : Routinely p) : Leads Steady p := fun w => (h.run w).toSteady

/-- Requests take time and say nothing. -/
theorem steadily_requestWithRetry (method url : Bytes) (headers : List (Bytes × Bytes))
    (body : Bytes) : Leads Steady (requestWithRetry E method url headers body) := by
  have heach : Each Steady (fun _ => True) (requestWithRetry E method url headers body) := by
    refine each_requestLoop E (fun req w => ⟨rfl, ?_, Nat.le_refl _⟩)
      (fun ms w => ⟨rfl, ?_, Nat.le_refl _⟩) _ _ _ _
    · exact (announced_append _ _).trans (List.append_nil _)
    · exact (announced_append _ _).trans (List.append_nil _)
  intro w
  exact (heach.run Steady.refl (fun _ _ _ => Steady.trans) w).1

/-- The world once the state is stored, before anything is announced. -/
def stateNoted (s : State) (w : World) : World :=
  { w with
    client.lastSeenExpiry := w.client.cache.expiresAt
    client.rawState := s
    log := w.log ++ [.stateStored s] }

theorem setState_run_noted (E : Env) (s : State) (w : World) :
    (setState E s).run w = (notify E >>= fun _ =>
      match lifecycleEvent w.client.rawState s
        (movedLater w.client.cache.expiresAt w.client.lastSeenExpiry) with
      | some ev => notifyLifecycle ev
      | none => pure ()).run (stateNoted s w) := rfl

/-- Setting the state is a turn. -/
theorem turns_setState (s : State) : Leads (Turn E T) (setState E s) := by
  intro w
  let later := movedLater w.client.cache.expiresAt w.client.lastSeenExpiry
  let z := stateNoted s w
  have hz : announced z.log = announced w.log := (announced_append _ _).trans (List.append_nil _)
  rw [setState_run_noted, Prog.run_bind]
  have hnotify := steadily (routinely_notify E) z
  generalize ((notify E).run z).2 = y at hnotify ⊢
  have hexpiry : y.client.cache.expiresAt = w.client.cache.expiresAt :=
    congrArg Standing.expiresAt hnotify.standing
  have hseen : y.client.lastSeenExpiry = w.client.cache.expiresAt :=
    congrArg Standing.lastSeenExpiry hnotify.standing
  have hraw : y.client.rawState = s := congrArg Standing.rawState hnotify.standing
  have hanchored : Anchored E T w y := ⟨hnotify.now, .inl hnotify.anchors⟩
  cases hev : lifecycleEvent w.client.rawState s later with
  | none =>
    refine ⟨hanchored, hseen.trans hexpiry.symm, [], ?_, ?_⟩
    · rw [List.append_nil, ← hz]
      exact hnotify.announced
    · intro hmem
      cases hmem
  | some ev =>
    refine ⟨⟨hanchored.now, hanchored.anchors⟩, hseen.trans hexpiry.symm, [ev], ?_, ?_⟩
    · refine (announced_append _ _).trans ?_
      rw [hnotify.announced, hz]
      rfl
    · intro hmem
      obtain rfl := List.mem_singleton.mp hmem
      have hboth : w.client.rawState = .licensed ∧ s = .licensed ∧ later = true := by
        unfold lifecycleEvent at hev
        split at hev
        · next hlicensed =>
          split at hev
          · next hlater => exact ⟨hlicensed.1, hlicensed.2, hlater⟩
          · cases hev
        · split at hev
          · cases hev
          · split at hev
            · cases hev
            · split at hev <;> cases hev
      refine ⟨hboth.1, ?_, ?_⟩
      · exact hraw.trans hboth.2.1
      · change movedLater y.client.cache.expiresAt w.client.lastSeenExpiry = true
        rw [hexpiry]
        exact hboth.2.2

theorem dates_persist (d : PersistData) : Leads (Dated E T) (persist E d) := by
  refine Leads.bind (R := Dated E T) (fun w => ?_)
    (fun _ => (steadily (routinely_saveCache E)).bind (fun _ => steadily (.pure _))
      Steady.trans) fun h₁ h₂ => h₁.trans h₂.dated
  have hevents : announced (w.log ++ d.events) = announced w.log := by
    rw [announced_append]
    unfold PersistData.events
    cases d.lease <;> cases d.licenseKey <;> exact List.append_nil _
  exact ⟨⟨Nat.le_refl _, .inl rfl⟩, rfl, rfl, hevents⟩

/-- Stamping the validation dates it. -/
theorem dates_saveLastValidatedOnline {t : Int64} (ht : T t) :
    Leads (Dated E T) (saveLastValidatedOnline E t) := by
  refine Leads.bind (R := fun w v => v = ((Keylight.writeCache (fun c =>
    { c with lastValidatedOnline := t }) []).run w).2) (fun w => rfl)
    (fun _ => Leads.bind (R := fun w v => v = ((storeAnchor t).run w).2) (fun w => rfl)
      (fun _ => (steadily (routinely_saveCache E)).bind (fun _ => steadily (.pure _))
        Steady.trans) (M := fun w v => Steady ((storeAnchor t).run w).2 v) ?_) ?_
  · rintro u v w rfl h
    exact h
  · rintro u v w rfl h
    refine ⟨⟨h.now, .inr ⟨t, h.anchors, .inl ht⟩⟩, congrArg Standing.rawState h.standing,
      congrArg Standing.lastSeenExpiry h.standing, ?_⟩
    rw [h.announced]
    exact (announced_append _ _).trans (List.append_nil _)

theorem dates_keepLease (j : Json) (l : Lease) {t : Int64} (ht : T t) :
    Leads (Dated E T) (keepLease E j l t) :=
  Leads.bind (steadily (.read _)) (fun _ => (dates_persist _).bind
    (fun _ => dates_saveLastValidatedOnline ht) Dated.trans) fun h₁ h₂ => h₁.dated.trans h₂

theorem dates_keepLeaseThenRead (j : Json) (l : Lease) :
    Leads (Dated E T) (keepLeaseThenRead E j l) :=
  Leads.bind (steadily (.read _)) (fun _ => (dates_persist _).bind
    (fun _ => Leads.read_dated fun _ => dates_saveLastValidatedOnline rfl) Dated.trans)
    fun h₁ h₂ => h₁.dated.trans h₂

theorem turns_resolveAndSet (lease : Option Lease) :
    Leads (Turn E T) (resolveAndSet X E lease) :=
  .steady_turn (steadily (routinely_resolveFromLease X E lease)) fun _ =>
    .steady_turn (steadily (routinely_resolveWithTrial X E _)) fun _ =>
      .turn_steady (turns_setState _) fun _ => steadily (.pure _)

theorem turns_keepTrusted (l : Lease) {p : Code Unit} (hp : Leads (Dated E T) p) :
    Leads (Turn E T) (do
      if X.trusts l then p else pure ()
      resolveAndSet X E (some l)) := by
  cases X.trusts l with
  | true => exact .dated_turn hp fun _ => turns_resolveAndSet _
  | false => exact turns_resolveAndSet _

theorem turns_rejectWithLease (j : Json) (l : Lease) {now : Int64} (hnow : T now) :
    Leads (Turn E T) (rejectWithLease X E j l now) := by
  rw [rejectWithLease_eq]
  exact turns_keepTrusted l (dates_keepLease j l hnow)

theorem turns_revoke : Leads (Turn E T) (revoke E) :=
  .steady_turn (steadily (routinely_clearLease E)) fun _ =>
    .turn_steady (turns_setState _) fun _ => steadily (.pure _)

/-- A 200 takes one turn, whichever way its lease is kept. -/
theorem turns_reply (j : Json) {keep : Lease → Code Unit}
    (hkeep : ∀ l, Leads (Dated E T) (keep l)) :
    Leads (Turn E T) (do
      let _ ← applyConfigFields X E j
      match leaseOf j with
      | some l => do
        let _ ← nowFn E
        if X.trusts l then keep l else pure ()
        resolveAndSet X E (some l)
      | none => resolveAndSet X E none : Code State) := by
  refine .steady_turn (steadily (routinely_applyConfigFields X E j)) fun _ => ?_
  cases leaseOf j with
  | none => exact turns_resolveAndSet none
  | some l =>
    exact .steady_turn (steadily (routinely_nowFn E)) fun _ => turns_keepTrusted l (hkeep l)

theorem turns_validateReply (j : Json) : Leads (Turn E T) (validateReply X E j) := by
  rw [validateReply_eq]
  exact .turn_steady (turns_reply j fun l => dates_keepLeaseThenRead j l) fun _ =>
    steadily (routinely_report E _)

theorem turns_reconcileReply (j : Json) {now : Int64} (hnow : T now) :
    Leads (Turn E T) (reconcileReply X E j now) := by
  rw [reconcileReply_eq]
  exact turns_reply j fun l => dates_keepLease j l hnow

/-- A licence that runs out without a verdict. -/
def Lapse (E : Env) (T : Int64 → Prop) (w v : World) : Prop :=
  Steady w v ∨ Turn E T w v ∧ v.client.rawState = .expired

theorem lapses_downgrade : Leads (Lapse E T) (downgrade E) := by
  intro w
  simp only [downgrade, loadState, Prog.run_bind, Prog.run_read, Prog.run_ite, Prog.run_pure]
  split
  · exact .inr ⟨turns_setState .expired w, congrArg Core.rawState (setState_core E .expired w)⟩
  · exact .inl (.refl w)

/-- The grace lapses or leaves the state. -/
theorem lapses_applyOfflineGrace (now lastLvo : Int64) :
    Leads (Lapse E T) (applyOfflineGrace X E now lastLvo) := by
  have hkeep : Leads (Lapse E T) loadState := fun w => .inl (.refl w)
  refine Leads.bind (steadily (.read _)) (fun expired => ?_) (S := Lapse E T) fun h₁ h₂ => ?_
  · split
    · exact lapses_downgrade
    · split
      · exact hkeep
      · split
        · exact hkeep
        · exact lapses_downgrade
  · obtain hsteady | ⟨hturn, hraw⟩ := h₂
    · exact .inl (h₁.trans hsteady)
    · exact .inr ⟨hturn.after h₁.dated, hraw⟩

theorem turns_settleValidate {v : Verdict} (hv : Decodable v) :
    Leads (Turn E T) (settleValidate X E v) := by
  have hreport : ∀ s, Leads Steady (report E s) := fun s => steadily (routinely_report E s)
  cases v with
  | transient => exact absurd rfl hv.1
  | undecodable => exact absurd rfl hv.2
  | denied =>
    exact .steady_turn (steadily (routinely_nowFn E)) fun _ => .turn_steady turns_revoke hreport
  | rejectedLease j l =>
    exact .read_turn fun _ => .turn_steady (turns_rejectWithLease j l rfl) hreport
  | renewed j l => exact turns_validateReply j
  | leaseless j => exact turns_validateReply j

theorem steadily_settleValidate {v : Verdict} (hv : ¬Decodable v) :
    Leads Steady (settleValidate X E v) := by
  obtain rfl | rfl := not_decodable hv
  · exact steadily (routinely_keepState E)
  · exact .steady (steadily (routinely_nowFn E)) fun _ => steadily (routinely_keepState E)

theorem turns_settleReconcile {v : Verdict} (hv : Decodable v) {now : Int64} (hnow : T now)
    (lastLvo : Int64) : Leads (Turn E T) (settleReconcile X E now lastLvo v) := by
  cases v with
  | transient => exact absurd rfl hv.1
  | undecodable => exact absurd rfl hv.2
  | denied => exact turns_revoke
  | rejectedLease j l => exact turns_rejectWithLease j l hnow
  | renewed j l => exact turns_reconcileReply j hnow
  | leaseless j => exact turns_reconcileReply j hnow

theorem lapses_settleReconcile {v : Verdict} (hv : ¬Decodable v) (now lastLvo : Int64) :
    Leads (Lapse E T) (settleReconcile X E now lastLvo v) := by
  obtain rfl | rfl := not_decodable hv
  · exact lapses_applyOfflineGrace now lastLvo
  · exact lapses_applyOfflineGrace now lastLvo

/-- The state was resolved from the cache: a licensed one has paid material behind it. -/
structure Resolved (E : Env) (T : Int64 → Prop) (w v : World) : Prop extends Turn E T w v where
  paid : v.client.rawState = .licensed → hasPaidMaterial v.client.cache = true

theorem Resolved.after {u v w : World} (h₁ : Steady u v) (h₂ : Resolved E T v w) :
    Resolved E T u w := ⟨h₂.toTurn.after h₁.dated, h₂.paid⟩

theorem resolves_after {p : Code α} {k : α → Code β} (hp : Leads Steady p)
    (hk : ∀ a, Leads (Resolved E T) (k a)) : Leads (Resolved E T) (p >>= k) :=
  hp.bind hk fun h₁ h₂ => h₂.after h₁

/-- Resolving licenses only what holds a lease or a key. -/
theorem resolvedCore_paid {w v : World} {i : Nat} (hcore : v.core = { w.core with
      rawState := resolvedCurrent X w.core.cache w.core.rawState (E.now i) })
    (hraw : v.client.rawState = .licensed) : hasPaidMaterial v.client.cache = true := by
  have hcache : v.client.cache = w.core.cache := congrArg Core.cache hcore
  have hresolved : v.client.rawState = resolvedCurrent X w.core.cache w.core.rawState (E.now i) :=
    congrArg Core.rawState hcore
  rw [hcache]
  cases hpaid : hasPaidMaterial w.core.cache with
  | true => rfl
  | false =>
    have hunpaid := resolvedAt_unpaid X w.core.cache (E.now i)
    rw [hresolved, resolvedCurrent, hpaid] at hraw
    simp only [Bool.false_eq_true, if_false] at hraw
    rw [hraw] at hunpaid
    cases hunpaid

theorem steadily_validateRequest (licenseKey instanceId : Bytes) :
    Leads Steady (validateRequest X E licenseKey instanceId) :=
  .steady (steadily (routinely_appendAttributionFields X E _ _)) fun _ =>
    .steady (steadily (routinely_jsonHeaders X E)) fun _ => steadily_requestWithRetry _ _ _ _

/-- `validate` is steady until it acts on the verdict. -/
theorem validate_steady (w : World) : ∃ u, Steady w u ∧ (validate X E).run w =
    (settleValidate X E (validationVerdict (E.replyAt w.ticks.request))).run u := by
  have hnotify := steadily (routinely_notify E) w
  have hticks := notify_ticks E w
  have hask := steadily_validateRequest (X := X) (E := E)
    (((notify E).run w).2.client.cache.licenseKey.getD [])
    (((notify E).run w).2.client.cache.instanceId.getD []) ((notify E).run w).2
  have hreply := validateRequest_reply X E
    (((notify E).run w).2.client.cache.licenseKey.getD [])
    (((notify E).run w).2.client.cache.instanceId.getD []) ((notify E).run w).2
  rw [hticks] at hreply
  refine ⟨_, hnotify.trans hask, ?_⟩
  simp only [validate_eq, loadLicenseKey, loadInstanceId, readCache, Prog.run_bind,
    Prog.run_read, hreply]

theorem validate_turns (w : World) :
    let v := ((validate X E).run w).2
    ¬Decodable (validationVerdict (E.replyAt w.ticks.request)) ∧ Steady w v ∨
      Decodable (validationVerdict (E.replyAt w.ticks.request)) ∧ Turn E T w v := by
  intro v
  obtain ⟨u, hu, hrun⟩ := validate_steady (X := X) (E := E) w
  simp only [v, hrun]
  by_cases hv : Decodable (validationVerdict (E.replyAt w.ticks.request))
  · exact .inr ⟨hv, (turns_settleValidate hv u).after hu.dated⟩
  · exact .inl ⟨hv, hu.trans (steadily_settleValidate hv u)⟩

/-- The shared validation lapses without a verdict, and takes a turn with one. -/
theorem reconcile_turns (w : World) :
    let v := ((validateAndReconcile X E).run w).2
    ¬Decodable (validationVerdict (E.replyAt w.ticks.request)) ∧ Lapse E T w v ∨
      Decodable (validationVerdict (E.replyAt w.ticks.request)) ∧ Turn E T w v := by
  intro v
  have hnow : Steady w ((nowFn E).run w).2 := steadily (routinely_nowFn E) w
  have hreply := validateRequest_reply X E (w.client.cache.licenseKey.getD [])
    (w.client.cache.instanceId.getD []) ((nowFn E).run w).2
  have hask := hnow.trans (steadily_validateRequest (X := X) (E := E)
    (w.client.cache.licenseKey.getD []) (w.client.cache.instanceId.getD []) ((nowFn E).run w).2)
  have hpassed : w.ticks.now < ((validateRequest X E (w.client.cache.licenseKey.getD [])
      (w.client.cache.instanceId.getD [])).run ((nowFn E).run w).2).2.ticks.now :=
    (steadily_validateRequest (X := X) (E := E) (w.client.cache.licenseKey.getD [])
      (w.client.cache.instanceId.getD []) ((nowFn E).run w).2).now
  have hv : v = ((settleReconcile X E (E.now w.ticks.now) w.client.cache.lastValidatedOnline
      (validationVerdict (E.replyAt w.ticks.request))).run ((validateRequest X E
        (w.client.cache.licenseKey.getD []) (w.client.cache.instanceId.getD [])).run
          ((nowFn E).run w).2).2).2 := by
    change ((validateAndReconcile X E).run w).2 = _
    have hread : ((nowFn E).run w).1 = E.now w.ticks.now := rfl
    have hcache : ((nowFn E).run w).2.client.cache = w.client.cache := rfl
    have hindex : ((nowFn E).run w).2.ticks.request = w.ticks.request := rfl
    rw [hindex] at hreply
    simp only [validateAndReconcile_eq, loadLastValidatedOnline, loadLicenseKey, loadInstanceId,
      readCache, Prog.run_bind, Prog.run_read, Prog.run_map, hread, hcache, hreply]
  generalize ((validateRequest X E (w.client.cache.licenseKey.getD [])
    (w.client.cache.instanceId.getD [])).run ((nowFn E).run w).2).2 = u at hask hpassed hv
  rw [hv]
  by_cases hdecodes : Decodable (validationVerdict (E.replyAt w.ticks.request))
  · right
    have hturn := turns_settleReconcile (X := X) (E := E) (T := (· = E.now w.ticks.now)) hdecodes
      rfl w.client.cache.lastValidatedOnline u
    exact ⟨hdecodes, (hturn.read (hpassed.trans_le hturn.now)).after hask.dated⟩
  · left
    refine ⟨hdecodes, ?_⟩
    obtain hsteady | ⟨hturn, hraw⟩ := lapses_settleReconcile (X := X) (E := E) (T := T) hdecodes
      (E.now w.ticks.now) w.client.cache.lastValidatedOnline u
    · exact .inl (hask.trans hsteady)
    · exact .inr ⟨hturn.after hask.dated, hraw⟩

theorem resolves_current : Leads (Resolved E T) (resolveCurrentState X E >>= setState E) := by
  intro w
  have hturn : Leads (Turn E T) (resolveCurrentState X E >>= setState E) :=
    .steady_turn (steadily (routinely_resolveCurrentState X E)) fun _ => turns_setState _
  obtain ⟨i, hcore⟩ := resolveAndStore_core X E w
  exact ⟨hturn w, resolvedCore_paid hcore⟩

theorem resolves_locally : Leads (Resolved E T) (resolveLocally X E) := by
  intro w
  have hturn : Leads (Turn E T) (resolveLocally X E) :=
    .steady_turn (steadily (routinely_resolveCurrentState X E)) fun _ =>
      .turn_steady (turns_setState _) fun _ => steadily (routinely_report E _)
  obtain ⟨i, hcore⟩ := resolveLocally_core X E w
  exact ⟨hturn w, resolvedCore_paid hcore⟩

theorem resolves_startTrial : Leads (Resolved E T) (startTrial X E) := by
  rw [startTrial_eq]
  exact resolves_after (steadily (routinely_stampAndSave E)) fun _ =>
    resolves_after (steadily (routinely_freeTierInstanceId E)) fun _ => resolves_locally

theorem turns_resolveAndReport (s : State) : Leads (Turn E T) (do
    let newState ← resolveWithTrial X E s
    setState E newState
    report E newState) :=
  .steady_turn (steadily (routinely_resolveWithTrial X E s)) fun _ =>
    .turn_steady (turns_setState _) fun _ => steadily (routinely_report E _)

theorem turns_activateWith (key : Bytes) (j : Json) (lease : Option Lease) :
    Leads (Turn E T) (activateWith X E key j lease) := by
  refine .steady_turn (steadily (routinely_resolveFromLease X E lease)) fun resolved => ?_
  cases lease with
  | none => exact .dated_turn (dates_persist _) fun _ => turns_resolveAndReport _
  | some l =>
    refine .steady_turn (steadily (routinely_nowFn E)) fun now => ?_
    split
    · refine .dated_turn (dates_persist _) fun _ => .read_turn fun t => ?_
      exact .dated_turn (dates_saveLastValidatedOnline rfl) fun _ => turns_resolveAndReport _
    · exact turns_resolveAndReport _

/-- An activation takes a turn unless it is refused. -/
theorem activate_turns (key : Bytes) (w : World) :
    let v := ((activate X E key).run w).2
    Steady w v ∨ activationVerdict (E.replyAt w.ticks.request) ≠ .refused ∧ Turn E T w v := by
  intro v
  have hfields := appendAttributionFields_run X E [(ascii "license_key", jsonStr key),
    (ascii "instance_name", jsonStr (instanceName X))] true w
  have hask := steadily (routinely_appendAttributionFields X E [(ascii "license_key", jsonStr key),
    (ascii "instance_name", jsonStr (instanceName X))] true) w
  have hv : v = ((activate X E key).run w).2 := rfl
  rw [activate_eq, Prog.run_bind] at hv
  generalize (appendAttributionFields X E _ true).run w = f at hfields hask hv
  have hindex : ((jsonHeaders X E).run f.2).2.ticks.request = w.ticks.request := hfields.request
  have hrequest := hask.trans ((steadily (routinely_jsonHeaders X E) f.2).trans
    (steadily_requestWithRetry (E := E) (ascii "POST") (apiUrl X (ascii "activate"))
      ((jsonHeaders X E).run f.2).1 (buildJson X f.1 true) ((jsonHeaders X E).run f.2).2))
  simp only [Prog.run_bind, requestWithRetry_reply, hindex] at hv
  generalize ((requestWithRetry E _ _ _ _).run ((jsonHeaders X E).run f.2).2).2 = u
    at hrequest hv
  rw [hv]
  cases hr : E.replyAt w.ticks.request with
  | error e => exact .inl hrequest
  | ok resp =>
    by_cases hstatus : resp.status = 200
    · simp only [settleActivate, hstatus, ne_eq, not_true_eq_false, if_false]
      cases hbody : Json.parse resp.body with
      | error e => exact .inl hrequest
      | ok j =>
        simp only [activateReply, activationVerdict, hstatus, hbody, ne_eq, not_true_eq_false,
          if_false]
        by_cases ha : (j.get (ascii "activated")).asBool = true
        · simp only [ha, Bool.not_true, Bool.false_eq_true, if_false]
          by_cases hs : 0 < (j.get (ascii "lease")).size
          · simp only [if_pos hs]
            cases Lease.fromJson (j.get (ascii "lease")) with
            | error e => exact .inl hrequest
            | ok l =>
              exact .inr ⟨ActivationVerdict.noConfusion,
                (turns_activateWith key j (some l) u).after hrequest.dated⟩
          · simp only [if_neg hs]
            exact .inr ⟨ActivationVerdict.noConfusion,
              (turns_activateWith key j none u).after hrequest.dated⟩
        · simp only [Bool.not_eq_true] at ha
          simp only [ha, Bool.not_false, if_true]
          exact .inl (hrequest.trans (Leads.steady (steadily (.read _))
            (fun s => steadily (routinely_report E s)) u))
    · simp only [settleActivate, ne_eq, hstatus, not_false_eq_true, if_true]
      exact .inl hrequest

/-- A 200 reply with a JSON body that meets `p`. -/
def JsonReply (p : Json → Prop) (r : Result HttpResponse) : Prop :=
  ∃ resp j, r = .ok resp ∧ resp.status = 200 ∧ Json.parse resp.body = .ok j ∧ p j

/-- The settings pass the configuration check at a reading of the clock. -/
def Verifies (X : Site) (E : Env) (j : Json) : Prop :=
  ∃ i, isOk (verifyConfigAt X j (E.now i)) = true

/-- The body carries a trial length or a free tier flag. -/
def HasSettings (j : Json) : Prop :=
  (jsonHas j (ascii "trial_duration_days") || jsonHas j (ascii "free_tier_enabled")) = true

/-- A fetch resolves again only on verified settings. -/
theorem fetchConfig_turns (w : World) :
    let v := ((fetchConfig X E).run w).2
    Steady w v ∨ JsonReply (Verifies X E) (E.replyAt w.ticks.request) ∧ Resolved E T w v := by
  intro v
  have hheaders := (routinely_jsonHeaders X E).run w
  have hrequest := hheaders.toSteady.trans (steadily_requestWithRetry (E := E) (ascii "GET")
    (apiUrl X (ascii "config")) ((jsonHeaders X E).run w).1 [] ((jsonHeaders X E).run w).2)
  have hv : v = ((fetchConfig X E).run w).2 := rfl
  simp only [fetchConfig, Prog.run_bind, requestWithRetry_reply, hheaders.request] at hv
  generalize ((requestWithRetry E _ _ _ _).run ((jsonHeaders X E).run w).2).2 = u
    at hrequest hv
  rw [hv]
  cases hr : E.replyAt w.ticks.request with
  | error e => exact .inl hrequest
  | ok resp =>
    by_cases hstatus : resp.status = 200
    · simp only [hstatus, ne_eq, not_true_eq_false, if_false]
      cases hbody : Json.parse resp.body with
      | error e => exact .inl hrequest
      | ok j =>
        simp only [Prog.run_bind]
        have hverify := hrequest.trans (steadily (routinely_verifyConfig X E j) u)
        have hvalue := verifyConfig_value X E j u
        generalize (verifyConfig X E j).run u = x at hverify hvalue ⊢
        obtain ⟨vr, x⟩ := x
        cases vr with
        | error e => exact .inl hverify
        | ok _ =>
          have hresolved : Leads (Resolved E T) (do
              let _ ← applyConfigFields X E j
              let s ← resolveCurrentState X E
              setState E s) :=
            resolves_after (steadily (routinely_applyConfigFields X E j)) fun _ =>
              resolves_current
          have hset := hresolved x
          simp only [Prog.run_bind] at hset
          simp only [Prog.run_bind, Prog.run_pure]
          refine .inr ⟨⟨resp, j, rfl, hstatus, hbody, u.ticks.now, ?_⟩, hset.after hverify⟩
          rw [← hvalue]
          rfl
    · simp only [hstatus, ne_eq, not_false_eq_true, if_true]
      exact .inl hrequest

theorem applyConfigFields_true {j : Json} {w : World}
    (h : ((applyConfigFields X E j).run w).1 = true) : HasSettings j ∧ Verifies X E j := by
  simp only [applyConfigFields, Prog.run_ite, Prog.run_bind, verifyConfig_value] at h
  split at h
  · cases h
  · next hfields =>
    split at h
    · cases h
    · next hverified =>
      refine ⟨?_, w.ticks.now, by simpa using hverified⟩
      rw [HasSettings, Bool.or_eq_true]
      exact Decidable.or_iff_not_imp_left.mpr (by simpa using hfields)

theorem absorbSettings_true {body : Bytes} {w : World}
    (h : ((absorbSettings X E body).run w).1 = true) :
    ∃ j, Json.parse body = .ok j ∧ HasSettings j ∧ Verifies X E j := by
  unfold absorbSettings at h
  cases hbody : Json.parse body with
  | error e =>
    rw [hbody] at h
    cases h
  | ok j =>
    rw [hbody] at h
    exact ⟨j, rfl, applyConfigFields_true h⟩

/-- The state is resolved anew only when the reply's settings were taken over. -/
theorem keylessReply_turns (wire body : Bytes) (w : World) :
    let v := ((keylessReply X E wire body).run w).2
    Steady w v ∨ (∃ j, Json.parse body = .ok j ∧ HasSettings j ∧ Verifies X E j) ∧
      Resolved E T w v := by
  intro v
  have habsorb := steadily (routinely_absorbSettings X E body) w
  have habsorbed := fun h : ((absorbSettings X E body).run w).1 = true => absorbSettings_true h
  have hv : v = ((keylessReply X E wire body).run w).2 := rfl
  simp only [keylessReply_eq, Prog.run_bind] at hv
  generalize (absorbSettings X E body).run w = u at habsorb habsorbed hv
  obtain ⟨absorbed, u⟩ := u
  have harm := habsorb.trans ((steadily (routinely_nowFn E) u).trans
    (steadily (routinely_armDebounce E wire ((nowFn E).run u).1) ((nowFn E).run u).2))
  generalize ((armDebounce E wire _).run ((nowFn E).run u).2).2 = x at harm hv
  rw [hv]
  cases absorbed with
  | false =>
    simp only [Bool.false_eq_true, if_false]
    exact .inl harm
  | true =>
    simp only [if_true]
    exact .inr ⟨habsorbed rfl, (resolves_current x).after harm⟩

/-- A report resolves again only when it is due and brings settings. -/
theorem reportKeylessState_turns (s : KeylessState) (w : World) :
    let v := ((reportKeylessState X E s).run w).2
    Steady w v ∨ ¬Debounced w.client.cache (keylessStateWire s) (E.now w.ticks.now) ∧
      JsonReply (fun j => HasSettings j ∧ Verifies X E j) (E.replyAt w.ticks.request) ∧
        Resolved E T w v := by
  intro v
  have hv : v = ((reportKeylessState X E s).run w).2 := rfl
  have hdebounce := (routinely_keylessDebounced E (keylessStateWire s)).run w
  have hvalue := keylessDebounced_value E (keylessStateWire s) w
  simp only [reportKeylessState, Prog.run_bind, hvalue] at hv
  generalize ((keylessDebounced E (keylessStateWire s)).run w).2 = u at hdebounce hv
  by_cases hdebounced : Debounced w.client.cache (keylessStateWire s) (E.now w.ticks.now)
  · simp only [hdebounced, decide_true, if_true, Prog.run_pure] at hv
    rw [hv]
    exact .inl hdebounce.toSteady
  · simp only [hdebounced, decide_false, Bool.false_eq_true, if_false, Prog.run_bind] at hv
    have hid := hdebounce.trans ((routinely_freeTierInstanceId E).run u)
    generalize (freeTierInstanceId E).run u = x at hid hv
    obtain ⟨instanceId, x⟩ := x
    by_cases hempty : instanceId = []
    · simp only [hempty, if_true, Prog.run_pure] at hv
      rw [hv]
      exact .inl hid.toSteady
    · simp only [hempty, if_false, Prog.run_bind] at hv
      have hhash := hid.trans ((routinely_machineHash X E).run x)
      generalize (machineHash X E).run x = y at hhash hv
      have hheaders := hhash.trans ((routinely_jsonHeaders X E).run y.2)
      generalize (jsonHeaders X E).run y.2 = z at hheaders hv
      rw [requestWithRetry_reply, hheaders.request] at hv
      have hrequest := hheaders.toSteady.trans (steadily_requestWithRetry (E := E) (ascii "POST")
        (apiUrl X (ascii "keyless")) z.1 (buildJson X ([(ascii "instance_id", jsonStr instanceId),
          (ascii "state", jsonStr (keylessStateWire s))] ++
            optionField (ascii "machine_hash") y.1) true) z.2)
      generalize ((requestWithRetry E _ _ _ _).run z.2).2 = a at hrequest hv
      rw [hv]
      cases hr : E.replyAt w.ticks.request with
      | error e => exact .inl hrequest
      | ok resp =>
        by_cases hstatus : resp.status = 200
        · simp only [hstatus, ne_eq, not_true_eq_false, if_false]
          obtain hsteady | ⟨⟨j, hbody⟩, hresolved⟩ := keylessReply_turns (X := X) (E := E) (T := T)
            (keylessStateWire s) resp.body a
          · exact .inl (hrequest.trans hsteady)
          · exact .inr ⟨hdebounced, ⟨resp, j, rfl, hstatus, hbody⟩, hresolved.after hrequest⟩
        · simp only [hstatus, ne_eq, not_false_eq_true, if_true]
          exact .inl hrequest

end Client

end Keylight
