import Keylight.Revocation

/-!
# Launching offline

`checkOnLaunch` and `refreshIfNeeded` reconcile with the server or, without a
usable reply, apply the offline grace. `untrustedReply_licensed_offline` compares the two
runs: a reply without a trusted lease leaves the client licensed only where the
same call without a network does, or where it changed nothing.
-/
namespace Keylight
open Bytes Sections

namespace Client

/-- A verdict with a lease comes from a body with that lease. -/
theorem validationVerdict_lease {r : Result HttpResponse} {j : Json} {l : Lease}
    (h : validationVerdict r = .rejectedLease j l ∨ validationVerdict r = .renewed j l) :
    ∃ resp, r = .ok resp ∧ Json.parse resp.body = .ok j ∧ leaseOf j = some l := by
  cases r with
  | error e => simp [validationVerdict] at h
  | ok resp =>
    simp only [validationVerdict] at h
    refine ⟨resp, rfl, ?_⟩
    cases hbody : Json.parse resp.body with
    | error e =>
      simp only [hbody] at h
      split_ifs at h <;> simp at h
    | ok j' =>
      simp only [hbody] at h
      cases hl : leaseOf j' with
      | none =>
        simp only [hl] at h
        split_ifs at h <;> simp at h
      | some l' =>
        simp only [hl] at h
        split_ifs at h
        · simp only [Verdict.rejectedLease.injEq, or_false] at h
          obtain ⟨rfl, rfl⟩ := h
          exact ⟨rfl, hl⟩
        · simp at h
        · simp only [Verdict.renewed.injEq, false_or] at h
          obtain ⟨rfl, rfl⟩ := h
          exact ⟨rfl, hl⟩

/-- A verdict without a lease comes from a 200 without one. -/
theorem validationVerdict_leaseless {r : Result HttpResponse} {j : Json}
    (h : validationVerdict r = .leaseless j) :
    ∃ resp, r = .ok resp ∧ resp.status = 200 ∧ Json.parse resp.body = .ok j ∧
      leaseOf j = none := by
  have hf : Faithful (validationVerdict r) := validationVerdict_faithful r
  rw [h] at hf
  cases r with
  | error e => simp [validationVerdict] at h
  | ok resp =>
    simp only [validationVerdict] at h
    refine ⟨resp, rfl, ?_⟩
    by_cases hstatus : resp.status = 200
    · cases hbody : Json.parse resp.body with
      | error e => simp [hstatus, hbody] at h
      | ok j' =>
        cases hl : leaseOf j' <;> simp [hstatus, hbody, hl] at h
        subst h
        exact ⟨hstatus, rfl, hf⟩
    · by_cases hdenied : resp.status = 422
      · cases hbody : Json.parse resp.body with
        | error e => simp [hdenied, hbody] at h
        | ok j' => cases hl : leaseOf j' <;> simp [hdenied, hbody, hl] at h
      · simp [hstatus, hdenied] at h

end Client

/-- Every request fails at transport level. -/
def Offline (E : Env) : Prop := ∀ i, ∃ e, E.request i = .error e

theorem settledReply_offline {request : Nat → Result HttpResponse}
    (h : ∀ i, ∃ e, request i = .error e) (left attempt i : Nat) (last : Result HttpResponse)
    (hlast : ∃ e, last = .error e) : ∃ e, settledReply request left attempt i last = .error e := by
  induction left generalizing attempt i last with
  | zero => exact hlast
  | succ left ih =>
    simp only [settledReply]
    split_ifs
    · exact h i
    · exact h i
    · exact ih _ _ _ (h i)

theorem Offline.verdict {E : Env} (h : Offline E) : validationVerdict E.reply = .transient := by
  obtain ⟨e, he⟩ := settledReply_offline h retryMaxAttempts 1 0 _ ⟨_, rfl⟩
  rw [Env.reply, Env.replyAt, he]
  rfl

namespace Client

/-- A query looks at the anchor and the raw state only. -/
theorem stateAt_congr {c c' : Client} (hanchor : c.anchor = c'.anchor)
    (hraw : c.rawState = c'.rawState) (t : Int64) : c.stateAt t = c'.stateAt t := by
  rw [stateAt, stateAt, untrustedAt, untrustedAt, hanchor, hraw]

theorem stateAt_core {w v : World} (h : w.core = v.core) (t : Int64) :
    w.client.stateAt t = v.client.stateAt t :=
  stateAt_congr (congrArg Core.anchor h) (congrArg Core.rawState h) t

theorem stateAt_licensed {c : Client} {t : Int64} (h : c.stateAt t = .licensed) :
    c.untrustedAt t = false ∧ c.rawState = .licensed := by
  unfold stateAt at h
  split at h
  · cases h
  · exact ⟨by simp_all, h⟩

variable (X : Site) (E : Env)

theorem graceEnds_near {c c' : Cache} (h : Near c c') (now lastLvo : Int64) :
    graceEnds X c' now lastLvo ↔ graceEnds X c now lastLvo := by
  simp only [graceEnds, rawExpired, h.lease]

/-- The grace does not look at the device ids. -/
theorem gracedState_near {c c' : Core} (hcache : Near c.cache c'.cache)
    (hraw : c'.rawState = c.rawState) (now lastLvo : Int64) :
    gracedState X c' now lastLvo = gracedState X c now lastLvo := by
  simp only [gracedState, graceEnds_near X hcache, hraw]

end Client

open Client in
/-- Whether the call gets as far as asking the server at reading `t`. -/
def Op.asks (op : Op) (c : Cache) (t : Int64) : Prop := op = .refreshIfNeeded → refreshDue c t

open Client in
/-- Under a constant clock the call does nothing, settles its reply or applies the grace. -/
theorem Op.exec_graces (X : Site) (E : Env) {op : Op} (hop : op.graces) (w : World)
    (hkey : hasKey w.client.cache = true) {t : Int64} (hnow : ∀ i, E.now i = t) :
    (¬op.asks w.client.cache t ∧ (op.exec X E w).core = w.core) ∨
    (op.asks w.client.cache t ∧
      (Decodable (validationVerdict E.reply) → Settled X E (validationVerdict E.reply)
        (notedCore E { w with ticks := {} }) (op.exec X E w).core) ∧
      (¬Decodable (validationVerdict E.reply) → (op.exec X E w).core =
        { notedCore E { w with ticks := {} } with
          rawState := gracedState X w.core t w.client.cache.lastValidatedOnline })) := by
  have hgrace : ∀ u : World, SameStart { w with ticks := {} } u →
      (Decodable (validationVerdict E.reply) → Settled X E (validationVerdict E.reply)
        (notedCore E { w with ticks := {} }) ((validateAndReconcile X E).run u).2.core) ∧
      (¬Decodable (validationVerdict E.reply) → ((validateAndReconcile X E).run u).2.core =
        { notedCore E { w with ticks := {} } with
          rawState := gracedState X w.core t w.client.cache.lastValidatedOnline }) := by
    intro u hu
    have h := validateAndReconcile_core X E u
    rw [hu.request, hu.noted, hu.core, hnow] at h
    refine ⟨h.1, fun hv => ?_⟩
    rw [h.2 hv]
    have hnear := near_withHardwareId (E.hardwareId 0) w.core.cache
    have hgraced : gracedState X (notedCore E { w with ticks := {} }) t
        w.core.cache.lastValidatedOnline =
          gracedState X w.core t w.core.cache.lastValidatedOnline := by
      apply gracedState_near X
      · exact hnear
      · rfl
    rw [show World.core { w with ticks := {} } = w.core from rfl, hgraced]
    rfl
  cases op with
  | checkOnLaunch =>
    right
    refine ⟨fun h => absurd h (by decide), ?_⟩
    have hcore : (Op.checkOnLaunch.exec X E w).core =
        ((validateAndReconcile X E).run { w with ticks := {} }).2.core := by
      simp only [Op.exec, Op.code, Prog.run_bind, Prog.run_pure, checkOnLaunch_core]
      exact if_pos hkey
    rw [hcore]
    exact hgrace _ ⟨rfl, rfl, rfl⟩
  | refreshIfNeeded =>
    have hrun : Op.refreshIfNeeded.exec X E w =
        ((Client.refreshIfNeeded X E).run { w with ticks := {} }).2 := run_ignored _ _
    obtain ⟨k, ⟨hdue, hidle, -⟩ | ⟨hdue, u, n, hu, hticks, hidle⟩⟩ :=
      refreshIfNeeded_run X E { w with ticks := {} } hkey
    · left
      rw [hnow] at hdue
      exact ⟨fun h => hdue (h rfl), by rw [hrun, hidle.core]; rfl⟩
    · right
      rw [hnow] at hdue
      refine ⟨fun _ => hdue, ?_⟩
      rw [hrun, hidle.core]
      exact hgrace u ⟨hu.core, by rw [hticks], by rw [hticks]⟩
  | _ => cases hop

namespace Client
variable (X : Site) (E : Env)

/-- A reply without a trusted lease licenses nobody who was not licensed before. -/
theorem settled_licensed {v : Verdict} {c c' : Core} (h : Settled X E v c c')
    (huntrusted : ∀ j l, v = .rejectedLease j l ∨ v = .renewed j l → X.trusts l = false)
    (hl : c'.rawState = .licensed) :
    (∃ j, v = .leaseless j) ∧ c.rawState = .licensed ∧ c'.anchor = c.anchor := by
  have hinvalid : ∀ cache t, resolvedAt X cache .invalid t ≠ .licensed := by
    intro cache t hs
    obtain h | h | h | h := resolvedAt_invalid X cache t
    all_goals
      rw [hs] at h
      cases h
  cases h with
  | denied => cases hl
  | @rejected _ j l htrust => simp [huntrusted j l (.inl rfl)] at htrust
  | rejectedUntrusted => exact absurd hl (hinvalid _ _)
  | @renewed _ j l htrust => simp [huntrusted j l (.inr rfl)] at htrust
  | renewedUntrusted => exact absurd hl (hinvalid _ _)
  | leaseless _ j i n =>
    refine ⟨⟨j, rfl⟩, ?_, rfl⟩
    by_cases hraw : c.rawState = .invalid
    · rw [hraw] at hl
      exact absurd hl (hinvalid _ _)
    · rw [resolvedAt_paid X _ hraw] at hl
      exact hl

end Client

open Client in
/-- An untrusted reply is no better than no reply: when it ends licensed, so does the call
without a network, or the reply had no lease at all and the state was licensed already. -/
theorem untrustedReply_licensed_offline (X : Site) (E E' : Env) (op : Op) (w : World)
    (t : Int64) (hop : op.graces) (hkey : hasKey w.client.cache = true) (hnow : ∀ i, E.now i = t)
    (hnow' : ∀ i, E'.now i = t) (hoffline : Offline E')
    (huntrusted : ∀ resp j l, E.reply = .ok resp → Json.parse resp.body = .ok j →
      leaseOf j = some l → X.trusts l = false)
    (h : stateAt (op.exec X E w).client t = .licensed) :
    stateAt (op.exec X E' w).client t = .licensed ∨
      (∃ resp j, E.reply = .ok resp ∧ resp.status = 200 ∧ Json.parse resp.body = .ok j ∧
        leaseOf j = none) ∧ stateAt w.client t = .licensed := by
  have htransient : ¬Decodable (validationVerdict E'.reply) := by
    rw [hoffline.verdict]
    exact fun hd => hd.1 rfl
  obtain ⟨hasks, hcore⟩ | ⟨hasks, hsettled, hgraced⟩ := op.exec_graces X E hop w hkey hnow
  · obtain ⟨-, hcore'⟩ | ⟨hasks', -⟩ := op.exec_graces X E' hop w hkey hnow'
    · left
      rw [stateAt_core hcore', ← stateAt_core hcore]
      exact h
    · exact absurd hasks' hasks
  · obtain ⟨hasks', -⟩ | ⟨-, -, hgraced'⟩ := op.exec_graces X E' hop w hkey hnow'
    · exact absurd hasks hasks'
    · by_cases hv : Decodable (validationVerdict E.reply)
      · right
        have hraw := (stateAt_licensed h).2
        obtain ⟨⟨j, hj⟩, hbefore, hanchor⟩ := settled_licensed X E (hsettled hv) (by
          intro j l hjl
          obtain ⟨resp, hreply, hbody, hl⟩ := validationVerdict_lease hjl
          exact huntrusted resp j l hreply hbody hl) hraw
        obtain ⟨resp, hreply, hstatus, hbody, hl⟩ := validationVerdict_leaseless hj
        refine ⟨⟨resp, j, hreply, hstatus, hbody, hl⟩, ?_⟩
        rw [← h]
        exact stateAt_congr hanchor.symm (hbefore.trans hraw.symm) t
      · left
        rw [← h]
        exact stateAt_congr
          ((congrArg Core.anchor (hgraced' htransient)).trans
            (congrArg Core.anchor (hgraced hv)).symm)
          ((congrArg Core.rawState (hgraced' htransient)).trans
            (congrArg Core.rawState (hgraced hv)).symm) t

/-- A server that answers every request with an empty object. -/
def emptyAt (t : Int64) : Env := repliesAt t ⟨200, ascii "{}", []⟩

theorem emptyAt_untrusted (X : Site) (t : Int64) : ∀ resp j l, (emptyAt t).reply = .ok resp →
    Json.parse resp.body = .ok j → leaseOf j = some l → X.trusts l = false := by
  intro resp j l hreply hbody hl
  cases hreply
  have hempty : Json.parse (ascii "{}") = .ok (.object [] []) := rfl
  rw [hempty] at hbody
  cases hbody
  cases hl

/-- A 200 with an empty object keeps the client licensed past the offline bound; without a
network it expires. -/
theorem leaseless_licensed : ¬∀ (X : Site) (store : Bytes) (calls : List Call) (E E' : Env)
    (op : Op) (t : Int64), op.graces →
    Client.hasKey (history X store calls).client.cache = true →
    (∃ l, (history X store calls).client.cache.lease = some l ∧ X.trusts l = true) →
    (∀ i, E.now i = t) → (∀ i, E'.now i = t) → Offline E' →
    (∀ resp j l, E.reply = .ok resp → Json.parse resp.body = .ok j → leaseOf j = some l →
      X.trusts l = false) →
    Client.stateAt (op.exec X E (history X store calls)).client t = .licensed →
    Client.stateAt (op.exec X E' (history X store calls)).client t = .licensed := by
  intro h
  have honline : Client.stateAt (Op.checkOnLaunch.exec vectorSite
      (emptyAt 1781335456) vectorWorld).client 1781335456 = .licensed := by decide +kernel
  have hoffline : Client.stateAt (Op.checkOnLaunch.exec vectorSite
      (offlineAt 1781335456) vectorWorld).client 1781335456 = .expired := by decide +kernel
  have hkey := vectorWorld_hasKey
  have hlease := vectorWorld_holds.2
  rw [vectorWorld] at honline hoffline hkey hlease
  have hlicensed := h vectorSite vectorStore _ (emptyAt 1781335456) (offlineAt 1781335456)
    .checkOnLaunch 1781335456 rfl hkey ⟨vectorLease, hlease, by decide +kernel⟩ (fun _ => rfl)
    (fun _ => rfl) (fun _ => ⟨_, rfl⟩) (emptyAt_untrusted _ _) honline
  rw [hoffline] at hlicensed
  cases hlicensed

/-- Within the lease and the offline bound an empty reply and no reply agree. -/
theorem untrustedReply_licensed_offline_vector :
    Client.stateAt (Op.checkOnLaunch.exec vectorSite (offlineAt 1781076310) vectorWorld).client
      1781076310 = .licensed ∨
    (∃ resp j, (emptyAt 1781076310).reply = .ok resp ∧ resp.status = 200 ∧
      Json.parse resp.body = .ok j ∧ leaseOf j = none) ∧
      Client.stateAt vectorWorld.client 1781076310 = .licensed :=
  untrustedReply_licensed_offline vectorSite (emptyAt 1781076310) (offlineAt 1781076310)
    .checkOnLaunch vectorWorld 1781076310 rfl vectorWorld_hasKey (fun _ => rfl) (fun _ => rfl)
    (fun _ => ⟨_, rfl⟩) (emptyAt_untrusted _ _) (by decide +kernel)

end Keylight
