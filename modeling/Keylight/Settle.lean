import Keylight.Effects

/-!
# What a validation settles

`Settled` lists, verdict by verdict, what a validation reply can do to the core.
Both validation paths are shown to settle; the transient verdicts are the only
ones on which they differ.
-/
namespace Keylight
open Bytes Sections

/-- Trust does not depend on the clock. -/
def Site.trusts (X : Site) (l : Lease) : Bool := (X.verify l 0).isTrusted

theorem Site.verify_isTrusted (X : Site) (l : Lease) (t : Int64) :
    (X.verify l t).isTrusted = X.trusts l := Verifier.isTrusted_verify _ _ _ _ _

/-- The state a lease stands for at a clock reading. -/
def leaseState (X : Site) (l : Lease) (t : Int64) : State :=
  Client.deriveStateFromVerify l (X.verify l t)

theorem leaseState_untrusted {X : Site} {l : Lease} (h : X.trusts l = false) (t : Int64) :
    leaseState X l t = .invalid := by
  simp [leaseState, Client.deriveStateFromVerify, X.verify_isTrusted, h]

theorem leaseState_trusted {X : Site} {l : Lease} (h : X.trusts l = true) (t : Int64) :
    leaseState X l t = .licensed ∨ leaseState X l t = .limited ∨ leaseState X l t = .expired := by
  simp only [leaseState, Client.deriveStateFromVerify, X.verify_isTrusted, h, Bool.not_true,
    Bool.false_eq_true, if_false]
  split
  · split <;> simp
  · split <;> simp

theorem leaseState_ne_trial (X : Site) (l : Lease) (t : Int64) : leaseState X l t ≠ .trial := by
  cases h : X.trusts l with
  | false => simp [leaseState_untrusted h]
  | true =>
    obtain h | h | h := leaseState_trusted h t
    all_goals simp [h]

theorem leaseOf_accepted {j : Json} {l : Lease} (h : leaseOf j = some l) : l.Accepted := by
  simp only [leaseOf] at h
  split at h
  · cases hf : Lease.fromJson (j.get (ascii "lease")) with
    | error e => simp [hf, Except.toOption] at h
    | ok l' =>
      simp only [hf, Except.toOption, Option.some.injEq] at h
      exact h ▸ Lease.accepted_of_fromJson hf
  · cases h

namespace Client
variable (X : Site) (E : Env)

@[simp] theorem resolvedAt_paid (c : Cache) {s : State} (h : s ≠ .invalid) (t : Int64) :
    resolvedAt X c s t = s := by
  simp [resolvedAt, h]

/-- Resolving an unusable paid state never yields a paid one. -/
theorem resolvedAt_invalid (c : Cache) (t : Int64) :
    resolvedAt X c .invalid t = .trial ∨ resolvedAt X c .invalid t = .freeTier ∨
      resolvedAt X c .invalid t = .expired ∨ resolvedAt X c .invalid t = .invalid := by
  simp only [resolvedAt, ne_eq, not_true_eq_false, if_false]
  cases trialStatusAt X c t with
  | active => simp
  | expired => dsimp only; split <;> simp
  | notStarted => dsimp only; split <;> simp

theorem resolvedAt_ne_trial {c : Cache} {s : State} {t : Int64} (hs : s ≠ .trial)
    (h : s = .invalid → trialStatusAt X c t ≠ .active) : resolvedAt X c s t ≠ .trial := by
  by_cases hinv : s = .invalid
  · have hstatus := h hinv
    simp only [resolvedAt, hinv, ne_eq, not_true_eq_false, if_false]
    cases hactive : trialStatusAt X c t with
    | active => exact absurd hactive hstatus
    | expired => dsimp only; split <;> simp
    | notStarted => dsimp only; split <;> simp
  · rw [resolvedAt_paid X c hinv]
    exact hs

/-- The cache after a trusted lease of reply `j` is persisted and anchored at `t`. -/
def renewedCache (j : Json) (l : Lease) (t : Int64) (c : Cache) : Cache :=
  { c with
    lease := some l
    expiresAt := (intOf j (ascii "license_expires_at")).or c.expiresAt
    lastValidatedOnline := t }

theorem persistData_lease {l : Lease} (h : l.Accepted) (expiresAt : Option Int64)
    (instanceId licenseKey : Option Bytes) :
    PersistData.lease ⟨some (leaseToJson l), expiresAt, instanceId, licenseKey⟩ = some l := by
  have hparse := fromJson_leaseToJson l h
  simp [PersistData.lease, hparse, Except.toOption]

/-- Nothing but the lease itself comes back from a persist record. -/
theorem persistData_same {l l' : Lease} {expiresAt : Option Int64}
    {instanceId licenseKey : Option Bytes}
    (h : PersistData.lease ⟨some (leaseToJson l), expiresAt, instanceId, licenseKey⟩ = some l') :
    l' = l := by
  simp only [PersistData.lease, Option.bind_some, (reads_leaseToJson l).parse] at h
  change (Lease.fromJson (leaseValue l)).toOption = some l' at h
  rw [fromJson_leaseValue] at h
  split at h
  · cases h
  · exact (Option.some.inj h).symm

theorem merge_renewed {l : Lease} (h : l.Accepted) (j : Json) (t : Int64) (c : Cache) :
    { PersistData.merge ⟨some (leaseToJson l), intOf j (ascii "license_expires_at"),
      c.instanceId, none⟩ c with lastValidatedOnline := t } = renewedCache j l t c := by
  simp [PersistData.merge, persistData_lease h, renewedCache]

/-- The reply's settings, taken over when they pass `verify_config_` at reading `t`. -/
def verifyConfigAt (j : Json) (t : Int64) : Result Unit :=
  ((verifyConfig X { now := fun _ => t } j).run {}).1

def configured (j : Json) (t : Int64) (c : Cache) : Cache :=
  if isOk (verifyConfigAt X j t) then mergeConfig j c else c

/-- What `verify_config_` answers, at its one reading. -/
theorem verifyConfig_value (j : Json) (w : World) :
    ((verifyConfig X E j).run w).1 = verifyConfigAt X j (E.now w.ticks.now) := by
  simp only [verifyConfigAt, verifyConfig, Prog.run_ite]
  split
  · rfl
  · split
    · rfl
    · split
      · rfl
      · cases X.cfg.trustedKeys.lookup (j.get (ascii "kid")).asString with
        | none => rfl
        | some pub =>
          simp only [nowFn, Prog.run_bind, Prog.run_atom, Prog.run_ite]
          split
          · rfl
          · split <;> rfl

theorem mergeConfig_absent {j : Json} (c : Cache)
    (h : (!jsonHas j (ascii "trial_duration_days") && !jsonHas j (ascii "free_tier_enabled"))
      = true) : mergeConfig j c = c := by
  simp only [Bool.and_eq_true, Bool.not_eq_true'] at h
  simp [mergeConfig, h.1, h.2]

/-- A body is absorbed into the cache when it verifies. -/
theorem applyConfigFields_core (j : Json) (w : World) :
    ((applyConfigFields X E j).run w).2.core =
      { w.core with cache := configured X j (E.now w.ticks.now) w.core.cache } := by
  have hidle := (quiet_verifyConfig X E j).run w
  simp only [applyConfigFields, configured, Prog.run_ite, Prog.run_bind, verifyConfig_value]
  by_cases hf : (!jsonHas j (ascii "trial_duration_days") &&
      !jsonHas j (ascii "free_tier_enabled")) = true
  · simp only [if_pos hf, mergeConfig_absent _ hf, ite_self, Prog.run_pure]
  · simp only [if_neg hf]
    cases hv : isOk (verifyConfigAt X j (E.now w.ticks.now)) with
    | false => simpa using hidle.core
    | true =>
      simp only [writeCache, Bool.not_true, Bool.false_eq_true, if_false, if_true,
        Prog.run_modify, Prog.run_pure, saveCache_core]
      rw [← hidle.core]
      rfl

/-- The paid state a reply's lease resolves to, the raw state standing in for no lease. -/
def paidState (lease : Option Lease) (rawState : State) (t : Int64) : State :=
  match lease with
  | none => rawState
  | some l => leaseState X l t

theorem resolveFromLease_value (lease : Option Lease) (w : World) :
    ((resolveFromLease X E lease).run w).1 =
      paidState X lease w.core.rawState (E.now w.ticks.now) := by
  cases lease with
  | none => exact resolveFromLease_none X E w
  | some l => exact resolveFromLease_some X E l w

/-- The common end of every validation reply. -/
def resolveAndSet (lease : Option Lease) : Code State := do
  let paid ← resolveFromLease X E lease
  let newState ← resolveWithTrial X E paid
  setState E newState
  pure newState

theorem resolveAndSet_core (lease : Option Lease) (w : World) : ∃ i j,
    ((resolveAndSet X E lease).run w).2.core =
      { w.core with
        rawState := resolvedAt X w.core.cache (paidState X lease w.core.rawState (E.now i))
          (E.now j) } := by
  have h₁ := (quiet_resolveFromLease X E lease).run w
  have h₂ := (quiet_resolveWithTrial X E ((resolveFromLease X E lease).run w).1).run
    ((resolveFromLease X E lease).run w).2
  simp only [resolveAndSet, Prog.run_bind, Prog.run_pure, setState_core, h₂.core,
    resolveWithTrial_value, h₁.core]
  rw [resolveFromLease_value]
  exact ⟨_, _, rfl⟩

theorem resolveAndSet_store (lease : Option Lease) (w : World) :
    ((resolveAndSet X E lease).run w).2.store = w.store := by
  have h₁ := (quiet_resolveFromLease X E lease).run w
  have h₂ := (quiet_resolveWithTrial X E ((resolveFromLease X E lease).run w).1).run
    ((resolveFromLease X E lease).run w).2
  simp only [resolveAndSet, Prog.run_bind, Prog.run_pure, setState_store, h₂.store, h₁.store]

/-- Keeping a trusted lease of reply `j`, anchored at `t`. -/
def keepLease (j : Json) (l : Lease) (t : Int64) : Code Unit := do
  let iid ← readCache fun c => c.instanceId
  persist E ⟨some (leaseToJson l), intOf j (ascii "license_expires_at"), iid, none⟩
  saveLastValidatedOnline E t

theorem keepLease_core {l : Lease} (hl : l.Accepted) (j : Json) (t : Int64) (w : World) :
    ((keepLease E j l t).run w).2.core =
      { w.core with cache := renewedCache j l t w.core.cache, anchor := t } := by
  simp only [keepLease, readCache, Prog.run_bind, Prog.run_read, saveLastValidatedOnline_core,
    persist_core]
  exact congrArg (fun c => Core.mk c w.core.rawState t) (merge_renewed hl j t w.core.cache)

theorem rejectWithLease_eq (j : Json) (l : Lease) (now : Int64) :
    rejectWithLease X E j l now = (do
      if X.trusts l then keepLease E j l now else pure ()
      resolveAndSet X E (some l)) := by
  simp only [rejectWithLease, resolveAndSet, keepLease, X.verify_isTrusted]
  cases X.trusts l <;> simp

/-- A decoded 200 reply after its settings: the lease is checked at one reading of the clock. -/
theorem reconcileReply_eq (j : Json) (now : Int64) :
    reconcileReply X E j now = (do
      let _ ← applyConfigFields X E j
      match leaseOf j with
      | some l => do
        let _ ← nowFn E
        if X.trusts l then keepLease E j l now else pure ()
        resolveAndSet X E (some l)
      | none => resolveAndSet X E none) := by
  simp only [reconcileReply, resolveAndSet, keepLease, X.verify_isTrusted]
  cases hl : leaseOf j with
  | none => simp
  | some l => cases X.trusts l <;> simp

/-- The same with the anchor read after the lease is persisted. -/
def keepLeaseThenRead (j : Json) (l : Lease) : Code Unit := do
  let iid ← readCache fun c => c.instanceId
  persist E ⟨some (leaseToJson l), intOf j (ascii "license_expires_at"), iid, none⟩
  let now ← nowFn E
  saveLastValidatedOnline E now

theorem keepLeaseThenRead_core {l : Lease} (hl : l.Accepted) (j : Json) (w : World) : ∃ k,
    ((keepLeaseThenRead E j l).run w).2.core =
      { w.core with cache := renewedCache j l (E.now k) w.core.cache, anchor := E.now k } := by
  simp only [keepLeaseThenRead, readCache, Prog.run_bind, Prog.run_read,
    saveLastValidatedOnline_core, ((quiet_nowFn E).run _).core, persist_core]
  exact ⟨_, congrArg (fun c => Core.mk c w.core.rawState _) (merge_renewed hl j _ w.core.cache)⟩

/-- The handler of a 200 with its common steps named. -/
theorem validateReply_eq (j : Json) :
    validateReply X E j = (do
      let _ ← applyConfigFields X E j
      match leaseOf j with
      | some l => do
        let _ ← nowFn E
        if X.trusts l then keepLeaseThenRead E j l else pure ()
        resolveAndSet X E (some l)
      | none => resolveAndSet X E none) >>= report E := by
  simp only [validateReply, resolveAndSet, keepLeaseThenRead, X.verify_isTrusted]
  cases hl : leaseOf j with
  | none => simp
  | some l => cases h : X.trusts l <;> simp [h]

/-- The verdicts of a decodable reply. -/
def Decodable (v : Verdict) : Prop := v ≠ .transient ∧ v ≠ .undecodable

/-- A verdict with a reply says what lease the reply has. -/
def Faithful : Verdict → Prop
  | .rejectedLease j l => leaseOf j = some l
  | .renewed j l => leaseOf j = some l
  | .leaseless j => leaseOf j = none
  | _ => True

/-- A verdict carries the lease of its body. -/
theorem validationVerdict_faithful (r : Result HttpResponse) : Faithful (validationVerdict r) := by
  cases r with
  | error e => trivial
  | ok resp =>
    simp only [validationVerdict]
    by_cases h₂₀₀ : resp.status = 200
    · cases Json.parse resp.body with
      | error e => simp [h₂₀₀, Faithful]
      | ok j => cases hl : leaseOf j <;> simp [h₂₀₀, Faithful, hl]
    · by_cases h₄₂₂ : resp.status = 422
      · cases Json.parse resp.body with
        | error e => simp [h₄₂₂, Faithful]
        | ok j => cases hl : leaseOf j <;> simp [h₄₂₂, Faithful, hl]
      · simp [h₂₀₀, h₄₂₂, Faithful]

/-- What a decodable reply does to the core. -/
inductive Settled : Verdict → Core → Core → Prop where
  | denied (c : Core) :
    Settled .denied c { c with cache := { c.cache with lease := none }, rawState := .invalid }
  | rejected (c : Core) {j : Json} {l : Lease} (h : X.trusts l = true) (i k : Nat) :
    Settled (.rejectedLease j l) c
      ⟨renewedCache j l (E.now k) c.cache, leaseState X l (E.now i), E.now k⟩
  | rejectedUntrusted (c : Core) {j : Json} {l : Lease} (h : X.trusts l = false) (i : Nat) :
    Settled (.rejectedLease j l) c
      { c with rawState := resolvedAt X c.cache .invalid (E.now i) }
  | renewed (c : Core) {j : Json} {l : Lease} (h : X.trusts l = true) (i k n : Nat) :
    Settled (.renewed j l) c
      ⟨renewedCache j l (E.now k) (configured X j (E.now n) c.cache),
        leaseState X l (E.now i), E.now k⟩
  | renewedUntrusted (c : Core) {j : Json} {l : Lease} (h : X.trusts l = false) (i n : Nat) :
    Settled (.renewed j l) c
      { c with
        cache := configured X j (E.now n) c.cache
        rawState := resolvedAt X (configured X j (E.now n) c.cache) .invalid (E.now i) }
  | leaseless (c : Core) (j : Json) (i n : Nat) :
    Settled (.leaseless j) c
      { c with
        cache := configured X j (E.now n) c.cache
        rawState := resolvedAt X (configured X j (E.now n) c.cache) c.rawState (E.now i) }

/-- A trusted lease decides the state without the trial. -/
theorem resolveAndSet_trusted {l : Lease} (h : X.trusts l = true) (w : World) : ∃ i,
    ((resolveAndSet X E (some l)).run w).2.core =
      { w.core with rawState := leaseState X l (E.now i) } := by
  obtain ⟨i, k, hcore⟩ := resolveAndSet_core X E (some l) w
  refine ⟨i, ?_⟩
  rw [hcore, paidState, resolvedAt_paid]
  obtain h | h | h := leaseState_trusted h (E.now i)
  all_goals simp [h]

theorem resolveAndSet_untrusted {l : Lease} (h : X.trusts l = false) (w : World) : ∃ i,
    ((resolveAndSet X E (some l)).run w).2.core =
      { w.core with rawState := resolvedAt X w.core.cache .invalid (E.now i) } := by
  obtain ⟨i, k, hcore⟩ := resolveAndSet_core X E (some l) w
  refine ⟨k, ?_⟩
  rw [hcore, paidState, leaseState_untrusted h]

theorem revoke_core (w : World) : ((revoke E).run w).2.core =
    { w.core with cache := { w.core.cache with lease := none }, rawState := .invalid } := by
  simp only [revoke, Prog.run_bind, Prog.run_pure, setState_core, clearLease_core]

/-- A rejection with a lease has one of the outcomes. -/
theorem rejectWithLease_settled {j : Json} {l : Lease} (hl : l.Accepted) (k : Nat) (w : World) :
    Settled X E (.rejectedLease j l) w.core
      ((rejectWithLease X E j l (E.now k)).run w).2.core := by
  rw [rejectWithLease_eq]
  cases h : X.trusts l with
  | true =>
    obtain ⟨i, hcore⟩ := resolveAndSet_trusted X E h ((keepLease E j l (E.now k)).run w).2
    simp only [if_true, Prog.run_bind, hcore, keepLease_core E hl]
    exact .rejected w.core h i k
  | false =>
    obtain ⟨i, hcore⟩ := resolveAndSet_untrusted X E h w
    simp only [Bool.false_eq_true, if_false, hcore]
    exact .rejectedUntrusted w.core h i

/-- A 200 reply, for any end that keeps the lease at some reading when it is trusted. -/
theorem reply_settled {j : Json} {v : Verdict} (keep : Lease → Code Unit)
    (hv : v = match leaseOf j with
      | some l => .renewed j l
      | none => .leaseless j)
    (hkeep : ∀ l, leaseOf j = some l → ∀ w, ∃ k, ((keep l).run w).2.core =
      { w.core with cache := renewedCache j l (E.now k) w.core.cache, anchor := E.now k })
    (w : World) : Settled X E v w.core ((do
      let _ ← applyConfigFields X E j
      match leaseOf j with
      | some l => do
        let _ ← nowFn E
        if X.trusts l then keep l else pure ()
        resolveAndSet X E (some l)
      | none => resolveAndSet X E none : Code State).run w).2.core := by
  rw [hv, Prog.run_bind]
  have hconf := applyConfigFields_core X E j w
  generalize ((applyConfigFields X E j).run w).2 = w₁ at hconf ⊢
  cases hl : leaseOf j with
  | none =>
    obtain ⟨i, k, hcore⟩ := resolveAndSet_core X E none w₁
    dsimp only
    rw [hcore, hconf]
    exact .leaseless w.core j k _
  | some l =>
    have hnow := ((quiet_nowFn E).run w₁).core
    dsimp only
    rw [Prog.run_bind]
    generalize ((nowFn E).run w₁).2 = w₂ at hnow ⊢
    rw [hconf] at hnow
    cases h : X.trusts l with
    | true =>
      obtain ⟨k, hk⟩ := hkeep l hl w₂
      obtain ⟨i, hcore⟩ := resolveAndSet_trusted X E h ((keep l).run w₂).2
      simp only [if_true, Prog.run_bind, hcore, hk, hnow]
      exact .renewed w.core h i k _
    | false =>
      obtain ⟨i, hcore⟩ := resolveAndSet_untrusted X E h w₂
      simp only [Bool.false_eq_true, if_false, hcore, hnow]
      exact .renewedUntrusted w.core h i _

/-- So has every decodable verdict of `validate`. -/
theorem settleValidate_settled {v : Verdict} (hv : Decodable v) (hf : Faithful v) (w : World) :
    Settled X E v w.core ((settleValidate X E v).run w).2.core := by
  cases v with
  | transient => exact absurd rfl hv.1
  | undecodable => exact absurd rfl hv.2
  | denied =>
    simp only [settleValidate, Prog.run_bind]
    rw [((quiet_report E _).run _).core, revoke_core, ((quiet_nowFn E).run w).core]
    exact .denied w.core
  | rejectedLease j l =>
    have hs := rejectWithLease_settled X E (j := j) (leaseOf_accepted hf) w.ticks.now
      ((nowFn E).run w).2
    rw [((quiet_nowFn E).run w).core] at hs
    simp only [settleValidate, Prog.run_bind]
    rw [((quiet_report E _).run _).core]
    exact hs
  | renewed j l =>
    simp only [settleValidate, validateReply_eq, Prog.run_bind (k := report E)]
    rw [((quiet_report E _).run _).core]
    refine reply_settled X E _ ?_ (fun l' hl' w' => ?_) w
    · rw [show leaseOf j = some l from hf]
    · exact keepLeaseThenRead_core E (leaseOf_accepted hl') j w'
  | leaseless j =>
    simp only [settleValidate, validateReply_eq, Prog.run_bind (k := report E)]
    rw [((quiet_report E _).run _).core]
    refine reply_settled X E _ ?_ (fun l' hl' w' => ?_) w
    · rw [show leaseOf j = none from hf]
    · exact keepLeaseThenRead_core E (leaseOf_accepted hl') j w'

/-- And of the shared validation. -/
theorem settleReconcile_settled {v : Verdict} (hv : Decodable v) (hf : Faithful v) (k : Nat)
    (lastLvo : Int64) (w : World) :
    Settled X E v w.core ((settleReconcile X E (E.now k) lastLvo v).run w).2.core := by
  cases v with
  | transient => exact absurd rfl hv.1
  | undecodable => exact absurd rfl hv.2
  | denied =>
    simp only [settleReconcile, revoke_core]
    exact .denied w.core
  | rejectedLease j l => exact rejectWithLease_settled X E (leaseOf_accepted hf) k w
  | renewed j l =>
    simp only [settleReconcile, reconcileReply_eq]
    refine reply_settled X E _ ?_ (fun l' hl' w' => ⟨k, ?_⟩) w
    · rw [show leaseOf j = some l from hf]
    · exact keepLease_core E (leaseOf_accepted hl') j _ w'
  | leaseless j =>
    simp only [settleReconcile, reconcileReply_eq]
    refine reply_settled X E _ ?_ (fun l' hl' w' => ⟨k, ?_⟩) w
    · rw [show leaseOf j = none from hf]
    · exact keepLease_core E (leaseOf_accepted hl') j _ w'

def rawExpired (c : Cache) (now : Int64) : Bool :=
  match c.lease with
  | none => true
  | some l => decide (now > l.expiresAt)

/-- The lease has passed its raw expiry, or the last validation is too long ago. -/
def graceEnds (c : Cache) (now lastLvo : Int64) : Prop :=
  rawExpired c now = true ∨ X.cfg.maxOfflineDays > 0 ∧
    ¬(lastLvo > 0 ∧ now - lastLvo ≤ X.cfg.maxOfflineDays.toInt64 * 86400)

instance (c : Cache) (now lastLvo : Int64) : Decidable (graceEnds X c now lastLvo) :=
  inferInstanceAs (Decidable (_ ∨ _))

/-- The raw state after a transient failure. -/
def gracedState (c : Core) (now lastLvo : Int64) : State :=
  if c.rawState = .licensed ∧ graceEnds X c.cache now lastLvo then .expired else c.rawState

theorem downgrade_core (w : World) : ((downgrade E).run w).2.core =
    { w.core with
      rawState := if w.core.rawState = .licensed then .expired else w.core.rawState } := by
  simp only [downgrade, loadState, Prog.run_bind, Prog.run_read, Prog.run_ite]
  by_cases h : w.client.rawState = .licensed
  · simp only [if_pos h, Prog.run_pure, setState_core]
    rw [if_pos (show w.core.rawState = .licensed from h)]
  · simp only [if_neg h, Prog.run_pure]
    rw [if_neg (show ¬w.core.rawState = .licensed from h)]

/-- The grace changes the raw state only. -/
theorem applyOfflineGrace_core (now lastLvo : Int64) (w : World) :
    ((applyOfflineGrace X E now lastLvo).run w).2.core =
      { w.core with rawState := gracedState X w.core now lastLvo } := by
  have hgrace : ∀ c : Core, gracedState X c now lastLvo =
      if graceEnds X c.cache now lastLvo then
        if c.rawState = .licensed then .expired else c.rawState
      else c.rawState := by
    intro c
    by_cases hg : graceEnds X c.cache now lastLvo <;> simp [gracedState, hg]
  have hread : (applyOfflineGrace X E now lastLvo).run w =
      (if rawExpired w.core.cache now then downgrade E
      else if X.cfg.maxOfflineDays ≤ 0 then loadState
      else if lastLvo > 0 ∧ now - lastLvo ≤ X.cfg.maxOfflineDays.toInt64 * 86400 then loadState
      else downgrade E).run w := rfl
  rw [hread, hgrace]
  by_cases hr : rawExpired w.core.cache now = true
  · rw [if_pos hr, if_pos (.inl hr), downgrade_core]
  · rw [if_neg hr]
    by_cases hd : X.cfg.maxOfflineDays ≤ 0
    · have hg : ¬graceEnds X w.core.cache now lastLvo := by
        rintro (h | ⟨h, -⟩)
        · exact hr h
        · exact absurd hd (Int32.not_le.2 h)
      rw [if_pos hd, if_neg hg, (quiet_loadState.run w).core]
    · rw [if_neg hd]
      by_cases hl : lastLvo > 0 ∧ now - lastLvo ≤ X.cfg.maxOfflineDays.toInt64 * 86400
      · have hg : ¬graceEnds X w.core.cache now lastLvo := by
          rintro (h | ⟨-, h⟩)
          · exact hr h
          · exact h hl
        rw [if_pos hl, if_neg hg, (quiet_loadState.run w).core]
      · rw [if_neg hl, if_pos (.inr ⟨Int32.not_le.1 hd, hl⟩), downgrade_core]

/-- The core once a request has noted the hardware id. -/
def notedCore (w : World) : Core :=
  { w.core with cache := withHardwareId (E.hardwareId w.ticks.hardwareId) w.core.cache }

theorem not_decodable {v : Verdict} (h : ¬Decodable v) : v = .transient ∨ v = .undecodable := by
  cases v <;> simp_all [Decodable]

/-- `notify` reads at most the clock. -/
theorem notify_ticks (w : World) : ((notify E).run w).2.ticks =
    { w.ticks with now := ((notify E).run w).2.ticks.now } := by
  simp only [notify, lockNotify, unlockNotify, state, clockUntrusted, loadState, nowFn,
    Prog.run_bind, Prog.run_await, Prog.run_read, Prog.run_modify, Prog.run_ite]
  split <;> simp only [Prog.run_atom, Prog.run_pure] <;> split <;> split <;> rfl

/-- What an operation finds when the reply to its `action` is in: the hardware id is noted and
the exchange is in the history. -/
structure Asked (action : Bytes) (w u : World) : Prop where
  core : u.core = notedCore E w
  store : u.store = notedStore E w
  logged : ∃ headers body, Event.exchange ⟨ascii "POST", apiUrl X action, headers, body⟩
    (E.replyAt w.ticks.request) ∈ u.log

theorem Asked.idle {action : Bytes} {w u v : World} (h : Asked X E action w u) (hi : Idle u v) :
    Asked X E action w v := by
  obtain ⟨headers, body, hmem⟩ := h.logged
  obtain ⟨es, hlog, -⟩ := hi.log
  refine ⟨hi.core.trans h.core, hi.store.trans h.store, headers, body, ?_⟩
  rw [hlog]
  exact List.mem_append_left _ hmem

/-- Nothing before the request matters but the inputs it reads. -/
theorem Asked.start {action : Bytes} {w z u : World} {n : Nat} (h : Asked X E action z u)
    (hi : Idle w z) (hticks : z.ticks = { w.ticks with now := n }) : Asked X E action w u := by
  refine ⟨?_, ?_, ?_⟩
  · rw [h.core, notedCore, notedCore, hi.core, hticks]
  · rw [h.store, notedStore, notedStore, hi.core, hi.store, hticks]
  · have hlogged := h.logged
    rw [hticks] at hlogged
    exact hlogged

/-- The request of an operation, once its attribution fields are gathered. -/
theorem asked_post (action : Bytes) {w v : World} (hnoted : Noted E w v) (text : Bytes)  :
    Asked X E action w ((do
      let headers ← jsonHeaders X E
      requestWithRetry E (ascii "POST") (apiUrl X action) headers text : Code _).run v).2 := by
  have hheaders := (quiet_jsonHeaders X E).run v
  have hindex : ((jsonHeaders X E).run v).2.ticks.request = w.ticks.request := hnoted.request
  simp only [Prog.run_bind]
  generalize (jsonHeaders X E).run v = z at hheaders hindex ⊢
  have hreq := (quiet_requestWithRetry E (ascii "POST") (apiUrl X action) z.1 text).run z.2
  have hlogged := requestWithRetry_logged E (ascii "POST") (apiUrl X action) z.1 text z.2
  rw [hindex] at hlogged
  refine ⟨?_, ?_, _, _, hlogged⟩
  · rw [hreq.core, hheaders.core, hnoted.core]
    rfl
  · rw [hreq.store, hheaders.store, hnoted.store]

theorem asked_validate (licenseKey instanceId : Bytes) (w : World) :
    Asked X E (ascii "validate") w ((validateRequest X E licenseKey instanceId).run w).2 := by
  rw [validateRequest, Prog.run_bind]
  exact asked_post X E _ (appendAttributionFields_run X E _ _ w) _

/-- `validate` asks, then acts on the verdict of the reply. -/
theorem validate_run (w : World) : ∃ u, Asked X E (ascii "validate") w u ∧ (validate X E).run w =
    (settleValidate X E (validationVerdict (E.replyAt w.ticks.request))).run u := by
  have hidle := (quiet_notify E).run w
  have hticks := notify_ticks E w
  refine ⟨_, (asked_validate X E (((notify E).run w).2.client.cache.licenseKey.getD [])
    (((notify E).run w).2.client.cache.instanceId.getD []) _).start X E hidle hticks, ?_⟩
  have hreply := validateRequest_reply X E
    (((notify E).run w).2.client.cache.licenseKey.getD [])
    (((notify E).run w).2.client.cache.instanceId.getD []) ((notify E).run w).2
  rw [hticks] at hreply
  simp only [validate_eq, loadLicenseKey, loadInstanceId, readCache, Prog.run_bind,
    Prog.run_read, hreply]

/-- The reconciling validation reads the clock and the last validation before it asks. -/
theorem validateAndReconcile_run (w : World) : ∃ u, Asked X E (ascii "validate") w u ∧
    (validateAndReconcile X E).run w = (Except.ok <$> settleReconcile X E (E.now w.ticks.now)
      w.core.cache.lastValidatedOnline (validationVerdict (E.replyAt w.ticks.request))).run u := by
  have hnow : ((nowFn E).run w).1 = E.now w.ticks.now := rfl
  have hcache : ((nowFn E).run w).2.client.cache = w.core.cache := rfl
  have hreply := validateRequest_reply X E (w.core.cache.licenseKey.getD [])
    (w.core.cache.instanceId.getD []) ((nowFn E).run w).2
  refine ⟨_, (asked_validate X E (w.core.cache.licenseKey.getD [])
    (w.core.cache.instanceId.getD []) _).start X E ((quiet_nowFn E).run w)
      (n := w.ticks.now + 1) rfl, ?_⟩
  simp only [validateAndReconcile_eq, loadLastValidatedOnline, loadLicenseKey, loadInstanceId,
    readCache, Prog.run_bind, Prog.run_read, hnow, hcache, hreply]
  rfl

/-- A validation settles a decodable verdict and leaves the core otherwise. -/
theorem validate_core (w : World) :
    let v := validationVerdict (E.replyAt w.ticks.request)
    let core' := ((validate X E).run w).2.core
    (Decodable v → Settled X E v (notedCore E w) core') ∧
      (¬Decodable v → core' = notedCore E w) := by
  intro v core'
  obtain ⟨u, hask, hrun⟩ := validate_run X E w
  have hcore : core' = ((settleValidate X E v).run u).2.core := by simp only [core', hrun, v]
  rw [hcore, ← hask.core]
  refine ⟨fun hv => settleValidate_settled X E hv (validationVerdict_faithful _) u, fun hv => ?_⟩
  obtain hv | hv := not_decodable hv
  · rw [hv, settleValidate, ((quiet_keepState E).run u).core]
  · rw [hv, settleValidate, Prog.run_bind, ((quiet_keepState E).run _).core,
      ((quiet_nowFn E).run u).core]

/-- A transient verdict leaves the state to the offline grace, at the reading taken on entry. -/
theorem validateAndReconcile_core (w : World) :
    let v := validationVerdict (E.replyAt w.ticks.request)
    let core' := ((validateAndReconcile X E).run w).2.core
    (Decodable v → Settled X E v (notedCore E w) core') ∧
      (¬Decodable v → core' = { notedCore E w with
        rawState := gracedState X (notedCore E w) (E.now w.ticks.now)
          w.core.cache.lastValidatedOnline }) := by
  intro v core'
  obtain ⟨u, hask, hrun⟩ := validateAndReconcile_run X E w
  have hcore : core' = ((settleReconcile X E (E.now w.ticks.now)
      w.core.cache.lastValidatedOnline v).run u).2.core := by
    simp only [core', hrun, Prog.run_map, v]
  rw [hcore, ← hask.core]
  refine ⟨fun hv => settleReconcile_settled X E hv (validationVerdict_faithful _) _ _ u,
    fun hv => ?_⟩
  obtain hv | hv := not_decodable hv
  · rw [hv, settleReconcile, applyOfflineGrace_core]
  · rw [hv, settleReconcile, applyOfflineGrace_core]

end Client
end Keylight
