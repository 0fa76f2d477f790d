import Keylight.Gate
import Keylight.Blob

/-!
# Revocation

A decodable 422 without a trusted lease is meant to be final. `revoked_iff` says
exactly when it is: a reply without a lease the decoder accepts drops the cached
lease, an untrusted one leaves everything to what was cached before.
-/
namespace Keylight
open Bytes Sections

/-- The lease a store holds. -/
def storedLease (blob : Bytes) : Option Lease := (decodeStore blob).bind leaseOf

theorem storedLease_buildBlob (c : Cache) (h : ∀ l, c.lease = some l → l.Accepted) :
    storedLease (buildBlob c) = c.lease := by
  rw [storedLease, decodeStore_buildBlob, Option.bind_some, leaseOf_blob h]

namespace Client
variable (X : Site) (E : Env)

/-- The verdicts of a decodable 422. -/
def Rejection (v : Verdict) : Prop := v = .denied ∨ ∃ j l, v = .rejectedLease j l

/-- A rejection is handled in one way, at some reading, whichever validation received it. -/
theorem acted_rejection {v : Verdict} (hr : Rejection v) {u z : World} (h : Acted X E v u z) :
    ∃ u' k, Idle u u' ∧ Idle ((settleReconcile X E (E.now k) 0 v).run u').2 z := by
  cases h with
  | validate =>
    have hnow := (quiet_nowFn E).run u
    have hvalue : ((nowFn E).run u).1 = E.now u.ticks.now := rfl
    refine ⟨((nowFn E).run u).2, u.ticks.now, hnow, ?_⟩
    obtain h | ⟨j, l, h⟩ := hr
    · simp only [h, settleValidate, settleReconcile, Prog.run_bind]
      exact (quiet_report E _).run _
    · simp only [h, settleValidate, settleReconcile, Prog.run_bind, hvalue]
      exact (quiet_report E _).run _
  | reconcile k lastLvo =>
    refine ⟨u, k, .refl u, ?_⟩
    obtain h | ⟨j, l, h⟩ := hr
    · rw [h]
      exact .refl _
    · rw [h]
      exact .refl _

end Client

open Client in
/-- Whichever operation asks, a rejection it receives goes to the same handler. -/
theorem Op.exec_rejection (X : Site) (E : Env) {op : Op} (hop : op.validates) (w : World)
    (hkey : op = .validate ∨ hasKey w.client.cache = true)
    (hsent : 0 < (op.exec X E w).ticks.request)
    (hr : Rejection (validationVerdict E.reply)) : ∃ u k,
    Asked X E (ascii "validate") { w with ticks := {} } u ∧
      Idle ((settleReconcile X E (E.now k) 0 (validationVerdict E.reply)).run u).2
        (op.exec X E w) := by
  have hcode : Unasked X E { w with ticks := {} } (op.exec X E w) ∨
      Answered X E { w with ticks := {} } (op.exec X E w) :=
    op.code_validated X E hop { w with ticks := {} }
  have hkey' : Answered X E { w with ticks := {} } (op.exec X E w) ∨
      hasKey w.client.cache = true := by
    obtain rfl | h := hkey
    · simp only [Op.exec, Op.code, Prog.run_bind, Prog.run_pure]
      exact .inl (validate_answered X E _)
    · exact .inr h
  generalize op.exec X E w = w' at hsent hcode hkey' ⊢
  have hans : Answered X E { w with ticks := {} } w' := by
    obtain h | hkey := hkey'
    · exact h
    · obtain h | h := hcode
      · exfalso
        cases h with
        | stopped hidle hrequest =>
          rw [hrequest] at hsent
          exact Nat.lt_irrefl 0 hsent
        | keyless hnone hidle =>
          have hkey' : hasKey (World.client { w with ticks := {} }).cache = true := hkey
          rw [hkey'] at hnone
          cases hnone
      · exact h
  obtain ⟨u, z, hask, hact, hz⟩ := hans
  obtain ⟨u', k, hu, hsettle⟩ := acted_rejection X E hr hact
  exact ⟨u', k, hask.idle X E hu, hsettle.trans hz⟩

/-- What a final revocation leaves: no lease in memory or on disk, and no licence now or after
a relaunch. -/
structure Revoked (X : Site) (w : World) : Prop where
  cached : w.client.cache.lease = none
  stored : storedLease w.store = none
  state : ∀ t, w.client.stateAt t = .invalid
  entitled : ∀ feature t, w.client.entitledAt X feature t = false
  relaunched : ∀ E t, (Op.relaunch.exec X E w).client.stateAt t ≠ .licensed ∧
    (Op.relaunch.exec X E w).client.stateAt t ≠ .limited

namespace Client
variable (X : Site) (E : Env)

/-- No stamped trial counts and there is no free tier. -/
def NoTrial (c : Cache) : Prop :=
  (c.serverTrialDays.getD X.cfg.trialDurationDays ≤ 0 ∨ c.trialStart = none) ∧
    c.serverFreeTier.getD X.cfg.freeTierEnabled = false

/-- Resolving ends invalid exactly without a trial and a free tier. -/
theorem resolvedAt_eq_invalid (c : Cache) (t : Int64) :
    resolvedAt X c .invalid t = .invalid ↔ NoTrial X c := by
  have hfree : ∀ b : Bool, ∀ s : State, s ≠ .invalid →
      ((if b then State.freeTier else s) = .invalid ↔ False) ∧
      ((if b then State.freeTier else State.invalid) = .invalid ↔ b = false) := by
    intro b s hs
    cases b <;> simp [hs]
  simp only [resolvedAt, trialStatusAt, NoTrial, ne_eq, not_true_eq_false, if_false]
  by_cases hd : c.serverTrialDays.getD X.cfg.trialDurationDays ≤ 0
  · simp only [hd, if_true, true_or, true_and]
    exact (hfree _ .expired (by decide)).2
  · simp only [hd, if_false, false_or]
    cases c.trialStart with
    | none =>
      simp only [true_and]
      exact (hfree _ .expired (by decide)).2
    | some start =>
      simp only [reduceCtorEq, false_and, iff_false]
      split
      · split at * <;> simp_all
      · split <;> simp
      · split at * <;> simp_all

theorem stateAt_anchor (c : Client) : c.stateAt c.anchor = c.rawState := by
  have h : c.untrustedAt c.anchor = false := by
    simp only [untrustedAt, clockRolledBack, Int64.sub_self]
    simp [clockBackwardTolerance]
  rw [stateAt, h]
  rfl

theorem resolvedAt_unpaid (c : Cache) (t : Int64) : (resolvedAt X c .invalid t).paid = false := by
  obtain h | h | h | h := resolvedAt_invalid X c t
  all_goals rw [h]; rfl

theorem stateAt_unpaid {c : Client} (h : c.rawState.paid = false) (t : Int64) :
    c.stateAt t ≠ .licensed ∧ c.stateAt t ≠ .limited := by
  unfold stateAt
  split
  · simp
  · constructor
    · intro hs
      rw [hs] at h
      cases h
    · intro hs
      rw [hs] at h
      cases h

/-- A store without a lease launches no paid state. -/
theorem relaunch_unpaid {w : World} (h : storedLease w.store = none) :
    (Op.relaunch.exec X E w).core.rawState.paid = false := by
  obtain ⟨i, k, n, hcore⟩ := construct_core X E { w with ticks := {} }
  simp only [Op.exec, Op.code, hcore]
  cases hj : loadedJson E { w with ticks := {} } with
  | none => rfl
  | some j =>
    have hnone : leaseOf j = none := by
      simp only [loadedJson] at hj
      split at hj
      · simpa [storedLease, hj] using h
      · cases hj
    simp only [launchedCore, hnone, storedPaid]
    have hbound : boundedAt X .invalid (loadCache j {}).lastValidatedOnline (E.now k) =
        .invalid := by simp [boundedAt]
    rw [hbound]
    exact resolvedAt_unpaid X _ _

/-- Revocation in terms of what a call leaves. -/
theorem revoked_iff_core (X : Site) (w : World) : Revoked X w ↔
    w.core.cache.lease = none ∧ storedLease w.store = none ∧ w.core.rawState = .invalid := by
  constructor
  · intro h
    refine ⟨h.cached, h.stored, ?_⟩
    rw [← h.state w.client.anchor, stateAt_anchor]
    rfl
  · rintro ⟨hcached, hstored, hraw⟩
    have hcached' : w.client.cache.lease = none := hcached
    have hraw' : w.client.rawState = .invalid := hraw
    refine ⟨hcached, hstored, fun t => ?_, fun feature t => ?_, fun E t => ?_⟩
    · simp [stateAt, hraw']
    · simp [entitledAt, hcached']
    · exact stateAt_unpaid (relaunch_unpaid X E hstored) t

variable {E}

theorem savedStore_ok (hsave : ∀ i, E.save i = none) (k : Nat) (blob old : Bytes) :
    savedStore E k blob old = blob := by
  rw [savedStore, hsave]
  rfl

theorem revoke_store (hsave : ∀ i, E.save i = none) (w : World) :
    ((revoke E).run w).2.store = buildBlob { w.core.cache with lease := none } := by
  simp only [revoke, Prog.run_bind, Prog.run_pure, setState_store, clearLease_store]
  exact savedStore_ok hsave _ _ _

theorem denied_revoked (hsave : ∀ i, E.save i = none) (now lvo : Int64) (w : World) :
    Revoked X ((settleReconcile X E now lvo .denied).run w).2 := by
  rw [revoked_iff_core]
  simp only [settleReconcile, revoke_core, revoke_store hsave]
  refine ⟨trivial, storedLease_buildBlob _ ?_, trivial⟩
  intro l hl
  cases hl

/-- An untrusted lease moves nothing but the raw state, and that to the local trial. -/
theorem rejectedLease_untrusted {j : Json} {l : Lease} (h : X.trusts l = false) (now lvo : Int64)
    (w : World) : ∃ i, ((settleReconcile X E now lvo (.rejectedLease j l)).run w).2.core =
      { w.core with rawState := resolvedAt X w.core.cache .invalid (E.now i) } ∧
      ((settleReconcile X E now lvo (.rejectedLease j l)).run w).2.store = w.store := by
  obtain ⟨i, hcore⟩ := resolveAndSet_untrusted X E h w
  refine ⟨i, ?_⟩
  simp only [settleReconcile, rejectWithLease_eq, h, Bool.false_eq_true, if_false,
    resolveAndSet_store, hcore]
  trivial

/-- Nothing is left for an untrusted rejection to drop. -/
structure NothingHeld (X : Site) (E : Env) (w : World) : Prop where
  cached : w.client.cache.lease = none
  stored : storedLease w.store = none ∨ idIsNew (E.hardwareId 0) w.client.cache = true
  noTrial : NoTrial X w.client.cache

theorem noTrial_near {c c' : Cache} (h : Near c c') : NoTrial X c' ↔ NoTrial X c := by
  simp only [NoTrial, h.serverTrialDays, h.trialStart, h.serverFreeTier]

/-- With saves that succeed, in terms of what the request leaves. -/
theorem nothingHeld_iff (hsave : ∀ i, E.save i = none) (w : World) :
    ((notedCore E { w with ticks := {} }).cache.lease = none ∧
      storedLease (notedStore E { w with ticks := {} }) = none ∧
      NoTrial X (notedCore E { w with ticks := {} }).cache) ↔ NothingHeld X E w := by
  have hnear := near_withHardwareId (E.hardwareId 0) w.client.cache
  have hcache : (notedCore E { w with ticks := {} }).cache =
      withHardwareId (E.hardwareId 0) w.client.cache := rfl
  have hstore : notedStore E { w with ticks := {} } =
      if idIsNew (E.hardwareId 0) w.client.cache then
        buildBlob (withHardwareId (E.hardwareId 0) w.client.cache)
      else w.store := by
    rw [notedStore, savedStore_ok hsave]
    rfl
  rw [hcache, hnear.lease, noTrial_near X hnear, hstore]
  constructor
  · rintro ⟨hlease, hstored, htrial⟩
    refine ⟨hlease, ?_, htrial⟩
    cases hnew : idIsNew (E.hardwareId 0) w.client.cache with
    | true => exact .inr rfl
    | false =>
      rw [hnew] at hstored
      exact .inl hstored
  · rintro ⟨hlease, hstored, htrial⟩
    refine ⟨hlease, ?_, htrial⟩
    cases hnew : idIsNew (E.hardwareId 0) w.client.cache with
    | true =>
      have hnone : (withHardwareId (E.hardwareId 0) w.client.cache).lease = none :=
        hnear.lease.trans hlease
      rw [if_pos rfl, storedLease_buildBlob _ (by simp [hnone]), hnone]
    | false =>
      rw [hnew] at hstored
      exact hstored.resolve_right Bool.false_ne_true

end Client

open Client in
/-- A decodable 422 without a trusted lease is final exactly when it carries no lease the
decoder accepts, or finds nothing left to drop. -/
theorem revoked_iff (X : Site) (E : Env) (op : Op) (w : World) (resp : HttpResponse) (j : Json)
    (hop : op.validates) (hkey : hasKey w.client.cache = true)
    (hsent : 0 < (op.exec X E w).ticks.request) (hreply : E.reply = .ok resp)
    (hstatus : resp.status = 422) (hbody : Json.parse resp.body = .ok j)
    (huntrusted : ∀ l, leaseOf j = some l → X.trusts l = false) (hsave : ∀ i, E.save i = none) :
    Revoked X (op.exec X E w) ↔ leaseOf j = none ∨ NothingHeld X E w := by
  have hverdict : validationVerdict E.reply = (leaseOf j).elim .denied (.rejectedLease j) := by
    rw [hreply]
    simp only [validationVerdict, hstatus, hbody]
    cases leaseOf j <;> rfl
  have hrejects := op.exec_rejection X E hop w (.inr hkey) hsent
  rw [hverdict] at hrejects
  have hidle : ∀ {x y : World}, Idle x y → (Revoked X y ↔ Revoked X x) := by
    intro x y h
    rw [revoked_iff_core, revoked_iff_core, h.core, h.store]
  cases hl : leaseOf j with
  | none =>
    rw [hl, Option.elim_none] at hrejects
    obtain ⟨u, k, -, hx⟩ := hrejects (.inl rfl)
    rw [hidle hx]
    simp only [true_or, iff_true]
    exact denied_revoked X hsave _ _ u
  | some l =>
    rw [hl, Option.elim_some] at hrejects
    obtain ⟨u, k, hask, hx⟩ := hrejects (.inr ⟨j, l, rfl⟩)
    obtain ⟨i, hcore, hstore⟩ := rejectedLease_untrusted X (huntrusted l hl) (E.now k) 0 u
      (E := E) (j := j)
    rw [hidle hx, revoked_iff_core, hcore, hstore, hask.core, hask.store,
      ← nothingHeld_iff X hsave]
    simp only [reduceCtorEq, false_or, resolvedAt_eq_invalid]

/-- The same lease under a key id the client does not know. -/
def rotatedLease : Lease := { vectorLease with kid := ascii "k2" }

theorem rotatedLease_accepted : rotatedLease.Accepted := by
  constructor
  · decide
  · decide

theorem rotatedLease_untrusted : vectorSite.trusts rotatedLease = false := by decide +kernel

/-- An object with a lease and nothing else. -/
def leaseReply (status : Int) (l : Lease) : HttpResponse :=
  ⟨status, buildBlob { lease := some l }, []⟩

theorem leaseReply_parse (status : Int) (l : Lease) :
    Json.parse (leaseReply status l).body = .ok (blobValue { lease := some l }) :=
  parse_buildBlob _

theorem leaseReply_leaseOf {l : Lease} (h : l.Accepted) :
    leaseOf (blobValue { lease := some l }) = some l := by
  rw [leaseOf_blob]
  intro l' hl
  cases hl
  exact h

/-- A call with a constant clock whose requests are all answered with `resp`. -/
def repliesAt (t : Int64) (resp : HttpResponse) : Env :=
  { now := fun _ => t
    request := fun _ => .ok resp }

/-- The licensed client of the stored lease, launched a minute after its validation. -/
def vectorWorld : World :=
  history vectorSite vectorStore [(.relaunch, offlineAt 1781076300)]

theorem vectorWorld_holds : Client.hasKey vectorWorld.client.cache = true ∧
    vectorWorld.client.cache.lease = some vectorLease := by decide +kernel

theorem vectorWorld_hasKey : Client.hasKey vectorWorld.client.cache = true := vectorWorld_holds.1

/-- A 422 with the rotated lease leaves the old lease where it was. -/
theorem revoked_rotated : ¬∀ (X : Site) (store : Bytes) (calls : List Call) (E : Env) (op : Op)
    (resp : HttpResponse) (j : Json), op.validates →
    Client.hasKey (history X store calls).client.cache = true →
    0 < (op.exec X E (history X store calls)).ticks.request → E.reply = .ok resp →
    resp.status = 422 → Json.parse resp.body = .ok j →
    (∀ l, leaseOf j = some l → X.trusts l = false) → (∀ i, E.save i = none) →
    Revoked X (op.exec X E (history X store calls)) := by
  intro h
  obtain ⟨hkept, hasked⟩ :
      (Op.validate.exec vectorSite (repliesAt 1781076300 (leaseReply 422 rotatedLease))
        vectorWorld).client.cache.lease.isSome = true ∧
      0 < (Op.validate.exec vectorSite (repliesAt 1781076300 (leaseReply 422 rotatedLease))
        vectorWorld).ticks.request := by decide +kernel
  have hkey := vectorWorld_hasKey
  rw [vectorWorld] at hkept hasked hkey
  have hrevoked := h vectorSite vectorStore [(.relaunch, offlineAt 1781076300)]
    (repliesAt 1781076300 (leaseReply 422 rotatedLease)) .validate (leaseReply 422 rotatedLease)
    (blobValue { lease := some rotatedLease }) rfl hkey hasked rfl rfl
    (leaseReply_parse _ _) ?_ (fun _ => rfl)
  · rw [hrevoked.cached] at hkept
    cases hkept
  · intro l hl
    rw [leaseReply_leaseOf rotatedLease_accepted] at hl
    cases hl
    exact rotatedLease_untrusted

/-- The same client is revoked by an empty 422. -/
theorem revoked_iff_empty :
    Revoked vectorSite (Op.validate.exec vectorSite (repliesAt 1781076300 ⟨422, ascii "{}", []⟩)
      vectorWorld) ↔ leaseOf (.object [] []) = none ∨
    Client.NothingHeld vectorSite (repliesAt 1781076300 ⟨422, ascii "{}", []⟩) vectorWorld :=
  revoked_iff vectorSite (repliesAt 1781076300 ⟨422, ascii "{}", []⟩) .validate vectorWorld
    ⟨422, ascii "{}", []⟩ (.object [] []) rfl vectorWorld_hasKey (by decide +kernel) rfl rfl rfl
    (fun _ h => by cases h) (fun _ => rfl)

end Keylight
