import Keylight.OfflineBound

/-!
# Releasing the seat

`deactivate` asks the server, drops the paid half of the cache, writes the store
and resolves the state, in this order. The cache is dropped on every path; the
state is resolved only when the store took the write, so `deactivate_ends` says
exactly when the licence ends with it.
-/
namespace Keylight
open Bytes Sections Runs Client

/-- The store's answer to the one write of a deactivation: the rewritten blob while a trial stamp
is kept, a clear without one. -/
def releaseWrite (E : Env) (c : Cache) : Option Error :=
  if c.trialStart.isSome then E.save 0 else E.clear 0

/-- The server accepted the release, or there was no seat to release. -/
def SeatReleased (E : Env) (c : Cache) : Prop :=
  c.instanceId.getD [] = [] ∨ ∃ resp, E.reply = .ok resp ∧ resp.status = 200

/-- The licence is over in memory, the state is what the trial and the free tier of the cache
resolve to, and a success says that server and store agreed. -/
structure LicenceEnded (X : Site) (E : Env) (w : World) (r : Result Unit) (v : World) : Prop where
  lease : v.client.cache.lease = none
  licenseKey : v.client.cache.licenseKey = none
  instanceId : v.client.cache.instanceId = none
  unpaid : ∀ t, v.client.stateAt t ≠ .licensed ∧ v.client.stateAt t ≠ .limited
  resolved : ∀ t, v.client.stateAt t = resolvedAt X v.client.cache .invalid (E.now 0)
  accepted : r = .ok () → SeatReleased E w.client.cache ∧ releaseWrite E w.client.cache = none

namespace Client
variable (X : Site) (E : Env)

/-- A section that reads no clock and writes nothing to the store. -/
structure Waits (w v : World) : Prop where
  now : v.ticks.now = w.ticks.now
  save : v.ticks.save = w.ticks.save
  clear : v.ticks.clear = w.ticks.clear

theorem Waits.refl (w : World) : Waits w w := ⟨rfl, rfl, rfl⟩

theorem Waits.trans (u v w : World) (h₁ : Waits u v) (h₂ : Waits v w) : Waits u w :=
  ⟨h₂.now.trans h₁.now, h₂.save.trans h₁.save, h₂.clear.trans h₁.clear⟩

theorem requestDeactivate_waits (licenseKey instanceId : Bytes) (w : World) :
    Waits w ((requestDeactivate X E licenseKey instanceId).run w).2 := by
  have hall : Each Waits (fun _ => True) (requestDeactivate X E licenseKey instanceId) := by
    refine .ite (fun _ => trivial) fun _ => ?_
    refine .bind (Q := fun _ => True)
      (.bind (Q := fun _ => True) (Each.atom fun _ => ⟨⟨rfl, rfl, rfl⟩, trivial⟩)
        fun _ _ => trivial) fun headers _ => ?_
    refine .bind (Q := fun _ => True) (each_requestLoop E (fun _ _ => ⟨rfl, rfl, rfl⟩)
      (fun _ _ => ⟨rfl, rfl, rfl⟩) _ _ _ _) fun hr _ => ?_
    cases hr with
    | error e => exact trivial
    | ok resp => exact .ite (fun _ => trivial) fun _ => trivial
  exact (hall.run Waits.refl Waits.trans w).1

/-- No error is kept from the server only when it released the seat. -/
theorem requestDeactivate_none (licenseKey instanceId : Bytes) (w : World)
    (h : ((requestDeactivate X E licenseKey instanceId).run w).1 = none) :
    instanceId = [] ∨ ∃ resp, E.replyAt w.ticks.request = .ok resp ∧ resp.status = 200 := by
  by_cases hid : instanceId = []
  · exact .inl hid
  · right
    have hindex : ((jsonHeaders X E).run w).2.ticks.request = w.ticks.request := rfl
    simp only [requestDeactivate, if_neg hid, Prog.run_bind, requestWithRetry_reply, hindex] at h
    cases hr : E.replyAt w.ticks.request with
    | error e =>
      rw [hr] at h
      cases h
    | ok resp =>
      refine ⟨resp, rfl, ?_⟩
      by_contra hstatus
      simp only [hr, ne_eq, hstatus, not_false_eq_true, if_true, Prog.run_pure, reduceCtorEq] at h

theorem resolvedAt_resetCache (c : Cache) (t : Int64) :
    resolvedAt X (resetCache c) .invalid t = resolvedAt X c .invalid t := rfl

theorem updateStore_value (c : Cache) (w : World) (hsave : w.ticks.save = 0)
    (hclear : w.ticks.clear = 0) :
    ((updateStore E c.trialStart.isSome).run w).1 = outcome (releaseWrite E c) := by
  unfold releaseWrite
  cases c.trialStart with
  | none =>
    change outcome (E.clear w.ticks.clear) = outcome (E.clear 0)
    rw [hclear]
  | some t =>
    change ((saveCache E).run w).1 = outcome (E.save 0)
    rw [saveCache_run, hsave]

theorem updateStore_now (keepTrial : Bool) (w : World) :
    ((updateStore E keepTrial).run w).2.ticks.now = w.ticks.now := by
  cases keepTrial with
  | true =>
    change ((saveCache E).run w).2.ticks.now = _
    rw [saveCache_run]
  | false => rfl

/-- What a deactivation leaves, by the store's answer. -/
theorem deactivate_by_store (w : World) :
    let after := (deactivate X E).run { w with ticks := {} }
    match releaseWrite E w.client.cache with
    | some e => after.1 = .error e ∧ after.2.core = resetCore w.core
    | none => (after.1 = .ok () → SeatReleased E w.client.cache) ∧ after.2.core =
        { resetCore w.core with rawState := resolvedAt X w.client.cache .invalid (E.now 0) } := by
  simp only [deactivate, loadInstanceId, loadLicenseKey, readCache, Prog.run_bind, Prog.run_read]
  have hidle := (quiet_requestDeactivate X E (w.client.cache.licenseKey.getD [])
    (w.client.cache.instanceId.getD [])).run { w with ticks := {} }
  have hwaits := requestDeactivate_waits X E (w.client.cache.licenseKey.getD [])
    (w.client.cache.instanceId.getD []) { w with ticks := {} }
  have hnone := requestDeactivate_none X E (w.client.cache.licenseKey.getD [])
    (w.client.cache.instanceId.getD []) { w with ticks := {} }
  generalize (requestDeactivate X E _ _).run _ = u at hidle hwaits hnone ⊢
  have hcache : u.2.client.cache = w.client.cache := congrArg Core.cache hidle.core
  -- the reset reads no input
  have hreset : (resetPaid.run u.2).2.core = resetCore w.core := by
    rw [show w.core = u.2.core from hidle.core.symm]
    rfl
  have hkeep : (resetPaid.run u.2).1 = w.client.cache.trialStart.isSome := by
    rw [← hcache]
    rfl
  have hticks : (resetPaid.run u.2).2.ticks = u.2.ticks := rfl
  rw [hkeep]
  generalize resetPaid.run u.2 = v at hreset hticks ⊢
  have hvalue := updateStore_value E w.client.cache v.2 (by rw [hticks, hwaits.save])
    (by rw [hticks, hwaits.clear])
  have hnow := updateStore_now E w.client.cache.trialStart.isSome v.2
  have hstored := (updateStore_core E w.client.cache.trialStart.isSome v.2).trans hreset
  generalize (updateStore E w.client.cache.trialStart.isSome).run v.2 = z at hvalue hnow hstored ⊢
  obtain ⟨r, z⟩ := z
  cases hwrite : releaseWrite E w.client.cache with
  | some e =>
    rw [hwrite] at hvalue
    cases hvalue
    exact ⟨rfl, hstored⟩
  | none =>
    rw [hwrite] at hvalue
    cases hvalue
    have hquiet := ((quiet_resolveWithTrial X E .invalid).run z).core
    have hs := resolveWithTrial_value X E .invalid z
    rw [show z.ticks.now = 0 from hnow.trans (by rw [hticks, hwaits.now]), show z.core = _
      from hstored] at hs
    rw [show z.core = _ from hstored] at hquiet
    dsimp only
    simp only [Prog.run_bind]
    constructor
    · intro hok
      cases hu : u.1 with
      | none => exact hnone hu
      | some e =>
        rw [hu] at hok
        cases hok
    · cases u.1 <;> simp only [Prog.run_pure, setState_core, hquiet, hs] <;> rfl

end Client

/-- Without an anchor the clock guard is off. -/
theorem stateAt_unanchored {c : Client} (h : c.anchor = 0) (t : Int64) :
    c.stateAt t = c.rawState := by
  simp [stateAt, untrustedAt, h]

/-- A deactivation ends the licence exactly when the store takes its write, or the raw state
already was what the trial and the free tier resolve to. -/
theorem deactivate_ends (X : Site) (E : Env) (w : World) :
    let after := (deactivate X E).run { w with ticks := {} }
    LicenceEnded X E w after.1 after.2 ↔ releaseWrite E w.client.cache = none ∨
      w.client.rawState = resolvedAt X w.client.cache .invalid (E.now 0) := by
  intro after
  have hrun := deactivate_by_store X E w
  have hended : ∀ v : World, v.core = { resetCore w.core with
      rawState := resolvedAt X w.client.cache .invalid (E.now 0) } → ∀ r, (r = .ok () →
      SeatReleased E w.client.cache ∧ releaseWrite E w.client.cache = none) →
      LicenceEnded X E w r v := by
    intro v hv r hr
    have hcache : v.client.cache = resetCache w.client.cache := congrArg Core.cache hv
    have hraw : v.client.rawState = resolvedAt X w.client.cache .invalid (E.now 0) :=
      congrArg Core.rawState hv
    have hanchor : v.client.anchor = 0 := congrArg Core.anchor hv
    refine ⟨by rw [hcache]; rfl, by rw [hcache]; rfl, by rw [hcache]; rfl, fun t => ?_,
      fun t => ?_, hr⟩
    · refine stateAt_unpaid ?_ t
      rw [hraw]
      exact resolvedAt_unpaid X _ _
    · rw [stateAt_unanchored hanchor, hraw, hcache, resolvedAt_resetCache]
  cases hwrite : releaseWrite E w.client.cache with
  | none =>
    simp only [true_or, iff_true]
    rw [hwrite] at hrun
    exact hended after.2 hrun.2 after.1 fun hok => ⟨hrun.1 hok, hwrite⟩
  | some e =>
    simp only [reduceCtorEq, false_or]
    rw [hwrite] at hrun
    obtain ⟨herror, hcore⟩ := hrun
    have hcache : after.2.client.cache = resetCache w.client.cache := congrArg Core.cache hcore
    have hraw : after.2.client.rawState = w.client.rawState := congrArg Core.rawState hcore
    have hanchor : after.2.client.anchor = 0 := congrArg Core.anchor hcore
    constructor
    · intro h
      rw [← hraw, ← stateAt_unanchored hanchor 0, h.resolved 0, hcache, resolvedAt_resetCache]
    · intro h
      refine hended after.2 ?_ after.1 fun hok => ?_
      · rw [hcore, ← h]
        rfl
      · rw [show after.1 = _ from herror] at hok
        cases hok

/-- The stored licence of a user who had a trial before. -/
def formerTrialStore : Bytes :=
  buildBlob { vectorCache with
    instanceId := some (ascii "I1")
    trialStart := some 1781076000 }

/-- A server that accepts everything, and a full disk. -/
def fullDiskEnv (t : Int64) : Env :=
  { repliesAt t ⟨200, ascii "{}", []⟩ with save := fun _ => some ⟨.io, ascii "disk full"⟩ }

/-- The server releases the seat, the store refuses the rewritten blob, and the client stays
Licensed. -/
theorem deactivate_unended : ¬∀ (X : Site) (store : Bytes) (calls : List Call) (E : Env),
    LicenceEnded X E (history X store calls)
      ((deactivate X E).run { history X store calls with ticks := {} }).1
      ((deactivate X E).run { history X store calls with ticks := {} }).2 := by
  intro h
  have hlicensed : ((deactivate vectorSite (fullDiskEnv 1781076420)).run
      { history vectorSite formerTrialStore [(.relaunch, offlineAt 1781076300)] with
        ticks := {} }).2.client.stateAt 1781076420 = .licensed := by decide +kernel
  exact ((h vectorSite formerTrialStore [(.relaunch, offlineAt 1781076300)]
    (fullDiskEnv 1781076420)).unpaid 1781076420).1 hlicensed

end Keylight
