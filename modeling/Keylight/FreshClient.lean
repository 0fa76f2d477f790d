import Keylight.Gate
import Keylight.Persistence

/-!
# A fresh client over the same store

While the store works, a client constructed over it holds the trial stamp, the
ids, the beacon's debounce and the server's settings of the running one. Two
calls break this: a deactivation that keeps no stamp clears the store and keeps
the rest in memory, and a stamp of 0 is read back as no stamp.
-/
namespace Keylight
open Bytes Sections Runs Client

/-- A fresh client agrees with the running one on all that a deactivation keeps. -/
def OnDisk (X : Site) (w : World) : Prop :=
  ∀ E, StoreWorks E →
    resetCache (Op.relaunch.exec X E w).core.cache = resetCache w.core.cache

/-- Every store operation of the call succeeds, removals too. -/
structure StoreSucceeds (E : Env) : Prop extends StoreWorks E where
  clear : ∀ i, E.clear i = none

/-- The condition on one call: a deactivation that keeps no trial stamp has nothing else to keep,
and a new stamp is not 0. -/
def KeepsDisk (w : World) (call : Call) : Prop :=
  match call.1 with
  | .deactivate => w.core.cache.trialStart = none → resetCache w.core.cache = {}
  | .startTrial => w.core.cache.trialStart = none → call.2.now 0 ≠ 0
  | _ => True

/-- No id or marker is the empty text. -/
structure Named (c : Cache) : Prop where
  freeTierInstanceId : c.freeTierInstanceId ≠ some []
  hardwareId : c.hardwareId ≠ some []
  keylessLastState : c.keylessLastState ≠ some []

theorem nonEmpty_named {s : Option Bytes} (h : s ≠ some []) : Client.nonEmpty s = s := by
  cases s with
  | none => rfl
  | some s =>
    cases s with
    | nil => exact absurd rfl h
    | cons b s => rfl

theorem nonEmpty_ne (s : Option Bytes) : Client.nonEmpty s ≠ some [] := by
  cases s with
  | none => simp [Client.nonEmpty]
  | some s =>
    cases s with
    | nil => simp [Client.nonEmpty]
    | cons b s => simp [Client.nonEmpty]

theorem or_ne {s t : Option Bytes} (hs : s ≠ some []) (ht : t ≠ some []) : s.or t ≠ some [] := by
  cases s with
  | none => exact ht
  | some s => exact hs

theorem stringOf_ne (j : Json) (key : Bytes) : stringOf j key ≠ some [] := by
  unfold stringOf
  split
  · simp
  · next hne =>
    intro he
    exact hne (Option.some.inj he)

theorem bind_nonZero {i : Option Int64} (h : i ≠ some 0) : i.bind nonZero = i := by
  cases i with
  | none => rfl
  | some i =>
    apply if_neg
    rintro rfl
    exact h rfl

/-- A cache a launch can produce is brought back by its own blob. -/
theorem launchCache_reset {c : Cache} (hnamed : Named c) (htrial : c.trialStart ≠ some 0) :
    resetCache (launchCache (buildBlob c)) = resetCache c := by
  rw [launchCache_buildBlob]
  simp only [resetCache, reloaded, bind_nonZero htrial, nonEmpty_named hnamed.freeTierInstanceId,
    nonEmpty_named hnamed.hardwareId, nonEmpty_named hnamed.keylessLastState]

theorem launchCache_named (store : Bytes) : Named (launchCache store) := by
  rw [launchCache]
  cases decodeStore store with
  | none => constructor <;> simp
  | some j =>
    constructor
    · simp [loadCache, stringOf_ne]
    · simp [loadCache, stringOf_ne]
    · simp [loadCache, stringOf_ne]

theorem launchCache_trialStart (store : Bytes) : (launchCache store).trialStart ≠ some 0 := by
  rw [launchCache]
  cases decodeStore store with
  | none => simp
  | some j =>
    simp only [loadCache, intOf, nonZero, Option.or_none]
    split
    · simp
    · simpa

theorem onDisk_iff (X : Site) (w : World) :
    OnDisk X w ↔ resetCache (launchCache w.store) = resetCache w.core.cache := by
  constructor
  · intro h
    have hworks : StoreWorks { now := fun _ => 0 } := ⟨fun _ => rfl, fun _ => rfl⟩
    rw [← relaunch_cache X hworks]
    exact h _ hworks
  · intro h E hE
    rw [relaunch_cache X hE]
    exact h

namespace OnDisk
variable {X : Site} {w : World}

theorem named (h : OnDisk X w) : Named w.core.cache := by
  have hlaunched := launchCache_named w.store
  have hkept : Named (resetCache (launchCache w.store)) :=
    ⟨hlaunched.freeTierInstanceId, hlaunched.hardwareId, hlaunched.keylessLastState⟩
  rw [(onDisk_iff X w).mp h] at hkept
  exact ⟨hkept.freeTierInstanceId, hkept.hardwareId, hkept.keylessLastState⟩

theorem trialStart (h : OnDisk X w) : w.core.cache.trialStart ≠ some 0 := by
  have hkept : (resetCache (launchCache w.store)).trialStart ≠ some 0 :=
    launchCache_trialStart w.store
  rw [(onDisk_iff X w).mp h] at hkept
  exact hkept

/-- A call that saves what it writes stays on disk. -/
theorem flushed (h : OnDisk X w) {v : World} (hflush : Flushed w v)
    (hnamed : Named v.core.cache) (htrial : v.core.cache.trialStart ≠ some 0) : OnDisk X v := by
  rw [onDisk_iff]
  obtain hstore | ⟨hstore, hcache⟩ := hflush
  · rw [hstore]
    exact launchCache_reset hnamed htrial
  · rw [hstore, hcache]
    exact (onDisk_iff X w).mp h

end OnDisk

/-- The stamp stays and no text becomes empty. -/
structure Retains (w v : World) : Prop where
  trialStart : v.core.cache.trialStart = w.core.cache.trialStart
  named : Named w.core.cache → Named v.core.cache

namespace Retains

theorem trans {u v w : World} (h₁ : Retains u v) (h₂ : Retains v w) : Retains u w :=
  ⟨h₂.trialStart.trans h₁.trialStart, fun h => h₂.named (h₁.named h)⟩

theorem same {w v : World} (htrial : v.core.cache.trialStart = w.core.cache.trialStart)
    (hfree : v.core.cache.freeTierInstanceId = w.core.cache.freeTierInstanceId)
    (hhardware : v.core.cache.hardwareId = w.core.cache.hardwareId)
    (hkeyless : v.core.cache.keylessLastState = w.core.cache.keylessLastState) : Retains w v := by
  refine ⟨htrial, fun h => ⟨?_, ?_, ?_⟩⟩
  · rw [hfree]
    exact h.freeTierInstanceId
  · rw [hhardware]
    exact h.hardwareId
  · rw [hkeyless]
    exact h.keylessLastState

theorem ofCore {w v : World} (h : v.core = w.core) : Retains w v := by
  apply same <;> rw [h]

end Retains

theorem uuidV4_ne_nil (b : Fin 16 → UInt8) : uuidV4 b ≠ [] := by
  intro h
  have hfirst := List.flatMap_eq_nil_iff.mp h 0 (List.mem_finRange 0)
  simp at hfirst

theorem keylessStateWire_ne_nil (s : KeylessState) : keylessStateWire s ≠ [] := by
  cases s <;> decide

namespace Client
variable {X : Site} {E : Env}

theorem retains_noted {w v : World} (h : Noted E w v) : Retains w v := by
  have hcache : v.core.cache = withHardwareId (E.hardwareId w.ticks.hardwareId) w.core.cache :=
    congrArg Core.cache h.core
  rw [withHardwareId_eq] at hcache
  constructor
  · rw [hcache]
  · intro hw
    rw [hcache]
    exact ⟨hw.freeTierInstanceId, or_ne (nonEmpty_ne _) hw.hardwareId, hw.keylessLastState⟩

theorem retains_applyConfigFields (j : Json) (w : World) :
    Retains w ((applyConfigFields X E j).run w).2 := by
  have hcore := applyConfigFields_core X E j w
  unfold configured at hcore
  split at hcore
  · apply Retains.same <;> rw [hcore] <;> rfl
  · exact .ofCore hcore

theorem retains_freeTierInstanceId (hE : StoreWorks E) (w : World) :
    Retains w ((freeTierInstanceId E).run w).2 := by
  simp only [freeTierInstanceId, mintFreeTierInstanceId, Prog.run_bind, Prog.run_atom]
  cases w.client.cache.freeTierInstanceId with
  | some id => exact .ofCore rfl
  | none =>
    simp only [Prog.run_bind, saveCache_run, hE.save, outcome, isOk_ok, Bool.not_true,
      Bool.false_eq_true, if_false]
    refine ⟨rfl, fun hw => ⟨?_, hw.hardwareId, hw.keylessLastState⟩⟩
    intro hempty
    exact uuidV4_ne_nil _ (Option.some.inj hempty)

/-- Every helper but the stamp. -/
theorem retains_helpers (hE : StoreWorks E) :
    Unstamped X E (fun _ => True) (fun _ => True) (fun _ => True)
      (fun _ {_} p => ∀ w, Retains w (p.run w).2) where
  quiet := fun hp w => .ofCore (hp.run w).core
  free := by
    intro α β p k g hp hk w
    rw [Prog.run_bind]
    exact (hp w).trans (hk _ _)
  seq := by
    intro α β p k hp hk w
    rw [Prog.run_bind]
    exact (hp w).trans (hk _ _)
  after := by
    intro α β p k g hp hk w
    rw [Prog.run_bind]
    exact (hp w).trans (hk _ _)
  weaken := id
  widen := id
  request := by
    intro β k g method url headers body hk w
    rw [Prog.run_bind]
    exact (Retains.ofCore ((quiet_requestWithRetry E method url headers body).run w).core).trans
      (hk _ trivial _)
  cachedHardwareIdValue := fun w => retains_noted (cachedHardwareIdValue_run E w)
  applyConfigFields := fun j _ => retains_applyConfigFields j
  freeTierInstanceId := retains_freeTierInstanceId hE
  armDebounce := fun s now w => by
    simp only [armDebounce, Prog.run_bind, Prog.run_pure]
    refine (Retains.mk ?_ ?_).trans (.ofCore (saveCache_core E _))
    · rfl
    · intro hw
      refine ⟨hw.freeTierInstanceId, hw.hardwareId, ?_⟩
      intro hempty
      exact keylessStateWire_ne_nil s (Option.some.inj hempty)
  anchor := fun t w => by
    apply Retains.same <;> rw [saveLastValidatedOnline_core]
  persist := fun d _ _ w => by
    apply Retains.same <;> rw [persist_core] <;> rfl
  clearLease := fun w => by
    apply Retains.same <;> rw [clearLease_core]
  setState := fun s w => by
    apply Retains.same <;> rw [setState_core]

theorem retains_persist (d : PersistData) (w : World) : Retains w ((persist E d).run w).2 := by
  apply Retains.same <;> rw [persist_core] <;> rfl

/-- The stamp is the first reading of the clock, and nothing after it undoes it. -/
theorem stamped_startTrial (hE : StoreWorks E) (w : World) :
    ((startTrial X E).run w).2.core.cache.trialStart =
        some (w.core.cache.trialStart.getD (E.now w.ticks.now)) ∧
      (Named w.core.cache → Named ((startTrial X E).run w).2.core.cache) := by
  have hrest : ∀ v : World, Retains v
      ((Client.freeTierInstanceId E >>= fun _ => resolveLocally X E).run v).2 := by
    intro v
    have h := retains_helpers (X := X) hE
    exact h.free (g := .state) h.freeTierInstanceId (fun _ => h.resolveLocally) v
  rw [startTrial_eq, Prog.run_bind]
  have htail := hrest ((stampAndSave E).run w).2
  generalize ((Client.freeTierInstanceId E >>= fun _ => resolveLocally X E).run _).2 = u at htail ⊢
  cases hs : w.core.cache.trialStart with
  | some t =>
    have hstamp : ((stampAndSave E).run w).2 = w := by
      simp only [stampAndSave, stampTrial, Prog.run_bind, Prog.run_atom,
        show w.client.cache.trialStart = some t from hs, Bool.false_eq_true, if_false,
        Prog.run_pure]
    rw [hstamp] at htail
    exact ⟨htail.trialStart.trans hs, htail.named⟩
  | none =>
    have hstamp : ((stampAndSave E).run w).2.core.cache =
        { w.core.cache with trialStart := some (E.now w.ticks.now) } := by
      simp only [stampAndSave, stampTrial, Prog.run_bind, Prog.run_atom,
        show w.client.cache.trialStart = none from hs, if_true, Prog.run_pure, saveCache_core]
      rfl
    constructor
    · rw [htail.trialStart, hstamp]
      rfl
    · intro hw
      apply htail.named
      rw [hstamp]
      exact ⟨hw.freeTierInstanceId, hw.hardwareId, hw.keylessLastState⟩

end Client

theorem Op.exec_retains (X : Site) {E : Env} (hE : StoreWorks E) {op : Op} (w : World)
    (hlaunch : op ≠ .relaunch) (hdeactivate : op ≠ .deactivate) (hstart : op ≠ .startTrial) :
    Retains w (op.exec X E w) := by
  have h := (retains_helpers (X := X) hE).code (fun _ => trivial) retains_persist
    (fun _ _ _ _ _ _ => trivial) hlaunch hdeactivate hstart { w with ticks := {} }
  exact ⟨h.trialStart, h.named⟩

theorem relaunch_onDisk (X : Site) {E : Env} (hE : StoreWorks E) (w : World) :
    OnDisk X (Op.relaunch.exec X E w) := by
  have hstore : (Op.relaunch.exec X E w).store = w.store := construct_store X E _
  rw [onDisk_iff, hstore, relaunch_cache X hE]

/-- What a deactivation keeps is on disk exactly when it keeps a trial stamp or has nothing to
keep. -/
theorem deactivate_onDisk (X : Site) {E : Env} (hE : StoreSucceeds E) {w : World}
    (hw : OnDisk X w) : OnDisk X (Op.deactivate.exec X E w) ↔
      (w.core.cache.trialStart = none → resetCache w.core.cache = {}) := by
  obtain ⟨hcache, hstore⟩ := Op.exec_deactivate X hE.toStoreWorks w
  have hreset : resetCache (resetCache w.core.cache) = resetCache w.core.cache := rfl
  rw [onDisk_iff, hcache, hreset]
  obtain ⟨htrial, hstore⟩ | ⟨htrial, hstore | ⟨-, i, hclear⟩⟩ := hstore
  · have hnamed := hw.named
    have hkept : Named (resetCache w.core.cache) :=
      ⟨hnamed.freeTierInstanceId, hnamed.hardwareId, hnamed.keylessLastState⟩
    rw [hstore, launchCache_reset hkept hw.trialStart]
    exact ⟨fun _ hnone => absurd hnone htrial, fun _ => hreset⟩
  · rw [hstore]
    exact ⟨fun h _ => h.symm, fun h => (h htrial).symm⟩
  · exact absurd (hE.clear i) hclear

/-- A new trial stamp reaches the disk exactly when it is not 0. -/
theorem startTrial_onDisk (X : Site) {E : Env} (hE : StoreWorks E) {w : World}
    (hw : OnDisk X w) : OnDisk X (Op.startTrial.exec X E w) ↔
      (w.core.cache.trialStart = none → E.now 0 ≠ 0) := by
  have hstamp := stamped_startTrial (X := X) hE { w with ticks := {} }
  have hcore : (Op.startTrial.exec X E w).core =
      ((startTrial X E).run { w with ticks := {} }).2.core :=
    congrArg World.core (run_ignored _ _)
  rw [← hcore] at hstamp
  obtain ⟨htrial, hnamed⟩ := hstamp
  have hflush : Flushed w (Op.startTrial.exec X E w) := Op.exec_flushed X hE w (by simp) (by simp)
  constructor
  · intro h hnone hzero
    apply h.trialStart
    rw [htrial, show ({ w with ticks := {} } : World).core.cache.trialStart = none from hnone]
    exact congrArg some hzero
  · intro h
    apply hw.flushed hflush (hnamed hw.named)
    rw [htrial]
    intro hzero
    cases hs : w.core.cache.trialStart with
    | none =>
      rw [show ({ w with ticks := {} } : World).core.cache.trialStart = none from hs] at hzero
      exact h hs (Option.some.inj hzero)
    | some t =>
      rw [show ({ w with ticks := {} } : World).core.cache.trialStart = some t from hs] at hzero
      exact hw.trialStart (hs.trans hzero)

/-- One call keeps a fresh client in agreement exactly under its condition. -/
theorem perform_onDisk (X : Site) {call : Call} (hE : StoreSucceeds call.2) {w : World}
    (hw : OnDisk X w) : OnDisk X (perform X call w) ↔ KeepsDisk w call := by
  obtain ⟨op, E⟩ := call
  have hplain : op ≠ .relaunch → op ≠ .deactivate → op ≠ .startTrial →
      OnDisk X (op.exec X E w) := by
    intro hlaunch hdeactivate hstart
    have hretains := Op.exec_retains X hE.toStoreWorks w hlaunch hdeactivate hstart
    apply hw.flushed (Op.exec_flushed X hE.toStoreWorks w hlaunch hdeactivate)
      (hretains.named hw.named)
    rw [hretains.trialStart]
    exact hw.trialStart
  cases op with
  | relaunch => exact iff_of_true (relaunch_onDisk X hE.toStoreWorks w) trivial
  | deactivate => exact deactivate_onDisk X hE hw
  | startTrial => exact startTrial_onDisk X hE.toStoreWorks hw
  | _ => exact iff_of_true (hplain (by simp) (by simp) (by simp)) trivial

/-- In a run from a launch over any store, a fresh client agrees after every call exactly when
every call meets its condition. -/
theorem store_mirrors_cache (X : Site) (w : World) (E : Env) (hE : StoreWorks E)
    (calls : List Call) (h : ∀ call ∈ calls, StoreSucceeds call.2) :
    (∀ before, before <+: calls →
      OnDisk X (runAll (perform X) before (Op.relaunch.exec X E w))) ↔
    Along (perform X) KeepsDisk calls (Op.relaunch.exec X E w) :=
  prefixes_iff_along (fun call hcall _ hw => perform_onDisk X (h call hcall) hw)
    (relaunch_onDisk X hE w)

theorem offlineAt_succeeds (t : Int64) : StoreSucceeds (offlineAt t) where
  toStoreWorks := offlineAt_works t
  clear _ := rfl

/-- A first launch, an anonymous id and a trial. -/
theorem store_mirrors_cache_vector :
    let calls := [(.freeTierInstanceId, offlineAt 1781076300), (.startTrial, offlineAt 1781076300)]
    ∀ before, before <+: calls → OnDisk vectorSite
      (runAll (perform vectorSite) before
        (Op.relaunch.exec vectorSite (offlineAt 1781076300) {})) := by
  intro calls
  have hcalls : ∀ call ∈ calls, StoreSucceeds call.2 := by
    simp [calls, offlineAt_succeeds]
  apply (store_mirrors_cache vectorSite {} _ (offlineAt_works 1781076300) calls hcalls).mpr
  exact ⟨trivial, fun _ => by decide, trivial⟩

/-- A device that has its anonymous id but no trial is deactivated: the id stays in memory and is
gone from the store. -/
theorem deactivate_forgets : ¬∀ before,
    before <+: [(.freeTierInstanceId, offlineAt 1781076300), (.deactivate, offlineAt 1781076300)] →
      OnDisk vectorSite (runAll (perform vectorSite) before
        (Op.relaunch.exec vectorSite (offlineAt 1781076300) {})) := by
  have hcalls : ∀ call ∈ ([(.freeTierInstanceId, offlineAt 1781076300),
      (.deactivate, offlineAt 1781076300)] : List Call), StoreSucceeds call.2 := by
    simp [offlineAt_succeeds]
  intro h
  obtain ⟨-, hkeeps, -⟩ := (prefixes_iff_along
    (fun call hcall _ hw => perform_onDisk vectorSite (hcalls call hcall) hw)
    (relaunch_onDisk vectorSite (offlineAt_works 1781076300) {})).mp h
  have hid := congrArg Cache.freeTierInstanceId (hkeeps (by decide +kernel))
  exact absurd hid (by decide +kernel)

end Keylight
