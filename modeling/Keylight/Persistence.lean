import Keylight.StoreMirror

/-!
# What a call leaves on disk

Every write to the cache is followed by a save before the call returns. While
saves succeed, a call other than a launch or a deactivation leaves either the
blob of the cache it ends with, or the store and the cache as they were.
-/
namespace Keylight
open Bytes Sections

/-- The store holds the blob of the cache, or neither changed. -/
def Flushed (w v : World) : Prop :=
  v.store = buildBlob v.core.cache ∨ v.store = w.store ∧ v.core.cache = w.core.cache

namespace Flushed

theorem refl (w : World) : Flushed w w := .inr ⟨rfl, rfl⟩

theorem trans {u v w : World} (h₁ : Flushed u v) (h₂ : Flushed v w) : Flushed u w := by
  obtain h | ⟨hstore, hcache⟩ := h₂
  · exact .inl h
  · rw [Flushed, hstore, hcache]
    exact h₁

theorem idle {w v : World} (h : Idle w v) : Flushed w v :=
  .inr ⟨h.store, congrArg Core.cache h.core⟩

end Flushed

namespace Client
variable {X : Site} {E : Env}

theorem flushed_saveCache (hE : StoreWorks E) (w : World) :
    ((saveCache E).run w).2.store = buildBlob ((saveCache E).run w).2.core.cache := by
  rw [saveCache_core, saveCache_store, savedStore_ok hE.save]

theorem flushed_noted (hE : StoreWorks E) {w v : World} (h : Noted E w v) : Flushed w v := by
  rw [Flushed, h.core, h.store, notedStore]
  cases hnew : idIsNew (E.hardwareId w.ticks.hardwareId) w.core.cache with
  | true =>
    left
    rw [if_pos rfl, savedStore_ok hE.save]
  | false =>
    right
    constructor
    · simp
    · change withHardwareId _ w.core.cache = w.core.cache
      cases hlive : nonEmpty (E.hardwareId w.ticks.hardwareId) with
      | none => simp only [withHardwareId, hlive]
      | some id =>
        apply withHardwareId_same hlive
        simpa [idIsNew, hlive] using hnew

theorem flushed_applyConfigFields (hE : StoreWorks E) (j : Json) (w : World) :
    Flushed w ((applyConfigFields X E j).run w).2 := by
  simp only [applyConfigFields, Prog.run_ite, Prog.run_bind, Prog.run_pure]
  split
  · exact .refl w
  · split
    · exact .idle ((quiet_verifyConfig X E j).run w)
    · exact .inl (flushed_saveCache hE _)

theorem flushed_freeTierInstanceId (hE : StoreWorks E) (w : World) :
    Flushed w ((freeTierInstanceId E).run w).2 := by
  simp only [freeTierInstanceId, mintFreeTierInstanceId, Prog.run_bind, Prog.run_atom]
  cases w.client.cache.freeTierInstanceId with
  | some id => exact .refl w
  | none =>
    left
    simp only [Prog.run_bind, Prog.run_ite]
    have hok : ∀ u : World, isOk ((saveCache E).run u).1 = true := by
      intro u
      rw [saveCache_run, hE.save]
      rfl
    rw [hok]
    exact flushed_saveCache hE _

theorem flushed_stampAndSave (hE : StoreWorks E) (w : World) :
    Flushed w ((stampAndSave E).run w).2 := by
  simp only [stampAndSave, stampTrial, Prog.run_bind, Prog.run_atom]
  cases w.client.cache.trialStart with
  | some t => exact .refl w
  | none => exact .inl (flushed_saveCache hE _)

/-- Every helper flushes what it writes. -/
theorem flushed_helpers (hE : StoreWorks E) :
    Helpers X E (fun _ => True) (fun _ => True) (fun _ => True)
      (fun _ {_} p => ∀ w, Flushed w (p.run w).2) where
  quiet := fun hp w => .idle (hp.run w)
  free := by
    intro α β p k g hp hk w
    rw [Prog.run_bind]
    exact (hp w).trans (hk _ _)
  seq := by
    intro α β p k hp hk w
    rw [Prog.run_bind]
    exact (hp w).trans (hk _ _)
  after := by
    intro α β p k g hp hk w
    rw [Prog.run_bind]
    exact (hp w).trans (hk _ _)
  weaken := id
  widen := id
  request := by
    intro β k g method url headers body hk w
    rw [Prog.run_bind]
    exact (Flushed.idle ((quiet_requestWithRetry E method url headers body).run w)).trans
      (hk _ trivial _)
  cachedHardwareIdValue := fun w => flushed_noted hE (cachedHardwareIdValue_run E w)
  applyConfigFields := fun j _ => flushed_applyConfigFields hE j
  freeTierInstanceId := flushed_freeTierInstanceId hE
  stampAndSave := flushed_stampAndSave hE
  armDebounce := fun wire now w => by
    simp only [armDebounce, Prog.run_bind, Prog.run_pure]
    exact .inl (flushed_saveCache hE _)
  anchor := fun t w => by
    rw [Flushed, saveLastValidatedOnline_core, saveLastValidatedOnline_store,
      savedStore_ok hE.save]
    exact .inl rfl
  persist := fun d _ _ w => by
    rw [Flushed, persist_core, persist_store, savedStore_ok hE.save]
    exact .inl rfl
  clearLease := fun w => by
    rw [Flushed, clearLease_core, clearLease_store, savedStore_ok hE.save]
    exact .inl rfl
  setState := fun s w => by
    rw [Flushed, setState_core, setState_store]
    exact .inr ⟨rfl, rfl⟩

theorem flushed_persist (hE : StoreWorks E) (d : PersistData) (w : World) :
    Flushed w ((persist E d).run w).2 := by
  rw [Flushed, persist_core, persist_store, savedStore_ok hE.save]
  exact .inl rfl

/-- Deactivation rewrites the store when it keeps a trial stamp; otherwise it clears it, and a
failed clear leaves it. -/
theorem deactivate_store (w : World) : (w.core.cache.trialStart ≠ none ∧
      ∃ k, ((deactivate X E).run w).2.store =
        savedStore E k (buildBlob (resetCache w.core.cache)) w.store) ∨
    w.core.cache.trialStart = none ∧ (((deactivate X E).run w).2.store = [] ∨
        ((deactivate X E).run w).2.store = w.store ∧ ∃ i, E.clear i ≠ none) := by
  simp only [deactivate, loadInstanceId, loadLicenseKey, readCache, Prog.run_bind, Prog.run_read]
  have hidle := (quiet_requestDeactivate X E (w.client.cache.licenseKey.getD [])
    (w.client.cache.instanceId.getD [])).run w
  generalize (requestDeactivate X E _ _).run w = u at hidle ⊢
  have hcache : u.2.client.cache = w.core.cache := congrArg Core.cache hidle.core
  have hupdate : (w.core.cache.trialStart ≠ none ∧
      ∃ k, ((updateStore E (resetPaid.run u.2).1).run (resetPaid.run u.2).2).2.store =
        savedStore E k (buildBlob (resetCache w.core.cache)) w.store) ∨
      w.core.cache.trialStart = none ∧
      (((updateStore E (resetPaid.run u.2).1).run (resetPaid.run u.2).2).2.store = [] ∨
        ((updateStore E (resetPaid.run u.2).1).run (resetPaid.run u.2).2).2.store = w.store ∧
          ∃ i, E.clear i ≠ none) := by
    cases htrial : w.core.cache.trialStart with
    | some t =>
      left
      have hkeep : (resetPaid.run u.2).1 = true := by
        simp only [resetPaid, Prog.run_atom, hcache, htrial, Option.isSome_some]
      rw [hkeep, updateStore, if_pos rfl, saveCache_store]
      refine ⟨by simp, u.2.ticks.save, ?_⟩
      rw [← hidle.store, ← hcache]
      rfl
    | none =>
      right
      have hkeep : (resetPaid.run u.2).1 = false := by
        simp only [resetPaid, Prog.run_atom, hcache, htrial, Option.isSome_none]
      rw [hkeep, updateStore, if_neg (by simp)]
      refine ⟨rfl, ?_⟩
      simp only [storeClear, Prog.run_atom]
      split
      · exact .inl rfl
      · next hfail =>
        refine .inr ⟨hidle.store, (resetPaid.run u.2).2.ticks.clear, ?_⟩
        intro hnone
        rw [hnone] at hfail
        exact hfail rfl
  generalize (updateStore E (resetPaid.run u.2).1).run (resetPaid.run u.2).2 = z at hupdate ⊢
  obtain ⟨r, z⟩ := z
  cases r with
  | error e => exact hupdate
  | ok _ =>
    cases u.1 <;> simpa only [Prog.run_bind, Prog.run_pure, setState_store,
      ((quiet_resolveWithTrial X E .invalid).run z).store] using hupdate

theorem deactivate_cache (w : World) :
    ((deactivate X E).run w).2.core.cache = resetCache w.core.cache := by
  obtain h | ⟨i, h⟩ := deactivate_core X E w
  · rw [h]
    rfl
  · rw [h]
    rfl

end Client

open Client in
/-- Every call but a launch or a deactivation. -/
theorem Op.exec_flushed (X : Site) {E : Env} (hE : StoreWorks E) {op : Op} (w : World)
    (hlaunch : op ≠ .relaunch) (hdeactivate : op ≠ .deactivate) :
    Flushed w (op.exec X E w) :=
  (flushed_helpers hE).code (fun _ => trivial) (flushed_persist hE)
    (fun _ _ _ _ _ _ => trivial) hlaunch hdeactivate
    { w with ticks := {} }

open Client in
/-- A deactivation drops the paid part of the cache, and with no stamp to keep it may leave the
store empty or untouched. -/
theorem Op.exec_deactivate (X : Site) {E : Env} (hE : StoreWorks E) (w : World) :
    (Op.deactivate.exec X E w).core.cache = resetCache w.core.cache ∧
      (w.core.cache.trialStart ≠ none ∧
          (Op.deactivate.exec X E w).store = buildBlob (resetCache w.core.cache) ∨
        w.core.cache.trialStart = none ∧ ((Op.deactivate.exec X E w).store = [] ∨
          (Op.deactivate.exec X E w).store = w.store ∧ ∃ i, E.clear i ≠ none)) := by
  simp only [Op.exec, Op.code, Prog.run_bind, Prog.run_pure]
  refine ⟨deactivate_cache { w with ticks := {} }, ?_⟩
  obtain ⟨htrial, k, h⟩ | h := deactivate_store (X := X) (E := E) { w with ticks := {} }
  · refine .inl ⟨htrial, ?_⟩
    rw [h, savedStore_ok hE.save]
    rfl
  · exact .inr h

/-- Zero times and empty texts are gone after one reading. -/
theorem reloaded_reloaded (c : Cache) : reloaded (reloaded c) = reloaded c := by
  have hint : ∀ i : Option Int64, (i.bind nonZero).bind nonZero = i.bind nonZero := by
    intro i
    cases i with
    | none => rfl
    | some i => exact nonZero_bind i
  have hstring : ∀ s : Option Bytes, Client.nonEmpty (Client.nonEmpty s) = Client.nonEmpty s := by
    intro s
    cases s with
    | none => rfl
    | some s => cases s <;> rfl
  simp only [reloaded, hint, hstring]

/-- The cache of a client constructed over a store. -/
def launchCache (store : Bytes) : Cache :=
  match decodeStore store with
  | none => {}
  | some j => loadCache j {}

open Client in
theorem relaunch_cache (X : Site) {E : Env} (hE : StoreWorks E) (w : World) :
    (Op.relaunch.exec X E w).core.cache = launchCache w.store := by
  obtain ⟨i, k, n, hcore⟩ := construct_core X E { w with ticks := {} }
  have hload : loadedJson E { w with ticks := {} } = decodeStore w.store := by
    rw [loadedJson, hE.load]
    rfl
  rw [hload] at hcore
  have hcore : (Op.relaunch.exec X E w).core = _ := hcore
  rw [hcore, launchCache]
  cases decodeStore w.store with
  | none => rfl
  | some j => rfl

theorem launchCache_buildBlob (c : Cache) :
    launchCache (buildBlob c) = { reloaded c with lease := leaseOf (blobValue c) } := by
  rw [launchCache, decodeStore_buildBlob]
  exact loadCache_blobValue c

/-- The client saves its cache, and a new process starts over the store. -/
def persistRelaunch (X : Site) (E : Env) (w : World) : World :=
  Op.relaunch.exec X E ((Client.saveCache E).run { w with ticks := {} }).2

open Client in
/-- A launch over a saved blob has the cache that was saved. -/
theorem persistRelaunch_cache (X : Site) {E : Env} (hE : StoreWorks E) {w : World}
    (h : ∀ l, w.client.cache.lease = some l → l.Accepted) :
    (persistRelaunch X E w).client.cache = reloaded w.client.cache := by
  have hstore : ((saveCache E).run { w with ticks := {} }).2.store =
      buildBlob w.client.cache := by
    rw [saveCache_store, savedStore_ok hE.save]
    rfl
  refine (relaunch_cache X hE _).trans ?_
  rw [hstore, launchCache_buildBlob, leaseOf_blob h]
  rfl

/-- Every persisted field survives, up to the zero times and empty texts that stand for absent
ones, and the cached lease keeps its payload and its verdict over any number of cycles. -/
theorem blob_round_trip (X : Site) (w : World) (cycles : List Env)
    (hworks : ∀ E ∈ cycles, StoreWorks E)
    (h : ∀ l, w.client.cache.lease = some l → l.Accepted) :
    let v := Runs.runAll (persistRelaunch X) cycles w
    (∃ j, Json.parse (buildBlob w.client.cache) = .ok j ∧
      loadCache j {} = reloaded w.client.cache) ∧
    reloaded v.client.cache = reloaded w.client.cache ∧
    (cycles ≠ [] → v.client.cache = reloaded w.client.cache) ∧
    ∀ l, w.client.cache.lease = some l → ∃ l', v.client.cache.lease = some l' ∧
      l'.canonicalPayload = l.canonicalPayload ∧ ∀ t, X.verify l' t = X.verify l t := by
  intro v
  have hrun : v.client.cache = w.client.cache ∧ cycles = [] ∨
      v.client.cache = reloaded w.client.cache := by
    simp only [v]
    clear v
    induction cycles generalizing w with
    | nil => exact .inl ⟨rfl, rfl⟩
    | cons E rest ih =>
      right
      have hfirst := persistRelaunch_cache X (hworks E (.head _)) h
      have hrest := ih (persistRelaunch X E w) (fun E' hE' => hworks E' (.tail _ hE')) (by
        rw [hfirst]
        exact h)
      rw [hfirst] at hrest
      obtain ⟨hcache, -⟩ | hcache := hrest
      · exact hcache
      · exact hcache.trans (reloaded_reloaded _)
  refine ⟨⟨_, parse_buildBlob _, loadCache_buildBlob _ h⟩, ?_, ?_, ?_⟩
  · obtain ⟨hv, -⟩ | hv := hrun
    · rw [hv]
    · rw [hv, reloaded_reloaded]
  · intro hne
    obtain ⟨-, hnil⟩ | hv := hrun
    · exact absurd hnil hne
    · exact hv
  · intro l hl
    have hlease : v.client.cache.lease = some l := by
      obtain ⟨hv, -⟩ | hv := hrun
      · rw [hv, hl]
      · rw [hv]
        exact hl
    exact ⟨l, hlease, rfl, fun t => rfl⟩

/-- A client that holds the stored licence. -/
def storedWorld : World := { client := { cache := vectorCache } }

theorem blob_round_trip_vector : ∃ l', (Runs.runAll (persistRelaunch vectorSite)
    [offlineAt 1781076300, offlineAt 1781335456] storedWorld).client.cache.lease = some l' ∧
      l'.canonicalPayload = vectorLease.canonicalPayload ∧
      ∀ t, vectorSite.verify l' t = vectorSite.verify vectorLease t := by
  have hworks : ∀ E ∈ [offlineAt 1781076300, offlineAt 1781335456], StoreWorks E := by
    simp [offlineAt_works]
  have haccepted : ∀ l, storedWorld.client.cache.lease = some l → l.Accepted := by
    intro l hl
    cases hl
    exact ⟨by decide, by decide⟩
  have hrun := blob_round_trip vectorSite storedWorld _ hworks haccepted
  exact hrun.2.2.2 vectorLease rfl

end Keylight
