import Keylight.OfflineLaunch
import Keylight.Writes

/-!
# The store mirrors the cache

While store operations succeed, what a relaunch would load is what the client
holds: its lease and its last online validation. `launch_eq_relaunch` uses this
to compare an offline `checkOnLaunch` with a fresh client over the same store.
-/
namespace Keylight
open Bytes Sections

/-- Every store operation of the call succeeds. -/
structure StoreWorks (E : Env) : Prop where
  load : ∀ i, E.load i = none
  save : ∀ i, E.save i = none

/-- The store holds the cached lease with the cached anchor. -/
structure Mirrors (c : Core) (store : Bytes) : Prop where
  anchor : c.anchor = c.cache.lastValidatedOnline
  accepted : ∀ l, c.cache.lease = some l → l.Accepted
  stored : ∀ l, c.cache.lease = some l → ∃ j, decodeStore store = some j ∧ leaseOf j = some l ∧
    (loadCache j {}).lastValidatedOnline = c.cache.lastValidatedOnline

def Mirrored (w : World) : Prop := Mirrors w.core w.store

/-- Without a lease there is nothing to mirror. -/
theorem mirrors_leaseless {c : Core} {store : Bytes} (hlease : c.cache.lease = none)
    (hanchor : c.anchor = c.cache.lastValidatedOnline) : Mirrors c store := by
  refine ⟨hanchor, fun l hl => ?_, fun l hl => ?_⟩
  all_goals
    rw [hlease] at hl
    cases hl

/-- A saved cache is mirrored. -/
theorem mirrors_saved {c : Core} (hanchor : c.anchor = c.cache.lastValidatedOnline)
    (haccepted : ∀ l, c.cache.lease = some l → l.Accepted) : Mirrors c (buildBlob c.cache) := by
  refine ⟨hanchor, haccepted, fun l hl => ?_⟩
  refine ⟨blobValue c.cache, decodeStore_buildBlob _, ?_, ?_⟩
  · rw [leaseOf_blob haccepted, hl]
  · rw [loadCache_buildBlob c.cache haccepted]
    rfl

theorem Mirrors.congr {c c' : Core} {store : Bytes} (h : Mirrors c store)
    (hlease : c'.cache.lease = c.cache.lease)
    (hlvo : c'.cache.lastValidatedOnline = c.cache.lastValidatedOnline)
    (hanchor : c'.anchor = c.anchor) : Mirrors c' store := by
  refine ⟨?_, ?_, ?_⟩
  · rw [hanchor, hlvo]
    exact h.anchor
  · rw [hlease]
    exact h.accepted
  · rw [hlease, hlvo]
    exact h.stored

namespace Client
variable {X : Site} {E : Env}

/-- A lease that is persisted has passed the decoder. -/
theorem persistData_accepted {d : PersistData} {l : Lease} (h : d.lease = some l) :
    l.Accepted := by
  simp only [PersistData.lease] at h
  cases hj : d.leaseJson with
  | none => simp [hj] at h
  | some text =>
    cases hl : (Json.parse text).bind Lease.fromJson with
    | error e => simp [hj, hl, Except.toOption] at h
    | ok l' =>
      simp only [hj, hl, Option.bind_some, Except.toOption, Option.some.injEq] at h
      subst h
      cases hp : Json.parse text with
      | error e => simp [hp, Except.bind] at hl
      | ok j =>
        rw [hp] at hl
        exact Lease.accepted_of_fromJson hl

theorem mirrored_saveCache (hE : StoreWorks E) : Keeps Mirrored (saveCache E) := by
  intro w hw
  rw [Mirrored, saveCache_core, saveCache_store, savedStore_ok hE.save]
  exact mirrors_saved hw.anchor hw.accepted

theorem mirrored_persist (hE : StoreWorks E) (d : PersistData) : Keeps Mirrored (persist E d) := by
  intro w hw
  rw [Mirrored, persist_core, persist_store, savedStore_ok hE.save]
  refine mirrors_saved hw.anchor fun l hl => ?_
  cases hd : d.lease with
  | none =>
    apply hw.accepted
    simpa [PersistData.merge, hd] using hl
  | some l' =>
    have hl' : some l' = some l := by simpa [PersistData.merge, hd] using hl
    cases hl'
    exact persistData_accepted hd

/-- Every helper keeps the mirror. -/
theorem mirrored_primitives (hE : StoreWorks E) :
    Primitives E (fun _ => True) (fun _ {_} p => Keeps Mirrored p) where
  quiet := by
    intro α p hp w hw
    have hidle := hp.run w
    rw [Mirrored, hidle.core, hidle.store]
    exact hw
  free := fun hp hk => .bind hp hk
  seq := fun hp hk => .bind hp hk
  after := fun hp hk => .bind hp hk
  weaken := id
  widen := id
  writeCache := fun f hf => .modify fun w hw =>
    Mirrors.congr hw (hf _).1 (hf _).2.2.1 rfl
  noteHardwareId := fun id => .atom fun w hw => by
    split
    · exact Mirrors.congr hw rfl rfl rfl
    · exact hw
  mint := .atom fun w hw => by
    split
    · exact hw
    · exact Mirrors.congr hw rfl rfl rfl
  stamp := .atom fun w hw => by
    split
    · exact hw
    · exact Mirrors.congr hw rfl rfl rfl
  saveCache := mirrored_saveCache hE
  anchor := by
    intro t w hw
    rw [Mirrored, saveLastValidatedOnline_core, saveLastValidatedOnline_store,
      savedStore_ok hE.save]
    exact mirrors_saved rfl hw.accepted
  persist := fun d _ _ => mirrored_persist hE d
  clearLease := by
    intro w hw
    rw [Mirrored, clearLease_core, clearLease_store, savedStore_ok hE.save]
    exact mirrors_leaseless rfl hw.anchor
  setState := by
    intro s w hw
    rw [Mirrored, setState_core, setState_store]
    exact Mirrors.congr hw rfl rfl rfl

theorem mirrored_deactivate (w : World) : Mirrored ((deactivate X E).run w).2 := by
  obtain h | ⟨i, h⟩ := deactivate_core X E w
  · rw [Mirrored, h]
    exact mirrors_leaseless rfl rfl
  · rw [Mirrored, h]
    exact mirrors_leaseless rfl rfl

/-- A launch mirrors whatever store it finds. -/
theorem mirrored_construct (hE : StoreWorks E) (w : World) :
    Mirrored ((construct X E).run w).2 := by
  obtain ⟨i, k, n, h⟩ := construct_core X E w
  rw [Mirrored, construct_store, h]
  have hload : loadedJson E w = decodeStore w.store := by
    rw [loadedJson, hE.load]
    rfl
  rw [hload]
  cases hj : decodeStore w.store with
  | none => exact mirrors_leaseless rfl rfl
  | some j =>
    have hlease : ∀ l, (loadCache j {}).lease = some l → leaseOf j = some l := by
      intro l hl
      simpa [loadCache] using hl
    refine ⟨rfl, fun l hl => leaseOf_accepted (hlease l hl), fun l hl => ?_⟩
    exact ⟨j, hj, hlease l hl, rfl⟩

end Client

open Client in
/-- After every call the store mirrors the cached lease, after a launch from any store. -/
theorem Op.exec_mirrored (X : Site) {E : Env} (hE : StoreWorks E) (op : Op) {w : World}
    (hw : Mirrored w ∨ op = .relaunch) : Mirrored (op.exec X E w) := by
  by_cases hlaunch : op = .relaunch
  · rw [hlaunch]
    exact mirrored_construct hE _
  · have hw' : Mirrored { w with ticks := {} } := hw.resolve_right hlaunch
    by_cases hdeactivate : op = .deactivate
    · rw [hdeactivate]
      simp only [Op.exec, Op.code, Prog.run_bind, Prog.run_pure]
      exact mirrored_deactivate _
    · exact (mirrored_primitives hE).helpers.code (fun _ => trivial) (mirrored_persist hE)
        (fun _ _ _ _ _ _ => trivial) hlaunch
        hdeactivate _ hw'

/-- Over every run that starts with a launch and whose store operations succeed. -/
theorem mirrored_history (X : Site) (store : Bytes) (E₀ : Env) (calls : List Call)
    (h₀ : StoreWorks E₀) (hstore : ∀ call ∈ calls, StoreWorks call.2) :
    Mirrored (history X store ((.relaunch, E₀) :: calls)) := by
  have hlaunch : Mirrored (Op.relaunch.exec X E₀ { store }) :=
    Op.exec_mirrored X h₀ .relaunch (.inr rfl)
  apply Runs.runAll_keeps _ hlaunch
  intro call hcall w hw
  exact call.1.exec_mirrored X (hstore call hcall) (.inl hw)

/-- A clock that goes forward is not rolled back. -/
theorem not_rolledBack {lastSeen now : Int64} (hzero : 0 ≤ lastSeen) (hle : lastSeen ≤ now) :
    clockRolledBack lastSeen now = false := by
  have hl := Int64.le_iff_toInt_le.1 hle
  have hz := Int64.le_iff_toInt_le.1 hzero
  have hmax := now.toInt_lt
  have hsub : (lastSeen - now).toInt = lastSeen.toInt - now.toInt := by
    rw [Int64.toInt_sub]
    apply Int.bmod_eq_of_le
    · simp only [Int64.toInt_zero] at hz
      omega
    · omega
  simp only [clockRolledBack, decide_eq_false_iff_not, gt_iff_lt, Int64.lt_iff_toInt_lt, hsub]
  have htol : clockBackwardTolerance.toInt = 3600 := by decide
  omega

namespace Client
variable (X : Site) (E : Env)

/-- With a usable anchor the constructor's bound and the grace's window are one condition. -/
theorem beyondOfflineBound_iff {anchor t : Int64} (hzero : 0 ≤ anchor) (hle : anchor ≤ t) :
    beyondOfflineBound X anchor t = true ↔
      ¬(anchor > 0 ∧ t - anchor ≤ X.cfg.maxOfflineDays.toInt64 * 86400) := by
  have hpos : anchor > 0 ↔ ¬anchor = 0 := by
    rw [gt_iff_lt, Int64.lt_iff_le_and_ne]
    constructor
    · rintro ⟨-, hne⟩ h
      exact hne h.symm
    · intro h
      exact ⟨hzero, fun he => h he.symm⟩
  simp only [beyondOfflineBound, not_rolledBack hzero hle, Bool.or_false, Bool.or_eq_true,
    decide_eq_true_eq, hpos, gt_iff_lt, ← Int64.not_le]
  tauto

theorem leaseState_eq {l : Lease} (htrust : X.trusts l = true) (t : Int64) :
    leaseState X l t = if l.status = ascii "active" then
      if expiredAt X l t then .expired else .licensed
    else if l.status = ascii "fallback" then .limited else .expired := by
  simp only [leaseState, deriveStateFromVerify, X.verify_isTrusted, htrust, Bool.not_true,
    Bool.false_eq_true, if_false]
  rfl

/-- On an active lease the grace and the constructor compute one state, outside the skew. -/
theorem gracedState_active {c : Core} {l : Lease} {t : Int64}
    (hzero : 0 ≤ c.cache.lastValidatedOnline) (hle : c.cache.lastValidatedOnline ≤ t)
    (hlease : c.cache.lease = some l) (htrust : X.trusts l = true)
    (hraw : c.rawState = .licensed) (hactive : l.status = ascii "active")
    (hexpiry : t > l.expiresAt ↔ expiredAt X l t = true) :
    gracedState X c t c.cache.lastValidatedOnline =
      boundedAt X (leaseState X l t) c.cache.lastValidatedOnline t := by
  have hbound := beyondOfflineBound_iff X hzero hle
  simp only [gracedState, graceEnds, rawExpired, hraw, hlease, decide_eq_true_eq, true_and,
    hexpiry, boundedAt, leaseState_eq X htrust, hactive, if_true, ← hbound]
  cases expiredAt X l t <;> by_cases hd : X.cfg.maxOfflineDays > 0 <;> simp [hd]

/-- On a fallback lease they do within the offline bound. -/
theorem gracedState_fallback {c : Core} {l : Lease} {t : Int64}
    (hzero : 0 ≤ c.cache.lastValidatedOnline) (hle : c.cache.lastValidatedOnline ≤ t)
    (htrust : X.trusts l = true) (hraw : c.rawState = .limited)
    (hfallback : l.status = ascii "fallback")
    (hlimit : X.cfg.maxOfflineDays > 0 → c.cache.lastValidatedOnline > 0 ∧
      t - c.cache.lastValidatedOnline ≤ X.cfg.maxOfflineDays.toInt64 * 86400) :
    gracedState X c t c.cache.lastValidatedOnline =
      boundedAt X (leaseState X l t) c.cache.lastValidatedOnline t := by
  have hbound := beyondOfflineBound_iff X hzero hle
  have hne : ¬l.status = ascii "active" := by
    rw [hfallback]
    decide
  rw [leaseState_eq X htrust, if_neg hne, if_pos hfallback]
  simp only [gracedState, hraw, reduceCtorEq, false_and, if_false, boundedAt, hbound]
  split
  · rename_i hd
    rw [if_neg (fun h => h (hlimit hd.2))]
  · rfl

/-- What a fresh client over a mirrored store answers. -/
theorem relaunch_mirrored {w : World} (hw : Mirrored w) {l : Lease}
    (hlease : w.client.cache.lease = some l) (hE : StoreWorks E) {t : Int64}
    (hnow : ∀ i, E.now i = t) (htrust : X.trusts l = true) :
    (Op.relaunch.exec X E w).client.anchor = w.client.anchor ∧
      (Op.relaunch.exec X E w).client.rawState =
        boundedAt X (leaseState X l t) w.client.cache.lastValidatedOnline t := by
  obtain ⟨j, hj, hl, hlvo⟩ := hw.stored l hlease
  obtain ⟨i, k, n, hcore⟩ := construct_core X E { w with ticks := {} }
  have hload : loadedJson E { w with ticks := {} } = some j := by
    rw [loadedJson, hE.load]
    exact hj
  rw [hload, hnow, hnow, hnow] at hcore
  have hcore : (Op.relaunch.exec X E w).core = launchedCore X j t t t := hcore
  refine ⟨(congrArg Core.anchor hcore).trans (hlvo.trans hw.anchor.symm), ?_⟩
  refine (congrArg Core.rawState hcore).trans ?_
  have hpaid : boundedAt X (leaseState X l t) w.client.cache.lastValidatedOnline t ≠ .invalid := by
    unfold boundedAt
    obtain h | h | h := leaseState_trusted htrust t
    all_goals
      rw [h]
      split
      · split <;> simp
      · simp
  simp only [launchedCore, hl, storedPaid, hlvo]
  exact resolvedAt_paid X _ hpaid t

end Client

open Client in
/-- An offline `checkOnLaunch` and a fresh client over the same store agree: on an active lease
wherever its raw expiry and the verifier agree, on a fallback lease within the offline bound. -/
theorem launch_eq_relaunch (X : Site) (store : Bytes) (E₀ E E' : Env) (calls : List Call)
    (l : Lease) (t : Int64) (h₀ : StoreWorks E₀) (hstore : ∀ call ∈ calls, StoreWorks call.2)
    (hfresh : StoreWorks E') (hnow : ∀ i, E.now i = t) (hnow' : ∀ i, E'.now i = t)
    (hoffline : Offline E) :
    let w := history X store ((.relaunch, E₀) :: calls)
    hasKey w.client.cache = true → w.client.cache.lease = some l → X.trusts l = true →
    (w.client.rawState = .licensed ∧ l.status = ascii "active" ∧
        (t > l.expiresAt ↔ expiredAt X l t = true) ∨
      w.client.rawState = .limited ∧ l.status = ascii "fallback" ∧
        (X.cfg.maxOfflineDays > 0 → w.client.cache.lastValidatedOnline > 0 ∧
          t - w.client.cache.lastValidatedOnline ≤ X.cfg.maxOfflineDays.toInt64 * 86400)) →
    0 ≤ w.client.cache.lastValidatedOnline → w.client.cache.lastValidatedOnline ≤ t →
    stateAt (Op.checkOnLaunch.exec X E w).client t =
      stateAt (Op.relaunch.exec X E' w).client t := by
  intro w hkey hlease htrust hraw hzero hle
  have hw : Mirrored w := mirrored_history X store E₀ calls h₀ hstore
  obtain ⟨hanchor, hstate⟩ := relaunch_mirrored X E' hw hlease hfresh hnow' htrust
  have hbound := beyondOfflineBound_iff X hzero hle
  have htransient : ¬Decodable (validationVerdict E.reply) := by
    rw [hoffline.verdict]
    exact fun hd => hd.1 rfl
  obtain ⟨hasks, -⟩ | ⟨-, -, hgraced⟩ := Op.checkOnLaunch.exec_graces X E rfl w hkey hnow
  · exact absurd (fun h => absurd h (by decide)) hasks
  · have hcore := hgraced htransient
    refine stateAt_congr ((congrArg Core.anchor hcore).trans hanchor.symm)
      ((congrArg Core.rawState hcore).trans (Eq.trans ?_ hstate.symm)) t
    obtain ⟨hraw, hactive, hexpiry⟩ | ⟨hraw, hfallback, hlimit⟩ := hraw
    · exact gracedState_active X hzero hle hlease htrust hraw hactive hexpiry
    · exact gracedState_fallback X hzero hle htrust hraw hfallback hlimit

/-- The tenant with fifteen days offline. -/
def patientSite : Site := { vectorSite with cfg := { vectorSite.cfg with maxOfflineDays := 15 } }

/-- The licensed client of the stored lease, under the longer offline bound. -/
def patientWorld : World :=
  history patientSite vectorStore [(.relaunch, offlineAt 1781076300)]

theorem offlineAt_works (t : Int64) : StoreWorks (offlineAt t) := ⟨fun _ => rfl, fun _ => rfl⟩

theorem offlineAt_offline (t : Int64) : Offline (offlineAt t) := fun _ => ⟨_, rfl⟩

theorem patientWorld_holds : Client.hasKey patientWorld.client.cache = true ∧
    patientWorld.client.cache.lease = some vectorLease ∧
    patientWorld.client.rawState = .licensed ∧
    patientWorld.client.cache.lastValidatedOnline = 1781076256 := by decide +kernel

theorem patientSite_trusts : patientSite.trusts vectorLease = true := by decide +kernel

/-- A hundred seconds after its raw expiry the lease is still good for a fresh client, and no
longer for an offline `checkOnLaunch`. -/
theorem launch_ne_relaunch : ¬∀ (X : Site) (store : Bytes) (calls : List Call) (E E' : Env)
    (l : Lease) (t : Int64),
    Client.hasKey (history X store calls).client.cache = true →
    (history X store calls).client.cache.lease = some l → X.trusts l = true →
    (∃ s, (history X store calls).client.rawState = leaseState X l s) →
    (history X store calls).client.rawState.paid = true →
    (history X store calls).client.cache.lastValidatedOnline ≤ t →
    (∀ i, E.now i = t) → (∀ i, E'.now i = t) → Offline E → StoreWorks E' →
    Client.stateAt (Op.checkOnLaunch.exec X E (history X store calls)).client t =
      Client.stateAt (Op.relaunch.exec X E' (history X store calls)).client t := by
  intro h
  have hgraced : Client.stateAt (Op.checkOnLaunch.exec patientSite (offlineAt 1781681146)
      patientWorld).client 1781681146 = .expired := by decide +kernel
  have hfresh : Client.stateAt (Op.relaunch.exec patientSite (offlineAt 1781681146)
      patientWorld).client 1781681146 = .licensed := by decide +kernel
  have hlicensed : leaseState patientSite vectorLease 1781076300 = .licensed := by decide +kernel
  obtain ⟨hkey, hlease, hraw, hanchor⟩ := patientWorld_holds
  rw [patientWorld] at hgraced hfresh hkey hlease hraw hanchor
  have heq := h patientSite vectorStore _ (offlineAt 1781681146) (offlineAt 1781681146)
    vectorLease 1781681146 hkey hlease patientSite_trusts
    ⟨1781076300, hraw.trans hlicensed.symm⟩ (by rw [hraw]; rfl) (by rw [hanchor]; decide)
    (fun _ => rfl) (fun _ => rfl) (offlineAt_offline _) (offlineAt_works _)
  rw [hgraced, hfresh] at heq
  cases heq

/-- Three days after the last validation both are licensed. -/
theorem launch_eq_relaunch_vector :
    Client.stateAt (Op.checkOnLaunch.exec patientSite (offlineAt 1781335456)
      patientWorld).client 1781335456 =
    Client.stateAt (Op.relaunch.exec patientSite (offlineAt 1781335456)
      patientWorld).client 1781335456 := by
  obtain ⟨hkey, hlease, hraw, hanchor⟩ := patientWorld_holds
  rw [patientWorld] at hkey hlease hraw hanchor ⊢
  exact launch_eq_relaunch patientSite vectorStore (offlineAt 1781076300) (offlineAt 1781335456)
    (offlineAt 1781335456) [] vectorLease 1781335456 (offlineAt_works _) (fun _ h => by cases h)
    (offlineAt_works _) (fun _ => rfl) (fun _ => rfl) (offlineAt_offline _) hkey hlease
    patientSite_trusts (.inl ⟨hraw, rfl, by decide +kernel⟩) (by rw [hanchor]; decide)
    (by rw [hanchor]; decide)

end Keylight
