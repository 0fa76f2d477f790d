import Keylight.Settle

/-!
# What the other operations do to the core

Construction, activation, deactivation and the keyless side, each as a function
of the core before the call, the decoded input and clock readings of the call.
-/
namespace Keylight
open Bytes Sections

/-- The store as an object, when it holds one. -/
def decodeStore (blob : Bytes) : Option Json :=
  if blob = [] then none else (Json.parse blob).toOption

namespace Client
variable (X : Site) (E : Env)

/-- The paid state under the offline bound at reading `t`. -/
def boundedAt (paid : State) (anchor t : Int64) : State :=
  if paid ≠ .invalid ∧ X.cfg.maxOfflineDays > 0 then
    if beyondOfflineBound X anchor t then .expired else paid
  else paid

/-- The paid state of a stored lease; no lease is no paid state. -/
def storedPaid (lease : Option Lease) (t : Int64) : State :=
  match lease with
  | none => .invalid
  | some l => leaseState X l t

/-- The client built from a decoded blob, at the readings of the lease, the bound and the trial. -/
def launchedCore (j : Json) (t₀ t₁ t₂ : Int64) : Core :=
  let c := loadCache j {}
  ⟨c, resolvedAt X c (boundedAt X (storedPaid X (leaseOf j) t₀) c.lastValidatedOnline t₁) t₂,
    (intOf j (ascii "lastValidatedOnline")).getD 0⟩

def blankCore : Core := ⟨{}, .invalid, 0⟩

/-- What construction reads from the store. -/
def loadedJson (w : World) : Option Json :=
  if (E.load w.ticks.load).isNone then decodeStore w.store else none

theorem boundOffline_value (paid : State) (w : World) :
    ((boundOffline X E paid).run w).1 =
      boundedAt X paid w.core.cache.lastValidatedOnline (E.now w.ticks.now) := by
  simp only [boundOffline, boundedAt, Prog.run_ite]
  split
  · simp only [readCache, nowFn, Prog.run_bind, Prog.run_read, Prog.run_atom, Prog.run_pure]
    rfl
  · rfl

theorem quiet_boundOffline (paid : State) : Quiet (boundOffline X E paid) :=
  .ite (.bind (quiet_readCache _) fun _ => .bind (quiet_nowFn E) fun _ => .pure _) (.pure _)

theorem paidFromStore_value (lease : Option Lease) (w : World) :
    ((paidFromStore X E lease).run w).1 = storedPaid X lease (E.now w.ticks.now) := by
  cases lease with
  | none => rfl
  | some l => rfl

theorem quiet_paidFromStore (lease : Option Lease) : Quiet (paidFromStore X E lease) := by
  cases lease with
  | none => exact .pure _
  | some l => exact .bind (quiet_nowFn E) fun _ => .pure _

theorem quiet_storeLoad : Quiet (storeLoad E) :=
  Each.atom fun _ => ⟨.silent rfl rfl rfl rfl rfl le_rfl, trivial⟩

theorem storeInitialState_core (s : State) (w : World) :
    ((storeInitialState s).run w).2.core = { w.core with rawState := s } := rfl

theorem loadBlob_core (j : Json) (w : World) :
    ((loadBlob j).run w).2.core = ⟨loadCache j w.core.cache, w.core.rawState,
      (intOf j (ascii "lastValidatedOnline")).getD w.core.anchor⟩ := rfl

/-- The part of the constructor after the blob decodes. -/
def resolveLoaded (j : Json) : Code Unit := do
  loadBlob j
  let paid ← paidFromStore X E (leaseOf j)
  let paid ← boundOffline X E paid
  let s ← resolveWithTrial X E paid
  storeInitialState s

theorem resolveLoaded_core (j : Json) (w : World) (hw : w.core = blankCore) : ∃ i k n,
    ((resolveLoaded X E j).run w).2.core = launchedCore X j (E.now i) (E.now k) (E.now n) := by
  have h₀ : ((loadBlob j).run w).2.core = ⟨loadCache j {}, .invalid,
      (intOf j (ascii "lastValidatedOnline")).getD 0⟩ := by
    rw [loadBlob_core, hw]
    rfl
  simp only [resolveLoaded, Prog.run_bind, storeInitialState_core, resolveWithTrial_value,
    boundOffline_value, paidFromStore_value, ((quiet_resolveWithTrial X E _).run _).core,
    ((quiet_boundOffline X E _).run _).core, ((quiet_paidFromStore X E _).run _).core, h₀]
  exact ⟨_, _, _, rfl⟩

/-- Resolving from the store leaves a blank client, or the launched one of the blob. -/
theorem refreshStateFromStore_core (w : World) (hw : w.core = blankCore) : ∃ i k n,
    ((refreshStateFromStore X E).run w).2.core =
      match loadedJson E w with
      | none => blankCore
      | some j => launchedCore X j (E.now i) (E.now k) (E.now n) := by
  have hidle := ((quiet_storeLoad E).run w).core
  have hvalue : ((storeLoad E).run w).1 = (outcome (E.load w.ticks.load)).map fun _ => w.store :=
    rfl
  have hblank : ∀ v : World, v.core = blankCore →
      ((storeInitialState .invalid).run v).2.core = blankCore := by
    intro v hv
    rw [storeInitialState_core, hv]
    rfl
  simp only [refreshStateFromStore, Prog.run_bind, hvalue, loadedJson, decodeStore]
  generalize ((storeLoad E).run w).2 = v at hidle ⊢
  rw [hw] at hidle
  cases E.load w.ticks.load with
  | some e => exact ⟨0, 0, 0, hblank v hidle⟩
  | none =>
    cases hs : w.store with
    | nil => exact ⟨0, 0, 0, hblank v hidle⟩
    | cons b bs =>
      cases hj : Json.parse (b :: bs) with
      | error e =>
        refine ⟨0, 0, 0, ?_⟩
        simpa [outcome, Except.map, hj, Except.toOption] using hblank v hidle
      | ok j =>
        obtain ⟨i, k, n, h⟩ := resolveLoaded_core X E j v hidle
        refine ⟨i, k, n, ?_⟩
        simpa [outcome, Except.map, hj, Except.toOption, resolveLoaded] using h

theorem construct_core (w : World) : ∃ i k n,
    ((construct X E).run w).2.core =
      match loadedJson E w with
      | none => blankCore
      | some j => launchedCore X j (E.now i) (E.now k) (E.now n) := by
  obtain ⟨i, k, n, h⟩ := refreshStateFromStore_core X E
    { w with client := {}, saveOwner := none, notifyOwner := none, log := w.log ++ [.launched] } rfl
  refine ⟨i, k, n, ?_⟩
  simp only [construct, Prog.run_bind, Prog.run_modify]
  exact ((quiet_state E).run _).core.trans h

/-- No section of the constructor writes to the store. -/
theorem each_construct {M : World → World → Prop}
    (hM : ∀ {w v : World}, v.store = w.store → w.log <+: v.log → M w v) :
    Each M (fun _ => True) (construct X E) := by
  have hquiet : ∀ {α : Type} {p : Code α}, Quiet p → Each M (fun _ => True) p :=
    fun hp => hp.each fun h => hM h.store h.grows
  have hinit : ∀ s, Each M (fun _ => True) (storeInitialState s) := fun s =>
    Each.modify (fun _ => hM rfl List.prefix_rfl) trivial
  have hrefresh : Each M (fun _ => True) (refreshStateFromStore X E) := by
    refine .bind (hquiet (quiet_storeLoad E)) fun lr _ => ?_
    cases lr with
    | error e => exact hinit _
    | ok blob =>
      cases blob with
      | nil => exact hinit _
      | cons b bs =>
        dsimp only
        cases Json.parse (b :: bs) with
        | error e => exact hinit _
        | ok j =>
          refine .bind (Each.modify (Q := fun _ => True) (fun _ => hM rfl List.prefix_rfl) trivial)
            fun _ _ => ?_
          refine .bind (hquiet (quiet_paidFromStore X E _)) fun paid _ => ?_
          refine .bind (hquiet (quiet_boundOffline X E paid)) fun paid _ => ?_
          exact .bind (hquiet (quiet_resolveWithTrial X E paid)) fun s _ => hinit s
  refine .bind (Each.modify (Q := fun _ => True) (fun w => ?_) trivial) fun _ _ =>
    .bind hrefresh fun _ _ => ?_
  · exact hM rfl (List.prefix_append _ _)
  · exact .bind (hquiet (quiet_state E)) fun s _ =>
      Each.modify (fun _ => hM rfl List.prefix_rfl) trivial

theorem construct_store (w : World) : ((construct X E).run w).2.store = w.store := by
  have hall : Each (fun u v : World => v.store = u.store) (fun _ => True) (construct X E) :=
    each_construct X E fun hstore _ => hstore
  exact (hall.run (fun _ => rfl) (fun _ _ _ h₁ h₂ => h₂.trans h₁) w).1

def activatedCache (key : Bytes) (j : Json) (lease : Option Lease) (c : Cache) : Cache :=
  { c with
    lease := lease.or c.lease
    expiresAt := (intOf j (ascii "license_expires_at")).or c.expiresAt
    instanceId := (stringOf j (ascii "instance_id")).or c.instanceId
    licenseKey := some key }

/-- What an activation reply does to the core. -/
inductive Activated (key : Bytes) : ActivationVerdict → Core → Core → Prop where
  | refused (c : Core) : Activated key .refused c c
  | bare (c : Core) (j : Json) :
    Activated key (.bare j) c
      { c with cache := activatedCache key j none c.cache, rawState := .licensed }
  | leased (c : Core) {j : Json} {l : Lease} (h : X.trusts l = true) (i k : Nat) :
    Activated key (.leased j l) c
      ⟨{ activatedCache key j (some l) c.cache with lastValidatedOnline := E.now k },
        leaseState X l (E.now i), E.now k⟩
  | untrusted (c : Core) {j : Json} {l : Lease} (h : X.trusts l = false) (i : Nat) :
    Activated key (.leased j l) c
      { c with rawState := resolvedAt X c.cache .invalid (E.now i) }

theorem merge_activated {lease : Option Lease} (h : ∀ l, lease = some l → l.Accepted)
    (key : Bytes) (j : Json) (c : Cache) :
    PersistData.merge ⟨lease.map leaseToJson, intOf j (ascii "license_expires_at"),
      stringOf j (ascii "instance_id"), some key⟩ c = activatedCache key j lease c := by
  cases lease with
  | none => simp [PersistData.merge, PersistData.lease, activatedCache]
  | some l => simp [PersistData.merge, persistData_lease (h l rfl), activatedCache]

theorem activateBare_core (key : Bytes) (j : Json) (w : World) :
    ((activateWith X E key j none).run w).2.core =
      { w.core with cache := activatedCache key j none w.core.cache, rawState := .licensed } := by
  have hmerge := merge_activated (fun (l : Lease) (h : none = some l) => by cases h) key j
    w.core.cache
  simp only [activateWith, resolveFromLease, resolveWithTrial, ne_eq, reduceCtorEq,
    not_false_eq_true, if_true, Prog.run_bind, Prog.run_pure, ((quiet_report E _).run _).core,
    setState_core, persist_core, (quiet_loadState.run w).core]
  rw [← hmerge]
  rfl

/-- An activation with a lease has one of its outcomes. -/
theorem activateLeased_activated (key : Bytes) (j : Json) {l : Lease} (hl : l.Accepted)
    (w : World) : Activated X E key (.leased j l) w.core
      ((activateWith X E key j (some l)).run w).2.core := by
  have hmerge := merge_activated (fun l' (h : some l = some l') => by cases h; exact hl) key j
    w.core.cache
  rw [Option.map_some] at hmerge
  have hvalue := resolveFromLease_some X E l w
  have hidle := ((quiet_resolveFromLease X E (some l)).run w).core
  simp only [activateWith, X.verify_isTrusted, Prog.run_bind, hvalue]
  generalize ((resolveFromLease X E (some l)).run w).2 = w₁ at hidle ⊢
  have hnow := ((quiet_nowFn E).run w₁).core
  generalize ((nowFn E).run w₁).2 = w₂ at hnow ⊢
  rw [hidle] at hnow
  cases h : X.trusts l with
  | true =>
    have hpaid : leaseState X l (E.now w.ticks.now) ≠ .invalid := by
      obtain h | h | h := leaseState_trusted h (E.now w.ticks.now)
      all_goals simp [h]
    simp only [if_true, Prog.run_bind, Prog.run_pure, setState_core,
      ((quiet_report E _).run _).core, ((quiet_resolveWithTrial X E _).run _).core,
      resolveWithTrial_value, saveLastValidatedOnline_core, ((quiet_nowFn E).run _).core,
      persist_core, hnow, hmerge]
    rw [← leaseState, resolvedAt_paid X _ hpaid]
    exact .leased w.core h _ _
  | false =>
    simp only [Bool.false_eq_true, if_false, Prog.run_bind, Prog.run_pure, setState_core,
      ((quiet_report E _).run _).core, ((quiet_resolveWithTrial X E _).run _).core,
      resolveWithTrial_value, hnow]
    rw [← leaseState, leaseState_untrusted h]
    exact .untrusted w.core h _

/-- So has one with any decoded reply. -/
theorem activateReply_activated (key : Bytes) {resp : HttpResponse} {j : Json}
    (hstatus : resp.status = 200) (hbody : Json.parse resp.body = .ok j) (w : World) :
    Activated X E key (activationVerdict (.ok resp)) w.core
      ((activateReply X E key j).run w).2.core := by
  simp only [activationVerdict, hstatus, hbody, activateReply, ne_eq, not_true_eq_false, if_false]
  by_cases ha : (j.get (ascii "activated")).asBool = true
  · simp only [ha, Bool.not_true, Bool.false_eq_true, if_false]
    by_cases hs : 0 < (j.get (ascii "lease")).size
    · simp only [if_pos hs]
      cases hl : Lease.fromJson (j.get (ascii "lease")) with
      | error e => exact .refused w.core
      | ok l => exact activateLeased_activated X E key j (Lease.accepted_of_fromJson hl) w
    · simp only [if_neg hs, activateBare_core]
      exact .bare w.core j
  · simp only [Bool.not_eq_true] at ha
    simp only [ha, Bool.not_false, if_true, Prog.run_bind]
    rw [((quiet_report E _).run _).core, (quiet_loadState.run w).core]
    exact .refused w.core

/-- `activate` asks, then acts on the reply. -/
theorem activate_run (key : Bytes) (w : World) : ∃ u, Asked X E (ascii "activate") w u ∧
    (activate X E key).run w = (settleActivate X E key (E.replyAt w.ticks.request)).run u := by
  have hnoted := appendAttributionFields_run X E [(ascii "license_key", jsonStr key),
    (ascii "instance_name", jsonStr (instanceName X))] true w
  rw [activate_eq, Prog.run_bind]
  generalize (appendAttributionFields X E _ true).run w = v at hnoted ⊢
  refine ⟨_, asked_post X E (ascii "activate") hnoted (buildJson X v.1 true), ?_⟩
  have hindex : ((jsonHeaders X E).run v.2).2.ticks.request = w.ticks.request := hnoted.request
  simp only [Prog.run_bind, requestWithRetry_reply, hindex]

/-- And one with any reply at all. -/
theorem settleActivate_activated (key : Bytes) (r : Result HttpResponse) (w : World) :
    Activated X E key (activationVerdict r) w.core
      ((settleActivate X E key r).run w).2.core := by
  cases r with
  | error e => exact .refused w.core
  | ok resp =>
    by_cases hstatus : resp.status = 200
    · simp only [settleActivate, hstatus, ne_eq, not_true_eq_false, if_false]
      cases hbody : Json.parse resp.body with
      | error e =>
        simp only [activationVerdict, hstatus, hbody, ne_eq, not_true_eq_false, if_false]
        exact .refused w.core
      | ok j => exact activateReply_activated X E key hstatus hbody w
    · simp only [settleActivate, activationVerdict, ne_eq, hstatus, not_false_eq_true, if_true]
      exact .refused w.core

theorem activate_core (key : Bytes) (w : World) :
    Activated X E key (activationVerdict (E.replyAt w.ticks.request)) (notedCore E w)
      ((activate X E key).run w).2.core := by
  obtain ⟨u, hask, hrun⟩ := activate_run X E key w
  rw [hrun, ← hask.core]
  exact settleActivate_activated X E key _ u

def resetCache (c : Cache) : Cache :=
  { c with
    lease := none
    expiresAt := none
    instanceId := none
    licenseKey := none
    lastValidatedOnline := 0 }

def resetCore (c : Core) : Core := ⟨resetCache c.cache, c.rawState, 0⟩

theorem quiet_requestDeactivate (licenseKey instanceId : Bytes) :
    Quiet (requestDeactivate X E licenseKey instanceId) := by
  refine .ite (.pure _) (.bind (quiet_jsonHeaders X E) fun headers => ?_)
  refine .bind (quiet_requestWithRetry E _ _ _ _) fun hr => ?_
  cases hr with
  | error e => exact .pure _
  | ok resp => exact .ite (.pure _) (.pure _)

theorem updateStore_core (keepTrial : Bool) (w : World) :
    ((updateStore E keepTrial).run w).2.core = w.core := by
  cases keepTrial with
  | true => exact saveCache_core E w
  | false => rfl

/-- The error of a deactivation is one of the store. -/
theorem updateStore_error {keepTrial : Bool} {w : World} {e : Error}
    (h : ((updateStore E keepTrial).run w).1 = .error e) :
    ∃ k, E.save k = some e ∨ E.clear k = some e := by
  have houtcome : ∀ o : Option Error, outcome o = .error e → o = some e := by
    intro o ho
    cases o with
    | none => cases ho
    | some e' => rw [Except.error.inj ho]
  cases keepTrial with
  | true =>
    have hsave : outcome (E.save w.ticks.save) = .error e := by
      rw [← h, updateStore, if_pos rfl, saveCache_run]
    exact ⟨w.ticks.save, .inl (houtcome _ hsave)⟩
  | false => exact ⟨w.ticks.clear, .inr (houtcome _ h)⟩

/-- The reset always happens; the state follows unless the store refuses. -/
theorem deactivate_reset (w : World) :
    (((deactivate X E).run w).2.core = resetCore w.core ∧
      ∃ k e, E.save k = some e ∨ E.clear k = some e) ∨
    ∃ i, ((deactivate X E).run w).2.core = { resetCore w.core with
        rawState := resolvedAt X (resetCache w.core.cache) .invalid (E.now i) } := by
  simp only [deactivate, loadInstanceId, loadLicenseKey, readCache, Prog.run_bind, Prog.run_read]
  have hreq := ((quiet_requestDeactivate X E (w.client.cache.licenseKey.getD [])
    (w.client.cache.instanceId.getD [])).run w).core
  generalize (requestDeactivate X E _ _).run w = u at hreq ⊢
  have hreset : ((resetPaid).run u.2).2.core = resetCore w.core := by
    rw [← hreq]
    rfl
  generalize resetPaid.run u.2 = v at hreset ⊢
  have hstore : ((updateStore E v.1).run v.2).2.core = resetCore w.core := by
    rw [updateStore_core, hreset]
  have herror : ∀ e, ((updateStore E v.1).run v.2).1 = .error e →
      ∃ k, E.save k = some e ∨ E.clear k = some e := fun _ => updateStore_error E
  generalize (updateStore E v.1).run v.2 = z at hstore herror ⊢
  obtain ⟨r, z⟩ := z
  cases r with
  | error e =>
    left
    obtain ⟨k, hk⟩ := herror e rfl
    exact ⟨hstore, k, e, hk⟩
  | ok _ =>
    right
    have hidle := ((quiet_resolveWithTrial X E .invalid).run z).core
    rw [show z.core = resetCore w.core from hstore] at hidle
    refine ⟨z.ticks.now, ?_⟩
    have hs : ((resolveWithTrial X E .invalid).run z).1 =
        resolvedAt X (resetCache w.core.cache) .invalid (E.now z.ticks.now) := by
      rw [resolveWithTrial_value, show z.core = resetCore w.core from hstore]
      rfl
    cases u.1 <;> simp only [Prog.run_bind, Prog.run_pure, setState_core, hidle, hs]

theorem deactivate_core (w : World) :
    ((deactivate X E).run w).2.core = resetCore w.core ∨ ∃ i,
      ((deactivate X E).run w).2.core = { resetCore w.core with
        rawState := resolvedAt X (resetCache w.core.cache) .invalid (E.now i) } :=
  (deactivate_reset X E w).imp And.left id

/-- Caches that differ at most in the device ids and the beacon's debounce. -/
structure Near (c c' : Cache) : Prop where
  lease : c'.lease = c.lease
  licenseKey : c'.licenseKey = c.licenseKey
  lastValidatedOnline : c'.lastValidatedOnline = c.lastValidatedOnline
  trialStart : c'.trialStart = c.trialStart
  serverTrialDays : c'.serverTrialDays = c.serverTrialDays
  serverFreeTier : c'.serverFreeTier = c.serverFreeTier

theorem Near.refl (c : Cache) : Near c c := ⟨rfl, rfl, rfl, rfl, rfl, rfl⟩

theorem Near.trans {a b c : Cache} (h₁ : Near a b) (h₂ : Near b c) : Near a c :=
  ⟨h₂.lease.trans h₁.lease, h₂.licenseKey.trans h₁.licenseKey,
    h₂.lastValidatedOnline.trans h₁.lastValidatedOnline, h₂.trialStart.trans h₁.trialStart,
    h₂.serverTrialDays.trans h₁.serverTrialDays, h₂.serverFreeTier.trans h₁.serverFreeTier⟩

theorem near_withHardwareId (live : Option Bytes) (c : Cache) : Near c (withHardwareId live c) := by
  rw [withHardwareId_eq]
  exact ⟨rfl, rfl, rfl, rfl, rfl, rfl⟩

/-- The raw state and the anchor stay, and the cache stays near. -/
structure Drift (w v : World) : Prop where
  cache : Near w.core.cache v.core.cache
  rawState : v.core.rawState = w.core.rawState
  anchor : v.core.anchor = w.core.anchor

theorem Drift.refl (w : World) : Drift w w := ⟨.refl _, rfl, rfl⟩

theorem Drift.trans {u v w : World} (h₁ : Drift u v) (h₂ : Drift v w) : Drift u w :=
  ⟨h₁.cache.trans h₂.cache, h₂.rawState.trans h₁.rawState, h₂.anchor.trans h₁.anchor⟩

theorem Drift.ofCore {w v : World} (h : v.core = w.core) : Drift w v := by
  refine ⟨?_, ?_, ?_⟩
  · rw [h]
    exact .refl _
  · rw [h]
  · rw [h]

theorem drift_quiet {p : Code α} (h : Quiet p) (w : World) : Drift w (p.run w).2 :=
  .ofCore (h.run w).core

theorem drift_saveCache (w : World) : Drift w ((saveCache E).run w).2 :=
  .ofCore (saveCache_core E w)

theorem drift_mint (w : World) : Drift w ((mintFreeTierInstanceId E).run w).2 := by
  simp only [mintFreeTierInstanceId, Prog.run_atom]
  cases w.client.cache.freeTierInstanceId with
  | some id => exact .refl w
  | none => exact ⟨⟨rfl, rfl, rfl, rfl, rfl, rfl⟩, rfl, rfl⟩

/-- Minting an instance id drifts in that field only. -/
theorem drift_freeTierInstanceId (w : World) : Drift w ((freeTierInstanceId E).run w).2 := by
  have hmint := drift_mint E w
  simp only [freeTierInstanceId, Prog.run_bind]
  generalize (mintFreeTierInstanceId E).run w = u at hmint ⊢
  obtain ⟨known, u⟩ := u
  cases known with
  | some id => exact hmint
  | none =>
    refine hmint.trans ?_
    simp only [Prog.run_bind, Prog.run_ite, Prog.run_pure]
    have hsave := drift_saveCache E u
    split
    · exact hsave.trans ⟨⟨rfl, rfl, rfl, rfl, rfl, rfl⟩, rfl, rfl⟩
    · exact hsave

theorem drift_machineHash (w : World) : Drift w ((machineHash X E).run w).2 := by
  have h := (machineHash_run X E w).core
  refine ⟨?_, ?_, ?_⟩
  · rw [h]
    exact near_withHardwareId _ _
  · rw [h]
  · rw [h]

/-- The state `resolve_current_state_` answers: the raw one while there is paid material. -/
def resolvedCurrent (c : Cache) (rawState : State) (t : Int64) : State :=
  if hasPaidMaterial c then rawState else resolvedAt X c .invalid t

/-- What an operation of the keyless side does to the core, given the reply it saw. -/
inductive Local (reply : Result HttpResponse) : Core → Core → Prop where
  | kept {c : Core} {cache : Cache} (h : Near c.cache cache) :
    Local reply c ⟨cache, c.rawState, c.anchor⟩
  | resolved {c : Core} {cache : Cache} (h : Near c.cache cache) (i : Nat) :
    Local reply c ⟨cache, resolvedCurrent X cache c.rawState (E.now i), c.anchor⟩
  | configured {c : Core} {cache : Cache} {resp : HttpResponse} {j : Json}
    (hreply : reply = .ok resp) (hbody : Json.parse resp.body = .ok j) (n i : Nat)
    (h : Near (configured X j (E.now n) c.cache) cache) :
    Local reply c ⟨cache, resolvedCurrent X cache c.rawState (E.now i), c.anchor⟩
  | stamped {c : Core} {cache : Cache} (hnew : c.cache.trialStart = none) (n i : Nat)
    (h : Near { c.cache with trialStart := some (E.now n) } cache) :
    Local reply c ⟨cache, resolvedCurrent X cache c.rawState (E.now i), c.anchor⟩

theorem resolveAndStore_core (w : World) : ∃ i,
    ((resolveCurrentState X E >>= setState E).run w).2.core =
      { w.core with rawState := resolvedCurrent X w.core.cache w.core.rawState (E.now i) } := by
  refine ⟨w.ticks.now, ?_⟩
  rw [Prog.run_bind, setState_core, resolveCurrentState_value,
    ((quiet_resolveCurrentState X E).run w).core]
  rfl

theorem resolveLocally_core (w : World) : ∃ i, ((resolveLocally X E).run w).2.core =
    { w.core with rawState := resolvedCurrent X w.core.cache w.core.rawState (E.now i) } := by
  obtain ⟨i, h⟩ := resolveAndStore_core X E w
  refine ⟨i, ?_⟩
  rw [← h, resolveLocally, Prog.run_bind, Prog.run_bind, Prog.run_bind,
    ((quiet_report E _).run _).core]

theorem Drift.core_eq {w u : World} (h : Drift w u) :
    u.core = ⟨u.core.cache, w.core.rawState, w.core.anchor⟩ := by
  rw [← h.rawState, ← h.anchor]

/-- The stamp, if it is new, and the id come first; the state is resolved last. -/
theorem startTrial_run (w : World) : ∃ u,
    ((startTrial X E).run w).2.core = ((resolveLocally X E).run u).2.core ∧
      (Drift w u ∨ w.core.cache.trialStart = none ∧ ∃ n, Drift
        { w with client.cache.trialStart := some (E.now n) } u) := by
  simp only [startTrial, stampTrial, resolveLocally, Prog.run_bind, Prog.run_atom]
  cases hs : w.client.cache.trialStart with
  | some t =>
    simp only [Bool.false_eq_true, if_false, Prog.run_bind]
    exact ⟨_, rfl, .inl (drift_freeTierInstanceId E w)⟩
  | none =>
    simp only [if_true, Prog.run_bind]
    refine ⟨_, rfl, .inr ⟨hs, w.ticks.now, ?_⟩⟩
    refine ((Drift.ofCore ?_).trans (drift_saveCache E _)).trans (drift_freeTierInstanceId E _)
    rfl

theorem startTrial_local (reply : Result HttpResponse) (w : World) :
    Local X E reply w.core ((startTrial X E).run w).2.core := by
  obtain ⟨u, hrun, hu⟩ := startTrial_run X E w
  obtain ⟨i, hcore⟩ := resolveLocally_core X E u
  rw [hrun, hcore]
  obtain hd | ⟨hs, n, hd⟩ := hu
  · rw [hd.core_eq]
    exact .resolved hd.cache i
  · rw [hd.core_eq]
    exact .stamped hs n i hd.cache

/-- A fetch fails and changes nothing, or takes the body's settings and resolves. -/
theorem fetchConfig_core (w : World) :
    ((∃ e, ((fetchConfig X E).run w).1 = .error e) ∧
      ((fetchConfig X E).run w).2.core = w.core) ∨
    (((fetchConfig X E).run w).1 = .ok () ∧ ∃ resp j n i,
      E.replyAt w.ticks.request = .ok resp ∧ Json.parse resp.body = .ok j ∧
      ((fetchConfig X E).run w).2.core =
        ⟨configured X j (E.now n) w.core.cache, resolvedCurrent X
          (configured X j (E.now n) w.core.cache) w.core.rawState (E.now i), w.core.anchor⟩) := by
  simp only [fetchConfig, Prog.run_bind]
  have hheaders := ((quiet_jsonHeaders X E).run w).core
  have hindex : ((jsonHeaders X E).run w).2.ticks.request = w.ticks.request := rfl
  generalize (jsonHeaders X E).run w = v at hheaders hindex ⊢
  rw [requestWithRetry_reply, hindex]
  have hreq := ((quiet_requestWithRetry E (ascii "GET") (apiUrl X (ascii "config")) v.1 []).run
    v.2).core
  generalize ((requestWithRetry E _ _ _ _).run v.2).2 = z at hreq ⊢
  have hz : z.core = w.core := hreq.trans hheaders
  cases hr : E.replyAt w.ticks.request with
  | error e => exact .inl ⟨⟨e, rfl⟩, hz⟩
  | ok resp =>
    by_cases hstatus : resp.status = 200
    · simp only [hstatus, ne_eq, not_true_eq_false, if_false]
      cases hbody : Json.parse resp.body with
      | error e => exact .inl ⟨⟨_, rfl⟩, hz⟩
      | ok j =>
        simp only [Prog.run_bind]
        have hv := ((quiet_verifyConfig X E j).run z).core
        generalize (verifyConfig X E j).run z = y at hv ⊢
        obtain ⟨r, y⟩ := y
        cases r with
        | error e => exact .inl ⟨⟨e, rfl⟩, hv.trans hz⟩
        | ok _ =>
          right
          have hconf := applyConfigFields_core X E j y
          simp only [Prog.run_bind, Prog.run_pure]
          generalize ((applyConfigFields X E j).run y).2 = x at hconf ⊢
          obtain ⟨i, hcore⟩ := resolveAndStore_core X E x
          rw [Prog.run_bind] at hcore
          rw [hcore, hconf, show y.core = w.core from hv.trans hz]
          exact ⟨trivial, resp, j, _, i, rfl, hbody, rfl⟩
    · simp only [hstatus, ne_eq, not_false_eq_true, if_true]
      exact .inl ⟨⟨_, rfl⟩, hz⟩

theorem fetchConfig_local (w : World) :
    Local X E (E.replyAt w.ticks.request) w.core ((fetchConfig X E).run w).2.core := by
  obtain ⟨_, h⟩ | ⟨_, resp, j, n, i, hreply, hbody, h⟩ := fetchConfig_core X E w
  · rw [h]
    exact .kept (.refl _)
  · rw [h]
    exact .configured hreply hbody n i (.refl _)

/-- Nothing absorbed, nothing changed. -/
theorem applyConfigFields_false (j : Json) (w : World)
    (h : ((applyConfigFields X E j).run w).1 = false) :
    ((applyConfigFields X E j).run w).2.core = w.core := by
  have hidle := ((quiet_verifyConfig X E j).run w).core
  revert h
  simp only [applyConfigFields, Prog.run_ite, Prog.run_bind]
  split
  · intro _
    rfl
  · split
    · intro _
      exact hidle
    · intro h
      simp at h

theorem quiet_keylessDebounced (wire : Bytes) : Quiet (keylessDebounced E wire) :=
  .bind (quiet_readCache _) fun _ => .ite (.bind (quiet_nowFn E) fun _ => .pure _) (.pure _)

theorem keylessDebounced_request (wire : Bytes) (w : World) :
    ((keylessDebounced E wire).run w).2.ticks.request = w.ticks.request := by
  simp only [keylessDebounced, readCache, nowFn, Prog.run_bind, Prog.run_read, Prog.run_ite]
  split <;> rfl

theorem freeTierInstanceId_request (w : World) :
    ((freeTierInstanceId E).run w).2.ticks.request = w.ticks.request := by
  simp only [freeTierInstanceId, mintFreeTierInstanceId, Prog.run_bind, Prog.run_atom]
  cases w.client.cache.freeTierInstanceId with
  | some id => rfl
  | none =>
    simp only [Prog.run_bind, Prog.run_ite, saveCache_run]
    split <;> rfl

/-- Settings are absorbed as a whole or not at all. -/
theorem absorbSettings_core (body : Bytes) (w : World) :
    (((absorbSettings X E body).run w).1 = false ∧
      ((absorbSettings X E body).run w).2.core = w.core) ∨
    ((absorbSettings X E body).run w).1 = true ∧ ∃ j n, Json.parse body = .ok j ∧
      ((absorbSettings X E body).run w).2.core =
        { w.core with cache := configured X j (E.now n) w.core.cache } := by
  unfold absorbSettings
  cases hj : Json.parse body with
  | error e =>
    left
    exact ⟨rfl, rfl⟩
  | ok j =>
    cases ha : ((applyConfigFields X E j).run w).1 with
    | false =>
      left
      exact ⟨rfl, applyConfigFields_false X E j w ha⟩
    | true =>
      right
      exact ⟨rfl, j, _, rfl, applyConfigFields_core X E j w⟩

/-- A confirmed report acts locally. -/
theorem keylessReply_local {reply : Result HttpResponse} {resp : HttpResponse}
    (hreply : reply = .ok resp) (wire : Bytes) (w : World) :
    Local X E reply w.core ((keylessReply X E wire resp.body).run w).2.core := by
  have habsorb := absorbSettings_core X E resp.body w
  simp only [keylessReply, Prog.run_bind]
  generalize (absorbSettings X E resp.body).run w = u at habsorb ⊢
  obtain ⟨a, u⟩ := u
  have hnow := ((quiet_nowFn E).run u).core
  generalize (nowFn E).run u = v at hnow ⊢
  obtain ⟨now, v⟩ := v
  have hsave := saveCache_core E ((writeCache (fun c : Cache =>
    { c with keylessLastState := some wire, lastKeylessPingAt := now }) []).run v).2
  generalize ((saveCache E).run _).2 = z at hsave ⊢
  obtain ⟨i, hset⟩ := resolveAndStore_core X E z
  rw [Prog.run_bind] at hset
  obtain ⟨hcache, hraw, hanchor⟩ : Near u.core.cache z.core.cache ∧
      z.core.rawState = u.core.rawState ∧ z.core.anchor = u.core.anchor := by
    rw [hsave, ← hnow]
    exact ⟨⟨rfl, rfl, rfl, rfl, rfl, rfl⟩, rfl, rfl⟩
  have hz : z.core = ⟨z.core.cache, u.core.rawState, u.core.anchor⟩ := by
    rw [← hraw, ← hanchor]
  obtain ⟨ha, hu⟩ | ⟨ha, j, n, hbody, hu⟩ := habsorb
  · simp only at ha hu
    simp only [ha, Bool.false_eq_true, if_false, Prog.run_pure]
    rw [hz, hu]
    rw [hu] at hcache
    exact .kept hcache
  · simp only at ha hu
    simp only [ha, if_true, Prog.run_bind]
    rw [hset, hz, hu]
    rw [hu] at hcache
    exact .configured hreply hbody n i hcache

theorem near_configured {c c' : Cache} (h : Near c c') (j : Json) (t : Int64) :
    Near (configured X j t c) (configured X j t c') := by
  unfold configured
  split
  · exact ⟨h.lease, h.licenseKey, h.lastValidatedOnline, h.trialStart,
      by simp [mergeConfig, h.serverTrialDays], by simp [mergeConfig, h.serverFreeTier]⟩
  · exact h

/-- Ids that drift before the operation do not matter to it. -/
theorem Local.drift {reply : Result HttpResponse} {w v : World} {c : Core}
    (h : Local X E reply v.core c) (hd : Drift w v) : Local X E reply w.core c := by
  cases h with
  | kept h =>
    rw [hd.rawState, hd.anchor]
    exact .kept (hd.cache.trans h)
  | resolved h i =>
    rw [hd.rawState, hd.anchor]
    exact .resolved (hd.cache.trans h) i
  | configured hreply hbody n i h =>
    rw [hd.rawState, hd.anchor]
    exact .configured hreply hbody n i ((near_configured X hd.cache _ _).trans h)
  | stamped hnew n i h =>
    rw [hd.rawState, hd.anchor]
    refine .stamped (hd.cache.trialStart ▸ hnew) n i (Near.trans ?_ h)
    exact ⟨hd.cache.lease, hd.cache.licenseKey, hd.cache.lastValidatedOnline, rfl,
      hd.cache.serverTrialDays, hd.cache.serverFreeTier⟩

/-- So does the whole report. -/
theorem reportKeylessState_local (s : KeylessState) (w : World) :
    Local X E (E.replyAt w.ticks.request) w.core ((reportKeylessState X E s).run w).2.core := by
  have hkept : ∀ reply, ∀ v : World, Drift w v → Local X E reply w.core v.core := by
    intro reply v hv
    rw [hv.core_eq]
    exact .kept hv.cache
  have hdebounce := drift_quiet (quiet_keylessDebounced E (keylessStateWire s)) w
  have hindex := keylessDebounced_request E (keylessStateWire s) w
  simp only [reportKeylessState, Prog.run_bind]
  generalize (keylessDebounced E (keylessStateWire s)).run w = u at hdebounce hindex ⊢
  obtain ⟨debounced, u⟩ := u
  cases debounced with
  | true => exact hkept _ u hdebounce
  | false =>
    have hid := hdebounce.trans (drift_freeTierInstanceId E u)
    have hindex' := (freeTierInstanceId_request E u).trans hindex
    simp only [Bool.false_eq_true, if_false, Prog.run_bind]
    generalize (freeTierInstanceId E).run u = v at hid hindex' ⊢
    obtain ⟨instanceId, v⟩ := v
    by_cases hempty : instanceId = []
    · simp only [hempty, if_true]
      exact hkept _ v hid
    · simp only [hempty, if_false, Prog.run_bind]
      have hhash := hid.trans (drift_machineHash X E v)
      have hindex'' := (machineHash_run X E v).request.trans hindex'
      generalize (machineHash X E).run v = x at hhash hindex'' ⊢
      obtain ⟨hash, x⟩ := x
      have hheaders := hhash.trans (drift_quiet (quiet_jsonHeaders X E) x)
      have hnext : ((jsonHeaders X E).run x).2.ticks.request = w.ticks.request := hindex''
      generalize (jsonHeaders X E).run x = y at hheaders hnext ⊢
      obtain ⟨headers, y⟩ := y
      simp only at hnext hheaders
      rw [requestWithRetry_reply, hnext]
      have hreq := hheaders.trans (drift_quiet (quiet_requestWithRetry E (ascii "POST")
        (apiUrl X (ascii "keyless")) headers (buildJson X ([(ascii "instance_id",
          jsonStr instanceId), (ascii "state", jsonStr (keylessStateWire s))] ++
            optionField (ascii "machine_hash") hash) true)) y)
      generalize ((requestWithRetry E _ _ headers _).run y).2 = z at hreq ⊢
      cases hr : E.replyAt w.ticks.request with
      | error e => exact hkept _ z hreq
      | ok resp =>
        by_cases hstatus : resp.status = 200
        · simp only [hstatus, ne_eq, not_true_eq_false, if_false]
          exact Local.drift X E (keylessReply_local X E rfl _ z) hreq
        · simp only [hstatus, ne_eq, not_false_eq_true, if_true]
          exact hkept _ z hreq

theorem checkOnLaunch_core (w : World) :
    ((checkOnLaunch X E).run w).2.core =
      if hasKey w.core.cache then ((validateAndReconcile X E).run w).2.core
      else ((resolveLocally X E).run w).2.core := by
  change _ = if hasKey w.client.cache then _ else _
  simp only [checkOnLaunch, hasStoredLicense, readCache, Prog.run_bind, Prog.run_read,
    Prog.run_ite]
  split
  · rw [((quiet_reportResult E _).run _).core]
  · rfl

theorem keepState_request (w : World) :
    ((keepState E).run w).2.ticks.request = w.ticks.request := by
  simp only [keepState, loadState, report, clockUntrusted, nowFn, Prog.run_bind, Prog.run_read,
    Prog.run_ite]
  split <;> split <;> rfl

/-- Whether a refresh at reading `now` gets past its timers. -/
def refreshDue (c : Cache) (now : Int64) : Prop :=
  ¬(c.lastValidatedOnline > 0 ∧ now - c.lastValidatedOnline < refreshDebounce) ∧
    (¬c.lastValidatedOnline > 0 ∨ now - c.lastValidatedOnline ≥ refreshStale ∨
      nearExpiry now c = true)

/-- A due refresh is a reconciliation after the notice and a clock reading. -/
theorem refreshIfNeeded_due {w v z : World} (hkey : hasKey w.core.cache = true)
    (hv : ((notify E).run w).2 = v) (hz : ((nowFn E).run v).2 = z) :
    (refreshDue w.core.cache (E.now v.ticks.now) → ((refreshIfNeeded X E).run w).2 =
      ((reportResult E ((validateAndReconcile X E).run z).1).run
        ((validateAndReconcile X E).run z).2).2) ∧
    (¬refreshDue w.core.cache (E.now v.ticks.now) →
      ((refreshIfNeeded X E).run w).2 = ((keepState E).run z).2) := by
  have hidle := (quiet_notify E).run w
  rw [hv] at hidle
  have hcache : v.client.cache = w.core.cache := congrArg Core.cache hidle.core
  have hvalue : ((nowFn E).run v).1 = E.now v.ticks.now := rfl
  have hcache' : z.client.cache = w.core.cache := by
    rw [← hz]
    exact hcache
  simp only [refreshIfNeeded, hasStoredLicense, loadLastValidatedOnline, readCache,
    Prog.run_bind, Prog.run_read, hv, hcache, hkey, if_true, Prog.run_ite, hvalue, hz, hcache']
  by_cases hrecent : w.core.cache.lastValidatedOnline > 0 ∧
      E.now v.ticks.now - w.core.cache.lastValidatedOnline < refreshDebounce
  · rw [if_pos hrecent]
    exact ⟨fun hdue => absurd hrecent hdue.1, fun _ => rfl⟩
  · rw [if_neg hrecent]
    by_cases hstale : ¬w.core.cache.lastValidatedOnline > 0 ∨
        E.now v.ticks.now - w.core.cache.lastValidatedOnline ≥ refreshStale ∨
        nearExpiry (E.now v.ticks.now) w.core.cache = true
    · rw [if_pos hstale]
      exact ⟨fun _ => rfl, fun hnot => absurd ⟨hrecent, hstale⟩ hnot⟩
    · rw [if_neg hstale]
      exact ⟨fun hdue => absurd hdue.2 hstale, fun _ => rfl⟩

/-- A refresh that is not due sends nothing and keeps the core; a due one is a reconciliation
from a world that differs in the clock readings taken. -/
theorem refreshIfNeeded_run (w : World) (hkey : hasKey w.core.cache = true) : ∃ k,
    (¬refreshDue w.core.cache (E.now k) ∧ Idle w ((refreshIfNeeded X E).run w).2 ∧
      ((refreshIfNeeded X E).run w).2.ticks.request = w.ticks.request) ∨
    (refreshDue w.core.cache (E.now k) ∧ ∃ u n, Idle w u ∧ u.ticks = { w.ticks with now := n } ∧
      Idle ((validateAndReconcile X E).run u).2 ((refreshIfNeeded X E).run w).2) := by
  obtain ⟨hdue, hkept⟩ := refreshIfNeeded_due X E hkey rfl rfl
  have hidle := (quiet_notify E).run w
  have hticks := notify_ticks E w
  generalize ((notify E).run w).2 = v at hidle hticks hdue hkept
  have hnow := (quiet_nowFn E).run v
  have hticks' : ((nowFn E).run v).2.ticks = { w.ticks with now := v.ticks.now + 1 } := by
    change { v.ticks with now := v.ticks.now + 1 } = _
    generalize v.ticks.now = n at hticks
    rw [hticks]
  generalize ((nowFn E).run v).2 = z at hnow hticks' hdue hkept
  refine ⟨v.ticks.now, ?_⟩
  by_cases h : refreshDue w.core.cache (E.now v.ticks.now)
  · right
    rw [hdue h]
    exact ⟨h, z, v.ticks.now + 1, hidle.trans hnow, hticks', (quiet_reportResult E _).run _⟩
  · left
    rw [hkept h, keepState_request, hticks']
    exact ⟨h, (hidle.trans hnow).trans ((quiet_keepState E).run _), rfl⟩

/-- Without a key a refresh only resolves. -/
theorem refreshIfNeeded_local (w : World) (hkey : hasKey w.core.cache = false) : ∃ i,
    ((refreshIfNeeded X E).run w).2.core =
      { w.core with rawState := resolvedCurrent X w.core.cache w.core.rawState (E.now i) } := by
  have hidle := ((quiet_notify E).run w).core
  simp only [refreshIfNeeded, hasStoredLicense, readCache, Prog.run_bind, Prog.run_read]
  generalize ((notify E).run w).2 = v at hidle ⊢
  have hv : hasKey v.client.cache = false := by
    rw [show v.client.cache = w.core.cache from congrArg Core.cache hidle]
    exact hkey
  obtain ⟨i, hcore⟩ := resolveLocally_core X E v
  refine ⟨i, ?_⟩
  rw [hv]
  simp only [Bool.false_eq_true, if_false]
  rw [hcore, hidle]

theorem activeRevalidate_run (w : World) :
    (Idle w ((activeRevalidate X E).run w).2 ∧
      ((activeRevalidate X E).run w).2.ticks.request = w.ticks.request) ∨
    ∃ u n, Idle w u ∧ u.ticks = { w.ticks with now := n } ∧
      ((activeRevalidate X E).run w).2 = ((validate X E).run u).2 := by
  simp only [activeRevalidate, hasStoredLicense, readCache, nowFn, Prog.run_bind, Prog.run_read,
    Prog.run_ite]
  split
  · simp only [Prog.run_atom]
    split
    · left
      exact ⟨.silent rfl rfl rfl rfl rfl (Nat.le_succ _), rfl⟩
    · right
      simp only [Bool.false_eq_true, if_false, Prog.run_pure]
      refine ⟨_, w.ticks.now + 1, ?_, ?_, rfl⟩
      · exact .silent rfl rfl rfl rfl rfl (Nat.le_succ _)
      · rfl
  · left
    exact ⟨.refl w, rfl⟩

end Client

open Client in
/-- Everything one call can do to the core, whatever its environment answers. -/
inductive Outcome (X : Site) (E : Env) (w : World) : Op → Core → Prop where
  | blank (h : loadedJson E w = none) : Outcome X E w .relaunch blankCore
  | launched {j : Json} (h : loadedJson E w = some j) (i k n : Nat) :
    Outcome X E w .relaunch (launchedCore X j (E.now i) (E.now k) (E.now n))
  | activated {key : Bytes} {c : Core}
    (h : Activated X E key (activationVerdict E.reply) (notedCore E w) c) :
    Outcome X E w (.activate key) c
  | settled {op : Op} {c : Core} (hop : op.validates)
    (h : Settled X E (validationVerdict E.reply) (notedCore E w) c) : Outcome X E w op c
  | graced {op : Op} (hop : op.graces) (hkey : hasKey w.core.cache)
    (h : ¬Decodable (validationVerdict E.reply)) (i : Nat) :
    Outcome X E w op { notedCore E w with
      rawState := gracedState X (notedCore E w) (E.now i) w.core.cache.lastValidatedOnline }
  | kept {op : Op} {cache : Cache} (h : Near w.core.cache cache) :
    Outcome X E w op ⟨cache, w.core.rawState, w.core.anchor⟩
  | reset (h : c = resetCore w.core ∨ ∃ i, c = { resetCore w.core with
      rawState := resolvedAt X (resetCache w.core.cache) .invalid (E.now i) }) :
    Outcome X E w .deactivate c
  | resolved {op : Op} (hop : op.graces) (hkey : hasKey w.core.cache = false) (i : Nat) :
    Outcome X E w op { w.core with
      rawState := resolvedCurrent X w.core.cache w.core.rawState (E.now i) }
  | keyless {op : Op} {c : Core} (hop : op.keyless) (h : Local X E E.reply w.core c) :
    Outcome X E w op c

namespace Client
variable (X : Site) (E : Env)

/-- Two starts of a call: the same core, and no input but the clock read in between. -/
structure SameStart (w u : World) : Prop where
  core : u.core = w.core
  request : u.ticks.request = 0
  hardwareId : u.ticks.hardwareId = w.ticks.hardwareId

theorem SameStart.noted {w u : World} (h : SameStart w u) : notedCore E u = notedCore E w := by
  rw [notedCore, h.core, h.hardwareId]
  rfl

theorem validate_outcome {op : Op} (hop : op.validates) {w u : World} (hu : SameStart w u) :
    Outcome X E w op ((validate X E).run u).2.core := by
  have h := validate_core X E u
  rw [hu.request, hu.noted] at h
  by_cases hv : Decodable (validationVerdict E.reply)
  · exact .settled hop (h.1 hv)
  · rw [h.2 hv]
    exact .kept (near_withHardwareId _ _)

theorem reconcile_outcome {op : Op} (hop : op.validates) (hg : op.graces) {w u : World}
    (hkey : hasKey w.core.cache) (hu : SameStart w u) :
    Outcome X E w op ((validateAndReconcile X E).run u).2.core := by
  have h := validateAndReconcile_core X E u
  rw [hu.request, hu.noted, hu.core] at h
  by_cases hv : Decodable (validationVerdict E.reply)
  · exact .settled hop (h.1 hv)
  · rw [h.2 hv]
    exact .graced hg hkey hv _

end Client

open Client in
/-- Every call has one of the listed outcomes. -/
theorem Op.exec_outcome (X : Site) (E : Env) (op : Op) (w : World) :
    Outcome X E { w with ticks := {} } op (op.exec X E w).core := by
  have hstart : SameStart { w with ticks := {} } { w with ticks := {} } := ⟨rfl, rfl, rfl⟩
  have hnext : ∀ u : World, ∀ n, u.core = w.core → u.ticks = { ({} : Ticks) with now := n } →
      SameStart { w with ticks := {} } u := by
    intro u n hcore hticks
    exact ⟨hcore, by rw [hticks], by rw [hticks]⟩
  simp only [Op.exec]
  generalize hw : ({ w with ticks := {} } : World) = w₀ at hstart hnext ⊢
  have hcore : w.core = w₀.core := by
    rw [← hw]
    rfl
  have hreply : E.replyAt w₀.ticks.request = E.reply := by
    rw [← hw]
    rfl
  cases op with
  | relaunch =>
    obtain ⟨i, k, n, h⟩ := construct_core X E w₀
    simp only [Op.code]
    rw [h]
    cases hj : loadedJson E w₀ with
    | none => exact .blank hj
    | some j => exact .launched hj i k n
  | activate key =>
    have h := activate_core X E key w₀
    rw [hreply] at h
    simp only [Op.code, Prog.run_bind, Prog.run_pure]
    exact .activated h
  | validate =>
    simp only [Op.code, Prog.run_bind, Prog.run_pure]
    exact validate_outcome X E rfl hstart
  | deactivate =>
    simp only [Op.code, Prog.run_bind, Prog.run_pure]
    exact .reset (deactivate_core X E w₀)
  | checkOnLaunch =>
    simp only [Op.code, Prog.run_bind, Prog.run_pure, checkOnLaunch_core]
    cases hkey : hasKey w₀.core.cache with
    | true => exact reconcile_outcome X E rfl rfl hkey hstart
    | false =>
      obtain ⟨i, h⟩ := resolveLocally_core X E w₀
      simp only [Bool.false_eq_true, if_false, h]
      exact .resolved rfl hkey i
  | refreshIfNeeded =>
    simp only [Op.code, Prog.run_bind, Prog.run_pure]
    cases hkey : hasKey w₀.core.cache with
    | true =>
      obtain ⟨-, ⟨-, h, -⟩ | ⟨-, u, n, hu, hticks, h⟩⟩ := refreshIfNeeded_run X E w₀ hkey
      · rw [h.core]
        exact .kept (.refl _)
      · rw [h.core]
        rw [← hw] at hticks
        exact reconcile_outcome X E rfl rfl hkey (hnext u n (hu.core.trans hcore.symm) hticks)
    | false =>
      obtain ⟨i, h⟩ := refreshIfNeeded_local X E w₀ hkey
      rw [h]
      exact .resolved rfl hkey i
  | activeRevalidate =>
    simp only [Op.code, Prog.run_bind, Prog.run_pure]
    obtain ⟨h, -⟩ | ⟨u, n, hu, hticks, h⟩ := activeRevalidate_run X E w₀
    · rw [h.core]
      exact .kept (.refl _)
    · rw [h]
      rw [← hw] at hticks
      exact validate_outcome X E rfl (hnext u n (hu.core.trans hcore.symm) hticks)
  | startTrial =>
    simp only [Op.code, Prog.run_bind, Prog.run_pure]
    exact .keyless rfl (startTrial_local X E _ w₀)
  | fetchConfig =>
    have h := fetchConfig_local X E w₀
    rw [hreply] at h
    simp only [Op.code, Prog.run_bind, Prog.run_pure]
    exact .keyless rfl h
  | freeTierInstanceId =>
    simp only [Op.code, Prog.run_bind, Prog.run_pure]
    rw [(drift_freeTierInstanceId E w₀).core_eq]
    exact .kept (drift_freeTierInstanceId E w₀).cache
  | reportKeylessState s =>
    have h := reportKeylessState_local X E s w₀
    rw [hreply] at h
    simp only [Op.code]
    exact .keyless rfl h

namespace Client
variable (X : Site) (E : Env)

/-- Where acting on a verdict can lead. -/
inductive Acted (v : Verdict) (u : World) : World → Prop where
  | validate : Acted v u ((settleValidate X E v).run u).2
  | reconcile (k : Nat) (lastLvo : Int64) :
    Acted v u ((settleReconcile X E (E.now k) lastLvo v).run u).2

/-- A validating call that sent nothing: its timers stopped it, or there is no key to validate. -/
inductive Unasked (w : World) : World → Prop where
  | stopped {u : World} (hidle : Idle w u) (hrequest : u.ticks.request = w.ticks.request) :
    Unasked w u
  | keyless {u : World} (hkey : hasKey w.client.cache = false) (hidle : Idle w u) :
    Unasked w ((resolveLocally X E).run u).2

/-- The world of a call that acted on the verdict of its reply and then only reported. -/
def Answered (w w' : World) : Prop := ∃ u z, Asked X E (ascii "validate") w u ∧
  Acted X E (validationVerdict (E.replyAt w.ticks.request)) u z ∧ Idle z w'

theorem validate_answered (w : World) : Answered X E w ((validate X E).run w).2 := by
  obtain ⟨u, hask, hrun⟩ := validate_run X E w
  rw [hrun]
  exact ⟨u, _, hask, .validate, .refl _⟩

theorem validateAndReconcile_answered (w : World) :
    Answered X E w ((validateAndReconcile X E).run w).2 := by
  obtain ⟨u, hask, hrun⟩ := validateAndReconcile_run X E w
  rw [hrun, Prog.run_map]
  exact ⟨u, _, hask, .reconcile _ _, .refl _⟩

theorem Answered.idle {w x y : World} (h : Answered X E w x) (hi : Idle x y) :
    Answered X E w y := by
  obtain ⟨u, z, hask, hact, hz⟩ := h
  exact ⟨u, z, hask, hact, hz.trans hi⟩

theorem Answered.start {w z x : World} {n : Nat} (h : Answered X E z x) (hi : Idle w z)
    (hticks : z.ticks = { w.ticks with now := n }) : Answered X E w x := by
  obtain ⟨u, y, hask, hact, hy⟩ := h
  rw [hticks] at hact
  exact ⟨u, y, hask.start X E hi hticks, hact, hy⟩

end Client

open Client in
theorem Op.code_validated (X : Site) (E : Env) {op : Op} (hop : op.validates) (w : World) :
    Unasked X E w ((op.code X E).run w).2 ∨ Answered X E w ((op.code X E).run w).2 := by
  cases op with
  | validate =>
    simp only [Op.code, Prog.run_bind, Prog.run_pure]
    exact .inr (validate_answered X E w)
  | checkOnLaunch =>
    simp only [Op.code, Client.checkOnLaunch, hasStoredLicense, readCache, Prog.run_bind,
      Prog.run_pure, Prog.run_read]
    cases hkey : hasKey w.client.cache with
    | true =>
      right
      simp only [if_true, Prog.run_bind]
      exact (validateAndReconcile_answered X E w).idle X E ((quiet_reportResult E _).run _)
    | false =>
      left
      simp only [Bool.false_eq_true, if_false]
      exact .keyless hkey (.refl w)
  | refreshIfNeeded =>
    simp only [Op.code, Prog.run_bind, Prog.run_pure]
    cases hkey : hasKey w.client.cache with
    | true =>
      obtain ⟨-, ⟨-, hidle, hrequest⟩ | ⟨-, u, n, hu, hticks, hidle⟩⟩ :=
        refreshIfNeeded_run X E w hkey
      · exact .inl (.stopped hidle hrequest)
      · exact .inr (((validateAndReconcile_answered X E u).idle X E hidle).start X E hu hticks)
    | false =>
      left
      have hidle := (quiet_notify E).run w
      have hcache : ((notify E).run w).2.client.cache = w.client.cache :=
        congrArg Core.cache hidle.core
      simp only [Client.refreshIfNeeded, hasStoredLicense, readCache, Prog.run_bind,
        Prog.run_read, hcache, hkey, Bool.false_eq_true, if_false]
      exact .keyless hkey hidle
  | activeRevalidate =>
    simp only [Op.code, Prog.run_bind, Prog.run_pure]
    obtain ⟨hidle, hrequest⟩ | ⟨u, n, hu, hticks, hrun⟩ := activeRevalidate_run X E w
    · exact .inl (.stopped hidle hrequest)
    · right
      rw [hrun]
      exact (validate_answered X E u).start X E hu hticks
  | _ => cases hop

end Keylight
