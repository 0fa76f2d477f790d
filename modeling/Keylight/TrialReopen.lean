import Keylight.Boundary

/-!
# The trial of a revoked seat

A denied validation stores Invalid and is not meant to reopen an old trial. No
field of the blob records the revocation, so a later call that resolves the
state again may find the trial still running. `TrialOk` is the condition on one
call under which it does not; `revoked_untried` follows it over every run.
-/
namespace Keylight
open Bytes Sections Runs

namespace Client
variable (X : Site) (E : Env)

/-- No clock reading of the call finds the trial of this cache running. -/
def TrialOver (c : Cache) : Prop := ∀ i, trialStatusAt X c (E.now i) ≠ .active

theorem trialOver_near {c c' : Cache} (h : Near c c') : TrialOver X E c' ↔ TrialOver X E c := by
  simp only [TrialOver, trialStatusAt, h.serverTrialDays, h.trialStart]

/-- A stored key or lease keeps the local resolution away from the trial. -/
def LocalOk (c : Cache) : Prop := hasPaidMaterial c = true ∨ TrialOver X E c

/-- The cache after the signed fields of the reply, when it has any. -/
def ConfigOver (c : Cache) : Prop := ∀ resp j n, E.reply = .ok resp →
  Json.parse resp.body = .ok j → TrialOver X E (configured X j (E.now n) c)

/-- The keyless side may also stamp a first trial or merge a configuration. -/
def KeylessOk (c : Cache) : Prop := hasPaidMaterial c = true ∨
  TrialOver X E c ∧ ConfigOver X E c ∧
    (c.trialStart = none → ∀ n, TrialOver X E { c with trialStart := some (E.now n) })

/-- A validation reply with a trusted lease, or none to act on, or one that finds no trial. -/
def RejectOk (c : Core) : Prop :=
  match validationVerdict E.reply with
  | .rejectedLease _ l => X.trusts l = true ∨ TrialOver X E c.cache
  | .renewed j l => X.trusts l = true ∨ ∀ n, TrialOver X E (configured X j (E.now n) c.cache)
  | .leaseless j => c.rawState ≠ .invalid ∨ ∀ n, TrialOver X E (configured X j (E.now n) c.cache)
  | _ => True

/-- A launch finds a trusted lease or no running trial. -/
def RelaunchOk (w : World) : Prop := ∀ j, loadedJson E w = some j →
  (∃ l, leaseOf j = some l ∧ X.trusts l = true) ∨ TrialOver X E (loadCache j {})

def ActivateOk (c : Core) : Prop :=
  match activationVerdict E.reply with
  | .leased _ l => X.trusts l = true ∨ TrialOver X E c.cache
  | _ => True

/-- The condition on one call under which it does not open a trial. -/
def TrialOk (w : World) (call : Call) : Prop :=
  match call.1 with
  | .relaunch => RelaunchOk X call.2 { w with ticks := {} }
  | .activate _ => ActivateOk X call.2 w.core
  | .deactivate => TrialOver X call.2 w.core.cache
  | .validate => RejectOk X call.2 w.core
  | .activeRevalidate => RejectOk X call.2 w.core
  | .checkOnLaunch => RejectOk X call.2 w.core ∧
    (hasKey w.core.cache = false → LocalOk X call.2 w.core.cache)
  | .refreshIfNeeded => RejectOk X call.2 w.core ∧
    (hasKey w.core.cache = false → LocalOk X call.2 w.core.cache)
  | .freeTierInstanceId => True
  | _ => KeylessOk X call.2 w.core.cache

theorem resolvedAt_over {c : Cache} (h : TrialOver X E c) (i : Nat) :
    resolvedAt X c .invalid (E.now i) ≠ .trial :=
  resolvedAt_ne_trial X (by decide) fun _ => h i

theorem resolvedCurrent_ne_trial {c : Cache} (h : LocalOk X E c) {s : State} (hs : s ≠ .trial)
    (i : Nat) : resolvedCurrent X c s (E.now i) ≠ .trial := by
  unfold resolvedCurrent
  obtain hpaid | hover := h
  · rw [if_pos hpaid]
    exact hs
  · split
    · exact hs
    · exact resolvedAt_over X E hover i

theorem localOk_near {c c' : Cache} (h : Near c c') : LocalOk X E c' ↔ LocalOk X E c := by
  simp only [LocalOk, trialOver_near X E h, hasPaidMaterial, hasKey, h.lease, h.licenseKey]

theorem hasPaidMaterial_configured (j : Json) (t : Int64) (c : Cache) :
    hasPaidMaterial (configured X j t c) = hasPaidMaterial c := by
  unfold configured
  split <;> rfl

/-- An activation that meets the condition ends outside the trial. -/
theorem activated_untried {key : Bytes} {c c' : Core} (hok : ActivateOk X E c)
    (hraw : c.rawState ≠ .trial) (h : Activated X E key (activationVerdict E.reply) c c') :
    c'.rawState ≠ .trial := by
  simp only [ActivateOk] at hok
  generalize activationVerdict E.reply = v at hok h
  cases h with
  | refused => exact hraw
  | bare => simp
  | leased _ htrust i k => exact leaseState_ne_trial X _ _
  | untrusted _ htrust i =>
    obtain h | hover := hok
    · rw [htrust] at h
      cases h
    · exact resolvedAt_over X E hover i

/-- So does a settled validation. -/
theorem settled_untried {c c' : Core} (hok : RejectOk X E c) (hraw : c.rawState ≠ .trial)
    (h : Settled X E (validationVerdict E.reply) c c') : c'.rawState ≠ .trial := by
  simp only [RejectOk] at hok
  generalize validationVerdict E.reply = v at hok h
  cases h with
  | denied => simp
  | rejected _ htrust i k => exact leaseState_ne_trial X _ _
  | rejectedUntrusted _ htrust i =>
    obtain h | hover := hok
    · rw [htrust] at h
      cases h
    · exact resolvedAt_over X E hover i
  | renewed _ htrust i k n => exact leaseState_ne_trial X _ _
  | renewedUntrusted _ htrust i n =>
    obtain h | hover := hok
    · rw [htrust] at h
      cases h
    · exact resolvedAt_over X E (hover n) i
  | leaseless _ j i n =>
    apply resolvedAt_ne_trial X hraw
    intro hinv
    obtain h | hover := hok
    · exact absurd hinv h
    · exact hover n i

/-- So does a local step. -/
theorem local_untried {c c' : Core} (hok : KeylessOk X E c.cache) (hraw : c.rawState ≠ .trial)
    (h : Local X E E.reply c c') : c'.rawState ≠ .trial := by
  cases h with
  | kept h => exact hraw
  | resolved h i =>
    apply resolvedCurrent_ne_trial X E _ hraw
    rw [localOk_near X E h]
    exact hok.imp_right And.left
  | configured hreply hbody n i h =>
    apply resolvedCurrent_ne_trial X E _ hraw
    rw [localOk_near X E h, LocalOk, hasPaidMaterial_configured]
    exact hok.imp_right fun h => h.2.1 _ _ n hreply hbody
  | stamped hnew n i h =>
    apply resolvedCurrent_ne_trial X E _ hraw
    rw [localOk_near X E h]
    exact hok.imp_right fun h => h.2.2 hnew n

/-- So does a launch. -/
theorem launched_untried {w : World} (hok : RelaunchOk X E w) {j : Json}
    (hj : loadedJson E w = some j) (i k n : Nat) :
    (launchedCore X j (E.now i) (E.now k) (E.now n)).rawState ≠ .trial := by
  have hpaid : boundedAt X (storedPaid X (leaseOf j) (E.now i))
      (loadCache j {}).lastValidatedOnline (E.now k) ≠ .trial := by
    have hstored : storedPaid X (leaseOf j) (E.now i) ≠ .trial := by
      cases leaseOf j with
      | none => simp [storedPaid]
      | some l => exact leaseState_ne_trial X l _
    unfold boundedAt
    split
    · split
      · simp
      · exact hstored
    · exact hstored
  apply resolvedAt_ne_trial X hpaid
  intro hinv
  obtain ⟨l, hl, htrust⟩ | hover := hok j hj
  · exfalso
    have hne : storedPaid X (leaseOf j) (E.now i) ≠ .invalid := by
      rw [hl]
      obtain h | h | h := leaseState_trusted htrust (E.now i)
      all_goals simp [storedPaid, h]
    unfold boundedAt at hinv
    split at hinv
    · split at hinv
      · cases hinv
      · exact hne hinv
    · exact hne hinv
  · exact hover n

theorem gracedState_ne_trial {c : Core} (h : c.rawState ≠ .trial) (now lastLvo : Int64) :
    gracedState X c now lastLvo ≠ .trial := by
  unfold gracedState
  split
  · simp
  · exact h

/-- Ids noted before a request do not matter to the conditions. -/
theorem rejectOk_noted {w : World} (h : RejectOk X E w.core) : RejectOk X E (notedCore E w) := by
  have hnear := near_withHardwareId (E.hardwareId w.ticks.hardwareId) w.core.cache
  have hconf := fun j t => trialOver_near X E (near_configured X hnear j t)
  simp only [RejectOk, notedCore] at h ⊢
  cases hv : validationVerdict E.reply with
  | rejectedLease j l =>
    simp only [hv] at h
    exact h.imp_right (trialOver_near X E hnear).2
  | renewed j l =>
    simp only [hv] at h
    exact h.imp_right fun hover n => (hconf _ _).2 (hover n)
  | leaseless j =>
    simp only [hv] at h
    exact h.imp_right fun hover n => (hconf _ _).2 (hover n)
  | _ => trivial

theorem activateOk_noted {w : World} (h : ActivateOk X E w.core) :
    ActivateOk X E (notedCore E w) := by
  have hnear := near_withHardwareId (E.hardwareId w.ticks.hardwareId) w.core.cache
  simp only [ActivateOk, notedCore] at h ⊢
  cases hv : activationVerdict E.reply with
  | leased j l =>
    simp only [hv] at h
    exact h.imp_right (trialOver_near X E hnear).2
  | _ => trivial

theorem TrialOk.reject {op : Op} (hop : op.validates) {w : World} (h : TrialOk X w (op, E)) :
    RejectOk X E w.core := by
  cases op with
  | validate => exact h
  | activeRevalidate => exact h
  | checkOnLaunch => exact h.1
  | refreshIfNeeded => exact h.1
  | _ => cases hop

theorem TrialOk.keyless {op : Op} (hop : op.keyless) {w : World} (h : TrialOk X w (op, E)) :
    KeylessOk X E w.core.cache := by
  cases op with
  | startTrial => exact h
  | fetchConfig => exact h
  | reportKeylessState s => exact h
  | _ => cases hop

/-- One call under `TrialOk` does not open a trial. -/
theorem outcome_untried {w : World} {op : Op} {c : Core} (hok : TrialOk X w (op, E))
    (hraw : w.core.rawState ≠ .trial) (h : Outcome X E { w with ticks := {} } op c) :
    c.rawState ≠ .trial := by
  have hover : ∀ {cache}, TrialOver X E cache → TrialOver X E (resetCache cache) := fun h => h
  cases h with
  | blank => simp [blankCore]
  | launched hj i k n => exact launched_untried X E hok hj i k n
  | activated h =>
    exact activated_untried X E (activateOk_noted X E (w := { w with ticks := {} }) hok) hraw h
  | settled hop h =>
    have hreject := rejectOk_noted X E (w := { w with ticks := {} }) (hok.reject X E hop)
    exact settled_untried X E hreject hraw h
  | graced hop hkey hv i =>
    have hnoted : (notedCore E { w with ticks := {} }).rawState ≠ .trial := hraw
    exact gracedState_ne_trial X hnoted _ _
  | kept h => exact hraw
  | reset h =>
    obtain rfl | ⟨i, rfl⟩ := h
    · exact hraw
    · exact resolvedAt_over X E (hover hok) i
  | resolved hop hkey i =>
    have hlocal : LocalOk X E w.core.cache := by
      cases op with
      | checkOnLaunch => exact hok.2 hkey
      | refreshIfNeeded => exact hok.2 hkey
      | _ => cases hop
    exact resolvedCurrent_ne_trial X E hlocal hraw i
  | keyless hop h => exact local_untried X E (hok.keyless X E hop) hraw h

theorem stateAt_ne_trial {c : Client} (h : c.rawState ≠ .trial) (t : Int64) :
    c.stateAt t ≠ .trial := by
  unfold stateAt
  split
  · simp
  · exact h

end Client

open Client in
/-- After a denied validation no run whose calls meet `TrialOk` reaches the trial. -/
theorem revoked_untried (X : Site) (E : Env) (op : Op) (w : World) (resp : HttpResponse) (j : Json)
    (hop : op.validates) (hkey : op = .validate ∨ hasKey w.client.cache = true)
    (hsent : 0 < (op.exec X E w).ticks.request) (hreply : E.reply = .ok resp)
    (hstatus : resp.status = 422) (hbody : Json.parse resp.body = .ok j)
    (hlease : leaseOf j = none) (calls : List Call)
    (hok : Along (perform X) (TrialOk X) calls (op.exec X E w)) (t : Int64) :
    (runAll (perform X) calls (op.exec X E w)).client.stateAt t ≠ .trial := by
  have hverdict : validationVerdict E.reply = .denied := by
    rw [hreply]
    simp only [validationVerdict, hstatus, hbody, hlease]
    rfl
  have hstart : (op.exec X E w).core.rawState ≠ .trial := by
    obtain ⟨u, k, -, hidle⟩ := op.exec_rejection X E hop w hkey hsent (.inl hverdict)
    rw [hidle.core, hverdict]
    simp [settleReconcile, revoke_core]
  let Untried : List Call → World → Prop := fun _ w => w.core.rawState ≠ .trial
  have hstart' : Untried [] (op.exec X E w) := hstart
  have hraw : (runAll (perform X) calls (op.exec X E w)).core.rawState ≠ .trial := by
    apply Along.keeps _ hok hstart'
    intro seen w call h hcall
    exact outcome_untried X call.2 hcall h (call.1.exec_outcome X call.2 w)
  exact stateAt_ne_trial hraw t

/-- A call that neither deactivates nor sees a trusted lease or a successful activation. -/
def Unlicensing (X : Site) (call : Call) : Prop :=
  call.1 ≠ .deactivate ∧ (∀ n resp, call.2.request n = .ok resp → ¬Signed X resp) ∧
    ∀ key j, call.1 = .activate key → activationVerdict call.2.reply ≠ .bare j

/-- The site of the stored lease, with a trial of two weeks. -/
def trialSite : Site := { vectorSite with cfg := { vectorSite.cfg with trialDurationDays := 14 } }

/-- Licensed in the middle of the trial. -/
def trialStore : Bytes := buildBlob { vectorCache with trialStart := some 1781076000 }

def deniedAt (t : Int64) : Env := repliesAt t ⟨422, ascii "{}", []⟩

theorem trialStore_reopens : Client.stateAt
    (runAll (perform trialSite) [(.relaunch, offlineAt 1781076400)]
      (Op.validate.exec trialSite (deniedAt 1781076300)
        (history trialSite trialStore [(.relaunch, offlineAt 1781076300)]))).client
    1781076400 = .trial := by
  decide +kernel

/-- Revoked and relaunched with the trial stamp in the store, the client is in its trial. -/
theorem revoked_reopened : ¬∀ (X : Site) (store : Bytes) (before : List Call) (E : Env) (op : Op)
    (resp : HttpResponse) (j : Json), op.validates →
    Client.hasKey (history X store before).client.cache = true →
    0 < (op.exec X E (history X store before)).ticks.request → E.reply = .ok resp →
    resp.status = 422 → Json.parse resp.body = .ok j → leaseOf j = none →
    ∀ calls : List Call, (∀ call ∈ calls, Unlicensing X call) → ∀ t,
      (runAll (perform X) calls (op.exec X E (history X store before))).client.stateAt t ≠
        .trial := by
  intro h
  have hcalls : ∀ call ∈ [((.relaunch, offlineAt 1781076400) : Call)],
      Unlicensing trialSite call := by
    intro call hcall
    rw [List.mem_singleton.1 hcall]
    refine ⟨by simp, ?_, ?_⟩
    · intro n resp hresp
      cases hresp
    · intro key j hkey
      cases hkey
  exact h trialSite trialStore [(.relaunch, offlineAt 1781076300)] (deniedAt 1781076300) .validate
    ⟨422, ascii "{}", []⟩ (.object [] []) rfl (by decide +kernel) (by decide +kernel) rfl rfl rfl
    rfl _ hcalls 1781076400 trialStore_reopens

theorem trialOk_relaunch {X : Site} {w : World} {t : Int64}
    (h : (decodeStore w.store).all
      (fun j => decide (Client.trialStatusAt X (loadCache j {}) t ≠ .active)) = true) :
    Client.TrialOk X w (.relaunch, offlineAt t) := by
  intro j hj
  have hj : decodeStore w.store = some j := hj
  rw [hj, Option.all_some, decide_eq_true_eq] at h
  exact .inr fun _ => h

/-- Relaunched when the two weeks have passed, the client is not in the trial that its store still
stamps. -/
theorem revoked_untried_vector :
    (runAll (perform trialSite) [(.relaunch, offlineAt 1782300000)]
      (Op.validate.exec trialSite (deniedAt 1781076300)
        (history trialSite trialStore [(.relaunch, offlineAt 1781076300)]))).client.stateAt
      1782300000 ≠ .trial :=
  revoked_untried trialSite (deniedAt 1781076300) .validate
    (history trialSite trialStore [(.relaunch, offlineAt 1781076300)])
    ⟨422, ascii "{}", []⟩ (.object [] []) rfl (.inl rfl) (by decide +kernel) rfl rfl rfl rfl
    [(.relaunch, offlineAt 1782300000)] ⟨trialOk_relaunch (by decide +kernel), trivial⟩ 1782300000

end Keylight
