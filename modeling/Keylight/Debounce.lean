import Keylight.Boundary
import Keylight.TrialClock

/-!
# Debounced contacts

Three timers keep the client from asking the server too often. Each compares the
age of a recorded timestamp with its window from above only: a timestamp ahead
of the clock has a negative age and stops the contact too.
-/
namespace Keylight
open Bytes Sections Client

/-- From `w` to `v` a request leaves. -/
def Sent (w v : World) : Prop := ∃ es req r, v.log = w.log ++ es ∧ Event.exchange req r ∈ es

/-- From `w` to `v` none leaves. -/
def Unsent (w v : World) : Prop := ∃ es, v.log = w.log ++ es ∧
  ∀ e ∈ es, ∀ req r, e ≠ .exchange req r

theorem Sent.not_unsent {w v : World} (h : Sent w v) : ¬Unsent w v := by
  rintro ⟨fs, hfs, hnone⟩
  obtain ⟨es, req, r, hes, hmem⟩ := h
  rw [hes] at hfs
  rw [List.append_cancel_left hfs] at hmem
  exact hnone _ hmem req r rfl

theorem Sent.grows {u v w : World} (h : Sent u v) (hg : Grows v w) : Sent u w := by
  obtain ⟨es, req, r, hes, hmem⟩ := h
  obtain ⟨fs, hfs⟩ := hg
  refine ⟨es ++ fs, req, r, ?_, List.mem_append_left _ hmem⟩
  rw [← hfs, hes, List.append_assoc]

theorem Grows.sent {u v w : World} (hg : Grows u v) (h : Sent v w) : Sent u w := by
  obtain ⟨es, req, r, hes, hmem⟩ := h
  obtain ⟨fs, hfs⟩ := hg
  refine ⟨fs ++ es, req, r, ?_, List.mem_append_right _ hmem⟩
  rw [hes, ← hfs, List.append_assoc]

namespace Unsent

theorem same {w v : World} (h : v.log = w.log) : Unsent w v :=
  ⟨[], h.trans (List.append_nil _).symm, by simp⟩

theorem trans {u v w : World} (h₁ : Unsent u v) (h₂ : Unsent v w) : Unsent u w := by
  obtain ⟨es, hes, he⟩ := h₁
  obtain ⟨fs, hfs, hf⟩ := h₂
  refine ⟨es ++ fs, by rw [hfs, hes, List.append_assoc], ?_⟩
  intro e hmem
  obtain hmem | hmem := List.mem_append.mp hmem
  · exact he e hmem
  · exact hf e hmem

end Unsent

namespace Client
variable (X : Site) (E : Env)

theorem unsent_notify (w : World) : Unsent w ((notify E).run w).2 := by
  have hreads : ∀ v, ((state E).run v).2.log = v.log := by
    intro v
    simp only [state, clockUntrusted, loadState, nowFn, Prog.run_bind, Prog.run_read,
      Prog.run_ite]
    split <;> split <;> rfl
  simp only [notify, lockNotify, unlockNotify, Prog.run_bind, Prog.run_await, Prog.run_modify]
  refine .trans (v := ((state E).run { w with notifyOwner := some E.self }).2) ?_ ?_
  · exact .same (hreads _)
  · split
    · exact .same rfl
    · exact ⟨[_], rfl, by simp⟩

theorem unsent_keepState (w : World) : Unsent w ((keepState E).run w).2 := by
  apply Unsent.same
  simp only [keepState, loadState, report, clockUntrusted, nowFn, Prog.run_bind, Prog.run_read,
    Prog.run_ite]
  split <;> split <;> rfl

theorem unsent_saveCache (w : World) : Unsent w ((saveCache E).run w).2 := by
  rw [saveCache_run]
  exact ⟨[.snapshot] ++ [.saved _ _], List.append_assoc _ _ _, by simp⟩

theorem sent_post (action text : Bytes) (w : World) : Sent w ((do
    let headers ← jsonHeaders X E
    requestWithRetry E (ascii "POST") (apiUrl X action) headers text : Code _).run w).2 := by
  rw [Prog.run_bind]
  refine ((growing_quiet (quiet_jsonHeaders X E)).run w).sent ?_
  obtain ⟨es, hlog, hmem⟩ := requestWithRetry_appends E (ascii "POST") (apiUrl X action)
    ((jsonHeaders X E).run w).1 text ((jsonHeaders X E).run w).2
  exact ⟨es, _, _, hlog, hmem⟩

theorem sent_validateRequest (licenseKey instanceId : Bytes) (w : World) :
    Sent w ((validateRequest X E licenseKey instanceId).run w).2 := by
  rw [validateRequest, Prog.run_bind]
  refine Grows.sent ?_ (sent_post X E _ _ _)
  exact (growing_primitives.helpers.appendAttributionFields _ _).run w

theorem sent_validate (w : World) : Sent w ((validate X E).run w).2 := by
  simp only [validate_eq, loadLicenseKey, loadInstanceId, readCache, Prog.run_bind,
    Prog.run_read]
  refine ((growing_quiet (quiet_notify E)).run w).sent ?_
  exact (sent_validateRequest X E _ _ _).grows (acted_grows .validate)

theorem sent_validateAndReconcile (w : World) : Sent w ((validateAndReconcile X E).run w).2 := by
  have hnow : ((nowFn E).run w).1 = E.now w.ticks.now := rfl
  simp only [validateAndReconcile_eq, loadLastValidatedOnline, loadLicenseKey, loadInstanceId,
    readCache, Prog.run_bind, Prog.run_read, Prog.run_map, hnow]
  refine ((growing_quiet (quiet_nowFn E)).run w).sent ?_
  exact (sent_validateRequest X E _ _ _).grows (acted_grows (.reconcile _ _))

/-- The clock readings that `notify` takes: one where there is an anchor to compare with. -/
def guardReads (w : World) : Nat := if w.client.anchor ≠ 0 then 1 else 0

theorem notify_now (w : World) :
    ((notify E).run w).2.ticks.now = w.ticks.now + guardReads w := by
  simp only [notify, lockNotify, unlockNotify, state, clockUntrusted, loadState, nowFn,
    guardReads, Prog.run_bind, Prog.run_await, Prog.run_read, Prog.run_modify, Prog.run_ite]
  by_cases ha : w.client.anchor ≠ 0
  · simp only [if_pos ha, Prog.run_atom, Prog.run_pure]
    split <;> split <;> rfl
  · simp only [if_neg ha, Prog.run_pure]
    split <;> split <;> rfl

/-- A refresh leaves the device exactly when it is due at its reading. -/
theorem refreshIfNeeded_unsent {w : World} (hkey : hasKey w.client.cache = true) :
    Unsent w ((refreshIfNeeded X E).run w).2 ↔
      ¬refreshDue w.client.cache (E.now (w.ticks.now + guardReads w)) := by
  obtain ⟨hdue, hkept⟩ := refreshIfNeeded_due X E hkey rfl rfl
  have hgrow : Grows w ((notify E).run w).2 := ((quiet_notify E).run w).grows
  have hunsent := unsent_notify E w
  rw [notify_now] at hdue hkept
  generalize ((notify E).run w).2 = v at hgrow hunsent hdue hkept
  have hz : Unsent w ((nowFn E).run v).2 := hunsent.trans (.same rfl)
  have hgrow' : Grows w ((nowFn E).run v).2 := hgrow
  generalize ((nowFn E).run v).2 = z at hz hgrow' hdue hkept
  by_cases h : refreshDue w.client.cache (E.now (w.ticks.now + guardReads w))
  · rw [hdue h]
    have hsent : Sent w ((reportResult E ((validateAndReconcile X E).run z).1).run
        ((validateAndReconcile X E).run z).2).2 := by
      refine hgrow'.sent ((sent_validateAndReconcile X E z).grows ?_)
      exact (growing_quiet (quiet_reportResult E _)).run _
    exact iff_of_false hsent.not_unsent fun hnot => hnot h
  · rw [hkept h]
    exact iff_of_true (hz.trans (unsent_keepState E z)) h

/-- The debounce of `activeRevalidate` at a clock reading. -/
def RecentlyRevalidated (c : Client) (t : Int64) : Prop :=
  c.lastActiveRevalidateAt ≠ 0 ∧ t - c.lastActiveRevalidateAt < 60

theorem activeRevalidate_unsent {w : World} (hkey : hasKey w.client.cache = true) :
    Unsent w ((activeRevalidate X E).run w).2 ↔
      RecentlyRevalidated w.client (E.now w.ticks.now) := by
  simp only [activeRevalidate, hasStoredLicense, readCache, nowFn, Prog.run_bind, Prog.run_read,
    Prog.run_ite, hkey, if_true, Prog.run_atom, RecentlyRevalidated]
  split
  · rename_i hrecent
    exact iff_of_true (.same rfl) hrecent
  · rename_i hrecent
    simp only [Bool.false_eq_true, if_false, Prog.run_pure]
    refine iff_of_false (Sent.not_unsent ?_) hrecent
    exact Grows.sent List.prefix_rfl (sent_validate X E _)

/-- The debounce of the beacon at a clock reading. -/
def Debounced (c : Cache) (wire : Bytes) (t : Int64) : Prop :=
  c.lastKeylessPingAt ≠ 0 ∧ c.keylessLastState = some wire ∧ t - c.lastKeylessPingAt < 86400

instance (c : Cache) (wire : Bytes) (t : Int64) : Decidable (Debounced c wire t) :=
  inferInstanceAs (Decidable (_ ∧ _ ∧ _))

theorem keylessDebounced_value (wire : Bytes) (w : World) :
    ((keylessDebounced E wire).run w).1 =
      decide (Debounced w.client.cache wire (E.now w.ticks.now)) := by
  simp only [keylessDebounced, readCache, nowFn, Debounced, Prog.run_bind, Prog.run_read,
    Prog.run_ite]
  by_cases hping : w.client.cache.lastKeylessPingAt ≠ 0
  · simp [hping]
  · simp [hping]

theorem unsent_keylessDebounced (wire : Bytes) (w : World) :
    Unsent w ((keylessDebounced E wire).run w).2 := by
  apply Unsent.same
  simp only [keylessDebounced, readCache, nowFn, Prog.run_bind, Prog.run_read, Prog.run_ite]
  split <;> rfl

/-- Minting an instance id sends nothing. -/
theorem unsent_freeTierInstanceId (w : World) :
    Unsent w ((freeTierInstanceId E).run w).2 := by
  simp only [freeTierInstanceId, mintFreeTierInstanceId, Prog.run_bind, Prog.run_atom]
  cases w.client.cache.freeTierInstanceId with
  | some id => exact .same rfl
  | none =>
    let u : World := { w with
      client.cache.freeTierInstanceId := some (uuidV4 (E.uuid w.ticks.uuid))
      ticks.uuid := w.ticks.uuid + 1 }
    have hsave : Unsent w ((saveCache E).run u).2 :=
      .trans (v := u) (.same rfl) (unsent_saveCache E u)
    simp only [Prog.run_bind, Prog.run_ite]
    split
    · exact hsave.trans ⟨[], rfl, by simp⟩
    · exact hsave

/-- The id a beacon is sent under: the cached one, or a new one if it can be saved. -/
def beaconId (w : World) : Bytes :=
  match w.client.cache.freeTierInstanceId with
  | some id => id
  | none => if (E.save w.ticks.save).isNone then uuidV4 (E.uuid w.ticks.uuid) else []

theorem freeTierInstanceId_value (w : World) :
    ((freeTierInstanceId E).run w).1 = beaconId E w := by
  simp only [freeTierInstanceId, mintFreeTierInstanceId, beaconId, Prog.run_bind, Prog.run_atom]
  cases w.client.cache.freeTierInstanceId with
  | some id => rfl
  | none =>
    simp only [Prog.run_bind, Prog.run_ite, saveCache_run, Prog.run_pure, readCache,
      Prog.run_read]
    cases E.save w.ticks.save with
    | none => rfl
    | some e => rfl

/-- What follows a beacon's debounce. -/
theorem growing_keylessReply (s : KeylessState) (body : Bytes) :
    Growing (keylessReply X E (keylessStateWire s) body) :=
  growing_primitives.helpers.keylessReply s fun _ _ => trivial

/-- A beacon leaves the device unless it is debounced, or there is no id to send it under. -/
theorem reportKeylessState_unsent (s : KeylessState) (w : World) :
    Unsent w ((reportKeylessState X E s).run w).2 ↔
      Debounced w.client.cache (keylessStateWire s) (E.now w.ticks.now) ∨ beaconId E w = [] := by
  have hvalue := keylessDebounced_value E (keylessStateWire s) w
  have hunsent := unsent_keylessDebounced E (keylessStateWire s) w
  have hid : beaconId E ((keylessDebounced E (keylessStateWire s)).run w).2 = beaconId E w := by
    simp only [keylessDebounced, readCache, nowFn, Prog.run_bind, Prog.run_read, Prog.run_ite]
    split <;> rfl
  simp only [reportKeylessState, Prog.run_bind, hvalue]
  generalize ((keylessDebounced E (keylessStateWire s)).run w).2 = u at hunsent hid ⊢
  by_cases hdebounced : Debounced w.client.cache (keylessStateWire s) (E.now w.ticks.now)
  · simp only [hdebounced, decide_true, if_true, Prog.run_pure]
    exact iff_of_true hunsent (.inl trivial)
  · have hfree := unsent_freeTierInstanceId E u
    simp only [hdebounced, decide_false, Bool.false_eq_true, if_false, false_or, Prog.run_bind,
      freeTierInstanceId_value, hid]
    generalize ((freeTierInstanceId E).run u).2 = v at hfree ⊢
    by_cases hempty : beaconId E w = []
    · simp only [hempty, if_true, Prog.run_pure]
      exact iff_of_true (hunsent.trans hfree) trivial
    · simp only [hempty, if_false, iff_false, Prog.run_bind]
      refine Sent.not_unsent ?_
      have hgrow : Grows w ((machineHash X E).run v).2 := by
        obtain ⟨es, hes, -⟩ := hunsent.trans hfree
        refine Grows.trans (v := v) ⟨es, hes.symm⟩ ?_
        exact (growing_primitives.helpers.machineHash (X := X) (C := fun _ => True)).run v
      have hpost := sent_post X E (ascii "keyless") (buildJson X
        ([(ascii "instance_id", jsonStr (beaconId E w)), (ascii "state",
          jsonStr (keylessStateWire s))] ++ optionField (ascii "machine_hash")
            ((machineHash X E).run v).1) true) ((machineHash X E).run v).2
      rw [Prog.run_bind] at hpost
      refine (hgrow.sent hpost).grows ?_
      generalize ((requestWithRetry E _ _ _ _).run _) = z
      obtain ⟨r, z⟩ := z
      cases r with
      | error e => exact .refl z
      | ok resp =>
        simp only [Prog.run_ite]
        split
        · exact .refl z
        · exact (growing_keylessReply X E s resp.body).run z

end Client

/-- Where the int64 test `now - last < window` passes only for an age within the window: the
timestamp is not ahead of the clock, or is so far ahead that the difference wraps past the
window. -/
def Forward (last now : Int64) (window : Int) : Prop :=
  last ≤ now ∧ now.toInt - last.toInt < 2 ^ 63 ∨
    now.toInt - last.toInt < -2 ^ 63 ∧ window ≤ now.toInt - last.toInt + 2 ^ 64

/-- An age in `[0, window)`. -/
def Aged (last now : Int64) (window : Int) : Prop :=
  0 ≤ now.toInt - last.toInt ∧ now.toInt - last.toInt < window

theorem aged_iff (last now window : Int64) (h : 0 ≤ window.toInt) :
    (now - last < window → Aged last now window.toInt) ↔ Forward last now window.toInt := by
  have hsub : (now - last).toInt = (now.toInt - last.toInt).bmod (2 ^ 64) := Int64.toInt_sub _ _
  have h₁ := now.toInt_lt
  have h₂ := now.le_toInt
  have h₃ := last.toInt_lt
  have h₄ := last.le_toInt
  have h₅ := window.toInt_lt
  rw [Int64.lt_iff_toInt_lt, hsub, Aged, Forward, Int64.le_iff_toInt_le, Int.bmod]
  split <;> omega

/-- The cached lease expires within a day. -/
def ExpiresSoon (c : Cache) (t : Int64) : Prop :=
  ∃ l, c.lease = some l ∧ l.expiresAt.toInt - t.toInt < 86400

/-- When a refresh may leave the server alone. -/
def RefreshWaits (c : Cache) (t : Int64) : Prop :=
  Aged c.lastValidatedOnline t 300 ∨
    300 ≤ t.toInt - c.lastValidatedOnline.toInt ∧ Aged c.lastValidatedOnline t 21600 ∧
      ¬ExpiresSoon c t

/-- The last validation is not ahead of the clock, and between the two windows the near-expiry
test sees a lease that expires soon; or the age wraps and the refresh is due by that. -/
def RefreshForward (c : Cache) (t : Int64) : Prop :=
  ¬0 < c.lastValidatedOnline ∨
  c.lastValidatedOnline ≤ t ∧ (300 ≤ t.toInt - c.lastValidatedOnline.toInt →
    Aged c.lastValidatedOnline t 21600 → ExpiresSoon c t → nearExpiry t c = true) ∨
  t.toInt - c.lastValidatedOnline.toInt < -2 ^ 63 ∧ refreshDue c t

/-- A refresh that is not due is one that may wait, exactly under `RefreshForward`. -/
theorem refreshWaits_iff (c : Cache) (t : Int64) :
    (¬refreshDue c t → RefreshWaits c t) ↔ RefreshForward c t := by
  have hsub : (t - c.lastValidatedOnline).toInt =
      (t.toInt - c.lastValidatedOnline.toInt).bmod (2 ^ 64) := Int64.toInt_sub _ _
  have h₁ := t.toInt_lt
  have h₂ := t.le_toInt
  have h₃ := c.lastValidatedOnline.toInt_lt
  have hdebounce : refreshDebounce.toInt = 300 := by decide
  have hstale : refreshStale.toInt = 21600 := by decide
  simp only [refreshDue, RefreshWaits, RefreshForward, Aged, gt_iff_lt, ge_iff_le,
    Int64.lt_iff_toInt_lt, Int64.le_iff_toInt_le, Int64.toInt_zero, hdebounce, hstale, hsub,
    Int.bmod]
  -- the age is below 2 ^ 63, so it can only wrap upwards
  by_cases hnear : nearExpiry t c = true <;> by_cases hsoon : ExpiresSoon c t <;>
    simp only [hnear, hsoon, not_true_eq_false, not_false_eq_true, and_false, and_true, or_false,
      or_true, implies_true, imp_false, Bool.false_eq_true] <;>
    split <;> omega

theorem refreshIfNeeded_exec_unsent (X : Site) (E : Env) {w : World}
    (hkey : hasKey w.client.cache = true) : Unsent w (Op.refreshIfNeeded.exec X E w) ↔
      ¬refreshDue w.client.cache (E.now (guardReads w)) := by
  have hunsent := refreshIfNeeded_unsent X E (w := { w with ticks := {} }) hkey
  rw [Nat.zero_add] at hunsent
  rw [Op.exec, Op.code, run_ignored]
  exact hunsent

/-- The three timers, each exactly where its window survives. -/
theorem debounces_forward (X : Site) (E : Env) (s : KeylessState) (w : World) :
    (hasKey w.client.cache = true →
      let t := E.now (guardReads w)
      ((Unsent w (Op.refreshIfNeeded.exec X E w) → RefreshWaits w.client.cache t) ↔
        RefreshForward w.client.cache t)) ∧
    (hasKey w.client.cache = true →
      let last := w.client.lastActiveRevalidateAt
      ((Unsent w (Op.activeRevalidate.exec X E w) → Aged last (E.now 0) 60) ↔
        last = 0 ∨ Forward last (E.now 0) 60)) ∧
    (let last := w.client.cache.lastKeylessPingAt
      let same := w.client.cache.keylessLastState = some (keylessStateWire s)
      ((Unsent w ((Op.reportKeylessState s).exec X E w) → same ∧ Aged last (E.now 0) 86400) ↔
        same ∧ Aged last (E.now 0) 86400 ∨ beaconId E { w with ticks := {} } ≠ [] ∧
          (¬same ∨ last = 0 ∨ Forward last (E.now 0) 86400))) := by
  have hstart : ∀ v : World, Unsent { w with ticks := {} } v ↔ Unsent w v := fun v => Iff.rfl
  refine ⟨fun hkey => ?_, fun hkey => ?_, ?_⟩
  · intro t
    rw [refreshIfNeeded_exec_unsent X E hkey]
    exact refreshWaits_iff w.client.cache t
  · intro last
    have hunsent := activeRevalidate_unsent X E (w := { w with ticks := {} }) hkey
    have haged := aged_iff last (E.now 0) 60 (by decide)
    rw [hstart, RecentlyRevalidated] at hunsent
    rw [Op.exec, Op.code, run_ignored, hunsent]
    by_cases hzero : last = 0
    · exact iff_of_true (fun h => absurd hzero h.1) (.inl hzero)
    · refine Iff.trans ⟨fun h hlt => h ⟨hzero, hlt⟩, fun h hlt => h hlt.2⟩ (haged.trans ?_)
      exact (or_iff_right hzero).symm
  · intro last same
    have hunsent := reportKeylessState_unsent X E s { w with ticks := {} }
    have haged := aged_iff last (E.now 0) 86400 (by decide)
    have hwindow : (86400 : Int64).toInt = 86400 := by decide
    rw [hwindow] at haged
    rw [hstart] at hunsent
    rw [Op.exec, Op.code, hunsent]
    by_cases hwithin : same ∧ Aged last (E.now 0) 86400
    · exact iff_of_true (fun _ => hwithin) (.inl hwithin)
    rw [or_iff_right hwithin, imp_iff_not hwithin, not_or, and_comm]
    refine and_congr_right fun _ => ?_
    rw [Debounced, not_and_or, not_and_or, not_not, or_left_comm, ← haged]
    by_cases hsame : same
    · have hnot : ¬Aged last (E.now 0) 86400 := fun h => hwithin ⟨hsame, h⟩
      rw [imp_iff_not hnot]
    · exact iff_of_true (.inl hsame) (.inl hsame)

/-- Two hours before its last validation the client reports a rolled-back clock, and a refresh
does not ask the server. -/
theorem rollback_unsent : ¬∀ (X : Site) (store : Bytes) (calls : List Call) (E : Env)
    (s : KeylessState),
    let w := history X store calls
    (hasKey w.client.cache = true → Unsent w (Op.refreshIfNeeded.exec X E w) →
      RefreshWaits w.client.cache (E.now (guardReads w))) ∧
    (hasKey w.client.cache = true → Unsent w (Op.activeRevalidate.exec X E w) →
      Aged w.client.lastActiveRevalidateAt (E.now 0) 60) ∧
    (Unsent w ((Op.reportKeylessState s).exec X E w) →
      w.client.cache.keylessLastState = some (keylessStateWire s) ∧
        Aged w.client.cache.lastKeylessPingAt (E.now 0) 86400) := by
  intro h
  obtain ⟨hkey, -, -, hanchor⟩ := patientWorld_holds
  have hdue : ¬refreshDue patientWorld.client.cache 1781069056 := by
    rintro ⟨hold, -⟩
    rw [hanchor] at hold
    exact hold (by decide)
  have hunsent := (refreshIfNeeded_exec_unsent patientSite (offlineAt 1781069056) hkey).mpr hdue
  rw [patientWorld] at hkey hunsent hanchor
  have hwaits := (h patientSite vectorStore [(.relaunch, offlineAt 1781076300)]
    (offlineAt 1781069056) .trial).1 hkey hunsent
  have hage : ((1781069056 : Int64).toInt - (1781076256 : Int64).toInt) = -7200 := by decide
  rw [RefreshWaits, Aged, Aged, hanchor] at hwaits
  change 0 ≤ (1781069056 : Int64).toInt - (1781076256 : Int64).toInt ∧ _ ∨
    300 ≤ (1781069056 : Int64).toInt - (1781076256 : Int64).toInt ∧ _ at hwaits
  rw [hage] at hwaits
  obtain hwaits | hwaits := hwaits
  · exact absurd hwaits.1 (by decide)
  · exact absurd hwaits.1 (by decide)

/-- A minute after the last validation the refresh waits, within its window. -/
theorem debounces_forward_vector :
    (Unsent patientWorld (Op.refreshIfNeeded.exec patientSite (offlineAt 1781076316)
      patientWorld) → RefreshWaits patientWorld.client.cache 1781076316) ↔
    RefreshForward patientWorld.client.cache 1781076316 := by
  have h := debounces_forward patientSite (offlineAt 1781076316) .trial patientWorld
  exact h.1 patientWorld_holds.1

end Keylight
