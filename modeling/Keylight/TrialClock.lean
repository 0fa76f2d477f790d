import Keylight.Persistence

/-!
# The clock of the local trial

The stamp is written once, at a reading of the clock, and every later call and
launch finds it again. Status and days left are the source's int64 arithmetic;
where the time since the stamp is an int64 at all they are what they should be.
-/
namespace Keylight
open Bytes Sections

/-- The stamp that the next launch reads. -/
def storedTrial (store : Bytes) : Option Int64 :=
  (decodeStore store).bind fun j => intOf j (ascii "trialStart")

/-- The stored stamp is the cached one. -/
def StampKept (w : World) : Prop := storedTrial w.store = w.core.cache.trialStart

/-- The store works and the clock never reads 0, the value that stands for no stamp. -/
structure Ticking (E : Env) : Prop where
  works : StoreWorks E
  clock : ∀ i, E.now i ≠ 0

theorem storedTrial_buildBlob (c : Cache) :
    storedTrial (buildBlob c) = c.trialStart.bind nonZero := by
  have hmem : (ascii "trialStart", c.trialStart.map writtenInt) ∈ blobFields c :=
    List.mem_of_getElem? (i := 5) rfl
  rw [storedTrial, decodeStore_buildBlob]
  exact intOf_blob hmem

theorem storedTrial_ne_zero {store : Bytes} {s : Int64} (h : storedTrial store = some s) :
    s ≠ 0 := by
  rw [storedTrial, Option.bind_eq_some_iff] at h
  obtain ⟨j, -, hj⟩ := h
  rw [intOf, nonZero] at hj
  split at hj
  · cases hj
  · rename_i hne
    cases hj
    exact hne

namespace Client
variable {X : Site} {E : Env}

theorem configured_trialStart (j : Json) (t : Int64) (c : Cache) :
    (configured X j t c).trialStart = c.trialStart := by
  unfold configured
  split
  · rfl
  · rfl

theorem activated_trialStart {key : Bytes} {v : ActivationVerdict} {c c' : Core}
    (h : Activated X E key v c c') : c'.cache.trialStart = c.cache.trialStart := by
  cases h <;> rfl

theorem settled_trialStart {v : Verdict} {c c' : Core} (h : Settled X E v c c') :
    c'.cache.trialStart = c.cache.trialStart := by
  cases h with
  | denied => rfl
  | rejected => rfl
  | rejectedUntrusted => rfl
  | renewed => exact configured_trialStart _ _ _
  | renewedUntrusted => exact configured_trialStart _ _ _
  | leaseless => exact configured_trialStart _ _ _

/-- The stamp stays, or an absent one is taken from the clock. -/
def StampStep (E : Env) (c c' : Cache) : Prop :=
  c'.trialStart = c.trialStart ∨ c.trialStart = none ∧ ∃ i, c'.trialStart = some (E.now i)

theorem local_stampStep {reply : Result HttpResponse} {c c' : Core} (h : Local X E reply c c') :
    StampStep E c.cache c'.cache := by
  cases h with
  | kept h => exact .inl h.trialStart
  | resolved h => exact .inl h.trialStart
  | configured _ _ _ _ h => exact .inl (h.trialStart.trans (configured_trialStart _ _ _))
  | stamped hnew n i h => exact .inr ⟨hnew, n, h.trialStart⟩

theorem notedCore_trialStart (w : World) :
    (notedCore E w).cache.trialStart = w.core.cache.trialStart :=
  (near_withHardwareId _ _).trialStart

end Client

open Client in
/-- Every call but a launch keeps the stamp, or takes an absent one from the clock. -/
theorem Op.exec_stampStep (X : Site) (E : Env) {op : Op} (w : World) (h : op ≠ .relaunch) :
    StampStep E w.core.cache (op.exec X E w).core.cache := by
  have houtcome := op.exec_outcome X E w
  generalize (op.exec X E w).core = c at houtcome ⊢
  cases houtcome with
  | blank => exact absurd rfl h
  | launched => exact absurd rfl h
  | activated hact => exact .inl ((activated_trialStart hact).trans (notedCore_trialStart _))
  | settled _ hset => exact .inl ((settled_trialStart hset).trans (notedCore_trialStart _))
  | graced => exact .inl (notedCore_trialStart _)
  | kept hnear => exact .inl hnear.trialStart
  | reset hreset =>
    obtain rfl | ⟨i, rfl⟩ := hreset
    · exact .inl rfl
    · exact .inl rfl
  | resolved => exact .inl rfl
  | keyless _ hlocal => exact local_stampStep hlocal

/-- A launch takes the stored stamp over. -/
theorem relaunch_trialStart (X : Site) {E : Env} (hE : StoreWorks E) (w : World) :
    (Op.relaunch.exec X E w).core.cache.trialStart = storedTrial w.store := by
  rw [relaunch_cache X hE, launchCache, storedTrial]
  cases decodeStore w.store with
  | none => rfl
  | some j => simp [loadCache]

open Client in
/-- One call keeps what is stored and what is cached together. -/
theorem Op.exec_stampKept (X : Site) {E : Env} (hE : Ticking E) (op : Op) {w : World}
    (hw : StampKept w ∨ op = .relaunch) : StampKept (op.exec X E w) := by
  by_cases hlaunch : op = .relaunch
  · subst hlaunch
    have hstore : (Op.relaunch.exec X E w).store = w.store := construct_store X E _
    rw [StampKept, hstore, relaunch_trialStart X hE.works]
  · have hkept : StampKept w := hw.resolve_right hlaunch
    have hstep := op.exec_stampStep X E w hlaunch
    -- a stamp in the new cache is the stored one or a reading of the clock, never 0
    have hnonzero : (op.exec X E w).core.cache.trialStart.bind nonZero =
        (op.exec X E w).core.cache.trialStart := by
      obtain h | ⟨-, i, h⟩ := hstep
      · rw [h, ← hkept]
        cases hs : storedTrial w.store with
        | none => rfl
        | some s => exact if_neg (storedTrial_ne_zero hs)
      · rw [h]
        exact if_neg (hE.clock i)
    by_cases hdeactivate : op = .deactivate
    · subst hdeactivate
      obtain ⟨hcache, ⟨-, h⟩ | ⟨hnone, h | ⟨h, -⟩⟩⟩ := Op.exec_deactivate X hE.works w
      · rw [StampKept, h, storedTrial_buildBlob, ← hnonzero, hcache]
      · rw [StampKept, h, hcache]
        exact hnone.symm
      · rw [StampKept, h, hcache]
        exact hkept
    · obtain h | ⟨hstore, hcache⟩ := op.exec_flushed X hE.works w hlaunch hdeactivate
      · rw [StampKept, h, storedTrial_buildBlob, hnonzero]
      · rw [StampKept, hstore, hcache]
        exact hkept

/-- A stamp survives every call. -/
theorem Op.exec_stamp (X : Site) {E : Env} (hE : Ticking E) (op : Op) {w : World}
    (hw : StampKept w) {s : Int64} (hs : w.core.cache.trialStart = some s) :
    (op.exec X E w).core.cache.trialStart = some s := by
  by_cases hlaunch : op = .relaunch
  · rw [hlaunch, relaunch_trialStart X hE.works, hw, hs]
  · obtain h | ⟨hnone, -⟩ := op.exec_stampStep X E w hlaunch
    · rw [h, hs]
    · rw [hs] at hnone
      cases hnone

namespace Client
variable (X : Site)

/-- The duration in force. -/
def trialDays (w : World) : Int32 := ((effectiveTrialDurationDays X).run w).1

/-- `checkTrial` with the clock at `t`. -/
def trialAt (w : World) (t : Int64) : TrialStatus :=
  ((checkTrial X { now := fun _ => t }).run w).1

/-- `trialDaysLeft` with the clock at `t`. -/
def daysLeftAt (w : World) (t : Int64) : Int32 :=
  ((trialDaysLeft X { now := fun _ => t }).run w).1

/-- The time from `s` to `t` is an int64. -/
def Spans (s t : Int64) : Prop := -2 ^ 63 ≤ t.toInt - s.toInt ∧ t.toInt - s.toInt < 2 ^ 63

theorem toInt_sub_of_spans {s t : Int64} (h : Spans s t) : (t - s).toInt = t.toInt - s.toInt := by
  rw [Int64.toInt_sub]
  apply Int.bmod_eq_of_le
  · have := h.1
    omega
  · have := h.2
    omega

/-- Days left, as a number: the whole days since the stamp come off the duration. -/
theorem toInt_daysLeft (t s : Int64) (d : Int32) :
    (daysLeft t s d).toInt = d.toInt - max 0 (t - s).toInt / 86400 := by
  have hd₁ := d.le_toInt
  have hd₂ := d.toInt_lt
  have helapsed : (if t - s < 0 then 0 else t - s : Int64).toInt = max 0 (t - s).toInt := by
    split
    · rename_i h
      rw [Int64.lt_iff_toInt_lt, Int64.toInt_zero] at h
      rw [Int64.toInt_zero]
      omega
    · rename_i h
      rw [Int64.lt_iff_toInt_lt, Int64.toInt_zero] at h
      omega
  have hne : (if t - s < 0 then 0 else t - s : Int64) ≠ Int64.minValue := by
    intro h
    rw [h] at helapsed
    have hmin : Int64.minValue.toInt = -2 ^ 63 := rfl
    omega
  have hlt := (t - s).toInt_lt
  have hday : (86400 : Int64).toInt = 86400 := rfl
  have hdiv : ((if t - s < 0 then 0 else t - s : Int64) / 86400).toInt =
      max 0 (t - s).toInt / 86400 := by
    rw [Int64.toInt_div_of_ne_left _ _ hne, helapsed, hday]
    exact Int.tdiv_eq_ediv_of_nonneg (by omega)
  change (d.toInt64 - (if t - s < 0 then 0 else t - s : Int64) / 86400).toInt = _
  rw [Int64.toInt_sub, hdiv, Int32.toInt_toInt64]
  apply Int.bmod_eq_of_le
  · omega
  · omega

theorem daysLeft_pos {t s : Int64} {d : Int32} (h : Spans s t) (hd : 0 < d) :
    daysLeft t s d > 0 ↔ t.toInt < s.toInt + 86400 * d.toInt := by
  rw [Int32.lt_iff_toInt_lt, Int32.toInt_zero] at hd
  rw [gt_iff_lt, Int64.lt_iff_toInt_lt, Int64.toInt_zero, toInt_daysLeft, toInt_sub_of_spans h]
  omega

theorem trialAt_eq (w : World) (t : Int64) : trialAt X w t = trialStatusAt X w.core.cache t :=
  checkTrial_value X { now := fun _ => t } w

theorem trialAt_off {w : World} (h : trialDays X w ≤ 0) (t : Int64) :
    trialAt X w t = .notStarted := by
  rw [trialAt_eq, trialStatusAt]
  exact if_pos h

theorem trialAt_unstamped {w : World} (h : w.client.cache.trialStart = none) (t : Int64) :
    trialAt X w t = .notStarted := by
  have hs : w.core.cache.trialStart = none := h
  rw [trialAt_eq, trialStatusAt, hs]
  simp

theorem trialAt_stamped {w : World} {s : Int64} (hd : 0 < trialDays X w)
    (hs : w.client.cache.trialStart = some s) (t : Int64) :
    trialAt X w t = if daysLeft t s (trialDays X w) > 0 then .active else .expired := by
  have hs' : w.core.cache.trialStart = some s := hs
  rw [trialAt_eq, trialStatusAt, hs']
  exact if_neg (Int32.not_le.2 hd)

/-- Days left stay within the duration, whatever the clock reads. -/
theorem daysLeftAt_range (w : World) (t : Int64) :
    0 ≤ (daysLeftAt X w t).toInt ∧ (daysLeftAt X w t).toInt ≤ max 0 (trialDays X w).toInt := by
  have hzero : 0 ≤ (0 : Int32).toInt ∧ (0 : Int32).toInt ≤ max 0 (trialDays X w).toInt := by
    rw [Int32.toInt_zero]
    omega
  change 0 ≤ (((trialDaysLeft X { now := fun _ => t }).run w).1).toInt ∧
    (((trialDaysLeft X { now := fun _ => t }).run w).1).toInt ≤ _
  simp only [trialDaysLeft, effectiveTrialDurationDays, readCache, daysLeftFrom, nowFn,
    Prog.run_bind, Prog.run_read, Prog.run_ite, Prog.run_pure]
  split
  · exact hzero
  · cases w.client.cache.trialStart with
    | none => exact hzero
    | some s =>
      simp only [Prog.run_bind, Prog.run_atom, Prog.run_pure, Prog.run_ite]
      split
      · rename_i hleft
        have hd : w.client.cache.serverTrialDays.getD X.cfg.trialDurationDays = trialDays X w := rfl
        rw [hd] at hleft ⊢
        rw [gt_iff_lt, Int64.lt_iff_toInt_lt, Int64.toInt_zero] at hleft
        have hd₁ := (trialDays X w).toInt_lt
        have hvalue := toInt_daysLeft t s (trialDays X w)
        have hcast : (daysLeft t s (trialDays X w)).toInt32.toInt =
            (daysLeft t s (trialDays X w)).toInt := by
          rw [Int64.toInt_toInt32]
          apply Int.bmod_eq_of_le
          · omega
          · omega
        rw [hcast]
        omega
      · exact hzero

end Client

theorem stampKept_history (X : Site) (store : Bytes) (E₀ : Env) (calls : List Call)
    (h₀ : StoreWorks E₀) (hcalls : ∀ call ∈ calls, Ticking call.2) :
    StampKept (history X store ((.relaunch, E₀) :: calls)) := by
  have hlaunch : StampKept (Op.relaunch.exec X E₀ { store }) := by
    have hstore : (Op.relaunch.exec X E₀ { store }).store = store := Client.construct_store X E₀ _
    rw [StampKept, hstore, relaunch_trialStart X h₀]
  apply Runs.runAll_keeps _ hlaunch
  intro call hcall w hw
  exact call.1.exec_stampKept X (hcalls call hcall) (.inl hw)

/-- A stamp present at one point of a run is there at every later one. -/
theorem stamp_history (X : Site) {w : World} (later : List Call)
    (hlater : ∀ call ∈ later, Ticking call.2) (hw : StampKept w) {s : Int64}
    (hs : w.core.cache.trialStart = some s) :
    (Runs.runAll (perform X) later w).core.cache.trialStart = some s := by
  have hrun : StampKept (Runs.runAll (perform X) later w) ∧
      (Runs.runAll (perform X) later w).core.cache.trialStart = some s := by
    apply Runs.runAll_keeps
      (I := fun u => StampKept u ∧ u.core.cache.trialStart = some s) _ ⟨hw, hs⟩
    intro call hcall u hu
    constructor
    · exact call.1.exec_stampKept X (hlater call hcall) (.inl hu.1)
    · exact call.1.exec_stamp X (hlater call hcall) hu.1 hu.2
  exact hrun.2

theorem history_append (X : Site) (store : Bytes) (calls later : List Call) :
    history X store (calls ++ later) = Runs.runAll (perform X) later (history X store calls) :=
  Runs.runAll_append calls later _

open Client in
/-- The trial of a run: its stamp never changes, its status is the one the stamp, the duration
in force and the clock determine, and an elapsed trial stays elapsed. -/
theorem trial_clock (X : Site) (store : Bytes) (E₀ : Env) (calls later : List Call)
    (h₀ : StoreWorks E₀) (hcalls : ∀ call ∈ calls ++ later, Ticking call.2) :
    let w := history X store ((.relaunch, E₀) :: calls)
    let v := history X store ((.relaunch, E₀) :: (calls ++ later))
    (∀ s, w.client.cache.trialStart = some s → v.client.cache.trialStart = some s) ∧
    (∀ t,
      (trialAt X v t = .notStarted ↔ trialDays X v ≤ 0 ∨ v.client.cache.trialStart = none) ∧
      (∀ s, v.client.cache.trialStart = some s → 0 < trialDays X v → Spans s t →
        trialAt X v t = if t.toInt < s.toInt + 86400 * (trialDays X v).toInt then .active
          else .expired) ∧
      0 ≤ (daysLeftAt X v t).toInt ∧ (daysLeftAt X v t).toInt ≤ max 0 (trialDays X v).toInt) ∧
    (∀ t t', t ≤ t' → trialDays X w = trialDays X v →
      (∀ s, w.client.cache.trialStart = some s → Spans s t ∧ Spans s t') →
      trialAt X w t = .expired → trialAt X v t' = .expired) := by
  intro w v
  have hkept : StampKept w :=
    stampKept_history X store E₀ calls h₀ fun call h => hcalls call (List.mem_append_left _ h)
  have hstamp : ∀ s, w.client.cache.trialStart = some s →
      v.client.cache.trialStart = some s := by
    intro s hs
    have hlater := stamp_history X later
      (fun call h => hcalls call (List.mem_append_right _ h)) hkept hs
    have hv : v = Runs.runAll (perform X) later w :=
      history_append X store ((.relaunch, E₀) :: calls) later
    rw [hv]
    exact hlater
  have hstatus : ∀ u : World, ∀ s t, u.client.cache.trialStart = some s → 0 < trialDays X u →
      Spans s t → trialAt X u t =
        if t.toInt < s.toInt + 86400 * (trialDays X u).toInt then .active else .expired := by
    intro u s t hs hd hspan
    rw [trialAt_stamped X hd hs]
    simp only [daysLeft_pos hspan hd]
  refine ⟨hstamp, fun t => ⟨?_, fun s hs hd => hstatus v s t hs hd, daysLeftAt_range X v t⟩, ?_⟩
  · constructor
    · intro h
      by_contra hnot
      obtain ⟨hd, hs⟩ := not_or.1 hnot
      obtain ⟨s, hs⟩ := Option.ne_none_iff_exists'.1 hs
      rw [trialAt_stamped X (Int32.not_le.1 hd) hs] at h
      split at h
      · cases h
      · cases h
    · rintro (hd | hs)
      · exact trialAt_off X hd t
      · exact trialAt_unstamped X hs t
  · intro t t' hle hdays hspans hexpired
    by_cases hd : 0 < trialDays X w
    · cases hs : w.client.cache.trialStart with
      | none =>
        rw [trialAt_unstamped X hs] at hexpired
        cases hexpired
      | some s =>
        obtain ⟨hspan, hspan'⟩ := hspans s hs
        rw [hstatus w s t hs hd hspan] at hexpired
        rw [hstatus v s t' (hstamp s hs) (hdays ▸ hd) hspan', ← hdays, if_neg]
        split at hexpired
        · cases hexpired
        · have := Int64.le_iff_toInt_le.1 hle
          omega
    · rw [trialAt_off X (Int32.not_lt.1 hd)] at hexpired
      cases hexpired

/-- A tenant with a trial of a week. -/
def weekSite : Site :=
  { Client.plainSite with cfg := { Client.plainSite.cfg with trialDurationDays := 7 } }

theorem offlineAt_ticking {t : Int64} (h : t ≠ 0) : Ticking (offlineAt t) :=
  ⟨offlineAt_works t, fun _ => h⟩

def startCalls : List Call := [(.startTrial, offlineAt 1781076300)]

def deactivateCalls : List Call :=
  [(.deactivate, offlineAt 1781076400), (.relaunch, offlineAt 1781076400)]

theorem startCalls_trialStart : (history weekSite []
    ((.relaunch, offlineAt 1781076300) :: startCalls)).client.cache.trialStart =
      some 1781076300 := by decide +kernel

/-- A deactivation and a new process later the stamp is the same. -/
theorem trial_clock_week : (history weekSite [] ((.relaunch, offlineAt 1781076300) ::
    (startCalls ++ deactivateCalls))).client.cache.trialStart = some 1781076300 := by
  have hcalls : ∀ call ∈ startCalls ++ deactivateCalls, Ticking call.2 := by
    intro call hcall
    simp only [startCalls, deactivateCalls, List.cons_append, List.nil_append, List.mem_cons,
      List.not_mem_nil, or_false] at hcall
    obtain rfl | rfl | rfl := hcall
    all_goals exact offlineAt_ticking (by decide)
  have hrun := trial_clock weekSite [] (offlineAt 1781076300) startCalls deactivateCalls
    (offlineAt_works _) hcalls
  exact hrun.1 1781076300 startCalls_trialStart

/-- A client that stamped its trial a second before 1970. -/
def earlyWorld : World :=
  history weekSite [] ((.relaunch, offlineAt 1) :: [(.startTrial, offlineAt (-1))])

theorem earlyWorld_trialStart : earlyWorld.client.cache.trialStart = some (-1) := by
  decide +kernel

theorem earlyWorld_trialDays : Client.trialDays weekSite earlyWorld = 7 := by decide +kernel

theorem earlyWorld_trialAt : Client.trialAt weekSite earlyWorld Int64.maxValue = .active := by
  decide +kernel

/-- The time since a stamp before 1970 may not be an int64, and then wraps to no time at all. -/
theorem trial_clock_wraps : ¬∀ (X : Site) (store : Bytes) (E₀ : Env) (calls : List Call),
    StoreWorks E₀ → (∀ call ∈ calls, Ticking call.2) →
    ∀ t s, (history X store ((.relaunch, E₀) :: calls)).client.cache.trialStart = some s →
      0 < Client.trialDays X (history X store ((.relaunch, E₀) :: calls)) →
      (Client.trialAt X (history X store ((.relaunch, E₀) :: calls)) t = .active ↔ t.toInt <
        s.toInt + 86400 * (Client.trialDays X
          (history X store ((.relaunch, E₀) :: calls))).toInt) := by
  intro h
  have hstart := earlyWorld_trialStart
  have hdays := earlyWorld_trialDays
  have hactive := earlyWorld_trialAt
  rw [earlyWorld] at hstart hdays hactive
  have hearly := (h weekSite [] (offlineAt 1) [(.startTrial, offlineAt (-1))] (offlineAt_works _)
    (by
      intro call hcall
      rw [List.mem_singleton.1 hcall]
      exact offlineAt_ticking (by decide)) Int64.maxValue (-1) hstart
    (by rw [hdays]; decide)).1 hactive
  rw [hdays] at hearly
  exact absurd hearly (by decide)

end Keylight
