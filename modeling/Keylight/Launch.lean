import Keylight.TrialClock
import Keylight.OfflineLaunch

/-!
# What the store's bytes decide

The state of a client built from arbitrary bytes, read off the decoded blob: the
lease with its trust, status and expiry, the anchor with the clock guard and the
offline bound, and the trial start.
-/
namespace Keylight
open Bytes Sections Client

/-- The stored online anchor. -/
def storedAnchor (j : Json) : Int64 := (j.get (ascii "lastValidatedOnline")).asInt

/-- The stored trial start. -/
def storedStart (j : Json) : Int64 := (j.get (ascii "trialStart")).asInt

/-- The trial length in force under a decoded blob. -/
def storedDays (X : Site) (j : Json) : Int32 :=
  if jsonHas j (ascii "serverTrialDurationDays") then
    (j.get (ascii "serverTrialDurationDays")).asInt.toInt32
  else X.cfg.trialDurationDays

/-- A timestamp that leaves room for the arithmetic. -/
def Moderate (t : Int64) : Prop := -2 ^ 62 ≤ t.toInt ∧ t.toInt ≤ 2 ^ 62

instance (t : Int64) : Decidable (Moderate t) :=
  inferInstanceAs (Decidable (_ ∧ _))

/-- The timestamps of a blob that the launch compares with the clock. -/
structure ModerateBlob (j : Json) : Prop where
  anchor : Moderate (storedAnchor j)
  trialStart : Moderate (storedStart j)
  expiresAt : ∀ l, Lease.fromJson (j.get (ascii "lease")) = .ok l → Moderate l.expiresAt

/-- The anchor is not ahead of the clock beyond the tolerance and, where the tenant bounds
the time offline, it is there and recent enough. -/
def AnchorOk (X : Site) (j : Json) (now : Int64) : Prop :=
  (storedAnchor j).toInt - now.toInt ≤ 3600 ∧
    (0 < X.cfg.maxOfflineDays.toInt → storedAnchor j ≠ 0 ∧
      now.toInt - (storedAnchor j).toInt ≤ 86400 * X.cfg.maxOfflineDays.toInt)

theorem decodeStore_eq (blob : Bytes) : decodeStore blob = (Json.parse blob).toOption := by
  by_cases h : blob = []
  · rw [h]
    rfl
  · rw [decodeStore, if_neg h]

/-- The size check before the decoder turns nothing away that the decoder accepts. -/
theorem leaseOf_eq (j : Json) : leaseOf j = (Lease.fromJson (j.get (ascii "lease"))).toOption := by
  unfold leaseOf
  split
  · rfl
  · rename_i hsize
    cases hl : Lease.fromJson (j.get (ascii "lease")) with
    | error e => rfl
    | ok l =>
      have hkid := (Lease.accepted_of_fromJson hl).1
      generalize j.get (ascii "lease") = v at hl hsize
      have hv : (v.get (ascii "kid")).asString ≠ [] := by
        simp only [Lease.fromJson] at hl
        split at hl
        · cases hl
        · cases hl
          exact hkid
      cases v with
      | object keys map =>
        cases map with
        | nil => exact absurd rfl hv
        | cons m map => simp [JValue.size] at hsize
      | _ => exact absurd rfl hv

theorem loadCache_lease (j : Json) :
    (loadCache j {}).lease = (Lease.fromJson (j.get (ascii "lease"))).toOption := by
  rw [← leaseOf_eq]
  exact Option.or_none

theorem loadCache_anchor (j : Json) : (loadCache j {}).lastValidatedOnline = storedAnchor j :=
  nonZero_getD _

theorem loadCache_trialStart (j : Json) :
    (loadCache j {}).trialStart = if storedStart j = 0 then none else some (storedStart j) :=
  Option.or_none

theorem loadCache_days (X : Site) (j : Json) :
    (loadCache j {}).serverTrialDays.getD X.cfg.trialDurationDays = storedDays X j := by
  simp only [loadCache, storedDays]
  split <;> rfl

/-- A window of days in seconds never leaves the int64 range. -/
theorem offlineSecs_toInt (days : Int32) : (days.toInt64 * 86400).toInt = 86400 * days.toInt := by
  have h₁ := days.le_toInt
  have h₂ := days.toInt_lt
  have hday : (86400 : Int64).toInt = 86400 := rfl
  rw [Int64.toInt_mul, Int32.toInt_toInt64, hday, Int.mul_comm]
  apply Int.bmod_eq_of_le
  · omega
  · omega

section Clock
variable {now : Int64} (hnow : 0 ≤ now.toInt ∧ now.toInt ≤ 2 ^ 40)
include hnow

theorem spans_of_moderate {t : Int64} (ht : Moderate t) : Spans t now ∧ Spans now t := by
  obtain ⟨h₁, h₂⟩ := ht
  constructor
  · constructor <;> omega
  · constructor <;> omega

theorem clockRolledBack_iff {t : Int64} (ht : Moderate t) :
    clockRolledBack t now = true ↔ 3600 < t.toInt - now.toInt := by
  have hsub := toInt_sub_of_spans (spans_of_moderate hnow ht).2
  have htol : clockBackwardTolerance.toInt = 3600 := by decide
  rw [clockRolledBack, decide_eq_true_eq, gt_iff_lt, Int64.lt_iff_toInt_lt, hsub, htol]

omit hnow in
/-- For moderate times the test is the comparison of integers. -/
theorem expiredAt_iff (X : Site) {l : Lease} (hl : Moderate l.expiresAt) :
    expiredAt X l now = true ↔ l.expiresAt.toInt + 300 < now.toInt := by
  have hadd : (l.expiresAt + 300).toInt = l.expiresAt.toInt + 300 := by
    obtain ⟨h₁, h₂⟩ := hl
    have h300 : (300 : Int64).toInt = 300 := by decide
    rw [Int64.toInt_add, h300]
    apply Int.bmod_eq_of_le
    · omega
    · omega
  have hskew : (300 : Int32).toInt64 = 300 := by decide
  rw [expiredAt, Site.verify, Verifier.expired_verify, decide_eq_true_eq, gt_iff_lt,
    Int64.lt_iff_toInt_lt]
  change (l.expiresAt + (300 : Int32).toInt64).toInt < _ ↔ _
  rw [hskew, hadd]

theorem beyondOfflineBound_iff_stored (X : Site) {a : Int64} (ha : Moderate a) :
    Client.beyondOfflineBound X a now = true ↔ a = 0 ∨ 3600 < a.toInt - now.toInt ∨
      86400 * X.cfg.maxOfflineDays.toInt < now.toInt - a.toInt := by
  have hsub := toInt_sub_of_spans (spans_of_moderate hnow ha).1
  have hmul := offlineSecs_toInt X.cfg.maxOfflineDays
  simp only [Client.beyondOfflineBound, Bool.or_eq_true, decide_eq_true_eq, gt_iff_lt,
    clockRolledBack_iff hnow ha, Int64.lt_iff_toInt_lt, hsub, hmul, or_assoc]

/-- The clock guard and the offline bound, as one condition on the stored anchor. -/
theorem anchorOk_iff (X : Site) {j : Json} (ha : Moderate (storedAnchor j)) :
    ((storedAnchor j ≠ 0 && clockRolledBack (storedAnchor j) now) = false ∧
      (X.cfg.maxOfflineDays > 0 → beyondOfflineBound X (storedAnchor j) now = false)) ↔
      AnchorOk X j now := by
  have hzero : storedAnchor j = 0 ↔ (storedAnchor j).toInt = 0 := by
    rw [← Int64.toInt_inj, Int64.toInt_zero]
  have hdays : X.cfg.maxOfflineDays > 0 ↔ 0 < X.cfg.maxOfflineDays.toInt := by
    rw [gt_iff_lt, Int32.lt_iff_toInt_lt, Int32.toInt_zero]
  rw [AnchorOk, ← Bool.not_eq_true, ← Bool.not_eq_true, Bool.and_eq_true, decide_eq_true_eq,
    clockRolledBack_iff hnow ha, beyondOfflineBound_iff_stored hnow X ha, hdays, ne_eq, hzero]
  constructor
  · intro ⟨hguard, hbound⟩
    constructor
    · omega
    · intro hd
      have hb := hbound hd
      constructor
      · exact fun hz => hb (.inl hz)
      · omega
  · intro ⟨hguard, hbound⟩
    constructor
    · omega
    · intro hd
      have hb := hbound hd
      omega

end Clock

/-- A lease licenses when it is trusted, active and unexpired. -/
theorem leaseState_licensed_iff {X : Site} {l : Lease} {t : Int64} :
    leaseState X l t = .licensed ↔
      X.trusts l = true ∧ l.status = ascii "active" ∧ expiredAt X l t = false := by
  cases htrust : X.trusts l with
  | false => simp [leaseState_untrusted htrust]
  | true =>
    rw [leaseState_eq X htrust]
    by_cases ha : l.status = ascii "active"
    · cases expiredAt X l t <;> simp [ha]
    · rw [if_neg ha]
      constructor
      · intro h
        split at h <;> cases h
      · intro h
        exact absurd h.2.1 ha

theorem leaseState_limited_iff {X : Site} {l : Lease} {t : Int64} :
    leaseState X l t = .limited ↔ X.trusts l = true ∧ l.status = ascii "fallback" := by
  cases htrust : X.trusts l with
  | false => simp [leaseState_untrusted htrust]
  | true =>
    have hne : ascii "active" ≠ ascii "fallback" := by decide
    rw [leaseState_eq X htrust]
    by_cases ha : l.status = ascii "active"
    · cases expiredAt X l t <;> simp [ha, hne]
    · by_cases hf : l.status = ascii "fallback" <;> simp [ha, hf, hne.symm]

namespace Client
variable (X : Site)

/-- The trial changes no paid state, and makes none. -/
theorem resolvedAt_paid_iff (c : Cache) (s : State) (t : Int64) {p : State} (hp : p.paid = true) :
    resolvedAt X c s t = p ↔ s = p := by
  by_cases hs : s = .invalid
  · have hunpaid := resolvedAt_unpaid X c t
    constructor
    · intro h
      rw [hs] at h
      rw [h, hp] at hunpaid
      cases hunpaid
    · intro h
      rw [hs] at h
      rw [← h] at hp
      cases hp
  · rw [resolvedAt_paid X c hs]

/-- The offline bound keeps a paid state or drops it. -/
theorem boundedAt_paid_iff (s : State) (anchor t : Int64) {p : State} (hp : p.paid = true) :
    boundedAt X s anchor t = p ↔
      s = p ∧ (X.cfg.maxOfflineDays > 0 → beyondOfflineBound X anchor t = false) := by
  have hexpired : State.expired ≠ p := by
    intro h
    rw [← h] at hp
    cases hp
  have hinvalid : State.invalid ≠ p := by
    intro h
    rw [← h] at hp
    cases hp
  by_cases hd : X.cfg.maxOfflineDays > 0
  · by_cases hs : s = .invalid
    · simp [boundedAt, hs, hinvalid]
    · cases hb : beyondOfflineBound X anchor t <;> simp [boundedAt, hs, hd, hb, hexpired]
  · simp [boundedAt, hd]

/-- A query answers anything but Invalid only within the clock guard. -/
theorem stateAt_iff {c : Client} {t : Int64} {p : State} (hp : p ≠ .invalid) :
    c.stateAt t = p ↔ c.untrustedAt t = false ∧ c.rawState = p := by
  cases hu : c.untrustedAt t with
  | false => simp [stateAt, hu]
  | true => simp [stateAt, hu, hp.symm]

/-- A client built from a decoded blob is in a paid state exactly when its lease stands for it
and the anchor is in order. -/
theorem launched_paid_iff {c : Client} {j : Json} {now : Int64}
    (hcore : (⟨c.cache, c.rawState, c.anchor⟩ : Core) = launchedCore X j now now now)
    (hnow : 0 ≤ now.toInt ∧ now.toInt ≤ 2 ^ 40) (ha : Moderate (storedAnchor j))
    {p : State} (hp : p.paid = true) :
    c.stateAt now = p ↔ (∃ l, Lease.fromJson (j.get (ascii "lease")) = .ok l ∧
      leaseState X l now = p) ∧ AnchorOk X j now := by
  have hanchor : c.anchor = storedAnchor j :=
    (congrArg Core.anchor hcore).trans (nonZero_getD _)
  have hraw : c.rawState = resolvedAt X (loadCache j {})
      (boundedAt X (storedPaid X (leaseOf j) now) (storedAnchor j) now) now := by
    rw [← loadCache_anchor]
    exact congrArg Core.rawState hcore
  have hstored : storedPaid X (leaseOf j) now = p ↔
      ∃ l, Lease.fromJson (j.get (ascii "lease")) = .ok l ∧ leaseState X l now = p := by
    rw [leaseOf_eq]
    cases Lease.fromJson (j.get (ascii "lease")) with
    | ok l => simp [storedPaid, Except.toOption]
    | error e =>
      have hne := State.paid_ne_invalid hp
      simp [storedPaid, Except.toOption, hne.symm]
  rw [stateAt_iff (State.paid_ne_invalid hp), hraw, resolvedAt_paid_iff X _ _ _ hp,
    boundedAt_paid_iff X _ _ _ hp, hstored, untrustedAt, hanchor, ← anchorOk_iff hnow X ha]
  tauto

/-- It is on trial only while a stored start is inside a positive trial length. -/
theorem launched_trial {c : Client} {j : Json} {now : Int64}
    (hcore : (⟨c.cache, c.rawState, c.anchor⟩ : Core) = launchedCore X j now now now)
    (hnow : 0 ≤ now.toInt ∧ now.toInt ≤ 2 ^ 40) (hs : Moderate (storedStart j))
    (h : c.stateAt now = .trial) :
    storedStart j ≠ 0 ∧ 0 < (storedDays X j).toInt ∧
      now.toInt < (storedStart j).toInt + 86400 * (storedDays X j).toInt := by
  have hraw : resolvedAt X (loadCache j {}) (boundedAt X (storedPaid X (leaseOf j) now)
      (loadCache j {}).lastValidatedOnline now) now = .trial := by
    rw [← ((stateAt_iff (by decide)).mp h).2]
    exact (congrArg Core.rawState hcore).symm
  have hpaid : boundedAt X (storedPaid X (leaseOf j) now) (loadCache j {}).lastValidatedOnline
      now ≠ .trial := by
    have hstored : storedPaid X (leaseOf j) now ≠ .trial := by
      cases leaseOf j with
      | none => simp [storedPaid]
      | some l => exact leaseState_ne_trial X l now
    unfold boundedAt
    split
    · split
      · decide
      · exact hstored
    · exact hstored
  have hactive : trialStatusAt X (loadCache j {}) now = .active := by
    by_contra hno
    exact resolvedAt_ne_trial X hpaid (fun _ => hno) hraw
  simp only [trialStatusAt, loadCache_days, loadCache_trialStart] at hactive
  split at hactive
  · cases hactive
  · rename_i hdays
    have hpos : 0 < storedDays X j := Int32.not_le.mp hdays
    have hdays' : 0 < (storedDays X j).toInt := by
      rwa [Int32.lt_iff_toInt_lt, Int32.toInt_zero] at hpos
    by_cases hz : storedStart j = 0
    · simp [hz] at hactive
    · simp only [hz, if_false] at hactive
      split at hactive
      · rename_i hleft
        have hspan := (spans_of_moderate hnow hs).1
        exact ⟨hz, hdays', (daysLeft_pos hspan hpos).mp hleft⟩
      · cases hactive

end Client

/-- What the decoded bytes must hold for a lease to count. -/
def TrustedLease (X : Site) (store : Bytes) (j : Json) (l : Lease) : Prop :=
  Json.parse store = .ok j ∧ Lease.fromJson (j.get (ascii "lease")) = .ok l ∧ X.trusts l = true

open Client in
/-- The state after a launch, case by case, from the bytes of the store. -/
theorem launch_exact (X : Site) (E : Env) (w : World) (now : Int64)
    (hnow : 0 ≤ now.toInt ∧ now.toInt ≤ 2 ^ 40) (hclock : ∀ i, E.now i = now)
    (hload : ∀ i, E.load i = none)
    (hstamps : ∀ j, Json.parse w.store = .ok j → ModerateBlob j) :
    let c := ((construct X E).run w).2.client
    (c.stateAt now = .licensed ↔ ∃ j l, TrustedLease X w.store j l ∧
      l.status = ascii "active" ∧ now.toInt ≤ l.expiresAt.toInt + 300 ∧ AnchorOk X j now) ∧
    (c.stateAt now = .limited ↔ ∃ j l, TrustedLease X w.store j l ∧
      l.status = ascii "fallback" ∧ AnchorOk X j now) ∧
    (c.stateAt now = .trial → ∃ j, Json.parse w.store = .ok j ∧ storedStart j ≠ 0 ∧
      0 < (storedDays X j).toInt ∧
      now.toInt < (storedStart j).toInt + 86400 * (storedDays X j).toInt) ∧
    (∀ f, c.entitledAt X f now = true → ∃ j l, TrustedLease X w.store j l ∧
      now.toInt ≤ l.expiresAt.toInt + 300 ∧ f ∈ l.entitlements) := by
  intro c
  obtain ⟨i, k, n, hcore⟩ := construct_core X E w
  rw [hclock, hclock, hclock, loadedJson, hload, decodeStore_eq] at hcore
  cases hj : Json.parse w.store with
  | error e =>
    rw [hj] at hcore
    have hlease : c.cache.lease = none := by
      have h := congrArg (fun k : Core => k.cache.lease) hcore
      exact h
    have hraw : c.rawState = .invalid := congrArg Core.rawState hcore
    have hstate : c.stateAt now = .invalid := by
      unfold stateAt
      split
      · rfl
      · exact hraw
    refine ⟨?_, ?_, ?_, ?_⟩
    · simp [hstate, TrustedLease, hj]
    · simp [hstate, TrustedLease, hj]
    · simp [hstate]
    · intro f hf
      obtain ⟨_, l, hl, _⟩ := entitled_iff.mp hf
      rw [hlease] at hl
      cases hl
  | ok j =>
    rw [hj] at hcore
    have hblob := hstamps j hj
    have hexpiry : ∀ l, Lease.fromJson (j.get (ascii "lease")) = .ok l →
        (expiredAt X l now = false ↔ now.toInt ≤ l.expiresAt.toInt + 300) := by
      intro l hl
      rw [← Bool.not_eq_true, expiredAt_iff X (hblob.expiresAt l hl)]
      omega
    refine ⟨?_, ?_, ?_, ?_⟩
    · rw [launched_paid_iff X hcore hnow hblob.anchor rfl]
      constructor
      · rintro ⟨⟨l, hl, hstate⟩, hanchor⟩
        obtain ⟨htrust, hactive, hexp⟩ := leaseState_licensed_iff.mp hstate
        exact ⟨j, l, ⟨hj, hl, htrust⟩, hactive, (hexpiry l hl).mp hexp, hanchor⟩
      · rintro ⟨j', l, ⟨hj', hl, htrust⟩, hactive, hexp, hanchor⟩
        obtain rfl : j = j' := Except.ok.inj (hj.symm.trans hj')
        exact ⟨⟨l, hl, leaseState_licensed_iff.mpr ⟨htrust, hactive, (hexpiry l hl).mpr hexp⟩⟩,
          hanchor⟩
    · rw [launched_paid_iff X hcore hnow hblob.anchor rfl]
      constructor
      · rintro ⟨⟨l, hl, hstate⟩, hanchor⟩
        obtain ⟨htrust, hfallback⟩ := leaseState_limited_iff.mp hstate
        exact ⟨j, l, ⟨hj, hl, htrust⟩, hfallback, hanchor⟩
      · rintro ⟨j', l, ⟨hj', hl, htrust⟩, hfallback, hanchor⟩
        obtain rfl : j = j' := Except.ok.inj (hj.symm.trans hj')
        exact ⟨⟨l, hl, leaseState_limited_iff.mpr ⟨htrust, hfallback⟩⟩, hanchor⟩
    · intro h
      exact ⟨j, rfl, launched_trial X hcore hnow hblob.trialStart h⟩
    · intro f hf
      obtain ⟨_, l, hl, htrust, hexp, _, hmem⟩ := entitled_iff.mp hf
      have hcache : c.cache.lease = (Lease.fromJson (j.get (ascii "lease"))).toOption := by
        rw [← loadCache_lease]
        exact congrArg (fun k : Core => k.cache.lease) hcore
      rw [hl] at hcache
      have hfrom : Lease.fromJson (j.get (ascii "lease")) = .ok l := by
        cases hv : Lease.fromJson (j.get (ascii "lease")) with
        | error e =>
          rw [hv] at hcache
          cases hcache
        | ok l' =>
          rw [hv] at hcache
          cases hcache
          rfl
      exact ⟨j, l, ⟨hj, hfrom, htrust⟩, (hexpiry l hfrom).mp hexp, hmem⟩

theorem vectorStore_start : (decodeStore vectorStore).map storedStart = some 0 := by
  decide +kernel

theorem vectorLease_trusted : vectorSite.trusts vectorLease = true := by decide +kernel

/-- A launch a minute after the lease was issued finds everything in order. -/
theorem launch_exact_vector : ((Client.construct vectorSite (offlineAt 1781076300)).run
    { store := vectorStore }).2.client.stateAt 1781076300 = .licensed := by
  have hsome : (decodeStore vectorStore).isSome = true := by decide +kernel
  obtain ⟨j, hj⟩ := Option.isSome_iff_exists.mp hsome
  have hlease := vectorStore_lease
  have hanchor := vectorStore_anchor
  have hstart := vectorStore_start
  rw [hj] at hlease hanchor hstart
  rw [Option.bind_some, leaseOf_eq] at hlease
  rw [Option.map_some, loadCache_anchor, Option.some.injEq] at hanchor
  rw [Option.map_some, Option.some.injEq] at hstart
  have hfrom : Lease.fromJson (j.get (ascii "lease")) = .ok vectorLease := by
    cases hv : Lease.fromJson (j.get (ascii "lease")) with
    | error e =>
      rw [hv] at hlease
      cases hlease
    | ok l =>
      rw [hv] at hlease
      rw [Option.some.inj hlease]
  rw [decodeStore_eq] at hj
  have hparse : Json.parse vectorStore = .ok j := by
    cases hv : Json.parse vectorStore with
    | error e =>
      rw [hv] at hj
      cases hj
    | ok j' =>
      rw [hv] at hj
      rw [Option.some.inj hj]
  have hblob : ∀ j', Json.parse vectorStore = .ok j' → ModerateBlob j' := by
    intro j' hj'
    obtain rfl : j = j' := Except.ok.inj (hparse.symm.trans hj')
    constructor
    · rw [hanchor]
      decide
    · rw [hstart]
      decide
    · intro l hl
      rw [← Except.ok.inj (hfrom.symm.trans hl)]
      decide
  have h := launch_exact vectorSite (offlineAt 1781076300) { store := vectorStore } 1781076300
    (by decide) (fun _ => rfl) (fun _ => rfl) hblob
  refine h.1.mpr ⟨j, vectorLease, ⟨hparse, hfrom, vectorLease_trusted⟩, rfl, by decide, ?_⟩
  rw [AnchorOk, hanchor]
  decide

end Keylight
