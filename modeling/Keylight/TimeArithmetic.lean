import Keylight.Debounce
import Keylight.Launch

/-!
# Times as integers

Timestamps of a reply or of the store are any int64. Each test that compares
one with the clock takes a sum or a difference first; where that leaves the
int64 range the test need not say what it says of the integers. The bounds are
exact, for a clock in `[0, 2 ^ 40]`.
-/
namespace Keylight
open Client

/-- A value of the int64 range. -/
def Fits (z : Int) : Prop := -2 ^ 63 ≤ z ∧ z < 2 ^ 63

theorem toInt_sub_of_fits {a b : Int64} (h : Fits (a.toInt - b.toInt)) :
    (a - b).toInt = a.toInt - b.toInt := toInt_sub_of_spans h

theorem toInt_add_of_fits {a b : Int64} (h : Fits (a.toInt + b.toInt)) :
    (a + b).toInt = a.toInt + b.toInt := by
  obtain ⟨h₁, h₂⟩ := h
  rw [Int64.toInt_add]
  apply Int.bmod_eq_of_le
  · omega
  · omega

/-- The time tests at a clock reading: no sum or difference that is taken overflows, and each test
says what it says of the integers. -/
structure TimeExact (X : Site) (now : Int64) (lease : Lease) (anchor start ping : Int64)
    (days : Int32) (wire : List UInt8) (issuedAt expiresAt : Int64) : Prop where
  /-- `now > lease.expiresAt + skewSeconds_` -/
  expired : Fits (lease.expiresAt.toInt + 300) ∧
    (expiredAt X lease now = true ↔ lease.expiresAt.toInt + 300 < now.toInt)
  /-- `(cached_lease_->expiresAt - now) < NEAR_EXPIRY_SECS` -/
  near : Fits (lease.expiresAt.toInt - now.toInt) ∧
    (nearExpiry now { lease := some lease } = true ↔ lease.expiresAt.toInt - now.toInt < 86400)
  /-- `clock_rolled_back` -/
  rollback : Fits (anchor.toInt - now.toInt) ∧
    (clockRolledBack anchor now = true ↔ 3600 < anchor.toInt - now.toInt)
  /-- `anchor == 0 || clock_rolled_back(anchor, now) || (now - anchor) > max_age` -/
  offline : (anchor ≠ 0 → ¬3600 < anchor.toInt - now.toInt → Fits (now.toInt - anchor.toInt)) ∧
    (beyondOfflineBound X anchor now = true ↔ anchor = 0 ∨ 3600 < anchor.toInt - now.toInt ∨
      86400 * X.cfg.maxOfflineDays.toInt < now.toInt - anchor.toInt)
  /-- `has_lvo && (now - last_lvo) < REFRESH_DEBOUNCE`, `(now - last_lvo) >= REFRESH_STALE` -/
  ages : 0 < anchor → Fits (now.toInt - anchor.toInt) ∧
    (now - anchor < refreshDebounce ↔ now.toInt - anchor.toInt < 300) ∧
    (now - anchor ≥ refreshStale ↔ 21600 ≤ now.toInt - anchor.toInt)
  /-- `days_left_from_` -/
  trial : Fits (now.toInt - start.toInt) ∧
    Fits (days.toInt - max 0 (now.toInt - start.toInt) / 86400) ∧
    (daysLeft now start days).toInt = days.toInt - max 0 (now.toInt - start.toInt) / 86400
  /-- `cached_last_keyless_ping_at_ != 0 && (now_fn_() - cached_last_keyless_ping_at_) < 86400` -/
  keyless : (ping ≠ 0 → Fits (now.toInt - ping.toInt)) ∧
    (Debounced { lastKeylessPingAt := ping, keylessLastState := some wire } wire now ↔
      ping ≠ 0 ∧ now.toInt - ping.toInt < 86400)
  /-- `now - skew > expires_at`, `now + skew < issued_at` -/
  window : Fits (now.toInt - 300) ∧ Fits (now.toInt + 300) ∧
    (now - 300 > expiresAt ↔ expiresAt.toInt < now.toInt - 300) ∧
    (now + 300 < issuedAt ↔ now.toInt + 300 < issuedAt.toInt)

theorem toInt_300 : (300 : Int64).toInt = 300 := by decide

/-- The expiry test is exact up to where its sum wraps. -/
theorem expired_exact (X : Site) (now : Int64) (l : Lease) :
    (Fits (l.expiresAt.toInt + 300) ∧
      (expiredAt X l now = true ↔ l.expiresAt.toInt + 300 < now.toInt)) ↔
    l.expiresAt.toInt ≤ 2 ^ 63 - 301 := by
  have hlow := l.expiresAt.le_toInt
  constructor
  · rintro ⟨⟨-, h⟩, -⟩
    omega
  · intro h
    have hfits : Fits (l.expiresAt.toInt + 300) := ⟨by omega, by omega⟩
    refine ⟨hfits, ?_⟩
    rw [← toInt_300] at hfits
    rw [expiredAt, Site.verify, Verifier.expired_verify, decide_eq_true_eq, gt_iff_lt,
      Int64.lt_iff_toInt_lt]
    change (l.expiresAt + 300).toInt < _ ↔ _
    rw [toInt_add_of_fits hfits, toInt_300]

section Clock
variable {now : Int64} (hnow : 0 ≤ now.toInt ∧ now.toInt ≤ 2 ^ 40)
include hnow

/-- A timestamp minus the clock can only overflow downwards. -/
theorem fits_ahead (t : Int64) : Fits (t.toInt - now.toInt) ↔ now.toInt - 2 ^ 63 ≤ t.toInt := by
  have hhigh := t.toInt_lt
  constructor
  · rintro ⟨h, -⟩
    omega
  · intro h
    exact ⟨by omega, by omega⟩

/-- The clock minus a timestamp can only overflow upwards. -/
theorem fits_age (t : Int64) : Fits (now.toInt - t.toInt) ↔ now.toInt - 2 ^ 63 < t.toInt := by
  have hhigh := t.toInt_lt
  constructor
  · rintro ⟨-, h⟩
    omega
  · intro h
    exact ⟨by omega, by omega⟩

theorem near_exact (l : Lease) :
    (Fits (l.expiresAt.toInt - now.toInt) ∧ (nearExpiry now { lease := some l } = true ↔
      l.expiresAt.toInt - now.toInt < 86400)) ↔ now.toInt - 2 ^ 63 ≤ l.expiresAt.toInt := by
  rw [← fits_ahead hnow]
  refine and_iff_left_of_imp fun hfits => ?_
  have hday : nearExpirySecs.toInt = 86400 := by decide
  rw [nearExpiry, decide_eq_true_eq, Int64.lt_iff_toInt_lt, toInt_sub_of_fits hfits, hday]

theorem rollback_exact (last : Int64) :
    (Fits (last.toInt - now.toInt) ∧
      (clockRolledBack last now = true ↔ 3600 < last.toInt - now.toInt)) ↔
    now.toInt - 2 ^ 63 ≤ last.toInt := by
  rw [← fits_ahead hnow]
  refine and_iff_left_of_imp fun hfits => ?_
  have htol : clockBackwardTolerance.toInt = 3600 := by decide
  rw [clockRolledBack, decide_eq_true_eq, gt_iff_lt, Int64.lt_iff_toInt_lt,
    toInt_sub_of_fits hfits, htol]

/-- The offline test is exact where its difference fits. -/
theorem offline_exact (X : Site) (anchor : Int64) :
    ((anchor ≠ 0 → ¬3600 < anchor.toInt - now.toInt → Fits (now.toInt - anchor.toInt)) ∧
      (beyondOfflineBound X anchor now = true ↔ anchor = 0 ∨ 3600 < anchor.toInt - now.toInt ∨
        86400 * X.cfg.maxOfflineDays.toInt < now.toInt - anchor.toInt)) ↔
    now.toInt - 2 ^ 63 < anchor.toInt := by
  have hage := fits_age hnow anchor
  constructor
  · rintro ⟨hfits, -⟩
    by_cases hzero : anchor = 0
    · rw [hzero, Int64.toInt_zero]
      omega
    · by_cases hahead : 3600 < anchor.toInt - now.toInt
      · omega
      · exact hage.mp (hfits hzero hahead)
  · intro h
    have hfits := hage.mpr h
    refine ⟨fun _ _ => hfits, ?_⟩
    have hback := ((rollback_exact hnow anchor).mpr h.le).2
    rw [beyondOfflineBound, Bool.or_eq_true, Bool.or_eq_true, decide_eq_true_eq, hback,
      decide_eq_true_eq, gt_iff_lt, Int64.lt_iff_toInt_lt, offlineSecs_toInt,
      toInt_sub_of_fits hfits, or_assoc]

theorem ages_exact {anchor : Int64} (h : 0 < anchor) : Fits (now.toInt - anchor.toInt) ∧
    (now - anchor < refreshDebounce ↔ now.toInt - anchor.toInt < 300) ∧
    (now - anchor ≥ refreshStale ↔ 21600 ≤ now.toInt - anchor.toInt) := by
  rw [Int64.lt_iff_toInt_lt, Int64.toInt_zero] at h
  have hfits : Fits (now.toInt - anchor.toInt) := (fits_age hnow anchor).mpr (by omega)
  have hdebounce : refreshDebounce.toInt = 300 := by decide
  have hstale : refreshStale.toInt = 21600 := by decide
  rw [Int64.lt_iff_toInt_lt, ge_iff_le, Int64.le_iff_toInt_le, toInt_sub_of_fits hfits, hdebounce,
    hstale]
  exact ⟨hfits, Iff.rfl, Iff.rfl⟩

/-- The days left are exact where both differences fit. -/
theorem trial_exact (start : Int64) (days : Int32) :
    (Fits (now.toInt - start.toInt) ∧
      Fits (days.toInt - max 0 (now.toInt - start.toInt) / 86400) ∧
      (daysLeft now start days).toInt =
        days.toInt - max 0 (now.toInt - start.toInt) / 86400) ↔
    now.toInt - 2 ^ 63 < start.toInt := by
  rw [← fits_age hnow]
  refine and_iff_left_of_imp fun hfits => ?_
  have hdays₁ := days.le_toInt
  have hdays₂ := days.toInt_lt
  obtain ⟨h₁, h₂⟩ := hfits
  refine ⟨⟨by omega, by omega⟩, ?_⟩
  rw [toInt_daysLeft, toInt_sub_of_fits ⟨h₁, h₂⟩]

/-- The debounce is exact where its difference fits. -/
theorem keyless_exact (ping : Int64) (wire : List UInt8) :
    ((ping ≠ 0 → Fits (now.toInt - ping.toInt)) ∧
      (Debounced { lastKeylessPingAt := ping, keylessLastState := some wire } wire now ↔
        ping ≠ 0 ∧ now.toInt - ping.toInt < 86400)) ↔
    now.toInt - 2 ^ 63 < ping.toInt := by
  have hage := fits_age hnow ping
  constructor
  · rintro ⟨hfits, -⟩
    by_cases hzero : ping = 0
    · rw [hzero, Int64.toInt_zero]
      omega
    · exact hage.mp (hfits hzero)
  · intro h
    have hfits := hage.mpr h
    have hday : (86400 : Int64).toInt = 86400 := rfl
    refine ⟨fun _ => hfits, ?_⟩
    simp only [Debounced, true_and, Int64.lt_iff_toInt_lt, toInt_sub_of_fits hfits, hday]

theorem window_exact (issuedAt expiresAt : Int64) :
    Fits (now.toInt - 300) ∧ Fits (now.toInt + 300) ∧
    (now - 300 > expiresAt ↔ expiresAt.toInt < now.toInt - 300) ∧
    (now + 300 < issuedAt ↔ now.toInt + 300 < issuedAt.toInt) := by
  have hsub : Fits (now.toInt - 300) := ⟨by omega, by omega⟩
  have hadd : Fits (now.toInt + 300) := ⟨by omega, by omega⟩
  refine ⟨hsub, hadd, ?_, ?_⟩
  · rw [← toInt_300] at hsub
    rw [gt_iff_lt, Int64.lt_iff_toInt_lt, toInt_sub_of_fits hsub, toInt_300]
  · rw [← toInt_300] at hadd
    rw [Int64.lt_iff_toInt_lt, toInt_add_of_fits hadd, toInt_300]

/-- Every test is exact just where no timestamp reaches the ends of the int64 range: the expiry
stays a skew below its top, and everything stays within `2 ^ 63` seconds of the clock. -/
theorem time_exact (X : Site) (l : Lease) (anchor start ping : Int64) (days : Int32)
    (wire : List UInt8) (issuedAt expiresAt : Int64) :
    TimeExact X now l anchor start ping days wire issuedAt expiresAt ↔
      l.expiresAt.toInt ≤ 2 ^ 63 - 301 ∧ now.toInt - 2 ^ 63 ≤ l.expiresAt.toInt ∧
      now.toInt - 2 ^ 63 < anchor.toInt ∧ now.toInt - 2 ^ 63 < start.toInt ∧
      now.toInt - 2 ^ 63 < ping.toInt := by
  constructor
  · intro h
    exact ⟨(expired_exact X now l).mp h.expired, (near_exact hnow l).mp h.near,
      (offline_exact hnow X anchor).mp h.offline, (trial_exact hnow start days).mp h.trial,
      (keyless_exact hnow ping wire).mp h.keyless⟩
  · rintro ⟨hexpired, hnear, hanchor, hstart, hping⟩
    exact {
      expired := (expired_exact X now l).mpr hexpired
      near := (near_exact hnow l).mpr hnear
      rollback := (rollback_exact hnow anchor).mpr hanchor.le
      offline := (offline_exact hnow X anchor).mpr hanchor
      ages := fun hpos => ages_exact hnow hpos
      trial := (trial_exact hnow start days).mpr hstart
      keyless := (keyless_exact hnow ping wire).mpr hping
      window := window_exact hnow issuedAt expiresAt }

end Clock

/-- The vector's lease with another expiry. -/
def leaseUntil (t : Int64) : Lease := { vectorLease with expiresAt := t }

/-- A lease that never expires has expired: the skew takes `INT64_MAX` past the top. -/
theorem expiry_overflows : ¬∀ (X : Site) (now : Int64), 0 ≤ now.toInt ∧ now.toInt ≤ 2 ^ 40 →
    ∀ (l : Lease) (anchor start ping : Int64) (days : Int32) (wire : List UInt8)
      (issuedAt expiresAt : Int64),
    TimeExact X now l anchor start ping days wire issuedAt expiresAt := by
  intro h
  have hexact := (h vectorSite 1781076256 (by decide) (leaseUntil Int64.maxValue) 0 0 0 0 [] 0
    0).expired
  have htop : (leaseUntil Int64.maxValue).expiresAt.toInt = 2 ^ 63 - 1 := by decide
  rw [expired_exact, htop] at hexact
  omega

/-- The times of a licence validated a minute ago. -/
theorem time_exact_vector :
    TimeExact vectorSite 1781076316 (leaseUntil 1781680000) 1781076256 1781076256 1781076256 14
      [] 0 0 := by
  refine (time_exact (by decide) vectorSite _ _ _ _ _ _ _ _).mpr ?_
  decide

end Keylight
