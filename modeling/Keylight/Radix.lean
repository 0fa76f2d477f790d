import Keylight.Checked
import Mathlib.Algebra.BigOperators.Intervals
import Mathlib.Algebra.BigOperators.Ring.Finset
import Mathlib.Tactic.Ring

/-!
# Digit vectors

Numbers as vectors of signed digits, least significant first. Digits are read
and written one at a time; what a write does to the value is one difference
times a power of the base.
-/
namespace Radix
open Finset Checked

variable {n : Nat} {b : Int}

def digit (v : Vector Int n) (i : Nat) : Int := v[i]?.getD 0

def setDigit (v : Vector Int n) (i : Nat) (x : Int) : Vector Int n := v.setIfInBounds i x

def zero (n : Nat) : Vector Int n := Vector.replicate n 0

@[simp] theorem digit_zero (i : Nat) : digit (zero n) i = 0 := by
  rw [digit, zero, Vector.getElem?_replicate]
  split <;> rfl

theorem digit_of_le (v : Vector Int n) {i : Nat} (h : n ≤ i) : digit v i = 0 := by
  rw [digit, Vector.getElem?_eq_none h, Option.getD_none]

theorem digit_setDigit (v : Vector Int n) {i : Nat} (h : i < n) (x : Int) (j : Nat) :
    digit (setDigit v i x) j = if i = j then x else digit v j := by
  rw [digit, setDigit, Vector.getElem?_setIfInBounds, digit]
  split
  case isTrue hij =>
    subst hij
    simp
  case isFalse => rfl

@[simp] theorem digit_setDigit_same (v : Vector Int n) {i : Nat} (h : i < n) (x : Int) :
    digit (setDigit v i x) i = x := by
  rw [digit_setDigit v h, if_pos rfl]

theorem digit_setDigit_of_ne (v : Vector Int n) {i j : Nat} (h : i ≠ j) (x : Int) :
    digit (setDigit v i x) j = digit v j := by
  rw [digit, setDigit, Vector.getElem?_setIfInBounds_ne h, digit]

theorem ext {v w : Vector Int n} (h : ∀ i < n, digit v i = digit w i) : v = w := by
  apply Vector.ext
  intro i hi
  have hdigit := h i hi
  rwa [digit, digit, Vector.getElem?_eq_getElem hi, Vector.getElem?_eq_getElem hi,
    Option.getD_some, Option.getD_some] at hdigit

/-- The value of the digits below `k`. -/
def below (b : Int) (f : Nat → Int) (k : Nat) : Int := ∑ i ∈ range k, f i * b ^ i

def value (b : Int) (v : Vector Int n) : Int := below b (digit v) n

@[simp] theorem below_zero (f : Nat → Int) : below b f 0 = 0 := sum_range_zero _

theorem below_succ (f : Nat → Int) (k : Nat) :
    below b f (k + 1) = below b f k + f k * b ^ k := sum_range_succ _ _

theorem below_congr {f g : Nat → Int} {k : Nat} (h : ∀ i < k, f i = g i) :
    below b f k = below b g k := by
  apply sum_congr rfl
  intro i hi
  rw [h i (mem_range.mp hi)]

theorem below_add (f g : Nat → Int) (k : Nat) :
    below b (fun i => f i + g i) k = below b f k + below b g k := by
  simp only [below, add_mul, sum_add_distrib]

theorem below_sub (f g : Nat → Int) (k : Nat) :
    below b (fun i => f i - g i) k = below b f k - below b g k := by
  simp only [below, sub_mul, sum_sub_distrib]

theorem below_const_mul (c : Int) (f : Nat → Int) (k : Nat) :
    below b (fun i => c * f i) k = c * below b f k := by
  simp only [below, mul_assoc, mul_sum]

/-- Digits from `k` on count `b ^ k` times. -/
theorem below_split (f : Nat → Int) (k m : Nat) :
    below b f (k + m) = below b f k + b ^ k * below b (fun i => f (k + i)) m := by
  simp only [below, sum_range_add, mul_sum]
  congr 1
  apply sum_congr rfl
  intro i _
  rw [pow_add]
  ring

theorem value_setDigit (v : Vector Int n) {i : Nat} (h : i < n) (x : Int) :
    value b (setDigit v i x) = value b v + (x - digit v i) * b ^ i := by
  have hi := mem_range.mpr h
  rw [value, value, below, below, ← add_sum_erase _ _ hi, ← add_sum_erase _ _ hi,
    digit_setDigit_same v h]
  have hrest : ∑ j ∈ (range n).erase i, digit (setDigit v i x) j * b ^ j =
      ∑ j ∈ (range n).erase i, digit v j * b ^ j := by
    apply sum_congr rfl
    intro j hj
    rw [digit_setDigit_of_ne v (ne_of_mem_erase hj).symm]
  rw [hrest]
  ring

@[simp] theorem value_zero : value b (zero n) = 0 := by
  simp [value, below]

/-- Digits above the last one that is not zero. -/
theorem value_eq_below {v : Vector Int n} {k : Nat} (hk : k ≤ n)
    (h : ∀ j, k ≤ j → digit v j = 0) : value b v = below b (digit v) k := by
  obtain ⟨m, rfl⟩ : ∃ m, n = k + m := ⟨n - k, by omega⟩
  have hzero : below b (fun i => digit v (k + i)) m = 0 := by
    apply sum_eq_zero
    intro i _
    change digit v (k + i) * b ^ i = 0
    rw [h (k + i) (Nat.le_add_right k i), zero_mul]
  rw [value, below_split, hzero, mul_zero, add_zero]

/-- Small digits make a number not much larger than its top digit. -/
theorem abs_below_le {f : Nat → Int} {B : Int} {k : Nat} (hb : 1 ≤ b) (h : ∀ i < k, |f i| ≤ B) :
    |below b f k| * (b - 1) ≤ B * (b ^ k - 1) := by
  induction k with
  | zero => simp
  | succ k ih =>
    have htail := ih fun i hi => h i (by omega)
    have hpow : 0 ≤ b ^ k := pow_nonneg (by omega) k
    have hterm : |f k * b ^ k| ≤ B * b ^ k := by
      rw [abs_mul, abs_of_nonneg hpow]
      exact mul_le_mul_of_nonneg_right (h k (Nat.lt_succ_self k)) hpow
    have htriangle : |below b f (k + 1)| ≤ |below b f k| + B * b ^ k := by
      rw [below_succ]
      exact (abs_add_le _ _).trans (by omega)
    calc |below b f (k + 1)| * (b - 1) ≤ (|below b f k| + B * b ^ k) * (b - 1) :=
          mul_le_mul_of_nonneg_right htriangle (by omega)
      _ = |below b f k| * (b - 1) + B * b ^ k * (b - 1) := by ring
      _ ≤ B * (b ^ k - 1) + B * b ^ k * (b - 1) := by omega
      _ = B * (b ^ (k + 1) - 1) := by ring

/-- Digits of a proper numeral. -/
def Proper (b : Int) (f : Nat → Int) (k : Nat) : Prop := ∀ i < k, 0 ≤ f i ∧ f i < b

theorem Proper.below_lt {f : Nat → Int} {k : Nat} (h : Proper b f k) (hb : 0 < b) :
    0 ≤ below b f k ∧ below b f k < b ^ k := by
  induction k with
  | zero => simp
  | succ k ih =>
    obtain ⟨hlow, hhigh⟩ := ih fun i hi => h i (by omega)
    obtain ⟨hdigit, hdigit'⟩ := h k (Nat.lt_succ_self k)
    have hpow : 0 < b ^ k := pow_pos hb k
    have hmul : f k * b ^ k ≤ (b - 1) * b ^ k := mul_le_mul_of_nonneg_right (by omega) hpow.le
    have hmul' : 0 ≤ f k * b ^ k := mul_nonneg hdigit hpow.le
    have hsplit : b ^ (k + 1) = (b - 1) * b ^ k + b ^ k := by ring
    rw [below_succ]
    constructor <;> omega

/-- A remainder by a product, in two steps. -/
theorem emod_mul_eq (V : Int) {c d : Int} (hc : 0 ≤ c) :
    V % (c * d) = V % c + V / c % d * c := by
  rw [Int.emod_def V (c * d), Int.emod_def V c, Int.emod_def (V / c) d,
    Int.ediv_ediv_of_nonneg hc]
  ring

/-- The digits of a number. -/
theorem below_digits (hb : 0 ≤ b) (V : Int) (k : Nat) :
    below b (fun i => V / b ^ i % b) k = V % b ^ k := by
  induction k with
  | zero => rw [below_zero, pow_zero, Int.emod_one]
  | succ k ih => rw [below_succ, ih, pow_succ, emod_mul_eq V (pow_nonneg hb k)]

/-- `for (i = 0; i < n; ++i) v[i] = f(i)` -/
def fill (n : Nat) (f : Nat → Option Int) : Option (Vector Int n) :=
  up 0 n (fun v i => do
    let x ← f i
    some (setDigit v i x)) (zero n)

theorem returns_fill {f : Nat → Option Int} {g : Nat → Int} (h : ∀ i < n, f i = some (g i)) :
    Returns (fill n f) fun v => ∀ i < n, digit v i = g i := by
  have hloop : Returns (fill n f) fun v => ∀ i < 0 + n, digit v i = g i := by
    apply Returns.up fun k (v : Vector Int n) => ∀ i < k, digit v i = g i
    · simp
    · intro i _ hi v hv
      rw [Nat.zero_add] at hi
      rw [h i hi]
      apply Returns.some
      intro j hj
      rw [digit_setDigit v hi]
      split
      case isTrue hij => rw [hij]
      case isFalse hij => exact hv j (by omega)
  rwa [Nat.zero_add] at hloop

end Radix
