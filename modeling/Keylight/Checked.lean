import Mathlib.Algebra.Order.Ring.Int
import Mathlib.Data.Int.Bitwise
import Mathlib.Tactic.Linarith
import Mathlib.Tactic.Positivity

/-!
# Checked signed words

Signed 64-bit arithmetic over the integers that stops where the machine's would
overflow, loops over such programs, and the rules by which a program is shown
to return.
-/
namespace Checked

/-- A signed 64-bit value. -/
def IsWord (x : Int) : Prop := -2 ^ 63 ≤ x ∧ x < 2 ^ 63

instance (x : Int) : Decidable (IsWord x) := inferInstanceAs (Decidable (_ ∧ _))

def word (x : Int) : Option Int := if IsWord x then some x else none

def add (a b : Int) : Option Int := word (a + b)

def sub (a b : Int) : Option Int := word (a - b)

def mul (a b : Int) : Option Int := word (a * b)

theorem word_eq {x : Int} (h : IsWord x) : word x = some x := if_pos h

theorem isWord_of_abs {x B : Int} (h : |x| ≤ B) (hB : B < 2 ^ 63) : IsWord x := by
  obtain ⟨hlow, hhigh⟩ := abs_le.mp h
  exact ⟨by omega, by omega⟩

/-- A product of two bounded words. -/
theorem abs_mul_le {a b A B : Int} (ha : |a| ≤ A) (hb : |b| ≤ B) : |a * b| ≤ A * B := by
  rw [abs_mul]
  exact mul_le_mul ha hb (abs_nonneg b) ((abs_nonneg a).trans ha)

theorem land_zero_left (x : Int) : Int.land 0 x = 0 := by
  cases x with
  | ofNat n => simp [Int.land]
  | negSucc n => simp [Int.land, Nat.ldiff]

theorem land_neg_one_left (x : Int) : Int.land (-1) x = x := by
  change Int.land (Int.negSucc 0) x = x
  cases x with
  | ofNat n =>
    have hbits : Nat.ldiff n 0 = n := Nat.eq_of_testBit_eq fun i => by simp [Nat.testBit_ldiff]
    simp only [Int.land, hbits, Int.ofNat_eq_natCast]
  | negSucc n => simp only [Int.land, Nat.zero_or]

theorem xor_zero_right (x : Int) : Int.xor x 0 = x := by
  cases x with
  | ofNat n => simp [Int.xor]
  | negSucc n => simp [Int.xor]

theorem xor_xor_cancel_left (x y : Int) : Int.xor x (Int.xor x y) = y := by
  cases x <;> cases y <;> simp [Int.xor]

theorem xor_xor_cancel_right (x y : Int) : Int.xor y (Int.xor x y) = x := by
  have hnat : ∀ m n : Nat, n ^^^ (m ^^^ n) = m := fun m n => by
    rw [Nat.xor_comm m, Nat.xor_xor_cancel_left]
  cases x <;> cases y <;> simp [Int.xor, hnat]

/-- The low bits of a word are its remainder. -/
theorem land_mask (x : Int) (k : Nat) : Int.land x (2 ^ k - 1) = x % 2 ^ k := by
  have hpos := Nat.two_pow_pos k
  have hmask : ((2 : Int) ^ k - 1) = Int.ofNat (2 ^ k - 1) := by
    rw [Int.ofNat_eq_natCast, Int.natCast_sub hpos]
    norm_num
  rw [hmask]
  cases x with
  | ofNat n =>
    simp only [Int.land, Int.ofNat_eq_natCast, Nat.and_two_pow_sub_one_eq_mod]
    norm_num
  | negSucc m =>
    have hlt : m % 2 ^ k < 2 ^ k := Nat.mod_lt _ hpos
    have hbits : Nat.ldiff (2 ^ k - 1) m = 2 ^ k - (m % 2 ^ k + 1) := by
      apply Nat.eq_of_testBit_eq
      intro i
      rw [Nat.testBit_two_pow_sub_succ hlt, Nat.testBit_ldiff, Nat.testBit_two_pow_sub_one,
        Nat.testBit_mod_two_pow]
      cases decide (i < k) <;> simp
    have hdiv : ((m % 2 ^ k : Nat) : Int) + 2 ^ k * ((m / 2 ^ k : Nat) : Int) = m := by
      exact_mod_cast Nat.mod_add_div m (2 ^ k)
    have hlt' : ((m % 2 ^ k : Nat) : Int) < 2 ^ k := by exact_mod_cast hlt
    have hunique := (Int.ediv_emod_unique (a := Int.negSucc m) (b := 2 ^ k)
      (q := -((m / 2 ^ k : Nat) : Int) - 1) (r := 2 ^ k - (((m % 2 ^ k : Nat) : Int) + 1))
      (by positivity)).mpr
    simp only [Int.land, hbits]
    rw [Int.natCast_sub (by omega)]
    push_cast
    refine (hunique ⟨?_, by omega, by omega⟩).2.symm
    rw [Int.negSucc_eq]
    linarith

/-- A shift to the right rounds down. -/
theorem shiftRight_eq (x : Int) (k : Nat) : x >>> k = x / 2 ^ k := by
  rw [Int.shiftRight_eq_div_pow]
  norm_num

variable {α β σ : Type}

/-- The program returns, and `Q` holds of what it returns. -/
def Returns (m : Option α) (Q : α → Prop) : Prop := ∃ a, m = some a ∧ Q a

namespace Returns
variable {m : Option α} {Q R : α → Prop}

theorem some {a : α} (h : Q a) : Returns (some a) Q := ⟨a, rfl, h⟩

theorem mono (h : Returns m Q) (hqr : ∀ a, Q a → R a) : Returns m R := by
  obtain ⟨a, hm, ha⟩ := h
  exact ⟨a, hm, hqr a ha⟩

theorem bind {f : α → Option β} {S : β → Prop} (h : Returns m Q)
    (hf : ∀ a, Q a → Returns (f a) S) : Returns (m >>= f) S := by
  obtain ⟨a, rfl, ha⟩ := h
  exact hf a ha

theorem add {a b : Int} (h : IsWord (a + b)) : Returns (add a b) (· = a + b) :=
  ⟨a + b, word_eq h, rfl⟩

theorem sub {a b : Int} (h : IsWord (a - b)) : Returns (sub a b) (· = a - b) :=
  ⟨a - b, word_eq h, rfl⟩

theorem mul {a b : Int} (h : IsWord (a * b)) : Returns (mul a b) (· = a * b) :=
  ⟨a * b, word_eq h, rfl⟩

end Returns

/-- `for (i = first; i < first + n; ++i)` -/
def up (first n : Nat) (body : σ → Nat → Option σ) (s : σ) : Option σ :=
  (List.range' first n).foldlM body s

/-- `for (i = n - 1; i >= 0; --i)` -/
def down : Nat → (σ → Nat → Option σ) → σ → Option σ
  | 0, _, s => some s
  | n + 1, body, s => body s n >>= down n body

/-- What each turn carries from `i` to `i + 1`, the loop carries from its first
index to its last. -/
theorem Returns.up {first n : Nat} {body : σ → Nat → Option σ} {s : σ} (I : Nat → σ → Prop)
    (h : I first s)
    (step : ∀ i, first ≤ i → i < first + n → ∀ s, I i s → Returns (body s i) (I (i + 1))) :
    Returns (up first n body s) (I (first + n)) := by
  induction n generalizing first s with
  | zero => exact ⟨s, rfl, h⟩
  | succ n ih =>
    rw [Checked.up, List.range'_succ, List.foldlM_cons]
    apply (step first (Nat.le_refl _) (by omega) s h).bind
    intro t ht
    have hrest := ih ht fun i hi hlt => step i (by omega) (by omega)
    rwa [Nat.add_right_comm] at hrest

theorem Returns.down {n : Nat} {body : σ → Nat → Option σ} {s : σ} (I : Nat → σ → Prop)
    (h : I n s) (step : ∀ i < n, ∀ s, I (i + 1) s → Returns (body s i) (I i)) :
    Returns (down n body s) (I 0) := by
  induction n generalizing s with
  | zero => exact ⟨s, rfl, h⟩
  | succ n ih =>
    apply (step n (Nat.lt_succ_self n) s h).bind
    intro t ht
    exact ih ht fun i hi => step i (by omega)

end Checked
