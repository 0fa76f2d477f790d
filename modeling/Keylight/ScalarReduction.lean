import Keylight.FieldPacking
import Mathlib.Data.Int.ModEq
import Mathlib.Tactic.LinearCombination

/-!
# Scalars modulo the group order

A number of 64 bytes reduced modulo the order of the base point, in signed
bytes: multiples of the order are taken off from the top down, and what is left
is brought into range once.
-/
namespace Keylight.Ed25519
open Checked Radix Words

/-- The order of the base point. -/
def order : Nat := 2 ^ 252 + 27742317777372353535851937790883648493

def kL : List Int :=
  [0xed, 0xd3, 0xf5, 0x5c, 0x1a, 0x63, 0x12, 0x58, 0xd6, 0x9c, 0xf7, 0xa2, 0xde, 0xf9, 0xde, 0x14,
   0x00, 0x00, 0x00, 0x00, 0x00, 0x00, 0x00, 0x00, 0x00, 0x00, 0x00, 0x00, 0x00, 0x00, 0x00, 0x10]

def orderDigit (j : Nat) : Int := kL.getD j 0

/-- The digits of `kl_modL`, and its carry. -/
abbrev Carrying := Vector Int 64 × Int

/-- One turn of the inner loop: the multiple of the order that clears digit `i`, at `j`. -/
def clearTurn (i : Nat) (xc : Carrying) (j : Nat) : Option Carrying := do
  let y ← mul 16 (digit xc.1 i)
  let y ← mul y (orderDigit (j - (i - 32)))
  let y ← sub xc.2 y
  let z ← add (digit xc.1 j) y
  let x := setDigit xc.1 j z
  let w ← add (digit x j) 128
  let carry := w >>> (8 : Nat)
  let c ← mul carry 256
  let z ← sub (digit x j) c
  some (setDigit x j z, carry)

/-- One turn of the outer loop: digit `i` becomes zero. -/
def clearDigit (x : Vector Int 64) (i : Nat) : Option (Vector Int 64) := do
  let xc ← up (i - 32) 20 (clearTurn i) (x, 0)
  let z ← add (digit xc.1 (i - 12)) xc.2
  some (setDigit (setDigit xc.1 (i - 12) z) i 0)

/-- The turn that takes off the last multiple of the order. -/
def rangeTurn (xc : Carrying) (j : Nat) : Option Carrying := do
  let y ← mul (digit xc.1 31 >>> (4 : Nat)) (orderDigit j)
  let y ← sub xc.2 y
  let z ← add (digit xc.1 j) y
  let x := setDigit xc.1 j z
  some (setDigit x j (Int.land (digit x j) 255), digit x j >>> (8 : Nat))

/-- The turn that adds the order again if the last multiple was one too many. -/
def restoreTurn (carry : Int) (x : Vector Int 64) (j : Nat) : Option (Vector Int 64) := do
  let y ← mul carry (orderDigit j)
  let z ← sub (digit x j) y
  some (setDigit x j z)

/-- The last carries, with the bytes written out. -/
def writeTurn (xr : Vector Int 64 × Bytes) (i : Nat) : Option (Vector Int 64 × Bytes) := do
  let z ← add (digit xr.1 (i + 1)) (digit xr.1 i >>> (8 : Nat))
  let x := setDigit xr.1 (i + 1) z
  some (x, xr.2 ++ [UInt8.ofNat (Int.land (digit x i) 255).toNat])

def klModL (x : Vector Int 64) : Option Bytes := do
  let x ← down 32 (fun x k => clearDigit x (k + 32)) x
  let xc ← up 0 32 rangeTurn (x, 0)
  let x ← up 0 32 (restoreTurn xc.2) xc.1
  let xr ← up 0 32 writeTurn (x, [])
  some xr.2

def klReduce (input : Bytes) : Option Bytes := do
  let x ← fill 64 fun i => some ((input.getD i 0).toNat : Int)
  klModL x

theorem orderDigit_range (j : Nat) : 0 ≤ orderDigit j ∧ orderDigit j ≤ 255 := by
  by_cases hj : j < 32
  · have hall : ∀ j < 32, 0 ≤ orderDigit j ∧ orderDigit j ≤ 255 := by decide
    exact hall j hj
  · have hnone : orderDigit j = 0 := by
      rw [orderDigit, List.getD_eq_getElem?_getD, List.getElem?_eq_none (by simp [kL]; omega),
        Option.getD_none]
    rw [hnone]
    omega

theorem orderDigit_middle : ∀ j < 20, 16 ≤ j → orderDigit j = 0 := by decide

theorem below_orderDigit : below 256 orderDigit 32 = order := by decide +kernel

/-- The order, but for its top digit. -/
theorem below_orderDigit_low : below 256 orderDigit 20 + 16 * 256 ^ 31 = order := by
  decide +kernel

/-- Carries in the inner loop: they die out above the sixteen low digits of the order. -/
def clearCarry (m : Nat) : Int :=
  if m ≤ 16 then 5000 else if m = 17 then 24 else 4

/-- The digits in the middle of the inner loop for digit `i`, with `m` turns done. -/
structure Clearing (x₀ : Vector Int 64) (i m : Nat) (xc : Carrying) : Prop where
  carry : |xc.2| ≤ clearCarry m
  done : ∀ j, i - 32 ≤ j → j < i - 32 + m → -128 ≤ digit xc.1 j ∧ digit xc.1 j ≤ 127
  other : ∀ j, j < i - 32 ∨ i - 32 + m ≤ j → digit xc.1 j = digit x₀ j
  value : value 256 xc.1 + xc.2 * 256 ^ (i - 32 + m) =
    value 256 x₀ - 16 * digit x₀ i * below 256 orderDigit m * 256 ^ (i - 32)

/-- A turn of the inner loop: one digit of the multiple is subtracted. -/
theorem Clearing.step {x₀ : Vector Int 64} {i m : Nat} {xc : Carrying}
    (h : Clearing x₀ i m xc) (hlow : 32 ≤ i) (hi : i < 64) (hm : m < 20)
    (htop : |digit x₀ i| ≤ 260)
    (hwindow : -128 ≤ digit x₀ (i - 32 + m) ∧ digit x₀ (i - 32 + m) ≤ 255) :
    Returns (clearTurn i xc (i - 32 + m)) (Clearing x₀ i (m + 1)) := by
  have hself := h.other i (.inr (by omega))
  have hcell := h.other (i - 32 + m) (.inr (by omega))
  have hindex : i - 32 + m - (i - 32) = m := by omega
  have hcarry := abs_le.mp h.carry
  have htop' := abs_le.mp htop
  have hL := orderDigit_range m
  have hproduct := abs_le.mp (abs_mul_le (A := 16 * 260) (B := 255)
    (show |16 * digit x₀ i| ≤ 16 * 260 by rw [abs_le]; omega)
    (show |orderDigit m| ≤ 255 by rw [abs_le]; omega))
  have hclear : clearCarry m ≤ 5000 := by
    rw [clearCarry]
    split
    · omega
    · split <;> omega
  have hmiddle : 16 ≤ m → 16 * digit x₀ i * orderDigit m = 0 := by
    intro h₁₆
    rw [orderDigit_middle m hm h₁₆, mul_zero]
  rw [clearTurn, hself, hcell, hindex]
  have hj : i - 32 + m < 64 := by omega
  apply (Returns.mul ⟨by omega, by omega⟩).bind
  rintro _ rfl
  apply (Returns.mul ⟨by omega, by omega⟩).bind
  rintro _ rfl
  apply (Returns.sub ⟨by omega, by omega⟩).bind
  rintro _ rfl
  apply (Returns.add ⟨by omega, by omega⟩).bind
  rintro _ rfl
  simp only [digit_setDigit_same _ hj]
  apply (Returns.add ⟨by omega, by omega⟩).bind
  rintro _ rfl
  rw [shiftRight_eq]
  apply (Returns.mul ⟨by omega, by omega⟩).bind
  rintro _ rfl
  apply (Returns.sub ⟨by omega, by omega⟩).bind
  rintro _ rfl
  apply Returns.some
  generalize hz : digit x₀ (i - 32 + m) + (xc.2 - 16 * digit x₀ i * orderDigit m) = z at *
  constructor
  · rw [abs_le]
    unfold clearCarry at hcarry ⊢
    by_cases h₁₆ : 16 ≤ m
    · have hzero := hmiddle h₁₆
      split at hcarry <;> split <;> omega
    · rw [if_pos (by omega)] at hcarry
      rw [if_pos (by omega)]
      omega
  · intro j hjlow hjhigh
    rw [digit_setDigit _ hj]
    split
    · omega
    · rw [digit_setDigit_of_ne _ (by omega)]
      exact h.done j hjlow (by omega)
  · intro j hjout
    rw [digit_setDigit_of_ne _ (by omega), digit_setDigit_of_ne _ (by omega)]
    exact h.other j (by omega)
  · rw [value_setDigit _ hj, digit_setDigit_same _ hj, value_setDigit _ hj, hcell, below_succ, ← hz]
    have hvalue := h.value
    have hpow : (256 : Int) ^ (i - 32 + m) = 256 ^ (i - 32) * 256 ^ m := pow_add _ _ _
    rw [← Nat.add_assoc, pow_succ]
    rw [hpow] at hvalue ⊢
    linear_combination hvalue

/-- The digits when those from `i` on are cleared: untouched bytes, the window of the last
turn, and digits that have taken their last carry. -/
structure Cleared (v : Int) (i : Nat) (x : Vector Int 64) : Prop where
  zero : ∀ j, i ≤ j → digit x j = 0
  untouched : ∀ j, j < i - 32 → 0 ≤ digit x j ∧ digit x j ≤ 255
  window : ∀ j, i - 32 ≤ j → j < i - 12 →
    -128 ≤ digit x j ∧ digit x j ≤ if i < 64 then 127 else 255
  settled : ∀ j, i - 12 ≤ j → j < i →
    -132 ≤ digit x j ∧ digit x j ≤ if j ≤ 50 then 131 else 259
  value : value 256 x ≡ v [ZMOD order]

/-- The inner loop for digit `i`. -/
theorem clearing_spec {v : Int} {i : Nat} {x : Vector Int 64} (hlow : 32 ≤ i) (hi : i < 64)
    (h : Cleared v (i + 1) x) :
    Returns (up (i - 32) 20 (clearTurn i) (x, 0)) (Clearing x i 20) := by
  have hself := h.settled i (by omega) (by omega)
  have htop : |digit x i| ≤ 260 := by
    rw [abs_le]
    split at hself <;> omega
  have hbefore : ∀ j, i - 32 ≤ j → j < i - 12 → -128 ≤ digit x j ∧ digit x j ≤ 255 := by
    intro j hjlow hjhigh
    by_cases hfirst : j < i + 1 - 32
    · have hbyte := h.untouched j hfirst
      omega
    · have hwindow := h.window j (by omega) (by omega)
      split at hwindow <;> omega
  have hrun : Returns (up (i - 32) 20 (clearTurn i) (x, 0))
      (Clearing x i (i - 32 + 20 - (i - 32))) := by
    apply Returns.up fun j => Clearing x i (j - (i - 32))
    · rw [Nat.sub_self]
      constructor
      · rw [abs_zero, clearCarry]
        norm_num
      · intro j hjlow hjhigh
        omega
      · exact fun j _ => rfl
      · rw [zero_mul, add_zero, below_zero, mul_zero, zero_mul, sub_zero]
    · intro j hjlow hjhigh xc hxc
      obtain ⟨m, rfl⟩ : ∃ m, j = i - 32 + m := ⟨j - (i - 32), by omega⟩
      rw [Nat.add_sub_cancel_left] at hxc
      rw [Nat.add_assoc, Nat.add_sub_cancel_left]
      exact hxc.step hlow hi (by omega) htop (hbefore _ (by omega) (by omega))
  rwa [Nat.add_sub_cancel_left] at hrun

/-- With the last carry in its digit and the top digit cleared, a multiple of the order
is gone. -/
theorem value_cleared {i : Nat} {x y : Vector Int 64} {carry : Int}
    (h : Clearing x i 20 (y, carry)) (hlow : 32 ≤ i) (hi : i < 64) :
    value 256 (setDigit (setDigit y (i - 12) (digit x (i - 12) + carry)) i 0) =
      value 256 x + -(16 * digit x i * 256 ^ (i - 32)) * order := by
  have hlast := h.other (i - 12) (.inr (by omega))
  have hkeep := h.other i (.inr (by omega))
  have hvalue := h.value
  simp only at hlast hkeep hvalue
  rw [value_setDigit _ hi, digit_setDigit_of_ne _ (by omega), hkeep,
    value_setDigit _ (by omega : i - 12 < 64), hlast, ← below_orderDigit_low]
  have hpow : (256 : Int) ^ i = 256 ^ (i - 32) * 256 ^ 32 := by
    rw [← pow_add]
    congr 1
    omega
  rw [show i - 32 + 20 = i - 12 by omega] at hvalue
  rw [hpow]
  linear_combination hvalue

/-- Clearing a digit keeps the value modulo the order. -/
theorem clearDigit_spec {v : Int} {i : Nat} {x : Vector Int 64} (hlow : 32 ≤ i) (hi : i < 64)
    (h : Cleared v (i + 1) x) : Returns (clearDigit x i) (Cleared v i) := by
  apply (clearing_spec hlow hi h).bind
  rintro ⟨y, carry⟩ hy
  have hcarry := abs_le.mp hy.carry
  rw [show clearCarry 20 = 4 by rfl] at hcarry
  have hlast := hy.other (i - 12) (.inr (by omega))
  have hat : -128 ≤ digit x (i - 12) ∧ digit x (i - 12) ≤ if i + 1 < 64 then 127 else 255 :=
    h.window (i - 12) (by omega) (by omega)
  simp only at hlast hcarry ⊢
  rw [hlast]
  apply (Returns.add (by split at hat <;> exact ⟨by omega, by omega⟩)).bind
  rintro _ rfl
  apply Returns.some
  have hj : i - 12 < 64 := by omega
  constructor
  · intro j hjle
    rw [digit_setDigit _ hi]
    split
    · rfl
    · rw [digit_setDigit_of_ne _ (by omega), hy.other j (.inr (by omega))]
      exact h.zero j (by omega)
  · intro j hjlt
    rw [digit_setDigit_of_ne _ (by omega), digit_setDigit_of_ne _ (by omega),
      hy.other j (.inl (by omega))]
    exact h.untouched j (by omega)
  · intro j hjlow hjhigh
    rw [digit_setDigit_of_ne _ (by omega), digit_setDigit_of_ne _ (by omega), if_pos hi]
    exact hy.done j hjlow (by omega)
  · intro j hjlow hjhigh
    rw [digit_setDigit_of_ne _ (by omega), digit_setDigit _ hj]
    by_cases hji : i - 12 = j
    · rw [if_pos hji]
      split at hat <;> split <;> omega
    · rw [if_neg hji, hy.other j (.inr (by omega))]
      exact h.settled j (by omega) (by omega)
  · rw [value_cleared hy hlow hi]
    have hmultiple : -(16 * digit x i * 256 ^ (i - 32)) * (order : Int) ≡ 0 [ZMOD order] :=
      Int.modEq_zero_iff_dvd.mpr (dvd_mul_left _ _)
    have hsum := h.value.add hmultiple
    rwa [add_zero] at hsum

/-- The digits while the last multiple `q` of the order is taken off. -/
structure Ranging (x₀ : Vector Int 64) (q : Int) (m : Nat) (xc : Carrying) : Prop where
  carry : |xc.2| ≤ 20
  done : ∀ j < m, 0 ≤ digit xc.1 j ∧ digit xc.1 j ≤ 255
  todo : ∀ j, m ≤ j → digit xc.1 j = digit x₀ j
  value : value 256 xc.1 + xc.2 * 256 ^ m = value 256 x₀ - q * below 256 orderDigit m

theorem land_byte (x : Int) : Int.land x 255 = x % 256 := land_mask x 8

/-- A turn of the last loop brings a digit into range. -/
theorem Ranging.step {x₀ : Vector Int 64} {q : Int} {m : Nat} {xc : Carrying}
    (h : Ranging x₀ q m xc) (hq : q = digit x₀ 31 / 2 ^ 4) (hqsmall : |q| ≤ 9) (hm : m < 32)
    (hsmall : -132 ≤ digit x₀ m ∧ digit x₀ m ≤ 131) :
    Returns (rangeTurn xc m) (Ranging x₀ q (m + 1)) := by
  have hcell := h.todo m le_rfl
  have htop := h.todo 31 (by omega)
  have hcarry := abs_le.mp h.carry
  have hL := orderDigit_range m
  have hproduct := abs_le.mp (abs_mul_le (B := 255) hqsmall
    (show |orderDigit m| ≤ 255 by rw [abs_le]; omega))
  have hm64 : m < 64 := by omega
  rw [rangeTurn, htop, shiftRight_eq, ← hq]
  apply (Returns.mul ⟨by omega, by omega⟩).bind
  rintro _ rfl
  apply (Returns.sub ⟨by omega, by omega⟩).bind
  rintro _ rfl
  rw [hcell]
  apply (Returns.add ⟨by omega, by omega⟩).bind
  rintro _ rfl
  apply Returns.some
  simp only [digit_setDigit_same _ hm64, land_byte, shiftRight_eq]
  generalize hz : digit x₀ m + (xc.2 - q * orderDigit m) = z
  constructor
  · rw [abs_le]
    omega
  · intro j hj
    rw [digit_setDigit _ hm64]
    split
    · omega
    · rw [digit_setDigit_of_ne _ (by omega)]
      exact h.done j (by omega)
  · intro j hj
    rw [digit_setDigit_of_ne _ (by omega), digit_setDigit_of_ne _ (by omega)]
    exact h.todo j (by omega)
  · rw [value_setDigit _ hm64, digit_setDigit_same _ hm64, value_setDigit _ hm64, hcell,
      below_succ, ← hz, pow_succ (256 : Int) m]
    have hdiv : (digit x₀ m + (xc.2 - q * orderDigit m)) % 256 +
        256 * ((digit x₀ m + (xc.2 - q * orderDigit m)) / 2 ^ 8) =
          digit x₀ m + (xc.2 - q * orderDigit m) := by omega
    have hvalue := h.value
    linear_combination hvalue + 256 ^ m * hdiv

/-- Adding a multiple of the order to bytes. -/
theorem restore_spec {x₀ : Vector Int 64} {c : Int} (hc : |c| ≤ 20)
    (hbytes : ∀ j < 32, 0 ≤ digit x₀ j ∧ digit x₀ j ≤ 255) :
    Returns (up 0 32 (restoreTurn c) x₀) fun x =>
      (∀ j < 32, digit x j = digit x₀ j - c * orderDigit j) ∧
        ∀ j, 32 ≤ j → digit x j = digit x₀ j := by
  have hloop : Returns (up 0 32 (restoreTurn c) x₀) fun x =>
      (∀ j < 0 + 32, digit x j = digit x₀ j - c * orderDigit j) ∧
        ∀ j, 0 + 32 ≤ j → digit x j = digit x₀ j := by
    apply Returns.up fun m (x : Vector Int 64) =>
      (∀ j < m, digit x j = digit x₀ j - c * orderDigit j) ∧ ∀ j, m ≤ j → digit x j = digit x₀ j
    · exact ⟨fun j hj => by omega, fun j _ => rfl⟩
    · rintro m - hm x ⟨hdone, htodo⟩
      have hL := orderDigit_range m
      have hbyte := hbytes m (by omega)
      have hproduct := abs_le.mp (abs_mul_le (B := 255) hc
        (show |orderDigit m| ≤ 255 by rw [abs_le]; omega))
      have hm64 : m < 64 := by omega
      rw [restoreTurn, htodo m le_rfl]
      apply (Returns.mul ⟨by omega, by omega⟩).bind
      rintro _ rfl
      apply (Returns.sub ⟨by omega, by omega⟩).bind
      rintro _ rfl
      apply Returns.some
      constructor
      · intro j hj
        rw [digit_setDigit _ hm64]
        split
        case isTrue hmj => rw [hmj]
        case isFalse => exact hdone j (by omega)
      · intro j hj
        rw [digit_setDigit_of_ne _ (by omega)]
        exact htodo j (by omega)
  exact hloop

/-- The bytes written are those of the number. -/
theorem write_spec {x₀ : Vector Int 64} (hsmall : ∀ j ≤ 32, |digit x₀ j| ≤ 2 ^ 20) :
    Returns (up 0 32 writeTurn (x₀, [])) fun xr => xr.2.length = 32 ∧
      (leValue xr.2 : Int) = below 256 (digit x₀) 32 % 256 ^ 32 := by
  have hloop : Returns (up 0 32 writeTurn (x₀, [])) fun xr => xr.2.length = 0 + 32 ∧
      |digit xr.1 (0 + 32) - digit x₀ (0 + 32)| ≤ 2 ^ 20 ∧
      (∀ j, 0 + 32 < j → digit xr.1 j = digit x₀ j) ∧
      (leValue xr.2 : Int) +
        (digit xr.1 (0 + 32) - digit x₀ (0 + 32)) * 256 ^ (0 + 32) =
          below 256 (digit x₀) (0 + 32) := by
    apply Returns.up fun m (xr : Vector Int 64 × Bytes) => xr.2.length = m ∧
      |digit xr.1 m - digit x₀ m| ≤ 2 ^ 20 ∧ (∀ j, m < j → digit xr.1 j = digit x₀ j) ∧
      (leValue xr.2 : Int) + (digit xr.1 m - digit x₀ m) * 256 ^ m = below 256 (digit x₀) m
    · refine ⟨rfl, ?_, fun j _ => rfl, ?_⟩
      · rw [sub_self, abs_zero]
        norm_num
      · rw [sub_self, zero_mul, below_zero, leValue_nil]
        rfl
    · rintro m - hm ⟨x, r⟩ ⟨hlength, hcarry, htodo, hvalue⟩
      simp only at hlength hcarry htodo hvalue
      have hcarry' := abs_le.mp hcarry
      have hself := abs_le.mp (hsmall m (by omega))
      have hnext := abs_le.mp (hsmall (m + 1) (by omega))
      have hm64 : m + 1 < 64 := by omega
      have hne : m + 1 ≠ m := by omega
      rw [writeTurn]
      simp only [htodo (m + 1) (by omega), shiftRight_eq]
      apply (Returns.add ⟨by omega, by omega⟩).bind
      rintro _ rfl
      apply Returns.some
      simp only [digit_setDigit_of_ne _ hne, digit_setDigit_same _ hm64, land_byte]
      have hbyte : ((UInt8.ofNat (digit x m % 256).toNat).toNat : Int) = digit x m % 256 := by
        rw [UInt8.toNat_ofNat']
        omega
      refine ⟨by rw [List.length_append, hlength]; rfl, ?_, ?_, ?_⟩
      · rw [add_sub_cancel_left, abs_le]
        omega
      · intro j hj
        rw [digit_setDigit_of_ne _ (by omega)]
        exact htodo j (by omega)
      · rw [leValue_append, hlength, leValue_cons, leValue_nil, below_succ, ← hvalue,
          add_sub_cancel_left, pow_succ (256 : Int) m]
        push_cast
        rw [hbyte]
        have hdiv := Int.emod_add_mul_ediv (digit x m) 256
        linear_combination (256 : Int) ^ m * hdiv
  apply hloop.mono
  rintro ⟨x, r⟩ ⟨hlength, -, -, hvalue⟩
  refine ⟨hlength, ?_⟩
  have hlt := leValue_lt r
  rw [hlength] at hlt
  rw [show 0 + 32 = 32 by rfl] at hvalue
  rw [← hvalue, Int.add_mul_emod_self_right]
  exact (Int.emod_eq_of_lt (by positivity) (by exact_mod_cast hlt)).symm

/-- The digits that clearing leaves. -/
theorem Cleared.digit_range {y : Vector Int 64} {v : Int} (h : Cleared v 32 y) :
    ∀ j < 32, -132 ≤ digit y j ∧ digit y j ≤ 131 := by
  intro j hj
  by_cases hwindow : j < 20
  · have hw := h.window j (by omega) (by omega)
    rw [if_pos (by omega)] at hw
    omega
  · have hs := h.settled j (by omega) hj
    rw [if_pos (by omega)] at hs
    omega

/-- The last multiple leaves a number less than the order in size. -/
theorem last_multiple {y : Vector Int 64} {v : Int} (h : Cleared v 32 y) :
    |value 256 y - digit y 31 / 2 ^ 4 * order| < (order : Int) := by
  have horder : (order : Int) = 16 * 256 ^ 31 + 27742317777372353535851937790883648493 := by
    norm_num [order]
  have hdigit : ∀ j < 32, |digit y j| ≤ 132 := by
    intro j hj
    have hrange := h.digit_range j hj
    rw [abs_le]
    omega
  have hlow := abs_below_le (b := 256) (f := digit y) (k := 31) (by norm_num)
    fun j hj => hdigit j (by omega)
  have htop := abs_le.mp (hdigit 31 (by omega))
  have hvalue : value 256 y = below 256 (digit y) 31 + digit y 31 * 256 ^ 31 := by
    rw [value_eq_below (k := 32) (by omega) h.zero, below_succ]
  have hbelow := abs_le.mp (show |below 256 (digit y) 31| ≤ 132 * (256 ^ 31 - 1) / 255 by omega)
  have hq : digit y 31 / 2 ^ 4 * 16 = digit y 31 - digit y 31 % 16 := by omega
  have hr : 0 ≤ digit y 31 % 16 ∧ digit y 31 % 16 ≤ 15 := by omega
  have hqsmall : -9 ≤ digit y 31 / 2 ^ 4 ∧ digit y 31 / 2 ^ 4 ≤ 8 := by omega
  rw [hvalue, horder, abs_lt]
  generalize digit y 31 / 2 ^ 4 = q at hq hqsmall
  generalize digit y 31 % 16 = r at hq hr
  rw [show digit y 31 = 16 * q + r by omega]
  constructor <;> omega

/-- The first loop clears the upper 32 digits. -/
theorem clear_spec {x : Vector Int 64} (hbytes : ∀ j, 0 ≤ digit x j ∧ digit x j ≤ 255) :
    Returns (down 32 (fun x k => clearDigit x (k + 32)) x) (Cleared (value 256 x) 32) := by
  apply Returns.down fun k => Cleared (value 256 x) (k + 32)
  · constructor
    · exact fun j hj => digit_of_le x hj
    · exact fun j _ => hbytes j
    · intro j _ _
      have hbyte := hbytes j
      split <;> omega
    · intro j hjlow _
      have hbyte := hbytes j
      split <;> omega
    · exact Int.ModEq.refl _
  · intro k hk y hy
    rw [Nat.add_right_comm] at hy
    exact clearDigit_spec (by omega) (by omega) hy

/-- The second loop subtracts the multiple that the top digit names. -/
theorem range_spec {y : Vector Int 64} {v : Int} (hy : Cleared v 32 y) :
    Returns (up 0 32 rangeTurn (y, 0)) (Ranging y (digit y 31 / 2 ^ 4) 32) := by
  have htop := hy.digit_range 31 (by omega)
  have hrange : Returns (up 0 32 rangeTurn (y, 0))
      (Ranging y (digit y 31 / 2 ^ 4) (0 + 32)) := by
    apply Returns.up (Ranging y (digit y 31 / 2 ^ 4))
    · constructor
      · rw [abs_zero]
        norm_num
      · exact fun j hj => by omega
      · exact fun j _ => rfl
      · rw [zero_mul, add_zero, below_zero, mul_zero, sub_zero]
    · rintro m - hm xc hxc
      exact hxc.step rfl (by rw [abs_le]; omega) (by omega) (hy.digit_range m (by omega))
  rwa [Nat.zero_add] at hrange

/-- The third loop leaves digits that can be carried. -/
theorem restored_range {y z w : Vector Int 64} {c q v : Int} (hy : Cleared v 32 y)
    (hz : Ranging y q 32 (z, c)) (hdone : ∀ j < 32, digit w j = digit z j - c * orderDigit j)
    (htodo : ∀ j, 32 ≤ j → digit w j = digit z j) : ∀ j ≤ 32, |digit w j| ≤ 2 ^ 20 := by
  intro j hj
  rw [abs_le]
  rcases Nat.lt_or_eq_of_le hj with hlt | rfl
  · have hbyte := hz.done j hlt
    have hproduct := abs_le.mp (abs_mul_le (B := 255) hz.carry
      (show |orderDigit j| ≤ 255 by
        have hL := orderDigit_range j
        rw [abs_le]
        omega))
    simp only at hbyte hproduct
    rw [hdone j hlt]
    omega
  · have hzero := hz.todo 32 le_rfl
    rw [hy.zero 32 le_rfl] at hzero
    rw [htodo 32 le_rfl, hzero]
    norm_num

/-- A number less than the order in size, borrowed into 32 digits: taking the borrow's
multiple of the order away leaves its remainder. -/
theorem remainder_of_borrow {b c n : Int} (hb : 0 ≤ b ∧ b < 256 ^ 32)
    (hsum : b + c * 256 ^ 32 = n) (hn : |n| < (order : Int)) :
    (b - c * order) % 256 ^ 32 = n % order := by
  have horder : (order : Int) < 256 ^ 32 := by norm_num [order]
  have hn := abs_lt.mp hn
  have hcases : c = 0 ∨ c = -1 := by omega
  rcases hcases with rfl | rfl
  · rw [zero_mul, add_zero] at hsum
    rw [zero_mul, sub_zero, Int.emod_eq_of_lt hb.1 hb.2, ← hsum]
    exact (Int.emod_eq_of_lt hb.1 (by omega)).symm
  · rw [show b - -1 * (order : Int) = n + order + 256 ^ 32 * 1 by omega,
      Int.add_mul_emod_self_left, Int.emod_eq_of_lt (by omega) (by omega),
      ← Int.add_emod_right n order]
    exact (Int.emod_eq_of_lt (by omega) (by omega)).symm

/-- The reduced scalar. -/
theorem klModL_spec {x : Vector Int 64} (hbytes : ∀ j, 0 ≤ digit x j ∧ digit x j ≤ 255) :
    Returns (klModL x) fun r => r.length = 32 ∧ (leValue r : Int) = value 256 x % order := by
  apply (clear_spec hbytes).bind
  intro y hy
  apply (range_spec hy).bind
  rintro ⟨z, c⟩ hz
  apply (restore_spec hz.carry hz.done).bind
  rintro w ⟨hdone, htodo⟩
  apply (write_spec (restored_range hy hz hdone htodo)).bind
  rintro xr ⟨hlength, hvalue⟩
  apply Returns.some
  refine ⟨hlength, ?_⟩
  -- the number written, against the number that was to be reduced
  have hsum : below 256 (digit z) 32 + c * 256 ^ 32 =
      value 256 y - digit y 31 / 2 ^ 4 * order := by
    have hrun := hz.value
    rwa [value_eq_below (k := 32) (by omega) (fun j hj => (hz.todo j hj).trans (hy.zero j hj)),
      below_orderDigit] at hrun
  have hproper : Radix.Proper 256 (digit z) 32 := fun j hj => by
    have hbyte := hz.done j hj
    simp only at hbyte
    omega
  have hmod : value 256 y - digit y 31 / 2 ^ 4 * order ≡ value 256 x [ZMOD order] := by
    have hdiff := hy.value.sub (Int.modEq_zero_iff_dvd.mpr
      (dvd_mul_left (order : Int) (digit y 31 / 2 ^ 4)))
    rwa [sub_zero] at hdiff
  rw [below_congr hdone, below_sub, below_const_mul, below_orderDigit,
    remainder_of_borrow (hproper.below_lt (by norm_num)) hsum (last_multiple hy)] at hvalue
  rw [hvalue]
  exact hmod

/-- `kl_reduce`: the number modulo the order, in 32 bytes. -/
theorem klReduce_spec {input : Bytes} (h : input.length = 64) :
    Returns (klReduce input) fun r => r.length = 32 ∧ leValue r = leValue input % order := by
  have hbytes : ∀ i, ((input.getD i 0).toNat : Int) = (leValue input : Int) / 256 ^ i % 256 := by
    intro i
    rw [leValue_getD]
    push_cast
    rfl
  apply (returns_fill (n := 64) (f := fun i => some ((input.getD i 0).toNat : Int))
    fun i _ => rfl).bind
  intro x hx
  have hvalue : value 256 x = leValue input := by
    have hlt := leValue_lt input
    rw [h] at hlt
    rw [value, below_congr fun i hi => (hx i hi).trans (hbytes i), below_digits (by norm_num)]
    exact Int.emod_eq_of_lt (by positivity) (by exact_mod_cast hlt)
  have hrange : ∀ j, 0 ≤ digit x j ∧ digit x j ≤ 255 := by
    intro j
    by_cases hj : j < 64
    · have hbyte := (input.getD j 0).toNat_lt
      rw [hx j hj]
      omega
    · rw [digit_of_le x (by omega)]
      omega
  apply (klModL_spec hrange).mono
  rintro r ⟨hlength, hr⟩
  refine ⟨hlength, ?_⟩
  rw [hvalue] at hr
  exact_mod_cast hr

/-- The bytes of the remainder. -/
theorem klReduce_eq (input : Vector UInt8 64) :
    klReduce input.toList = some (littleEndian 32 (leValue input.toList % order)) := by
  obtain ⟨r, hr, hlength, hvalue⟩ := klReduce_spec (Vector.length_toList : input.toList.length = 64)
  rw [hr, eq_littleEndian hlength hvalue]

end Keylight.Ed25519
