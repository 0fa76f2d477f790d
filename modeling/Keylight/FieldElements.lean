import Keylight.Radix
import Mathlib.Data.ZMod.Basic
import Mathlib.Tactic.LinearCombination

/-!
# Field elements

Elements of the field of 2^255 - 19 elements as sixteen signed limbs of 16 bits.
Limbs may leave their 16 bits: sums and differences only add them, and a product
is carried twice. No limb operation overflows on limbs within 2^24, and a
product is again almost reduced.
-/
namespace Keylight.Ed25519
open Checked Radix

/-- `kl_gf` -/
abbrev Gf := Vector Int 16

def prime : Nat := 2 ^ 255 - 19

/-- One turn of `gf_car`: what passes 16 bits goes into the next limb, and out of the
last one times 38 into the first. -/
def carStep (o : Gf) (i : Nat) : Option Gf := do
  let x ← add (digit o i) (2 ^ 16)
  let o := setDigit o i x
  let c := digit o i >>> (16 : Nat)
  let next := if i < 15 then i + 1 else 0
  let d ← sub c 1
  let again ← mul 37 d
  let again ← mul again (if i = 15 then 1 else 0)
  let d ← add d again
  let y ← add (digit o next) d
  let o := setDigit o next y
  let low ← mul c 65536
  let z ← sub (digit o i) low
  some (setDigit o i z)

def gfCar (o : Gf) : Option Gf := up 0 16 carStep o

def gfAdd (a b : Gf) : Option Gf := fill 16 fun i => add (digit a i) (digit b i)

def gfSub (a b : Gf) : Option Gf := fill 16 fun i => sub (digit a i) (digit b i)

/-- The inner loop of `gf_mul`: one limb of `a` against all of `b`. -/
def mulRow (a b : Gf) (t : Vector Int 31) (i : Nat) : Option (Vector Int 31) :=
  up 0 16 (fun t j => do
    let x ← mul (digit a i) (digit b j)
    let y ← add (digit t (i + j)) x
    some (setDigit t (i + j) y)) t

def mulFold (t : Vector Int 31) : Option (Vector Int 31) :=
  up 0 15 (fun t i => do
    let x ← mul 38 (digit t (i + 16))
    let y ← add (digit t i) x
    some (setDigit t i y)) t

def gfMul (a b : Gf) : Option Gf := do
  let t ← up 0 16 (mulRow a b) (zero 31)
  let t ← mulFold t
  let o ← fill 16 fun i => some (digit t i)
  let o ← gfCar o
  gfCar o

def gfSq (a : Gf) : Option Gf := gfMul a a

/-- The number of the limbs. -/
def Gf.value (a : Gf) : Int := Radix.value (2 ^ 16) a

/-- The field element of the limbs. -/
def Gf.el (a : Gf) : ZMod prime := (a.value : Int)

/-- All limbs within `B` of zero. -/
def Gf.Within (a : Gf) (B : Int) : Prop := ∀ i < 16, |digit a i| ≤ B

instance (a : Gf) (B : Int) : Decidable (a.Within B) :=
  inferInstanceAs (Decidable (∀ i < 16, |digit a i| ≤ B))

/-- What two carries leave: proper limbs, but for 38 either way in the first. -/
structure Gf.Carried (a : Gf) : Prop where
  first : -38 ≤ digit a 0 ∧ digit a 0 < 2 ^ 16 + 38
  others : ∀ i, 0 < i → i < 16 → 0 ≤ digit a i ∧ digit a i < 2 ^ 16

theorem Gf.Within.mono {a : Gf} {B C : Int} (h : a.Within B) (hBC : B ≤ C) : a.Within C :=
  fun i hi => (h i hi).trans hBC

theorem Gf.Carried.within {a : Gf} (h : a.Carried) : a.Within (2 ^ 16 + 38) := by
  intro i hi
  rw [abs_le]
  rcases Nat.eq_zero_or_pos i with rfl | hpos
  · have hfirst := h.first
    omega
  · have hother := h.others i hpos hi
    omega

theorem Gf.el_eq_of_value {a b : Gf} {k : Int} (h : a.value = b.value + k * prime) :
    a.el = b.el := by
  rw [Gf.el, Gf.el, h]
  push_cast
  rw [ZMod.natCast_self, mul_zero, add_zero]

/-- What a turn does: a limb keeps its remainder and passes on its quotient. -/
theorem carStep_spec {o : Gf} {i : Nat} (hi : i < 16) (hfit : |digit o i| ≤ 2 ^ 60)
    (hnext : |digit o (if i < 15 then i + 1 else 0)| ≤ 2 ^ 60) :
    Returns (carStep o i) fun o' =>
      digit o' i = digit o i % 2 ^ 16 ∧
      (∀ j, j ≠ i → j < 16 → digit o' j = digit o j +
        if j = (if i < 15 then i + 1 else 0)
          then digit o i / 2 ^ 16 * (if i = 15 then 38 else 1) else 0) := by
  generalize hn : (if i < 15 then i + 1 else 0) = next at *
  have hne : next ≠ i := by
    rw [← hn]
    split <;> omega
  have hlt : next < 16 := by
    rw [← hn]
    split <;> omega
  rw [abs_le] at hfit hnext
  have hq : (digit o i + 2 ^ 16) >>> (16 : Nat) = digit o i / 2 ^ 16 + 1 := by
    rw [shiftRight_eq]
    omega
  rw [carStep]
  apply (Returns.add ⟨by omega, by omega⟩).bind
  rintro _ rfl
  simp only [digit_setDigit_same o hi, hq, hn]
  apply (Returns.sub ⟨by omega, by omega⟩).bind
  rintro _ rfl
  apply (Returns.mul ⟨by omega, by omega⟩).bind
  rintro _ rfl
  apply (Returns.mul (by split <;> exact ⟨by omega, by omega⟩)).bind
  rintro _ rfl
  apply (Returns.add (by split <;> exact ⟨by omega, by omega⟩)).bind
  rintro _ rfl
  rw [digit_setDigit_of_ne o hne.symm]
  apply (Returns.add (by split <;> exact ⟨by omega, by omega⟩)).bind
  rintro _ rfl
  apply (Returns.mul ⟨by omega, by omega⟩).bind
  rintro _ rfl
  rw [digit_setDigit_of_ne _ hne, digit_setDigit_same o hi]
  apply (Returns.sub ⟨by omega, by omega⟩).bind
  rintro _ rfl
  apply Returns.some
  constructor
  · rw [digit_setDigit_same _ hi]
    omega
  · intro j hj hj16
    rw [digit_setDigit_of_ne _ hj.symm, digit_setDigit _ hlt]
    by_cases hjn : next = j
    · rw [if_pos hjn, if_pos hjn.symm, hjn]
      split <;> omega
    · rw [if_neg hjn, if_neg (Ne.symm hjn), digit_setDigit_of_ne _ hj.symm, add_zero]

/-- The limbs in the middle of a pass: those of `r`, proper below `i`, and a carry `q`
already added to the next limb. -/
structure Passing (C : Nat → Int) (o : Gf) (i : Nat) (s : Gf) (r : Gf) (q : Int) : Prop where
  carry : |q| ≤ C i
  done : ∀ j < i, 0 ≤ digit r j ∧ digit r j < 2 ^ 16
  todo : ∀ j, i ≤ j → digit r j = digit o j
  limbs : ∀ j < 16, digit s j = digit r j +
    if j = (if i < 16 then i else 0) then q * (if i < 16 then 1 else 38) else 0
  value : r.value + q * (2 ^ 16) ^ i = o.value

/-- A turn of the pass: limb `i` becomes proper and its carry goes to the next one. -/
theorem Passing.step {C : Nat → Int} {o s r : Gf} {q : Int} {i : Nat} (hi : i < 16)
    (h : Passing C o i s r q) (hfit : ∀ j < 16, |digit o j| + C j ≤ 2 ^ 59)
    (hstep : ∀ x, |x - digit o i| ≤ C i → |x / 2 ^ 16| ≤ C (i + 1)) :
    Returns (carStep s i) fun s' => Passing C o (i + 1) s'
      (setDigit r i (digit s i % 2 ^ 16)) (digit s i / 2 ^ 16) := by
  have hlimb := h.limbs i hi
  rw [if_pos hi, if_pos rfl, if_pos hi, mul_one, h.todo i le_rfl] at hlimb
  have hcarry := h.carry
  have hbound := hfit i hi
  have hnear : |digit s i - digit o i| ≤ C i := by
    rw [hlimb, add_sub_cancel_left]
    exact hcarry
  have hnext : (if i < 15 then i + 1 else 0) = if i + 1 < 16 then i + 1 else 0 := by
    split <;> split <;> omega
  have hother : |digit s (if i < 15 then i + 1 else 0)| ≤ 2 ^ 60 := by
    rw [hnext]
    split
    case isTrue hlt =>
      have hnextFit := hfit (i + 1) hlt
      have hsame := h.limbs (i + 1) hlt
      rw [if_pos hi, if_neg (by omega), add_zero, h.todo (i + 1) (by omega)] at hsame
      have hpos := (abs_nonneg _).trans (hstep (digit o i) (by
        rw [sub_self, abs_zero]
        exact (abs_nonneg q).trans hcarry))
      rw [hsame]
      omega
    case isFalse =>
      have hsame := h.limbs 0 (by omega)
      have hproper := h.done 0 (by omega)
      rw [if_pos hi, if_neg (by omega), add_zero] at hsame
      rw [abs_le]
      omega
  have hself : |digit s i| ≤ 2 ^ 60 := by
    have htriangle := abs_add_le (digit o i) q
    rw [hlimb]
    omega
  apply (carStep_spec hi hself hother).mono
  rintro s' ⟨hkeep, hmove⟩
  constructor
  · exact hstep _ hnear
  · intro j hj
    rw [digit_setDigit r hi]
    split
    · omega
    · exact h.done j (by omega)
  · intro j hj
    rw [digit_setDigit_of_ne r (by omega)]
    exact h.todo j (by omega)
  · intro j hj
    by_cases hji : j = i
    · rw [hji, hkeep, digit_setDigit_same r hi, if_neg (by split <;> omega), add_zero]
    · have hsame := h.limbs j hj
      rw [if_pos hi, if_neg hji, add_zero] at hsame
      rw [hmove j hji hj, hsame, digit_setDigit_of_ne r (Ne.symm hji), hnext]
      congr 2
      split <;> split <;> omega
  · rw [Gf.value, value_setDigit r hi, ← h.value, Gf.value, h.todo i le_rfl,
      pow_succ ((2 : Int) ^ 16) i]
    have hdiv := Int.emod_add_mul_ediv (digit s i) (2 ^ 16)
    have hq : q = digit s i - digit o i := by omega
    rw [hq]
    linear_combination (2 ^ 16 : Int) ^ i * hdiv

/-- One pass, with a bound on the carry into each limb. -/
theorem gfCar_spec {o : Gf} (C : Nat → Int) (hzero : 0 ≤ C 0)
    (hfit : ∀ j < 16, |digit o j| + C j ≤ 2 ^ 59)
    (hstep : ∀ i < 16, ∀ x, |x - digit o i| ≤ C i → |x / 2 ^ 16| ≤ C (i + 1)) :
    Returns (gfCar o) fun s => ∃ q, |q| ≤ C 16 ∧
      (0 ≤ digit s 0 - 38 * q ∧ digit s 0 - 38 * q < 2 ^ 16) ∧
      (∀ i, 0 < i → i < 16 → 0 ≤ digit s i ∧ digit s i < 2 ^ 16) ∧
      s.value = o.value - q * (2 ^ 256 - 38) := by
  have hloop : Returns (gfCar o) fun s => ∃ r q, Passing C o 16 s r q := by
    apply Returns.up fun i s => ∃ r q, Passing C o i s r q
    · refine ⟨o, 0, ?_, ?_, ?_, ?_, ?_⟩
      · rwa [abs_zero]
      · intro j hj
        omega
      · exact fun j _ => rfl
      · intro j _
        rw [zero_mul, ite_self, add_zero]
      · rw [zero_mul, add_zero]
    · rintro i - hi s ⟨r, q, h⟩
      exact (h.step hi hfit (hstep i hi)).mono fun s' h' => ⟨_, _, h'⟩
  apply hloop.mono
  rintro s ⟨r, q, h⟩
  have hlimbs : ∀ j < 16, digit s j = digit r j + if j = 0 then q * 38 else 0 := h.limbs
  have hs : s = setDigit r 0 (digit r 0 + q * 38) := by
    apply ext
    intro j hj
    rw [hlimbs j hj, digit_setDigit r (by omega)]
    by_cases hj₀ : j = 0
    · rw [if_pos hj₀, if_pos hj₀.symm, hj₀]
    · rw [if_neg hj₀, if_neg (Ne.symm hj₀), add_zero]
  refine ⟨q, h.carry, ?_, ?_, ?_⟩
  · have hfirst := hlimbs 0 (by omega)
    have hproper := h.done 0 (by omega)
    rw [if_pos rfl] at hfirst
    omega
  · intro i hpos hi
    rw [hlimbs i hi, if_neg (by omega), add_zero]
    exact h.done i hi
  · rw [hs, Gf.value, value_setDigit r (by omega), ← h.value, Gf.value]
    ring

theorem Gf.el_eq_of_carry {s o : Gf} {q : Int} (h : s.value = o.value - q * (2 ^ 256 - 38)) :
    s.el = o.el := by
  apply Gf.el_eq_of_value (k := -2 * q)
  rw [h, show ((prime : Nat) : Int) = 2 ^ 255 - 19 by rfl]
  ring

/-- Carries out of wide limbs. -/
def wideCarry (i : Nat) : Int := if i = 0 then 0 else 2 ^ 43

/-- Carries when only the first limb is wide: they die out after the third. -/
def dyingCarry : Nat → Int
  | 0 => 0
  | 1 => 2 ^ 34
  | 2 => 2 ^ 19
  | 3 => 16
  | _ => 1

/-- One pass over wide limbs leaves all but the first in range. -/
theorem gfCar_wide {o : Gf} (h : o.Within (2 ^ 58)) : Returns (gfCar o) fun s =>
    |digit s 0| ≤ 2 ^ 49 ∧ (∀ i, 0 < i → i < 16 → 0 ≤ digit s i ∧ digit s i < 2 ^ 16) ∧
      s.el = o.el := by
  have hcarry : ∀ i, wideCarry i ≤ 2 ^ 43 := fun i => by
    rw [wideCarry]
    split <;> omega
  have hpass := gfCar_spec (o := o) wideCarry le_rfl ?_ ?_
  · apply hpass.mono
    rintro s ⟨q, hq, hfirst, hothers, hvalue⟩
    have hq' := abs_le.mp (hq.trans (hcarry 16))
    refine ⟨?_, hothers, Gf.el_eq_of_carry hvalue⟩
    rw [abs_le]
    omega
  · intro j hj
    have hlimb := h j hj
    have hj' := hcarry j
    omega
  · intro i hi x hx
    have hlimb := abs_le.mp (h i hi)
    have hx' := abs_le.mp (hx.trans (hcarry i))
    rw [wideCarry, if_neg (Nat.succ_ne_zero i), abs_le]
    omega

/-- A second pass brings the first limb into range too. -/
theorem gfCar_narrow {o : Gf} (hfirst : |digit o 0| ≤ 2 ^ 49)
    (hothers : ∀ i, 0 < i → i < 16 → 0 ≤ digit o i ∧ digit o i < 2 ^ 16) :
    Returns (gfCar o) fun s => s.Carried ∧ s.el = o.el := by
  have hfirst' := abs_le.mp hfirst
  have hpass := gfCar_spec (o := o) dyingCarry le_rfl ?_ ?_
  · apply hpass.mono
    rintro s ⟨q, hq, hlow, hrest, hvalue⟩
    have hq' := abs_le.mp (show |q| ≤ 1 from hq)
    exact ⟨⟨by omega, hrest⟩, Gf.el_eq_of_carry hvalue⟩
  · intro j hj
    have hcarry : dyingCarry j ≤ 2 ^ 34 := by
      unfold dyingCarry
      split <;> omega
    have hlimb : |digit o j| ≤ 2 ^ 49 := by
      rcases Nat.eq_zero_or_pos j with rfl | hpos
      · exact hfirst
      · have hother := hothers j hpos hj
        rw [abs_le]
        omega
    omega
  · intro i hi x hx
    have hx' := abs_le.mp hx
    rw [abs_le]
    match i, hi, hx' with
    | 0, _, hx' =>
      simp only [dyingCarry] at hx' ⊢
      omega
    | 1, hi, hx' =>
      have hother := hothers 1 (by omega) hi
      simp only [dyingCarry] at hx' ⊢
      omega
    | 2, hi, hx' =>
      have hother := hothers 2 (by omega) hi
      simp only [dyingCarry] at hx' ⊢
      omega
    | 3, hi, hx' =>
      have hother := hothers 3 (by omega) hi
      simp only [dyingCarry] at hx' ⊢
      omega
    | i + 4, hi, hx' =>
      have hother := hothers (i + 4) (by omega) hi
      simp only [dyingCarry] at hx' ⊢
      omega

/-- Two passes carry wide limbs, and change no element. -/
theorem gfCar_twice {o : Gf} (h : o.Within (2 ^ 58)) :
    Returns (gfCar o >>= gfCar) fun s => s.Carried ∧ s.el = o.el := by
  apply (gfCar_wide h).bind
  rintro s ⟨hfirst, hothers, hel⟩
  rw [← hel]
  exact gfCar_narrow hfirst hothers

/-- Sums limb by limb, within the sum of the bounds. -/
theorem gfAdd_spec {a b : Gf} {A B : Int} (ha : a.Within A) (hb : b.Within B)
    (hfit : A + B ≤ 2 ^ 62) :
    Returns (gfAdd a b) fun o => o.Within (A + B) ∧ o.el = a.el + b.el := by
  have hlimb : ∀ i < 16, |digit a i + digit b i| ≤ A + B := fun i hi =>
    (abs_add_le _ _).trans (add_le_add (ha i hi) (hb i hi))
  have hsum := returns_fill (n := 16) (f := fun i => add (digit a i) (digit b i))
    (g := fun i => digit a i + digit b i) fun i hi =>
      word_eq (isWord_of_abs (hlimb i hi) (by omega))
  apply hsum.mono
  intro o ho
  constructor
  · intro i hi
    rw [ho i hi]
    exact hlimb i hi
  · rw [Gf.el, Gf.value, Radix.value, below_congr ho, below_add]
    push_cast
    rfl

/-- Differences limb by limb. -/
theorem gfSub_spec {a b : Gf} {A B : Int} (ha : a.Within A) (hb : b.Within B)
    (hfit : A + B ≤ 2 ^ 62) :
    Returns (gfSub a b) fun o => o.Within (A + B) ∧ o.el = a.el - b.el := by
  have hlimb : ∀ i < 16, |digit a i - digit b i| ≤ A + B := fun i hi =>
    (abs_sub _ _).trans (add_le_add (ha i hi) (hb i hi))
  have hdiff := returns_fill (n := 16) (f := fun i => sub (digit a i) (digit b i))
    (g := fun i => digit a i - digit b i) fun i hi =>
      word_eq (isWord_of_abs (hlimb i hi) (by omega))
  apply hdiff.mono
  intro o ho
  constructor
  · intro i hi
    rw [ho i hi]
    exact hlimb i hi
  · rw [Gf.el, Gf.value, Radix.value, below_congr ho, below_sub]
    push_cast
    rfl

/-- A row adds one limb's multiple of `b`; no cell takes more than one product. -/
theorem mulRow_spec {a b : Gf} {A M : Int} (ha : a.Within A) (hb : b.Within A)
    {t : Vector Int 31} {i : Nat} (hi : i < 16) (ht : ∀ k, |digit t k| ≤ M)
    (hfit : M + A * A ≤ 2 ^ 62) :
    Returns (mulRow a b t i) fun t' => (∀ k, |digit t' k| ≤ M + A * A) ∧
      Radix.value (2 ^ 16) t' =
        Radix.value (2 ^ 16) t + digit a i * (2 ^ 16) ^ i * b.value := by
  have hA : 0 ≤ A * A := mul_self_nonneg A
  have hM : 0 ≤ M := (abs_nonneg _).trans (ht 0)
  have hloop : Returns (mulRow a b t i) fun t' =>
      (∀ k, |digit t' k| ≤ if k < i + 16 then M + A * A else M) ∧
        Radix.value (2 ^ 16) t' = Radix.value (2 ^ 16) t +
          digit a i * (2 ^ 16) ^ i * below (2 ^ 16) (digit b) 16 := by
    apply Returns.up fun j t' => (∀ k, |digit t' k| ≤ if k < i + j then M + A * A else M) ∧
      Radix.value (2 ^ 16) t' = Radix.value (2 ^ 16) t +
        digit a i * (2 ^ 16) ^ i * below (2 ^ 16) (digit b) j
    · constructor
      · intro k
        have hk := ht k
        split <;> omega
      · rw [below_zero, mul_zero, add_zero]
    · rintro j - hj s ⟨hbound, hvalue⟩
      have hproduct := abs_mul_le (ha i hi) (hb j hj)
      have hcell : |digit s (i + j)| ≤ M := by
        have hk := hbound (i + j)
        rwa [if_neg (lt_irrefl _)] at hk
      have hsum : |digit s (i + j) + digit a i * digit b j| ≤ M + A * A :=
        (abs_add_le _ _).trans (add_le_add hcell hproduct)
      apply (Returns.mul (isWord_of_abs hproduct (by omega))).bind
      rintro _ rfl
      apply (Returns.add (isWord_of_abs hsum (by omega))).bind
      rintro _ rfl
      apply Returns.some
      constructor
      · intro k
        rw [digit_setDigit s (by omega)]
        split
        case isTrue hk =>
          rw [if_pos (by omega)]
          exact hsum
        case isFalse hk =>
          have hold := hbound k
          split <;> split at hold <;> omega
      · rw [value_setDigit s (by omega), hvalue, below_succ, pow_add]
        ring
  apply hloop.mono
  rintro t' ⟨hbound, hvalue⟩
  refine ⟨fun k => ?_, hvalue⟩
  have hk := hbound k
  split at hk <;> omega

/-- The upper half comes back times 38. -/
theorem mulFold_spec {t : Vector Int 31} (ht : ∀ k, |digit t k| ≤ 2 ^ 52) :
    Returns (mulFold t) fun t' => ∀ k < 16, digit t' k = digit t k + 38 * digit t (k + 16) := by
  have hloop : Returns (mulFold t) fun t' => ∀ k, digit t' k =
      digit t k + if k < 15 then 38 * digit t (k + 16) else 0 := by
    apply Returns.up fun i t' => ∀ k, digit t' k =
      digit t k + if k < i then 38 * digit t (k + 16) else 0
    · intro k
      rw [if_neg (Nat.not_lt_zero k), add_zero]
    · intro i _ hi s hs
      have hlow : digit s i = digit t i := by rw [hs, if_neg (lt_irrefl i), add_zero]
      have hhigh : digit s (i + 16) = digit t (i + 16) := by
        rw [hs, if_neg (by omega), add_zero]
      have hl := abs_le.mp (ht i)
      have hh := abs_le.mp (ht (i + 16))
      rw [hlow, hhigh]
      apply (Returns.mul ⟨by omega, by omega⟩).bind
      rintro _ rfl
      apply (Returns.add ⟨by omega, by omega⟩).bind
      rintro _ rfl
      apply Returns.some
      intro k
      rw [digit_setDigit s (by omega)]
      split
      case isTrue hk => rw [← hk, if_pos (Nat.lt_succ_self i)]
      case isFalse hk =>
        rw [hs k]
        congr 1
        split <;> split <;> omega
  apply hloop.mono
  intro t' ht' k hk
  rw [ht' k]
  split
  case isTrue => rfl
  case isFalse hlast => rw [digit_of_le t (show 31 ≤ k + 16 by omega), mul_zero]

/-- The product of two elements with limbs within 2^24, carried. -/
theorem gfMul_spec {a b : Gf} (ha : a.Within (2 ^ 24)) (hb : b.Within (2 ^ 24)) :
    Returns (gfMul a b) fun o => o.Carried ∧ o.el = a.el * b.el := by
  have hrows : Returns (up 0 16 (mulRow a b) (zero 31)) fun t =>
      (∀ k, |digit t k| ≤ (0 + 16 : Nat) * (2 ^ 24 * 2 ^ 24)) ∧
        Radix.value (2 ^ 16) t = below (2 ^ 16) (digit a) (0 + 16) * b.value := by
    apply Returns.up fun i t => (∀ k, |digit t k| ≤ (i : Int) * (2 ^ 24 * 2 ^ 24)) ∧
      Radix.value (2 ^ 16) t = below (2 ^ 16) (digit a) i * b.value
    · constructor
      · intro k
        rw [digit_zero, abs_zero, Nat.cast_zero, zero_mul]
      · rw [value_zero, below_zero, zero_mul]
    · rintro i - hi t ⟨hbound, hvalue⟩
      apply (mulRow_spec ha hb (by omega) hbound (by omega)).mono
      rintro t' ⟨hbound', hvalue'⟩
      constructor
      · intro k
        have hk := hbound' k
        push_cast
        omega
      · rw [hvalue', hvalue, below_succ]
        ring
  apply hrows.bind
  rintro t ⟨hbound, hvalue⟩
  have hcell : ∀ k, |digit t k| ≤ 2 ^ 52 := fun k => (hbound k).trans (by norm_num)
  apply (mulFold_spec hcell).bind
  intro t' ht'
  apply (returns_fill (n := 16) (f := fun i => some (digit t' i)) fun i _ => rfl).bind
  intro (o : Gf) ho
  have hlimbs : ∀ k < 16, digit o k = digit t k + 38 * digit t (16 + k) := fun k hk => by
    rw [ho k hk, ht' k hk, Nat.add_comm k]
  have hwithin : o.Within (2 ^ 58) := by
    intro k hk
    have hl := abs_le.mp (hcell k)
    have hh := abs_le.mp (hcell (16 + k))
    rw [hlimbs k hk, abs_le]
    omega
  apply (gfCar_twice hwithin).mono
  rintro s ⟨hcarried, hel⟩
  refine ⟨hcarried, hel.trans ?_⟩
  -- the product over 31 limbs, its upper part counting 2^256 times
  have hfull : below (2 ^ 16) (digit t) (16 + 16) = Radix.value (2 ^ 16) t := by
    rw [Radix.value, below_succ, digit_of_le t le_rfl, zero_mul, add_zero]
  rw [below_split] at hfull
  have hvalue' : o.value = a.value * b.value +
      (-2 * below (2 ^ 16) (fun i => digit t (16 + i)) 16) * prime := by
    rw [Gf.value, Radix.value, below_congr hlimbs, below_add, below_const_mul,
      show a.value * b.value = Radix.value (2 ^ 16) t from hvalue.symm, ← hfull,
      show ((prime : Nat) : Int) = 2 ^ 255 - 19 by rfl]
    ring
  rw [Gf.el, hvalue', Gf.el, Gf.el]
  push_cast
  rw [ZMod.natCast_self, mul_zero, add_zero]

theorem gfSq_spec {a : Gf} (ha : a.Within (2 ^ 24)) :
    Returns (gfSq a) fun o => o.Carried ∧ o.el = a.el * a.el := gfMul_spec ha ha

end Keylight.Ed25519
