import Keylight.Edwards
import Keylight.FieldElements
import Keylight.Primality
import Mathlib.NumberTheory.LegendreSymbol.Basic
import Mathlib.Tactic.NormNum.Prime

/-!
# The curve of the signature

The field is one: 2^255 - 19 is prime. In it -1 has the root `kI` and `kD` has
none, so the curve is complete, and `kBX`, `kBY` are the coordinates of a point.
-/
namespace Keylight.Ed25519
open Radix Primality

/-- The larger factors of `prime - 1`, of their predecessors and so on, and `prime`. -/
def primeChain : List Entry :=
  [⟨2773320623, 5, [2, 2437, 569003]⟩,
   ⟨72106336199, 7, [2, 13, 2773320623]⟩,
   ⟨1919519569386763, 2, [2, 3, 7, 19, 47, 47, 127, 8574133]⟩,
   ⟨31757755568855353, 10, [2, 2, 2, 3, 31, 107, 223, 4153, 430751]⟩,
   ⟨75445702479781427272750846543864801, 7,
    [2, 2, 2, 2, 2, 3, 3, 5, 5, 75707, 72106336199, 1919519569386763]⟩,
   ⟨74058212732561358302231226437062788676166966415465897661863160754340907, 2,
    [2, 3, 353, 57467, 132049, 1923133, 31757755568855353,
     75445702479781427272750846543864801]⟩,
   ⟨prime, 2,
    [2, 2, 3, 65147, 74058212732561358302231226437062788676166966415465897661863160754340907]⟩]

theorem prime_prime : prime.Prime := by
  have hknown : ∀ q ∈ [2, 3, 5, 7, 13, 19, 31, 47, 107, 127, 223, 353, 2437, 4153, 57467, 65147,
      75707, 132049, 430751, 569003, 1923133, 8574133], q.Prime := by norm_num
  have hchain := chain_prime hknown (show chainPasses _ primeChain = true by decide +kernel)
  exact hchain prime (by simp [primeChain])

instance : Fact prime.Prime := ⟨prime_prime⟩

def kGf0 : Gf := #v[0, 0, 0, 0, 0, 0, 0, 0, 0, 0, 0, 0, 0, 0, 0, 0]

def kGf1 : Gf := #v[1, 0, 0, 0, 0, 0, 0, 0, 0, 0, 0, 0, 0, 0, 0, 0]

/-- The coefficient `d`, -121665/121666. -/
def kD : Gf :=
  #v[0x78a3, 0x1359, 0x4dca, 0x75eb, 0xd8ab, 0x4141, 0x0a4d, 0x0070,
    0xe898, 0x7779, 0x4079, 0x8cc7, 0xfe73, 0x2b6f, 0x6cee, 0x5203]

def kD2 : Gf :=
  #v[0xf159, 0x26b2, 0x9b94, 0xebd6, 0xb156, 0x8283, 0x149a, 0x00e0,
    0xd130, 0xeef3, 0x80f2, 0x198e, 0xfce7, 0x56df, 0xd9dc, 0x2406]

/-- A root of -1. -/
def kI : Gf :=
  #v[0xa0b0, 0x4a0e, 0x1b27, 0xc4ee, 0xe478, 0xad2f, 0x1806, 0x2f43,
    0xd7a7, 0x3dfb, 0x0099, 0x2b4d, 0xdf0b, 0x4fc1, 0x2480, 0x2b83]

def kBX : Gf :=
  #v[0xd51a, 0x8f25, 0x2d60, 0xc956, 0xa7b2, 0x9525, 0xc760, 0x692c,
    0xdc5c, 0xfdd6, 0xe231, 0xc0a4, 0x53fe, 0xcd6e, 0x36d3, 0x2169]

def kBY : Gf :=
  #v[0x6658, 0x6666, 0x6666, 0x6666, 0x6666, 0x6666, 0x6666, 0x6666,
    0x6666, 0x6666, 0x6666, 0x6666, 0x6666, 0x6666, 0x6666, 0x6666]

/-- An equation of elements, as one of numbers. -/
theorem intCast_eq {x y : Int} (h : (x - y) % prime = 0) : (x : ZMod prime) = (y : ZMod prime) := by
  rw [← sub_eq_zero, ← Int.cast_sub, ZMod.intCast_zmod_eq_zero_iff_dvd]
  exact Int.dvd_of_emod_eq_zero h

@[simp] theorem kGf0_el : kGf0.el = 0 := by
  have hvalue : kGf0.value = 0 := by decide +kernel
  rw [Gf.el, hvalue, Int.cast_zero]

@[simp] theorem kGf1_el : kGf1.el = 1 := by
  have hvalue : kGf1.value = 1 := by decide +kernel
  rw [Gf.el, hvalue, Int.cast_one]

theorem kD2_el : kD2.el = kD.el + kD.el := by
  have hcast := intCast_eq (x := kD2.value) (y := kD.value + kD.value) (by decide +kernel)
  rwa [Int.cast_add] at hcast

theorem kI_sq : kI.el * kI.el = -1 := by
  have hcast := intCast_eq (x := kI.value * kI.value) (y := -1) (by decide +kernel)
  rwa [Int.cast_mul, Int.cast_neg, Int.cast_one] at hcast

/-- The coefficient `d` has no root: its power by half the group order is not 1. -/
theorem kD_nonsquare (r : ZMod prime) : r * r ≠ kD.el := by
  intro hr
  have hnat : kD.el = ((kD.value.toNat : Nat) : ZMod prime) := by
    have hcast : ((kD.value.toNat : Nat) : Int) = kD.value := by decide +kernel
    rw [← Int.cast_natCast, hcast, Gf.el]
  have hne : kD.el ≠ 0 := by
    rw [hnat, Ne, ZMod.natCast_eq_zero_iff]
    intro hdvd
    exact absurd (Nat.mod_eq_zero_of_dvd hdvd) (by decide +kernel)
  have heuler := (ZMod.euler_criterion prime hne).mp ⟨r, hr.symm⟩
  rw [hnat, natCast_pow_eq_one_iff (by decide), ← powMod_eq (k := 255) _ _ (by decide)] at heuler
  exact absurd heuler (by decide +kernel)

/-- The curve `-x² + y² = 1 + d x² y²`. -/
def curve : Edwards.Coefficients (ZMod prime) where
  a := -1
  d := kD.el
  s := kI.el
  s_sq := kI_sq
  a_ne_zero := neg_ne_zero.mpr one_ne_zero
  nonsquare := kD_nonsquare
  two_ne_zero := by
    have htwo : ((2 : Nat) : ZMod prime) ≠ 0 := by
      rw [Ne, ZMod.natCast_eq_zero_iff]
      exact fun h => absurd (Nat.le_of_dvd (by decide) h) (by decide)
    exact_mod_cast htwo

/-- The base point. -/
def base : Edwards.Point curve where
  x := kBX.el
  y := kBY.el
  on := by
    have hcast := intCast_eq (x := -1 * kBX.value ^ 2 + kBY.value ^ 2)
      (y := 1 + kD.value * kBX.value ^ 2 * kBY.value ^ 2) (by decide +kernel)
    push_cast at hcast
    exact hcast

end Keylight.Ed25519
