import Keylight.Curve25519
import Keylight.ScalarReduction
import Mathlib.GroupTheory.OrderOfElement

/-!
# The order of the base point

`kL` holds a prime, and that many times the base point is neutral, so multiples
of the base point count modulo `kL`.
-/
namespace Keylight.Ed25519
open Primality Edwards

/-- The larger factors of `order - 1`, of their predecessors and so on, and `order`. -/
def orderChain : List Entry :=
  [⟨292386187, 2, [2, 3, 3, 3, 3, 307, 5879]⟩,
   ⟨213441916511, 13, [2, 5, 73, 292386187]⟩,
   ⟨1257559732178653, 2, [2, 2, 3, 7, 23, 531581, 1224481]⟩,
   ⟨4434155615661930479, 17, [2, 41, 43, 1257559732178653]⟩,
   ⟨172054593956031949258510691, 2, [2, 5, 1361, 2851, 4434155615661930479]⟩,
   ⟨19757330305831588566944191468367130476339, 2,
    [2, 269, 213441916511, 172054593956031949258510691]⟩,
   ⟨276602624281642239937218680557139826668747, 2,
    [2, 7, 19757330305831588566944191468367130476339]⟩,
   ⟨58964693, 2, [2, 2, 14741173]⟩,
   ⟨3044861653679985063343, 5, [2, 3, 11, 30703, 82163, 132667, 137849]⟩,
   ⟨198211423230930754013084525763697, 5,
    [2, 2, 2, 2, 3, 23, 58964693, 3044861653679985063343]⟩,
   ⟨order, 2, [2, 2, 3, 11, 198211423230930754013084525763697,
    276602624281642239937218680557139826668747]⟩]

theorem order_prime : order.Prime := by
  have hknown : ∀ q ∈ [2, 3, 5, 7, 11, 23, 41, 43, 73, 269, 307, 1361, 2851, 5879, 30703, 82163,
      132667, 137849, 531581, 1224481, 14741173], q.Prime := by norm_num
  have hchain := chain_prime hknown (show chainPasses _ orderChain = true by decide +kernel)
  exact hchain order (by simp [orderChain])

/-- The base point in extended coordinates. -/
def baseExtended : Extended Int := ⟨kBX.value, kBY.value, 1, kBX.value * kBY.value⟩

theorem represents_base : (baseExtended.cast : Extended (ZMod prime)).Represents base := by
  constructor
  · rw [baseExtended, Extended.cast, Int.cast_one]
    exact one_ne_zero
  · rw [baseExtended, Extended.cast, Int.cast_one, mul_one]
    rfl
  · rw [baseExtended, Extended.cast, Int.cast_one, mul_one]
    rfl
  · rw [baseExtended, Extended.cast, Int.cast_one, mul_one, Int.cast_mul]
    rfl

/-- Multiples of the base point, evaluated. -/
theorem represents_nsmul_base {n : Nat} (hn : n < 2 ^ 253) :
    ((Extended.mulMod prime kD2.value baseExtended 253 n).cast :
      Extended (ZMod prime)).Represents (n • base) := by
  have hprime : ((prime : Int) : ZMod prime) = 0 := by
    rw [Int.cast_natCast, ZMod.natCast_self]
  have hd : (kD2.value : ZMod prime) = curve.d + curve.d := kD2_el
  exact represents_base.mulMod rfl hprime hd hn

theorem order_nsmul_base : order • base = 0 := by
  have hmultiple := represents_nsmul_base (show order < 2 ^ 253 by decide)
  have hcoords : (Extended.mulMod prime kD2.value baseExtended 253 order).X = 0 ∧
      (Extended.mulMod prime kD2.value baseExtended 253 order).Y =
        (Extended.mulMod prime kD2.value baseExtended 253 order).Z := by decide +kernel
  apply hmultiple.eq_zero
  · rw [Extended.cast, hcoords.1, Int.cast_zero]
  · rw [Extended.cast, hcoords.2]

theorem base_ne_zero : base ≠ 0 := by
  intro h
  have hx : kBX.el = 0 := congrArg Point.x h
  rw [Gf.el, ZMod.intCast_zmod_eq_zero_iff_dvd] at hx
  exact absurd (Int.emod_eq_zero_of_dvd hx) (by decide +kernel)

theorem addOrderOf_base : addOrderOf base = order := by
  have hfact : Fact order.Prime := ⟨order_prime⟩
  exact addOrderOf_eq_prime order_nsmul_base base_ne_zero

/-- Scalars of the base point count modulo the order. -/
theorem nsmul_base_eq_iff {m n : Nat} : m • base = n • base ↔ m % order = n % order := by
  rw [nsmul_eq_nsmul_iff_modEq, addOrderOf_base, Nat.ModEq]

theorem mod_nsmul_base (n : Nat) : (n % order) • base = n • base :=
  nsmul_base_eq_iff.mpr (Nat.mod_mod n order)

/-- A point made with a scalar has the order of the base point. -/
theorem addOrderOf_nsmul_base {a : Nat} (h : a % order ≠ 0) : addOrderOf (a • base) = order := by
  have hfact : Fact order.Prime := ⟨order_prime⟩
  apply addOrderOf_eq_prime
  · rw [nsmul_left_comm, order_nsmul_base, nsmul_zero]
  · intro hzero
    rw [← zero_nsmul base] at hzero
    exact h (nsmul_base_eq_iff.mp hzero)

end Keylight.Ed25519
