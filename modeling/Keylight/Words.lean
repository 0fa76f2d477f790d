import Mathlib.Data.Nat.Digits.Defs
import Mathlib.Tactic.Ring

/-!
# Words

Machine words as numbers: sums and products that do not wrap, shifts and masks
as division and remainder, and words as little-endian bytes.
-/
namespace Words

/-- A sum that fits. -/
def add32 (a b : UInt32) : Option UInt32 :=
  if a.toNat + b.toNat < 2 ^ 32 then some (a + b) else none

def mul32 (a b : UInt32) : Option UInt32 :=
  if a.toNat * b.toNat < 2 ^ 32 then some (a * b) else none

def add64 (a b : UInt64) : Option UInt64 :=
  if a.toNat + b.toNat < 2 ^ 64 then some (a + b) else none

def mul64 (a b : UInt64) : Option UInt64 :=
  if a.toNat * b.toNat < 2 ^ 64 then some (a * b) else none

/-- A conversion that drops no bits. -/
def narrow (a : UInt64) : Option UInt32 :=
  if a.toNat < 2 ^ 32 then some a.toUInt32 else none

section
variable {a b : UInt32} {x y : UInt64}

theorem add32_eq (h : a.toNat + b.toNat < 2 ^ 32) : add32 a b = some (a + b) := if_pos h

theorem mul32_eq (h : a.toNat * b.toNat < 2 ^ 32) : mul32 a b = some (a * b) := if_pos h

theorem add64_eq (h : x.toNat + y.toNat < 2 ^ 64) : add64 x y = some (x + y) := if_pos h

theorem mul64_eq (h : x.toNat * y.toNat < 2 ^ 64) : mul64 x y = some (x * y) := if_pos h

theorem narrow_eq (h : x.toNat < 2 ^ 32) : narrow x = some x.toUInt32 := if_pos h

theorem toNat_add32 (h : a.toNat + b.toNat < 2 ^ 32) : (a + b).toNat = a.toNat + b.toNat := by
  rw [UInt32.toNat_add, Nat.mod_eq_of_lt h]

theorem toNat_mul32 (h : a.toNat * b.toNat < 2 ^ 32) : (a * b).toNat = a.toNat * b.toNat := by
  rw [UInt32.toNat_mul, Nat.mod_eq_of_lt h]

theorem toNat_add64 (h : x.toNat + y.toNat < 2 ^ 64) : (x + y).toNat = x.toNat + y.toNat := by
  rw [UInt64.toNat_add, Nat.mod_eq_of_lt h]

theorem toNat_mul64 (h : x.toNat * y.toNat < 2 ^ 64) : (x * y).toNat = x.toNat * y.toNat := by
  rw [UInt64.toNat_mul, Nat.mod_eq_of_lt h]

end

theorem toNat_shiftRight32 (a k : UInt32) (hk : k.toNat < 32) :
    (a >>> k).toNat = a.toNat / 2 ^ k.toNat := by
  rw [UInt32.toNat_shiftRight, Nat.mod_eq_of_lt hk, Nat.shiftRight_eq_div_pow]

theorem toNat_shiftRight64 (a k : UInt64) (hk : k.toNat < 64) :
    (a >>> k).toNat = a.toNat / 2 ^ k.toNat := by
  rw [UInt64.toNat_shiftRight, Nat.mod_eq_of_lt hk, Nat.shiftRight_eq_div_pow]

/-- The low bits. -/
theorem toNat_and_low {m : UInt32} {k : Nat} (hm : m.toNat = 2 ^ k - 1) (a : UInt32) :
    (a &&& m).toNat = a.toNat % 2 ^ k := by
  rw [UInt32.toNat_and, hm, Nat.and_two_pow_sub_one_eq_mod]

/-- A mask sees only the bits it covers. -/
theorem mod_and {m k : Nat} (hm : m < 2 ^ k) (n : Nat) : n % 2 ^ k &&& m = n &&& m := by
  have hle : n &&& m ≤ m := Nat.and_le_right
  have hboth := Nat.and_mod_two_pow (a := n) (b := m) (n := k)
  rw [Nat.mod_eq_of_lt hm, Nat.mod_eq_of_lt (hle.trans_lt hm)] at hboth
  exact hboth.symm

/-- Bits set beside each other. -/
theorem toNat_or_disjoint {a b : UInt32} {k c : Nat} (ha : a.toNat < 2 ^ k)
    (hb : b.toNat = 2 ^ k * c) : (a ||| b).toNat = a.toNat + 2 ^ k * c := by
  rw [UInt32.toNat_or, hb, Nat.or_comm, ← Nat.two_pow_add_eq_or_of_lt ha, Nat.add_comm]

theorem toNat_shiftLeft32 (a k : UInt32) (hk : k.toNat < 32) :
    (a <<< k).toNat = 2 ^ k.toNat * (a.toNat % 2 ^ (32 - k.toNat)) := by
  have hsplit : 2 ^ 32 = 2 ^ k.toNat * 2 ^ (32 - k.toNat) := by
    rw [← Nat.pow_add, Nat.add_sub_cancel' (Nat.le_of_lt hk)]
  rw [UInt32.toNat_shiftLeft, Nat.mod_eq_of_lt hk, Nat.shiftLeft_eq, hsplit, Nat.mul_comm a.toNat,
    Nat.mul_mod_mul_left]

/-- The number whose bytes these are, the lowest first. -/
def leValue (bs : List UInt8) : Nat := Nat.ofDigits 256 (bs.map UInt8.toNat)

theorem map_toNat_lt (bs : List UInt8) : ∀ n ∈ bs.map UInt8.toNat, n < 256 := by
  intro n hn
  obtain ⟨b, -, rfl⟩ := List.mem_map.mp hn
  exact b.toNat_lt

theorem leValue_nil : leValue [] = 0 := rfl

theorem leValue_cons (b : UInt8) (bs : List UInt8) :
    leValue (b :: bs) = b.toNat + 256 * leValue bs := by
  rw [leValue, List.map_cons, Nat.ofDigits_cons]
  rfl

theorem leValue_append (as bs : List UInt8) :
    leValue (as ++ bs) = leValue as + 256 ^ as.length * leValue bs := by
  rw [leValue, List.map_append, Nat.ofDigits_append, List.length_map]
  rfl

theorem leValue_lt (bs : List UInt8) : leValue bs < 256 ^ bs.length := by
  have h := Nat.ofDigits_lt_base_pow_length (by decide) (map_toNat_lt bs)
  rw [List.length_map] at h
  exact h

theorem leValue_zeros (k : Nat) : leValue (List.replicate k 0) = 0 := by
  rw [leValue, List.map_replicate]
  exact Nat.ofDigits_replicate_zero

theorem leValue_take (k : Nat) (bs : List UInt8) : leValue (bs.take k) = leValue bs % 256 ^ k := by
  rw [leValue, List.map_take, leValue,
    Nat.ofDigits_mod_pow_eq_ofDigits_take k (by decide) _ (map_toNat_lt bs)]

theorem leValue_drop (k : Nat) (bs : List UInt8) : leValue (bs.drop k) = leValue bs / 256 ^ k := by
  rw [leValue, List.map_drop, leValue,
    Nat.ofDigits_div_pow_eq_ofDigits_drop k (by decide) _ (map_toNat_lt bs)]

/-- The byte at a place, zero past the end. -/
theorem leValue_getD (k : Nat) (bs : List UInt8) :
    (bs.getD k 0).toNat = leValue bs / 256 ^ k % 256 := by
  rw [← leValue_drop, List.getD_eq_getElem?_getD, ← List.head?_drop]
  cases bs.drop k with
  | nil => rfl
  | cons b bs =>
    have hb : b.toNat < 256 := b.toNat_lt
    rw [leValue_cons, Nat.add_mul_mod_self_left, Nat.mod_eq_of_lt hb]
    rfl

end Words
