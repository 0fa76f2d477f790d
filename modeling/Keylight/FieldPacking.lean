import Keylight.Bytes
import Keylight.Curve25519
import Keylight.Words

/-!
# Packed field elements

An element has one packed form, the 32 little-endian bytes of its least
representative. Packing carries three times and subtracts the prime at most
twice; comparing packed forms compares the elements.
-/
namespace Keylight.Ed25519
open Checked Radix Words

/-- A conversion to `kl_u8`. -/
def toByte (x : Int) : UInt8 := UInt8.ofNat (x % 256).toNat

/-- `gf_cswap`: the two change places when `b` is 1. -/
def gfCswap (p q : Gf) (b : UInt8) : Option (Gf × Gf) :=
  let mask := -(b.toNat : Int)
  up 0 16 (fun pq i =>
    let t := Int.land mask (Int.xor (digit pq.1 i) (digit pq.2 i))
    some (setDigit pq.1 i (Int.xor (digit pq.1 i) t),
      setDigit pq.2 i (Int.xor (digit pq.2 i) t))) (p, q)

/-- One subtraction of the prime, limb by limb with a borrow. -/
def packSub (t : Gf) : Option Gf := do
  let x ← sub (digit t 0) 0xffed
  let m ← up 1 14 (fun m i => do
    let x ← sub (digit t i) 0xffff
    let x ← sub x (Int.land (digit m (i - 1) >>> (16 : Nat)) 1)
    let m := setDigit m i x
    some (setDigit m (i - 1) (Int.land (digit m (i - 1)) 0xffff))) (setDigit (zero 16) 0 x)
  let x ← sub (digit t 15) 0x7fff
  let x ← sub x (Int.land (digit m 14 >>> (16 : Nat)) 1)
  some (setDigit m 15 x)

/-- One turn of the loop of `gf_pack`: the difference is kept unless it is negative. -/
def packTurn (t : Gf) : Option Gf := do
  let m ← packSub t
  let b := Int.land (digit m 15 >>> (16 : Nat)) 1
  let m := setDigit m 14 (Int.land (digit m 14) 0xffff)
  let tm ← gfCswap t m (toByte (1 - b))
  some tm.1

def limbBytes (t : Gf) : Bytes :=
  (List.range 16).flatMap fun i => [toByte (digit t i), toByte (digit t i >>> (8 : Nat))]

def gfPack (n : Gf) : Option Bytes := do
  let t ← gfCar n
  let t ← gfCar t
  let t ← gfCar t
  let t ← packTurn t
  let t ← packTurn t
  some (limbBytes t)

def gfNeq (a b : Gf) : Option Bool := do
  let c ← gfPack a
  let d ← gfPack b
  some ((List.zipWith (· ^^^ ·) c d).foldl (· ||| ·) 0 != 0)

def gfPar (a : Gf) : Option UInt8 := do
  let d ← gfPack a
  some (d.getD 0 0 &&& 1)

def gfUnpack (n : Bytes) : Option Gf := do
  let o ← fill 16 fun i =>
    add (n.getD (2 * i) 0).toNat (((n.getD (2 * i + 1) 0).toNat : Int) <<< (8 : Nat))
  some (setDigit o 15 (Int.land (digit o 15) 0x7fff))

/-- A swap, or none. -/
theorem gfCswap_eq (p q : Gf) (swap : Bool) :
    gfCswap p q (if swap then 1 else 0) = some (if swap then (q, p) else (p, q)) := by
  have hloop : Returns (gfCswap p q (if swap then 1 else 0)) fun pq => ∀ j,
      digit pq.1 j = (if swap ∧ j < 16 then digit q j else digit p j) ∧
      digit pq.2 j = (if swap ∧ j < 16 then digit p j else digit q j) := by
    apply Returns.up fun i (pq : Gf × Gf) => ∀ j,
      digit pq.1 j = (if swap ∧ j < i then digit q j else digit p j) ∧
      digit pq.2 j = (if swap ∧ j < i then digit p j else digit q j)
    · intro j
      simp
    · rintro i - hi pq h
      apply Returns.some
      intro j
      obtain ⟨hp, hq⟩ := h j
      obtain ⟨hpi, hqi⟩ := h i
      rw [if_neg (by omega)] at hpi hqi
      rw [digit_setDigit _ hi, digit_setDigit _ hi, hpi, hqi]
      cases swap with
      | false =>
        simp only [Bool.false_eq_true, if_false, false_and, UInt8.toNat_zero, Nat.cast_zero,
          neg_zero, land_zero_left, xor_zero_right] at hp hq ⊢
        constructor
        · split
          case isTrue hij => rw [hij]
          case isFalse => exact hp
        · split
          case isTrue hij => rw [hij]
          case isFalse => exact hq
      | true =>
        simp only [if_true, true_and, UInt8.toNat_one, Nat.cast_one, land_neg_one_left,
          xor_xor_cancel_left, xor_xor_cancel_right] at hp hq ⊢
        constructor
        · split
          case isTrue hij => rw [hij, if_pos (by omega)]
          case isFalse hij =>
            rw [hp]
            split <;> split <;> omega
        · split
          case isTrue hij => rw [hij, if_pos (by omega)]
          case isFalse hij =>
            rw [hq]
            split <;> split <;> omega
  obtain ⟨pq, hpq, hdigits⟩ := hloop
  rw [hpq]
  congr 1
  cases swap with
  | false =>
    apply Prod.ext
    · exact ext fun j _ => by simpa using (hdigits j).1
    · exact ext fun j _ => by simpa using (hdigits j).2
  | true =>
    apply Prod.ext
    · exact ext fun j hj => by simpa [hj] using (hdigits j).1
    · exact ext fun j hj => by simpa [hj] using (hdigits j).2

/-- The limbs of the prime. -/
def primeDigit (i : Nat) : Int := if i = 0 then 0xffed else if i = 15 then 0x7fff else 0xffff

theorem below_primeDigit : below (2 ^ 16) primeDigit 16 = prime := by
  simp only [below, Finset.sum_range_succ, Finset.sum_range_zero, primeDigit]
  norm_num [prime]

/-- Limbs of 16 bits each. -/
def Gf.Proper (a : Gf) : Prop := Radix.Proper (2 ^ 16) (digit a) 16

theorem Gf.Proper.value_lt {a : Gf} (h : a.Proper) : 0 ≤ a.value ∧ a.value < 2 ^ 256 := by
  have hlt := Radix.Proper.below_lt h (by norm_num)
  rwa [← pow_mul] at hlt

/-- The borrow out of a difference of limbs. -/
theorem land_borrow {x : Int} (hlow : -2 ^ 16 ≤ x) (hhigh : x < 2 ^ 16) :
    Int.land (x >>> (16 : Nat)) 1 = if x < 0 then 1 else 0 := by
  have hmask := land_mask (x >>> (16 : Nat)) 1
  rw [pow_one, shiftRight_eq] at hmask
  rw [show (1 : Int) = 2 - 1 by rfl, shiftRight_eq, hmask]
  split <;> omega

theorem land_limb (x : Int) : Int.land x 0xffff = x % 2 ^ 16 := land_mask x 16

/-- The difference before limb `i`: the last limb written is not masked yet. -/
structure Borrowing (t : Gf) (i : Nat) (m : Gf) : Prop where
  masked : ∀ j, j + 1 < i → 0 ≤ digit m j ∧ digit m j < 2 ^ 16
  last : -2 ^ 16 ≤ digit m (i - 1) ∧ digit m (i - 1) < 2 ^ 16
  unwritten : ∀ j, i ≤ j → digit m j = 0
  value : m.value = below (2 ^ 16) (fun j => digit t j - primeDigit j) i

/-- Writing a limb of the difference and masking the one before. -/
theorem Borrowing.step {t m : Gf} {i : Nat} (h : Borrowing t i m) (hpos : 0 < i) (hi : i < 16)
    (ht : t.Proper) {x : Int}
    (hx : x = digit t i - primeDigit i - if digit m (i - 1) < 0 then 1 else 0) :
    Borrowing t (i + 1) (setDigit (setDigit m i x) (i - 1) (digit m (i - 1) % 2 ^ 16)) := by
  have htop := ht i hi
  have hprime : 0 ≤ primeDigit i ∧ primeDigit i < 2 ^ 16 := by
    rw [primeDigit]
    split
    · omega
    · split <;> omega
  have hlast := h.last
  have hlt : i - 1 < 16 := by omega
  have hne : i - 1 ≠ i := by omega
  constructor
  · intro j hj
    rw [digit_setDigit _ hlt]
    split
    · omega
    · rw [digit_setDigit_of_ne _ (by omega)]
      exact h.masked j (by omega)
  · rw [Nat.add_sub_cancel, digit_setDigit_of_ne _ hne, digit_setDigit_same _ hi, hx]
    split <;> omega
  · intro j hj
    rw [digit_setDigit_of_ne _ (by omega), digit_setDigit_of_ne _ (by omega)]
    exact h.unwritten j (by omega)
  · rw [Gf.value, value_setDigit _ hlt, value_setDigit _ hi, digit_setDigit_of_ne _ hne.symm,
      h.unwritten i le_rfl, below_succ, ← h.value, Gf.value]
    have hpow : (2 ^ 16 : Int) ^ i = 2 ^ 16 * (2 ^ 16) ^ (i - 1) := by
      rw [← pow_succ', Nat.sub_add_cancel hpos]
    have hmask : digit m (i - 1) % 2 ^ 16 =
        digit m (i - 1) + 2 ^ 16 * if digit m (i - 1) < 0 then 1 else 0 := by
      split <;> omega
    rw [hx, hmask, hpow]
    ring

/-- The difference from the prime, its last two limbs not masked. -/
theorem packSub_spec {t : Gf} (ht : t.Proper) : Returns (packSub t) fun m =>
    -2 ^ 16 ≤ digit m 15 ∧ digit m 15 ≤ 2 ^ 15 ∧
      Borrowing t 16 (setDigit m 14 (digit m 14 % 2 ^ 16)) := by
  have h₀ := ht 0 (by omega)
  have h₁₅ := ht 15 (by omega)
  rw [packSub]
  apply (Returns.sub ⟨by omega, by omega⟩).bind
  rintro _ rfl
  have hloop : Returns (up 1 14 (fun m i => do
      let x ← sub (digit t i) 0xffff
      let x ← sub x (Int.land (digit m (i - 1) >>> (16 : Nat)) 1)
      let m := setDigit m i x
      some (setDigit m (i - 1) (Int.land (digit m (i - 1)) 0xffff)))
        (setDigit (zero 16) 0 (digit t 0 - 0xffed))) (Borrowing t (1 + 14)) := by
    apply Returns.up (Borrowing t)
    · constructor
      · intro j hj
        omega
      · rw [digit_setDigit_same _ (by omega)]
        omega
      · intro j hj
        rw [digit_setDigit_of_ne _ (by omega), digit_zero]
      · rw [Gf.value, value_setDigit _ (by omega), value_zero, digit_zero, below_succ, below_zero,
          sub_zero]
        rfl
    · intro i hpos hi m h
      have hi' := ht i (by omega)
      have hlast := h.last
      rw [land_borrow hlast.1 hlast.2]
      apply (Returns.sub ⟨by omega, by omega⟩).bind
      rintro _ rfl
      apply (Returns.sub (by split <;> exact ⟨by omega, by omega⟩)).bind
      rintro _ rfl
      apply Returns.some
      rw [digit_setDigit_of_ne _ (by omega), land_limb]
      have hprime : primeDigit i = 0xffff := by
        rw [primeDigit, if_neg (by omega), if_neg (by omega)]
      apply h.step (by omega) (by omega) ht
      rw [hprime]
  apply hloop.bind
  intro m h
  have hlast := h.last
  rw [show 1 + 14 - 1 = 14 by rfl] at hlast
  rw [land_borrow hlast.1 hlast.2]
  apply (Returns.sub ⟨by omega, by omega⟩).bind
  rintro _ rfl
  apply (Returns.sub (by split <;> exact ⟨by omega, by omega⟩)).bind
  rintro _ rfl
  apply Returns.some
  rw [digit_setDigit_same _ (by omega), digit_setDigit_of_ne _ (by omega)]
  refine ⟨by split <;> omega, by split <;> omega, ?_⟩
  exact h.step (by omega) (by omega) ht rfl

/-- A turn subtracts the prime if the number is that large. -/
theorem packTurn_spec {t : Gf} (ht : t.Proper) : Returns (packTurn t) fun s => s.Proper ∧
    s.value = if t.value < prime then t.value else t.value - prime := by
  rw [packTurn]
  apply (packSub_spec ht).bind
  rintro m ⟨hlow, hhigh, h⟩
  obtain ⟨d, hm⟩ : ∃ d : Gf, setDigit m 14 (digit m 14 % 2 ^ 16) = d := ⟨_, rfl⟩
  rw [hm] at h
  have hd₁₅ : digit d 15 = digit m 15 := by
    rw [← hm, digit_setDigit_of_ne _ (by omega)]
  have hdiff : d.value = t.value - prime := by
    rw [h.value, below_sub, below_primeDigit, Gf.value, Radix.value]
  have hsplit : d.value = below (2 ^ 16) (digit d) 15 + digit d 15 * (2 ^ 16) ^ 15 :=
    below_succ _ _
  have hproper : Radix.Proper (2 ^ 16) (digit d) 15 := fun j hj => h.masked j (by omega)
  have hbelow := hproper.below_lt (by norm_num)
  rw [land_borrow hlow (by omega), land_limb, hm]
  by_cases hneg : digit m 15 < 0
  · have hkeep := gfCswap_eq t d false
    have hlt : t.value < prime := by
      have hmul : digit d 15 * (2 ^ 16) ^ 15 ≤ -1 * (2 ^ 16) ^ 15 :=
        mul_le_mul_of_nonneg_right (by omega) (by positivity)
      omega
    simp only [Bool.false_eq_true, if_false] at hkeep
    simp only [if_pos hneg, sub_self, show toByte 0 = 0 by rfl, hkeep]
    apply Returns.some
    rw [if_pos hlt]
    exact ⟨ht, rfl⟩
  · have hswap := gfCswap_eq t d true
    have hge : ¬ t.value < prime := by
      have hmul : 0 ≤ digit d 15 * (2 ^ 16) ^ 15 := mul_nonneg (by omega) (by positivity)
      omega
    simp only [if_true] at hswap
    simp only [if_neg hneg, sub_zero, show toByte 1 = 1 by rfl, hswap]
    apply Returns.some
    rw [if_neg hge]
    refine ⟨fun j hj => ?_, hdiff⟩
    by_cases hj₁₅ : j = 15
    · rw [hj₁₅, hd₁₅]
      omega
    · exact h.masked j (by omega)

theorem prime_pos : 0 < prime := by decide

instance : NeZero prime := ⟨prime_pos.ne'⟩

/-- The third carry leaves proper limbs: what comes back into the first limb fits there. -/
theorem gfCar_proper {o : Gf} (h : o.Carried) :
    Returns (gfCar o) fun s => s.Proper ∧ s.el = o.el := by
  have hpass := gfCar_spec (o := o) (fun _ => 1) (by norm_num) ?_ ?_
  · apply hpass.mono
    rintro s ⟨q, hq, hfirst, hothers, hvalue⟩
    refine ⟨?_, Gf.el_eq_of_carry hvalue⟩
    have hq' := abs_le.mp hq
    have hfirst' := h.first
    -- the numbers above the first limb
    have htop : ∀ a : Gf,
        a.value = digit a 0 + 2 ^ 16 * below (2 ^ 16) (fun i => digit a (1 + i)) 15 := by
      intro a
      have hone : below (2 ^ 16) (digit a) 1 = digit a 0 := by
        rw [below_succ, below_zero, pow_zero, mul_one, zero_add]
      have hsplit := below_split (b := 2 ^ 16) (digit a) 1 15
      rw [hone, pow_one] at hsplit
      exact hsplit
    have hrange : ∀ a : Gf, (∀ i, 0 < i → i < 16 → 0 ≤ digit a i ∧ digit a i < 2 ^ 16) →
        0 ≤ below (2 ^ 16) (fun i => digit a (1 + i)) 15 ∧
          below (2 ^ 16) (fun i => digit a (1 + i)) 15 < 2 ^ 240 := by
      intro a ha
      have hproper : Radix.Proper (2 ^ 16) (fun i => digit a (1 + i)) 15 :=
        fun i hi => ha (1 + i) (by omega) (by omega)
      have hlt := hproper.below_lt (by norm_num)
      rwa [← pow_mul] at hlt
    have hso := htop s
    have hoo := htop o
    have hsr := hrange s hothers
    have hor := hrange o h.others
    intro i hi
    rcases Nat.eq_zero_or_pos i with rfl | hpos
    · have hcases : q = -1 ∨ q = 0 ∨ q = 1 := by omega
      rcases hcases with rfl | rfl | rfl
      · omega
      · omega
      · omega
    · exact hothers i hpos hi
  · intro j hj
    have hlimb := h.within j hj
    omega
  · intro i hi x hx
    have hx' := abs_le.mp hx
    rw [abs_le]
    rcases Nat.eq_zero_or_pos i with rfl | hpos
    · have hfirst := h.first
      omega
    · have hother := h.others i hpos hi
      omega

/-- The bytes of proper limbs have their value. -/
theorem leValue_limbBytes {t : Gf} (ht : t.Proper) :
    (limbBytes t).length = 32 ∧ (leValue (limbBytes t) : Int) = t.value := by
  have hprefix : ∀ k ≤ 16, ((List.range k).flatMap fun i =>
      [toByte (digit t i), toByte (digit t i >>> (8 : Nat))]).length = 2 * k ∧
      (leValue ((List.range k).flatMap fun i =>
        [toByte (digit t i), toByte (digit t i >>> (8 : Nat))]) : Int) =
          below (2 ^ 16) (digit t) k := by
    intro k hk
    induction k with
    | zero => exact ⟨rfl, (below_zero (digit t)).symm⟩
    | succ k ih =>
      obtain ⟨hlength, hvalue⟩ := ih (by omega)
      have hlimb := ht k (by omega)
      have hlow : ((toByte (digit t k)).toNat : Int) = digit t k % 256 := by
        rw [toByte, UInt8.toNat_ofNat']
        omega
      have hhigh : ((toByte (digit t k >>> (8 : Nat))).toNat : Int) = digit t k / 256 := by
        rw [toByte, UInt8.toNat_ofNat', shiftRight_eq]
        omega
      rw [List.range_succ, List.flatMap_append, List.flatMap_singleton]
      constructor
      · rw [List.length_append, hlength]
        rfl
      · rw [leValue_append, hlength, leValue_cons, leValue_cons, leValue_nil, below_succ, ← hvalue]
        push_cast
        rw [hlow, hhigh, pow_mul]
        have hdiv := Int.emod_add_mul_ediv (digit t k) 256
        norm_num
        linear_combination (65536 : Int) ^ k * hdiv
  exact hprefix 16 le_rfl

theorem Gf.val_el {a : Gf} (hlow : 0 ≤ a.value) (hhigh : a.value < prime) :
    (a.el.val : Int) = a.value := by
  rw [Gf.el, ZMod.val_intCast, Int.emod_eq_of_lt hlow hhigh]

/-- The packed form is the least representative. -/
theorem gfPack_spec {n : Gf} (h : n.Within (2 ^ 58)) : Returns (gfPack n) fun o =>
    o.length = 32 ∧ leValue o = n.el.val := by
  have hprime : (prime : Int) = 2 ^ 255 - 19 := rfl
  apply (gfCar_wide h).bind
  rintro t₁ ⟨hfirst, hothers, hel₁⟩
  apply (gfCar_narrow hfirst hothers).bind
  rintro t₂ ⟨hcarried, hel₂⟩
  apply (gfCar_proper hcarried).bind
  rintro t₃ ⟨hproper₃, hel₃⟩
  have hlt := hproper₃.value_lt
  apply (packTurn_spec hproper₃).bind
  rintro t₄ ⟨hproper₄, hvalue₄⟩
  apply (packTurn_spec hproper₄).bind
  rintro t₅ ⟨hproper₅, hvalue₅⟩
  apply Returns.some
  obtain ⟨hlength, hbytes⟩ := leValue_limbBytes hproper₅
  have hrange : 0 ≤ t₅.value ∧ t₅.value < prime := by
    split at hvalue₄ <;> split at hvalue₅ <;> omega
  have hel : t₅.el = n.el := by
    rw [← hel₁, ← hel₂, ← hel₃]
    have hkeep : ∀ a b : Gf, (b.value = if a.value < prime then a.value else a.value - prime) →
        b.el = a.el := by
      intro a b hab
      split at hab
      · exact Gf.el_eq_of_value (k := 0) (by omega)
      · exact Gf.el_eq_of_value (k := -1) (by omega)
    rw [hkeep _ _ hvalue₅, hkeep _ _ hvalue₄]
  refine ⟨hlength, ?_⟩
  rw [← hel, ← Nat.cast_inj (R := Int), hbytes, Gf.val_el hrange.1 hrange.2]

theorem foldl_or_eq_zero {xs : Bytes} {acc : UInt8} :
    xs.foldl (· ||| ·) acc = 0 ↔ acc = 0 ∧ ∀ x ∈ xs, x = 0 := by
  induction xs generalizing acc with
  | nil => simp
  | cons x xs ih =>
    rw [List.foldl_cons, ih, UInt8.or_eq_zero_iff, and_assoc, List.forall_mem_cons]

/-- No difference between two lists of one length is equality. -/
theorem zipWith_xor_eq_zero {xs ys : Bytes} (h : xs.length = ys.length) :
    (∀ x ∈ List.zipWith (· ^^^ ·) xs ys, x = 0) ↔ xs = ys := by
  induction xs generalizing ys with
  | nil =>
    cases ys with
    | nil => simp
    | cons y ys => simp at h
  | cons x xs ih =>
    cases ys with
    | nil => simp at h
    | cons y ys =>
      rw [List.zipWith_cons_cons, List.forall_mem_cons, ih (by simpa using h),
        UInt8.xor_eq_zero_iff, List.cons.injEq]

/-- Lists of one length with one value are equal. -/
theorem leValue_injective {xs ys : Bytes} (hlen : xs.length = ys.length)
    (h : leValue xs = leValue ys) : xs = ys := by
  induction xs generalizing ys with
  | nil =>
    cases ys with
    | nil => rfl
    | cons y ys => simp at hlen
  | cons x xs ih =>
    cases ys with
    | nil => simp at hlen
    | cons y ys =>
      rw [leValue_cons, leValue_cons] at h
      have hx := x.toNat_lt
      have hy := y.toNat_lt
      rw [UInt8.toNat_inj.mp (show x.toNat = y.toNat by omega),
        ih (by simpa using hlen) (by omega)]

/-- Comparing packed forms compares the elements. -/
theorem gfNeq_spec {a b : Gf} (ha : a.Within (2 ^ 58)) (hb : b.Within (2 ^ 58)) :
    gfNeq a b = some (decide (a.el ≠ b.el)) := by
  obtain ⟨c, hc, hclen, hcval⟩ := gfPack_spec ha
  obtain ⟨d, hd, hdlen, hdval⟩ := gfPack_spec hb
  have hiff : (List.zipWith (· ^^^ ·) c d).foldl (· ||| ·) 0 = 0 ↔ a.el = b.el := by
    rw [foldl_or_eq_zero, zipWith_xor_eq_zero (hclen.trans hdlen.symm)]
    constructor
    · rintro ⟨-, rfl⟩
      exact ZMod.val_injective prime (hcval.symm.trans hdval)
    · intro h
      refine ⟨rfl, leValue_injective (hclen.trans hdlen.symm) ?_⟩
      rw [hcval, hdval, h]
  rw [gfNeq, hc, hd]
  simp only [Option.bind_eq_bind, Option.bind_some, Option.some.injEq]
  rw [Bool.eq_iff_iff, bne_iff_ne, decide_eq_true_eq, Ne, Ne, hiff]

/-- The parity of the least representative. -/
theorem gfPar_spec {a : Gf} (ha : a.Within (2 ^ 58)) :
    gfPar a = some (UInt8.ofNat (a.el.val % 2)) := by
  obtain ⟨d, hd, hlength, hvalue⟩ := gfPack_spec ha
  rw [gfPar, hd]
  simp only [Option.bind_eq_bind, Option.bind_some, Option.some.injEq]
  have hbyte := leValue_getD 0 d
  apply UInt8.toNat_inj.mp
  rw [UInt8.toNat_and, UInt8.toNat_ofNat', hbyte, hvalue, pow_zero, Nat.div_one]
  rw [show (1 : UInt8).toNat = 2 ^ 1 - 1 by rfl, Nat.and_two_pow_sub_one_eq_mod]
  omega

/-- Unpacking reads 255 bits; the top bit is the caller's. -/
theorem gfUnpack_spec (n : Bytes) : Returns (gfUnpack n) fun o =>
    o.Proper ∧ o.value = (leValue n : Int) % 2 ^ 255 := by
  have hlimb : ∀ i, ((n.getD (2 * i) 0).toNat : Int) +
      ((n.getD (2 * i + 1) 0).toNat : Int) <<< (8 : Nat) =
        (leValue n : Int) / (2 ^ 16) ^ i % 2 ^ 16 := by
    intro i
    rw [leValue_getD, leValue_getD, Int.shiftLeft_eq, ← pow_mul,
      show 256 ^ (2 * i) = 2 ^ (16 * i) by rw [show 256 = 2 ^ 8 by rfl, ← pow_mul]; ring_nf,
      show 256 ^ (2 * i + 1) = 2 ^ (16 * i) * 256 by
        rw [pow_succ, show 256 = 2 ^ 8 by rfl, ← pow_mul]; ring_nf,
      ← Nat.div_div_eq_div_mul]
    push_cast
    omega
  have hsmall : ∀ i, 0 ≤ (leValue n : Int) / (2 ^ 16) ^ i % 2 ^ 16 ∧
      (leValue n : Int) / (2 ^ 16) ^ i % 2 ^ 16 < 2 ^ 16 := fun i =>
    ⟨Int.emod_nonneg _ (by norm_num), Int.emod_lt_of_pos _ (by norm_num)⟩
  have hfill := returns_fill (n := 16) (f := fun i => add (n.getD (2 * i) 0).toNat
    (((n.getD (2 * i + 1) 0).toNat : Int) <<< (8 : Nat)))
    (g := fun i => (leValue n : Int) / (2 ^ 16) ^ i % 2 ^ 16) fun i _ => by
      have hi := hsmall i
      rw [add, hlimb i]
      exact word_eq ⟨by omega, by omega⟩
  apply hfill.bind
  intro (o : Gf) ho
  apply Returns.some
  have hmask : Int.land (digit o 15) 0x7fff = digit o 15 % 2 ^ 15 := land_mask _ 15
  rw [hmask]
  constructor
  · intro i hi
    have hlimb' := hsmall i
    rw [digit_setDigit _ (by omega)]
    split
    · omega
    · rw [ho i hi]
      exact hlimb'
  · rw [Gf.value, value_setDigit _ (by omega), Radix.value, below_congr ho,
      below_digits (by norm_num), ho 15 (by omega), Int.emod_emod_of_dvd _ (by norm_num)]
    have hfull := emod_mul_eq (leValue n) (c := (2 ^ 16) ^ 15) (d := 2 ^ 16) (by norm_num)
    have hmasked := emod_mul_eq (leValue n) (c := (2 ^ 16) ^ 15) (d := 2 ^ 15) (by norm_num)
    rw [← pow_succ] at hfull
    rw [hfull, show (2 : Int) ^ 255 = (2 ^ 16) ^ 15 * 2 ^ 15 by norm_num, hmasked]
    ring

/-- The lowest `k` bytes of a number. -/
def littleEndian : Nat → Nat → Bytes
  | 0, _ => []
  | k + 1, n => UInt8.ofNat n :: littleEndian k (n / 256)

@[simp] theorem littleEndian_length (k n : Nat) : (littleEndian k n).length = k := by
  induction k generalizing n with
  | zero => rfl
  | succ k ih => rw [littleEndian, List.length_cons, ih]

theorem leValue_littleEndian (k n : Nat) : leValue (littleEndian k n) = n % 256 ^ k := by
  induction k generalizing n with
  | zero => rw [littleEndian, leValue_nil, pow_zero, Nat.mod_one]
  | succ k ih =>
    have hbyte : (UInt8.ofNat n).toNat = n % 256 := UInt8.toNat_ofNat'
    rw [littleEndian, leValue_cons, ih, hbyte, pow_succ', Nat.mod_mul]

theorem eq_littleEndian {b : Bytes} {k n : Nat} (hlength : b.length = k)
    (hvalue : leValue b = n) : b = littleEndian k n := by
  have hlt := leValue_lt b
  rw [hlength, hvalue] at hlt
  apply leValue_injective (hlength.trans (littleEndian_length k n).symm)
  rw [hvalue, leValue_littleEndian, Nat.mod_eq_of_lt hlt]

theorem gfPack_eq {n : Gf} (h : n.Within (2 ^ 58)) :
    gfPack n = some (littleEndian 32 n.el.val) := by
  obtain ⟨o, ho, hlength, hvalue⟩ := gfPack_spec h
  rw [ho, eq_littleEndian hlength hvalue]

/-- The element that unpacking reads. -/
theorem gfUnpack_el (n : Bytes) : Returns (gfUnpack n) fun o =>
    o.Within (2 ^ 16) ∧ o.el = ((leValue n % 2 ^ 255 : Nat) : ZMod prime) := by
  apply (gfUnpack_spec n).mono
  rintro o ⟨hproper, hvalue⟩
  constructor
  · intro i hi
    have hlimb := hproper i hi
    rw [abs_le]
    omega
  · have hcast : (leValue n : Int) % 2 ^ 255 = ((leValue n % 2 ^ 255 : Nat) : Int) := by omega
    rw [Gf.el, hvalue, hcast, Int.cast_natCast]

/-- Unpacking and packing leave the least bytes of the same element, packing and
unpacking the same element. -/
theorem gfUnpack_gfPack (n : Bytes) :
    (gfUnpack n >>= gfPack) = some (littleEndian 32 (leValue n % 2 ^ 255 % prime)) ∧
      ∀ a : Gf, a.Within (2 ^ 58) → Returns (gfPack a >>= gfUnpack) fun b => b.el = a.el := by
  constructor
  · obtain ⟨o, ho, hwithin, hel⟩ := gfUnpack_el n
    rw [ho, Option.bind_eq_bind, Option.bind_some, gfPack_eq (hwithin.mono (by norm_num)), hel,
      ZMod.val_natCast]
  · intro a ha
    apply (gfPack_spec ha).bind
    rintro r ⟨-, hr⟩
    apply (gfUnpack_el r).mono
    rintro b ⟨-, hel⟩
    have hlt : a.el.val < 2 ^ 255 := (ZMod.val_lt a.el).trans (by decide)
    rw [hel, hr, Nat.mod_eq_of_lt hlt, ZMod.natCast_zmod_val]

/-- Limbs that are neither small nor of one sign. -/
def unevenGf : Gf := #v[-1, 65536, 0, -70000, 5, 0, 0, 0, 0, 0, 0, 0, 0, 0, 0, 131071]

theorem gfUnpack_gfPack_uneven :
    Returns (gfPack unevenGf >>= gfUnpack) fun b => b.el = unevenGf.el :=
  (gfUnpack_gfPack (List.replicate 32 255)).2 unevenGf (by decide)

end Keylight.Ed25519
