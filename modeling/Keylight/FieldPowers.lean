import Keylight.Curve25519
import Keylight.FieldPacking

/-!
# Powers of field elements

The two fixed powers of the check, by squaring and multiplying: the exponent
p - 2, which inverts, and (p - 5)/8, from which a square root is put together.
-/
namespace Keylight.Ed25519
open Checked

/-- A turn of the power loops: the exponent doubles, and grows by one unless `skip`. -/
def powTurn (skip : Nat → Bool) (i : Gf) (c : Gf) (a : Nat) : Option Gf := do
  let c ← gfSq c
  if skip a then some c else gfMul c i

def gfPow2523 (i : Gf) : Option Gf := down 251 (powTurn (fun a => a == 1) i) i

def gfInv (i : Gf) : Option Gf := down 254 (powTurn (fun a => a == 2 || a == 4) i) i

/-- The loop runs through the bits of its exponent below the first. -/
theorem powTurn_spec {skip : Nat → Bool} {i : Gf} {n N : Nat} (hi : i.Within (2 ^ 24))
    (htop : N / 2 ^ n = 1) (hbits : ∀ a < n, N / 2 ^ a % 2 = if skip a then 0 else 1) :
    Returns (down n (powTurn skip i) i) fun o => o.Within (2 ^ 24) ∧ o.el = i.el ^ N := by
  have hloop : Returns (down n (powTurn skip i) i) fun o =>
      o.Within (2 ^ 24) ∧ o.el = i.el ^ (N / 2 ^ 0) := by
    apply Returns.down fun a (o : Gf) => o.Within (2 ^ 24) ∧ o.el = i.el ^ (N / 2 ^ a)
    · rw [htop, pow_one]
      exact ⟨hi, rfl⟩
    · rintro a ha c ⟨hc, hel⟩
      have hbit := hbits a ha
      have hhalf : N / 2 ^ (a + 1) = N / 2 ^ a / 2 := by
        rw [pow_succ, Nat.div_div_eq_div_mul]
      have hdiv := Nat.div_add_mod (N / 2 ^ a) 2
      rw [hhalf] at hel
      apply (gfSq_spec hc).bind
      rintro s ⟨hs, hsquare⟩
      have hwithin := hs.within.mono (show (2 ^ 16 + 38 : Int) ≤ 2 ^ 24 by norm_num)
      rw [hel, ← pow_add] at hsquare
      cases hskip : skip a with
      | true =>
        rw [hskip, if_pos rfl] at hbit
        rw [if_pos rfl]
        apply Returns.some
        refine ⟨hwithin, ?_⟩
        rw [hsquare]
        congr 1
        omega
      | false =>
        rw [hskip, if_neg Bool.false_ne_true] at hbit
        rw [if_neg Bool.false_ne_true]
        apply (gfMul_spec hwithin hi).mono
        rintro o ⟨ho, hproduct⟩
        refine ⟨ho.within.mono (by norm_num), ?_⟩
        rw [hproduct, hsquare, ← pow_succ]
        congr 1
        omega
  rwa [pow_zero, Nat.div_one] at hloop

theorem gfPow2523_spec {i : Gf} (hi : i.Within (2 ^ 24)) : Returns (gfPow2523 i) fun o =>
    o.Within (2 ^ 24) ∧ o.el = i.el ^ ((prime - 5) / 8) :=
  powTurn_spec hi (by decide +kernel) (by decide +kernel)

/-- The inverse, and zero for zero. -/
theorem gfInv_spec {i : Gf} (hi : i.Within (2 ^ 24)) : Returns (gfInv i) fun o =>
    o.Within (2 ^ 24) ∧ o.el = i.el⁻¹ := by
  have hpow : Returns (gfInv i) fun o => o.Within (2 ^ 24) ∧ o.el = i.el ^ (prime - 2) :=
    powTurn_spec hi (by decide +kernel) (by decide +kernel)
  apply hpow.mono
  rintro o ⟨ho, hel⟩
  refine ⟨ho, ?_⟩
  rw [hel]
  by_cases hzero : i.el = 0
  · rw [hzero, inv_zero, zero_pow (by decide)]
  · have hfermat := ZMod.pow_card_sub_one_eq_one hzero
    rw [show prime - 1 = prime - 2 + 1 by rfl, pow_succ] at hfermat
    exact eq_inv_of_mul_eq_one_left hfermat

/-- The bytes of a quotient: inverting, multiplying and packing, on any limbs within bounds. -/
theorem quotient_bytes {a b : Gf} (ha : a.Within (2 ^ 24)) (hb : b.Within (2 ^ 24)) :
    (do
      let c ← gfInv b
      let c ← gfMul a c
      gfPack c) = some (littleEndian 32 (a.el / b.el).val) := by
  obtain ⟨c, hc, hcwithin, hcel⟩ := gfInv_spec hb
  obtain ⟨d, hd, hdcarried, hdel⟩ := gfMul_spec ha hcwithin
  simp only [hc, hd, Option.bind_eq_bind, Option.bind_some]
  rw [gfPack_eq (hdcarried.within.mono (by norm_num)), hdel, hcel, div_eq_mul_inv]

theorem quotient_bytes_base : (do
    let c ← gfInv kBY
    let c ← gfMul kBX c
    gfPack c) = some (littleEndian 32 (kBX.el / kBY.el).val) :=
  quotient_bytes (by decide +kernel) (by decide +kernel)

end Keylight.Ed25519
