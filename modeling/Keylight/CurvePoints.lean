import Keylight.FieldPowers
import Mathlib.Tactic.IntervalCases

/-!
# Points in limbs

A point of the curve in extended coordinates, four field elements. Adding and
multiplying by a scalar follow the group, with no overflow in any limb.
-/
namespace Keylight.Ed25519
open Checked Radix Words Edwards

/-- `kl_gf[4]`: x = X/Z, y = Y/Z, T = XY/Z. -/
structure Pt where
  x : Gf
  y : Gf
  z : Gf
  t : Gf

/-- `pt_add`: p ← p + q. -/
def ptAdd (p q : Pt) : Option Pt := do
  let a ← gfSub p.y p.x
  let t ← gfSub q.y q.x
  let a ← gfMul a t
  let b ← gfAdd p.x p.y
  let t ← gfAdd q.x q.y
  let b ← gfMul b t
  let c ← gfMul p.t q.t
  let c ← gfMul c kD2
  let d ← gfMul p.z q.z
  let d ← gfAdd d d
  let e ← gfSub b a
  let f ← gfSub d c
  let g ← gfAdd d c
  let h ← gfAdd b a
  let x ← gfMul e f
  let y ← gfMul h g
  let z ← gfMul g f
  let t ← gfMul e h
  some ⟨x, y, z, t⟩

def ptCswap (p q : Pt) (b : UInt8) : Option (Pt × Pt) := do
  let x ← gfCswap p.x q.x b
  let y ← gfCswap p.y q.y b
  let z ← gfCswap p.z q.z b
  let t ← gfCswap p.t q.t b
  some (⟨x.1, y.1, z.1, t.1⟩, ⟨x.2, y.2, z.2, t.2⟩)

/-- Bit `i` of a scalar. -/
def scalarBit (s : Bytes) (i : Nat) : UInt8 := (s.getD (i / 8) 0 >>> UInt8.ofNat (i &&& 7)) &&& 1

/-- One turn of the ladder of `pt_scalarmult`, on `p` and `q`. -/
def ladderTurn (s : Bytes) (pq : Pt × Pt) (i : Nat) : Option (Pt × Pt) := do
  let b := scalarBit s i
  let pq ← ptCswap pq.1 pq.2 b
  let q ← ptAdd pq.2 pq.1
  let p ← ptAdd pq.1 pq.1
  ptCswap p q b

/-- `pt_scalarmult`: p ← [s]q. -/
def ptScalarmult (q : Pt) (s : Bytes) : Option Pt := do
  let pq ← down 256 (ladderTurn s) (⟨kGf0, kGf1, kGf1, kGf0⟩, q)
  some pq.1

/-- `pt_scalarbase`: p ← [s]B. -/
def ptScalarbase (s : Bytes) : Option Pt := do
  let t ← gfMul kBX kBY
  ptScalarmult ⟨kBX, kBY, kGf1, t⟩ s

def Pt.extended (p : Pt) : Extended (ZMod prime) := ⟨p.x.el, p.y.el, p.z.el, p.t.el⟩

/-- The limbs are small, and the coordinates are those of the point. -/
structure Pt.Represents (p : Pt) (P : Point curve) : Prop where
  x : p.x.Within (2 ^ 17)
  y : p.y.Within (2 ^ 17)
  z : p.z.Within (2 ^ 17)
  t : p.t.Within (2 ^ 17)
  extended : p.extended.Represents P

theorem kD2_within : kD2.Within (2 ^ 24) := by decide +kernel

/-- The nine field operations of an addition compute the sum of the points. -/
theorem ptAdd_spec {p q : Pt} {P Q : Point curve} (hp : p.Represents P) (hq : q.Represents Q) :
    Returns (ptAdd p q) fun r => r.Represents (P + Q) := by
  have hsmall : (2 ^ 17 : Int) ≤ 2 ^ 24 := by norm_num
  have hcarried : ∀ {a : Gf}, a.Carried → a.Within (2 ^ 17) :=
    fun h => h.within.mono (by norm_num)
  apply (gfSub_spec hp.y hp.x (by norm_num)).bind
  rintro a₀ ⟨ha₀, hae₀⟩
  apply (gfSub_spec hq.y hq.x (by norm_num)).bind
  rintro t₀ ⟨ht₀, hte₀⟩
  apply (gfMul_spec (ha₀.mono (by norm_num)) (ht₀.mono (by norm_num))).bind
  rintro a ⟨ha, hae⟩
  apply (gfAdd_spec hp.x hp.y (by norm_num)).bind
  rintro b₀ ⟨hb₀, hbe₀⟩
  apply (gfAdd_spec hq.x hq.y (by norm_num)).bind
  rintro t₁ ⟨ht₁, hte₁⟩
  apply (gfMul_spec (hb₀.mono (by norm_num)) (ht₁.mono (by norm_num))).bind
  rintro b ⟨hb, hbe⟩
  apply (gfMul_spec (hp.t.mono hsmall) (hq.t.mono hsmall)).bind
  rintro c₀ ⟨hc₀, hce₀⟩
  apply (gfMul_spec ((hcarried hc₀).mono hsmall) kD2_within).bind
  rintro c ⟨hc, hce⟩
  apply (gfMul_spec (hp.z.mono hsmall) (hq.z.mono hsmall)).bind
  rintro d₀ ⟨hd₀, hde₀⟩
  apply (gfAdd_spec (hcarried hd₀) (hcarried hd₀) (by norm_num)).bind
  rintro d ⟨hd, hde⟩
  apply (gfSub_spec (hcarried hb) (hcarried ha) (by norm_num)).bind
  rintro e ⟨he, hee⟩
  apply (gfSub_spec hd (hcarried hc) (by norm_num)).bind
  rintro f ⟨hf, hfe⟩
  apply (gfAdd_spec hd (hcarried hc) (by norm_num)).bind
  rintro g ⟨hg, hge⟩
  apply (gfAdd_spec (hcarried hb) (hcarried ha) (by norm_num)).bind
  rintro h ⟨hh, hhe⟩
  have he' := he.mono (show (2 ^ 17 + 2 ^ 17 : Int) ≤ 2 ^ 24 by norm_num)
  have hf' := hf.mono (show (2 ^ 17 + 2 ^ 17 + 2 ^ 17 : Int) ≤ 2 ^ 24 by norm_num)
  have hg' := hg.mono (show (2 ^ 17 + 2 ^ 17 + 2 ^ 17 : Int) ≤ 2 ^ 24 by norm_num)
  have hh' := hh.mono (show (2 ^ 17 + 2 ^ 17 : Int) ≤ 2 ^ 24 by norm_num)
  apply (gfMul_spec he' hf').bind
  rintro x ⟨hx, hxe⟩
  apply (gfMul_spec hh' hg').bind
  rintro y ⟨hy, hye⟩
  apply (gfMul_spec hg' hf').bind
  rintro z ⟨hz, hze⟩
  apply (gfMul_spec he' hh').bind
  rintro t ⟨ht, hte⟩
  apply Returns.some
  refine ⟨hcarried hx, hcarried hy, hcarried hz, hcarried ht, ?_⟩
  have hsum : (⟨x, y, z, t⟩ : Pt).extended =
      Extended.add kD2.el p.extended q.extended := by
    simp only [Pt.extended, Extended.add, hxe, hye, hze, hte, hee, hfe, hge, hhe, hae, hbe, hce,
      hde, hce₀, hde₀, hae₀, hbe₀, hte₀, hte₁]
  rw [hsum]
  exact hp.extended.add rfl kD2_el hq.extended

theorem ptCswap_zero (p q : Pt) : ptCswap p q 0 = some (p, q) := by
  have hkeep : ∀ a b : Gf, gfCswap a b 0 = some (a, b) := fun a b => gfCswap_eq a b false
  simp only [ptCswap, hkeep, Option.bind_eq_bind, Option.bind_some]

theorem ptCswap_one (p q : Pt) : ptCswap p q 1 = some (q, p) := by
  have hswap : ∀ a b : Gf, gfCswap a b 1 = some (b, a) := fun a b => gfCswap_eq a b true
  simp only [ptCswap, hswap, Option.bind_eq_bind, Option.bind_some]

theorem div_mod_byte (n : Nat) {r : Nat} (h : r < 8) : n % 256 / 2 ^ r % 2 = n / 2 ^ r % 2 := by
  interval_cases r <;> omega

theorem toNat_scalarBit (s : Bytes) (i : Nat) :
    (scalarBit s i).toNat = leValue s / 2 ^ i % 2 := by
  have hlt := Nat.mod_lt i (show 0 < 8 by decide)
  have hand : i &&& 7 = i % 8 := Nat.and_two_pow_sub_one_eq_mod i 3
  have hpow : 256 ^ (i / 8) * 2 ^ (i % 8) = 2 ^ i := by
    rw [show 256 = 2 ^ 8 by rfl, ← pow_mul, ← pow_add, Nat.div_add_mod]
  rw [scalarBit, UInt8.toNat_and, UInt8.toNat_shiftRight, hand, UInt8.toNat_ofNat',
    Nat.mod_eq_of_lt (show i % 8 < 2 ^ 8 by omega), Nat.mod_eq_of_lt hlt,
    Nat.shiftRight_eq_div_pow, leValue_getD, show (1 : UInt8).toNat = 2 ^ 1 - 1 by rfl,
    Nat.and_two_pow_sub_one_eq_mod, pow_one, div_mod_byte _ hlt, Nat.div_div_eq_div_mul, hpow]

theorem scalarBit_eq {s : Bytes} {i : Nat} {b : UInt8} (h : leValue s / 2 ^ i % 2 = b.toNat) :
    scalarBit s i = b :=
  UInt8.toNat_inj.mp ((toNat_scalarBit s i).trans h)

/-- A turn reads one bit: with `p` and `q` at `n` and `n + 1` times the point, they come to
`2n + b` and `2n + b + 1` times it. -/
theorem ladderTurn_spec {s : Bytes} {pq : Pt × Pt} {i n : Nat} {Q : Point curve}
    (hn : n = leValue s / 2 ^ (i + 1)) (hp : pq.1.Represents (n • Q))
    (hq : pq.2.Represents ((n + 1) • Q)) :
    Returns (ladderTurn s pq i) fun pq' =>
      pq'.1.Represents ((leValue s / 2 ^ i) • Q) ∧
        pq'.2.Represents ((leValue s / 2 ^ i + 1) • Q) := by
  have hhalf : n = leValue s / 2 ^ i / 2 := by rw [hn, pow_succ, Nat.div_div_eq_div_mul]
  rw [ladderTurn]
  by_cases hbit : leValue s / 2 ^ i % 2 = 1
  · have hm : leValue s / 2 ^ i = n + (n + 1) := by omega
    simp only [scalarBit_eq (b := 1) hbit, ptCswap_one, Option.bind_eq_bind, Option.bind_some]
    apply (ptAdd_spec hp hq).bind
    intro q hq'
    apply (ptAdd_spec hq hq).bind
    intro p hp'
    apply Returns.some
    rw [← add_nsmul] at hq' hp'
    rw [hm]
    exact ⟨hq', by rwa [show n + (n + 1) + 1 = n + 1 + (n + 1) by omega]⟩
  · have hm : leValue s / 2 ^ i = n + n := by omega
    have hzero : leValue s / 2 ^ i % 2 = 0 := by omega
    simp only [scalarBit_eq (b := 0) hzero, ptCswap_zero, Option.bind_eq_bind, Option.bind_some]
    apply (ptAdd_spec hq hp).bind
    intro q hq'
    apply (ptAdd_spec hp hp).bind
    intro p hp'
    apply Returns.some
    rw [← add_nsmul] at hq' hp'
    rw [hm]
    exact ⟨hp', by rwa [show n + n + 1 = n + 1 + n by omega]⟩

theorem kGf0_within : kGf0.Within (2 ^ 17) := by decide +kernel

theorem kGf1_within : kGf1.Within (2 ^ 17) := by decide +kernel

theorem represents_neutral : (⟨kGf0, kGf1, kGf1, kGf0⟩ : Pt).Represents 0 := by
  refine ⟨kGf0_within, kGf1_within, kGf1_within, kGf0_within, ?_⟩
  constructor
  · rw [Pt.extended, kGf1_el]
    exact one_ne_zero
  · rw [Pt.extended, kGf0_el, zero_x, zero_mul]
  · rw [Pt.extended, kGf1_el, zero_y, mul_one]
  · rw [Pt.extended, kGf0_el, zero_x, zero_mul, zero_mul]

/-- The ladder multiplies the point by the scalar. -/
theorem ptScalarmult_spec {q : Pt} {s : Bytes} {Q : Point curve} (hq : q.Represents Q)
    (hs : s.length = 32) :
    Returns (ptScalarmult q s) fun p => p.Represents (leValue s • Q) := by
  have hlt : leValue s < 2 ^ 256 := by
    have hbytes := leValue_lt s
    rwa [hs, show 256 ^ 32 = 2 ^ 256 by rfl] at hbytes
  have hloop : Returns (down 256 (ladderTurn s) (⟨kGf0, kGf1, kGf1, kGf0⟩, q)) fun pq =>
      pq.1.Represents ((leValue s / 2 ^ 0) • Q) ∧
        pq.2.Represents ((leValue s / 2 ^ 0 + 1) • Q) := by
    apply Returns.down fun i (pq : Pt × Pt) => pq.1.Represents ((leValue s / 2 ^ i) • Q) ∧
      pq.2.Represents ((leValue s / 2 ^ i + 1) • Q)
    · rw [Nat.div_eq_of_lt hlt, zero_nsmul, zero_add, one_nsmul]
      exact ⟨represents_neutral, hq⟩
    · rintro i - pq ⟨hp, hq⟩
      exact ladderTurn_spec rfl hp hq
  rw [pow_zero, Nat.div_one] at hloop
  apply hloop.bind
  rintro pq ⟨hp, -⟩
  exact Returns.some hp

theorem kBX_within : kBX.Within (2 ^ 16) := by decide +kernel

theorem kBY_within : kBY.Within (2 ^ 16) := by decide +kernel

/-- Affine coordinates with their product stand for the point. -/
theorem represents_affine {x y : Gf} {P : Point curve} (hx : x.Within (2 ^ 17))
    (hy : y.Within (2 ^ 17)) (hxel : x.el = P.x) (hyel : y.el = P.y) :
    Returns (gfMul x y) fun t => (⟨x, y, kGf1, t⟩ : Pt).Represents P := by
  apply (gfMul_spec (hx.mono (by norm_num)) (hy.mono (by norm_num))).mono
  rintro t ⟨ht, htel⟩
  refine ⟨hx, hy, kGf1_within, ht.within.mono (by norm_num), ?_⟩
  constructor
  · rw [Pt.extended, kGf1_el]
    exact one_ne_zero
  · rw [Pt.extended, kGf1_el, mul_one]
    exact hxel
  · rw [Pt.extended, kGf1_el, mul_one]
    exact hyel
  · rw [Pt.extended, kGf1_el, mul_one, ← hxel, ← hyel]
    exact htel

theorem ptScalarbase_spec {s : Bytes} (hs : s.length = 32) :
    Returns (ptScalarbase s) fun p => p.Represents (leValue s • base) := by
  apply (represents_affine (P := base) (kBX_within.mono (by norm_num))
    (kBY_within.mono (by norm_num)) rfl rfl).bind
  intro t ht
  exact ptScalarmult_spec ht hs

end Keylight.Ed25519
