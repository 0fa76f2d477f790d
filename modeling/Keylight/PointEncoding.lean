import Keylight.CurvePoints

/-!
# Encoded points

A point as 32 bytes: its y coordinate and, in the top bit, the parity of x.
Decoding finds x by a square root and hands out the opposite point; it succeeds
on every y that some point has, also where the number read is not the least
representative.
-/
namespace Keylight.Ed25519
open Checked Radix Words Edwards

/-- The candidate for a root of `num / den`. -/
def rootCandidate (num den : Gf) : Option Gf := do
  let den2 ← gfSq den
  let den4 ← gfSq den2
  let den6 ← gfMul den4 den2
  let t ← gfMul den6 num
  let t ← gfMul t den
  let t ← gfPow2523 t
  let t ← gfMul t num
  let t ← gfMul t den
  let t ← gfMul t den
  gfMul t den

/-- Whether `x` is not a root of `num / den`. -/
def notRoot (num den x : Gf) : Option Bool := do
  let chk ← gfSq x
  let chk ← gfMul chk den
  gfNeq chk num

/-- `pt_unpackneg`: the opposite of the encoded point, or none. -/
def ptUnpackneg (p : Bytes) : Option (Option Pt) := do
  let y ← gfUnpack p
  let num ← gfSq y
  let den ← gfMul num kD
  let num ← gfSub num kGf1
  let den ← gfAdd kGf1 den
  let x ← rootCandidate num den
  let wrong ← notRoot num den x
  let x ← (if wrong then gfMul x kI else some x)
  let wrong ← notRoot num den x
  if wrong then some none
  else do
    let par ← gfPar x
    let x ← (if par = p.getD 31 0 >>> 7 then gfSub kGf0 x else some x)
    let t ← gfMul x y
    some (some ⟨x, y, kGf1, t⟩)

def ptPack (p : Pt) : Option Bytes := do
  let zi ← gfInv p.z
  let tx ← gfMul p.x zi
  let ty ← gfMul p.y zi
  let r ← gfPack ty
  let par ← gfPar tx
  some (r.set 31 (r.getD 31 0 ^^^ (par <<< 7)))

/-- The bytes of a point. -/
structure Encodes (b : Bytes) (P : Point curve) : Prop where
  length : b.length = 32
  value : leValue b = P.y.val + 2 ^ 255 * (P.x.val % 2)

/-- The point read from bytes: y modulo the prime, and the x of the sign bit's parity; at x = 0
either sign bit is accepted. -/
structure Decodes (b : Bytes) (P : Point curve) : Prop where
  y : P.y = ((leValue b % 2 ^ 255 : Nat) : ZMod prime)
  sign : P.x = 0 ∨ P.x.val % 2 = leValue b / 2 ^ 255

theorem val_lt (x : ZMod prime) : x.val < 2 ^ 255 :=
  (ZMod.val_lt x).trans (by decide)

theorem val_neg_parity {x : ZMod prime} (h : x ≠ 0) : (-x).val % 2 = 1 - x.val % 2 := by
  have hlt := ZMod.val_lt x
  have hneg : (-x).val = prime - x.val := by rw [ZMod.neg_val, if_neg h]
  have hodd : prime % 2 = 1 := by decide
  omega

theorem Encodes.unique {b c : Bytes} {P : Point curve} (hb : Encodes b P) (hc : Encodes c P) :
    b = c :=
  leValue_injective (hb.length.trans hc.length.symm) (hb.value.trans hc.value.symm)

/-- Bytes name at most one point. -/
theorem Decodes.unique {b : Bytes} {P Q : Point curve} (hP : Decodes b P) (hQ : Decodes b Q) :
    P = Q := by
  rcases eq_or_eq_neg (hP.y.trans hQ.y.symm) with h | h
  · exact h
  · rw [h]
    apply Point.ext
    · by_cases hzero : Q.x = 0
      · rw [neg_x, hzero, neg_zero]
      · have hparity := val_neg_parity hzero
        have hq := hQ.sign.resolve_left hzero
        have hp := hP.sign
        rw [h, neg_x, neg_eq_zero] at hp
        have hp' := hp.resolve_left hzero
        omega
    · exact neg_y Q

/-- Decoding undoes encoding. -/
theorem Encodes.decodes {b : Bytes} {P : Point curve} (h : Encodes b P) : Decodes b P := by
  have hy := val_lt P.y
  constructor
  · rw [h.value, Nat.add_mul_mod_self_left, Nat.mod_eq_of_lt hy, ZMod.natCast_zmod_val]
  · right
    rw [h.value, Nat.add_mul_div_left _ _ (by norm_num), Nat.div_eq_of_lt hy, zero_add]

theorem Encodes.injective {b : Bytes} {P Q : Point curve} (hP : Encodes b P) (hQ : Encodes b Q) :
    P = Q := hP.decodes.unique hQ.decodes

/-- The candidate squares to the ratio or to its opposite, if the ratio has a root. -/
theorem root_candidate {u v x c : ZMod prime} (hx : x * x * v = u)
    (hc : c = u * v ^ 3 * (u * v ^ 7) ^ ((prime - 5) / 8)) :
    c * c * v = u ∨ c * c * v = -u := by
  have hsquare : c * c * v = u * ((x * v ^ 4) ^ (prime / 2)) := by
    have hsplit : prime / 2 = 2 + 4 * ((prime - 5) / 8) := by decide
    rw [hc, hsplit, ← hx]
    ring
  by_cases hzero : x * v ^ 4 = 0
  · left
    have hu : u = 0 := by
      rcases mul_eq_zero.mp hzero with h | h
      · rw [← hx, h]
        ring
      · rw [← hx, pow_eq_zero_iff (by decide) |>.mp h, mul_zero]
    rw [hsquare, hu, zero_mul]
  · rcases ZMod.pow_div_two_eq_neg_one_or_one prime hzero with h | h
    · left
      rw [hsquare, h, mul_one]
    · right
      rw [hsquare, h, mul_neg_one]

theorem rootCandidate_spec {num den : Gf} (hnum : num.Within (2 ^ 18))
    (hden : den.Within (2 ^ 18)) : Returns (rootCandidate num den) fun c => c.Carried ∧
      c.el = num.el * den.el ^ 3 * (num.el * den.el ^ 7) ^ ((prime - 5) / 8) := by
  have hwide : ∀ {a : Gf}, a.Carried → a.Within (2 ^ 24) := fun h => h.within.mono (by norm_num)
  have hnum' := hnum.mono (show (2 ^ 18 : Int) ≤ 2 ^ 24 by norm_num)
  have hden' := hden.mono (show (2 ^ 18 : Int) ≤ 2 ^ 24 by norm_num)
  apply (gfSq_spec hden').bind
  rintro d₂ ⟨hd₂, he₂⟩
  apply (gfSq_spec (hwide hd₂)).bind
  rintro d₄ ⟨hd₄, he₄⟩
  apply (gfMul_spec (hwide hd₄) (hwide hd₂)).bind
  rintro d₆ ⟨hd₆, he₆⟩
  apply (gfMul_spec (hwide hd₆) hnum').bind
  rintro t ⟨ht, hte⟩
  apply (gfMul_spec (hwide ht) hden').bind
  rintro w ⟨hw, hwe⟩
  apply (gfPow2523_spec (hwide hw)).bind
  rintro r ⟨hr, hre⟩
  apply (gfMul_spec hr hnum').bind
  rintro c₁ ⟨hc₁, hce₁⟩
  apply (gfMul_spec (hwide hc₁) hden').bind
  rintro c₂ ⟨hc₂, hce₂⟩
  apply (gfMul_spec (hwide hc₂) hden').bind
  rintro c₃ ⟨hc₃, hce₃⟩
  apply (gfMul_spec (hwide hc₃) hden').mono
  rintro c ⟨hc, hce⟩
  refine ⟨hc, ?_⟩
  have hbase : w.el = num.el * den.el ^ 7 := by
    rw [hwe, hte, he₆, he₄, he₂]
    ring
  rw [hce, hce₃, hce₂, hce₁, hre, hbase]
  ring

theorem notRoot_spec {num den x : Gf} (hnum : num.Within (2 ^ 18)) (hden : den.Within (2 ^ 18))
    (hx : x.Carried) : notRoot num den x = some (decide (x.el * x.el * den.el ≠ num.el)) := by
  have hwide : ∀ {a : Gf}, a.Carried → a.Within (2 ^ 24) := fun h => h.within.mono (by norm_num)
  have hdone : Returns (notRoot num den x)
      fun r => r = decide (x.el * x.el * den.el ≠ num.el) := by
    apply (gfSq_spec (hwide hx)).bind
    rintro s ⟨hs, hse⟩
    apply (gfMul_spec (hwide hs) (hden.mono (by norm_num))).bind
    rintro c ⟨hc, hce⟩
    rw [gfNeq_spec ((hwide hc).mono (by norm_num)) (hnum.mono (by norm_num)), hce, hse]
    exact Returns.some rfl
  obtain ⟨r, hr, rfl⟩ := hdone
  exact hr

theorem point_iff (x y : ZMod prime) : curve.a * x ^ 2 + y ^ 2 = 1 + curve.d * x ^ 2 * y ^ 2 ↔
    x * x * (1 + y * y * kD.el) = y * y - 1 := by
  have ha : curve.a = -1 := rfl
  have hd : curve.d = kD.el := rfl
  rw [ha, hd]
  constructor
  · intro h
    linear_combination -h
  · intro h
    linear_combination -h

/-- The sign bit, as the code compares it. -/
theorem signBit_eq {p : Bytes} (h : p.length = 32) (x : ZMod prime) :
    UInt8.ofNat (x.val % 2) = p.getD 31 0 >>> 7 ↔ x.val % 2 = leValue p / 2 ^ 255 := by
  have hlt := leValue_lt p
  rw [h] at hlt
  have hbit : (p.getD 31 0 >>> 7).toNat = leValue p / 2 ^ 255 := by
    rw [UInt8.toNat_shiftRight, leValue_getD, show (7 : UInt8).toNat % 8 = 7 by rfl,
      Nat.shiftRight_eq_div_pow, Nat.mod_eq_of_lt (by omega), Nat.div_div_eq_div_mul]
    rfl
  rw [← UInt8.toNat_inj, hbit, UInt8.toNat_ofNat', Nat.mod_eq_of_lt (by omega)]

/-- The opposite of the point that the bytes name, and none when they name none. -/
def Unpacked (p : Bytes) : Option Pt → Prop
  | some r => ∃ P, Decodes p P ∧ r.Represents (-P)
  | none => ∀ P : Point curve, ¬ Decodes p P

/-- What is left once `x` is known to be a root. -/
theorem unpack_root {p : Bytes} {x y : Gf} (hp : p.length = 32) (hx : x.Carried)
    (hy : y.Within (2 ^ 16)) (hyel : y.el = ((leValue p % 2 ^ 255 : Nat) : ZMod prime))
    (hroot : x.el * x.el * (1 + y.el * y.el * kD.el) = y.el * y.el - 1) :
    Returns (do
      let par ← gfPar x
      let x ← (if par = p.getD 31 0 >>> 7 then gfSub kGf0 x else some x)
      let t ← gfMul x y
      some (some (⟨x, y, kGf1, t⟩ : Pt))) (Unpacked p) := by
  have hxw := hx.within.mono (show (2 ^ 16 + 38 : Int) ≤ 2 ^ 58 by norm_num)
  have hon := (point_iff x.el y.el).mpr hroot
  rw [gfPar_spec hxw]
  simp only [Option.bind_eq_bind, Option.bind_some, signBit_eq hp]
  -- the coordinate handed out, and the point it belongs to
  have hfinish : ∀ {x' : Gf}, x'.Within (2 ^ 17) → ∀ P : Point curve, Decodes p P →
      x'.el = -P.x → y.el = P.y →
      Returns ((gfMul x' y).bind fun t => some (some (⟨x', y, kGf1, t⟩ : Pt))) (Unpacked p) := by
    intro x' hx' P hdecodes hxel hyel'
    apply (represents_affine hx' (hy.mono (by norm_num)) (P := -P) (by rw [neg_x, hxel])
      (by rw [neg_y, hyel'])).bind
    intro t ht
    exact Returns.some ⟨P, hdecodes, ht⟩
  by_cases hsign : x.el.val % 2 = leValue p / 2 ^ 255
  · rw [if_pos hsign]
    have hzero : kGf0.Within 0 := by decide +kernel
    apply (gfSub_spec hzero hx.within (by norm_num)).bind
    rintro x' ⟨hx', hxel⟩
    rw [kGf0_el, zero_sub] at hxel
    exact hfinish (hx'.mono (by norm_num)) ⟨x.el, y.el, hon⟩ ⟨hyel, .inr hsign⟩ hxel rfl
  · rw [if_neg hsign, Option.bind_some]
    refine hfinish (hx.within.mono (by norm_num)) (-⟨x.el, y.el, hon⟩) ⟨hyel, ?_⟩ ?_ rfl
    · by_cases hzero : x.el = 0
      · exact .inl (neg_eq_zero.mpr hzero)
      · right
        have hlt := leValue_lt p
        rw [hp] at hlt
        have htop : leValue p / 2 ^ 255 < 2 := by omega
        rw [neg_x, val_neg_parity hzero]
        have hbit := Nat.mod_two_eq_zero_or_one x.el.val
        change 1 - x.el.val % 2 = _
        omega
    · rw [neg_x, neg_neg]

/-- Decoding finds the point that the bytes name, whenever they name one. -/
theorem ptUnpackneg_spec {p : Bytes} (hp : p.length = 32) :
    Returns (ptUnpackneg p) (Unpacked p) := by
  have hwide : ∀ {a : Gf}, a.Carried → a.Within (2 ^ 24) := fun h => h.within.mono (by norm_num)
  apply (gfUnpack_el p).bind
  rintro y ⟨hy, hyel⟩
  apply (gfSq_spec (hy.mono (by norm_num))).bind
  rintro n ⟨hn, hne⟩
  apply (gfMul_spec (hwide hn) (show kD.Within (2 ^ 24) by decide +kernel)).bind
  rintro e ⟨he, hee⟩
  apply (gfSub_spec hn.within kGf1_within (by norm_num)).bind
  rintro num ⟨hnum, hnume⟩
  apply (gfAdd_spec kGf1_within he.within (by norm_num)).bind
  rintro den ⟨hden, hdene⟩
  have hnum' := hnum.mono (show (2 ^ 16 + 38 + 2 ^ 17 : Int) ≤ 2 ^ 18 by norm_num)
  have hden' := hden.mono (show (2 ^ 17 + (2 ^ 16 + 38) : Int) ≤ 2 ^ 18 by norm_num)
  rw [kGf1_el, hne] at hnume
  rw [kGf1_el, hee, hne] at hdene
  apply (rootCandidate_spec hnum' hden').bind
  rintro c ⟨hc, hce⟩
  rw [notRoot_spec hnum' hden' hc]
  simp only [Option.bind_eq_bind, Option.bind_some]
  -- the second try: the candidate, times the root of -1 if it missed
  have hsecond : Returns (if decide (c.el * c.el * den.el ≠ num.el) = true
      then gfMul c kI else some c) fun x => x.Carried ∧
        ((∃ r, r * r * den.el = num.el) → x.el * x.el * den.el = num.el) := by
    by_cases hmiss : c.el * c.el * den.el = num.el
    · rw [if_neg (by simpa using hmiss)]
      exact Returns.some ⟨hc, fun _ => hmiss⟩
    · rw [if_pos (by simpa using hmiss)]
      apply (gfMul_spec (hwide hc) (show kI.Within (2 ^ 24) by decide +kernel)).mono
      rintro x ⟨hx, hxe⟩
      refine ⟨hx, ?_⟩
      rintro ⟨r, hr⟩
      have hneg := (root_candidate hr hce).resolve_left hmiss
      rw [hxe]
      linear_combination c.el * c.el * den.el * kI_sq - hneg
  apply hsecond.bind
  rintro x ⟨hx, hfound⟩
  rw [notRoot_spec hnum' hden' hx, Option.bind_some]
  by_cases hroot : x.el * x.el * den.el = num.el
  · rw [if_neg (by simpa using hroot)]
    apply unpack_root hp hx hy hyel
    rw [← hnume, ← hroot, hdene]
  · rw [if_pos (by simpa using hroot)]
    apply Returns.some
    intro P hP
    apply hroot
    apply hfound
    refine ⟨P.x, ?_⟩
    have hon := (point_iff P.x P.y).mp P.on
    rw [hdene, hnume, hyel, ← hP.y]
    exact hon

/-- Writing one byte of a number. -/
theorem leValue_set (r : Bytes) {k : Nat} (hk : k < r.length) (c : UInt8) :
    leValue (r.set k c) + 256 ^ k * (r.getD k 0).toNat = leValue r + 256 ^ k * c.toNat := by
  induction r generalizing k with
  | nil => simp at hk
  | cons x r ih =>
    cases k with
    | zero =>
      rw [List.set_cons_zero, List.getD_cons_zero, leValue_cons, leValue_cons]
      omega
    | succ k =>
      have htail := ih (k := k) (by simpa using hk)
      rw [List.set_cons_succ, List.getD_cons_succ, leValue_cons, leValue_cons, pow_succ]
      linear_combination 256 * htail

/-- Flipping the top bit of a number below 2^255. -/
theorem leValue_set_top {r : Bytes} {b : Nat} (hr : r.length = 32) (hlt : leValue r < 2 ^ 255)
    (hb : b < 2) :
    leValue (r.set 31 (r.getD 31 0 ^^^ (UInt8.ofNat b <<< 7))) = leValue r + 2 ^ 255 * b := by
  have htop : (r.getD 31 0).toNat < 128 := by
    rw [leValue_getD]
    omega
  have hflip : ∀ x < 128, ∀ b < 2,
      (UInt8.ofNat x ^^^ (UInt8.ofNat b <<< 7)).toNat = x + 128 * b := by decide
  have hset := leValue_set r (show 31 < r.length by omega)
    (r.getD 31 0 ^^^ (UInt8.ofNat b <<< 7))
  have hbyte := hflip _ htop _ hb
  rw [UInt8.ofNat_toNat] at hbyte
  rw [hbyte] at hset
  omega

theorem ptPack_spec {p : Pt} {P : Point curve} (hp : p.Represents P) :
    Returns (ptPack p) fun r => Encodes r P := by
  have hwide : ∀ {a : Gf}, a.Carried → a.Within (2 ^ 58) := fun h => h.within.mono (by norm_num)
  apply (gfInv_spec (hp.z.mono (by norm_num))).bind
  rintro zi ⟨hzi, hzie⟩
  apply (gfMul_spec (hp.x.mono (by norm_num)) hzi).bind
  rintro tx ⟨htx, htxe⟩
  apply (gfMul_spec (hp.y.mono (by norm_num)) hzi).bind
  rintro ty ⟨hty, htye⟩
  apply (gfPack_spec (hwide hty)).bind
  rintro r ⟨hlength, hvalue⟩
  rw [gfPar_spec (hwide htx)]
  apply Returns.some
  have hz : p.z.el ≠ 0 := hp.extended.Z_ne
  have hx : tx.el = P.x := by
    rw [htxe, hzie, show p.x.el = P.x * p.z.el from hp.extended.X, mul_inv_cancel_right₀ hz]
  have hy : ty.el = P.y := by
    rw [htye, hzie, show p.y.el = P.y * p.z.el from hp.extended.Y, mul_inv_cancel_right₀ hz]
  rw [hy] at hvalue
  rw [hx]
  constructor
  · rw [List.length_set, hlength]
  · rw [leValue_set_top hlength (hvalue ▸ val_lt P.y) (Nat.mod_lt _ (by decide)), hvalue]

def word32 (n : Nat) : Vector UInt8 32 := ⟨(littleEndian 32 n).toArray, by simp⟩

theorem leValue_word32 (n : Nat) : leValue (word32 n).toList = n % 256 ^ 32 :=
  leValue_littleEndian 32 n

/-- The bytes of a point. -/
def encode (P : Point curve) : Vector UInt8 32 := word32 (P.y.val + 2 ^ 255 * (P.x.val % 2))

theorem encodes_encode (P : Point curve) : Encodes (encode P).toList P := by
  have hy := val_lt P.y
  constructor
  · exact Vector.length_toList
  · rw [encode, leValue_word32, Nat.mod_eq_of_lt (by omega)]

theorem ptPack_eq {p : Pt} {P : Point curve} (hp : p.Represents P) :
    ptPack p = some (encode P).toList := by
  obtain ⟨r, hr, hencodes⟩ := ptPack_spec hp
  rw [hr, hencodes.unique (encodes_encode P)]

/-- Sums in either order, and bracketed either way, have one encoding: that of the sum. -/
theorem ptAdd_ptPack {p q r : Pt} {P Q R : Point curve} (hp : p.Represents P)
    (hq : q.Represents Q) (hr : r.Represents R) :
    (ptAdd p q >>= fun s => ptAdd s r >>= ptPack) = some (encode (P + Q + R)).toList ∧
      (ptAdd r q >>= fun s => ptAdd p s >>= ptPack) = some (encode (P + Q + R)).toList := by
  obtain ⟨s, hs, hsum⟩ := ptAdd_spec hp hq
  obtain ⟨t, ht, hsum'⟩ := ptAdd_spec hsum hr
  obtain ⟨s', hs', hswap⟩ := ptAdd_spec hr hq
  obtain ⟨t', ht', hswap'⟩ := ptAdd_spec hp hswap
  have horder : P + (R + Q) = P + Q + R := by rw [add_comm R Q, add_assoc]
  constructor
  · simp only [hs, ht, Option.bind_eq_bind, Option.bind_some]
    exact ptPack_eq hsum'
  · simp only [hs', ht', Option.bind_eq_bind, Option.bind_some]
    rw [← horder]
    exact ptPack_eq hswap'

/-- The base point as `pt_scalarbase` starts from it. -/
def basePt : Pt := ⟨kBX, kBY, kGf1, (gfMul kBX kBY).getD kGf0⟩

theorem represents_basePt : basePt.Represents base := by
  obtain ⟨t, ht, hrep⟩ := represents_affine (P := base) (kBX_within.mono (by norm_num))
    (kBY_within.mono (by norm_num)) rfl rfl
  rwa [basePt, ht, Option.getD_some]

theorem ptAdd_ptPack_base :
    (ptAdd basePt basePt >>= fun s => ptAdd s basePt >>= ptPack) =
      some (encode (base + base + base)).toList ∧
    (ptAdd basePt basePt >>= fun s => ptAdd basePt s >>= ptPack) =
      some (encode (base + base + base)).toList :=
  ptAdd_ptPack represents_basePt represents_basePt represents_basePt

/-- Multiples of multiples, whatever coordinates the first left behind. -/
theorem ptScalarmult_ptPack {q : Pt} {Q : Point curve} {s t : Bytes} (hq : q.Represents Q)
    (hs : s.length = 32) (ht : t.length = 32) :
    (ptScalarmult q s >>= fun p => ptScalarmult p t >>= ptPack) =
      some (encode ((leValue s * leValue t) • Q)).toList := by
  obtain ⟨p, hp, hmultiple⟩ := ptScalarmult_spec hq hs
  obtain ⟨r, hr, hproduct⟩ := ptScalarmult_spec hmultiple ht
  rw [← mul_nsmul] at hproduct
  simp only [hp, hr, Option.bind_eq_bind, Option.bind_some]
  exact ptPack_eq hproduct

theorem ptScalarmult_ptPack_base :
    (ptScalarmult basePt (littleEndian 32 2) >>= fun p =>
      ptScalarmult p (littleEndian 32 3) >>= ptPack) =
      some (encode ((leValue (littleEndian 32 2) * leValue (littleEndian 32 3)) • base)).toList :=
  ptScalarmult_ptPack represents_basePt rfl rfl

/-- Decoding hands out the opposite of the point that the bytes name, whichever bytes name
it, and nothing for bytes that name none. -/
theorem ptUnpackneg_ptPack {b : Bytes} (hb : b.length = 32) :
    Returns (ptUnpackneg b) (fun r => r.elim (∀ P : Point curve, ¬ Decodes b P) fun q =>
      ∃ P, Decodes b P ∧ ptPack q = some (encode (-P)).toList) ∧
    ∀ P, Returns (ptUnpackneg (encode P).toList) fun r =>
      ∃ q, r = some q ∧ ptPack q = some (encode (-P)).toList := by
  constructor
  · apply (ptUnpackneg_spec hb).mono
    intro r hr
    cases r with
    | none => exact hr
    | some q =>
      obtain ⟨P, hP, hq⟩ := hr
      exact ⟨P, hP, ptPack_eq hq⟩
  · intro P
    have hdecodes := (encodes_encode P).decodes
    apply (ptUnpackneg_spec (encodes_encode P).length).mono
    intro r hr
    cases r with
    | none => exact absurd hdecodes (hr P)
    | some q =>
      obtain ⟨Q, hQ, hq⟩ := hr
      obtain rfl := hQ.unique hdecodes
      exact ⟨q, rfl, ptPack_eq hq⟩

theorem ptUnpackneg_ptPack_zeros :
    Returns (ptUnpackneg (List.replicate 32 0)) (fun r =>
      r.elim (∀ P : Point curve, ¬ Decodes (List.replicate 32 0) P) fun q =>
        ∃ P, Decodes (List.replicate 32 0) P ∧ ptPack q = some (encode (-P)).toList) :=
  (ptUnpackneg_ptPack List.length_replicate).1

end Keylight.Ed25519
