import Keylight.Limbs

/-!
# The key and the tag

The limbs that the key gives, and the words of the tag: the last carries, the
subtraction of the modulus and the pad.
-/
namespace Keylight.ChaCha20.Poly1305
open Bytes Words

def carryExact (h : Limbs) : Option Limbs := do
  let h2 ← add32 h.l2 (h.l1 >>> 26)
  let h3 ← add32 h.l3 (h2 >>> 26)
  let h4 ← add32 h.l4 (h3 >>> 26)
  let c5 ← mul32 (h4 >>> 26) 5
  let h0 ← add32 h.l0 c5
  let h1 ← add32 (h.l1 &&& 0x3ffffff) (h0 >>> 26)
  return ⟨h0 &&& 0x3ffffff, h1, h2 &&& 0x3ffffff, h3 &&& 0x3ffffff, h4 &&& 0x3ffffff⟩

/-- The carry that goes round comes from a second limb that is small afterwards. -/
theorem carry_spec {h : Limbs} (hh : h.Carried) : carryExact h = some (carry h) ∧
    (carry h).Below (2 ^ 26) ∧ ∃ k, h.value = (carry h).value + modulus * k := by
  obtain ⟨hb₀, hb₁, hb₂, hb₃, hb₄⟩ := hh
  let l1 : UInt32 := h.l1 &&& 0x3ffffff
  let h2 := h.l2 + (h.l1 >>> 26)
  let h3 := h.l3 + (h2 >>> 26)
  let h4 := h.l4 + (h3 >>> 26)
  let h0 := h.l0 + (h4 >>> 26) * 5
  have hl₁ : l1.toNat = h.l1.toNat % 2 ^ 26 := toNat_limb h.l1
  obtain ⟨he₂, hv₂⟩ : add32 h.l2 (h.l1 >>> 26) = some h2 ∧
      h2.toNat = h.l2.toNat + h.l1.toNat / 2 ^ 26 := addCarry_spec (by omega)
  obtain ⟨he₃, hv₃⟩ : add32 h.l3 (h2 >>> 26) = some h3 ∧
      h3.toNat = h.l3.toNat + h2.toNat / 2 ^ 26 := addCarry_spec (by omega)
  obtain ⟨he₄, hv₄⟩ : add32 h.l4 (h3 >>> 26) = some h4 ∧
      h4.toNat = h.l4.toNat + h3.toNat / 2 ^ 26 := addCarry_spec (by omega)
  have hc₄ := toNat_carry h4
  obtain ⟨hmul, hadd, hv₀⟩ : mul32 (h4 >>> 26) 5 = some ((h4 >>> 26) * 5) ∧
      add32 h.l0 ((h4 >>> 26) * 5) = some h0 ∧ h0.toNat = h.l0.toNat + (h4 >>> 26).toNat * 5 :=
    addRound_spec (by omega)
  obtain ⟨he₁, hv₁⟩ : add32 l1 (h0 >>> 26) = some (l1 + (h0 >>> 26)) ∧
      (l1 + (h0 >>> 26)).toNat = l1.toNat + h0.toNat / 2 ^ 26 := addCarry_spec (by omega)
  have hr₀ := toNat_limb h0
  have hr₂ := toNat_limb h2
  have hr₃ := toNat_limb h3
  have hr₄ := toNat_limb h4
  have hresult : carry h =
      ⟨h0 &&& 0x3ffffff, l1 + (h0 >>> 26), h2 &&& 0x3ffffff, h3 &&& 0x3ffffff,
        h4 &&& 0x3ffffff⟩ := rfl
  rw [hresult]
  refine ⟨?_, ⟨?_, ?_, ?_, ?_, ?_⟩, h4.toNat / 2 ^ 26, ?_⟩
  · simp only [carryExact, he₂, he₃, he₄, hmul, hadd, Option.bind_eq_bind, Option.bind_some]
    change Option.bind (add32 l1 (h0 >>> 26)) _ = _
    rw [he₁]
    rfl
  · exact limb_lt h0
  · change (l1 + (h0 >>> 26)).toNat < _
    omega
  · exact limb_lt h2
  · exact limb_lt h3
  · exact limb_lt h4
  · simp only [Limbs.value, hr₀, hv₁, hl₁, hr₂, hr₃, hr₄]
    rw [show modulus = 2 ^ 130 - 5 from rfl]
    omega

/-- The difference of the last limb borrows by design; its sums are checked. -/
def reduceExact (h : Limbs) : Option Limbs := do
  let g0 ← add32 h.l0 5
  let g1 ← add32 h.l1 (g0 >>> 26)
  let g2 ← add32 h.l2 (g1 >>> 26)
  let g3 ← add32 h.l3 (g2 >>> 26)
  let top ← add32 h.l4 (g3 >>> 26)
  let g4 := top - ((1 : UInt32) <<< 26)
  let mask : UInt32 := (g4 >>> 31) - 1
  return ⟨(h.l0 &&& ~~~mask) ||| (g0 &&& 0x3ffffff &&& mask),
    (h.l1 &&& ~~~mask) ||| (g1 &&& 0x3ffffff &&& mask),
    (h.l2 &&& ~~~mask) ||| (g2 &&& 0x3ffffff &&& mask),
    (h.l3 &&& ~~~mask) ||| (g3 &&& 0x3ffffff &&& mask), (h.l4 &&& ~~~mask) ||| (g4 &&& mask)⟩

/-- The mask is empty where the difference borrows. -/
theorem mask_borrowed {top : UInt32} (htop : top.toNat < 2 ^ 26) :
    ((top - ((1 : UInt32) <<< 26)) >>> 31) - 1 = 0 := by
  have hbit : ((1 : UInt32) <<< 26).toNat = 2 ^ 26 := by decide
  have hsub : (top - ((1 : UInt32) <<< 26)).toNat = 2 ^ 32 - 2 ^ 26 + top.toNat := by
    rw [UInt32.toNat_sub, hbit]
    omega
  have hshift : ((top - ((1 : UInt32) <<< 26)) >>> 31).toNat = 1 := by
    rw [toNat_shiftRight32 _ 31 (by decide), hsub]
    change (2 ^ 32 - 2 ^ 26 + top.toNat) / 2 ^ 31 = 1
    omega
  have hone : (top - ((1 : UInt32) <<< 26)) >>> 31 = 1 := UInt32.toNat_inj.mp hshift
  rw [hone]
  rfl

theorem not_borrowed {top : UInt32} (htop : top.toNat = 2 ^ 26) :
    top - ((1 : UInt32) <<< 26) = 0 := by
  have heq : top = (1 : UInt32) <<< 26 := UInt32.toNat_inj.mp htop
  rw [heq]
  rfl

theorem select_first (a b : UInt32) : (a &&& ~~~(0 : UInt32)) ||| (b &&& 0) = a := by
  simp

theorem select_second (a b : UInt32) :
    (a &&& ~~~((0 : UInt32) - 1)) ||| (b &&& ((0 : UInt32) - 1)) = b := by
  have hones : (0 : UInt32) - 1 = -1 := rfl
  rw [hones]
  simp

theorem reduce_spec {h : Limbs} (hh : h.Below (2 ^ 26)) : reduceExact h = some (reduce h) ∧
    (reduce h).Below (2 ^ 26) ∧ (reduce h).value = h.value % modulus := by
  obtain ⟨hb₀, hb₁, hb₂, hb₃, hb₄⟩ := hh
  let g0 := h.l0 + 5
  let g1 := h.l1 + (g0 >>> 26)
  let g2 := h.l2 + (g1 >>> 26)
  let g3 := h.l3 + (g2 >>> 26)
  let top := h.l4 + (g3 >>> 26)
  have hfive : (5 : UInt32).toNat = 5 := rfl
  have hf₀ : h.l0.toNat + (5 : UInt32).toNat < 2 ^ 32 := by omega
  have hv₀ : g0.toNat = h.l0.toNat + 5 := toNat_add32 hf₀
  obtain ⟨he₁, hv₁⟩ : add32 h.l1 (g0 >>> 26) = some g1 ∧
      g1.toNat = h.l1.toNat + g0.toNat / 2 ^ 26 := addCarry_spec (by omega)
  obtain ⟨he₂, hv₂⟩ : add32 h.l2 (g1 >>> 26) = some g2 ∧
      g2.toNat = h.l2.toNat + g1.toNat / 2 ^ 26 := addCarry_spec (by omega)
  obtain ⟨he₃, hv₃⟩ : add32 h.l3 (g2 >>> 26) = some g3 ∧
      g3.toNat = h.l3.toNat + g2.toNat / 2 ^ 26 := addCarry_spec (by omega)
  obtain ⟨he₄, hv₄⟩ : add32 h.l4 (g3 >>> 26) = some top ∧
      top.toNat = h.l4.toNat + g3.toNat / 2 ^ 26 := addCarry_spec (by omega)
  have hr₀ := toNat_limb g0
  have hr₁ := toNat_limb g1
  have hr₂ := toNat_limb g2
  have hr₃ := toNat_limb g3
  have hmodulus : modulus = 2 ^ 130 - 5 := rfl
  have hvalue : h.value = h.l0.toNat + 2 ^ 26 * h.l1.toNat + 2 ^ 52 * h.l2.toNat +
      2 ^ 78 * h.l3.toNat + 2 ^ 104 * h.l4.toNat := rfl
  constructor
  · simp only [reduceExact, add32_eq hf₀, Option.bind_eq_bind, Option.bind_some]
    change Option.bind (add32 h.l1 (g0 >>> 26)) _ = _
    simp only [he₁, he₂, he₃, he₄, Option.bind_some]
    rfl
  · by_cases hborrow : top.toNat < 2 ^ 26
    · have hresult : reduce h = h := by
        change Limbs.mk _ _ _ _ _ = _
        rw [mask_borrowed hborrow]
        simp only [select_first]
      have hsmall : h.value < modulus := by omega
      rw [hresult]
      exact ⟨⟨hb₀, hb₁, hb₂, hb₃, hb₄⟩, (Nat.mod_eq_of_lt hsmall).symm⟩
    · have hround : top.toNat = 2 ^ 26 := by omega
      have hresult : reduce h =
          ⟨g0 &&& 0x3ffffff, g1 &&& 0x3ffffff, g2 &&& 0x3ffffff, g3 &&& 0x3ffffff, 0⟩ := by
        change Limbs.mk _ _ _ _ _ = _
        rw [not_borrowed hround, UInt32.zero_shiftRight]
        simp only [select_second]
        rfl
      have hzero : (0 : UInt32).toNat = 0 := rfl
      have hlarge : modulus ≤ h.value := by omega
      have hreduced : (reduce h).value = h.value - modulus := by
        rw [hresult]
        simp only [Limbs.value, hr₀, hr₁, hr₂, hr₃, hzero]
        omega
      constructor
      · rw [hresult]
        exact ⟨limb_lt g0, limb_lt g1, limb_lt g2, limb_lt g3, Nat.two_pow_pos 26⟩
      · rw [hreduced, Nat.mod_eq_sub_mod hlarge, Nat.mod_eq_of_lt (by omega)]

/-- A word of the tag with the carry of the one below. -/
def addWord (w p : UInt32) (f : UInt64) : UInt64 := w.toUInt64 + p.toUInt64 + (f >>> 32)

def addWordExact (w p : UInt32) (f : UInt64) : Option UInt64 := do
  let sum ← add64 w.toUInt64 p.toUInt64
  add64 sum (f >>> 32)

def addPadExact (h : Limbs) (pad : Vector UInt32 4) : Option Tag := do
  let h0 := h.l0 ||| (h.l1 <<< 26)
  let h1 := (h.l1 >>> 6) ||| (h.l2 <<< 20)
  let h2 := (h.l2 >>> 12) ||| (h.l3 <<< 14)
  let h3 := (h.l3 >>> 18) ||| (h.l4 <<< 8)
  let f0 ← add64 h0.toUInt64 (pad.get 0).toUInt64
  let f1 ← addWordExact h1 (pad.get 1) f0
  let f2 ← addWordExact h2 (pad.get 2) f1
  let f3 ← addWordExact h3 (pad.get 3) f2
  return storeWords #v[f0.toUInt32, f1.toUInt32, f2.toUInt32, f3.toUInt32]

/-- The upper bits of one limb below the lower ones of the next. -/
theorem toNat_joined {a b k j : UInt32} (ha : a.toNat < 2 ^ 26)
    (hk : k.toNat + j.toNat = 26) (hj : 0 < j.toNat) :
    ((a >>> k) ||| (b <<< j)).toNat =
      a.toNat / 2 ^ k.toNat + 2 ^ j.toNat * (b.toNat % 2 ^ (32 - j.toNat)) := by
  have hhigh : (a >>> k).toNat = a.toNat / 2 ^ k.toNat := toNat_shiftRight32 a k (by omega)
  have hsmall : (a >>> k).toNat < 2 ^ j.toNat := by
    rw [hhigh]
    apply Nat.div_lt_of_lt_mul
    rw [← Nat.pow_add, hk]
    exact ha
  rw [toNat_or_disjoint hsmall (toNat_shiftLeft32 b j (by omega)), hhigh]

theorem leValue_ccStore32Le (v : UInt32) : leValue (ccStore32Le v) = v.toNat := by
  have hv : v.toNat < 2 ^ 32 := v.toNat_lt
  have hbyte : ∀ s : UInt32, s.toNat < 32 → (v >>> s).toUInt8.toNat =
      v.toNat / 2 ^ s.toNat % 2 ^ 8 := by
    intro s hs
    rw [UInt32.toNat_toUInt8, toNat_shiftRight32 v s hs]
  have h₀ : (v >>> 0).toUInt8.toNat = v.toNat / 2 ^ 0 % 2 ^ 8 := hbyte 0 (by decide)
  have h₁ : (v >>> 8).toUInt8.toNat = v.toNat / 2 ^ 8 % 2 ^ 8 := hbyte 8 (by decide)
  have h₂ : (v >>> 16).toUInt8.toNat = v.toNat / 2 ^ 16 % 2 ^ 8 := hbyte 16 (by decide)
  have h₃ : (v >>> 24).toUInt8.toNat = v.toNat / 2 ^ 24 % 2 ^ 8 := hbyte 24 (by decide)
  simp only [ccStore32Le, List.map_cons, List.map_nil, leValue_cons, leValue_nil, h₀, h₁, h₂, h₃]
  omega

theorem leValue_storeWords (a b c d : UInt32) : leValue (storeWords #v[a, b, c, d]).toList =
    a.toNat + 2 ^ 32 * b.toNat + 2 ^ 64 * c.toNat + 2 ^ 96 * d.toNat := by
  have hlist : (storeWords #v[a, b, c, d]).toList =
      ccStore32Le a ++ (ccStore32Le b ++ (ccStore32Le c ++ ccStore32Le d)) := rfl
  rw [hlist]
  simp only [leValue_append, leValue_ccStore32Le, length_ccStore32Le]
  ring

theorem addWord_spec (w p : UInt32) {f : UInt64} (hf : f.toNat < 2 ^ 33) :
    addWordExact w p f = some (addWord w p f) ∧
      (addWord w p f).toNat = w.toNat + p.toNat + f.toNat / 2 ^ 32 := by
  have hw : w.toUInt64.toNat = w.toNat := UInt32.toNat_toUInt64 w
  have hp : p.toUInt64.toNat = p.toNat := UInt32.toNat_toUInt64 p
  have hw' : w.toNat < 2 ^ 32 := w.toNat_lt
  have hp' : p.toNat < 2 ^ 32 := p.toNat_lt
  have hcarry : (f >>> 32).toNat = f.toNat / 2 ^ 32 := toNat_shiftRight64 f 32 (by decide)
  have hfit : w.toUInt64.toNat + p.toUInt64.toNat < 2 ^ 64 := by omega
  have hsum := toNat_add64 hfit
  have hfit' : (w.toUInt64 + p.toUInt64).toNat + (f >>> 32).toNat < 2 ^ 64 := by omega
  constructor
  · rw [addWordExact, add64_eq hfit, Option.bind_eq_bind, Option.bind_some, add64_eq hfit',
      addWord]
  · rw [addWord, toNat_add64 hfit', hsum, hw, hp, hcarry]

def padValue (pad : Vector UInt32 4) : Nat :=
  (pad.get 0).toNat + 2 ^ 32 * (pad.get 1).toNat + 2 ^ 64 * (pad.get 2).toNat +
    2 ^ 96 * (pad.get 3).toNat

/-- What leaves the last word is dropped, as the tag is a number modulo 2^128. -/
theorem addPad_spec {h : Limbs} (hh : h.Below (2 ^ 26)) (pad : Vector UInt32 4) :
    addPadExact h pad = some (addPad h pad) ∧
      leValue (addPad h pad).toList = (h.value + padValue pad) % 2 ^ 128 := by
  obtain ⟨hb₀, hb₁, hb₂, hb₃, hb₄⟩ := hh
  let h0 := h.l0 ||| (h.l1 <<< 26)
  let h1 := (h.l1 >>> 6) ||| (h.l2 <<< 20)
  let h2 := (h.l2 >>> 12) ||| (h.l3 <<< 14)
  let h3 := (h.l3 >>> 18) ||| (h.l4 <<< 8)
  have hw₀ : h0.toNat = h.l0.toNat + 2 ^ 26 * (h.l1.toNat % 2 ^ 6) :=
    toNat_or_disjoint hb₀ (toNat_shiftLeft32 h.l1 26 (by decide))
  have hw₁ : h1.toNat = h.l1.toNat / 2 ^ 6 + 2 ^ 20 * (h.l2.toNat % 2 ^ 12) :=
    toNat_joined hb₁ (by decide) (by decide)
  have hw₂ : h2.toNat = h.l2.toNat / 2 ^ 12 + 2 ^ 14 * (h.l3.toNat % 2 ^ 18) :=
    toNat_joined hb₂ (by decide) (by decide)
  have hw₃ : h3.toNat = h.l3.toNat / 2 ^ 18 + 2 ^ 8 * (h.l4.toNat % 2 ^ 24) :=
    toNat_joined hb₃ (by decide) (by decide)
  let f0 := h0.toUInt64 + (pad.get 0).toUInt64
  let f1 := addWord h1 (pad.get 1) f0
  let f2 := addWord h2 (pad.get 2) f1
  let f3 := addWord h3 (pad.get 3) f2
  have hp₀ : (pad.get 0).toNat < 2 ^ 32 := (pad.get 0).toNat_lt
  have hp₁ : (pad.get 1).toNat < 2 ^ 32 := (pad.get 1).toNat_lt
  have hp₂ : (pad.get 2).toNat < 2 ^ 32 := (pad.get 2).toNat_lt
  have hp₃ : (pad.get 3).toNat < 2 ^ 32 := (pad.get 3).toNat_lt
  have hfit : h0.toUInt64.toNat + (pad.get 0).toUInt64.toNat < 2 ^ 64 := by
    rw [UInt32.toNat_toUInt64, UInt32.toNat_toUInt64]
    omega
  have he₀ : add64 h0.toUInt64 (pad.get 0).toUInt64 = some f0 := add64_eq hfit
  have hv₀ : f0.toNat = h0.toNat + (pad.get 0).toNat := toNat_add64 hfit
  obtain ⟨he₁, hv₁⟩ : addWordExact h1 (pad.get 1) f0 = some f1 ∧
      f1.toNat = h1.toNat + (pad.get 1).toNat + f0.toNat / 2 ^ 32 := addWord_spec _ _ (by omega)
  obtain ⟨he₂, hv₂⟩ : addWordExact h2 (pad.get 2) f1 = some f2 ∧
      f2.toNat = h2.toNat + (pad.get 2).toNat + f1.toNat / 2 ^ 32 := addWord_spec _ _ (by omega)
  obtain ⟨he₃, hv₃⟩ : addWordExact h3 (pad.get 3) f2 = some f3 ∧
      f3.toNat = h3.toNat + (pad.get 3).toNat + f2.toNat / 2 ^ 32 := addWord_spec _ _ (by omega)
  have hresult : addPad h pad =
      storeWords #v[f0.toUInt32, f1.toUInt32, f2.toUInt32, f3.toUInt32] := rfl
  constructor
  · change Option.bind (add64 h0.toUInt64 (pad.get 0).toUInt64) _ = _
    rw [he₀]
    change Option.bind (addWordExact h1 (pad.get 1) f0) _ = _
    rw [he₁]
    change Option.bind (addWordExact h2 (pad.get 2) f1) _ = _
    rw [he₂]
    change Option.bind (addWordExact h3 (pad.get 3) f2) _ = _
    rw [he₃]
    rfl
  · have hnarrow : ∀ f : UInt64, f.toUInt32.toNat = f.toNat % 2 ^ 32 := UInt64.toNat_toUInt32
    rw [hresult, leValue_storeWords, hnarrow, hnarrow, hnarrow, hnarrow]
    simp only [Limbs.value, padValue]
    omega

/-- The bits of `r` that stay. -/
def clampMask : Nat := 0x0ffffffc0ffffffc0ffffffc0fffffff

theorem toNat_clamped (key : Bytes) (p : Nat) {k mask : UInt32} (hk : k.toNat < 32)
    (hmask : mask.toNat = clampMask / 2 ^ (8 * p + k.toNat) % 2 ^ 26)
    (hfit : mask.toNat < 2 ^ (32 - k.toNat)) : ((ccLoad32Le key p >>> k) &&& mask).toNat =
      (leValue key &&& clampMask) / 2 ^ (8 * p + k.toNat) % 2 ^ 26 := by
  have hlimb : mask.toNat < 2 ^ 26 := by
    rw [hmask]
    exact Nat.mod_lt _ (by decide)
  rw [UInt32.toNat_and, toNat_shiftedLoad key p hk, mod_and hfit, Nat.and_div_two_pow,
    Nat.and_mod_two_pow, ← hmask, mod_and hlimb]

/-- The five masks are the pieces of the one mask. -/
theorem init_r (key : Bytes) : (init key).r.Below (2 ^ 26) ∧
    (init key).r.value = leValue key &&& clampMask := by
  have hl₀ : (ccLoad32Le key 0 &&& 0x3ffffff).toNat =
      (leValue key &&& clampMask) / 2 ^ 0 % 2 ^ 26 :=
    toNat_clamped key 0 (k := 0) (by decide) (by decide) (by decide)
  have hl₁ : ((ccLoad32Le key 3 >>> 2) &&& 0x3ffff03).toNat =
      (leValue key &&& clampMask) / 2 ^ 26 % 2 ^ 26 :=
    toNat_clamped key 3 (by decide) (by decide) (by decide)
  have hl₂ : ((ccLoad32Le key 6 >>> 4) &&& 0x3ffc0ff).toNat =
      (leValue key &&& clampMask) / 2 ^ 52 % 2 ^ 26 :=
    toNat_clamped key 6 (by decide) (by decide) (by decide)
  have hl₃ : ((ccLoad32Le key 9 >>> 6) &&& 0x3f03fff).toNat =
      (leValue key &&& clampMask) / 2 ^ 78 % 2 ^ 26 :=
    toNat_clamped key 9 (by decide) (by decide) (by decide)
  have hl₄ : ((ccLoad32Le key 12 >>> 8) &&& 0x00fffff).toNat =
      (leValue key &&& clampMask) / 2 ^ 104 % 2 ^ 26 :=
    toNat_clamped key 12 (by decide) (by decide) (by decide)
  have hsmall : leValue key &&& clampMask < 2 ^ 130 :=
    Nat.and_le_right.trans_lt (by decide)
  have hpieces := sum_pieces (leValue key &&& clampMask)
  constructor
  · exact ⟨hl₀.trans_lt (Nat.mod_lt _ (by decide)), hl₁.trans_lt (Nat.mod_lt _ (by decide)),
      hl₂.trans_lt (Nat.mod_lt _ (by decide)), hl₃.trans_lt (Nat.mod_lt _ (by decide)),
      hl₄.trans_lt (Nat.mod_lt _ (by decide))⟩
  · simp only [Limbs.value, init, hl₀, hl₁, hl₂, hl₃, hl₄]
    omega

theorem init_pad (key : Bytes) :
    padValue (init key).pad = leValue (key.drop 16) % 2 ^ 128 := by
  have hword : ∀ i, (ccLoad32Le key (16 + 4 * i)).toNat =
      leValue (key.drop 16) / 2 ^ (32 * i) % 2 ^ 32 := by
    intro i
    rw [toNat_ccLoad32Le, leValue_drop, Nat.pow_add, ← Nat.div_div_eq_div_mul, Nat.pow_mul,
      Nat.pow_mul 2 32 i]
  have hw₀ : (init key).pad[0].toNat = leValue (key.drop 16) / 2 ^ 0 % 2 ^ 32 := hword 0
  have hw₁ : (init key).pad[1].toNat = leValue (key.drop 16) / 2 ^ 32 % 2 ^ 32 := hword 1
  have hw₂ : (init key).pad[2].toNat = leValue (key.drop 16) / 2 ^ 64 % 2 ^ 32 := hword 2
  have hw₃ : (init key).pad[3].toNat = leValue (key.drop 16) / 2 ^ 96 % 2 ^ 32 := hword 3
  have hpad : ∀ pad : Vector UInt32 4, padValue pad =
      pad[0].toNat + 2 ^ 32 * pad[1].toNat + 2 ^ 64 * pad[2].toNat + 2 ^ 96 * pad[3].toNat :=
    fun _ => rfl
  rw [hpad, hw₀, hw₁, hw₂, hw₃]
  omega

end Keylight.ChaCha20.Poly1305
