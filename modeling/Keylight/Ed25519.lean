import Keylight.GroupOrder
import Keylight.PointEncoding
import Keylight.Sha512

/-!
# Signatures

The signature check, from bytes to an answer. It accepts exactly when S is below
2^253, the public key decodes to a point A, and R is the encoding of
`[S]B - [h]A`. No step overflows, so there is always an answer.
-/
namespace Keylight.Ed25519
open Bytes Checked Words Edwards
open Sha512 (klSha512Init klSha512Update klSha512Final sha512)

/-- `kl_ct_eq32`: zero if the first 32 bytes are equal. -/
def klCtEq32 (a b : Bytes) : UInt32 :=
  let diff := (List.range 32).foldl (fun d i => d ||| (a.getD i 0 ^^^ b.getD i 0).toUInt32) 0
  (diff ||| (0 - diff)) >>> 31

/-- The digest of R, the key and the message; an empty message makes no update. -/
def hram (msg : Bytes) (sig : Vector UInt8 64) (pubkey : Vector UInt8 32) : Vector UInt8 64 :=
  let ctx := klSha512Update klSha512Init (sig.toList.take 32 ++ pubkey.toList)
  klSha512Final (if 0 < msg.length then klSha512Update ctx msg else ctx)

/-- `ed25519_verify`, once the key is decoded to `a`. -/
def checkEquation (msg : Bytes) (sig : Vector UInt8 64) (pubkey : Vector UInt8 32) (a : Pt) :
    Option Bool := do
  let h ← klReduce (hram msg sig pubkey).toList
  let ha ← ptScalarmult a h
  let sb ← ptScalarbase (sig.toList.drop 32)
  let sb ← ptAdd sb ha
  let r ← ptPack sb
  some (klCtEq32 sig.toList r == 0)

/-- `ed25519_verify` -/
def ed25519Verify (msg : Bytes) (sig : Vector UInt8 64) (pubkey : Vector UInt8 32) :
    Option Bool :=
  if sig.toList.getD 63 0 &&& 0xe0 ≠ 0 then some false
  else do
    let a ← ptUnpackneg pubkey.toList
    a.elim (some false) (checkEquation msg sig pubkey)

/-- The number S of a signature. -/
def scalar (sig : Vector UInt8 64) : Nat := leValue (sig.toList.drop 32)

/-- The number h: the digest of R, the key and the message, modulo the order. -/
def challenge (msg : Bytes) (sig : Vector UInt8 64) (pubkey : Vector UInt8 32) : Nat :=
  leValue (sha512 (sig.toList.take 32 ++ pubkey.toList ++ msg)).toList % order

/-- `[S]B = R + [h]A`, for points `A` and `R` that the key and the signature name. -/
structure Equation (msg : Bytes) (sig : Vector UInt8 64) (pubkey : Vector UInt8 32)
    (A R : Point curve) : Prop where
  key : Decodes pubkey.toList A
  commitment : Encodes (sig.toList.take 32) R
  sum : scalar sig • base = R + challenge msg sig pubkey • A

/-- What the check accepts. -/
structure Valid (msg : Bytes) (sig : Vector UInt8 64) (pubkey : Vector UInt8 32) : Prop where
  small : scalar sig < 2 ^ 253
  points : ∃ A R, Equation msg sig pubkey A R

/-- The high bits of the last byte are those of S from 2^253 on. -/
theorem high_bits_iff (sig : Vector UInt8 64) :
    sig.toList.getD 63 0 &&& 0xe0 = 0 ↔ scalar sig < 2 ^ 253 := by
  have hlength : (sig.toList.drop 32).length = 32 := by simp
  have hlt := leValue_lt (sig.toList.drop 32)
  have hbyte := leValue_getD 31 (sig.toList.drop 32)
  have hget : (sig.toList.drop 32).getD 31 0 = sig.toList.getD 63 0 := by
    rw [List.getD_eq_getElem?_getD, List.getElem?_drop, ← List.getD_eq_getElem?_getD]
  have hmask : ∀ n < 256, UInt8.ofNat n &&& 0xe0 = 0 ↔ n < 32 := by decide +kernel
  have hbyte' := hmask _ (sig.toList.getD 63 0).toNat_lt
  rw [UInt8.ofNat_toNat] at hbyte'
  rw [hlength] at hlt
  rw [hget] at hbyte
  rw [hbyte', hbyte, scalar]
  omega

theorem foldl_or_toNat_lt (f : Nat → UInt8) (is : List Nat) {d : UInt32} (hd : d.toNat < 256) :
    (is.foldl (fun d i => d ||| (f i).toUInt32) d).toNat < 256 := by
  induction is generalizing d with
  | nil => exact hd
  | cons i is ih =>
    rw [List.foldl_cons]
    apply ih
    rw [UInt32.toNat_or, UInt8.toNat_toUInt32]
    exact Nat.or_lt_two_pow (n := 8) hd (f i).toNat_lt

theorem foldl_or_eq_zero_iff (f : Nat → UInt8) (is : List Nat) (d : UInt32) :
    is.foldl (fun d i => d ||| (f i).toUInt32) d = 0 ↔ d = 0 ∧ ∀ i ∈ is, f i = 0 := by
  induction is generalizing d with
  | nil => simp
  | cons i is ih =>
    have hbyte : (f i).toUInt32 = 0 ↔ f i = 0 := by
      rw [← UInt32.toNat_inj, ← UInt8.toNat_inj, UInt8.toNat_toUInt32]
      rfl
    rw [List.foldl_cons, ih, UInt32.or_eq_zero_iff, hbyte, and_assoc, List.forall_mem_cons]

/-- The sign bit of `d | -d` tells whether `d` is zero. -/
theorem fold_to_bit_eq_zero {d : UInt32} (h : d.toNat < 256) :
    (d ||| (0 - d)) >>> 31 = 0 ↔ d = 0 := by
  constructor
  · intro hbit
    by_contra hd
    have hpos : d.toNat ≠ 0 := fun h0 => hd (UInt32.toNat_inj.mp h0)
    have hneg : (0 - d).toNat = 2 ^ 32 - d.toNat := by
      rw [UInt32.toNat_sub, UInt32.toNat_zero]
      omega
    have hle : (0 - d).toNat ≤ (d ||| (0 - d)).toNat := by
      rw [UInt32.toNat_or]
      exact Nat.right_le_or
    have hshift := congrArg UInt32.toNat hbit
    rw [toNat_shiftRight32 _ _ (by decide), show (31 : UInt32).toNat = 31 by rfl,
      UInt32.toNat_zero] at hshift
    omega
  · rintro rfl
    rfl

/-- The comparison that ors all differences answers equality of the 32 bytes. -/
theorem klCtEq32_eq_zero_iff {a b : Bytes} (ha : 32 ≤ a.length) (hb : b.length = 32) :
    klCtEq32 a b = 0 ↔ a.take 32 = b := by
  have hsmall := foldl_or_toNat_lt (fun i => a.getD i 0 ^^^ b.getD i 0) (List.range 32)
    (d := 0) (by decide)
  rw [klCtEq32, fold_to_bit_eq_zero hsmall,
    foldl_or_eq_zero_iff fun i => a.getD i 0 ^^^ b.getD i 0]
  constructor
  · rintro ⟨-, h⟩
    apply List.ext_getElem
    · rw [List.length_take, hb, Nat.min_eq_left ha]
    · intro i hi hi'
      have hlt : i < 32 := by omega
      have hbyte := UInt8.xor_eq_zero_iff.mp (h i (List.mem_range.mpr hlt))
      rwa [List.getD_eq_getElem _ _ (by omega), List.getD_eq_getElem _ _ hi',
        ← List.getElem_take (j := 32)] at hbyte
  · rintro rfl
    refine ⟨rfl, fun i hi => ?_⟩
    have hlt := List.mem_range.mp hi
    rw [UInt8.xor_eq_zero_iff, List.getD_eq_getElem?_getD, List.getD_eq_getElem?_getD,
      List.getElem?_take_of_lt hlt]

theorem hram_eq (msg : Bytes) (sig : Vector UInt8 64) (pubkey : Vector UInt8 32) :
    hram msg sig pubkey = sha512 (sig.toList.take 32 ++ pubkey.toList ++ msg) := by
  have hbegun := Sha512.absorbed_init.update (sig.toList.take 32 ++ pubkey.toList)
  rw [hram]
  split
  case isTrue => exact (hbegun.update msg).final
  case isFalse hempty =>
    have hnil : msg = [] := by simpa using hempty
    rw [hnil, List.append_nil]
    exact hbegun.final

theorem add_nsmul_neg (P A : Point curve) (n : Nat) : P + n • -A = P - n • A := by
  rw [neg_nsmul, sub_eq_add_neg]

/-- The equation of the points, computed from the opposite of the key's point. -/
theorem checkEquation_spec {msg : Bytes} {sig : Vector UInt8 64} {pubkey : Vector UInt8 32}
    {a : Pt} {A : Point curve} (hkey : Decodes pubkey.toList A) (ha : a.Represents (-A)) :
    Returns (checkEquation msg sig pubkey a)
      fun ok => ok = true ↔ ∃ R, Equation msg sig pubkey A R := by
  have hdigest : (hram msg sig pubkey).toList.length = 64 := Vector.length_toList
  apply (klReduce_spec hdigest).bind
  rintro h ⟨hlength, hvalue⟩
  have hchallenge : leValue h = challenge msg sig pubkey := by
    rw [hvalue, hram_eq, challenge]
  apply (ptScalarmult_spec ha hlength).bind
  intro ha' hha
  apply (ptScalarbase_spec (s := sig.toList.drop 32) (by simp)).bind
  intro sb hsb
  apply (ptAdd_spec hsb hha).bind
  intro p hp
  apply (ptPack_spec hp).bind
  intro r hr
  apply Returns.some
  rw [hchallenge, ← scalar, add_nsmul_neg] at hr
  have htake : klCtEq32 sig.toList r = 0 ↔ sig.toList.take 32 = r :=
    klCtEq32_eq_zero_iff (by simp) hr.length
  rw [beq_iff_eq, htake]
  constructor
  · rintro rfl
    refine ⟨scalar sig • base - challenge msg sig pubkey • A, hkey, hr, ?_⟩
    rw [sub_add_cancel]
  · rintro ⟨R, -, hR, hsum⟩
    rw [hsum, add_sub_cancel_right] at hr
    exact hR.unique hr

/-- The check answers on every input, and its answer is `Valid`. -/
theorem ed25519Verify_spec (msg : Bytes) (sig : Vector UInt8 64) (pubkey : Vector UInt8 32) :
    Returns (ed25519Verify msg sig pubkey) fun ok => ok = true ↔ Valid msg sig pubkey := by
  rw [ed25519Verify]
  split
  case isTrue hhigh =>
    apply Returns.some
    have hlarge : ¬ scalar sig < 2 ^ 253 := fun h => hhigh ((high_bits_iff sig).mpr h)
    exact ⟨fun h => absurd h Bool.false_ne_true, fun h => absurd h.small hlarge⟩
  case isFalse hlow =>
    have hsmall := (high_bits_iff sig).mp (not_not.mp hlow)
    apply (ptUnpackneg_spec (p := pubkey.toList) (by simp)).bind
    intro a ha
    cases a with
    | none =>
      rw [Option.elim_none]
      apply Returns.some
      refine ⟨fun h => absurd h Bool.false_ne_true, ?_⟩
      rintro ⟨-, A, R, heq⟩
      exact absurd heq.key (ha A)
    | some a =>
      obtain ⟨A, hA, hrep⟩ := ha
      rw [Option.elim_some]
      apply (checkEquation_spec hA hrep).mono
      intro ok hok
      rw [hok]
      constructor
      · rintro ⟨R, hR⟩
        exact ⟨hsmall, A, R, hR⟩
      · rintro ⟨-, A', R, hR⟩
        obtain rfl := hR.key.unique hA
        exact ⟨R, hR⟩

theorem accepts_iff {msg : Bytes} {sig : Vector UInt8 64} {pubkey : Vector UInt8 32} :
    ed25519Verify msg sig pubkey = some true ↔ Valid msg sig pubkey := by
  obtain ⟨ok, hok, hiff⟩ := ed25519Verify_spec msg sig pubkey
  rw [hok, Option.some.injEq, hiff]

instance (msg : Bytes) (sig : Vector UInt8 64) (pubkey : Vector UInt8 32) :
    Decidable (Valid msg sig pubkey) := decidable_of_iff _ accepts_iff

/-- There is always an answer, and it is whether the equation holds. -/
theorem ed25519Verify_eq (msg : Bytes) (sig : Vector UInt8 64) (pubkey : Vector UInt8 32) :
    ed25519Verify msg sig pubkey = some (decide (Valid msg sig pubkey)) := by
  obtain ⟨ok, hok, hiff⟩ := ed25519Verify_spec msg sig pubkey
  rw [hok, Option.some.injEq, Bool.eq_iff_iff, hiff, decide_eq_true_eq]

end Keylight.Ed25519
