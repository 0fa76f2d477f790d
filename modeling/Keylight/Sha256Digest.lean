import Keylight.BlockHash
import Keylight.Sha256
import Keylight.Words

/-!
# The SHA-256 digest

The streaming context against the message it was fed: the digest is the fold of
the compression function over the padded message, however the message is cut
into updates, and two messages share a digest only when their runs merge.
-/
namespace Keylight.Sha256
open Bytes BlockHash

@[simp] theorem bigEndian64_length (n : UInt64) : (bigEndian64 n).length = 8 := rfl

@[simp] theorem bigEndian32_length (n : UInt32) : (bigEndian32 n).length = 4 := rfl

/-- Bits of a message of `len` bytes, in a word. -/
def bitLength (len : Nat) : UInt64 := UInt64.ofNat (8 * len)

/-- The marker 0x80, zeros, and the bit length in the last 8 bytes. -/
def padding : Padding UInt8 where
  size := 64
  width := 8
  marker := 0x80
  filler := 0
  length len := bigEndian64 (bitLength len)
  width_lt := by decide
  length_length _ := rfl

/-- A context after the bytes of `m`. -/
structure Absorbed (m : Bytes) (ctx : Ctx) : Prop where
  fed : Fed transform 64 init.state m ctx.state ctx.data
  bitlen : ctx.bitlen = UInt64.ofNat (512 * (m.length / 64))

theorem absorbed_init : Absorbed [] init :=
  ⟨Fed.nil transform 64 init.state, rfl⟩

/-- One byte of the loop of `sha256_update`. -/
theorem Absorbed.update_one {m : Bytes} {ctx : Ctx} (h : Absorbed m ctx) (c : UInt8) :
    Absorbed (m ++ [c]) (update ctx [c]) := by
  have hheld := h.fed.held_lt (by decide)
  have hlen : ctx.data.length = m.length % 64 := by rw [h.fed.held, rest_length]
  simp only [update, List.foldl_cons, List.foldl_nil]
  split
  case isTrue hfull =>
    rw [List.length_append, List.length_singleton] at hfull
    have hblocks : (m ++ [c]).length / 64 = m.length / 64 + 1 := by
      rw [List.length_append, List.length_singleton]
      omega
    refine ⟨h.fed.fill (by decide) (by simpa using hfull), ?_⟩
    rw [hblocks, Nat.mul_succ, UInt64.ofNat_add, ← h.bitlen]
    rfl
  case isFalse hmore =>
    rw [List.length_append, List.length_singleton] at hmore
    have hblocks : (m ++ [c]).length / 64 = m.length / 64 := by
      rw [List.length_append, List.length_singleton]
      omega
    have hlt : (ctx.data ++ [c]).length < 64 := by
      rw [List.length_append, List.length_singleton]
      omega
    refine ⟨h.fed.hold hlt, ?_⟩
    rw [hblocks]
    exact h.bitlen

theorem Absorbed.update {m : Bytes} {ctx : Ctx} (h : Absorbed m ctx) (data : Bytes) :
    Absorbed (m ++ data) (update ctx data) := by
  induction data generalizing m ctx with
  | nil => simpa [Sha256.update] using h
  | cons c data ih =>
    have hone := ih (h.update_one c)
    rw [List.append_assoc, List.singleton_append] at hone
    exact hone

/-- The length written by `sha256_final` is that of the message. -/
theorem Absorbed.bits {m : Bytes} {ctx : Ctx} (h : Absorbed m ctx) :
    ctx.bitlen + ctx.data.length.toUInt64 * 8 = bitLength m.length := by
  have hlen : ctx.data.length = m.length % 64 := by rw [h.fed.held, rest_length]
  have hsum : 8 * m.length = 512 * (m.length / 64) + m.length % 64 * 8 := by omega
  rw [h.bitlen, hlen, bitLength, hsum, UInt64.ofNat_add, UInt64.ofNat_mul _ 8]
  rfl

/-- Padding what was absorbed gives the hash of the message. -/
theorem Absorbed.pad {m : Bytes} {ctx : Ctx} (h : Absorbed m ctx) :
    pad ctx = padding.hash transform init.state m := by
  have hheld := h.fed.held_lt (by decide)
  have hmarked : (ctx.data ++ [(0x80 : UInt8)]).length = ctx.data.length + 1 := by
    rw [List.length_append, List.length_singleton]
  rw [Sha256.pad]
  simp only [h.bits, hmarked]
  split
  case isTrue hfit =>
    have hone := padding.hash_one_block h.fed (show ctx.data.length + 1 + 8 ≤ 64 by omega)
    rw [hone, List.append_assoc ctx.data]
    rfl
  case isFalse hfull =>
    have htwo := padding.hash_two_blocks h.fed (show 64 < ctx.data.length + 1 + 8 by omega)
    rw [htwo, List.append_assoc ctx.data]
    rfl

/-- The digest bytes of the last chaining words. -/
def digest (w : Words) : Vector UInt8 32 :=
  ⟨(w.toList.flatMap bigEndian32).toArray, by simp [Words.toList, bigEndian32]⟩

theorem final_eq (ctx : Ctx) : final ctx = digest (pad ctx) := rfl

theorem absorbed_updates {m : Bytes} {ctx : Ctx} (h : Absorbed m ctx) (pieces : List Bytes) :
    Absorbed (m ++ pieces.flatten) (pieces.foldl update ctx) := by
  induction pieces generalizing m ctx with
  | nil => simpa using h
  | cons p pieces ih =>
    have htail := ih (h.update p)
    rwa [List.append_assoc] at htail

theorem Absorbed.final {m : Bytes} {ctx : Ctx} (h : Absorbed m ctx) :
    final ctx = digest (padding.hash transform init.state m) := by
  rw [final_eq, h.pad]

/-- The digest of a message fed in pieces is that of the padded message. -/
theorem sha256_streams (pieces : List Bytes) : final (pieces.foldl update init) =
    digest (padding.hash transform init.state pieces.flatten) :=
  (absorbed_updates absorbed_init pieces).final

theorem bytes_eq (m : Bytes) : bytes m = digest (padding.hash transform init.state m) :=
  (absorbed_init.update m).final

theorem bigEndian32_injective {a b : UInt32} (h : bigEndian32 a = bigEndian32 b) : a = b := by
  simp only [bigEndian32, List.map_cons, List.map_nil, List.cons.injEq, ← UInt8.toNat_inj,
    UInt32.toNat_toUInt8, UInt32.toNat_shiftRight, UInt32.reduceToNat, Nat.shiftRight_eq_div_pow,
    Nat.reduceMod, Nat.reducePow] at h
  obtain ⟨h₀, h₁, h₂, h₃, -⟩ := h
  have ha := a.toNat_lt
  have hb := b.toNat_lt
  apply UInt32.toNat_inj.mp
  omega

theorem bigEndian64_injective {a b : UInt64} (h : bigEndian64 a = bigEndian64 b) : a = b := by
  simp only [bigEndian64, List.map_cons, List.map_nil, List.cons.injEq, ← UInt8.toNat_inj,
    UInt64.toNat_toUInt8, UInt64.toNat_shiftRight, UInt64.reduceToNat, Nat.shiftRight_eq_div_pow,
    Nat.reduceMod, Nat.reducePow] at h
  obtain ⟨h₀, h₁, h₂, h₃, h₄, h₅, h₆, h₇, -⟩ := h
  have ha := a.toNat_lt
  have hb := b.toNat_lt
  apply UInt64.toNat_inj.mp
  omega

/-- The digest writes out every word. -/
theorem digest_injective {w v : Words} (h : digest w = digest v) : w = v := by
  have hbytes : w.toList.flatMap bigEndian32 = v.toList.flatMap bigEndian32 := by
    simpa [digest] using congrArg Vector.toList h
  simp only [Words.toList, List.flatMap_cons, List.flatMap_nil, List.append_nil] at hbytes
  obtain ⟨ha, hbytes⟩ := List.append_inj hbytes rfl
  obtain ⟨hb, hbytes⟩ := List.append_inj hbytes rfl
  obtain ⟨hc, hbytes⟩ := List.append_inj hbytes rfl
  obtain ⟨hd, hbytes⟩ := List.append_inj hbytes rfl
  obtain ⟨he, hbytes⟩ := List.append_inj hbytes rfl
  obtain ⟨hf, hbytes⟩ := List.append_inj hbytes rfl
  obtain ⟨hg, hh⟩ := List.append_inj hbytes rfl
  cases w
  cases v
  simp only [Words.mk.injEq]
  exact ⟨bigEndian32_injective ha, bigEndian32_injective hb, bigEndian32_injective hc,
    bigEndian32_injective hd, bigEndian32_injective he, bigEndian32_injective hf,
    bigEndian32_injective hg, bigEndian32_injective hh⟩

theorem bitLength_injective {m n : Nat} (hm : m < 2 ^ 61) (hn : n < 2 ^ 61)
    (h : bitLength m = bitLength n) : m = n := by
  have hnat := congrArg UInt64.toNat h
  rw [bitLength, bitLength, UInt64.toNat_ofNat', UInt64.toNat_ofNat'] at hnat
  omega

/-- The compression runs behind the two digests meet in a collision. -/
def Collide (m n : Bytes) : Prop :=
  Merge transform init.state (filled 64 (padding.pad m)) (filled 64 (padding.pad n))

/-- Below 2^61 bytes the bit length does not wrap, and two messages have one digest
when they are equal or their runs collide, and not otherwise. -/
theorem bytes_eq_iff {m n : Bytes} (hm : m.length < 2 ^ 61) (hn : n.length < 2 ^ 61) :
    bytes m = bytes n ↔ m = n ∨ Collide m n := by
  have hlength : padding.length m.length = padding.length n.length → m.length = n.length :=
    fun h => bitLength_injective hm hn (bigEndian64_injective h)
  have hiff := padding.hash_eq_iff transform init.state hlength
  rw [bytes_eq, bytes_eq]
  exact ⟨fun h => hiff.mp (digest_injective h), fun h => congrArg digest (hiff.mpr h)⟩

def kHexChars : Bytes := ascii "0123456789abcdef"

/-- The two digits of a byte. -/
def hexPair (byte : UInt8) : Bytes :=
  [kHexChars.getD (byte >>> 4 &&& 0xf).toNat 0, kHexChars.getD (byte &&& 0xf).toNat 0]

def sha256Hex (input : Bytes) : Bytes := (bytes input).toList.flatMap hexPair

/-- Two digits for each byte. -/
theorem hexPair_eq (byte : UInt8) : hexPair byte =
    [kHexChars.getD (byte.toNat / 16) 0, kHexChars.getD (byte.toNat % 16) 0] := by
  have hbyte := byte.toNat_lt
  have hlow : (byte &&& 0xf).toNat = byte.toNat % 16 := by
    rw [UInt8.toNat_and]
    exact Nat.and_two_pow_sub_one_eq_mod byte.toNat 4
  have hhigh : (byte >>> 4 &&& 0xf).toNat = byte.toNat / 16 := by
    have hshift : (byte >>> 4).toNat = byte.toNat / 16 := by
      rw [UInt8.toNat_shiftRight]
      exact Nat.shiftRight_eq_div_pow byte.toNat 4
    rw [UInt8.toNat_and, hshift]
    exact (Nat.and_two_pow_sub_one_eq_mod _ 4).trans (Nat.mod_eq_of_lt (by omega))
  rw [hexPair, hlow, hhigh]

theorem hexChar_injective : ∀ i < 16, ∀ j < 16,
    kHexChars.getD i 0 = kHexChars.getD j 0 → i = j := by decide

theorem hexPair_injective {a b : UInt8} (h : hexPair a = hexPair b) : a = b := by
  have ha := a.toNat_lt
  have hb := b.toNat_lt
  rw [hexPair_eq, hexPair_eq] at h
  obtain ⟨hhigh, hlow, -⟩ := List.cons.inj h |>.imp_right List.cons.inj
  have hdiv := hexChar_injective _ (by omega) _ (by omega) hhigh
  have hmod := hexChar_injective _ (by omega) _ (by omega) hlow
  apply UInt8.toNat_inj.mp
  omega

/-- The hexadecimal text determines the bytes. -/
theorem flatMap_hexPair_injective {xs ys : Bytes}
    (h : xs.flatMap hexPair = ys.flatMap hexPair) : xs = ys := by
  induction xs generalizing ys with
  | nil =>
    cases ys with
    | nil => rfl
    | cons y ys => simp [hexPair] at h
  | cons x xs ih =>
    cases ys with
    | nil => simp [hexPair] at h
    | cons y ys =>
      rw [List.flatMap_cons, List.flatMap_cons] at h
      obtain ⟨hhead, htail⟩ := List.append_inj h rfl
      rw [hexPair_injective hhead, ih htail]

theorem sha256Hex_eq_iff {m n : Bytes} : sha256Hex m = sha256Hex n ↔ bytes m = bytes n := by
  constructor
  · intro h
    exact Vector.toList_inj.mp (flatMap_hexPair_injective h)
  · intro h
    rw [sha256Hex, sha256Hex, h]

end Keylight.Sha256
