import Keylight.BlockHash
import Keylight.Sha256Digest

/-!
# SHA-512

The streaming hash inside the signature check. A piece is copied into the block
buffer as far as there is room, and the rest waits for the next turn of the
loop. The digest is the fold over the padded message however it is cut.
-/
namespace Keylight.Sha512
open Bytes BlockHash
open Sha256 (bigEndian64 bigEndian64_length bigEndian64_injective)

def kSha512K : List UInt64 :=
  [0x428a2f98d728ae22, 0x7137449123ef65cd, 0xb5c0fbcfec4d3b2f, 0xe9b5dba58189dbbc,
   0x3956c25bf348b538, 0x59f111f1b605d019, 0x923f82a4af194f9b, 0xab1c5ed5da6d8118,
   0xd807aa98a3030242, 0x12835b0145706fbe, 0x243185be4ee4b28c, 0x550c7dc3d5ffb4e2,
   0x72be5d74f27b896f, 0x80deb1fe3b1696b1, 0x9bdc06a725c71235, 0xc19bf174cf692694,
   0xe49b69c19ef14ad2, 0xefbe4786384f25e3, 0x0fc19dc68b8cd5b5, 0x240ca1cc77ac9c65,
   0x2de92c6f592b0275, 0x4a7484aa6ea6e483, 0x5cb0a9dcbd41fbd4, 0x76f988da831153b5,
   0x983e5152ee66dfab, 0xa831c66d2db43210, 0xb00327c898fb213f, 0xbf597fc7beef0ee4,
   0xc6e00bf33da88fc2, 0xd5a79147930aa725, 0x06ca6351e003826f, 0x142929670a0e6e70,
   0x27b70a8546d22ffc, 0x2e1b21385c26c926, 0x4d2c6dfc5ac42aed, 0x53380d139d95b3df,
   0x650a73548baf63de, 0x766a0abb3c77b2a8, 0x81c2c92e47edaee6, 0x92722c851482353b,
   0xa2bfe8a14cf10364, 0xa81a664bbc423001, 0xc24b8b70d0f89791, 0xc76c51a30654be30,
   0xd192e819d6ef5218, 0xd69906245565a910, 0xf40e35855771202a, 0x106aa07032bbd1b8,
   0x19a4c116b8d2d0c8, 0x1e376c085141ab53, 0x2748774cdf8eeb99, 0x34b0bcb5e19b48a8,
   0x391c0cb3c5c95a63, 0x4ed8aa4ae3418acb, 0x5b9cca4f7763e373, 0x682e6ff3d6b2b8a3,
   0x748f82ee5defb2fc, 0x78a5636f43172f60, 0x84c87814a1f0ab72, 0x8cc702081a6439ec,
   0x90befffa23631e28, 0xa4506cebde82bde9, 0xbef9a3f7b2c67915, 0xc67178f2e372532b,
   0xca273eceea26619c, 0xd186b8c721c0c207, 0xeada7dd6cde0eb1e, 0xf57d4f7fee6ed178,
   0x06f067aa72176fba, 0x0a637dc5a2c898a6, 0x113f9804bef90dae, 0x1b710b35131c471b,
   0x28db77f523047d84, 0x32caab7b40c72493, 0x3c9ebe0a15c9bebc, 0x431d67c49c100d4c,
   0x4cc5d4becb3e42b6, 0x597f299cfc657e2a, 0x5fcb6fab3ad6faec, 0x6c44198c4a475817]

def klRotr64 (x n : UInt64) : UInt64 := (x >>> n) ||| (x <<< (64 - n))

/-- The eight chaining words, and the working variables of a round. -/
structure Words where
  a : UInt64
  b : UInt64
  c : UInt64
  d : UInt64
  e : UInt64
  f : UInt64
  g : UInt64
  h : UInt64

def Words.add (s t : Words) : Words :=
  ⟨s.a + t.a, s.b + t.b, s.c + t.c, s.d + t.d, s.e + t.e, s.f + t.f, s.g + t.g, s.h + t.h⟩

def Words.toList (s : Words) : List UInt64 := [s.a, s.b, s.c, s.d, s.e, s.f, s.g, s.h]

/-- Word `i` of a block, shifted in byte by byte. -/
def blockWord (blk : Bytes) (i : Nat) : UInt64 :=
  (List.range 8).foldl (fun w j => (w <<< 8) ||| (blk.getD (8 * i + j) 0).toUInt64) 0

def s0 (x : UInt64) : UInt64 := klRotr64 x 1 ^^^ klRotr64 x 8 ^^^ (x >>> 7)

def s1 (x : UInt64) : UInt64 := klRotr64 x 19 ^^^ klRotr64 x 61 ^^^ (x >>> 6)

/-- `w` grows by one word a step; entry `i` looks back 2, 7, 15 and 16 words. -/
def extend (w : List UInt64) : Nat → List UInt64
  | 0 => w
  | n + 1 =>
    let i := w.length
    extend (w ++ [w.getD (i - 16) 0 + s0 (w.getD (i - 15) 0) + w.getD (i - 7) 0 +
      s1 (w.getD (i - 2) 0)]) n

def round (v : Words) (k w : UInt64) : Words :=
  let S1 := klRotr64 v.e 14 ^^^ klRotr64 v.e 18 ^^^ klRotr64 v.e 41
  let ch := (v.e &&& v.f) ^^^ (~~~v.e &&& v.g)
  let t1 := v.h + S1 + ch + k + w
  let S0 := klRotr64 v.a 28 ^^^ klRotr64 v.a 34 ^^^ klRotr64 v.a 39
  let maj := (v.a &&& v.b) ^^^ (v.a &&& v.c) ^^^ (v.b &&& v.c)
  let t2 := S0 + maj
  ⟨t1 + t2, v.a, v.b, v.c, v.d + t1, v.e, v.f, v.g⟩

/-- `kl_sha512_block` on one block of 128 bytes. -/
def klSha512Block (h : Words) (blk : Bytes) : Words :=
  let w := extend ((List.range 16).map (blockWord blk)) 64
  h.add ((kSha512K.zip w).foldl (fun v kw => round v kw.1 kw.2) h)

/-- `KlSha512Ctx`; `buf` holds the `used` bytes of the block begun. -/
structure Ctx where
  h : Words
  buf : Bytes
  total : UInt64
  used_lt : buf.length < 128

def klSha512Init : Ctx where
  h := ⟨0x6a09e667f3bcc908, 0xbb67ae8584caa73b, 0x3c6ef372fe94f82b, 0xa54ff53a5f1d36f1,
    0x510e527fade682d1, 0x9b05688c2b3e6c1f, 0x1f83d9abfb41bd6b, 0x5be0cd19137e2179⟩
  buf := []
  total := 0
  used_lt := by decide

/-- One turn of the loop: what there is room for goes into the buffer. -/
def takeIn (ctx : Ctx) (data : Bytes) : Ctx :=
  let buf := ctx.buf ++ data.take (128 - ctx.buf.length)
  if hfull : buf.length < 128 then { ctx with buf := buf, used_lt := hfull }
  else ⟨klSha512Block ctx.h buf, [], ctx.total + 128, by decide⟩

def klSha512Update (ctx : Ctx) (data : Bytes) : Ctx :=
  if data = [] then ctx
  else klSha512Update (takeIn ctx data) (data.drop (128 - ctx.buf.length))
termination_by data.length
decreasing_by
  have hroom := ctx.used_lt
  have hdata : 0 < data.length := List.length_pos_iff.mpr ‹_›
  rw [List.length_drop]
  omega

/-- The chaining words after the padded end of the message. -/
def pad (ctx : Ctx) : Words :=
  let bits := (ctx.total + ctx.buf.length.toUInt64) * 8
  let marked := ctx.buf ++ [0x80]
  let ending := List.replicate 8 0 ++ bigEndian64 bits
  if 112 < marked.length then
    klSha512Block (klSha512Block ctx.h (marked ++ List.replicate (128 - marked.length) 0))
      (List.replicate 112 0 ++ ending)
  else
    klSha512Block ctx.h (marked ++ List.replicate (112 - marked.length) 0 ++ ending)

def digest (w : Words) : Vector UInt8 64 :=
  ⟨(w.toList.flatMap bigEndian64).toArray, by simp [Words.toList, bigEndian64]⟩

def klSha512Final (ctx : Ctx) : Vector UInt8 64 := digest (pad ctx)

/-- A context after the bytes of `m`. -/
structure Absorbed (m : Bytes) (ctx : Ctx) : Prop where
  fed : Fed klSha512Block 128 klSha512Init.h m ctx.h ctx.buf
  total : ctx.total = UInt64.ofNat (128 * (m.length / 128))

theorem absorbed_init : Absorbed [] klSha512Init :=
  ⟨Fed.nil klSha512Block 128 klSha512Init.h, rfl⟩

/-- Filling the buffer absorbs what it takes. -/
theorem Absorbed.takeIn {m : Bytes} {ctx : Ctx} (h : Absorbed m ctx) (data : Bytes) :
    Absorbed (m ++ data.take (128 - ctx.buf.length)) (takeIn ctx data) := by
  have hroom := ctx.used_lt
  have hlen : ctx.buf.length = m.length % 128 := by rw [h.fed.held, rest_length]
  have htake := List.length_take_le (128 - ctx.buf.length) data
  rw [Sha512.takeIn]
  split
  case isTrue hmore =>
    refine ⟨h.fed.hold hmore, ?_⟩
    rw [List.length_append] at hmore
    have hblocks : (m ++ data.take (128 - ctx.buf.length)).length / 128 = m.length / 128 := by
      rw [List.length_append]
      omega
    rw [hblocks]
    exact h.total
  case isFalse hfull =>
    rw [List.length_append] at hfull
    have hfill : (ctx.buf ++ data.take (128 - ctx.buf.length)).length = 128 := by
      rw [List.length_append]
      omega
    have hblocks : (m ++ data.take (128 - ctx.buf.length)).length / 128 = m.length / 128 + 1 := by
      rw [List.length_append]
      omega
    refine ⟨h.fed.fill (by decide) hfill, ?_⟩
    rw [hblocks, Nat.mul_succ, UInt64.ofNat_add, ← h.total]
    rfl

theorem Absorbed.update {m : Bytes} {ctx : Ctx} (h : Absorbed m ctx) (data : Bytes) :
    Absorbed (m ++ data) (klSha512Update ctx data) := by
  fun_induction klSha512Update ctx data generalizing m with
  | case1 ctx => simpa using h
  | case2 ctx data _ ih =>
    have hrest := ih (h.takeIn data)
    rwa [List.append_assoc, List.take_append_drop] at hrest

/-- Bits of a message of `len` bytes, in a word. -/
def bitLength (len : Nat) : UInt64 := UInt64.ofNat len * 8

/-- The marker 0x80, zeros, and 16 bytes of length, of which the code writes the lower 8. -/
def padding : Padding UInt8 where
  size := 128
  width := 16
  marker := 0x80
  filler := 0
  length len := List.replicate 8 0 ++ bigEndian64 (bitLength len)
  width_lt := by decide
  length_length _ := rfl

theorem Absorbed.bits {m : Bytes} {ctx : Ctx} (h : Absorbed m ctx) :
    (ctx.total + ctx.buf.length.toUInt64) * 8 = bitLength m.length := by
  have hlen : ctx.buf.length = m.length % 128 := by rw [h.fed.held, rest_length]
  have hsum : UInt64.ofNat m.length =
      UInt64.ofNat (128 * (m.length / 128)) + UInt64.ofNat (m.length % 128) := by
    rw [← UInt64.ofNat_add, Nat.div_add_mod]
  rw [h.total, hlen, bitLength, hsum]

/-- Padding what was absorbed gives the hash of the message. -/
theorem Absorbed.pad {m : Bytes} {ctx : Ctx} (h : Absorbed m ctx) :
    pad ctx = padding.hash klSha512Block klSha512Init.h m := by
  have hroom := ctx.used_lt
  have hmarked : (ctx.buf ++ [(0x80 : UInt8)]).length = ctx.buf.length + 1 := by
    rw [List.length_append, List.length_singleton]
  rw [Sha512.pad]
  simp only [h.bits, hmarked]
  split
  case isTrue hfull =>
    have htwo := padding.hash_two_blocks h.fed (show 128 < ctx.buf.length + 1 + 16 by omega)
    rw [htwo, List.append_assoc ctx.buf]
    rfl
  case isFalse hfit =>
    have hone := padding.hash_one_block h.fed (show ctx.buf.length + 1 + 16 ≤ 128 by omega)
    rw [hone, List.append_assoc ctx.buf]
    rfl

theorem absorbed_updates {m : Bytes} {ctx : Ctx} (h : Absorbed m ctx) (pieces : List Bytes) :
    Absorbed (m ++ pieces.flatten) (pieces.foldl klSha512Update ctx) := by
  induction pieces generalizing m ctx with
  | nil => simpa using h
  | cons p pieces ih =>
    have htail := ih (h.update p)
    rwa [List.append_assoc] at htail

/-- The digest as a function of the whole message. -/
def sha512 (m : Bytes) : Vector UInt8 64 :=
  digest (padding.hash klSha512Block klSha512Init.h m)

theorem Absorbed.final {m : Bytes} {ctx : Ctx} (h : Absorbed m ctx) :
    klSha512Final ctx = sha512 m := by
  rw [klSha512Final, h.pad, sha512]

/-- However the message is cut into updates. -/
theorem sha512_streams (pieces : List Bytes) :
    klSha512Final (pieces.foldl klSha512Update klSha512Init) = sha512 pieces.flatten :=
  (absorbed_updates absorbed_init pieces).final

end Keylight.Sha512
