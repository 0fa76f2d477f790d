import Keylight.Bytes

/-!
# SHA-256

The digest over raw bytes. Bytes are collected in a block of 64 and compressed
as it fills; the last one or two blocks carry the 0x80 marker and the bit length.
-/
namespace Keylight.Sha256
open Bytes

def kK : List UInt32 :=
  [0x428a2f98, 0x71374491, 0xb5c0fbcf, 0xe9b5dba5, 0x3956c25b, 0x59f111f1, 0x923f82a4, 0xab1c5ed5,
   0xd807aa98, 0x12835b01, 0x243185be, 0x550c7dc3, 0x72be5d74, 0x80deb1fe, 0x9bdc06a7, 0xc19bf174,
   0xe49b69c1, 0xefbe4786, 0x0fc19dc6, 0x240ca1cc, 0x2de92c6f, 0x4a7484aa, 0x5cb0a9dc, 0x76f988da,
   0x983e5152, 0xa831c66d, 0xb00327c8, 0xbf597fc7, 0xc6e00bf3, 0xd5a79147, 0x06ca6351, 0x14292967,
   0x27b70a85, 0x2e1b2138, 0x4d2c6dfc, 0x53380d13, 0x650a7354, 0x766a0abb, 0x81c2c92e, 0x92722c85,
   0xa2bfe8a1, 0xa81a664b, 0xc24b8b70, 0xc76c51a3, 0xd192e819, 0xd6990624, 0xf40e3585, 0x106aa070,
   0x19a4c116, 0x1e376c08, 0x2748774c, 0x34b0bcb5, 0x391c0cb3, 0x4ed8aa4a, 0x5b9cca4f, 0x682e6ff3,
   0x748f82ee, 0x78a5636f, 0x84c87814, 0x8cc70208, 0x90befffa, 0xa4506ceb, 0xbef9a3f7, 0xc67178f2]

def rotr32 (x n : UInt32) : UInt32 := (x >>> n) ||| (x <<< (32 - n))

def ch (e f g : UInt32) : UInt32 := (e &&& f) ^^^ (~~~e &&& g)

def maj (a b c : UInt32) : UInt32 := (a &&& b) ^^^ (a &&& c) ^^^ (b &&& c)

def ep0 (a : UInt32) : UInt32 := rotr32 a 2 ^^^ rotr32 a 13 ^^^ rotr32 a 22

def ep1 (e : UInt32) : UInt32 := rotr32 e 6 ^^^ rotr32 e 11 ^^^ rotr32 e 25

def sig0 (x : UInt32) : UInt32 := rotr32 x 7 ^^^ rotr32 x 18 ^^^ (x >>> 3)

def sig1 (x : UInt32) : UInt32 := rotr32 x 17 ^^^ rotr32 x 19 ^^^ (x >>> 10)

/-- The eight chaining words, and the working variables of a round. -/
structure Words where
  a : UInt32
  b : UInt32
  c : UInt32
  d : UInt32
  e : UInt32
  f : UInt32
  g : UInt32
  h : UInt32

def Words.add (s t : Words) : Words :=
  ⟨s.a + t.a, s.b + t.b, s.c + t.c, s.d + t.d, s.e + t.e, s.f + t.f, s.g + t.g, s.h + t.h⟩

def Words.toList (s : Words) : List UInt32 := [s.a, s.b, s.c, s.d, s.e, s.f, s.g, s.h]

/-- The context; `data` holds the `datalen` bytes of the block begun. -/
structure Ctx where
  data : Bytes
  bitlen : UInt64
  state : Words

def init : Ctx where
  data := []
  bitlen := 0
  state := ⟨0x6a09e667, 0xbb67ae85, 0x3c6ef372, 0xa54ff53a,
    0x510e527f, 0x9b05688c, 0x1f83d9ab, 0x5be0cd19⟩

/-- Word `i` of a block, big-endian. -/
def blockWord (data : Bytes) (i : Nat) : UInt32 :=
  ((data.getD (4 * i) 0).toUInt32 <<< 24) ||| ((data.getD (4 * i + 1) 0).toUInt32 <<< 16) |||
    ((data.getD (4 * i + 2) 0).toUInt32 <<< 8) ||| (data.getD (4 * i + 3) 0).toUInt32

/-- `m` grows by one word a step; entry `i` looks back 2, 7, 15 and 16 words. -/
def extend (m : List UInt32) : Nat → List UInt32
  | 0 => m
  | n + 1 =>
    let i := m.length
    extend (m ++ [sig1 (m.getD (i - 2) 0) + m.getD (i - 7) 0 + sig0 (m.getD (i - 15) 0) +
      m.getD (i - 16) 0]) n

def round (w : Words) (k m : UInt32) : Words :=
  let t1 := w.h + ep1 w.e + ch w.e w.f w.g + k + m
  let t2 := ep0 w.a + maj w.a w.b w.c
  ⟨t1 + t2, w.a, w.b, w.c, w.d + t1, w.e, w.f, w.g⟩

/-- `sha256_transform` on one block of 64 bytes. -/
def transform (state : Words) (data : Bytes) : Words :=
  let m := extend ((List.range 16).map (blockWord data)) 48
  state.add ((kK.zip m).foldl (fun w km => round w km.1 km.2) state)

def update (ctx : Ctx) (data : Bytes) : Ctx :=
  data.foldl (fun ctx c =>
    let block := ctx.data ++ [c]
    if block.length = 64 then ⟨[], ctx.bitlen + 512, transform ctx.state block⟩
    else { ctx with data := block }) ctx

def bigEndian64 (n : UInt64) : Bytes :=
  ([56, 48, 40, 32, 24, 16, 8, 0] : List UInt64).map fun s => (n >>> s).toUInt8

def bigEndian32 (n : UInt32) : Bytes :=
  ([24, 16, 8, 0] : List UInt32).map fun s => (n >>> s).toUInt8

/-- The chaining words after the padded end of the message. -/
def pad (ctx : Ctx) : Words :=
  let marked := ctx.data ++ [0x80]
  let bits := bigEndian64 (ctx.bitlen + ctx.data.length.toUInt64 * 8)
  if ctx.data.length < 56 then
    transform ctx.state (marked ++ List.replicate (56 - marked.length) 0 ++ bits)
  else
    -- no room left for the length: it goes in a block of its own
    transform (transform ctx.state (marked ++ List.replicate (64 - marked.length) 0))
      (List.replicate 56 0 ++ bits)

def final (ctx : Ctx) : Vector UInt8 32 :=
  ⟨((pad ctx).toList.flatMap bigEndian32).toArray, by simp [Words.toList, bigEndian32]⟩

/-- `sha256_bytes` -/
def bytes (data : Bytes) : Vector UInt8 32 := final (update init data)

example : ((bytes (ascii "abc")).toList.take 4, (bytes (ascii "abc")).toList.drop 28) =
    ([0xba, 0x78, 0x16, 0xbf], [0xf2, 0x00, 0x15, 0xad]) := by decide +kernel

end Keylight.Sha256
