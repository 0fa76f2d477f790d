import Keylight.Bytes

/-!
# ChaCha20-Poly1305

The cipher, the one-time authenticator in its radix 2^26 form and the seal and
open of the AEAD built from them, without associated data.
-/
namespace Keylight.ChaCha20
open Bytes

def ccRotl32 (x n : UInt32) : UInt32 := (x <<< n) ||| (x >>> (32 - n))

/-- The little-endian word at offset `p`. -/
def ccLoad32Le (m : Bytes) (p : Nat) : UInt32 :=
  (m.getD p 0).toUInt32 ||| ((m.getD (p + 1) 0).toUInt32 <<< 8) |||
    ((m.getD (p + 2) 0).toUInt32 <<< 16) ||| ((m.getD (p + 3) 0).toUInt32 <<< 24)

def ccStore32Le (v : UInt32) : Bytes :=
  ([0, 8, 16, 24] : List UInt32).map fun s => (v >>> s).toUInt8

def ccStore64Le (v : UInt64) : Bytes :=
  ([0, 8, 16, 24, 32, 40, 48, 56] : List UInt64).map fun s => (v >>> s).toUInt8

theorem length_ccStore32Le (v : UInt32) : (ccStore32Le v).length = 4 := by
  simp [ccStore32Le]

/-- `cc_store32_le` for each of `n` words in turn. -/
def storeWords (x : Vector UInt32 n) : Vector UInt8 (n * 4) :=
  ⟨(x.toList.flatMap ccStore32Le).toArray, by simp [List.length_flatMap, length_ccStore32Le]⟩

abbrev Key := Vector UInt8 32

abbrev Nonce := Vector UInt8 12

abbrev Tag := Vector UInt8 16

def ccQuarterRound (a b c d : Fin 16) (x : Vector UInt32 16) : Vector UInt32 16 :=
  let x := x.set a (x[a] + x[b])
  let x := x.set d (ccRotl32 (x[d] ^^^ x[a]) 16)
  let x := x.set c (x[c] + x[d])
  let x := x.set b (ccRotl32 (x[b] ^^^ x[c]) 12)
  let x := x.set a (x[a] + x[b])
  let x := x.set d (ccRotl32 (x[d] ^^^ x[a]) 8)
  let x := x.set c (x[c] + x[d])
  x.set b (ccRotl32 (x[b] ^^^ x[c]) 7)

/-- Four column rounds, then four diagonal ones. -/
def doubleRound (x : Vector UInt32 16) : Vector UInt32 16 :=
  let x := ccQuarterRound 0 4 8 12 x
  let x := ccQuarterRound 1 5 9 13 x
  let x := ccQuarterRound 2 6 10 14 x
  let x := ccQuarterRound 3 7 11 15 x
  let x := ccQuarterRound 0 5 10 15 x
  let x := ccQuarterRound 1 6 11 12 x
  let x := ccQuarterRound 2 7 8 13 x
  ccQuarterRound 3 4 9 14 x

def kSigma : Bytes := ascii "expand 32-byte k"

/-- The words before the rounds: constant, key, counter, nonce. -/
def initialState (key : Key) (counter : UInt32) (nonce : Nonce) : Vector UInt32 16 :=
  .ofFn fun i =>
    if i < 4 then ccLoad32Le kSigma (4 * i)
    else if i < 12 then ccLoad32Le key.toList (4 * (i - 4))
    else if i = 12 then counter
    else ccLoad32Le nonce.toList (4 * (i - 13))

/-- `chacha20_block`: one block of keystream. -/
def chacha20Block (key : Key) (counter : UInt32) (nonce : Nonce) : Vector UInt8 64 :=
  let s := initialState key counter nonce
  let x := doubleRound^[10] s
  storeWords (x.zipWith (· + ·) s)

/-- One round of the loop of `chacha20_xor` for each of the `n` blocks, the last one short. -/
def xorBlocks (key : Key) (nonce : Nonce) : Nat → UInt32 → Bytes → Bytes
  | 0, _, _ => []
  | n + 1, counter, input =>
    List.zipWith (· ^^^ ·) (input.take 64) (chacha20Block key counter nonce).toList ++
      xorBlocks key nonce n (counter + 1) (input.drop 64)

/-- `chacha20_xor` -/
def chacha20Xor (key : Key) (counter : UInt32) (nonce : Nonce) (input : Bytes) : Bytes :=
  xorBlocks key nonce ((input.length + 63) / 64) counter input

/-- Five limbs of 26 bits. -/
structure Limbs where
  l0 : UInt32
  l1 : UInt32
  l2 : UInt32
  l3 : UInt32
  l4 : UInt32
  deriving DecidableEq

/-- `buffer` holds the `leftover_` bytes of the block begun. -/
structure Poly1305 where
  r : Limbs
  h : Limbs
  pad : Vector UInt32 4
  buffer : Bytes
  final : Bool

namespace Poly1305

/-- `r` is clamped: some bits of the key are cleared. -/
def init (key : Bytes) : Poly1305 where
  r :=
    { l0 := ccLoad32Le key 0 &&& 0x3ffffff
      l1 := (ccLoad32Le key 3 >>> 2) &&& 0x3ffff03
      l2 := (ccLoad32Le key 6 >>> 4) &&& 0x3ffc0ff
      l3 := (ccLoad32Le key 9 >>> 6) &&& 0x3f03fff
      l4 := (ccLoad32Le key 12 >>> 8) &&& 0x00fffff }
  h := ⟨0, 0, 0, 0, 0⟩
  pad := .ofFn fun i => ccLoad32Le key (16 + 4 * i)
  buffer := []
  final := false

/-- The block at the front of `m`, added into `h`. -/
def absorb (h : Limbs) (hibit : UInt32) (m : Bytes) : Limbs where
  l0 := h.l0 + (ccLoad32Le m 0 &&& 0x3ffffff)
  l1 := h.l1 + ((ccLoad32Le m 3 >>> 2) &&& 0x3ffffff)
  l2 := h.l2 + ((ccLoad32Le m 6 >>> 4) &&& 0x3ffffff)
  l3 := h.l3 + ((ccLoad32Le m 9 >>> 6) &&& 0x3ffffff)
  l4 := h.l4 + ((ccLoad32Le m 12 >>> 8) ||| hibit)

def product (a b : UInt32) : UInt64 := a.toUInt64 * b.toUInt64

/-- `h * r`, then the carries passed along, the last one times five back to the first limb. -/
def multiply (h r : Limbs) : Limbs :=
  let s1 := r.l1 * 5
  let s2 := r.l2 * 5
  let s3 := r.l3 * 5
  let s4 := r.l4 * 5
  let d0 := product h.l0 r.l0 + product h.l1 s4 + product h.l2 s3 + product h.l3 s2 +
    product h.l4 s1
  let d1 := product h.l0 r.l1 + product h.l1 r.l0 + product h.l2 s4 + product h.l3 s3 +
    product h.l4 s2
  let d2 := product h.l0 r.l2 + product h.l1 r.l1 + product h.l2 r.l0 + product h.l3 s4 +
    product h.l4 s3
  let d3 := product h.l0 r.l3 + product h.l1 r.l2 + product h.l2 r.l1 + product h.l3 r.l0 +
    product h.l4 s4
  let d4 := product h.l0 r.l4 + product h.l1 r.l3 + product h.l2 r.l2 + product h.l3 r.l1 +
    product h.l4 r.l0
  let c := (d0 >>> 26).toUInt32
  let h0 := d0.toUInt32 &&& 0x3ffffff
  let d1 := d1 + c.toUInt64
  let c := (d1 >>> 26).toUInt32
  let h1 := d1.toUInt32 &&& 0x3ffffff
  let d2 := d2 + c.toUInt64
  let c := (d2 >>> 26).toUInt32
  let h2 := d2.toUInt32 &&& 0x3ffffff
  let d3 := d3 + c.toUInt64
  let c := (d3 >>> 26).toUInt32
  let h3 := d3.toUInt32 &&& 0x3ffffff
  let d4 := d4 + c.toUInt64
  let c := (d4 >>> 26).toUInt32
  let h4 := d4.toUInt32 &&& 0x3ffffff
  let h0 := h0 + c * 5
  let c := h0 >>> 26
  ⟨h0 &&& 0x3ffffff, h1 + c, h2, h3, h4⟩

/-- The loop of `blocks` for its first `n` blocks. -/
def blocksLoop (r : Limbs) (hibit : UInt32) : Nat → Limbs → Bytes → Limbs
  | 0, h, _ => h
  | n + 1, h, m => blocksLoop r hibit n (multiply (absorb h hibit m) r) (m.drop 16)

def blocks (p : Poly1305) (m : Bytes) : Poly1305 :=
  let hibit : UInt32 := if p.final then 0 else (1 : UInt32) <<< 24
  { p with h := blocksLoop p.r hibit (m.length / 16) p.h m }

/-- The whole blocks of `m`, the rest kept for later; nothing is in the buffer. -/
def updateBlocks (p : Poly1305) (m : Bytes) : Poly1305 :=
  let want := m.length / 16 * 16
  let p := if 16 ≤ m.length then p.blocks (m.take want) else p
  { p with buffer := m.drop want }

def update (p : Poly1305) (m : Bytes) : Poly1305 :=
  if p.buffer.length ≠ 0 then
    let want := min (16 - p.buffer.length) m.length
    let p := { p with buffer := p.buffer ++ m.take want }
    if p.buffer.length < 16 then p
    else updateBlocks { p.blocks p.buffer with buffer := [] } (m.drop want)
  else updateBlocks p m

/-- `h` with its limbs carried, below twice the modulus. -/
def carry (h : Limbs) : Limbs :=
  let c := h.l1 >>> 26
  let h1 := h.l1 &&& 0x3ffffff
  let h2 := h.l2 + c
  let c := h2 >>> 26
  let h2 := h2 &&& 0x3ffffff
  let h3 := h.l3 + c
  let c := h3 >>> 26
  let h3 := h3 &&& 0x3ffffff
  let h4 := h.l4 + c
  let c := h4 >>> 26
  let h4 := h4 &&& 0x3ffffff
  let h0 := h.l0 + c * 5
  let c := h0 >>> 26
  ⟨h0 &&& 0x3ffffff, h1 + c, h2, h3, h4⟩

/-- `h - p` where it does not borrow, else `h`. -/
def reduce (h : Limbs) : Limbs :=
  let g0 := h.l0 + 5
  let c := g0 >>> 26
  let g0 := g0 &&& 0x3ffffff
  let g1 := h.l1 + c
  let c := g1 >>> 26
  let g1 := g1 &&& 0x3ffffff
  let g2 := h.l2 + c
  let c := g2 >>> 26
  let g2 := g2 &&& 0x3ffffff
  let g3 := h.l3 + c
  let c := g3 >>> 26
  let g3 := g3 &&& 0x3ffffff
  let g4 := h.l4 + c - ((1 : UInt32) <<< 26)
  let mask : UInt32 := (g4 >>> 31) - 1
  ⟨(h.l0 &&& ~~~mask) ||| (g0 &&& mask), (h.l1 &&& ~~~mask) ||| (g1 &&& mask),
    (h.l2 &&& ~~~mask) ||| (g2 &&& mask), (h.l3 &&& ~~~mask) ||| (g3 &&& mask),
    (h.l4 &&& ~~~mask) ||| (g4 &&& mask)⟩

/-- The limbs as four words, plus the pad, modulo 2^128. -/
def addPad (h : Limbs) (pad : Vector UInt32 4) : Tag :=
  let h0 := h.l0 ||| (h.l1 <<< 26)
  let h1 := (h.l1 >>> 6) ||| (h.l2 <<< 20)
  let h2 := (h.l2 >>> 12) ||| (h.l3 <<< 14)
  let h3 := (h.l3 >>> 18) ||| (h.l4 <<< 8)
  let f0 := h0.toUInt64 + pad[0].toUInt64
  let f1 := h1.toUInt64 + pad[1].toUInt64 + (f0 >>> 32)
  let f2 := h2.toUInt64 + pad[2].toUInt64 + (f1 >>> 32)
  let f3 := h3.toUInt64 + pad[3].toUInt64 + (f2 >>> 32)
  storeWords #v[f0.toUInt32, f1.toUInt32, f2.toUInt32, f3.toUInt32]

def finish (p : Poly1305) : Tag :=
  let p :=
    if p.buffer.length ≠ 0 then
      { p with final := true }.blocks
        (p.buffer ++ [1] ++ List.replicate (15 - p.buffer.length) 0)
    else p
  addPad (reduce (carry p.h)) p.pad

end Poly1305

/-- The text with its zeros up to a whole block, then the two length words. -/
def aeadMac (key : Key) (nonce : Nonce) (ct : Bytes) : Tag :=
  let p := Poly1305.init (chacha20Block key 0 nonce).toList
  let p :=
    if 0 < ct.length then
      let p := p.update ct
      let rem := ct.length % 16
      if rem ≠ 0 then p.update (List.replicate (16 - rem) 0) else p
    else p
  (p.update (ccStore64Le 0 ++ ccStore64Le ct.length.toUInt64)).finish

/-- `aead_seal`: ciphertext and tag; block 0 of the keystream is the one-time key. -/
def aeadSeal (key : Key) (nonce : Nonce) (pt : Bytes) : Bytes × Tag :=
  let ct := if 0 < pt.length then chacha20Xor key 1 nonce pt else []
  (ct, aeadMac key nonce ct)

/-- The bitwise or of the differences; zero exactly when the tags agree. -/
def tagDiff (expected tag : Tag) : UInt8 :=
  (expected.zipWith (· ^^^ ·) tag).toList.foldl (· ||| ·) 0

/-- `aead_open`: the text, written only when the tag verifies. -/
def aeadOpen (key : Key) (nonce : Nonce) (ct : Bytes) (tag : Tag) : Option Bytes :=
  if tagDiff (aeadMac key nonce ct) tag ≠ 0 then none
  else if 0 < ct.length then some (chacha20Xor key 1 nonce ct)
  else some []

theorem xor_xor (a b : UInt8) : a ^^^ b ^^^ b = a := by
  rw [UInt8.xor_assoc, UInt8.xor_self, UInt8.xor_zero]

/-- A keystream long enough takes itself off again. -/
theorem zipWith_xor (text keystream : Bytes) (h : text.length ≤ keystream.length) :
    List.zipWith (· ^^^ ·) (List.zipWith (· ^^^ ·) text keystream) keystream = text := by
  induction text generalizing keystream with
  | nil => rfl
  | cons a text ih =>
    cases keystream with
    | nil => simp at h
    | cons k keystream =>
      have ht : text.length ≤ keystream.length := by simpa using h
      simp only [List.zipWith_cons_cons, xor_xor, ih keystream ht]

section Cipher
variable (key : Key) (nonce : Nonce)

theorem length_xorBlocks (n : Nat) (counter : UInt32) (input : Bytes)
    (h : input.length ≤ n * 64) :
    (xorBlocks key nonce n counter input).length = input.length := by
  induction n generalizing counter input with
  | zero =>
    have hnil : input = [] := List.length_eq_zero_iff.mp (by omega)
    rw [hnil, xorBlocks]
  | succ n ih =>
    have hrest := ih (counter + 1) (input.drop 64) (by rw [List.length_drop]; omega)
    rw [xorBlocks, List.length_append, hrest, List.length_zipWith, List.length_take,
      List.length_drop, Vector.length_toList]
    omega

/-- The key stream added twice cancels, block by block. -/
theorem xorBlocks_xorBlocks (n : Nat) (counter : UInt32) (input : Bytes)
    (h : input.length ≤ n * 64) :
    xorBlocks key nonce n counter (xorBlocks key nonce n counter input) = input := by
  induction n generalizing counter input with
  | zero =>
    have hnil : input = [] := List.length_eq_zero_iff.mp (by omega)
    simp only [hnil, xorBlocks]
  | succ n ih =>
    have hlen : (input.drop 64).length ≤ n * 64 := by
      rw [List.length_drop]
      omega
    have hrest := ih (counter + 1) (input.drop 64) hlen
    have hblock : (chacha20Block key counter nonce).toList.length = 64 := Vector.length_toList
    have hfront := zipWith_xor (input.take 64) (chacha20Block key counter nonce).toList
      (by rw [List.length_take]; omega)
    -- the first block of the result is the first block of the text, whole or the last one
    have hsplit : ∀ front rest : Bytes, front.length = min 64 input.length →
        rest.length = input.length - 64 →
        (front ++ rest).take 64 = front ∧ (front ++ rest).drop 64 = rest := by
      intro front rest hf hr
      by_cases hlong : 64 ≤ input.length
      · have h64 : front.length = 64 := by omega
        exact ⟨List.take_left' h64, List.drop_left' h64⟩
      · have hnil : rest = [] := List.length_eq_zero_iff.mp (by omega)
        rw [hnil, List.append_nil]
        exact ⟨List.take_of_length_le (by omega), List.drop_of_length_le (by omega)⟩
    obtain ⟨htake, hdrop⟩ := hsplit
      (List.zipWith (· ^^^ ·) (input.take 64) (chacha20Block key counter nonce).toList)
      (xorBlocks key nonce n (counter + 1) (input.drop 64))
      (by rw [List.length_zipWith, List.length_take, hblock]; omega)
      (by rw [length_xorBlocks key nonce n _ _ hlen, List.length_drop])
    simp only [xorBlocks]
    rw [htake, hdrop, hfront, hrest, List.take_append_drop]

theorem length_chacha20Xor (counter : UInt32) (input : Bytes) :
    (chacha20Xor key counter nonce input).length = input.length :=
  length_xorBlocks key nonce _ counter input (by omega)

/-- The cipher is its own inverse. -/
theorem chacha20Xor_chacha20Xor (counter : UInt32) (input : Bytes) :
    chacha20Xor key counter nonce (chacha20Xor key counter nonce input) = input := by
  rw [chacha20Xor, length_chacha20Xor]
  exact xorBlocks_xorBlocks key nonce _ counter input (by omega)

/-- The guards on the length only spare a call on the empty text. -/
theorem chacha20Xor_guarded (text : Bytes) :
    (if 0 < text.length then chacha20Xor key 1 nonce text else []) =
      chacha20Xor key 1 nonce text := by
  cases text with
  | nil => rfl
  | cons a text => exact if_pos (Nat.succ_pos _)

end Cipher

theorem foldl_or (ds : List UInt8) (d : UInt8) :
    ds.foldl (· ||| ·) d = 0 ↔ d = 0 ∧ ∀ e ∈ ds, e = 0 := by
  induction ds generalizing d with
  | nil => simp
  | cons e ds ih => simp [ih, UInt8.or_eq_zero_iff, and_assoc]

/-- No difference is left out and none is lost. -/
theorem tagDiff_eq_zero (expected tag : Tag) : tagDiff expected tag = 0 ↔ expected = tag := by
  rw [tagDiff, foldl_or]
  constructor
  · intro ⟨_, h⟩
    apply Vector.ext
    intro i hi
    have hmem : (expected.zipWith (· ^^^ ·) tag)[i] ∈ (expected.zipWith (· ^^^ ·) tag).toList :=
      Vector.mem_toList_iff.mpr (Vector.getElem_mem hi)
    simpa using h _ hmem
  · intro h
    subst h
    constructor
    · rfl
    · intro e he
      obtain ⟨i, hi, rfl⟩ := List.getElem_of_mem he
      simp

/-- What opens, opens to the one text whose seal it is. -/
theorem aeadOpen_eq_some (key : Key) (nonce : Nonce) (ct : Bytes) (tag : Tag) (pt : Bytes) :
    aeadOpen key nonce ct tag = some pt ↔ aeadSeal key nonce pt = (ct, tag) := by
  have hopen : aeadOpen key nonce ct tag =
      if aeadMac key nonce ct = tag then some (chacha20Xor key 1 nonce ct) else none := by
    have hct := chacha20Xor_guarded key nonce ct
    by_cases h : aeadMac key nonce ct = tag
    · rw [aeadOpen, if_neg (by simpa [tagDiff_eq_zero] using h), if_pos h, ← hct]
      split <;> rfl
    · rw [aeadOpen, if_pos (by simpa [tagDiff_eq_zero] using h), if_neg h]
  rw [hopen, aeadSeal, chacha20Xor_guarded]
  constructor
  · intro h
    split at h
    · rename_i htag
      cases h
      rw [chacha20Xor_chacha20Xor, htag]
    · cases h
  · intro h
    cases h
    rw [if_pos rfl, chacha20Xor_chacha20Xor]

theorem aeadOpen_aeadSeal (key : Key) (nonce : Nonce) (pt : Bytes) :
    aeadOpen key nonce (aeadSeal key nonce pt).1 (aeadSeal key nonce pt).2 = some pt :=
  (aeadOpen_eq_some key nonce _ _ pt).mpr rfl

/-- The keystream and tag vectors the source pins its conformance to. -/
example : ((chacha20Block (.ofFn fun i => UInt8.ofNat i) 1
      #v[0, 0, 0, 9, 0, 0, 0, 0x4a, 0, 0, 0, 0]).toList.take 4) = [0x10, 0xf1, 0xe7, 0xe4] := by
  decide +kernel

example : ((Poly1305.init [0x85, 0xd6, 0xbe, 0x78, 0x57, 0x55, 0x6d, 0x33, 0x7f, 0x44, 0x52,
      0xfe, 0x42, 0xd5, 0x06, 0xa8, 0x01, 0x03, 0x80, 0x8a, 0xfb, 0x0d, 0xb2, 0xfd, 0x4a, 0xbf,
      0xf6, 0xaf, 0x41, 0x49, 0xf5, 0x1b]).update
      (ascii "Cryptographic Forum Research Group")).finish =
    #v[0xa8, 0x06, 0x1d, 0xc1, 0x30, 0x51, 0x36, 0xc6, 0xc2, 0x2b, 0x8b, 0xaf, 0x0c, 0x01, 0x27,
      0xa9] := by
  decide +kernel

end Keylight.ChaCha20
