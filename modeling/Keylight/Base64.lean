import Keylight.Verifier
import Keylight.Words

/-!
# Base64 both ways

The encoder works on groups of three bytes, the decoder on a stream of sextets
with an accumulator. Whatever is left in the accumulator above the undelivered
bits never reaches the output, so a group decodes to its bytes from any state
between groups.
-/
namespace Keylight
open Bytes Words

/-- `b64_chars` -/
def b64Chars : Bytes :=
  ascii "ABCDEFGHIJKLMNOPQRSTUVWXYZabcdefghijklmnopqrstuvwxyz0123456789+/"

def b64Char (v : UInt32) : UInt8 := b64Chars.getD v.toNat 0

/-- The 24 bits of one group; a missing byte leaves its bits clear. -/
def groupBits (x : UInt8) (y z : Option UInt8) : UInt32 :=
  let b := x.toUInt32 <<< 16
  let b := y.elim b fun y => b ||| (y.toUInt32 <<< 8)
  z.elim b fun z => b ||| z.toUInt32

/-- One turn of the encoding loop. -/
def base64Group (x : UInt8) (y z : Option UInt8) : Bytes :=
  let b := groupBits x y z
  [b64Char ((b >>> 18) &&& 0x3F), b64Char ((b >>> 12) &&& 0x3F),
    if y.isSome then b64Char ((b >>> 6) &&& 0x3F) else 61,
    if z.isSome then b64Char (b &&& 0x3F) else 61]

def base64Encode : Bytes → Bytes
  | [] => []
  | [x] => base64Group x none none
  | [x, y] => base64Group x (some y) none
  | x :: y :: z :: input => base64Group x (some y) (some z) ++ base64Encode input

theorem b64Val_table : ∀ v < 64, b64Val (b64Chars.getD v 0) = .value (UInt32.ofNat v) := by
  decide +kernel

theorem b64Val_b64Char {v : UInt32} (h : v.toNat < 64) : b64Val (b64Char v) = .value v := by
  rw [b64Char, b64Val_table v.toNat h, UInt32.ofNat_toNat]

theorem toNat_sextet (b k : UInt32) (hk : k.toNat < 32) :
    ((b >>> k) &&& 0x3F).toNat = b.toNat / 2 ^ k.toNat % 64 := by
  rw [toNat_and_low (k := 6) rfl, toNat_shiftRight32 b k hk]
  rfl

theorem toNat_lowSextet (b : UInt32) : (b &&& 0x3F).toNat = b.toNat % 64 :=
  toNat_and_low (k := 6) rfl b

/-- Three bytes packed in one word. -/
theorem toNat_groupBits (x y z : UInt8) :
    (groupBits x (some y) (some z)).toNat = 65536 * x.toNat + 256 * y.toNat + z.toNat := by
  have hx := x.toNat_lt
  have hy := y.toNat_lt
  have hz := z.toNat_lt
  have hhigh : (x.toUInt32 <<< 16).toNat = 2 ^ 16 * x.toNat := by
    rw [toNat_shiftLeft32 _ _ (by decide), UInt8.toNat_toUInt32]
    exact congrArg (2 ^ 16 * ·) (Nat.mod_eq_of_lt (show x.toNat < 2 ^ 16 by omega))
  have hmid : (y.toUInt32 <<< 8).toNat = 2 ^ 8 * y.toNat := by
    rw [toNat_shiftLeft32 _ _ (by decide), UInt8.toNat_toUInt32]
    exact congrArg (2 ^ 8 * ·) (Nat.mod_eq_of_lt (show y.toNat < 2 ^ 24 by omega))
  have htwo : (x.toUInt32 <<< 16 ||| y.toUInt32 <<< 8).toNat =
      2 ^ 8 * (256 * x.toNat + y.toNat) := by
    rw [UInt32.or_comm, toNat_or_disjoint (k := 16) (by omega) hhigh, hmid]
    omega
  simp only [groupBits, Option.elim_some]
  rw [UInt32.or_comm, toNat_or_disjoint (k := 8) (by rw [UInt8.toNat_toUInt32]; exact hz) htwo,
    UInt8.toNat_toUInt32]
  omega

/-- A group with a missing byte has the bits of the group with a zero there. -/
theorem groupBits_pad (x : UInt8) (y : Option UInt8) :
    groupBits x y none = groupBits x (some (y.getD 0)) (some 0) := by
  cases y with
  | none => simp [groupBits]
  | some y => simp [groupBits]

theorem toNat_shiftIn (buf : UInt32) {v : UInt32} (h : v.toNat < 64) :
    ((buf <<< 6) ||| v).toNat = 64 * (buf.toNat % 2 ^ 26) + v.toNat := by
  rw [UInt32.or_comm, toNat_or_disjoint (k := 6) h (toNat_shiftLeft32 buf 6 (by decide)),
    Nat.add_comm]
  rfl

/-- The byte delivered is eight bits of the accumulator. -/
theorem toNat_delivered (buf k : UInt32) (hk : k.toNat < 32) :
    ((buf >>> k) &&& 0xFF).toUInt8.toNat = buf.toNat / 2 ^ k.toNat % 256 := by
  rw [UInt32.toNat_toUInt8, toNat_and_low (k := 8) rfl, toNat_shiftRight32 buf k hk]
  exact Nat.mod_mod _ _

section
variable (buf : UInt32) {v v₁ v₂ v₃ v₄ : UInt32} (rest : Bytes)

theorem base64Loop_first (h : v.toNat < 64) :
    base64Loop buf 0 (b64Char v :: rest) = base64Loop ((buf <<< 6) ||| v) 6 rest := by
  rw [base64Loop, b64Val_b64Char h]
  rfl

theorem base64Loop_second (h : v.toNat < 64) :
    base64Loop buf 6 (b64Char v :: rest) =
      ((((buf <<< 6) ||| v) >>> 4) &&& 0xFF).toUInt8 ::
        base64Loop ((buf <<< 6) ||| v) 4 rest := by
  rw [base64Loop, b64Val_b64Char h]
  rfl

theorem base64Loop_third (h : v.toNat < 64) :
    base64Loop buf 4 (b64Char v :: rest) =
      ((((buf <<< 6) ||| v) >>> 2) &&& 0xFF).toUInt8 ::
        base64Loop ((buf <<< 6) ||| v) 2 rest := by
  rw [base64Loop, b64Val_b64Char h]
  rfl

theorem base64Loop_fourth (h : v.toNat < 64) :
    base64Loop buf 2 (b64Char v :: rest) =
      ((((buf <<< 6) ||| v) >>> 0) &&& 0xFF).toUInt8 ::
        base64Loop ((buf <<< 6) ||| v) 0 rest := by
  rw [base64Loop, b64Val_b64Char h]
  rfl

theorem base64Loop_padding (bits : UInt32) : base64Loop buf bits (61 :: rest) = [] := rfl

end

section
variable (x y z : UInt8)

/-- Two sextets of the group's bits hold the byte delivered after them. -/
theorem delivered_first (buf b : UInt32) (hb : b.toNat / 65536 = x.toNat) :
    ((((((buf <<< 6) ||| ((b >>> 18) &&& 0x3F)) <<< 6) ||| ((b >>> 12) &&& 0x3F)) >>> 4) &&&
      0xFF).toUInt8 = x := by
  have hx := x.toNat_lt
  have h₁ := toNat_sextet b 18 (by decide)
  have h₂ := toNat_sextet b 12 (by decide)
  apply UInt8.toNat_inj.mp
  rw [toNat_delivered _ _ (by decide), toNat_shiftIn _ (by omega), toNat_shiftIn _ (by omega), h₁,
    h₂]
  simp only [UInt32.reduceToNat, Nat.reducePow]
  omega

theorem delivered_second (buf b : UInt32) (hb : b.toNat / 256 % 256 = y.toNat) :
    ((((((buf <<< 6) ||| ((b >>> 12) &&& 0x3F)) <<< 6) ||| ((b >>> 6) &&& 0x3F)) >>> 2) &&&
      0xFF).toUInt8 = y := by
  have h₁ := toNat_sextet b 12 (by decide)
  have h₂ := toNat_sextet b 6 (by decide)
  apply UInt8.toNat_inj.mp
  rw [toNat_delivered _ _ (by decide), toNat_shiftIn _ (by omega), toNat_shiftIn _ (by omega), h₁,
    h₂]
  simp only [UInt32.reduceToNat, Nat.reducePow]
  omega

theorem delivered_third (buf b : UInt32) (hb : b.toNat % 256 = z.toNat) :
    ((((((buf <<< 6) ||| ((b >>> 6) &&& 0x3F)) <<< 6) ||| (b &&& 0x3F)) >>> 0) &&&
      0xFF).toUInt8 = z := by
  have h₁ := toNat_sextet b 6 (by decide)
  have h₂ := toNat_lowSextet b
  apply UInt8.toNat_inj.mp
  rw [toNat_delivered _ _ (by decide), toNat_shiftIn _ (by omega), toNat_shiftIn _ (by omega), h₁,
    h₂]
  simp only [UInt32.reduceToNat, Nat.reducePow]
  omega

end

theorem sextet_lt (b k : UInt32) : ((b >>> k) &&& 0x3F).toNat < 64 := by
  rw [toNat_and_low (k := 6) rfl]
  exact Nat.mod_lt _ (by decide)

theorem lowSextet_lt (b : UInt32) : (b &&& 0x3F).toNat < 64 := by
  rw [toNat_lowSextet]
  exact Nat.mod_lt _ (by decide)

/-- A full group of four characters gives its three bytes back and leaves the buffer empty of
bits. -/
theorem base64Loop_group (buf : UInt32) (x y z : UInt8) (rest : Bytes) :
    ∃ buf', base64Loop buf 0 (base64Group x (some y) (some z) ++ rest) =
      x :: y :: z :: base64Loop buf' 0 rest := by
  have hbits := toNat_groupBits x y z
  have hx := x.toNat_lt
  have hy := y.toNat_lt
  have hz := z.toNat_lt
  simp only [base64Group, Option.isSome_some, if_true, List.cons_append, List.nil_append]
  rw [base64Loop_first _ _ (sextet_lt _ _), base64Loop_second _ _ (sextet_lt _ _),
    base64Loop_third _ _ (sextet_lt _ _), base64Loop_fourth _ _ (lowSextet_lt _),
    delivered_first x _ _ (by omega), delivered_second y _ _ (by omega),
    delivered_third z _ _ (by omega)]
  exact ⟨_, rfl⟩

theorem base64Loop_group_two (buf : UInt32) (x y : UInt8) :
    base64Loop buf 0 (base64Group x (some y) none) = [x, y] := by
  have hbits := toNat_groupBits x y 0
  have hx := x.toNat_lt
  have hy := y.toNat_lt
  have hzero : (0 : UInt8).toNat = 0 := rfl
  simp only [base64Group, Option.isSome_some, Option.isSome_none, if_true, Bool.false_eq_true,
    if_false, groupBits_pad, Option.getD_some]
  rw [base64Loop_first _ _ (sextet_lt _ _), base64Loop_second _ _ (sextet_lt _ _),
    base64Loop_third _ _ (sextet_lt _ _), base64Loop_padding,
    delivered_first x _ _ (by omega), delivered_second y _ _ (by omega)]

theorem base64Loop_group_one (buf : UInt32) (x : UInt8) :
    base64Loop buf 0 (base64Group x none none) = [x] := by
  have hbits := toNat_groupBits x 0 0
  have hx := x.toNat_lt
  have hzero : (0 : UInt8).toNat = 0 := rfl
  simp only [base64Group, Option.isSome_none, Bool.false_eq_true, if_false, groupBits_pad,
    Option.getD_none]
  rw [base64Loop_first _ _ (sextet_lt _ _), base64Loop_second _ _ (sextet_lt _ _),
    base64Loop_padding, delivered_first x _ _ (by omega)]

/-- Induction on the groups; the accumulator is arbitrary between them. -/
theorem base64Loop_encode (b : Bytes) (buf : UInt32) : base64Loop buf 0 (base64Encode b) = b := by
  induction b using base64Encode.induct generalizing buf with
  | case1 => rfl
  | case2 x => exact base64Loop_group_one buf x
  | case3 x y => exact base64Loop_group_two buf x y
  | case4 x y z input ih =>
    obtain ⟨buf', hgroup⟩ := base64Loop_group buf x y z (base64Encode input)
    rw [base64Encode, hgroup, ih buf']

/-- `text` writes `coded` in a form that the decoder has to accept. -/
inductive Respelled : Bytes → Bytes → Prop
  | unpadded (n : Nat) : Respelled (List.replicate n 61) []
  | space {c : UInt8} {coded text : Bytes} : c = 32 ∨ c = 9 ∨ c = 13 ∨ c = 10 →
      Respelled coded text → Respelled coded (c :: text)
  | same (c : UInt8) {coded text : Bytes} : Respelled coded text →
      Respelled (c :: coded) (c :: text)
  | minus {coded text : Bytes} : Respelled coded text → Respelled (43 :: coded) (45 :: text)
  | underscore {coded text : Bytes} : Respelled coded text →
      Respelled (47 :: coded) (95 :: text)

/-- The loop of `b64_decode_flexible` on one byte. -/
def normalChar (c : UInt8) : Option UInt8 :=
  if c = 32 ∨ c = 9 ∨ c = 10 ∨ c = 13 then none
  else if c = 45 then some 43
  else if c = 95 then some 47
  else some c

theorem b64Normalize_eq (s : Bytes) :
    ∃ n, b64Normalize s = s.filterMap normalChar ++ List.replicate n 61 := by
  simp only [b64Normalize]
  split
  · exact ⟨_, rfl⟩
  · exact ⟨0, (List.append_nil _).symm⟩

/-- A byte of the alphabet or of the padding is kept as it is. -/
theorem normalChar_coded {c : UInt8} (h : b64Val c ≠ .ignore) : normalChar c = some c := by
  unfold normalChar
  rw [if_neg, if_neg, if_neg]
  · rintro rfl
    exact h rfl
  · rintro rfl
    exact h rfl
  · rintro (rfl | rfl | rfl | rfl) <;> exact h rfl

/-- No character of a group is one that the decoder skips. -/
theorem base64Group_coded (x : UInt8) (y z : Option UInt8) :
    ∀ c ∈ base64Group x y z, b64Val c ≠ .ignore := by
  have hchar : ∀ v : UInt32, v.toNat < 64 → b64Val (b64Char v) ≠ .ignore := by
    intro v hv
    rw [b64Val_b64Char hv]
    exact B64.noConfusion
  simp only [base64Group, List.forall_mem_cons, List.not_mem_nil, false_imp_iff, implies_true,
    and_true]
  refine ⟨hchar _ (sextet_lt _ _), hchar _ (sextet_lt _ _), ?_, ?_⟩
  · split
    · exact hchar _ (sextet_lt _ _)
    · decide
  · split
    · exact hchar _ (lowSextet_lt _)
    · decide

theorem base64Encode_coded (b : Bytes) : ∀ c ∈ base64Encode b, b64Val c ≠ .ignore := by
  induction b using base64Encode.induct with
  | case1 => exact fun c hc => absurd hc List.not_mem_nil
  | case2 x => exact base64Group_coded x none none
  | case3 x y => exact base64Group_coded x (some y) none
  | case4 x y z input ih =>
    intro c hc
    obtain hc | hc := List.mem_append.mp hc
    · exact base64Group_coded x (some y) (some z) c hc
    · exact ih c hc

/-- Normalising gives the coded text back, up to the padding that was left out. -/
theorem normalize_respelled {coded text : Bytes} (h : Respelled coded text)
    (hcoded : ∀ c ∈ coded, b64Val c ≠ .ignore) :
    ∃ n, coded = text.filterMap normalChar ++ List.replicate n 61 := by
  induction h with
  | unpadded n => exact ⟨n, rfl⟩
  | space hc _ ih =>
    obtain ⟨n, hn⟩ := ih hcoded
    refine ⟨n, ?_⟩
    rw [List.filterMap_cons_none]
    · exact hn
    · obtain rfl | rfl | rfl | rfl := hc <;> rfl
  | same c _ ih =>
    obtain ⟨n, hn⟩ := ih fun d hd => hcoded d (.tail _ hd)
    refine ⟨n, ?_⟩
    rw [List.filterMap_cons_some (normalChar_coded (hcoded c (.head _))), List.cons_append, ← hn]
  | minus _ ih =>
    obtain ⟨n, hn⟩ := ih fun d hd => hcoded d (.tail _ hd)
    exact ⟨n, congrArg (43 :: ·) hn⟩
  | underscore _ ih =>
    obtain ⟨n, hn⟩ := ih fun d hd => hcoded d (.tail _ hd)
    exact ⟨n, congrArg (47 :: ·) hn⟩

/-- Padding at the end adds nothing to the output. -/
theorem base64Loop_unpadded (s : Bytes) (n : Nat) (buf bits : UInt32) :
    base64Loop buf bits (s ++ List.replicate n 61) = base64Loop buf bits s := by
  induction s generalizing buf bits with
  | nil =>
    cases n with
    | zero => rfl
    | succ n => rfl
  | cons c s ih =>
    simp only [List.cons_append, base64Loop, ih]

/-- Every respelling of an encoded text decodes to the bytes that were encoded. -/
theorem b64DecodeFlexible_encode (b text : Bytes) (h : Respelled (base64Encode b) text) :
    b64DecodeFlexible text = b := by
  obtain ⟨m, hnorm⟩ := b64Normalize_eq text
  obtain ⟨n, hcoded⟩ := normalize_respelled h (base64Encode_coded b)
  calc b64DecodeFlexible text
      = base64Loop 0 0 (text.filterMap normalChar ++ List.replicate m 61) := by
        rw [b64DecodeFlexible, hnorm, base64Decode]
    _ = base64Loop 0 0 (text.filterMap normalChar ++ List.replicate n 61) := by
        rw [base64Loop_unpadded, base64Loop_unpadded]
    _ = b := by rw [← hcoded, base64Loop_encode]

/-- `+/8=` as `-_` and `8` on the next line, unpadded. -/
theorem b64DecodeFlexible_respelled : b64DecodeFlexible [45, 95, 10, 56] = [0xFB, 0xFF] :=
  b64DecodeFlexible_encode [0xFB, 0xFF] [45, 95, 10, 56]
    (.minus (.underscore (.space (by decide) (.same 56 (.unpadded 1)))))

end Keylight
