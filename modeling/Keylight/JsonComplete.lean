import Mathlib.Data.List.Forall2
import Mathlib.Data.List.Induction
import Keylight.JsonGrammar
import Keylight.JsonText

/-!
# The reader accepts every text of a value

Whatever the grammar derives from a value, the parser reads as that value: each
production is one lemma about the function that reads it, and the derivation is
followed by induction. `Agrees` says what the accessors give.
-/
namespace Keylight
open Bytes Binary64 JValue JsonGrammar

/-- `JType` -/
inductive JType where
  | null | bool | int | double | string | array | object
  deriving DecidableEq, Repr

def JValue.type : JValue → JType
  | .null => .null
  | .bool _ => .bool
  | .int _ => .int
  | .double _ _ => .double
  | .string _ => .string
  | .array _ => .array
  | .object _ _ => .object

/-- A tree whose integers the reader keeps exactly. -/
abbrev Tree := JsonGrammar.Value (2 ^ 63 - 1)

/-- The accessors read the tree back. -/
inductive Agrees : Tree → JValue → Prop
  | null {j : JValue} : j.type = .null → Agrees .null j
  | bool {b : Bool} {j : JValue} : j.type = .bool → j.asBool = b → Agrees (.bool b) j
  | int {z : {z : Int // z.natAbs ≤ 2 ^ 63 - 1}} {j : JValue} : j.type = .int →
      j.asInt.toInt = z.1 → Agrees (.int z) j
  | string {s : List Char} {j : JValue} : j.type = .string → j.asString = utf8 s →
      Agrees (.string s) j
  | array {vs : List Tree} {j : JValue} : j.type = .array → j.size = vs.length →
      (∀ i v, vs[i]? = some v → Agrees v (j.at' i)) → Agrees (.array vs) j
  | object {ms : List (List Char × Tree)} {j : JValue} : j.type = .object →
      j.keys = ((ms.map Prod.fst).eraseDups).map utf8 → j.size = j.keys.length →
      (∀ k v, ms.reverse.lookup k = some v → Agrees v (j.get (utf8 k))) →
      Agrees (.object ms) j

/-- Bytes that neither end the string nor escape are copied. -/
theorem parseString_copied (bs s : Bytes) (h : ∀ b ∈ bs, b ≠ 34 ∧ b ≠ 92) :
    parseString (bs ++ s) = (parseString s).map fun (out, rest) => (bs ++ out, rest) := by
  induction bs with
  | nil =>
    rw [List.nil_append]
    cases parseString s <;> rfl
  | cons b bs ih =>
    obtain ⟨hq, hb⟩ := h b (by simp)
    rw [List.cons_append, parseString_plain b _ hq hb, ih fun x hx => h x (by simp [hx])]
    cases parseString s <;> rfl

theorem scalar (c : Char) :
    c.toNat < 0xD800 ∨ 0xDFFF < c.toNat ∧ c.toNat < 0x110000 := c.valid

/-- A character is one byte below 0x80, or its bytes are all above. -/
theorem utf8EncodeChar_bytes {c : Char} (hq : c.toNat ≠ 34) (hb : c.toNat ≠ 92) :
    ∀ b ∈ String.utf8EncodeChar c, b ≠ 34 ∧ b ≠ 92 := by
  have hmax := scalar c
  have hbyte : ∀ n : Nat, n < 256 → n ≠ 34 → n ≠ 92 → UInt8.ofNat n ≠ 34 ∧ UInt8.ofNat n ≠ 92 := by
    intro n hn h34 h92
    constructor <;> intro he <;> have := congrArg UInt8.toNat he <;>
      simp only [UInt8.toNat_ofNat', UInt8.toNat_ofNat] at this <;> omega
  simp only [Char.toNat] at hq hb hmax
  intro b hm
  simp only [String.utf8EncodeChar] at hm
  split at hm
  · obtain rfl := List.mem_singleton.mp hm
    exact hbyte _ (by omega) hq hb
  · split at hm
    · simp only [List.mem_cons, List.not_mem_nil, or_false] at hm
      obtain rfl | rfl := hm <;> exact hbyte _ (by omega) (by omega) (by omega)
    · split at hm
      · simp only [List.mem_cons, List.not_mem_nil, or_false] at hm
        obtain rfl | rfl | rfl := hm <;> exact hbyte _ (by omega) (by omega) (by omega)
      · simp only [List.mem_cons, List.not_mem_nil, or_false] at hm
        obtain rfl | rfl | rfl | rfl := hm <;> exact hbyte _ (by omega) (by omega) (by omega)

/-- The encoder agrees with the standard one on characters. -/
theorem encodeUtf8_toNat (c : Char) : encodeUtf8 c.toNat = String.utf8EncodeChar c := by
  have hmax := scalar c
  simp only [Char.toNat] at hmax ⊢
  generalize hv : c.val.toNat = v at hmax ⊢
  simp only [encodeUtf8, String.utf8EncodeChar, hv]
  by_cases h₁ : v < 0x80
  · have h₁' : v ≤ 0x7f := by omega
    rw [if_pos h₁, if_pos h₁']
  · have h₁' : ¬v ≤ 0x7f := by omega
    rw [if_neg h₁, if_neg h₁']
    by_cases h₂ : v < 0x800
    · have h₂' : v ≤ 0x7ff := by omega
      have hm : v / 64 % 0x20 = v / 64 := Nat.mod_eq_of_lt (by omega)
      rw [if_pos h₂, if_pos h₂', hm, Nat.add_comm 0xC0, Nat.add_comm 0x80]
    · have h₂' : ¬v ≤ 0x7ff := by omega
      rw [if_neg h₂, if_neg h₂']
      by_cases h₃ : v < 0x10000
      · have h₃' : v ≤ 0xffff := by omega
        have hm : v / 4096 % 0x10 = v / 4096 := Nat.mod_eq_of_lt (by omega)
        rw [if_pos h₃, if_pos h₃', hm, Nat.add_comm 0xE0, Nat.add_comm 0x80, Nat.add_comm 0x80]
      · have h₃' : ¬v ≤ 0xffff := by omega
        have hm : v / 262144 % 0x08 = v / 262144 := Nat.mod_eq_of_lt (by omega)
        rw [if_neg h₃, if_neg h₃', hm, Nat.add_comm 0xF0, Nat.add_comm 0x80, Nat.add_comm 0x80,
          Nat.add_comm 0x80]

theorem nibble_hexDigit {n : Nat} {x : UInt8} (h : HexDigit n x) : nibble x = some n := by
  have hge : ∀ k, k ≤ x ↔ k.toNat ≤ x.toNat := fun _ => UInt8.le_iff_toNat_le
  have hle : ∀ k, x ≤ k ↔ x.toNat ≤ k.toNat := fun _ => UInt8.le_iff_toNat_le
  simp only [nibble, hge, hle, UInt8.reduceToNat, Bool.and_eq_true, decide_eq_true_eq]
  obtain ⟨hn, hv⟩ | ⟨h10, h16, hv | hv⟩ := h
  · rw [if_pos (by omega), hv, Nat.add_sub_cancel_left]
  · rw [if_neg (by omega), if_neg (by omega), if_pos (by omega), hv]
    congr 1
    omega
  · rw [if_neg (by omega), if_pos (by omega), hv]
    congr 1
    omega

theorem hex4_eq {n : Nat} {h : Bytes} (hn : Hex4 n h) :
    ∃ w x y z, h = [w, x, y, z] ∧ hex4 w x y z = some n := by
  cases hn with
  | digits ha hb hc hd =>
    refine ⟨_, _, _, _, rfl, ?_⟩
    simp only [hex4, nibble_hexDigit ha, nibble_hexDigit hb, nibble_hexDigit hc,
      nibble_hexDigit hd]
    rfl

/-- One escaped code unit that is no surrogate. -/
theorem parseString_unit {n : Nat} {h : Bytes} (hn : Hex4 n h) (hs : ¬(0xD800 ≤ n ∧ n ≤ 0xDBFF))
    (s : Bytes) :
    parseString (92 :: 117 :: (h ++ s)) =
      (parseString s).map fun (out, rest) => (encodeUtf8 n ++ out, rest) := by
  obtain ⟨w, x, y, z, rfl, hx⟩ := hex4_eq hn
  rw [parseString.eq_def]
  simp [hx, hs]

/-- Two escaped surrogates. -/
theorem parseString_pair {m n : Nat} {h l : Bytes} (hh : Hex4 m h) (hl : Hex4 n l)
    (hm : 0xD800 ≤ m ∧ m ≤ 0xDBFF) (hn : 0xDC00 ≤ n ∧ n ≤ 0xDFFF) (s : Bytes) :
    parseString (92 :: 117 :: (h ++ 92 :: 117 :: (l ++ s))) =
      (parseString s).map fun (out, rest) =>
        (encodeUtf8 (0x10000 + (m - 0xD800) * 1024 + (n - 0xDC00)) ++ out, rest) := by
  obtain ⟨w, x, y, z, rfl, hx⟩ := hex4_eq hh
  obtain ⟨w', x', y', z', rfl, hx'⟩ := hex4_eq hl
  have hlow : ¬(n < 0xDC00 ∨ 0xDFFF < n) := by omega
  rw [parseString.eq_def]
  simp [hx, hx', hm, hlow]

/-- A string literal is read back as its text. -/
theorem parseString_content {s : List Char} {q : Bytes} (h : Content s q) (rest : Bytes) :
    parseString (q ++ 34 :: rest) = some (utf8 s, rest) := by
  induction h with
  | nil => exact parseString_quote rest
  | literal _ hq hb _ ih =>
    rw [List.append_assoc, parseString_copied _ _ (utf8EncodeChar_bytes hq hb), ih, utf8_cons]
    rfl
  | @short e c s t hmem _ ih =>
    have hesc : e ≠ 117 ∧ unescape e = some (UInt8.ofNat c.toNat) ∧ c.toNat < 0x80 := by
      simp only [shortEscapes, List.mem_cons, Prod.mk.injEq, List.not_mem_nil, or_false] at hmem
      rcases hmem with ⟨rfl, hc⟩ | ⟨rfl, hc⟩ | ⟨rfl, hc⟩ | ⟨rfl, hc⟩ | ⟨rfl, hc⟩ | ⟨rfl, hc⟩ |
        ⟨rfl, hc⟩ | ⟨rfl, hc⟩ <;> rw [hc] <;> decide
    have henc : String.utf8EncodeChar c = [UInt8.ofNat c.toNat] := by
      rw [← encodeUtf8_toNat, encodeUtf8, if_pos hesc.2.2]
    rw [List.cons_append, List.cons_append, parseString_escape e _ _ hesc.1 hesc.2.1, ih, utf8_cons,
      henc]
    rfl
  | @unit c s h t hhex _ ih =>
    have hs : ¬(0xD800 ≤ c.toNat ∧ c.toNat ≤ 0xDBFF) := by
      have := scalar c
      omega
    rw [List.cons_append, List.cons_append, List.append_assoc, parseString_unit hhex hs, ih,
      utf8_cons, encodeUtf8_toNat]
    rfl
  | @pair c s h l t hc hhigh hlow _ ih =>
    have hmax := scalar c
    have hcp : 0x10000 + (0xD800 + (c.toNat - 0x10000) / 1024 - 0xD800) * 1024 +
        (0xDC00 + (c.toNat - 0x10000) % 1024 - 0xDC00) = c.toNat := by
      omega
    rw [List.cons_append, List.cons_append, List.append_assoc, List.cons_append, List.cons_append,
      List.append_assoc, parseString_pair hhigh hlow (by omega) (by omega), ih, utf8_cons, hcp,
      encodeUtf8_toNat]
    rfl

theorem isDigit_iff (x : UInt8) : isDigit x = true ↔ Digit x := by
  simp [isDigit, Digit]

/-- The digits of a number without a sign have its value. -/
theorem natural_digits {n : Nat} {t : Bytes} (h : Natural n t) :
    t ≠ [] ∧ (∀ c ∈ t, isDigit c = true) ∧
      t.foldl (fun n c => n * 10 + digitValue c) 0 = n := by
  cases h with
  | zero =>
    refine ⟨List.cons_ne_nil _ _, ?_, rfl⟩
    intro c hc
    obtain rfl := List.mem_singleton.mp hc
    rfl
  | digits hd _ hds =>
    refine ⟨List.cons_ne_nil _ _, ?_, rfl⟩
    intro c hc
    rw [isDigit_iff]
    obtain rfl | hc := List.mem_cons.mp hc
    · exact hd
    · exact hds c hc

/-- A value takes one unit of fuel and leaves the rest to what follows its first byte. -/
theorem reads_succ {b : UInt8} {t : Bytes} {v : JValue} (h : ∀ fuel rest, t.length ≤ fuel →
    NumEnd rest → parseValue (fuel + 1) (b :: (t ++ rest)) = some (v, rest)) :
    Reads (b :: t) v := by
  intro fuel rest hf hr
  cases fuel with
  | zero => simp at hf
  | succ fuel => exact h fuel rest (by simpa using hf) hr

/-- A text that starts as a number does is read by the number reader. -/
theorem reads_number {neg : Bool} {t : Bytes} {v : JValue} (hne : t ≠ [])
    (hd : ∀ c ∈ t, isDigit c = true)
    (h : ∀ rest, NumEnd rest →
      parseNumber ((if neg then [45] else []) ++ t ++ rest) = some (v, rest)) :
    Reads ((if neg then [45] else []) ++ t) v := by
  cases t with
  | nil => exact absurd rfl hne
  | cons c t =>
    have hc := hd c (by simp)
    obtain ⟨_, hs, h₁, h₂, h₃, h₄, h₅, h₆⟩ := digit_ne c hc
    cases neg with
    | true =>
      refine reads_succ fun fuel rest _ hr => ?_
      have hnum := h rest hr
      simp only [if_true, List.cons_append, List.nil_append] at hnum
      simp [parseValue, skipWs_cons, isSpace, hnum]
    | false =>
      refine reads_succ fun fuel rest _ hr => ?_
      have hnum := h rest hr
      simp only [Bool.false_eq_true, if_false, List.nil_append, List.cons_append] at hnum
      simp [parseValue, skipWs_cons, hs, h₁, h₂, h₃, h₄, h₅, h₆, hc, hnum]

theorem toInt_signed (neg : Bool) {n : Nat} (h : n ≤ int64Max) :
    (if neg then -Int64.ofNat n else Int64.ofNat n).toInt = if neg then -(n : Int) else n := by
  have hn : (Int64.ofNat n).toInt = n :=
    Int64.toInt_ofNat_of_lt (by simp only [int64Max] at h; omega)
  cases neg with
  | false => exact hn
  | true =>
    rw [if_pos rfl, if_pos rfl, Int64.toInt_neg, hn]
    apply Int.bmod_eq_of_le <;> simp only [int64Max] at h <;> omega

/-- An integer within 64 bits is read as one. -/
theorem reads_integer {z : Int} {t : Bytes} (h : Integer z t) (hz : z.natAbs ≤ 2 ^ 63 - 1) :
    ∃ j, Reads t j ∧ j.type = .int ∧ j.asInt.toInt = z := by
  have hsigned : ∀ (neg : Bool) (n : Nat) (u : Bytes), Natural n u → n ≤ int64Max →
      ∃ j, Reads ((if neg then [45] else []) ++ u) j ∧ j.type = .int ∧
        j.asInt.toInt = if neg then -(n : Int) else n := by
    intro neg n u hu hn
    obtain ⟨hne, hd, hval⟩ := natural_digits hu
    refine ⟨_, reads_number hne hd fun rest hr => parseNumber_digits neg u rest hne hd ?_ hr,
      rfl, ?_⟩
    · rw [hval]
      exact hn
    · rw [hval]
      exact toInt_signed neg hn
  cases h with
  | plus hn => exact hsigned false _ _ hn (by simp only [int64Max]; omega)
  | minus hn => exact hsigned true _ _ hn (by simp only [int64Max]; omega)

theorem skipWs_append {w : Bytes} (h : Ws w) (s : Bytes) : skipWs (w ++ s) = skipWs s := by
  induction w with
  | nil => rfl
  | cons c w ih =>
    have hc : isSpace c = true := by
      obtain rfl | rfl | rfl | rfl := h c (by simp) <;> rfl
    rw [List.cons_append, skipWs, if_pos hc, ih fun x hx => h x (by simp [hx])]

/-- Space before a byte that cannot continue a number cannot either. -/
theorem numEnd_append {w : Bytes} (h : Ws w) {s : Bytes} (hs : NumEnd s) : NumEnd (w ++ s) := by
  cases w with
  | nil => exact hs
  | cons c w =>
    apply numEnd_cons
    obtain rfl | rfl | rfl | rfl := h c (by simp) <;> decide

theorem numEnd_closed {w : Bytes} (h : Ws w) {c : UInt8} (hc : c = 44 ∨ c = 93 ∨ c = 125)
    (s : Bytes) : NumEnd (w ++ c :: s) := by
  apply numEnd_append h
  obtain rfl | rfl | rfl := hc <;> exact numEnd_cons _ _ (by decide)

theorem parseElements_skipWs (fuel : Nat) (arr : List JValue) (s : Bytes) :
    parseElements fuel arr (skipWs s) = parseElements fuel arr s := by
  cases fuel with
  | zero => rw [parseElements, parseElements]
  | succ fuel => simp only [parseElements, skipWs_skipWs]

/-- An element does not start with the closing bracket. -/
theorem consume_of_parseElements {fuel : Nat} {arr : List JValue} {s : Bytes}
    {r : JValue × Bytes} (h : parseElements fuel arr s = some r) :
    consume 93 (skipWs s) = none := by
  cases hs : skipWs s with
  | nil => rfl
  | cons c t =>
    apply consume_other
    rintro rfl
    rw [← parseElements_skipWs, hs] at h
    cases fuel with
    | zero => simp [parseElements] at h
    | succ fuel =>
      have hb : skipWs (93 :: t) = 93 :: t := skipWs_cons _ _ (by decide)
      have hd : isDigit 93 = false := by decide
      cases fuel <;> simp [parseElements, parseValue, hb, hd] at h

/-- One element and the space around it. -/
theorem parseElements_step {w t w' s : Bytes} {c : UInt8} {v : JValue} {fuel : Nat} (hw : Ws w)
    (hv : parseValue fuel (t ++ (w' ++ c :: s)) = some (v, w' ++ c :: s)) (hw' : Ws w')
    (arr : List JValue) (hc : c = 93 ∨ c = 44) :
    parseElements (fuel + 1) arr (w ++ (t ++ (w' ++ c :: s))) =
      if c = 93 then some (.array (arr ++ [v]), s) else parseElements fuel (arr ++ [v]) s := by
  rw [parseElements, skipWs_append hw, parseValue_skipWs, hv]
  simp only [skipWs_append hw']
  obtain rfl | rfl := hc
  · rw [skipWs_cons 93 s (by decide), consume_same, if_pos rfl]
  · rw [skipWs_cons 44 s (by decide), consume_other 93 44 s (by decide), if_neg (by decide),
      consume_same]

theorem reads_array {t : Bytes} {v : JValue}
    (h : ∀ fuel rest, t.length ≤ fuel → parseElements fuel [] (t ++ rest) = some (v, rest)) :
    Reads (91 :: t) v := by
  refine reads_succ fun fuel rest hf _ => ?_
  have hloop := h fuel rest hf
  rw [parseValue, skipWs_cons 91 _ (by decide)]
  simp [consume_of_parseElements hloop, parseElements_skipWs, hloop]

theorem reads_emptyArray {w : Bytes} (hw : Ws w) : Reads (91 :: (w ++ [93])) (.array []) := by
  refine reads_succ fun fuel rest _ _ => ?_
  have hclose : skipWs (93 :: rest) = 93 :: rest := skipWs_cons _ _ (by decide)
  simp [parseValue, skipWs_cons, isSpace, skipWs_append hw, hclose]

/-- The object after members have been added one by one. -/
def addMembers (keys : List Bytes) (map : List (Bytes × JValue)) :
    List (Bytes × JValue) → JValue
  | [] => .object keys map
  | (k, v) :: ps =>
    addMembers (if (map.lookup k).isSome then keys else keys ++ [k]) (setMember map k v) ps

theorem lookup_cons_ite (p : Bytes × JValue) (map : List (Bytes × JValue)) (k : Bytes) :
    (p :: map).lookup k = if k = p.1 then some p.2 else map.lookup k := by
  rw [List.lookup_cons]
  by_cases h : k = p.1
  · rw [if_pos h, beq_iff_eq.mpr h]
  · rw [if_neg h, beq_eq_false_iff_ne.mpr h]

/-- Setting a member changes what is looked up under its key only. -/
theorem lookup_setMember (map : List (Bytes × JValue)) (key k : Bytes) (v : JValue) :
    (setMember map key v).lookup k = if k = key then some v else map.lookup k := by
  induction map with
  | nil => exact lookup_cons_ite (key, v) [] k
  | cons p map ih =>
    rw [setMember]
    split
    · next hp =>
      subst hp
      rw [lookup_cons_ite, lookup_cons_ite]
      by_cases h : k = p.1 <;> simp only [h, if_true, if_false]
    · next hp =>
      rw [lookup_cons_ite, lookup_cons_ite, ih]
      by_cases h : k = p.1
      · have hne : k ≠ key := by
          rw [h]
          exact hp
        simp only [if_pos h, if_neg hne]
      · simp only [if_neg h]

theorem lookup_isSome (map : List (Bytes × JValue)) (k : Bytes) :
    (map.lookup k).isSome = true ↔ k ∈ map.map Prod.fst := by
  induction map with
  | nil => simp
  | cons p map ih =>
    rw [lookup_cons_ite, List.map_cons, List.mem_cons, ← ih]
    by_cases h : k = p.1 <;> simp only [h, if_true, if_false, Option.isSome_some, true_or,
      false_or]

/-- The map keeps the order of its keys. -/
theorem map_fst_setMember (map : List (Bytes × JValue)) (key : Bytes) (v : JValue) :
    (setMember map key v).map Prod.fst =
      if (map.lookup key).isSome then map.map Prod.fst else map.map Prod.fst ++ [key] := by
  induction map with
  | nil => rfl
  | cons p map ih =>
    rw [setMember, lookup_cons_ite]
    split
    · next hp =>
      subst hp
      simp only [if_true, Option.isSome_some, List.map_cons]
    · next hp =>
      rw [List.map_cons, ih, if_neg (Ne.symm hp)]
      split <;> rfl

theorem get_addMembers (keys : List Bytes) (map ps : List (Bytes × JValue)) (k : Bytes) :
    (addMembers keys map ps).get k = ((ps.reverse.lookup k).or (map.lookup k)).getD .null := by
  induction ps generalizing keys map with
  | nil => rfl
  | cons p ps ih =>
    rw [addMembers, ih, lookup_setMember, List.reverse_cons, List.lookup_append, lookup_cons_ite]
    by_cases h : k = p.1
    · rw [if_pos h, if_pos h, Option.or_assoc, Option.some_or]
    · rw [if_neg h, if_neg h, List.lookup_nil, Option.or_none]

/-- Each key once, where it came first. -/
theorem keys_addMembers (keys : List Bytes) (map ps : List (Bytes × JValue))
    (h : map.map Prod.fst = keys) :
    (addMembers keys map ps).keys = keys ++ ((ps.map Prod.fst).removeAll keys).eraseDups ∧
      (addMembers keys map ps).size = (addMembers keys map ps).keys.length ∧
      (addMembers keys map ps).type = .object := by
  induction ps generalizing keys map with
  | nil =>
    refine ⟨?_, ?_, rfl⟩
    · simp [addMembers, JValue.keys]
    · rw [addMembers, JValue.size, JValue.keys, ← h, List.length_map]
  | cons p ps ih =>
    obtain ⟨k, v⟩ := p
    have hnext : (setMember map k v).map Prod.fst =
        if (map.lookup k).isSome then keys else keys ++ [k] := by
      rw [map_fst_setMember, h]
    obtain ⟨hkeys, hrest⟩ := ih _ _ hnext
    rw [addMembers]
    refine ⟨?_, hrest⟩
    rw [hkeys, List.map_cons]
    by_cases hk : k ∈ keys
    · rw [if_pos ((lookup_isSome map k).mpr (h ▸ hk)), List.removeAll, List.removeAll,
        List.filter_cons_of_neg (by simpa using hk)]
    · have hnone : ¬(map.lookup k).isSome = true := by
        rw [lookup_isSome, h]
        exact hk
      have hsplit : (ps.map Prod.fst).removeAll (keys ++ [k]) =
          ((ps.map Prod.fst).removeAll keys).filter fun b => !b == k := by
        rw [List.removeAll, List.removeAll, List.filter_filter]
        apply List.filter_congr
        intro x _
        by_cases hx : x = k <;> simp [hx, hk]
      rw [if_neg hnone, hsplit, List.removeAll, List.removeAll,
        List.filter_cons_of_pos (by simpa using hk), List.eraseDups_cons, List.append_assoc,
        List.singleton_append]

theorem parseMembers_skipWs (fuel : Nat) (keys : List Bytes) (map : List (Bytes × JValue))
    (s : Bytes) : parseMembers fuel keys map (skipWs s) = parseMembers fuel keys map s := by
  cases fuel with
  | zero => rw [parseMembers, parseMembers]
  | succ fuel => simp only [parseMembers, skipWs_skipWs]

/-- A member starts with a quote. -/
theorem consume_of_parseMembers {fuel : Nat} {keys : List Bytes} {map : List (Bytes × JValue)}
    {s : Bytes} {r : JValue × Bytes} (h : parseMembers fuel keys map s = some r) :
    consume 125 (skipWs s) = none := by
  cases fuel with
  | zero => simp [parseMembers] at h
  | succ fuel =>
    cases hs : skipWs s with
    | nil => rfl
    | cons c t =>
      apply consume_other
      rintro rfl
      rw [parseMembers, hs, consume_other 34 125 t (by decide)] at h
      cases h

/-- One member and the space around it. -/
theorem parseMembers_step {key w q w₁ w₂ t w' s : Bytes} {c : UInt8} {v : JValue} {fuel : Nat}
    (hw : Ws w) (hq : ∀ rest, parseString (q ++ 34 :: rest) = some (key, rest)) (hw₁ : Ws w₁)
    (hw₂ : Ws w₂) (hv : parseValue fuel (t ++ (w' ++ c :: s)) = some (v, w' ++ c :: s))
    (hw' : Ws w') (keys : List Bytes) (map : List (Bytes × JValue)) (hc : c = 125 ∨ c = 44) :
    parseMembers (fuel + 1) keys map
        (w ++ 34 :: (q ++ 34 :: (w₁ ++ 58 :: (w₂ ++ (t ++ (w' ++ c :: s)))))) =
      let keys' := if (map.lookup key).isSome then keys else keys ++ [key]
      if c = 125 then some (.object keys' (setMember map key v), s)
      else parseMembers fuel keys' (setMember map key v) s := by
  rw [parseMembers, skipWs_append hw, skipWs_cons 34 _ (by decide), consume_same]
  simp only [hq, skipWs_append hw₁, skipWs_cons 58 _ rfl, consume_same,
    skipWs_append hw₂, parseValue_skipWs, hv, skipWs_append hw']
  obtain rfl | rfl := hc
  · rw [skipWs_cons 125 s (by decide), consume_same, if_pos rfl]
  · have hcomma : (44 : UInt8) ≠ 125 := by decide
    rw [skipWs_cons 44 s (by decide), consume_other 125 44 s hcomma, if_neg hcomma, consume_same]

theorem reads_object {t : Bytes} {v : JValue}
    (h : ∀ fuel rest, t.length ≤ fuel → parseMembers fuel [] [] (t ++ rest) = some (v, rest)) :
    Reads (123 :: t) v := by
  refine reads_succ fun fuel rest hf _ => ?_
  have hloop := h fuel rest hf
  rw [parseValue, skipWs_cons 123 _ (by decide)]
  simp [consume_of_parseMembers hloop, parseMembers_skipWs, hloop]

theorem reads_emptyObject {w : Bytes} (hw : Ws w) :
    Reads (123 :: (w ++ [125])) (addMembers [] [] []) := by
  refine reads_succ fun fuel rest _ _ => ?_
  have hclose : skipWs (125 :: rest) = 125 :: rest := skipWs_cons _ _ (by decide)
  simp [parseValue, skipWs_cons, isSpace, skipWs_append hw, hclose, addMembers]

/-- An injective function commutes with dropping repetitions. -/
theorem eraseDups_map {α β : Type} [BEq α] [LawfulBEq α] [BEq β] [LawfulBEq β] {f : α → β}
    (hf : ∀ a b, f a = f b → a = b) (l : List α) : (l.map f).eraseDups = l.eraseDups.map f := by
  induction l using List.reverseRecOn with
  | nil => rfl
  | append_singleton l a ih =>
    rw [List.map_append, List.eraseDups_append, List.eraseDups_append, ih, List.map_append]
    congr 1
    have hmem : f a ∈ l.map f ↔ a ∈ l := by
      rw [List.mem_map]
      constructor
      · rintro ⟨b, hb, he⟩
        exact hf b a he ▸ hb
      · intro ha
        exact ⟨a, ha, rfl⟩
    by_cases ha : a ∈ l
    · have hfa : f a ∈ l.map f := by rwa [hmem]
      rw [List.map_singleton, List.removeAll, List.removeAll,
        List.filter_cons_of_neg (by simpa using hfa), List.filter_cons_of_neg (by simpa using ha)]
      rfl
    · have hfa : f a ∉ l.map f := by rwa [hmem]
      rw [List.map_singleton, List.removeAll, List.removeAll,
        List.filter_cons_of_pos (by simpa using hfa), List.filter_cons_of_pos (by simpa using ha)]
      simp [List.eraseDups_cons]

/-- A member of the tree and the member the reader made of it. -/
def SameMember (m : List Char × Tree) (p : Bytes × JValue) : Prop :=
  p.1 = utf8 m.1 ∧ Agrees m.2 p.2

/-- What the tree holds under a key, the map holds under its bytes. -/
theorem lookup_sameMember {ms : List (List Char × Tree)} {ps : List (Bytes × JValue)}
    (h : List.Forall₂ SameMember ms ps) {k : List Char} {v : Tree} (hk : ms.lookup k = some v) :
    ∃ j, ps.lookup (utf8 k) = some j ∧ Agrees v j := by
  induction h with
  | nil => cases hk
  | @cons m p ms ps hp _ ih =>
    rw [lookup_cons_ite, hp.1]
    rw [List.lookup_cons] at hk
    by_cases hm : k = m.1
    · rw [beq_iff_eq.mpr hm] at hk
      obtain rfl := Option.some.inj hk
      rw [if_pos (congrArg utf8 hm)]
      exact ⟨p.2, rfl, hp.2⟩
    · rw [beq_eq_false_iff_ne.mpr hm] at hk
      rw [if_neg fun he => hm (utf8_injective _ _ he)]
      exact ih hk

theorem agrees_array {vs : List Tree} {js : List JValue} (h : List.Forall₂ Agrees vs js) :
    Agrees (.array vs) (.array js) := by
  refine .array rfl h.length_eq.symm ?_
  intro i v hv
  induction h generalizing i with
  | nil => cases hv
  | cons hj _ ih =>
    cases i with
    | zero =>
      obtain rfl := Option.some.inj hv
      exact hj
    | succ i => exact ih i hv

theorem map_fst_sameMember {ms : List (List Char × Tree)} {ps : List (Bytes × JValue)}
    (h : List.Forall₂ SameMember ms ps) : ps.map Prod.fst = (ms.map Prod.fst).map utf8 := by
  induction h with
  | nil => rfl
  | cons hp _ ih => rw [List.map_cons, List.map_cons, List.map_cons, hp.1, ih]

theorem agrees_object {ms : List (List Char × Tree)} {ps : List (Bytes × JValue)}
    (h : List.Forall₂ SameMember ms ps) : Agrees (.object ms) (addMembers [] [] ps) := by
  obtain ⟨hkeys, hsize, htype⟩ := keys_addMembers [] [] ps rfl
  refine .object htype ?_ hsize ?_
  · have hall : (ps.map Prod.fst).removeAll [] = ps.map Prod.fst := by
      simp [List.removeAll]
    rw [hkeys, hall, List.nil_append, map_fst_sameMember h, eraseDups_map utf8_injective]
  · intro k v hv
    obtain ⟨j, hj, hagrees⟩ := lookup_sameMember (List.rel_reverse h) hv
    rw [get_addMembers, hj]
    exact hagrees

/-- What the reader makes of a text of each symbol. -/
def Accepted : Symbol (2 ^ 63 - 1) → Bytes → Prop
  | .value v, t => ∃ j, Reads t j ∧ Agrees v j
  | .elements vs, t => ∃ js, List.Forall₂ Agrees vs js ∧ ∀ fuel arr rest, t.length ≤ fuel →
      parseElements fuel arr (t ++ rest) = some (.array (arr ++ js), rest)
  | .members ms, t => ∃ ps, List.Forall₂ SameMember ms ps ∧ ∀ fuel keys map rest,
      t.length ≤ fuel →
      parseMembers fuel keys map (t ++ rest) = some (addMembers keys map ps, rest)

theorem reads_null : Reads [110, 117, 108, 108] .null := by
  have ha : ascii "null" = [110, 117, 108, 108] := by decide
  refine reads_succ fun fuel rest _ _ => ?_
  simp [parseValue, skipWs_cons, isSpace, literal, ha]

theorem reads_string {s : List Char} {q : Bytes} (h : Content s q) :
    Reads (34 :: (q ++ [34])) (.string (utf8 s)) := by
  refine reads_succ fun fuel rest _ _ => ?_
  have hq := parseString_content h rest
  simp [parseValue, skipWs_cons, isSpace, hq]

/-- By induction on the derivation: every text of the grammar is accepted, with the value of its
tree. -/
theorem accepted {x : Symbol (2 ^ 63 - 1)} {t : Bytes} (h : Derives x t) : Accepted x t := by
  induction h with
  | null => exact ⟨.null, reads_null, .null rfl⟩
  | true => exact ⟨.bool Bool.true, reads_bool Bool.true, .bool rfl rfl⟩
  | false => exact ⟨.bool Bool.false, reads_bool Bool.false, .bool rfl rfl⟩
  | @int z t hz =>
    obtain ⟨j, hreads, htype, hval⟩ := reads_integer hz z.2
    exact ⟨j, hreads, .int htype hval⟩
  | string hq => exact ⟨_, reads_string hq, .string rfl rfl⟩
  | emptyArray hw => exact ⟨_, reads_emptyArray hw, agrees_array .nil⟩
  | array _ ih =>
    obtain ⟨js, hjs, hloop⟩ := ih
    refine ⟨.array js, reads_array ?_, agrees_array hjs⟩
    intro fuel rest hf
    exact hloop fuel [] rest hf
  | emptyObject hw => exact ⟨_, reads_emptyObject hw, agrees_object .nil⟩
  | object _ ih =>
    obtain ⟨ps, hps, hloop⟩ := ih
    refine ⟨addMembers [] [] ps, reads_object ?_, agrees_object hps⟩
    intro fuel rest hf
    exact hloop fuel [] [] rest hf
  | @lastElement v w t w' hw _ hw' ih =>
    obtain ⟨j, hreads, hj⟩ := ih
    refine ⟨[j], .cons hj .nil, ?_⟩
    intro fuel arr rest hf
    cases fuel with
    | zero => simp at hf
    | succ fuel =>
      simp only [List.length_append, List.length_cons] at hf
      have hv := hreads fuel _ (by omega) (numEnd_closed hw' (.inr (.inl rfl)) rest)
      have hstep := parseElements_step hw hv hw' arr (.inl rfl)
      simpa using hstep
  | @element v vs w t w' u hw _ hw' _ ih ihs =>
    obtain ⟨j, hreads, hj⟩ := ih
    obtain ⟨js, hjs, hloop⟩ := ihs
    refine ⟨j :: js, .cons hj hjs, ?_⟩
    intro fuel arr rest hf
    cases fuel with
    | zero => simp at hf
    | succ fuel =>
      simp only [List.length_append, List.length_cons] at hf
      have hv := hreads fuel _ (by omega) (numEnd_closed hw' (.inl rfl) (u ++ rest))
      have hstep := parseElements_step hw hv hw' arr (.inr rfl)
      rw [if_neg (by decide), hloop fuel _ rest (by omega)] at hstep
      simpa using hstep
  | @lastMember k v w q w₁ w₂ t w' hw hq hw₁ hw₂ _ hw' ih =>
    obtain ⟨j, hreads, hj⟩ := ih
    refine ⟨[(utf8 k, j)], .cons ⟨rfl, hj⟩ .nil, ?_⟩
    intro fuel keys map rest hf
    cases fuel with
    | zero => simp at hf
    | succ fuel =>
      simp only [List.length_append, List.length_cons] at hf
      have hv := hreads fuel _ (by omega) (numEnd_closed hw' (.inr (.inr rfl)) rest)
      have hstep := parseMembers_step hw (parseString_content hq) hw₁ hw₂ hv hw' keys map (.inl rfl)
      simpa [addMembers] using hstep
  | @member k v ms w q w₁ w₂ t w' u hw hq hw₁ hw₂ _ hw' _ ih ihs =>
    obtain ⟨j, hreads, hj⟩ := ih
    obtain ⟨ps, hps, hloop⟩ := ihs
    refine ⟨(utf8 k, j) :: ps, .cons ⟨rfl, hj⟩ hps, ?_⟩
    intro fuel keys map rest hf
    cases fuel with
    | zero => simp at hf
    | succ fuel =>
      simp only [List.length_append, List.length_cons] at hf
      have hv := hreads fuel _ (by omega) (numEnd_closed hw' (.inl rfl) (u ++ rest))
      have hstep := parseMembers_step hw (parseString_content hq) hw₁ hw₂ hv hw' keys map (.inr rfl)
      rw [if_neg (by decide), hloop fuel _ _ rest (by omega)] at hstep
      simpa [addMembers] using hstep

/-- Every text of a tree is accepted, and the accessors read the tree back. -/
theorem parse_complete {v : Tree} {t : Bytes} (h : Document v t) :
    ∃ j, Json.parse t = .ok j ∧ Agrees v j := by
  cases h with
  | @text w t w' hw ht hw' =>
    obtain ⟨j, hreads, hj⟩ := accepted ht
    have hend : NumEnd w' := by simpa using numEnd_append hw' numEnd_nil
    have hval : parseValue (w ++ (t ++ w')).length (w ++ (t ++ w')) = some (j, w') := by
      rw [← parseValue_skipWs, skipWs_append hw, parseValue_skipWs]
      exact hreads _ w' (by simp; omega) hend
    have hrest : skipWs w' = [] := by simpa [skipWs] using skipWs_append hw' []
    have hne : w ++ (t ++ w') ≠ [] := by
      have := hreads.length_pos
      intro he
      simp_all
    refine ⟨j, ?_, hj⟩
    rw [Json.parse, if_neg hne, hval]
    simp only [hrest, if_true]

/-- A repeated key, white space, a sign and a surrogate pair:
` {"a" : -7,"a":"\uD83D\uDE00"}`. -/
theorem parse_complete_vector :
    ∃ j, Json.parse [32, 123, 34, 97, 34, 32, 58, 32, 45, 55, 44, 34, 97, 34, 58, 34, 92, 117, 68,
        56, 51, 68, 92, 117, 68, 69, 48, 48, 34, 125] = .ok j ∧
      j.keys = [[97]] ∧ (j.get [97]).asString = [240, 159, 152, 128] := by
  let a := [Char.ofNat 97]
  let grin := [Char.ofNat 0x1F600]
  let seven : {z : Int // z.natAbs ≤ 2 ^ 63 - 1} := ⟨-7, by decide⟩
  have hnone : Ws [] := by simp [Ws]
  have hspace : Ws [32] := by
    intro c hc
    exact .inl (List.mem_singleton.mp hc)
  have hkey : Content a ([97] ++ []) := .literal (by decide) (by decide) (by decide) .nil
  have hdigit : Natural 7 [55] := by
    have hd : Digit 55 := ⟨by decide, by decide⟩
    have hnil : ∀ x ∈ ([] : Bytes), Digit x := by simp
    exact Natural.digits hd (by decide) hnil
  have hseven : Derives (.value (.int seven)) [45, 55] := .int (.minus hdigit)
  have hhigh : Hex4 0xD83D [68, 56, 51, 68] := by
    apply Hex4.digits (a := 13) (b := 8) (c := 3) (d := 13) <;> simp [HexDigit]
  have hlow : Hex4 0xDE00 [68, 69, 48, 48] := by
    apply Hex4.digits (a := 13) (b := 14) (c := 0) (d := 0) <;> simp [HexDigit]
  have hgrin : Content grin (92 :: 117 :: ([68, 56, 51, 68] ++ 92 :: 117 ::
      ([68, 69, 48, 48] ++ []))) := .pair (by decide) hhigh hlow .nil
  have htext := Document.text hspace
    (.object (.member hnone hkey hspace hspace hseven hnone
      (.lastMember hnone hkey hnone hnone (.string hgrin) hnone))) hnone
  obtain ⟨j, hparse, hagrees⟩ := parse_complete htext
  cases hagrees with
  | object _ hkeys _ hget =>
    cases hget a (.string grin) rfl with
    | string _ hstring => exact ⟨j, hparse, hkeys, hstring⟩

end Keylight
