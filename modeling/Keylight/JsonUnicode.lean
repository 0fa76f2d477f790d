import Keylight.JsonCursor
import Keylight.Utf8

/-!
# Decoded strings

A string literal is valid text once decoded exactly when none of its escapes is
an unpaired low surrogate: unpaired high ones are refused, and everything else
is a character or copied. What a text yields are its keys and those of its
strings that no later member of the same object replaces.
-/
namespace Keylight
open Bytes JsonGrammar
open JsonCursor (hexUnit escapedPoint)

namespace JValue

/-- Every string and every key of the value. -/
inductive EachString (P : Bytes → Prop) : JValue → Prop
  | null : EachString P .null
  | bool (b : Bool) : EachString P (.bool b)
  | int (i : Int64) : EachString P (.int i)
  | double (neg : Bool) (d : Binary64.Magnitude) : EachString P (.double neg d)
  | string {s : Bytes} : P s → EachString P (.string s)
  | array {arr : List JValue} : (∀ j ∈ arr, EachString P j) → EachString P (.array arr)
  | object {keys : List Bytes} {map : List (Bytes × JValue)} : (∀ k ∈ keys, P k) →
      (∀ p ∈ map, P p.1) → (∀ p ∈ map, EachString P p.2) → EachString P (.object keys map)

/-- A string literal up to its closing quote, undecoded, and what follows it. -/
def cutLiteral : Bytes → Option (Bytes × Bytes)
  | [] => none
  | c :: s =>
    if c = 34 then some ([], s)
    else if c = 92 then
      match s with
      | [] => none
      | esc :: s => (cutLiteral s).map fun (raw, rest) => (92 :: esc :: raw, rest)
    else (cutLiteral s).map fun (raw, rest) => (c :: raw, rest)

/-- What an undecoded literal stands for. -/
def unquote (raw : Bytes) : Option Bytes := (parseString (raw ++ [34])).map Prod.fst

/-- Some escape of the literal is a low surrogate that is not the second half of a pair. -/
inductive LoneLow : Bytes → Prop
  | here {s t : Bytes} {cp : Nat} : escapedPoint s = some (cp, t) →
      0xDC00 ≤ cp → cp ≤ 0xDFFF → LoneLow (92 :: 117 :: s)
  | unicode {s t : Bytes} {cp : Nat} : escapedPoint s = some (cp, t) → LoneLow t →
      LoneLow (92 :: 117 :: s)
  | short {esc : UInt8} {s : Bytes} : esc ≠ 117 → LoneLow s → LoneLow (92 :: esc :: s)
  | plain {c : UInt8} {s : Bytes} : c ≠ 92 → LoneLow s → LoneLow (c :: s)

theorem cutLiteral_quote (s : Bytes) : cutLiteral (34 :: s) = some ([], s) := by
  rw [cutLiteral.eq_def]
  rfl

theorem cutLiteral_escape (esc : UInt8) (s : Bytes) : cutLiteral (92 :: esc :: s) =
    (cutLiteral s).map fun (raw, rest) => (92 :: esc :: raw, rest) := by
  rw [cutLiteral.eq_def]
  rfl

theorem cutLiteral_plain {c : UInt8} (hq : c ≠ 34) (hb : c ≠ 92) (s : Bytes) :
    cutLiteral (c :: s) = (cutLiteral s).map fun (raw, rest) => (c :: raw, rest) := by
  rw [cutLiteral.eq_def]
  simp only [if_neg hq, if_neg hb]

theorem cutLiteral_copied {bs : Bytes} (h : ∀ b ∈ bs, b ≠ 34 ∧ b ≠ 92) (s : Bytes) :
    cutLiteral (bs ++ s) = (cutLiteral s).map fun (raw, rest) => (bs ++ raw, rest) := by
  induction bs with
  | nil =>
    rw [List.nil_append]
    cases cutLiteral s <;> rfl
  | cons b bs ih =>
    obtain ⟨hq, hb⟩ := h b (by simp)
    rw [List.cons_append, cutLiteral_plain hq hb, ih fun x hx => h x (by simp [hx])]
    cases cutLiteral s <;> rfl

theorem nibble_some {b : UInt8} {n : Nat} (h : nibble b = some n) :
    n < 16 ∧ b.toNat < 0x80 ∧ b ≠ 34 ∧ b ≠ 92 := by
  have hge : ∀ k, k ≤ b ↔ k.toNat ≤ b.toNat := fun _ => UInt8.le_iff_toNat_le
  have hle : ∀ k, b ≤ k ↔ b.toNat ≤ k.toNat := fun _ => UInt8.le_iff_toNat_le
  have hne : ∀ k : UInt8, b.toNat ≠ k.toNat → b ≠ k := fun k hk he => hk (congrArg _ he)
  simp only [nibble, hge, hle, UInt8.reduceToNat, Bool.and_eq_true, decide_eq_true_eq] at h
  split_ifs at h <;> cases h <;>
    exact ⟨by omega, by omega, hne _ (by simp; omega), hne _ (by simp; omega)⟩

/-- Four digits at the front, whatever follows them. -/
theorem hexUnit_front {s t : Bytes} {n : Nat} (h : hexUnit s = some (n, t)) :
    ∃ ds : Bytes, s = ds ++ t ∧ n < 0x10000 ∧ (∀ b ∈ ds, b.toNat < 0x80 ∧ b ≠ 34 ∧ b ≠ 92) ∧
      ∀ u, hexUnit (ds ++ u) = some (n, u) := by
  rcases s with _ | ⟨a, _ | ⟨b, _ | ⟨c, _ | ⟨d, s⟩⟩⟩⟩
  case cons.cons.cons.cons =>
    simp only [hexUnit] at h
    obtain ⟨m, hm, he⟩ := Option.map_eq_some_iff.mp h
    cases he
    refine ⟨[a, b, c, d], rfl, ?_, ?_, fun u => by simp [hexUnit, hm]⟩
    all_goals
      simp only [hex4, Option.bind_eq_bind, Option.bind_eq_some_iff] at hm
      obtain ⟨w, hw, x, hx, y, hy, z, hz, he⟩ := hm
      have hw := nibble_some hw
      have hx := nibble_some hx
      have hy := nibble_some hy
      have hz := nibble_some hz
    · cases he
      omega
    · simp only [List.mem_cons, List.not_mem_nil, or_false]
      rintro e (rfl | rfl | rfl | rfl)
      · exact hw.2
      · exact hx.2
      · exact hy.2
      · exact hz.2
  all_goals cases h

/-- The text of an escape, whatever follows it; a high surrogate takes its low one along. -/
structure Escape (h : Bytes) (cp : Nat) : Prop where
  ascii : ∀ b ∈ h, b.toNat < 0x80
  point : ∀ t, escapedPoint (h ++ t) = some (cp, t)
  cut : ∀ t, cutLiteral (h ++ t) = (cutLiteral t).map fun (raw, rest) => (h ++ raw, rest)
  bound : cp < 0x110000
  paired : ¬(0xD800 ≤ cp ∧ cp ≤ 0xDBFF)

/-- How the decoder reads a literal: the text between its quotes and what it stands for. -/
inductive Spelt : Bytes → Bytes → Prop
  | nil : Spelt [] []
  | plain {c : UInt8} {raw out : Bytes} : c ≠ 34 → c ≠ 92 → Spelt raw out →
      Spelt (c :: raw) (c :: out)
  | short {esc b : UInt8} {raw out : Bytes} : esc ≠ 117 → unescape esc = some b →
      Spelt raw out → Spelt (92 :: esc :: raw) (b :: out)
  | unicode {h raw out : Bytes} {cp : Nat} : Escape h cp → Spelt raw out →
      Spelt (92 :: 117 :: (h ++ raw)) (encodeUtf8 cp ++ out)

/-- What is read as a code point spells its escape. -/
theorem escapedPoint_front {s t : Bytes} {cp : Nat} (h : escapedPoint s = some (cp, t)) :
    ∃ e, s = e ++ t ∧ Escape e cp := by
  obtain ⟨⟨n, u⟩, hunit, hpoint⟩ := Option.bind_eq_some_iff.mp h
  clear h
  obtain ⟨ds, rfl, hn, hds, hfront⟩ := hexUnit_front hunit
  dsimp only at hpoint
  split at hpoint
  · next hhigh =>
    rcases u with _ | ⟨p, _ | ⟨q, u⟩⟩ <;> try cases hpoint
    dsimp only at hpoint
    split at hpoint
    · next hpq =>
      obtain ⟨rfl, rfl⟩ := hpq
      obtain ⟨⟨low, v⟩, hlow, hpair⟩ := Option.bind_eq_some_iff.mp hpoint
      clear hpoint
      obtain ⟨es, rfl, hm, hes, hsecond⟩ := hexUnit_front hlow
      dsimp only at hpair
      split at hpair
      · cases hpair
      · next hrange =>
        simp only [Option.some.injEq, Prod.mk.injEq] at hpair
        obtain ⟨rfl, rfl⟩ := hpair
        refine ⟨ds ++ 92 :: 117 :: es, by simp, ?_, fun t => ?_, fun t => ?_, by omega, by omega⟩
        · simp only [List.mem_append, List.mem_cons]
          rintro b (hb | rfl | rfl | hb)
          · exact (hds b hb).1
          · decide
          · decide
          · exact (hes b hb).1
        · rw [List.append_assoc, escapedPoint, hfront]
          simp [hhigh, hsecond, hrange]
        · rw [List.append_assoc, cutLiteral_copied fun b hb => (hds b hb).2, List.cons_append,
            List.cons_append, cutLiteral_escape, cutLiteral_copied fun b hb => (hes b hb).2]
          cases cutLiteral t <;> simp
    · cases hpoint
  · next hsingle =>
    cases hpoint
    refine ⟨ds, rfl, fun b hb => (hds b hb).1, fun t => ?_, ?_, by omega, hsingle⟩
    · rw [escapedPoint, hfront]
      simp [hsingle]
    · exact cutLiteral_copied fun b hb => (hds b hb).2

/-- By induction on a bound of the length, as an escape takes several bytes at once. -/
theorem parseString_spelt {s out rest : Bytes} (h : parseString s = some (out, rest)) :
    ∃ raw, s = raw ++ 34 :: rest ∧ Spelt raw out := by
  induction hn : s.length using Nat.strong_induction_on generalizing s out with
  | _ n ih =>
    cases s with
    | nil => simp [JsonCursor.parseString_nil] at h
    | cons c s =>
      by_cases hq : c = 34
      · rw [hq, parseString_quote] at h
        cases h
        exact ⟨[], by rw [hq, List.nil_append], .nil⟩
      by_cases hb : c = 92
      · subst hb
        cases s with
        | nil => simp [JsonCursor.parseString_stop] at h
        | cons esc s =>
          simp only [List.length_cons] at hn
          by_cases hu : esc = 117
          · subst hu
            rw [JsonCursor.parseString_unicode] at h
            obtain ⟨⟨cp, t⟩, hp, h⟩ := Option.bind_eq_some_iff.mp h
            obtain ⟨⟨o, u⟩, hs, he⟩ := Option.map_eq_some_iff.mp h
            have hlen := (JsonCursor.escapedPoint_suffix s cp t hp).length_le
            obtain ⟨e, rfl, hescape⟩ := escapedPoint_front hp
            cases he
            obtain ⟨raw, rfl, hraw⟩ := ih t.length (by omega) hs rfl
            exact ⟨92 :: 117 :: (e ++ raw), by simp, .unicode hescape hraw⟩
          · cases he : unescape esc with
            | none => simp [JsonCursor.parseString_unknown hu he] at h
            | some b =>
              rw [parseString_escape esc b s hu he] at h
              obtain ⟨⟨o, u⟩, hs, heq⟩ := Option.map_eq_some_iff.mp h
              cases heq
              obtain ⟨raw, rfl, hraw⟩ := ih s.length (by omega) hs rfl
              exact ⟨92 :: esc :: raw, rfl, .short hu he hraw⟩
      · rw [parseString_plain c s hq hb] at h
        obtain ⟨⟨o, u⟩, hs, he⟩ := Option.map_eq_some_iff.mp h
        rw [List.length_cons] at hn
        cases he
        obtain ⟨raw, rfl, hraw⟩ := ih s.length (by omega) hs rfl
        exact ⟨c :: raw, rfl, .plain hq hb hraw⟩

namespace Spelt

/-- A literal is cut off at its closing quote. -/
theorem cut {raw out : Bytes} (h : Spelt raw out) (rest : Bytes) :
    cutLiteral (raw ++ 34 :: rest) = some (raw, rest) := by
  induction h with
  | nil => exact cutLiteral_quote rest
  | plain hq hb _ ih =>
    rw [List.cons_append, cutLiteral_plain hq hb, ih]
    rfl
  | short _ _ _ ih =>
    rw [List.cons_append, List.cons_append, cutLiteral_escape, ih]
    rfl
  | unicode he _ ih =>
    rw [List.cons_append, List.cons_append, List.append_assoc, cutLiteral_escape, he.cut, ih]
    rfl

/-- A spelt literal is read as its bytes. -/
theorem parse {raw out : Bytes} (h : Spelt raw out) (rest : Bytes) :
    parseString (raw ++ 34 :: rest) = some (out, rest) := by
  induction h with
  | nil => exact parseString_quote rest
  | plain hq hb _ ih =>
    rw [List.cons_append, parseString_plain _ _ hq hb, ih]
    rfl
  | short hu he _ ih =>
    rw [List.cons_append, List.cons_append, parseString_escape _ _ _ hu he, ih]
    rfl
  | unicode he _ ih =>
    rw [List.cons_append, List.cons_append, List.append_assoc, JsonCursor.parseString_unicode,
      he.point, Option.bind_some]
    dsimp only
    rw [ih]
    rfl

theorem unquote_eq {raw out : Bytes} (h : Spelt raw out) : unquote raw = some out := by
  rw [unquote, h.parse []]
  rfl

end Spelt

theorem loneLow_plain {c : UInt8} {s : Bytes} (h : c ≠ 92) : LoneLow (c :: s) ↔ LoneLow s := by
  constructor
  · intro hlone
    cases hlone with
    | plain _ hs => exact hs
    | _ => exact absurd rfl h
  · exact .plain h

theorem loneLow_short {esc : UInt8} {s : Bytes} (h : esc ≠ 117) :
    LoneLow (92 :: esc :: s) ↔ LoneLow s := by
  constructor
  · intro hlone
    cases hlone with
    | short _ hs => exact hs
    | plain hne _ => exact absurd rfl hne
    | _ => exact absurd rfl h
  · exact .short h

/-- An escape is a lone low half itself, or such a half comes later. -/
theorem loneLow_unicode {s t : Bytes} {cp : Nat} (h : escapedPoint s = some (cp, t)) :
    LoneLow (92 :: 117 :: s) ↔ 0xDC00 ≤ cp ∧ cp ≤ 0xDFFF ∨ LoneLow t := by
  constructor
  · intro hlone
    cases hlone with
    | here hp hlow hhigh =>
      rw [h, Option.some.injEq, Prod.mk.injEq] at hp
      rw [hp.1]
      exact .inl ⟨hlow, hhigh⟩
    | unicode hp ht =>
      rw [h, Option.some.injEq, Prod.mk.injEq] at hp
      rw [hp.2]
      exact .inr ht
    | short hne _ => exact absurd rfl hne
    | plain hne _ => exact absurd rfl hne
  · rintro (⟨hlow, hhigh⟩ | ht)
    · exact .here h hlow hhigh
    · exact .unicode h ht

/-- What an escape is decoded to is text unless it is a low surrogate. -/
theorem isUtf8_encodeUtf8 {h : Bytes} {cp : Nat} (he : Escape h cp) (bs : Bytes) :
    IsUtf8 (encodeUtf8 cp ++ bs) ↔ ¬(0xDC00 ≤ cp ∧ cp ≤ 0xDFFF) ∧ IsUtf8 bs := by
  have hpaired := he.paired
  have hbound := he.bound
  by_cases hlow : 0xDC00 ≤ cp ∧ cp ≤ 0xDFFF
  · refine iff_of_false ?_ fun h => h.1 hlow
    have hbytes : encodeUtf8 cp =
        [0xED, UInt8.ofNat (0x80 + cp / 64 % 64), UInt8.ofNat (0x80 + cp % 64)] := by
      have hfirst : 0xE0 + cp / 4096 = 0xED := by omega
      rw [encodeUtf8, if_neg (by omega), if_neg (by omega), if_pos (by omega), hfirst]
      rfl
    rw [hbytes]
    apply not_isUtf8_surrogate
    rw [UInt8.toNat_ofNat']
    omega
  · have hvalid : cp.isValidChar := by
      rw [Nat.isValidChar]
      omega
    have hchar : encodeUtf8 cp = String.utf8EncodeChar (Char.ofNatAux cp hvalid) :=
      encodeUtf8_toNat (Char.ofNatAux cp hvalid)
    rw [hchar, IsUtf8.char_append]
    exact (and_iff_right hlow).symm

/-- A literal in a text is decoded to text exactly when it has no unpaired surrogate; `front` are
the bytes read so far of a character. -/
theorem spelt_isUtf8 {raw out : Bytes} (h : Spelt raw out) (front : Bytes)
    (htext : IsUtf8 (front ++ raw)) : IsUtf8 (front ++ out) ↔ ¬LoneLow raw := by
  induction h generalizing front with
  | nil =>
    refine iff_of_true htext ?_
    intro hlone
    cases hlone
  | @plain c raw out _ hb _ ih =>
    have hnext := ih (front ++ [c]) (by simpa using htext)
    rw [loneLow_plain hb, ← hnext, List.append_assoc, List.singleton_append]
  | @short esc b raw out hu he _ ih =>
    obtain ⟨hfront, hrest⟩ := IsUtf8.cut (by decide) htext
    have hascii : esc.toNat < 0x80 ∧ b.toNat < 0x80 := by
      simp only [unescape] at he
      split_ifs at he with h₁ h₂ h₃ h₄ h₅ h₆ h₇ h₈ <;> cases he <;> subst esc <;> decide
    have hnext := ih [] ((isUtf8_ascii_cons hascii.1).mp hrest)
    rw [loneLow_short hu, ← hnext, hfront.append_left, isUtf8_ascii_cons hascii.2]
    rfl
  | @unicode e raw out cp he _ ih =>
    obtain ⟨hfront, hrest⟩ := IsUtf8.cut (by decide) htext
    have hescape := (isUtf8_ascii_cons (by decide)).mp hrest
    have hnext := ih [] (hescape.drop_ascii he.ascii)
    rw [loneLow_unicode (he.point raw), hfront.append_left, isUtf8_encodeUtf8 he, not_or, ← hnext]
    rfl

/-- A text with its literals undecoded and every member of its objects. -/
inductive Doc where
  | other : JValue → Doc
  | literal : Bytes → Doc
  | array : List Doc → Doc
  | object : List (Bytes × Doc) → Doc

mutual

def docValue : Nat → Bytes → Option (Doc × Bytes)
  | 0, _ => none
  | fuel + 1, s =>
    match skipWs s with
    | [] => none
    | c :: s =>
      if c = 123 then
        match consume 125 (skipWs s) with
        | some rest => some (.object [], rest)
        | none => docMembers fuel [] (skipWs s)
      else if c = 91 then
        match consume 93 (skipWs s) with
        | some rest => some (.array [], rest)
        | none => docElements fuel [] (skipWs s)
      else if c = 34 then (cutLiteral s).map fun (raw, rest) => (.literal raw, rest)
      else (leaf c s).map fun (v, rest) => (.other v, rest)

def docMembers : Nat → List (Bytes × Doc) → Bytes → Option (Doc × Bytes)
  | 0, _, _ => none
  | fuel + 1, ms, s =>
    match consume 34 (skipWs s) with
    | none => none
    | some s =>
      match cutLiteral s with
      | none => none
      | some (raw, s) =>
        match consume 58 (skipWs s) with
        | none => none
        | some s =>
          match docValue fuel (skipWs s) with
          | none => none
          | some (d, s) =>
            match consume 125 (skipWs s) with
            | some rest => some (.object (ms ++ [(raw, d)]), rest)
            | none =>
              match consume 44 (skipWs s) with
              | some s => docMembers fuel (ms ++ [(raw, d)]) s
              | none => none

def docElements : Nat → List Doc → Bytes → Option (Doc × Bytes)
  | 0, _, _ => none
  | fuel + 1, ds, s =>
    match docValue fuel (skipWs s) with
    | none => none
    | some (d, s) =>
      match consume 93 (skipWs s) with
      | some rest => some (.array (ds ++ [d]), rest)
      | none =>
        match consume 44 (skipWs s) with
        | some s => docElements fuel (ds ++ [d]) s
        | none => none

end

/-- The members that no later one replaces. -/
def survivors {α κ : Type} [DecidableEq κ] (key : α → κ) : List α → List α
  | [] => []
  | x :: l => if l.any fun y => key y = key x then survivors key l else x :: survivors key l

/-- Every key of the text and every string of it that is not replaced. -/
inductive Doc.EachLiteral (P : Bytes → Prop) : Doc → Prop
  | other (v : JValue) : EachLiteral P (.other v)
  | literal {raw : Bytes} : P raw → EachLiteral P (.literal raw)
  | array {ds : List Doc} : (∀ d ∈ ds, EachLiteral P d) → EachLiteral P (.array ds)
  | object {ms : List (Bytes × Doc)} : (∀ m ∈ ms, P m.1) →
      (∀ m ∈ survivors (fun m => unquote m.1) ms, EachLiteral P m.2) → EachLiteral P (.object ms)

theorem eachString_array {P : Bytes → Prop} {arr : List JValue} :
    EachString P (.array arr) ↔ ∀ j ∈ arr, EachString P j := by
  constructor
  · intro h
    cases h with
    | array h => exact h
  · exact .array

theorem eachString_object {P : Bytes → Prop} {keys : List Bytes} {map : List (Bytes × JValue)} :
    EachString P (.object keys map) ↔
      (∀ k ∈ keys, P k) ∧ (∀ p ∈ map, P p.1) ∧ ∀ p ∈ map, EachString P p.2 := by
  constructor
  · intro h
    cases h with
    | object hkeys hnames hvalues => exact ⟨hkeys, hnames, hvalues⟩
  · rintro ⟨hkeys, hnames, hvalues⟩
    exact .object hkeys hnames hvalues

theorem eachLiteral_array {P : Bytes → Prop} {ds : List Doc} :
    (Doc.array ds).EachLiteral P ↔ ∀ d ∈ ds, d.EachLiteral P := by
  constructor
  · intro h
    cases h with
    | array h => exact h
  · exact .array

theorem eachLiteral_object {P : Bytes → Prop} {ms : List (Bytes × Doc)} :
    (Doc.object ms).EachLiteral P ↔ (∀ m ∈ ms, P m.1) ∧
      ∀ m ∈ survivors (fun m => unquote m.1) ms, m.2.EachLiteral P := by
  constructor
  · intro h
    cases h with
    | object hkeys hvalues => exact ⟨hkeys, hvalues⟩
  · rintro ⟨hkeys, hvalues⟩
    exact .object hkeys hvalues

theorem eachString_leaf {P : Bytes → Prop} {c : UInt8} {s rest : Bytes} {v : JValue}
    (hc : c ≠ 34) (h : leaf c s = some (v, rest)) : EachString P v := by
  obtain ⟨hquote, -⟩ | ⟨-, rfl | ⟨_, rfl⟩ | ⟨_, rfl⟩ | ⟨_, _, rfl⟩⟩ := leaf_value h
  · exact absurd hquote hc
  · exact .null
  · exact .bool _
  · exact .int _
  · exact .double _ _

theorem forall₂_all {α β : Type} {A : α → Prop} {B : β → Prop} {xs : List α} {ys : List β}
    (h : List.Forall₂ (fun x y => A x ↔ B y) xs ys) : (∀ x ∈ xs, A x) ↔ ∀ y ∈ ys, B y := by
  induction h with
  | nil => simp
  | cons hxy _ ih => rw [List.forall_mem_cons, List.forall_mem_cons, hxy, ih]

/-- Lists whose keys are equal at the same places have the same places replaced. -/
theorem survivors_forall₂ {α β κ μ : Type} [DecidableEq κ] [DecidableEq μ] {f : α → κ}
    {g : β → μ} {R : α → β → Prop}
    (hkey : ∀ x y x' y', R x y → R x' y' → (f x' = f x ↔ g y' = g y)) {xs : List α}
    {ys : List β} (h : List.Forall₂ R xs ys) :
    List.Forall₂ R (survivors f xs) (survivors g ys) := by
  induction h with
  | nil => exact .nil
  | @cons x y xs ys hxy hrest ih =>
    have hsame : (xs.any fun z => f z = f x) = ys.any fun z => g z = g y := by
      clear ih
      induction hrest with
      | nil => rfl
      | cons h _ ih =>
        rw [List.any_cons, List.any_cons, ih]
        simp only [hkey x y _ _ hxy h]
    rw [survivors, survivors, hsame]
    split
    · exact ih
    · exact .cons hxy ih

/-- With the keys distinct, the members after a setting are the new one and those under other
keys. -/
theorem mem_setMember_iff {map : List (Bytes × JValue)} (h : (map.map Prod.fst).Nodup)
    (key : Bytes) (v : JValue) (p : Bytes × JValue) :
    p ∈ setMember map key v ↔ p = (key, v) ∨ p ∈ map ∧ p.1 ≠ key := by
  induction map with
  | nil => simp [setMember]
  | cons q map ih =>
    rw [List.map_cons, List.nodup_cons] at h
    have hq : ∀ p ∈ map, p.1 ≠ q.1 := by
      intro p hp he
      exact h.1 (he ▸ List.mem_map_of_mem hp)
    rw [setMember]
    split
    · next hsame =>
      subst hsame
      rw [List.mem_cons, List.mem_cons]
      constructor
      · rintro (hp | hp)
        · exact .inl hp
        · exact .inr ⟨.inr hp, hq p hp⟩
      · rintro (hp | ⟨rfl | hp, hne⟩)
        · exact .inl hp
        · exact absurd rfl hne
        · exact .inr hp
    · next hother =>
      rw [List.mem_cons, List.mem_cons, ih h.2]
      constructor
      · rintro (rfl | hp | ⟨hp, hne⟩)
        · exact .inr ⟨.inl rfl, hother⟩
        · exact .inl hp
        · exact .inr ⟨.inr hp, hne⟩
      · rintro (hp | ⟨rfl | hp, hne⟩)
        · exact .inr (.inl hp)
        · exact .inl rfl
        · exact .inr (.inr ⟨hp, hne⟩)

/-- What members added to an object leave of it and of themselves. -/
theorem eachString_addMembers {P : Bytes → Prop} {keys : List Bytes}
    {map : List (Bytes × JValue)} (hkeys : map.map Prod.fst = keys) (hnodup : keys.Nodup)
    (ps : List (Bytes × JValue)) : EachString P (addMembers keys map ps) ↔
      (∀ k ∈ keys, P k) ∧ (∀ p ∈ ps, P p.1) ∧
      (∀ p ∈ map, (∀ q ∈ ps, q.1 ≠ p.1) → EachString P p.2) ∧
      ∀ p ∈ survivors Prod.fst ps, EachString P p.2 := by
  induction ps generalizing keys map with
  | nil =>
    have hnames : (∀ p ∈ map, P p.1) ↔ ∀ k ∈ keys, P k := by
      rw [← hkeys, List.forall_mem_map]
    rw [addMembers, eachString_object, hnames]
    simp [survivors]
  | cons p ps ih =>
    obtain ⟨k, v⟩ := p
    have hmem : (map.lookup k).isSome = true ↔ k ∈ keys := by rw [lookup_isSome, hkeys]
    have hkeys' : (setMember map k v).map Prod.fst =
        if (map.lookup k).isSome then keys else keys ++ [k] := by
      rw [map_fst_setMember, hkeys]
    have hnodup' := nodup_setMember hkeys hnodup k
    have hall : (∀ x ∈ (if (map.lookup k).isSome then keys else keys ++ [k]), P x) ↔
        (∀ x ∈ keys, P x) ∧ P k := by
      split
      · next hold =>
        rw [hmem] at hold
        exact (and_iff_left_of_imp fun h => h k hold).symm
      · rw [List.forall_mem_append, List.forall_mem_singleton]
    have hmap : (∀ p ∈ setMember map k v, (∀ q ∈ ps, q.1 ≠ p.1) → EachString P p.2) ↔
        ((∀ q ∈ ps, q.1 ≠ k) → EachString P v) ∧
          ∀ p ∈ map, (∀ q ∈ (k, v) :: ps, q.1 ≠ p.1) → EachString P p.2 := by
      simp only [mem_setMember_iff (hkeys ▸ hnodup), List.forall_mem_cons]
      constructor
      · intro h
        refine ⟨h (k, v) (.inl rfl), ?_⟩
        rintro p hp ⟨hne, hlater⟩
        exact h p (.inr ⟨hp, hne.symm⟩) hlater
      · rintro ⟨hv, hrest⟩ p (rfl | ⟨hp, hne⟩) hlater
        · exact hv hlater
        · exact hrest p hp ⟨hne.symm, hlater⟩
    have hsurvivors : (∀ p ∈ survivors Prod.fst ((k, v) :: ps), EachString P p.2) ↔
        ((∀ q ∈ ps, q.1 ≠ k) → EachString P v) ∧
          ∀ p ∈ survivors Prod.fst ps, EachString P p.2 := by
      rw [survivors]
      split
      · next hreplaced =>
        rw [and_iff_right]
        intro hnone
        obtain ⟨q, hq, he⟩ := List.any_eq_true.mp hreplaced
        exact absurd (of_decide_eq_true he) (hnone q hq)
      · next hlast =>
        have hnone : ∀ q ∈ ps, q.1 ≠ k := by
          intro q hq he
          exact hlast (List.any_eq_true.mpr ⟨q, hq, decide_eq_true he⟩)
        rw [List.forall_mem_cons, imp_iff_right hnone]
    rw [addMembers, ih hkeys' hnodup', hall, hmap, hsurvivors, List.forall_mem_cons]
    constructor
    · rintro ⟨⟨hold, hk⟩, hps, ⟨hv, hkept⟩, hlast⟩
      exact ⟨hold, ⟨hk, hps⟩, hkept, hv, hlast⟩
    · rintro ⟨hold, ⟨hk, hps⟩, hkept, hv, hlast⟩
      exact ⟨⟨hold, hk⟩, hps, ⟨hv, hkept⟩, hlast⟩

/-- A member as it is written and as it is read. -/
structure Entry (m : Bytes × Doc) (p : Bytes × JValue) : Prop where
  key : unquote m.1 = some p.1
  text : IsUtf8 p.1 ↔ ¬LoneLow m.1
  value : EachString IsUtf8 p.2 ↔ m.2.EachLiteral fun raw => ¬LoneLow raw

theorem entries_object {ms : List (Bytes × Doc)} {ps : List (Bytes × JValue)}
    (h : List.Forall₂ Entry ms ps) : EachString IsUtf8 (addMembers [] [] ps) ↔
      (Doc.object ms).EachLiteral fun raw => ¬LoneLow raw := by
  have hnames := forall₂_all (h.imp fun _ _ he => he.text.symm)
  have hlast := survivors_forall₂ (f := fun m => unquote m.1) (g := Prod.fst)
    (fun x y x' y' hx hx' => by rw [hx.key, hx'.key, Option.some_inj]) h
  have hvalues := forall₂_all (hlast.imp fun _ _ he => he.value.symm)
  have hempty : ([] : List (Bytes × JValue)).map Prod.fst = [] := rfl
  rw [eachString_addMembers hempty List.nodup_nil, eachLiteral_object, hnames, hvalues]
  simp

theorem isUtf8_skipWs {s : Bytes} (h : IsUtf8 s) : IsUtf8 (skipWs s) := by
  induction s with
  | nil => exact h
  | cons c s ih =>
    rw [skipWs]
    split
    · next hspace =>
      apply ih
      refine (isUtf8_ascii_cons ?_).mp h
      simp only [isSpace, Bool.or_eq_true, decide_eq_true_eq] at hspace
      obtain ((rfl | rfl) | rfl) | rfl := hspace <;> decide
    · exact h

theorem isUtf8_consume {c : UInt8} {s t : Bytes} (hc : c.toNat < 0x80)
    (h : consume c (skipWs s) = some t) (hs : IsUtf8 s) : IsUtf8 t := by
  have hs := isUtf8_skipWs hs
  rw [JsonCursor.consume_suffix h] at hs
  exact (isUtf8_ascii_cons hc).mp hs

/-- What follows a byte below 0x80 somewhere later in a text. -/
theorem isUtf8_later {c : UInt8} {s u t : Bytes} (hc : c.toNat < 0x80) (hu : u <:+ s)
    (h : consume c (skipWs u) = some t) (hs : IsUtf8 s) : IsUtf8 t := by
  have hsuffix := (JsonCursor.skipWs_suffix u).trans hu
  rw [JsonCursor.consume_suffix h] at hsuffix
  obtain ⟨front, rfl⟩ := hsuffix
  exact (IsUtf8.cut hc hs).2

/-- With this much fuel what is read was written: a value, the members after those read, the
elements after those read. -/
structure WrittenAt (fuel : Nat) : Prop where
  value : ∀ s v rest, IsUtf8 s → parseValue fuel s = some (v, rest) →
    ∃ d, docValue fuel s = some (d, rest) ∧
      (EachString IsUtf8 v ↔ d.EachLiteral fun raw => ¬LoneLow raw)
  members : ∀ keys map s v rest acc, IsUtf8 s → parseMembers fuel keys map s = some (v, rest) →
    ∃ ms ps, docMembers fuel acc s = some (.object (acc ++ ms), rest) ∧
      v = addMembers keys map ps ∧ List.Forall₂ Entry ms ps
  elements : ∀ arr s v rest acc, IsUtf8 s → parseElements fuel arr s = some (v, rest) →
    ∃ ds js, docElements fuel acc s = some (.array (acc ++ ds), rest) ∧
      v = .array (arr ++ js) ∧ List.Forall₂
        (fun d j => EachString IsUtf8 j ↔ d.EachLiteral fun raw => ¬LoneLow raw) ds js

section Step
variable {fuel : Nat} (ih : WrittenAt fuel) {s rest : Bytes} {v : JValue}
include ih

/-- A value and its document: a lone low half is what makes a string that is no text. -/
theorem doc_value (hs : IsUtf8 s) (h : parseValue (fuel + 1) s = some (v, rest)) :
    ∃ d, docValue (fuel + 1) s = some (d, rest) ∧
      (EachString IsUtf8 v ↔ d.EachLiteral fun raw => ¬LoneLow raw) := by
  obtain ⟨c, t, hskip, h⟩ := parseValue_some.mp h
  have htext := isUtf8_skipWs hs
  rw [hskip] at htext
  simp only [docValue, hskip]
  obtain ⟨rfl, h⟩ | ⟨rfl, h⟩ | ⟨hobject, harray, h⟩ := h
  · have ht := isUtf8_skipWs ((isUtf8_ascii_cons (by decide)).mp htext)
    obtain ⟨hclose, rfl⟩ | ⟨hclose, h⟩ := h
    · rw [if_pos rfl, hclose]
      exact ⟨_, rfl, entries_object .nil⟩
    · obtain ⟨ms, ps, hdoc, rfl, hall⟩ := ih.members _ _ _ _ _ [] ht h
      rw [if_pos rfl, hclose]
      exact ⟨_, hdoc, entries_object hall⟩
  · have ht := isUtf8_skipWs ((isUtf8_ascii_cons (by decide)).mp htext)
    rw [if_neg (by decide), if_pos rfl]
    obtain ⟨hclose, rfl⟩ | ⟨hclose, h⟩ := h
    · rw [hclose]
      refine ⟨_, rfl, ?_⟩
      simp [eachString_array, eachLiteral_array]
    · obtain ⟨ds, js, hdoc, rfl, hall⟩ := ih.elements _ _ _ _ [] ht h
      rw [hclose]
      refine ⟨_, hdoc, ?_⟩
      rw [eachString_array, eachLiteral_array, List.nil_append, List.nil_append]
      exact (forall₂_all (hall.imp fun _ _ he => he.symm)).symm
  · rw [if_neg hobject, if_neg harray]
    by_cases hq : c = 34
    · subst hq
      rw [leaf, if_pos rfl] at h
      obtain ⟨⟨out, u⟩, hstring, he⟩ := Option.map_eq_some_iff.mp h
      cases he
      obtain ⟨raw, rfl, hspelt⟩ := parseString_spelt hstring
      have hraw := (IsUtf8.cut (by decide) ((isUtf8_ascii_cons (by decide)).mp htext)).1
      rw [if_pos rfl, hspelt.cut]
      refine ⟨_, rfl, ?_⟩
      have htext : IsUtf8 out ↔ ¬LoneLow raw := spelt_isUtf8 hspelt [] hraw
      constructor
      · intro hout
        cases hout with
        | string hout => exact .literal (htext.mp hout)
      · intro hlit
        cases hlit with
        | literal hlit => exact .string (htext.mpr hlit)
    · rw [if_neg hq, h]
      exact ⟨_, rfl, iff_of_true (eachString_leaf hq h) (.other v)⟩

/-- The same for the loop over the members. -/
theorem doc_members {keys : List Bytes} {map : List (Bytes × JValue)}
    (acc : List (Bytes × Doc)) (hs : IsUtf8 s)
    (h : parseMembers (fuel + 1) keys map s = some (v, rest)) :
    ∃ ms ps, docMembers (fuel + 1) acc s = some (.object (acc ++ ms), rest) ∧
      v = addMembers keys map ps ∧ List.Forall₂ Entry ms ps := by
  obtain ⟨s₁, key, s₂, s₃, val, s₄, h₁, h₂, h₃, h₄, h⟩ := parseMembers_some.mp h
  have hs₁ := isUtf8_consume (by decide) h₁ hs
  obtain ⟨raw, rfl, hspelt⟩ := parseString_spelt h₂
  obtain ⟨hraw, hs₂⟩ := IsUtf8.cut (by decide) hs₁
  have hs₃ := isUtf8_skipWs (isUtf8_consume (by decide) h₃ hs₂)
  obtain ⟨d, hd, hval⟩ := ih.value _ _ _ hs₃ h₄
  have hs₄ := ((JsonCursor.parse_takes fuel).1 _ _ _ h₄).suffix
  have hentry : Entry (raw, d) (key, val) :=
    ⟨hspelt.unquote_eq, spelt_isUtf8 hspelt [] hraw, hval⟩
  simp only [docMembers, h₁, hspelt.cut, h₃, hd]
  obtain ⟨hclose, rfl⟩ | ⟨hclose, s₅, hcomma, h⟩ := h
  · rw [hclose]
    exact ⟨[(raw, d)], [(key, val)], rfl, rfl, .cons hentry .nil⟩
  · have hs₅ := isUtf8_later (by decide) hs₄ hcomma hs₃
    obtain ⟨ms, ps, hdoc, rfl, hall⟩ := ih.members _ _ _ _ _ (acc ++ [(raw, d)]) hs₅ h
    rw [hclose, hcomma]
    refine ⟨(raw, d) :: ms, (key, val) :: ps, ?_, rfl, .cons hentry hall⟩
    dsimp only
    rw [hdoc, List.append_assoc, List.singleton_append]

/-- The same for the loop over the elements. -/
theorem doc_elements {arr : List JValue} (acc : List Doc) (hs : IsUtf8 s)
    (h : parseElements (fuel + 1) arr s = some (v, rest)) :
    ∃ ds js, docElements (fuel + 1) acc s = some (.array (acc ++ ds), rest) ∧
      v = .array (arr ++ js) ∧ List.Forall₂
        (fun d j => EachString IsUtf8 j ↔ d.EachLiteral fun raw => ¬LoneLow raw) ds js := by
  obtain ⟨elem, s₁, h₁, h⟩ := parseElements_some.mp h
  have hs₀ := isUtf8_skipWs hs
  obtain ⟨d, hd, hval⟩ := ih.value _ _ _ hs₀ h₁
  have hs₁ := ((JsonCursor.parse_takes fuel).1 _ _ _ h₁).suffix
  simp only [docElements, hd]
  obtain ⟨hclose, rfl⟩ | ⟨hclose, s₂, hcomma, h⟩ := h
  · rw [hclose]
    exact ⟨[d], [elem], rfl, rfl, .cons hval .nil⟩
  · have hs₂ := isUtf8_later (by decide) hs₁ hcomma hs₀
    obtain ⟨ds, js, hdoc, rfl, hall⟩ := ih.elements _ _ _ _ (acc ++ [d]) hs₂ h
    rw [hclose, hcomma]
    refine ⟨d :: ds, elem :: js, ?_, ?_, .cons hval hall⟩
    · dsimp only
      rw [hdoc, List.append_assoc, List.singleton_append]
    · rw [List.append_assoc, List.singleton_append]

end Step

theorem doc_parse (fuel : Nat) : WrittenAt fuel := by
  induction fuel with
  | zero => constructor <;> simp [parseValue, parseMembers, parseElements]
  | succ fuel ih =>
    exact ⟨fun _ _ _ hs h => doc_value ih hs h, fun _ _ _ _ _ acc hs h => doc_members ih acc hs h,
      fun _ _ _ _ acc hs h => doc_elements ih acc hs h⟩

end JValue

/-- The text as it is written. -/
def document (src : Bytes) : Option JValue.Doc := (JValue.docValue src.length src).map Prod.fst

open JValue in
/-- What an accepted text yields is text exactly when no key of it, and no string of it that stays,
has an unpaired low surrogate. -/
theorem strings_text {s : List Char} {j : Json} (h : Json.parse (utf8 s) = .ok j) :
    ∃ d, document (utf8 s) = some d ∧
      (EachString IsUtf8 j ↔ d.EachLiteral fun raw => ¬LoneLow raw) := by
  rw [Json.parse] at h
  split at h
  · cases h
  · split at h
    · cases h
    · next v rest hv =>
      split at h
      · cases h
        obtain ⟨d, hd, hsame⟩ := (doc_parse _).value _ _ _ ⟨s, rfl⟩ hv
        exact ⟨d, by rw [document, hd]; rfl, hsame⟩
      · cases h

open JValue in
/-- An escaped pair is one character. -/
theorem strings_text_vector : ∃ d, document (utf8 "\"\\ud83d\\ude00\"".toList) = some d ∧
    (EachString IsUtf8 (.string [0xF0, 0x9F, 0x98, 0x80]) ↔
      d.EachLiteral fun raw => ¬LoneLow raw) := by
  have hbytes : utf8 "\"\\ud83d\\ude00\"".toList =
      [34, 92, 117, 100, 56, 51, 100, 92, 117, 100, 101, 48, 48, 34] := by decide
  apply strings_text
  rw [hbytes]
  rfl

open JValue in
/-- An escaped low surrogate alone is copied into the string, three bytes that no text has. -/
theorem surrogate_copied : ¬∀ (s : List Char) (j : Json),
    Json.parse (utf8 s) = .ok j → EachString IsUtf8 j := by
  intro h
  have hbytes : utf8 "\"\\udc00\"".toList = [34, 92, 117, 100, 99, 48, 48, 34] := by decide
  have hparse : Json.parse (utf8 "\"\\udc00\"".toList) =
      .ok (.string [0xED, 0xB0, 0x80]) := by
    rw [hbytes]
    rfl
  have hstring := h _ _ hparse
  cases hstring with
  | string hs => exact not_isUtf8_surrogate (by decide) [0x80] hs

end Keylight
