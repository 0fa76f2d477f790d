import Keylight.JsonUnicode

/-!
# Texts the reader takes

The language of the parser, which is wider than that of the standard: zeros may
lead a number, a fraction and an exponent may lack their digits, and a literal
may hold any byte. A value is read from the front of an input exactly where one
of these texts stands, so what a text holds can be said without running the
parser.
-/
namespace Keylight
open Bytes Binary64 JValue JsonGrammar

namespace JsonSpelling

def Digits (ds : Bytes) : Prop := ∀ c ∈ ds, isDigit c = true

inductive Fraction : Bytes → Prop
  | none : Fraction []
  | digits {ds : Bytes} : Digits ds → Fraction (46 :: ds)

inductive Exponent : Bytes → Prop
  | none : Exponent []
  | digits {e : UInt8} {sign ds : Bytes} : e = 101 ∨ e = 69 →
      sign = [] ∨ sign = [43] ∨ sign = [45] → Digits ds → Exponent (e :: (sign ++ ds))

/-- A number as it may be written. -/
inductive Number : Bytes → Prop
  | digits {minus ds frac expo : Bytes} : minus = [] ∨ minus = [45] → ds ≠ [] → Digits ds →
      Fraction frac → Exponent expo → Number (minus ++ (ds ++ (frac ++ expo)))

/-- The rest of an array or an object starts after its bracket or a comma. -/
inductive Piece where
  | value | elements | members

/-- The texts of each piece. -/
inductive Spells : Piece → Bytes → Prop
  | null : Spells .value (ascii "null")
  | true : Spells .value (ascii "true")
  | false : Spells .value (ascii "false")
  | number {t : Bytes} : Number t → Spells .value t
  | string {raw out : Bytes} : Spelt raw out → Spells .value (34 :: (raw ++ [34]))
  | emptyArray {w : Bytes} : Ws w → Spells .value (91 :: (w ++ [93]))
  | array {t : Bytes} : Spells .elements t → Spells .value (91 :: t)
  | emptyObject {w : Bytes} : Ws w → Spells .value (123 :: (w ++ [125]))
  | object {t : Bytes} : Spells .members t → Spells .value (123 :: t)
  | lastElement {w t w' : Bytes} : Ws w → Spells .value t → Ws w' →
      Spells .elements (w ++ (t ++ (w' ++ [93])))
  | element {w t w' u : Bytes} : Ws w → Spells .value t → Ws w' → Spells .elements u →
      Spells .elements (w ++ (t ++ (w' ++ 44 :: u)))
  | lastMember {w raw out w₁ w₂ t w' : Bytes} : Ws w → Spelt raw out → Ws w₁ → Ws w₂ →
      Spells .value t → Ws w' →
      Spells .members (w ++ 34 :: (raw ++ 34 :: (w₁ ++ 58 :: (w₂ ++ (t ++ (w' ++ [125]))))))
  | member {w raw out w₁ w₂ t w' u : Bytes} : Ws w → Spelt raw out → Ws w₁ → Ws w₂ →
      Spells .value t → Ws w' → Spells .members u →
      Spells .members (w ++ 34 :: (raw ++ 34 :: (w₁ ++ 58 :: (w₂ ++ (t ++ (w' ++ 44 :: u))))))

/-- A value with the white space around it. -/
inductive Text : Bytes → Prop
  | value {w t w' : Bytes} : Ws w → Spells .value t → Ws w' → Text (w ++ (t ++ w'))

/-- The name of a member with the white space around it. -/
inductive Key : Bytes → Prop
  | literal {w raw out w' : Bytes} : Ws w → Spelt raw out → Ws w' →
      Key (w ++ 34 :: (raw ++ 34 :: w'))

variable {s rest : Bytes}

/-- What is skipped is white space. -/
theorem skipWs_split (s : Bytes) : ∃ w, Ws w ∧ s = w ++ skipWs s := by
  induction s with
  | nil => exact ⟨[], by simp [Ws], rfl⟩
  | cons c s ih =>
    obtain ⟨w, hw, hs⟩ := ih
    rw [skipWs]
    split
    · next hc =>
      simp only [isSpace, Bool.or_eq_true, decide_eq_true_eq] at hc
      refine ⟨c :: w, ?_, by rw [List.cons_append, ← hs]⟩
      intro d hd
      obtain rfl | hd := List.mem_cons.mp hd
      · tauto
      · exact hw d hd
    · exact ⟨[], by simp [Ws], rfl⟩

theorem ws_append {w w' : Bytes} (h : Ws w) (h' : Ws w') : Ws (w ++ w') := by
  intro c hc
  obtain hc | hc := List.mem_append.mp hc
  · exact h c hc
  · exact h' c hc

/-- White space in front of the rest of an array belongs to it. -/
theorem Spells.ws_elements {w t : Bytes} (hw : Ws w) (h : Spells .elements t) :
    Spells .elements (w ++ t) := by
  cases h with
  | lastElement hw₁ ht hw' =>
    rw [← List.append_assoc]
    exact .lastElement (ws_append hw hw₁) ht hw'
  | element hw₁ ht hw' hu =>
    rw [← List.append_assoc]
    exact .element (ws_append hw hw₁) ht hw' hu

theorem Spells.ws_members {w t : Bytes} (hw : Ws w) (h : Spells .members t) :
    Spells .members (w ++ t) := by
  cases h with
  | lastMember hw₀ hraw hw₁ hw₂ ht hw' =>
    rw [← List.append_assoc]
    exact .lastMember (ws_append hw hw₀) hraw hw₁ hw₂ ht hw'
  | member hw₀ hraw hw₁ hw₂ ht hw' hu =>
    rw [← List.append_assoc]
    exact .member (ws_append hw hw₀) hraw hw₁ hw₂ ht hw' hu

/-- A byte found after white space. -/
theorem consume_split {c : UInt8} {t : Bytes} (h : consume c (skipWs s) = some t) :
    ∃ w, Ws w ∧ s = w ++ c :: t := by
  obtain ⟨w, hw, hs⟩ := skipWs_split s
  rw [JsonCursor.consume_suffix h] at hs
  exact ⟨w, hw, hs⟩

theorem consume_append {w : Bytes} (h : Ws w) {c : UInt8} (hc : isSpace c = false) (t : Bytes) :
    consume c (skipWs (w ++ c :: t)) = some t := by
  rw [skipWs_append h, skipWs_cons c t hc, consume_same]

theorem digits_takeWhile (s : Bytes) : Digits (s.takeWhile isDigit) :=
  List.all_eq_true.mp List.all_takeWhile

theorem scanDigits_split (push : β → Nat → β) (acc : β) (s : Bytes) :
    ∃ ds, s = ds ++ (scanDigits push acc s).2 ∧ Digits ds ∧ ds = s.takeWhile isDigit := by
  refine ⟨_, ?_, digits_takeWhile s, rfl⟩
  rw [JsonCursor.scanDigits_eq]
  exact List.takeWhile_append_dropWhile.symm

theorem fractionPart_split (d : Magnitude) (s : Bytes) :
    ∃ frac, s = frac ++ (fractionPart d s).2 ∧ Fraction frac := by
  cases s with
  | nil => exact ⟨[], rfl, .none⟩
  | cons c s =>
    rw [JsonCursor.fractionPart_cons]
    split
    · next hc =>
      obtain ⟨ds, hs, hds, -⟩ := scanDigits_split fractionPush (d, tenth) s
      subst hc
      exact ⟨46 :: ds, congrArg (46 :: ·) hs, .digits hds⟩
    · exact ⟨[], rfl, .none⟩

theorem exponentSign_split (s : Bytes) : ∃ sign, s = sign ++ (exponentSign s).2 ∧
    (sign = [] ∨ sign = [43] ∨ sign = [45]) := by
  rw [exponentSign.eq_def]
  split
  · exact ⟨[43], rfl, .inr (.inl rfl)⟩
  · exact ⟨[45], rfl, .inr (.inr rfl)⟩
  · exact ⟨[], rfl, .inl rfl⟩

/-- An exponent is spelt, or there is none. -/
theorem exponentPart_split (d : Magnitude) (s : Bytes) :
    ∃ expo, s = expo ++ (exponentPart d s).2 ∧ Exponent expo := by
  cases s with
  | nil => exact ⟨[], rfl, .none⟩
  | cons c s =>
    rw [exponentPart]
    split
    · next hc =>
      obtain ⟨sign, hs, hsign⟩ := exponentSign_split s
      obtain ⟨ds, ht, hds, -⟩ := scanDigits_split exponentPush 0 (exponentSign s).2
      refine ⟨c :: (sign ++ ds), ?_, .digits hc hsign hds⟩
      rw [List.cons_append, List.append_assoc, ← ht, ← hs]
    · exact ⟨[], rfl, .none⟩

/-- What is read as a number spells one. -/
theorem parseNumber_split {v : JValue} (h : parseNumber s = some (v, rest)) :
    ∃ t, s = t ++ rest ∧ Number t := by
  obtain ⟨minus, hs, hminus⟩ : ∃ minus, s = minus ++ (if s.head? = some 45 then s.tail else s) ∧
      (minus = [] ∨ minus = [45]) := by
    cases s with
    | nil => exact ⟨[], rfl, .inl rfl⟩
    | cons c s =>
      by_cases hc : c = 45
      · exact ⟨[45], by simp [hc], .inr rfl⟩
      · exact ⟨[], by simp [hc], .inl rfl⟩
  simp only [parseNumber] at h
  generalize (if s.head? = some 45 then s.tail else s) = u at hs h
  cases u with
  | nil => cases h
  | cons c u =>
    dsimp only at h
    split at h
    · next hc =>
      obtain ⟨ds, hu, hds, htake⟩ := scanDigits_split IntPart.push ⟨0, none⟩ (c :: u)
      generalize scanDigits IntPart.push ⟨0, none⟩ (c :: u) = r at hu h
      obtain ⟨frac, hfrac, hfraction⟩ := fractionPart_split (r.1.big.getD (ofNat r.1.ival)) r.2
      generalize fractionPart (r.1.big.getD (ofNat r.1.ival)) r.2 = q at hfrac h
      obtain ⟨expo, hexpo, hexponent⟩ :=
        exponentPart_split (q.1.getD (r.1.big.getD (ofNat r.1.ival))) q.2
      generalize exponentPart (q.1.getD (r.1.big.getD (ofNat r.1.ival))) q.2 = p at hexpo h
      have hrest : rest = p.2 := by split at h <;> cases h <;> rfl
      refine ⟨minus ++ (ds ++ (frac ++ expo)), ?_, .digits hminus ?_ hds hfraction hexponent⟩
      · rw [hs, hu, hfrac, hexpo, hrest]
        simp
      · rw [htake, List.takeWhile_cons_of_pos hc]
        exact List.cons_ne_nil _ _
    · cases h

theorem literal_split {word : Bytes} {u v : JValue} (h : literal word u s = some (v, rest)) :
    s = word ++ rest := by
  rw [literal] at h
  split at h
  · next hprefix =>
    cases h
    exact (List.prefix_iff_eq_append.mp (List.isPrefixOf_iff_prefix.mp hprefix)).symm
  · cases h

/-- What is read as a value that nests nothing spells one. -/
theorem leaf_split {c : UInt8} {v : JValue} (h : leaf c s = some (v, rest)) :
    ∃ t, c :: s = t ++ rest ∧ Spells .value t := by
  rw [leaf] at h
  split_ifs at h with hquote
  · obtain ⟨⟨out, u⟩, hstring, he⟩ := Option.map_eq_some_iff.mp h
    cases he
    obtain ⟨raw, rfl, hraw⟩ := parseString_spelt hstring
    exact ⟨34 :: (raw ++ [34]), by simp [hquote], .string hraw⟩
  · exact ⟨_, literal_split h, .true⟩
  · exact ⟨_, literal_split h, .false⟩
  · exact ⟨_, literal_split h, .null⟩
  · obtain ⟨t, ht, hnumber⟩ := parseNumber_split h
    exact ⟨t, ht, .number hnumber⟩

/-- By induction on the fuel: what a value, a rest of an object and a rest of an array were
read from. -/
theorem parse_split (fuel : Nat) :
    (∀ s v rest, parseValue fuel s = some (v, rest) →
      ∃ w t, s = w ++ (t ++ rest) ∧ Ws w ∧ Spells .value t) ∧
    (∀ keys map s v rest, parseMembers fuel keys map s = some (v, rest) →
      ∃ t, s = t ++ rest ∧ Spells .members t) ∧
    (∀ arr s v rest, parseElements fuel arr s = some (v, rest) →
      ∃ t, s = t ++ rest ∧ Spells .elements t) := by
  induction fuel with
  | zero => simp [parseValue, parseMembers, parseElements]
  | succ fuel ih =>
    obtain ⟨hvalue, hmembers, helements⟩ := ih
    refine ⟨fun s v rest h => ?_, fun keys map s v rest h => ?_, fun arr s v rest h => ?_⟩
    · obtain ⟨c, u, hs, h⟩ := parseValue_some.mp h
      obtain ⟨w, hw, hsplit⟩ := skipWs_split s
      obtain ⟨w', hw', hu⟩ := skipWs_split u
      rw [hs] at hsplit
      obtain ⟨rfl, h⟩ | ⟨rfl, h⟩ | ⟨-, -, h⟩ := h
      · obtain ⟨hclose, -⟩ | ⟨-, h⟩ := h
        · rw [JsonCursor.consume_suffix hclose] at hu
          exact ⟨w, _, by rw [hsplit, hu]; simp, hw, .emptyObject hw'⟩
        · obtain ⟨t, ht, hspells⟩ := hmembers _ _ _ _ _ h
          rw [ht] at hu
          exact ⟨w, _, by rw [hsplit, hu]; simp, hw, .object (hspells.ws_members hw')⟩
      · obtain ⟨hclose, -⟩ | ⟨-, h⟩ := h
        · rw [JsonCursor.consume_suffix hclose] at hu
          exact ⟨w, _, by rw [hsplit, hu]; simp, hw, .emptyArray hw'⟩
        · obtain ⟨t, ht, hspells⟩ := helements _ _ _ _ h
          rw [ht] at hu
          exact ⟨w, _, by rw [hsplit, hu]; simp, hw, .array (hspells.ws_elements hw')⟩
      · obtain ⟨t, ht, hspells⟩ := leaf_split h
        exact ⟨w, t, by rw [hsplit, ht], hw, hspells⟩
    · obtain ⟨s₁, key, s₂, s₃, val, s₄, h₁, h₂, h₃, h₄, hnext⟩ := parseMembers_some.mp h
      obtain ⟨w, hw, hs⟩ := consume_split h₁
      obtain ⟨raw, hs₁, hraw⟩ := parseString_spelt h₂
      obtain ⟨w₁, hw₁, hs₂⟩ := consume_split h₃
      obtain ⟨w₂, hw₂, hs₃⟩ := skipWs_split s₃
      obtain ⟨w₃, t, ht, hw₃, hspells⟩ := hvalue _ _ _ h₄
      have hw₂₃ := ws_append hw₂ hw₃
      rw [ht] at hs₃
      obtain ⟨hclose, -⟩ | ⟨-, s₅, hcomma, hmore⟩ := hnext
      · obtain ⟨w', hw', hs₄⟩ := consume_split hclose
        exact ⟨_, by rw [hs, hs₁, hs₂, hs₃, hs₄]; simp,
          .lastMember hw hraw hw₁ hw₂₃ hspells hw'⟩
      · obtain ⟨w', hw', hs₄⟩ := consume_split hcomma
        obtain ⟨u, hs₅, hrest⟩ := hmembers _ _ _ _ _ hmore
        exact ⟨_, by rw [hs, hs₁, hs₂, hs₃, hs₄, hs₅]; simp,
          .member hw hraw hw₁ hw₂₃ hspells hw' hrest⟩
    · obtain ⟨elem, s₁, h₁, hnext⟩ := parseElements_some.mp h
      obtain ⟨w, hw, hs⟩ := skipWs_split s
      obtain ⟨w₁, t, ht, hw₁, hspells⟩ := hvalue _ _ _ h₁
      rw [ht] at hs
      obtain ⟨hclose, -⟩ | ⟨-, s₂, hcomma, hmore⟩ := hnext
      · obtain ⟨w', hw', hs₁⟩ := consume_split hclose
        exact ⟨_, by rw [hs, hs₁]; simp, .lastElement (ws_append hw hw₁) hspells hw'⟩
      · obtain ⟨w', hw', hs₁⟩ := consume_split hcomma
        obtain ⟨u, hs₂, hrest⟩ := helements _ _ _ _ hmore
        exact ⟨_, by rw [hs, hs₁, hs₂]; simp, .element (ws_append hw hw₁) hspells hw' hrest⟩

/-- What may follow a value: nothing, white space, a comma or a closing bracket. -/
def Ends (rest : Bytes) : Prop :=
  ∀ c s, rest = c :: s → isSpace c = true ∨ c = 44 ∨ c = 93 ∨ c = 125

theorem ends_closed {w : Bytes} (h : Ws w) {c : UInt8} (hc : c = 44 ∨ c = 93 ∨ c = 125)
    (s : Bytes) : Ends (w ++ c :: s) := by
  rintro d u he
  cases w with
  | nil =>
    cases he
    exact .inr hc
  | cons b w =>
    cases he
    left
    obtain rfl | rfl | rfl | rfl := h _ List.mem_cons_self <;> rfl

theorem ends_ws {w : Bytes} (h : Ws w) : Ends w := by
  rintro c u rfl
  left
  obtain rfl | rfl | rfl | rfl := h _ List.mem_cons_self <;> rfl

/-- No byte that ends a value continues one. -/
theorem Ends.other (h : Ends rest) {c : UInt8} {s : Bytes} (hs : rest = c :: s) :
    isDigit c = false ∧ c ≠ 46 ∧ c ≠ 101 ∧ c ≠ 69 ∧ c ≠ 43 ∧ c ≠ 45 := by
  have hspace : isSpace c = true → c = 32 ∨ c = 9 ∨ c = 10 ∨ c = 13 := by
    intro hc
    simp only [isSpace, Bool.or_eq_true, decide_eq_true_eq] at hc
    tauto
  obtain hc | rfl | rfl | rfl := h c s hs
  · obtain rfl | rfl | rfl | rfl := hspace hc <;> decide
  all_goals decide

/-- The parser takes the text for the value wherever a value may end. -/
def Taken (t : Bytes) (v : JValue) : Prop :=
  ∀ fuel rest, t.length ≤ fuel → Ends rest → parseValue fuel (t ++ rest) = some (v, rest)

theorem taken {t : Bytes} {v : JValue} (h : Reads t v) : Taken t v := by
  intro fuel rest hf hr
  apply h fuel rest hf
  intro c s hs
  obtain ⟨hdigit, hpoint, he, hE, -, -⟩ := hr.other hs
  exact ⟨hdigit, hpoint, he, hE⟩

/-- A fraction is read to its end. -/
theorem fractionPart_append (d : Magnitude) {frac : Bytes} (h : Fraction frac)
    (hr : ∀ c s, rest = c :: s → isDigit c = false ∧ c ≠ 46) :
    fractionPart d (frac ++ rest) = ((fractionPart d frac).1, rest) := by
  cases h with
  | none =>
    cases rest with
    | nil => rfl
    | cons c s =>
      rw [List.nil_append, JsonCursor.fractionPart_cons, if_neg (hr c s rfl).2]
      rfl
  | @digits ds hds =>
    have hstop := scanDigits_append fractionPush (d, tenth) ds rest hds fun c s h => (hr c s h).1
    have halone := scanDigits_append fractionPush (d, tenth) ds [] hds (by simp)
    rw [List.append_nil] at halone
    rw [List.cons_append, JsonCursor.fractionPart_cons, JsonCursor.fractionPart_cons, hstop, halone]
    rfl

theorem exponentSign_append {sign : Bytes} (h : sign = [] ∨ sign = [43] ∨ sign = [45])
    (hr : ∀ c s, rest = c :: s → c ≠ 43 ∧ c ≠ 45) :
    exponentSign (sign ++ rest) = ((exponentSign sign).1, rest) := by
  obtain rfl | rfl | rfl := h
  · rw [List.nil_append, exponentSign.eq_def]
    split
    · next s => exact absurd rfl (hr 43 s rfl).1
    · next s => exact absurd rfl (hr 45 s rfl).2
    · rfl
  · rfl
  · rfl

/-- An exponent is read to its end. -/
theorem exponentPart_append (d : Magnitude) {expo : Bytes} (h : Exponent expo)
    (hr : Ends rest) : exponentPart d (expo ++ rest) = ((exponentPart d expo).1, rest) := by
  cases h with
  | none =>
    cases rest with
    | nil => rfl
    | cons c s =>
      obtain ⟨-, -, he, hE, -, -⟩ := hr.other rfl
      rw [List.nil_append, exponentPart, if_neg (not_or.mpr ⟨he, hE⟩)]
      rfl
  | @digits e sign ds he hsign hds =>
    have hstop := scanDigits_append exponentPush 0 ds rest hds fun c s h => (hr.other h).1
    have halone := scanDigits_append exponentPush 0 ds [] hds (by simp)
    have hplain : ∀ {r : Bytes}, Ends r → ∀ c s, ds ++ r = c :: s → c ≠ 43 ∧ c ≠ 45 := by
      rintro r hr c s hs
      cases ds with
      | nil =>
        obtain ⟨-, -, -, -, hplus, hminus⟩ := hr.other hs
        exact ⟨hplus, hminus⟩
      | cons b ds =>
        cases hs
        have hb := hds c List.mem_cons_self
        constructor <;> rintro rfl <;> exact absurd hb (by decide)
    have hsigned := exponentSign_append hsign (hplain hr)
    have hlone := exponentSign_append hsign (hplain (r := []) (by rintro c s he; cases he))
    rw [List.append_nil] at halone hlone
    rw [List.cons_append, List.append_assoc, exponentPart, if_pos he, exponentPart, if_pos he,
      hsigned, hlone]
    dsimp only
    rw [hstop, halone]

/-- What the parts of a number make. -/
def numberValue (neg : Bool) (acc : IntPart) (frac scaled : Option Magnitude) : JValue :=
  match acc.big, frac, scaled with
  | none, none, none => .int (if neg then -Int64.ofNat acc.ival else Int64.ofNat acc.ival)
  | _, _, _ => .double neg (scaled.getD (frac.getD (acc.big.getD (ofNat acc.ival))))

/-- A number is read up to its end. -/
theorem parseNumber_append {t : Bytes} (h : Number t) :
    ∃ v, ∀ rest, Ends rest → parseNumber (t ++ rest) = some (v, rest) := by
  cases h with
  | @digits minus ds frac expo hminus hne hds hfrac hexpo =>
    obtain ⟨c, ds', rfl⟩ := List.exists_cons_of_ne_nil hne
    have hc := hds c List.mem_cons_self
    have hunsigned : c ≠ 45 := by
      rintro rfl
      exact absurd hc (by decide)
    have hscan : ∀ rest, Ends rest →
        scanDigits IntPart.push ⟨0, none⟩ (c :: ds' ++ (frac ++ (expo ++ rest))) =
          ((c :: ds').foldl (fun acc c => IntPart.push acc (digitValue c)) ⟨0, none⟩,
            frac ++ (expo ++ rest)) := by
      intro rest hr
      apply scanDigits_append _ _ _ _ hds
      rintro b s hs
      cases hfrac with
      | none =>
        cases hexpo with
        | none => exact (hr.other hs).1
        | digits he _ _ =>
          cases hs
          obtain rfl | rfl := he <;> decide
      | digits _ =>
        cases hs
        decide
    generalize (c :: ds').foldl (fun acc c => IntPart.push acc (digitValue c)) ⟨0, none⟩ = acc
      at hscan
    have hfraction : ∀ rest, Ends rest → fractionPart (acc.big.getD (ofNat acc.ival))
        (frac ++ (expo ++ rest)) =
          ((fractionPart (acc.big.getD (ofNat acc.ival)) frac).1, expo ++ rest) := by
      intro rest hr
      apply fractionPart_append _ hfrac
      rintro b s hs
      cases hexpo with
      | none =>
        obtain ⟨hdigit, hpoint, -⟩ := hr.other hs
        exact ⟨hdigit, hpoint⟩
      | digits he _ _ =>
        cases hs
        obtain rfl | rfl := he <;> decide
    generalize (fractionPart (acc.big.getD (ofNat acc.ival)) frac).1 = q at hfraction
    have hexponent := fun (rest : Bytes) (hr : Ends rest) => exponentPart_append
      (q.getD (acc.big.getD (ofNat acc.ival))) hexpo hr
    generalize (exponentPart (q.getD (acc.big.getD (ofNat acc.ival))) expo).1 = scaled at hexponent
    have hread : ∀ (neg : Bool) (rest : Bytes), Ends rest →
        parseNumber ((if neg then [45] else []) ++ (c :: ds' ++ (frac ++ (expo ++ rest)))) =
          some (numberValue neg acc q scaled, rest) := by
      intro neg rest hr
      have hdigits := hscan rest hr
      rw [List.cons_append] at hdigits
      cases neg
      all_goals
        simp only [parseNumber, Bool.false_eq_true, if_false, if_true, List.nil_append,
          List.cons_append, List.head?_cons, Option.some.injEq, hunsigned, List.tail_cons, hc,
          hdigits, hfraction rest hr, hexponent rest hr, numberValue]
        cases acc.big <;> cases q <;> cases scaled <;> simp
    obtain ⟨neg, rfl⟩ : ∃ neg : Bool, minus = if neg then [45] else [] := by
      obtain rfl | rfl := hminus
      · exact ⟨false, rfl⟩
      · exact ⟨true, rfl⟩
    refine ⟨numberValue neg acc q scaled, fun rest hr => ?_⟩
    have hwhole := hread neg rest hr
    simp only [List.append_assoc] at hwhole ⊢
    exact hwhole

/-- A spelt number is read wherever it may end. -/
theorem taken_number {t : Bytes} (h : Number t) : ∃ v, Taken t v := by
  obtain ⟨v, hread⟩ := parseNumber_append h
  refine ⟨v, ?_⟩
  have hfirst : ∃ c u, t = c :: u ∧ (c = 45 ∨ isDigit c = true) := by
    cases h with
    | @digits minus ds frac expo hminus hne hds _ _ =>
      obtain ⟨c, ds', rfl⟩ := List.exists_cons_of_ne_nil hne
      obtain rfl | rfl := hminus
      · exact ⟨c, _, rfl, .inr (hds c List.mem_cons_self)⟩
      · exact ⟨45, _, rfl, .inl rfl⟩
  obtain ⟨c, u, rfl, hc⟩ := hfirst
  obtain ⟨hspace, h34, h123, h91, h116, h102, h110⟩ : isSpace c = false ∧ c ≠ 34 ∧ c ≠ 123 ∧
      c ≠ 91 ∧ c ≠ 116 ∧ c ≠ 102 ∧ c ≠ 110 := by
    obtain rfl | hdigit := hc
    · decide
    · exact (digit_ne c hdigit).2
  intro fuel rest hf hr
  obtain ⟨fuel, rfl⟩ : ∃ n, fuel = n + 1 := ⟨fuel - 1, by rw [List.length_cons] at hf; omega⟩
  rw [List.cons_append, parseValue_cons fuel (skipWs_cons c _ hspace), if_neg h123, if_neg h91,
    leaf, if_neg h34, if_neg h116, if_neg h102, if_neg h110, if_pos hc]
  exact hread rest hr

theorem taken_word {word : Bytes} {v : JValue} (hne : word ≠ [])
    (hstart : ∀ fuel rest, parseValue (fuel + 1) (word ++ rest) = literal word v (word ++ rest)) :
    Taken word v := by
  intro fuel rest hf _
  have hpos := List.length_pos_of_ne_nil hne
  obtain ⟨fuel, rfl⟩ : ∃ n, fuel = n + 1 := ⟨fuel - 1, by omega⟩
  have hprefix : word.isPrefixOf (word ++ rest) = true :=
    List.isPrefixOf_iff_prefix.mpr (List.prefix_append word rest)
  rw [hstart, literal, if_pos hprefix, List.drop_left]

theorem taken_string {raw out : Bytes} (h : Spelt raw out) :
    Taken (34 :: (raw ++ [34])) (.string out) := by
  intro fuel rest hf _
  obtain ⟨fuel, rfl⟩ : ∃ n, fuel = n + 1 := ⟨fuel - 1, by rw [List.length_cons] at hf; omega⟩
  have hread := h.parse rest
  rw [List.cons_append, List.append_assoc, List.singleton_append,
    parseValue_cons fuel (skipWs_cons 34 _ (by decide)), if_neg (by decide),
    if_neg (by decide), leaf, if_pos rfl, hread]
  rfl

/-- What the parser makes of a text of each piece. -/
def Read : Piece → Bytes → Prop
  | .value, t => ∃ v, Taken t v
  | .elements, t => ∀ arr, ∃ v, ∀ fuel rest, t.length ≤ fuel →
      parseElements fuel arr (t ++ rest) = some (v, rest)
  | .members, t => ∀ keys map, ∃ v, ∀ fuel rest, t.length ≤ fuel →
      parseMembers fuel keys map (t ++ rest) = some (v, rest)

/-- By induction on the spelling: what is spelt is read. -/
theorem spells_read {x : Piece} {t : Bytes} (h : Spells x t) : Read x t := by
  induction h with
  | null => exact ⟨_, taken_word (v := .null) (by decide) fun _ _ => rfl⟩
  | true => exact ⟨_, taken_word (v := .bool Bool.true) (by decide) fun _ _ => rfl⟩
  | false => exact ⟨_, taken_word (v := .bool Bool.false) (by decide) fun _ _ => rfl⟩
  | number hn => exact taken_number hn
  | string hraw => exact ⟨_, taken_string hraw⟩
  | emptyArray hw => exact ⟨_, taken (reads_emptyArray hw)⟩
  | array _ ih =>
    obtain ⟨v, hloop⟩ := ih []
    exact ⟨v, taken (reads_array hloop)⟩
  | emptyObject hw => exact ⟨_, taken (reads_emptyObject hw)⟩
  | object _ ih =>
    obtain ⟨v, hloop⟩ := ih [] []
    exact ⟨v, taken (reads_object hloop)⟩
  | @lastElement w t w' hw _ hw' ih =>
    obtain ⟨v, htaken⟩ := ih
    intro arr
    refine ⟨.array (arr ++ [v]), fun fuel rest hf => ?_⟩
    simp only [List.length_append, List.length_cons] at hf
    obtain ⟨fuel, rfl⟩ : ∃ n, fuel = n + 1 := ⟨fuel - 1, by omega⟩
    have hv := htaken fuel _ (by omega) (ends_closed hw' (.inr (.inl rfl)) rest)
    simpa using parseElements_step hw hv hw' arr (.inl rfl)
  | @element w t w' u hw _ hw' _ ih ihs =>
    obtain ⟨v, htaken⟩ := ih
    intro arr
    obtain ⟨vs, hloop⟩ := ihs (arr ++ [v])
    refine ⟨vs, fun fuel rest hf => ?_⟩
    simp only [List.length_append, List.length_cons] at hf
    obtain ⟨fuel, rfl⟩ : ∃ n, fuel = n + 1 := ⟨fuel - 1, by omega⟩
    have hv := htaken fuel _ (by omega) (ends_closed hw' (.inl rfl) (u ++ rest))
    have hstep := parseElements_step hw hv hw' arr (.inr rfl)
    rw [if_neg (by decide), hloop fuel rest (by omega)] at hstep
    simpa using hstep
  | @lastMember w raw out w₁ w₂ t w' hw hraw hw₁ hw₂ _ hw' ih =>
    obtain ⟨v, htaken⟩ := ih
    intro keys map
    refine ⟨.object (if (map.lookup out).isSome then keys else keys ++ [out]) (setMember map out v),
      fun fuel rest hf => ?_⟩
    simp only [List.length_append, List.length_cons] at hf
    obtain ⟨fuel, rfl⟩ : ∃ n, fuel = n + 1 := ⟨fuel - 1, by omega⟩
    have hv := htaken fuel _ (by omega) (ends_closed hw' (.inr (.inr rfl)) rest)
    have hstep := parseMembers_step hw hraw.parse hw₁ hw₂ hv hw' keys map (.inl rfl)
    simpa using hstep
  | @member w raw out w₁ w₂ t w' u hw hraw hw₁ hw₂ _ hw' _ ih ihs =>
    obtain ⟨v, htaken⟩ := ih
    intro keys map
    obtain ⟨vs, hloop⟩ := ihs (if (map.lookup out).isSome then keys else keys ++ [out])
      (setMember map out v)
    refine ⟨vs, fun fuel rest hf => ?_⟩
    simp only [List.length_append, List.length_cons] at hf
    obtain ⟨fuel, rfl⟩ : ∃ n, fuel = n + 1 := ⟨fuel - 1, by omega⟩
    have hv := htaken fuel _ (by omega) (ends_closed hw' (.inl rfl) (u ++ rest))
    have hstep := parseMembers_step hw hraw.parse hw₁ hw₂ hv hw' keys map (.inr rfl)
    rw [if_neg (by decide), hloop fuel rest (by omega)] at hstep
    simpa using hstep

/-- A value stands before a comma exactly where it is read up to one. -/
theorem text_iff {t : Bytes} {fuel : Nat} (hf : s.length ≤ fuel) :
    (∃ x, Text x ∧ s = x ++ 44 :: t) ↔ ∃ v u,
      parseValue fuel (skipWs s) = some (v, u) ∧ consume 44 (skipWs u) = some t := by
  constructor
  · rintro ⟨_, ⟨hw, hspells, hw'⟩, rfl⟩
    obtain ⟨v, htaken⟩ := spells_read hspells
    simp only [List.length_append, List.length_cons] at hf
    refine ⟨v, _, ?_, consume_append hw' (by decide) t⟩
    rw [List.append_assoc, List.append_assoc, skipWs_append hw, parseValue_skipWs]
    exact htaken fuel _ (by omega) (ends_closed hw' (.inl rfl) t)
  · rintro ⟨v, u, hv, hcomma⟩
    obtain ⟨w, hw, hs⟩ := skipWs_split s
    obtain ⟨w₁, x, hx, hw₁, hspells⟩ := (parse_split fuel).1 _ _ _ hv
    obtain ⟨w', hw', hu⟩ := consume_split hcomma
    refine ⟨_, .value (ws_append hw hw₁) hspells hw', ?_⟩
    rw [hs, hx, hu]
    simp

/-- The same for the name of a member and its colon. -/
theorem key_iff {t : Bytes} : (∃ k, Key k ∧ s = k ++ 58 :: t) ↔ ∃ s₁ key s₂,
    consume 34 (skipWs s) = some s₁ ∧ parseString s₁ = some (key, s₂) ∧
      consume 58 (skipWs s₂) = some t := by
  constructor
  · rintro ⟨_, ⟨hw, hraw, hw'⟩, rfl⟩
    refine ⟨_, _, _, ?_, hraw.parse _, consume_append hw' (by decide) t⟩
    rw [List.append_assoc, List.cons_append, List.append_assoc, List.cons_append]
    exact consume_append hw (by decide) _
  · rintro ⟨s₁, key, s₂, hquote, hkey, hcolon⟩
    obtain ⟨w, hw, hs⟩ := consume_split hquote
    obtain ⟨raw, hs₁, hraw⟩ := parseString_spelt hkey
    obtain ⟨w', hw', hs₂⟩ := consume_split hcolon
    refine ⟨_, .literal hw hraw hw', ?_⟩
    rw [hs, hs₁, hs₂]
    simp

/-- The accepted texts are these. -/
theorem accepted_iff (src : Bytes) : (∃ j, Json.parse src = .ok j) ↔ Text src := by
  constructor
  · rintro ⟨j, hj⟩
    rw [Json.parse] at hj
    split at hj
    · cases hj
    · cases hv : parseValue src.length src with
      | none => simp [hv] at hj
      | some r =>
        obtain ⟨v, rest⟩ := r
        simp only [hv] at hj
        split at hj
        · next hend =>
          obtain ⟨w, t, hs, hw, hspells⟩ := (parse_split _).1 _ _ _ hv
          obtain ⟨w', hw', hrest⟩ := skipWs_split rest
          rw [hend, List.append_nil] at hrest
          rw [hs, hrest]
          exact .value hw hspells hw'
        · cases hj
  · rintro (@⟨w, t, w', hw, hspells, hw'⟩)
    obtain ⟨v, htaken⟩ := spells_read hspells
    have hv : parseValue (w ++ (t ++ w')).length (w ++ (t ++ w')) = some (v, w') := by
      rw [← parseValue_skipWs, skipWs_append hw, parseValue_skipWs]
      exact htaken _ w' (by simp; omega) (ends_ws hw')
    have hrest : skipWs w' = [] := by simpa [skipWs] using skipWs_append hw' []
    have hne : w ++ (t ++ w') ≠ [] := by
      intro he
      rw [he] at hv
      cases hv
    refine ⟨v, ?_⟩
    rw [Json.parse, if_neg hne, hv]
    simp only [hrest, if_true]

end JsonSpelling
end Keylight
