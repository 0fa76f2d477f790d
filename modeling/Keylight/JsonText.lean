import Keylight.Json

/-!
# JSON text the client writes, and reading it back

The writer escapes five bytes and copies every other one, valid UTF-8 or not;
the reader undoes exactly that. `Reads t v` says that the parser takes the text
`t` for the value `v` wherever the next byte cannot continue a number.
-/
namespace Keylight
open Bytes Binary64 JValue

def escapeByte (c : UInt8) : Bytes :=
  if c = 34 then [92, 34]
  else if c = 92 then [92, 92]
  else if c = 10 then [92, 110]
  else if c = 13 then [92, 114]
  else if c = 9 then [92, 116]
  else [c]

/-- `json_str` -/
def jsonStr (s : Bytes) : Bytes := 34 :: (s.flatMap escapeByte ++ [34])

def joinComma : List Bytes → Bytes
  | [] => []
  | [x] => x
  | x :: y :: xs => x ++ 44 :: joinComma (y :: xs)

def jsonMember (key text : Bytes) : Bytes := jsonStr key ++ 58 :: text

def jsonObject (members : List Bytes) : Bytes := 123 :: (joinComma members ++ [125])

def jsonArray (elements : List Bytes) : Bytes := 91 :: (joinComma elements ++ [93])

/-- What may follow a number without becoming part of it. -/
def NumEnd (rest : Bytes) : Prop :=
  ∀ c s, rest = c :: s → isDigit c = false ∧ c ≠ 46 ∧ c ≠ 101 ∧ c ≠ 69

theorem numEnd_nil : NumEnd [] := by intro c s h; cases h

theorem numEnd_cons (c : UInt8) (s : Bytes)
    (h : isDigit c = false ∧ c ≠ 46 ∧ c ≠ 101 ∧ c ≠ 69) : NumEnd (c :: s) := by
  intro d t he
  cases he
  exact h

def Reads (t : Bytes) (v : JValue) : Prop :=
  ∀ fuel rest, t.length ≤ fuel → NumEnd rest → parseValue fuel (t ++ rest) = some (v, rest)

theorem Reads.length_pos {t : Bytes} {v : JValue} (h : Reads t v) : 0 < t.length := by
  by_contra hn
  have h₀ := h 0 [] (by omega) numEnd_nil
  simp [parseValue] at h₀

/-- A text the parser reads to the end is accepted with that value. -/
theorem Reads.parse {t : Bytes} {v : JValue} (h : Reads t v) : Json.parse t = .ok v := by
  have hp := h.length_pos
  have hv := h t.length [] le_rfl numEnd_nil
  have hne : t ≠ [] := by intro he; simp [he] at hp
  simp only [List.append_nil] at hv
  simp [Json.parse, hne, hv, skipWs]

@[simp] theorem skipWs_cons (c : UInt8) (s : Bytes) (h : isSpace c = false) :
    skipWs (c :: s) = c :: s := by simp [skipWs, h]

@[simp] theorem consume_same (c : UInt8) (s : Bytes) : consume c (c :: s) = some s := by
  simp [consume]

theorem consume_other (c d : UInt8) (s : Bytes) (h : d ≠ c) : consume c (d :: s) = none := by
  simp [consume, h]

theorem parseString_quote (s : Bytes) : parseString (34 :: s) = some ([], s) := by
  rw [parseString.eq_def]
  simp

theorem parseString_escape (esc b : UInt8) (s : Bytes) (hu : esc ≠ 117)
    (h : unescape esc = some b) :
    parseString (92 :: esc :: s) = (parseString s).map fun (out, rest) => (b :: out, rest) := by
  rw [parseString.eq_def]
  simp [hu, h]

theorem parseString_plain (c : UInt8) (s : Bytes) (hq : c ≠ 34) (hb : c ≠ 92) :
    parseString (c :: s) = (parseString s).map fun (out, rest) => (c :: out, rest) := by
  rw [parseString.eq_def]
  simp [hq, hb]

theorem parseString_escapeByte (c : UInt8) (s : Bytes) :
    parseString (escapeByte c ++ s) =
      (parseString s).map fun (out, rest) => (c :: out, rest) := by
  unfold escapeByte
  split_ifs with h₁ h₂ h₃ h₄ h₅
  · subst h₁; exact parseString_escape 34 34 s (by decide) rfl
  · subst h₂; exact parseString_escape 92 92 s (by decide) rfl
  · subst h₃; exact parseString_escape 110 10 s (by decide) rfl
  · subst h₄; exact parseString_escape 114 13 s (by decide) rfl
  · subst h₅; exact parseString_escape 116 9 s (by decide) rfl
  · exact parseString_plain c s h₁ h₂

/-- The escaped bytes of any string, closed by a quote, read back as that string. -/
theorem parseString_escaped (s rest : Bytes) :
    parseString (s.flatMap escapeByte ++ 34 :: rest) = some (s, rest) := by
  induction s with
  | nil => exact parseString_quote rest
  | cons c s ih =>
    rw [List.flatMap_cons, List.append_assoc, parseString_escapeByte, ih]
    rfl

theorem reads_jsonStr (s : Bytes) : Reads (jsonStr s) (.string s) := by
  intro fuel rest hf _
  cases fuel with
  | zero => simp [jsonStr] at hf
  | succ fuel =>
    have h := parseString_escaped s rest
    simp [jsonStr, parseValue, skipWs_cons, isSpace, h]

/-- The two truth values are read back. -/
theorem reads_bool (b : Bool) : Reads (ascii (if b then "true" else "false")) (.bool b) := by
  intro fuel rest hf _
  cases b with
  | false =>
    have ha : ascii "false" = [102, 97, 108, 115, 101] := by decide
    cases fuel with
    | zero => simp [ha] at hf
    | succ fuel => simp [ha, parseValue, skipWs_cons, isSpace, literal]
  | true =>
    have ha : ascii "true" = [116, 114, 117, 101] := by decide
    cases fuel with
    | zero => simp [ha] at hf
    | succ fuel => simp [ha, parseValue, skipWs_cons, isSpace, literal]

theorem scanDigits_append (push : β → Nat → β) (acc : β) (ds rest : Bytes)
    (hd : ∀ c ∈ ds, isDigit c = true) (hr : ∀ c s, rest = c :: s → isDigit c = false) :
    scanDigits push acc (ds ++ rest) =
      (ds.foldl (fun b c => push b (digitValue c)) acc, rest) := by
  induction ds generalizing acc with
  | nil =>
    cases rest with
    | nil => rfl
    | cons c s => simp [scanDigits, hr c s rfl]
  | cons c ds ih =>
    have hc := hd c (by simp)
    simp [scanDigits, hc, ih (push acc (digitValue c)) (fun d hm => hd d (by simp [hm]))]

theorem fractionPart_numEnd (d : Magnitude) (rest : Bytes) (hr : NumEnd rest) :
    fractionPart d rest = (none, rest) := by
  cases rest with
  | nil => rfl
  | cons c s =>
    have hc := (hr c s rfl).2.1
    unfold fractionPart
    split
    · simp_all
    · rfl

theorem exponentPart_numEnd (d : Magnitude) (rest : Bytes) (hr : NumEnd rest) :
    exponentPart d rest = (none, rest) := by
  cases rest with
  | nil => rfl
  | cons c s => simp [exponentPart, (hr c s rfl).2.2.1, (hr c s rfl).2.2.2]

theorem foldl_digits_ge (ds : Bytes) (n : Nat) :
    n ≤ ds.foldl (fun n c => n * 10 + digitValue c) n := by
  induction ds generalizing n with
  | nil => exact le_rfl
  | cons c ds ih => exact le_trans (by omega) (ih (n * 10 + digitValue c))

/-- While the value stays in the int64 range no digit takes the double branch. -/
theorem foldl_intPart (ds : Bytes) (n : Nat)
    (h : ds.foldl (fun n c => n * 10 + digitValue c) n ≤ int64Max) :
    ds.foldl (fun acc c => IntPart.push acc (digitValue c)) ⟨n, none⟩ =
      ⟨ds.foldl (fun n c => n * 10 + digitValue c) n, none⟩ := by
  induction ds generalizing n with
  | nil => rfl
  | cons c ds ih =>
    have hle : n * 10 + digitValue c ≤ int64Max :=
      le_trans (foldl_digits_ge ds (n * 10 + digitValue c)) h
    have hpush : IntPart.push ⟨n, none⟩ (digitValue c) = ⟨n * 10 + digitValue c, none⟩ := by
      have hg : ¬ n > (int64Max - digitValue c) / 10 := by omega
      simp [IntPart.push, hg]
    simp only [List.foldl_cons, hpush]
    exact ih (n * 10 + digitValue c) h

theorem natDigits_head (n : Nat) :
    ∃ c ds, natDigits n = c :: ds ∧ isDigit c = true := by
  cases h : natDigits n with
  | nil => exact absurd h (natDigits_ne_nil n)
  | cons c ds => exact ⟨c, ds, rfl, natDigits_isDigit n c (by simp [h])⟩

theorem digit_ne (c : UInt8) (h : isDigit c = true) :
    c ≠ 45 ∧ isSpace c = false ∧ c ≠ 34 ∧ c ≠ 123 ∧ c ≠ 91 ∧ c ≠ 116 ∧ c ≠ 102 ∧ c ≠ 110 := by
  have hs : isSpace c = false := by
    rw [Bool.eq_false_iff]
    intro hs
    simp only [isSpace, Bool.or_eq_true, decide_eq_true_eq] at hs
    rcases hs with ((rfl | rfl) | rfl) | rfl <;> revert h <;> decide
  refine ⟨?_, hs, ?_, ?_, ?_, ?_, ?_, ?_⟩ <;> (rintro rfl; revert h; decide)

/-- A run of digits within the int64 range, with its sign, is an integer value. -/
theorem parseNumber_digits (neg : Bool) (ds rest : Bytes) (hne : ds ≠ [])
    (hd : ∀ c ∈ ds, isDigit c = true)
    (hle : ds.foldl (fun n c => n * 10 + digitValue c) 0 ≤ int64Max) (hr : NumEnd rest) :
    parseNumber ((if neg then [45] else []) ++ ds ++ rest) =
      some (.int (if neg then -Int64.ofNat (ds.foldl (fun n c => n * 10 + digitValue c) 0)
        else Int64.ofNat (ds.foldl (fun n c => n * 10 + digitValue c) 0)), rest) := by
  have hscan := scanDigits_append IntPart.push ⟨0, none⟩ ds rest hd fun c s h => (hr c s h).1
  rw [foldl_intPart ds 0 hle] at hscan
  cases ds with
  | nil => exact absurd rfl hne
  | cons c ds =>
    have hc := hd c (by simp)
    have hm := (digit_ne c hc).1
    cases neg <;>
      simp_all [parseNumber, fractionPart_numEnd _ rest hr, exponentPart_numEnd _ rest hr]

theorem parseNumber_natDigits (neg : Bool) (n : Nat) (rest : Bytes) (hn : n ≤ int64Max)
    (hr : NumEnd rest) :
    parseNumber ((if neg then [45] else []) ++ natDigits n ++ rest) =
      some (.int (if neg then -Int64.ofNat n else Int64.ofNat n), rest) := by
  have hval : (natDigits n).foldl (fun n c => n * 10 + digitValue c) 0 = n := natDigits_value n
  have h := parseNumber_digits neg (natDigits n) rest (natDigits_ne_nil n) (natDigits_isDigit n)
    (by rw [hval]; exact hn) hr
  rw [hval] at h
  exact h

/-- The one int64 whose magnitude does not fit: its text is read as a double. -/
theorem parseNumber_minValue (rest : Bytes) (hr : NumEnd rest) :
    parseNumber (decimal Int64.minValue.toInt ++ rest) =
      some (.double true (ofNat (2 ^ 63)), rest) := by
  have ht : decimal Int64.minValue.toInt = 45 :: natDigits (2 ^ 63) := by decide +kernel
  obtain ⟨c, ds, hds, hc⟩ := natDigits_head (2 ^ 63)
  have hscan := scanDigits_append IntPart.push ⟨0, none⟩ (natDigits (2 ^ 63)) rest
    (natDigits_isDigit (2 ^ 63)) fun c s h => (hr c s h).1
  have hacc : (natDigits (2 ^ 63)).foldl (fun acc c => IntPart.push acc (digitValue c)) ⟨0, none⟩ =
      ⟨922337203685477580, some (ofNat (2 ^ 63))⟩ := by decide +kernel
  rw [hacc, hds] at hscan
  rw [ht, hds]
  simp_all [parseNumber, fractionPart_numEnd _ rest hr, exponentPart_numEnd _ rest hr]

/-- The value an int64 is read back as. -/
def intValue (i : Int64) : JValue :=
  if i = Int64.minValue then .double true (ofNat (2 ^ 63)) else .int i

@[simp] theorem asInt_intValue (i : Int64) : JValue.asInt (intValue i) = i := by
  by_cases h : i = Int64.minValue
  · subst h; decide +kernel
  · simp [intValue, h, JValue.asInt]

theorem natAbs_toInt_le (i : Int64) (h : i ≠ Int64.minValue) : i.toInt.natAbs ≤ int64Max := by
  have hlo := Int64.le_toInt i
  have hhi := Int64.toInt_lt i
  have hne : i.toInt ≠ -2 ^ 63 := by
    intro he
    exact h (Int64.toInt_inj.mp (by rw [he]; decide))
  simp only [int64Max]
  omega

/-- A decimal is read back as the integer it writes. -/
theorem parseNumber_decimal (i : Int64) (rest : Bytes) (hr : NumEnd rest) :
    parseNumber (decimal i.toInt ++ rest) = some (intValue i, rest) := by
  by_cases hm : i = Int64.minValue
  · subst hm
    simpa [intValue] using parseNumber_minValue rest hr
  · have hle := natAbs_toInt_le i hm
    by_cases hneg : i.toInt < 0
    · have h := parseNumber_natDigits true i.toInt.natAbs rest hle hr
      have hi : -Int64.ofNat i.toInt.natAbs = i := by
        rw [← Int64.ofInt_eq_ofNat, Int64.neg_ofInt, Int.ofNat_natAbs_of_nonpos (by omega),
          Int.neg_neg, Int64.ofInt_toInt]
      simpa [decimal, hneg, intValue, hm, hi] using h
    · have h := parseNumber_natDigits false i.toInt.natAbs rest hle hr
      have hi : Int64.ofNat i.toInt.natAbs = i := by
        rw [← Int64.ofInt_eq_ofNat, Int.natAbs_of_nonneg (by omega), Int64.ofInt_toInt]
      simpa [decimal, hneg, intValue, hm, hi] using h

/-- The same, as a value of its own. -/
theorem reads_decimal (i : Int64) : Reads (decimal i.toInt) (intValue i) := by
  intro fuel rest hf hr
  have h := parseNumber_decimal i rest hr
  obtain ⟨c, ds, hds, hc⟩ := natDigits_head i.toInt.natAbs
  cases fuel with
  | zero =>
    unfold decimal at hf
    split_ifs at hf <;> simp [hds] at hf
  | succ fuel =>
    obtain ⟨hm, hs, h₁, h₂, h₃, h₄, h₅, h₆⟩ := digit_ne c hc
    unfold decimal at h ⊢
    split_ifs at h ⊢ with hneg
    · simp only [List.cons_append] at h ⊢
      simp [parseValue, skipWs_cons, isSpace, h]
    · simp only [hds, List.cons_append] at h ⊢
      simp [parseValue, skipWs_cons, hs, h₁, h₂, h₃, h₄, h₅, h₆, hc, h]

theorem skipWs_skipWs (s : Bytes) : skipWs (skipWs s) = skipWs s := by
  induction s with
  | nil => rfl
  | cons c s ih =>
    by_cases hc : isSpace c = true
    · simp [skipWs, hc, ih]
    · simp [skipWs, hc]

theorem parseValue_skipWs (fuel : Nat) (s : Bytes) :
    parseValue fuel (skipWs s) = parseValue fuel s := by
  cases fuel with
  | zero => simp [parseValue]
  | succ fuel => simp only [parseValue, skipWs_skipWs]

/-- A written value with the value it reads back as. -/
structure Written where
  text : Bytes
  value : JValue
  reads : Reads text value

structure Member extends Written where
  key : Bytes

def Member.render (m : Member) : Bytes := jsonMember m.key m.text

/-- A new key goes to the end. -/
theorem setMember_new (map : List (Bytes × JValue)) (key : Bytes) (v : JValue)
    (h : map.lookup key = none) : setMember map key v = map ++ [(key, v)] := by
  induction map with
  | nil => rfl
  | cons p map ih =>
    have hk : ¬ p.1 = key := by
      intro he
      simp [he] at h
    have ht : map.lookup key = none := by
      rw [List.lookup_eq_none_iff] at h ⊢
      intro q hq
      exact h q (.tail _ hq)
    simp [setMember, hk, ih ht]

theorem lookup_snoc_other (map : List (Bytes × JValue)) (key k : Bytes) (v : JValue)
    (h : map.lookup key = none) (hk : key ≠ k) : (map ++ [(k, v)]).lookup key = none := by
  have hb : (key == k) = false := by simpa using hk
  rw [List.lookup_append, h]
  simp [List.lookup_cons, hb]

/-- One member with a fresh key, up to the byte that follows its value. -/
theorem parseMembers_member (m : Member) (keys : List Bytes) (map : List (Bytes × JValue))
    (hnew : map.lookup m.key = none) (fuel : Nat) (c : UInt8) (s : Bytes)
    (hlen : m.text.length ≤ fuel) (hc : c = 125 ∨ c = 44) :
    parseMembers (fuel + 1) keys map (m.render ++ c :: s) =
      if c = 125 then some (.object (keys ++ [m.key]) (map ++ [(m.key, m.value)]), s)
      else parseMembers fuel (keys ++ [m.key]) (map ++ [(m.key, m.value)]) s := by
  have hend : NumEnd (c :: s) := by
    rcases hc with rfl | rfl <;> exact numEnd_cons _ _ (by decide)
  have hv := m.reads fuel (c :: s) hlen hend
  have hs := parseString_escaped m.key (58 :: (m.text ++ c :: s))
  rcases hc with rfl | rfl <;>
    simp [Member.render, jsonMember, jsonStr, parseMembers, skipWs_cons, isSpace, hs,
      parseValue_skipWs, hv, hnew, setMember_new, consume_other]

theorem member_length (m : Member) : m.text.length < m.render.length := by
  simp only [Member.render, jsonMember, jsonStr, List.length_append, List.length_cons]
  omega

/-- The member loop on written members with fresh, pairwise distinct keys. -/
theorem parseMembers_written (m : Member) (ms : List Member) (keys : List Bytes)
    (map : List (Bytes × JValue)) (hnew : ∀ x ∈ m :: ms, map.lookup x.key = none)
    (hnd : ((m :: ms).map Member.key).Nodup) (fuel : Nat) (rest : Bytes)
    (hf : (joinComma ((m :: ms).map Member.render)).length ≤ fuel) :
    parseMembers fuel keys map (joinComma ((m :: ms).map Member.render) ++ 125 :: rest) =
      some (.object (keys ++ (m :: ms).map Member.key)
        (map ++ (m :: ms).map fun x => (x.key, x.value)), rest) := by
  induction ms generalizing m keys map fuel with
  | nil =>
    have hm := member_length m
    simp only [List.map_cons, List.map_nil, joinComma] at hf
    cases fuel with
    | zero => omega
    | succ fuel =>
      have hlen : m.text.length ≤ fuel := by omega
      simpa [joinComma] using
        parseMembers_member m keys map (hnew m (by simp)) fuel 125 rest hlen (by simp)
  | cons m' ms ih =>
    have hm := member_length m
    have hjoin : joinComma ((m :: m' :: ms).map Member.render) =
        m.render ++ 44 :: joinComma ((m' :: ms).map Member.render) := rfl
    rw [hjoin] at hf ⊢
    simp only [List.length_append, List.length_cons] at hf
    cases fuel with
    | zero => omega
    | succ fuel =>
      have hnd' := List.nodup_cons.mp hnd
      have hnew' : ∀ x ∈ m' :: ms, (map ++ [(m.key, m.value)]).lookup x.key = none := by
        intro x hx
        refine lookup_snoc_other map x.key m.key m.value (hnew x (by simp [hx])) ?_
        intro he
        exact hnd'.1 (List.mem_map.mpr ⟨x, hx, he⟩)
      have hstep := parseMembers_member m keys map (hnew m (by simp)) fuel 44
        (joinComma ((m' :: ms).map Member.render) ++ 125 :: rest) (by omega) (by simp)
      have hloop := ih m' (keys ++ [m.key]) (map ++ [(m.key, m.value)]) hnew' hnd'.2 fuel
        (by omega)
      rw [List.append_assoc, List.cons_append, hstep, if_neg (by decide), hloop]
      simp

/-- A written object is read back with its members in order. -/
theorem reads_jsonObject (ms : List Member) (hnd : (ms.map Member.key).Nodup) :
    Reads (jsonObject (ms.map Member.render))
      (.object (ms.map Member.key) (ms.map fun m => (m.key, m.value))) := by
  intro fuel rest hf _
  cases fuel with
  | zero => simp [jsonObject] at hf
  | succ fuel =>
    cases ms with
    | nil => simp [jsonObject, joinComma, parseValue, skipWs_cons, isSpace]
    | cons m ms =>
      have hlen : (joinComma ((m :: ms).map Member.render)).length ≤ fuel := by
        simp only [jsonObject, List.length_cons, List.length_append] at hf
        omega
      have hloop := parseMembers_written m ms [] [] (by simp) hnd fuel rest hlen
      obtain ⟨t, ht⟩ : ∃ t, joinComma ((m :: ms).map Member.render) ++ 125 :: rest = 34 :: t := by
        cases ms <;> exact ⟨_, rfl⟩
      simp only [jsonObject, List.cons_append, List.append_assoc, List.nil_append]
      rw [ht] at hloop ⊢
      have hopen : skipWs (123 :: 34 :: t) = 123 :: 34 :: t := skipWs_cons _ _ (by decide)
      have hquote : skipWs (34 :: t) = 34 :: t := skipWs_cons _ _ (by decide)
      simpa [parseValue, hopen, hquote, consume] using hloop

/-- One array element, up to the byte that follows it. -/
theorem parseElements_element (w : Written) (arr : List JValue) (fuel : Nat) (c : UInt8)
    (s : Bytes) (hlen : w.text.length ≤ fuel) (hc : c = 93 ∨ c = 44) :
    parseElements (fuel + 1) arr (w.text ++ c :: s) =
      if c = 93 then some (.array (arr ++ [w.value]), s)
      else parseElements fuel (arr ++ [w.value]) s := by
  have hend : NumEnd (c :: s) := by
    rcases hc with rfl | rfl <;> exact numEnd_cons _ _ (by decide)
  have hv := w.reads fuel (c :: s) hlen hend
  rcases hc with rfl | rfl <;>
    simp [parseElements, parseValue_skipWs, hv, skipWs_cons, isSpace, consume_other]

/-- The loop over written elements collects their values. -/
theorem parseElements_written (w : Written) (ws : List Written) (arr : List JValue) (fuel : Nat)
    (rest : Bytes) (hf : (joinComma ((w :: ws).map Written.text)).length < fuel) :
    parseElements fuel arr (joinComma ((w :: ws).map Written.text) ++ 93 :: rest) =
      some (.array (arr ++ (w :: ws).map Written.value), rest) := by
  induction ws generalizing w arr fuel with
  | nil =>
    cases fuel with
    | zero => simp at hf
    | succ fuel =>
      have hlen : w.text.length ≤ fuel := by simp [joinComma] at hf; omega
      simpa [joinComma] using parseElements_element w arr fuel 93 rest hlen (by simp)
  | cons w' ws ih =>
    have hjoin : joinComma ((w :: w' :: ws).map Written.text) =
        w.text ++ 44 :: joinComma ((w' :: ws).map Written.text) := rfl
    rw [hjoin] at hf ⊢
    simp only [List.length_append, List.length_cons] at hf
    cases fuel with
    | zero => omega
    | succ fuel =>
      have hstep := parseElements_element w arr fuel 44
        (joinComma ((w' :: ws).map Written.text) ++ 93 :: rest) (by omega) (by simp)
      have hloop := ih w' (arr ++ [w.value]) fuel (by omega)
      rw [List.append_assoc, List.cons_append, hstep, if_neg (by decide), hloop]
      simp

/-- No value starts with a closing bracket. -/
theorem consume_bracket (w : Written) (s : Bytes) (hs : NumEnd s) :
    consume 93 (skipWs (w.text ++ s)) = none := by
  have hv := w.reads w.text.length s le_rfl hs
  cases hc : skipWs (w.text ++ s) with
  | nil => rfl
  | cons c t =>
    refine consume_other 93 c t ?_
    intro he
    rw [← parseValue_skipWs, hc, he] at hv
    cases hl : w.text.length with
    | zero => simp [hl, parseValue] at hv
    | succ n =>
      have hb : skipWs (93 :: t) = 93 :: t := skipWs_cons _ _ (by decide)
      have hd : isDigit 93 = false := by decide
      simp [hl, parseValue, hb, hd] at hv

/-- A written array is read back. -/
theorem reads_jsonArray (ws : List Written) :
    Reads (jsonArray (ws.map Written.text)) (.array (ws.map Written.value)) := by
  intro fuel rest hf _
  cases fuel with
  | zero => simp [jsonArray] at hf
  | succ fuel =>
    have hopen (s : Bytes) : skipWs (91 :: s) = 91 :: s := skipWs_cons _ _ (by decide)
    have hclose (s : Bytes) : skipWs (93 :: s) = 93 :: s := skipWs_cons _ _ (by decide)
    cases ws with
    | nil => simp [jsonArray, joinComma, parseValue, hopen, hclose]
    | cons w ws =>
      have hlen : (joinComma ((w :: ws).map Written.text)).length < fuel := by
        simp only [jsonArray, List.length_cons, List.length_append] at hf
        omega
      have hloop := parseElements_written w ws [] fuel rest hlen
      have hb : consume 93 (skipWs (joinComma ((w :: ws).map Written.text) ++ 93 :: rest)) =
          none := by
        cases ws with
        | nil => exact consume_bracket w _ (numEnd_cons _ _ (by decide))
        | cons w' ws =>
          have h := consume_bracket w
            (44 :: (joinComma ((w' :: ws).map Written.text) ++ 93 :: rest))
            (numEnd_cons _ _ (by decide))
          simpa [joinComma] using h
      have hskip : parseElements fuel [] (skipWs (joinComma ((w :: ws).map Written.text) ++
          93 :: rest)) = some (.array ((w :: ws).map Written.value), rest) := by
        cases fuel with
        | zero => omega
        | succ fuel => simpa [parseElements, skipWs_skipWs] using hloop
      simp only [List.map_cons] at hb hskip
      simp [jsonArray, parseValue, hopen, hb, hskip]

end Keylight
