import Keylight.Cursor
import Keylight.JsonKeys

/-!
# The reader at its cursor

The parser once more, as a program that reads the input at a position: every
look-ahead is a read that faults outside the input, every step forward faults
past its end, every loop takes fuel, and every nested call takes one of the
calls that the stack has room for. Here are its parts: none of them faults or
hangs, and each computes its part of `Json.parse`.
-/
namespace Keylight
open Bytes Binary64
namespace JsonCursor
open Cursor Cursor.Reader JValue

abbrev Read := Reader UInt8

def skipWs (fuel : Nat) : Read Unit := scan isSpace (fun _ _ => ()) fuel ()

def peek (c : UInt8) : Read Bool := do
  if ← atEnd then pure false
  else pure ((← look 0) = c)

def consume (c : UInt8) : Read Bool := do
  if ← peek c then do
    skip 1
    pure true
  else pure false

def nibbleAt (k : Nat) : Read Nat := do
  match nibble (← look k) with
  | some n => pure n
  | none => reject

def hex4 : Read Nat := do
  if (← remaining) < 4 then reject
  else do
    let a ← nibbleAt 0
    let b ← nibbleAt 1
    let c ← nibbleAt 2
    let d ← nibbleAt 3
    skip 4
    pure (((a * 16 + b) * 16 + c) * 16 + d)

/-- `case 'u'`: a code unit, or two that are a surrogate pair. -/
def codePoint : Read Nat := do
  let cp ← hex4
  if 0xD800 ≤ cp ∧ cp ≤ 0xDBFF then do
    if (← remaining) < 6 then reject
    else if (← look 0) ≠ 92 then reject
    else if (← look 1) ≠ 117 then reject
    else do
      skip 2
      let low ← hex4
      if low < 0xDC00 ∨ 0xDFFF < low then reject
      else pure (0x10000 + (cp - 0xD800) * 1024 + (low - 0xDC00))
  else pure cp

def parseString : Nat → Bytes → Read Bytes
  | 0, _ => hang
  | fuel + 1, out => do
    if ← atEnd then reject
    else do
      let c ← look 0
      skip 1
      if c = 34 then pure out
      else if c = 92 then do
        if ← atEnd then reject
        else do
          let esc ← look 0
          skip 1
          if esc = 117 then do
            let cp ← codePoint
            parseString fuel (out ++ encodeUtf8 cp)
          else
            match unescape esc with
            | some b => parseString fuel (out ++ [b])
            | none => reject
      else parseString fuel (out ++ [c])

def scanDigits (fuel : Nat) (push : α → Nat → α) (acc : α) : Read α :=
  scan isDigit (fun acc c => push acc (digitValue c)) fuel acc

def fractionPart (fuel : Nat) (dval : Magnitude) : Read (Option Magnitude) := do
  if ← peek 46 then do
    skip 1
    let acc ← scanDigits fuel fractionPush (dval, tenth)
    pure (some acc.1)
  else pure none

def exponentSign : Read Bool := do
  if ← atEnd then pure false
  else do
    let c ← look 0
    if c = 43 ∨ c = 45 then do
      skip 1
      pure (c = 45)
    else pure false

def exponentPart (fuel : Nat) (dval : Magnitude) : Read (Option Magnitude) := do
  if ← atEnd then pure none
  else do
    let c ← look 0
    if c = 101 ∨ c = 69 then do
      skip 1
      let eneg ← exponentSign
      let exp ← scanDigits fuel exponentPush 0
      let shift := fun d => if eneg then divNat d 10 else mul d (ofNat 10)
      pure (some (shift^[exp.toInt.toNat] dval))
    else pure none

def parseNumber (fuel : Nat) : Read JValue := do
  let neg ← consume 45
  if ← atEnd then reject
  else if isDigit (← look 0) then do
    let acc ← scanDigits fuel IntPart.push ⟨0, none⟩
    let dval := acc.big.getD (ofNat acc.ival)
    let frac ← fractionPart fuel dval
    let scaled ← exponentPart fuel (frac.getD dval)
    match acc.big, frac, scaled with
    | none, none, none =>
      pure (.int (if neg then -Int64.ofNat acc.ival else Int64.ofNat acc.ival))
    | _, _, _ => pure (.double neg (scaled.getD (frac.getD dval)))
  else reject

/-- `p[k] == word[0] && p[k + 1] == word[1] && …` -/
def spelled : Nat → Bytes → Read Bool
  | _, [] => pure true
  | k, b :: word => do
    if (← look k) = b then spelled (k + 1) word
    else pure false

def literal (word : Bytes) (v : JValue) : Read JValue := do
  if (← remaining) < word.length then reject
  else if ← spelled 1 word.tail then do
    skip word.length
    pure v
  else reject

mutual

/-- `parse_value`, in a stack that has room for `frames` more calls of it. -/
def parseValue : Nat → Nat → Read JValue
  | 0, _ => hang
  | _ + 1, 0 => overflow
  | fuel + 1, frames + 1 => do
    skipWs fuel
    if ← atEnd then reject
    else do
      let c ← look 0
      if c = 34 then do
        skip 1
        let out ← parseString fuel []
        pure (.string out)
      else if c = 123 then do
        skip 1
        skipWs fuel
        if ← consume 125 then pure (.object [] [])
        else parseMembers fuel frames [] []
      else if c = 91 then do
        skip 1
        skipWs fuel
        if ← consume 93 then pure (.array [])
        else parseElements fuel frames []
      else if c = 116 then literal (ascii "true") (.bool true)
      else if c = 102 then literal (ascii "false") (.bool false)
      else if c = 110 then literal (ascii "null") .null
      else if c = 45 ∨ isDigit c then parseNumber fuel
      else reject

/-- The loop over the members, which runs in the call that read the brace. -/
def parseMembers : Nat → Nat → List Bytes → List (Bytes × JValue) → Read JValue
  | 0, _, _, _ => hang
  | fuel + 1, frames, keys, map => do
    skipWs fuel
    if ← consume 34 then do
      let key ← parseString fuel []
      skipWs fuel
      if ← consume 58 then do
        skipWs fuel
        let val ← parseValue fuel frames
        let keys := if (map.lookup key).isSome then keys else keys ++ [key]
        let map := setMember map key val
        skipWs fuel
        if ← consume 125 then pure (.object keys map)
        else if ← consume 44 then parseMembers fuel frames keys map
        else reject
      else reject
    else reject

/-- The loop over the elements. -/
def parseElements : Nat → Nat → List JValue → Read JValue
  | 0, _, _ => hang
  | fuel + 1, frames, arr => do
    skipWs fuel
    let elem ← parseValue fuel frames
    skipWs fuel
    if ← consume 93 then pure (.array (arr ++ [elem]))
    else if ← consume 44 then parseElements fuel frames (arr ++ [elem])
    else reject

end

/-- `~JValue`, which calls itself for what an array or an object holds. -/
def destroy : Nat → JValue → Except Trap Unit
  | 0, _ => .error .overflow
  | frames + 1, .array arr => arr.forM (destroy frames)
  | frames + 1, .object _ map => map.forM fun p => destroy frames p.2
  | _ + 1, _ => .ok ()

/-- `Json::parse`; a value with garbage behind it is destroyed. What an aborted read or a repeated
key leaves behind nests no deeper than the calls that read it, and fits in the same stack. -/
def parse (fuel frames : Nat) (src : Bytes) : Except Trap (Result Json) :=
  if src = [] then .ok (.error ⟨.badResponse, ascii "empty JSON input"⟩)
  else
    match parseValue fuel frames src 0 with
    | .error t => .error t
    | .ok none => .ok (.error ⟨.badResponse, ascii "malformed JSON"⟩)
    | .ok (some (v, p)) =>
      match (skipWs fuel >>= fun _ => atEnd) src p with
      | .error t => .error t
      | .ok (some (true, _)) => .ok (.ok v)
      | .ok _ =>
        match destroy frames v with
        | .error t => .error t
        | .ok _ => .ok (.error ⟨.badResponse, ascii "trailing garbage in JSON"⟩)

theorem dropWhile_skipWs (s : Bytes) : s.dropWhile isSpace = JValue.skipWs s := by
  induction s with
  | nil => rfl
  | cons c s ih =>
    rw [JValue.skipWs, List.dropWhile_cons]
    split
    · exact ih
    · rfl

variable {src s : Bytes} {fuel : Nat}

theorem skipWs_suffix (s : Bytes) : JValue.skipWs s <:+ s := by
  rw [← dropWhile_skipWs]
  exact List.dropWhile_suffix _

theorem run_skipWs (h : s <:+ src) (hl : s.length < fuel) :
    skipWs fuel src (place src s) = .ok (some ((), place src (JValue.skipWs s))) := by
  rw [← dropWhile_skipWs]
  exact follows_scan isSpace (fun _ _ => ()) hl () src s h le_rfl

theorem consume_suffix {c : UInt8} {s t : Bytes} (h : JValue.consume c s = some t) :
    s = c :: t := by
  cases s with
  | nil => cases h
  | cons d s =>
    rw [JValue.consume] at h
    split at h
    · next hd =>
      cases h
      rw [hd]
    · cases h

theorem run_peek (h : s <:+ src) (c : UInt8) :
    peek c src (place src s) = .ok (some (decide (s.head? = some c), place src s)) := by
  rw [peek, run_bind (atEnd_place h)]
  cases s with
  | nil => rfl
  | cons b s =>
    simp only [List.isEmpty_cons, Bool.false_eq_true, if_false]
    rw [run_bind (look_place h rfl)]
    simp

/-- A byte is consumed, or the cursor stays. -/
theorem run_consume (h : s <:+ src) (c : UInt8) :
    consume c src (place src s) = .ok (some (match JValue.consume c s with
      | some t => (true, place src t)
      | none => (false, place src s))) := by
  rw [consume, run_bind (run_peek h c)]
  cases s with
  | nil => rfl
  | cons b s =>
    by_cases hb : b = c
    · subst hb
      simp only [List.head?_cons, decide_true, if_true, consume_same]
      rw [run_bind (skip_place h (k := 1) (by simp))]
      rfl
    · simp [consume_other c b s hb, hb]

/-- The reference of `hex4`. -/
def hexUnit : Bytes → Option (Nat × Bytes)
  | a :: b :: c :: d :: s => (JValue.hex4 a b c d).map fun n => (n, s)
  | _ => none

/-- The reference of `codePoint`. -/
def escapedPoint (s : Bytes) : Option (Nat × Bytes) :=
  (hexUnit s).bind fun (cp, s) =>
    if 0xD800 ≤ cp ∧ cp ≤ 0xDBFF then
      match s with
      | p :: q :: s =>
        if p = 92 ∧ q = 117 then
          (hexUnit s).bind fun (low, s) =>
            if low < 0xDC00 ∨ 0xDFFF < low then none
            else some (0x10000 + (cp - 0xD800) * 1024 + (low - 0xDC00), s)
        else none
      | _ => none
    else some (cp, s)

/-- The escape `\\u` in terms of its code point. -/
theorem parseString_unicode (s : Bytes) : JValue.parseString (92 :: 117 :: s) =
    (escapedPoint s).bind fun (cp, rest) =>
      (JValue.parseString rest).map fun (out, rest) => (encodeUtf8 cp ++ out, rest) := by
  rw [JValue.parseString.eq_def]
  simp only [show (92 : UInt8) ≠ 34 by decide, if_false, if_true, escapedPoint]
  rcases s with _ | ⟨a, _ | ⟨b, _ | ⟨c, _ | ⟨d, s⟩⟩⟩⟩ <;> try rfl
  simp only [hexUnit]
  cases JValue.hex4 a b c d with
  | none => rfl
  | some cp =>
    simp only [Option.map_some, Option.bind_some]
    split
    · rcases s with _ | ⟨p, _ | ⟨q, s⟩⟩ <;> try rfl
      rcases s with _ | ⟨e, _ | ⟨f, _ | ⟨g, _ | ⟨h, s⟩⟩⟩⟩ <;> by_cases hpq : p = 92 ∧ q = 117 <;>
        simp only [hpq, and_self, if_true, if_false, Option.bind_none]
      cases JValue.hex4 e f g h with
      | none => rfl
      | some low =>
        simp only [Option.map_some, Option.bind_some]
        split <;> rfl
    · rfl

theorem hexUnit_suffix : Shrinks hexUnit := by
  intro s n rest h
  rcases s with _ | ⟨a, _ | ⟨b, _ | ⟨c, _ | ⟨d, s⟩⟩⟩⟩
  case cons.cons.cons.cons =>
    simp only [hexUnit] at h
    cases hn : JValue.hex4 a b c d with
    | none => simp [hn] at h
    | some m =>
      simp only [hn, Option.map_some, Option.some.injEq, Prod.mk.injEq] at h
      rw [← h.2]
      exact ⟨[a, b, c, d], rfl⟩
  all_goals cases h

/-- An escape leaves what follows it. -/
theorem escapedPoint_suffix : Shrinks escapedPoint := by
  intro s n rest h
  obtain ⟨⟨cp, t⟩, hunit, h⟩ := Option.bind_eq_some_iff.mp h
  have ht := hexUnit_suffix s cp t hunit
  dsimp only at h
  split at h
  · rcases t with _ | ⟨p, _ | ⟨q, t⟩⟩ <;> try cases h
    dsimp only at h
    split at h
    · obtain ⟨⟨low, u⟩, hlow, h⟩ := Option.bind_eq_some_iff.mp h
      have hu := hexUnit_suffix t low u hlow
      dsimp only at h
      split at h
      · cases h
      · simp only [Option.some.injEq, Prod.mk.injEq] at h
        rw [← h.2]
        exact hu.trans (.trans ⟨[p, q], rfl⟩ ht)
    · cases h
  · cases h
    exact ht

theorem run_nibbleAt (h : s <:+ src) {k : Nat} {b : UInt8} (hk : s[k]? = some b) :
    nibbleAt k src (place src s) = .ok (placed src ((nibble b).map fun n => (n, s))) := by
  rw [nibbleAt, run_bind (look_place h hk)]
  cases nibble b <;> rfl

/-- The look-ahead of four bytes stays inside the input. -/
theorem run_hex4 (h : s <:+ src) : hex4 src (place src s) = .ok (placed src (hexUnit s)) := by
  rw [hex4, run_bind (remaining_place h)]
  rcases s with _ | ⟨a, _ | ⟨b, _ | ⟨c, _ | ⟨d, s⟩⟩⟩⟩ <;> try rfl
  have hlen : ¬(a :: b :: c :: d :: s).length < 4 := by simp
  rw [if_neg hlen, run_placed (run_nibbleAt h (b := a) rfl)]
  simp only [hexUnit, JValue.hex4]
  cases nibble a with
  | none => rfl
  | some a' =>
    simp only [Option.map_some, Option.elim_some, run_placed (run_nibbleAt h (k := 1) (b := b) rfl)]
    cases nibble b with
    | none => rfl
    | some b' =>
      simp only [Option.map_some, Option.elim_some,
        run_placed (run_nibbleAt h (k := 2) (b := c) rfl)]
      cases nibble c with
      | none => rfl
      | some c' =>
        simp only [Option.map_some, Option.elim_some,
          run_placed (run_nibbleAt h (k := 3) (b := d) rfl)]
        cases nibble d with
        | none => rfl
        | some d' => exact run_bind (skip_place h (k := 4) (by simp))

/-- The low half is looked for only where six bytes are left. -/
theorem run_codePoint (h : s <:+ src) :
    codePoint src (place src s) = .ok (placed src (escapedPoint s)) := by
  rw [codePoint, run_placed (run_hex4 h), escapedPoint]
  cases hu : hexUnit s with
  | none => rfl
  | some r =>
    obtain ⟨cp, t⟩ := r
    have ht := (hexUnit_suffix s cp t hu).trans h
    simp only [Option.bind_some, Option.elim_some, run_ite]
    split
    · rw [run_bind (remaining_place ht)]
      rcases t with _ | ⟨p, _ | ⟨q, u⟩⟩ <;> try rfl
      by_cases hlen : (p :: q :: u).length < 6
      · rw [if_pos hlen]
        have hshort : hexUnit u = none := by
          rcases u with _ | ⟨e, _ | ⟨f, _ | ⟨g, _ | ⟨i, u⟩⟩⟩⟩
          case cons.cons.cons.cons =>
            simp only [List.length_cons] at hlen
            omega
          all_goals rfl
        simp [hshort, reject]
      · rw [if_neg hlen, run_bind (look_place ht (k := 0) rfl), run_ite]
        by_cases hp : p = 92
        · rw [if_neg (not_not_intro hp), run_bind (look_place ht (k := 1) rfl), run_ite]
          by_cases hq : q = 117
          · have hskip := skip_place ht (k := 2) (by simp)
            have hu := ((List.suffix_cons q u).trans (List.suffix_cons p _)).trans ht
            rw [if_neg (not_not_intro hq), run_bind hskip, List.drop_succ_cons,
              List.drop_succ_cons, List.drop_zero, run_placed (run_hex4 hu)]
            simp only [hp, hq, and_self, if_true]
            cases hexUnit u with
            | none => rfl
            | some r =>
              simp only [Option.bind_some, Option.elim_some, run_ite]
              split <;> rfl
          · simp [hq, reject]
        · simp [hp, reject]
    · rfl

theorem parseString_nil : JValue.parseString [] = none := by rw [JValue.parseString.eq_def]

theorem parseString_stop : JValue.parseString [92] = none := by
  rw [JValue.parseString.eq_def]
  rfl

theorem parseString_unknown {esc : UInt8} (hu : esc ≠ 117) (h : unescape esc = none) (s : Bytes) :
    JValue.parseString (92 :: esc :: s) = none := by
  rw [JValue.parseString.eq_def]
  simp [hu, h]

/-- By induction on the fuel; `out` is what has been decoded so far. -/
theorem run_parseString (h : s <:+ src) (hl : s.length < fuel) (out : Bytes) :
    parseString fuel out src (place src s) =
      .ok (placed src ((JValue.parseString s).map fun (o, rest) => (out ++ o, rest))) := by
  induction fuel generalizing s out with
  | zero => omega
  | succ fuel ih =>
    rw [parseString, run_bind (atEnd_place h)]
    cases s with
    | nil => simp [parseString_nil, reject]
    | cons c s =>
      have hs := (List.suffix_cons c s).trans h
      rw [List.length_cons] at hl
      simp only [List.isEmpty_cons, Bool.false_eq_true, if_false]
      rw [run_bind (look_place h (k := 0) rfl), run_bind (skip_place h (k := 1) (by simp)),
        List.drop_one, List.tail_cons, run_ite]
      by_cases hq : c = 34
      · simp [hq, parseString_quote]
      rw [if_neg hq, run_ite]
      by_cases hb : c = 92
      · rw [if_pos hb, run_bind (atEnd_place hs), hb]
        cases s with
        | nil => simp [parseString_stop, reject]
        | cons esc s =>
          have hrest := (List.suffix_cons esc s).trans hs
          rw [List.length_cons] at hl
          simp only [List.isEmpty_cons, Bool.false_eq_true, if_false]
          rw [run_bind (look_place hs (k := 0) rfl), run_bind (skip_place hs (k := 1) (by simp)),
            List.drop_one, List.tail_cons, run_ite]
          by_cases hu : esc = 117
          · rw [if_pos hu, hu, run_placed (run_codePoint hrest), parseString_unicode]
            cases hp : escapedPoint s with
            | none => rfl
            | some r =>
              obtain ⟨cp, t⟩ := r
              have ht := escapedPoint_suffix s cp t hp
              have hlen := ht.length_le
              simp only [Option.elim_some, Option.bind_some]
              rw [ih (ht.trans hrest) (by omega)]
              cases JValue.parseString t <;> simp
          · rw [if_neg hu]
            cases he : unescape esc with
            | none => simp [parseString_unknown hu he, reject]
            | some b =>
              simp only
              rw [ih hrest (by omega), parseString_escape esc b s hu he]
              cases JValue.parseString s <;> simp
      · rw [if_neg hb, ih hs (by omega), parseString_plain c s hq hb]
        cases JValue.parseString s <;> simp

/-- By induction on a bound of the length, as the unicode escapes take several bytes at once. -/
theorem parseString_suffix : Shrinks JValue.parseString := by
  intro s out rest h
  induction hn : s.length using Nat.strong_induction_on generalizing s out rest with
  | _ n ih =>
    cases s with
    | nil => simp [parseString_nil] at h
    | cons c s =>
      by_cases hq : c = 34
      · rw [hq, parseString_quote] at h
        cases h
        exact List.suffix_cons c _
      by_cases hb : c = 92
      · subst hb
        cases s with
        | nil => simp [parseString_stop] at h
        | cons esc s =>
          have hskip : s <:+ 92 :: esc :: s := ⟨[92, esc], rfl⟩
          simp only [List.length_cons] at hn
          by_cases hu : esc = 117
          · subst hu
            rw [parseString_unicode] at h
            obtain ⟨⟨cp, t⟩, hp, h⟩ := Option.bind_eq_some_iff.mp h
            obtain ⟨⟨o, u⟩, hs, he⟩ := Option.map_eq_some_iff.mp h
            have ht := escapedPoint_suffix s cp t hp
            have hlen := ht.length_le
            cases he
            exact (ih t.length (by omega) t _ _ hs rfl).trans (ht.trans hskip)
          · cases he : unescape esc with
            | none => simp [parseString_unknown hu he] at h
            | some b =>
              rw [parseString_escape esc b s hu he] at h
              obtain ⟨⟨o, u⟩, hs, he⟩ := Option.map_eq_some_iff.mp h
              cases he
              exact (ih s.length (by omega) s _ _ hs rfl).trans hskip
      · rw [parseString_plain c s hq hb] at h
        obtain ⟨⟨o, u⟩, hs, he⟩ := Option.map_eq_some_iff.mp h
        rw [List.length_cons] at hn
        cases he
        exact (ih s.length (by omega) s _ _ hs rfl).trans (List.suffix_cons c s)

theorem scanDigits_eq (push : β → Nat → β) (acc : β) (s : Bytes) :
    JValue.scanDigits push acc s =
      ((s.takeWhile isDigit).foldl (fun acc c => push acc (digitValue c)) acc,
        s.dropWhile isDigit) := by
  induction s generalizing acc with
  | nil => rfl
  | cons c s ih =>
    rw [JValue.scanDigits, List.takeWhile_cons, List.dropWhile_cons]
    split
    · rw [ih, List.foldl_cons]
    · rfl

/-- What a part of a number leaves. -/
theorem scanDigits_suffix (push : β → Nat → β) (acc : β) (s : Bytes) :
    (JValue.scanDigits push acc s).2 <:+ s := by
  rw [scanDigits_eq]
  exact List.dropWhile_suffix _

theorem run_scanDigits (h : s <:+ src) (hl : s.length < fuel) (push : β → Nat → β) (acc : β) :
    scanDigits fuel push acc src (place src s) =
      .ok (placed src (some (JValue.scanDigits push acc s))) := by
  rw [scanDigits_eq]
  exact follows_scan isDigit _ hl acc src s h le_rfl

/-- A fraction begins with a point. -/
theorem fractionPart_cons (dval : Magnitude) (c : UInt8) (s : Bytes) :
    JValue.fractionPart dval (c :: s) =
      if c = 46 then
        (some (JValue.scanDigits fractionPush (dval, tenth) s).1.1,
          (JValue.scanDigits fractionPush (dval, tenth) s).2)
      else (none, c :: s) := by
  rw [JValue.fractionPart.eq_def]
  split
  · next heq =>
    obtain ⟨rfl, rfl⟩ := List.cons.inj heq
    rfl
  · next hne =>
    rw [if_neg]
    intro hc
    exact hne s (by rw [hc])

theorem fractionPart_suffix (dval : Magnitude) (s : Bytes) :
    (JValue.fractionPart dval s).2 <:+ s := by
  cases s with
  | nil => exact List.suffix_rfl
  | cons c s =>
    rw [fractionPart_cons]
    split
    · exact (scanDigits_suffix _ _ s).trans (List.suffix_cons c s)
    · exact List.suffix_rfl

/-- The reader of a fraction. -/
theorem run_fractionPart (h : s <:+ src) (hl : s.length < fuel) (dval : Magnitude) :
    fractionPart fuel dval src (place src s) =
      .ok (placed src (some (JValue.fractionPart dval s))) := by
  rw [fractionPart, run_bind (run_peek h 46)]
  cases s with
  | nil => rfl
  | cons c s =>
    have hs := (List.suffix_cons c s).trans h
    rw [List.length_cons] at hl
    rw [fractionPart_cons]
    by_cases hc : c = 46
    · subst hc
      simp only [List.head?_cons, decide_true, if_true]
      rw [run_bind (skip_place h (k := 1) (by simp)), List.drop_one, List.tail_cons,
        run_placed (run_scanDigits hs (by omega) _ _)]
      rfl
    · simp [hc]

theorem exponentSign_suffix (s : Bytes) : (JValue.exponentSign s).2 <:+ s := by
  rw [JValue.exponentSign.eq_def]
  split
  · exact List.suffix_cons _ _
  · exact List.suffix_cons _ _
  · exact List.suffix_rfl

/-- The reader of an exponent's sign. -/
theorem run_exponentSign (h : s <:+ src) :
    exponentSign src (place src s) = .ok (placed src (some (JValue.exponentSign s))) := by
  rw [exponentSign, run_bind (atEnd_place h)]
  cases s with
  | nil => rfl
  | cons c s =>
    simp only [List.isEmpty_cons, Bool.false_eq_true, if_false]
    rw [run_bind (look_place h (k := 0) rfl), run_ite]
    by_cases hplus : c = 43
    · subst hplus
      rw [if_pos (.inl rfl), run_bind (skip_place h (k := 1) (by simp))]
      rfl
    by_cases hminus : c = 45
    · subst hminus
      rw [if_pos (.inr rfl), run_bind (skip_place h (k := 1) (by simp))]
      rfl
    · have hnone : JValue.exponentSign (c :: s) = (false, c :: s) := by
        rw [JValue.exponentSign.eq_def]
        split
        · simp_all
        · simp_all
        · rfl
      simp [hplus, hminus, hnone]

theorem exponentPart_suffix (dval : Magnitude) (s : Bytes) :
    (JValue.exponentPart dval s).2 <:+ s := by
  cases s with
  | nil => exact List.suffix_rfl
  | cons c s =>
    rw [JValue.exponentPart]
    split
    · have hsign := exponentSign_suffix s
      exact (scanDigits_suffix _ _ _).trans (hsign.trans (List.suffix_cons c s))
    · exact List.suffix_rfl

/-- The reader of an exponent. -/
theorem run_exponentPart (h : s <:+ src) (hl : s.length < fuel) (dval : Magnitude) :
    exponentPart fuel dval src (place src s) =
      .ok (placed src (some (JValue.exponentPart dval s))) := by
  rw [exponentPart, run_bind (atEnd_place h)]
  cases s with
  | nil => rfl
  | cons c s =>
    have hs := (List.suffix_cons c s).trans h
    have hsign := exponentSign_suffix s
    have hlen := hsign.length_le
    rw [List.length_cons] at hl
    simp only [List.isEmpty_cons, Bool.false_eq_true, if_false]
    rw [run_bind (look_place h (k := 0) rfl), run_ite, JValue.exponentPart]
    by_cases hc : c = 101 ∨ c = 69
    · rw [if_pos hc, if_pos hc, run_bind (skip_place h (k := 1) (by simp)), List.drop_one,
        List.tail_cons, run_placed (run_exponentSign hs), Option.elim_some]
      generalize JValue.exponentSign s = r at hsign hlen ⊢
      obtain ⟨eneg, t⟩ := r
      dsimp only at hsign hlen ⊢
      rw [run_placed (run_scanDigits (hsign.trans hs) (by omega) _ _)]
      rfl
    · rw [if_neg hc, if_neg hc]
      rfl

/-- `peek('-')` -/
theorem run_consume_minus (h : s <:+ src) : consume 45 src (place src s) =
    .ok (some (decide (s.head? = some 45),
      place src (if s.head? = some 45 then s.tail else s))) := by
  rw [run_consume h]
  cases s with
  | nil => rfl
  | cons c s =>
    by_cases hc : c = 45
    · subst hc
      rfl
    · simp [consume_other 45 c s hc, hc]

theorem parseNumber_rest (s : Bytes) :
    (if s.head? = some 45 then s.tail else s) <:+ s := by
  split
  · exact List.tail_suffix s
  · exact List.suffix_rfl

/-- The reader of a number. -/
theorem run_parseNumber (h : s <:+ src) (hl : s.length < fuel) :
    parseNumber fuel src (place src s) = .ok (placed src (JValue.parseNumber s)) := by
  have hsign := parseNumber_rest s
  have hlen := hsign.length_le
  rw [parseNumber, run_bind (run_consume_minus h), JValue.parseNumber]
  generalize (if s.head? = some 45 then s.tail else s) = t at hsign hlen ⊢
  have ht := hsign.trans h
  rw [run_bind (atEnd_place ht)]
  cases t with
  | nil => rfl
  | cons c t =>
    simp only [List.isEmpty_cons, Bool.false_eq_true, if_false]
    rw [run_bind (look_place ht (k := 0) rfl), run_ite]
    by_cases hd : isDigit c = true
    · rw [if_pos hd, if_pos hd, run_placed (run_scanDigits ht (by omega) _ _), Option.elim_some]
      have hint := scanDigits_suffix IntPart.push ⟨0, none⟩ (c :: t)
      generalize JValue.scanDigits IntPart.push ⟨0, none⟩ (c :: t) = r at hint ⊢
      obtain ⟨acc, u⟩ := r
      dsimp only at hint ⊢
      have hu := hint.length_le
      rw [run_placed (run_fractionPart (hint.trans ht) (by omega) _), Option.elim_some]
      have hfrac := fractionPart_suffix (acc.big.getD (ofNat acc.ival)) u
      generalize JValue.fractionPart (acc.big.getD (ofNat acc.ival)) u = r at hfrac ⊢
      obtain ⟨frac, v⟩ := r
      dsimp only at hfrac ⊢
      have hv := hfrac.length_le
      rw [run_placed (run_exponentPart ((hfrac.trans hint).trans ht) (by omega) _),
        Option.elim_some]
      generalize JValue.exponentPart (frac.getD (acc.big.getD (ofNat acc.ival))) v = r
      obtain ⟨scaled, w⟩ := r
      dsimp only
      cases acc.big <;> cases frac <;> cases scaled <;> simp
    · rw [if_neg hd, if_neg hd]
      rfl

/-- A number leaves what follows it, and takes its first byte. -/
theorem parseNumber_suffix {c : UInt8} {s rest : Bytes} {v : JValue}
    (h : JValue.parseNumber (c :: s) = some (v, rest)) : rest <:+ s := by
  have hsign : (if (c :: s).head? = some 45 then (c :: s).tail else c :: s) = s ∨
      (if (c :: s).head? = some 45 then (c :: s).tail else c :: s) = c :: s := by
    split
    · exact .inl rfl
    · exact .inr rfl
  rw [JValue.parseNumber] at h
  generalize (if (c :: s).head? = some 45 then (c :: s).tail else c :: s) = t at hsign h
  cases t with
  | nil => cases h
  | cons d t =>
    have htail : t <:+ s := by
      obtain rfl | he := hsign
      · exact List.suffix_cons d t
      · rw [(List.cons.inj he).2]
    dsimp only at h
    split at h
    · next hd =>
      have hint := scanDigits_suffix IntPart.push (IntPart.push ⟨0, none⟩ (digitValue d)) t
      rw [JValue.scanDigits, if_pos hd] at h
      generalize JValue.scanDigits IntPart.push (IntPart.push ⟨0, none⟩ (digitValue d)) t = r
        at hint h
      obtain ⟨acc, u⟩ := r
      have hfrac := fractionPart_suffix (acc.big.getD (ofNat acc.ival)) u
      have hexp := exponentPart_suffix
        ((JValue.fractionPart (acc.big.getD (ofNat acc.ival)) u).1.getD
          (acc.big.getD (ofNat acc.ival))) (JValue.fractionPart (acc.big.getD (ofNat acc.ival)) u).2
      have hall := hexp.trans (hfrac.trans (hint.trans htail))
      dsimp only at h
      split at h <;> cases h <;> exact hall
    · cases h

/-- Each byte is looked at only where the ones before it match, all within the input. -/
theorem run_spelled (h : s <:+ src) {k : Nat} {word : Bytes} (hl : k + word.length ≤ s.length) :
    spelled k word src (place src s) =
      .ok (some (word.isPrefixOf (s.drop k), place src s)) := by
  induction word generalizing k with
  | nil => rw [List.isPrefixOf_nil_left]; rfl
  | cons b word ih =>
    rw [List.length_cons] at hl
    have hk : k < s.length := by omega
    rw [spelled, run_bind (look_place h (List.getElem?_eq_getElem hk)), run_ite,
      List.drop_eq_getElem_cons hk, List.isPrefixOf_cons_cons]
    by_cases hb : s[k] = b
    · rw [if_pos hb, ih (by omega), hb, beq_self_eq_true, Bool.true_and]
    · have hne : (b == s[k]) = false := beq_eq_false_iff_ne.mpr (Ne.symm hb)
      rw [if_neg hb, hne, Bool.false_and]
      rfl

/-- The look-ahead of a word stays inside the input. -/
theorem run_literal (b : UInt8) {t : Bytes} (h : b :: t <:+ src) (word : Bytes) (v : JValue) :
    literal (b :: word) v src (place src (b :: t)) =
      .ok (placed src (JValue.literal (b :: word) v (b :: t))) := by
  rw [literal, run_bind (remaining_place h), JValue.literal, List.isPrefixOf_cons_cons,
    beq_self_eq_true, Bool.true_and]
  by_cases hlen : (b :: t).length < (b :: word).length
  · have hno : word.isPrefixOf t = false := by
      rw [Bool.eq_false_iff]
      intro hpre
      have hle := (List.isPrefixOf_iff_prefix.mp hpre).length_le
      simp only [List.length_cons] at hlen
      omega
    rw [if_pos hlen]
    simp [hno, reject]
  · have hle : 1 + word.length ≤ (b :: t).length := by
      simp only [List.length_cons] at hlen ⊢
      omega
    rw [if_neg hlen, List.tail_cons, run_bind (run_spelled h hle), List.drop_one, List.tail_cons]
    cases word.isPrefixOf t with
    | false => rfl
    | true =>
      have hskip := skip_place h (k := (b :: word).length) (by omega)
      simp only [if_true]
      rw [run_bind hskip]
      rfl

theorem literal_suffix {word s rest : Bytes} {u v : JValue} {c : UInt8} (hw : word ≠ [])
    (h : JValue.literal word u (c :: s) = some (v, rest)) : rest <:+ s := by
  rw [JValue.literal] at h
  split at h
  · cases h
    obtain ⟨b, word, rfl⟩ := List.exists_cons_of_ne_nil hw
    exact List.drop_suffix word.length s
  · cases h

theorem leaf_suffix {c : UInt8} {s rest : Bytes} {v : JValue}
    (h : leaf c s = some (v, rest)) : rest <:+ s := by
  rw [leaf] at h
  split_ifs at h
  · obtain ⟨⟨out, t⟩, hs, he⟩ := Option.map_eq_some_iff.mp h
    cases he
    exact parseString_suffix s out _ hs
  · exact literal_suffix (by decide) h
  · exact literal_suffix (by decide) h
  · exact literal_suffix (by decide) h
  · exact parseNumber_suffix h

/-- A part of the input was read, at least one byte. -/
structure Takes (s rest : Bytes) : Prop where
  suffix : rest <:+ s
  shorter : rest.length < s.length

namespace Takes

theorem cons {c : UInt8} {s rest : Bytes} (h : rest <:+ s) : Takes (c :: s) rest :=
  ⟨h.trans (List.suffix_cons c s), Nat.lt_succ_of_le h.length_le⟩

theorem after {s t rest : Bytes} (h : Takes t rest) (hs : t <:+ s) : Takes s rest :=
  ⟨h.suffix.trans hs, h.shorter.trans_le hs.length_le⟩

theorem before {s t rest : Bytes} (h : Takes s t) (ht : rest <:+ t) : Takes s rest :=
  ⟨ht.trans h.suffix, ht.length_le.trans_lt h.shorter⟩

theorem trans {s t rest : Bytes} (h : Takes s t) (ht : Takes t rest) : Takes s rest :=
  h.before ht.suffix

theorem consume {c : UInt8} {s rest : Bytes} (h : JValue.consume c (JValue.skipWs s) = some rest) :
    Takes s rest := by
  have hs := skipWs_suffix s
  rw [consume_suffix h] at hs
  exact (cons List.suffix_rfl).after hs

end Takes

/-- By induction on the fuel, as every function reads a byte. -/
theorem parse_takes (fuel : Nat) :
    (∀ s v rest, JValue.parseValue fuel s = some (v, rest) → Takes s rest) ∧
    (∀ keys map s v rest, JValue.parseMembers fuel keys map s = some (v, rest) →
      Takes s rest) ∧
    (∀ arr s v rest, JValue.parseElements fuel arr s = some (v, rest) → Takes s rest) := by
  induction fuel with
  | zero => simp [JValue.parseValue, JValue.parseMembers, JValue.parseElements]
  | succ fuel ih =>
    obtain ⟨hvalue, hmembers, helements⟩ := ih
    refine ⟨fun s v rest h => ?_, fun keys map s v rest h => ?_, fun arr s v rest h => ?_⟩
    · obtain ⟨c, t, hs, h⟩ := parseValue_some.mp h
      have hct := skipWs_suffix s
      rw [hs] at hct
      refine Takes.after (.cons ?_) hct
      obtain ⟨-, h⟩ | ⟨-, h⟩ | ⟨-, -, h⟩ := h
      · obtain ⟨h, -⟩ | ⟨-, h⟩ := h
        · exact (Takes.consume h).suffix
        · exact ((hmembers _ _ _ _ _ h).after (skipWs_suffix t)).suffix
      · obtain ⟨h, -⟩ | ⟨-, h⟩ := h
        · exact (Takes.consume h).suffix
        · exact ((helements _ _ _ _ h).after (skipWs_suffix t)).suffix
      · exact leaf_suffix h
    · obtain ⟨s₁, key, s₂, s₃, val, s₄, h₁, h₂, h₃, h₄, h⟩ := parseMembers_some.mp h
      have hkey := (Takes.consume h₁).before (parseString_suffix s₁ key s₂ h₂)
      have hval := (hkey.trans (.consume h₃)).trans ((hvalue _ _ _ h₄).after (skipWs_suffix s₃))
      obtain ⟨h₅, -⟩ | ⟨-, s₅, h₅, h⟩ := h
      · exact hval.trans (.consume h₅)
      · exact (hval.trans (.consume h₅)).trans (hmembers _ _ _ _ _ h)
    · obtain ⟨elem, s₁, h₁, h⟩ := parseElements_some.mp h
      have hval := (hvalue _ _ _ h₁).after (skipWs_suffix s)
      obtain ⟨h₂, -⟩ | ⟨-, s₂, h₂, h⟩ := h
      · exact hval.trans (.consume h₂)
      · exact (hval.trans (.consume h₂)).trans (helements _ _ _ _ h)

/-- What is accepted at all is accepted with the fuel that its length gives. -/
theorem parse_fuel (fuel : Nat) :
    (∀ s v rest n, JValue.parseValue fuel s = some (v, rest) → s.length ≤ rest.length + n →
      JValue.parseValue n s = some (v, rest)) ∧
    (∀ keys map s v rest n, JValue.parseMembers fuel keys map s = some (v, rest) →
      s.length ≤ rest.length + n → JValue.parseMembers n keys map s = some (v, rest)) ∧
    (∀ arr s v rest n, JValue.parseElements fuel arr s = some (v, rest) →
      s.length ≤ rest.length + n → JValue.parseElements n arr s = some (v, rest)) := by
  induction fuel with
  | zero => simp [JValue.parseValue, JValue.parseMembers, JValue.parseElements]
  | succ fuel ih =>
    obtain ⟨hvalue, hmembers, helements⟩ := ih
    refine ⟨fun s v rest n h hn => ?_, fun keys map s v rest n h hn => ?_,
      fun arr s v rest n h hn => ?_⟩
    · have htakes := ((parse_takes (fuel + 1)).1 s v rest h).shorter
      obtain ⟨c, t, hs, h⟩ := parseValue_some.mp h
      have hct := (skipWs_suffix s).length_le
      have ht := (skipWs_suffix t).length_le
      rw [hs, List.length_cons] at hct
      obtain ⟨n, rfl⟩ : ∃ m, n = m + 1 := ⟨n - 1, by omega⟩
      refine parseValue_some.mpr ⟨c, t, hs, ?_⟩
      obtain ⟨hc, h⟩ | ⟨hc, h⟩ | h := h
      · refine .inl ⟨hc, h.imp_right fun h => ⟨h.1, ?_⟩⟩
        exact hmembers _ _ _ _ _ n h.2 (by omega)
      · refine .inr (.inl ⟨hc, h.imp_right fun h => ⟨h.1, ?_⟩⟩)
        exact helements _ _ _ _ n h.2 (by omega)
      · exact .inr (.inr h)
    · have htakes := ((parse_takes (fuel + 1)).2.1 keys map s v rest h).shorter
      obtain ⟨s₁, key, s₂, s₃, val, s₄, h₁, h₂, h₃, h₄, h⟩ := parseMembers_some.mp h
      have hl₁ := (Takes.consume h₁).shorter
      have hl₂ := (parseString_suffix s₁ key s₂ h₂).length_le
      have hl₃ := (Takes.consume h₃).shorter
      have hl₃' := (skipWs_suffix s₃).length_le
      obtain ⟨n, rfl⟩ : ∃ m, n = m + 1 := ⟨n - 1, by omega⟩
      refine parseMembers_some.mpr ⟨s₁, key, s₂, s₃, val, s₄, h₁, h₂, h₃, ?_, ?_⟩
      · refine hvalue _ _ _ n h₄ ?_
        have hrest : rest.length < s₄.length := by
          obtain ⟨h₅, -⟩ | ⟨-, s₅, h₅, h⟩ := h
          · exact (Takes.consume h₅).shorter
          · exact ((Takes.consume h₅).trans ((parse_takes fuel).2.1 _ _ _ _ _ h)).shorter
        omega
      · refine h.imp_right ?_
        rintro ⟨hclose, s₅, h₅, h⟩
        refine ⟨hclose, s₅, h₅, ?_⟩
        have hl₄ := ((parse_takes fuel).1 _ _ _ h₄).shorter
        have hl₅ := (Takes.consume h₅).shorter
        exact hmembers _ _ _ _ _ n h (by omega)
    · have htakes := ((parse_takes (fuel + 1)).2.2 arr s v rest h).shorter
      obtain ⟨elem, s₁, h₁, h⟩ := parseElements_some.mp h
      have hl := (skipWs_suffix s).length_le
      obtain ⟨n, rfl⟩ : ∃ m, n = m + 1 := ⟨n - 1, by omega⟩
      refine parseElements_some.mpr ⟨elem, s₁, ?_, ?_⟩
      · refine hvalue _ _ _ n h₁ ?_
        have hrest : rest.length < s₁.length := by
          obtain ⟨h₂, -⟩ | ⟨-, s₂, h₂, h⟩ := h
          · exact (Takes.consume h₂).shorter
          · exact ((Takes.consume h₂).trans ((parse_takes fuel).2.2 _ _ _ _ h)).shorter
        omega
      · refine h.imp_right ?_
        rintro ⟨hclose, s₂, h₂, h⟩
        refine ⟨hclose, s₂, h₂, ?_⟩
        have hl₁ := ((parse_takes fuel).1 _ _ _ h₁).shorter
        have hl₂ := (Takes.consume h₂).shorter
        exact helements _ _ _ _ n h (by omega)

/-- The length of the input is enough fuel. -/
theorem parseValue_length {n : Nat} (s : Bytes) (h : s.length ≤ n) :
    JValue.parseValue s.length s = JValue.parseValue n s := by
  cases hlong : JValue.parseValue n s with
  | none =>
    cases hshort : JValue.parseValue s.length s with
    | none => rfl
    | some r =>
      have hn := (parse_fuel s.length).1 s r.1 r.2 n hshort (by omega)
      rw [hlong] at hn
      cases hn
  | some r => exact (parse_fuel n).1 s r.1 r.2 s.length hlong (by omega)

end JsonCursor
end Keylight
