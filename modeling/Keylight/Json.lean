import Keylight.Binary64
import Keylight.Result

/-!
# The JSON reader

A recursive-descent parser over the bytes still to be read. The cursor of the
source is the start of that list, so it can only move forward. Nesting and
repetition are bounded by fuel: each call consumes a byte before the next one,
so the length of the input is always enough.
-/
namespace Keylight
open Bytes Binary64

/-- Objects keep the insertion order of their keys beside the lookup map. -/
inductive JValue where
  | null : JValue
  | bool : Bool → JValue
  | int : Int64 → JValue
  | double : Bool → Magnitude → JValue
  | string : Bytes → JValue
  | array : List JValue → JValue
  | object : List Bytes → List (Bytes × JValue) → JValue

namespace JValue

def isSpace (c : UInt8) : Bool := c = 32 || c = 9 || c = 10 || c = 13

def skipWs : Bytes → Bytes
  | [] => []
  | c :: s => if isSpace c then skipWs s else c :: s

def consume (c : UInt8) : Bytes → Option Bytes
  | [] => none
  | d :: s => if d = c then some s else none

def nibble (c : UInt8) : Option Nat :=
  if 48 ≤ c && c ≤ 57 then some (c.toNat - 48)
  else if 97 ≤ c && c ≤ 102 then some (c.toNat - 97 + 10)
  else if 65 ≤ c && c ≤ 70 then some (c.toNat - 65 + 10)
  else none

def hex4 (a b c d : UInt8) : Option Nat := do
  let a ← nibble a
  let b ← nibble b
  let c ← nibble c
  let d ← nibble d
  return ((a * 16 + b) * 16 + c) * 16 + d

def encodeUtf8 (cp : Nat) : Bytes :=
  if cp < 0x80 then [UInt8.ofNat cp]
  else if cp < 0x800 then [UInt8.ofNat (0xC0 + cp / 64), UInt8.ofNat (0x80 + cp % 64)]
  else if cp < 0x10000 then
    [UInt8.ofNat (0xE0 + cp / 4096), UInt8.ofNat (0x80 + cp / 64 % 64),
      UInt8.ofNat (0x80 + cp % 64)]
  else
    [UInt8.ofNat (0xF0 + cp / 262144), UInt8.ofNat (0x80 + cp / 4096 % 64),
      UInt8.ofNat (0x80 + cp / 64 % 64), UInt8.ofNat (0x80 + cp % 64)]

def unescape (esc : UInt8) : Option UInt8 :=
  if esc = 34 then some 34
  else if esc = 92 then some 92
  else if esc = 47 then some 47
  else if esc = 98 then some 8
  else if esc = 102 then some 12
  else if esc = 110 then some 10
  else if esc = 114 then some 13
  else if esc = 116 then some 9
  else none

/-- The bytes of a string literal up to its closing quote, and what follows it.
A high surrogate must be followed at once by an escaped low one; a lone low
surrogate is encoded as it stands. -/
def parseString : Bytes → Option (Bytes × Bytes)
  | [] => none
  | c :: s =>
    if c = 34 then some ([], s)
    else if c = 92 then
      match s with
      | [] => none
      | esc :: s =>
        if esc = 117 then
          match s with
          | a :: b :: c :: d :: s =>
            match hex4 a b c d with
            | none => none
            | some cp =>
              if 0xD800 ≤ cp ∧ cp ≤ 0xDBFF then
                match s with
                | p :: q :: e :: f :: g :: h :: s =>
                  if p = 92 ∧ q = 117 then
                    match hex4 e f g h with
                    | none => none
                    | some low =>
                      if low < 0xDC00 ∨ 0xDFFF < low then none
                      else (parseString s).map fun (out, rest) =>
                        (encodeUtf8 (0x10000 + (cp - 0xD800) * 1024 + (low - 0xDC00)) ++ out, rest)
                  else none
                | _ => none
              else (parseString s).map fun (out, rest) => (encodeUtf8 cp ++ out, rest)
          | _ => none
        else
          match unescape esc with
          | none => none
          | some b => (parseString s).map fun (out, rest) => (b :: out, rest)
    else (parseString s).map fun (out, rest) => (c :: out, rest)

/-- Read decimal digits for as long as there are any. -/
def scanDigits (push : β → Nat → β) : β → Bytes → β × Bytes
  | acc, [] => (acc, [])
  | acc, c :: s =>
    if isDigit c then scanDigits push (push acc (digitValue c)) s else (acc, c :: s)

def int64Max : Nat := 2 ^ 63 - 1

/-- The integer part: `ival` while it fits an int64, a double from the digit that would overflow. -/
structure IntPart where
  ival : Nat
  big : Option Magnitude
  deriving DecidableEq, Repr

def IntPart.push (acc : IntPart) (digit : Nat) : IntPart :=
  match acc.big with
  | some big => { acc with big := some (add (mul big (ofNat 10)) (ofNat digit)) }
  | none =>
    if acc.ival > (int64Max - digit) / 10 then
      { acc with big := some (add (mul (ofNat acc.ival) (ofNat 10)) (ofNat digit)) }
    else { acc with ival := acc.ival * 10 + digit }

def fractionPush (acc : Magnitude × Magnitude) (digit : Nat) : Magnitude × Magnitude :=
  (add acc.1 (mul (ofNat digit) acc.2), mul acc.2 tenth)

/-- The exponent accumulator has no overflow guard: it wraps like the int64 it is. -/
def exponentPush (exp : Int64) (digit : Nat) : Int64 := exp * 10 + Int64.ofNat digit

def fractionPart (dval : Magnitude) : Bytes → Option Magnitude × Bytes
  | 46 :: s =>
    let (acc, rest) := scanDigits fractionPush (dval, tenth) s
    (some acc.1, rest)
  | s => (none, s)

def exponentSign : Bytes → Bool × Bytes
  | 43 :: s => (false, s)
  | 45 :: s => (true, s)
  | s => (false, s)

def exponentPart (dval : Magnitude) : Bytes → Option Magnitude × Bytes
  | c :: s =>
    if c = 101 ∨ c = 69 then
      let (eneg, s) := exponentSign s
      let (exp, rest) := scanDigits exponentPush 0 s
      let shift := fun d => if eneg then divNat d 10 else mul d (ofNat 10)
      (some (shift^[exp.toInt.toNat] dval), rest)
    else (none, c :: s)
  | [] => (none, [])

/-- A number; the cursor is on its first digit or on the minus sign. -/
def parseNumber (s : Bytes) : Option (JValue × Bytes) :=
  let neg := s.head? = some 45
  let s := if neg then s.tail else s
  match s with
  | [] => none
  | c :: _ =>
    if isDigit c then
      let (acc, s) := scanDigits IntPart.push ⟨0, none⟩ s
      let dval := acc.big.getD (ofNat acc.ival)
      let (frac, s) := fractionPart dval s
      let (scaled, s) := exponentPart (frac.getD dval) s
      match acc.big, frac, scaled with
      | none, none, none =>
        some (.int (if neg then -Int64.ofNat acc.ival else Int64.ofNat acc.ival), s)
      | _, _, _ => some (.double neg (scaled.getD (frac.getD dval)), s)
    else none

/-- `obj_map[key] = val` -/
def setMember (m : List (Bytes × JValue)) (key : Bytes) (val : JValue) : List (Bytes × JValue) :=
  match m with
  | [] => [(key, val)]
  | (k, v) :: m => if k = key then (key, val) :: m else (k, v) :: setMember m key val

def literal (word : Bytes) (v : JValue) (s : Bytes) : Option (JValue × Bytes) :=
  if word.isPrefixOf s then some (v, s.drop word.length) else none

mutual

def parseValue : Nat → Bytes → Option (JValue × Bytes)
  | 0, _ => none
  | fuel + 1, s =>
    match skipWs s with
    | [] => none
    | c :: s =>
      if c = 34 then (parseString s).map fun (out, rest) => (.string out, rest)
      else if c = 123 then
        match consume 125 (skipWs s) with
        | some rest => some (.object [] [], rest)
        | none => parseMembers fuel [] [] (skipWs s)
      else if c = 91 then
        match consume 93 (skipWs s) with
        | some rest => some (.array [], rest)
        | none => parseElements fuel [] (skipWs s)
      else if c = 116 then literal (ascii "true") (.bool true) (c :: s)
      else if c = 102 then literal (ascii "false") (.bool false) (c :: s)
      else if c = 110 then literal (ascii "null") .null (c :: s)
      else if c = 45 ∨ isDigit c then parseNumber (c :: s)
      else none

def parseMembers : Nat → List Bytes → List (Bytes × JValue) → Bytes → Option (JValue × Bytes)
  | 0, _, _, _ => none
  | fuel + 1, keys, map, s =>
    match consume 34 (skipWs s) with
    | none => none
    | some s =>
      match parseString s with
      | none => none
      | some (key, s) =>
        match consume 58 (skipWs s) with
        | none => none
        | some s =>
          match parseValue fuel (skipWs s) with
          | none => none
          | some (val, s) =>
            let keys := if (map.lookup key).isSome then keys else keys ++ [key]
            let map := setMember map key val
            match consume 125 (skipWs s) with
            | some rest => some (.object keys map, rest)
            | none =>
              match consume 44 (skipWs s) with
              | some s => parseMembers fuel keys map s
              | none => none

def parseElements : Nat → List JValue → Bytes → Option (JValue × Bytes)
  | 0, _, _ => none
  | fuel + 1, arr, s =>
    match parseValue fuel (skipWs s) with
    | none => none
    | some (elem, s) =>
      match consume 93 (skipWs s) with
      | some rest => some (.array (arr ++ [elem]), rest)
      | none =>
        match consume 44 (skipWs s) with
        | some s => parseElements fuel (arr ++ [elem]) s
        | none => none

end

end JValue

/-- The public handle; a missing member or element reads as null. -/
abbrev Json := JValue

namespace Json
open JValue

def parse (src : Bytes) : Result Json :=
  if src = [] then .error ⟨.badResponse, ascii "empty JSON input"⟩ else
    match parseValue src.length src with
    | none => .error ⟨.badResponse, ascii "malformed JSON"⟩
    | some (v, rest) =>
      if skipWs rest = [] then .ok v
      else .error ⟨.badResponse, ascii "trailing garbage in JSON"⟩

end Json

namespace JValue

/-- `operator[]` -/
def get (j : JValue) (key : Bytes) : JValue :=
  match j with
  | .object _ map => (map.lookup key).getD .null
  | _ => .null

def at' (j : JValue) (i : Nat) : JValue :=
  match j with
  | .array arr => arr.getD i .null
  | _ => .null

def size : JValue → Nat
  | .array arr => arr.length
  | .object _ map => map.length
  | _ => 0

def asString : JValue → Bytes
  | .string s => s
  | _ => []

/-- Doubles saturate at the ends of the int64 range. -/
def asInt : JValue → Int64
  | .int i => i
  | .double neg d =>
    if neg then
      if natLT (2 ^ 63) d then Int64.minValue else Int64.ofInt (-truncate d)
    else if natLE (2 ^ 63) d then Int64.maxValue else Int64.ofInt (truncate d)
  | _ => 0

def asBool : JValue → Bool
  | .bool b => b
  | _ => false

def keys : JValue → List Bytes
  | .object ks _ => ks
  | _ => []

end JValue
end Keylight
