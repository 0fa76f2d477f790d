import Keylight.Bytes

/-!
# Results, errors and base64

`Result<T>` is `Except Error T`. The base64 decoder skips every byte outside the
standard alphabet and stops at the first padding byte.
-/
namespace Keylight
open Bytes

inductive ErrorCode where
  | none | network | http | invalidKey | seatLimit | notActivated | badResponse | crypto
  | config | io
  deriving DecidableEq, Repr

structure Error where
  code : ErrorCode
  message : Bytes
  deriving DecidableEq, Repr

abbrev Result := Except Error

def isOk : Result α → Bool
  | .ok _ => true
  | .error _ => false

@[simp] theorem isOk_ok (a : α) : isOk (.ok a : Result α) = true := rfl
@[simp] theorem isOk_error (e : Error) : isOk (.error e : Result α) = false := rfl

inductive B64 where
  | value : UInt32 → B64
  | padding : B64
  | ignore : B64
  deriving DecidableEq, Repr

def b64Val (c : UInt8) : B64 :=
  if 65 ≤ c && c ≤ 90 then .value (c.toUInt32 - 65)
  else if 97 ≤ c && c ≤ 122 then .value (c.toUInt32 - 97 + 26)
  else if 48 ≤ c && c ≤ 57 then .value (c.toUInt32 - 48 + 52)
  else if c = 43 then .value 62
  else if c = 47 then .value 63
  else if c = 61 then .padding
  else .ignore

/-- The decoding loop: `buf` shifts in six bits a character, `bits` counts the undelivered ones. -/
def base64Loop (buf : UInt32) (bits : UInt32) : Bytes → Bytes
  | [] => []
  | c :: input =>
    match b64Val c with
    | .ignore => base64Loop buf bits input
    | .padding => []
    | .value v =>
      let buf := (buf <<< 6) ||| v
      let bits := bits + 6
      if 8 ≤ bits then
        ((buf >>> (bits - 8)) &&& 0xFF).toUInt8 :: base64Loop buf (bits - 8) input
      else base64Loop buf bits input

def base64Decode (input : Bytes) : Bytes := base64Loop 0 0 input

end Keylight
