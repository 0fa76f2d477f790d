import Keylight.Result

/-!
# Retry policy

Pure decisions about a failed attempt: which statuses are worth another try and
how long to wait, with the server's Retry-After honoured on a 429 only.
-/
namespace Keylight
open Bytes

def retryMaxAttempts : Nat := 3
def retryBaseMs : Nat := 500
def retryCapMs : Nat := 4000
def retryMaxSleepMs : Nat := 3600000

structure RetryDecision where
  retry : Bool
  delayMs : Nat
  deriving DecidableEq, Repr

/-- Backoff for a 1-based attempt; the shift is bounded before it is applied. -/
def backoffMs (attempt : Nat) : Nat :=
  if attempt = 0 then retryBaseMs else min (retryBaseMs * 2 ^ min (attempt - 1) 20) retryCapMs

def statusRetryable (status : Int) : Bool :=
  status = 408 || status = 429 || (500 ≤ status && status ≤ 599)

def isBlank (c : UInt8) : Bool := c = 32 || c = 9

def uint64Max : Nat := 2 ^ 64 - 1

def retryAfterDigits : Nat → Bytes → Option Nat
  | out, [] => some out
  | out, c :: v =>
    if !isDigit c then none
    else if out > (uint64Max - digitValue c) / 10 then none
    else retryAfterDigits (out * 10 + digitValue c) v

/-- Only the delay-seconds form: blanks around one run of digits. -/
def parseRetryAfter (value : Bytes) : Option Nat :=
  let v := ((value.dropWhile isBlank).reverse.dropWhile isBlank).reverse
  if v = [] then none else retryAfterDigits 0 v

def retryDecide (status : Int) (attempt : Nat) (retryAfterSecs : Option Nat) : RetryDecision :=
  if retryMaxAttempts ≤ attempt || !statusRetryable status then ⟨false, 0⟩
  else
    let raw :=
      match retryAfterSecs with
      | some secs =>
        if status = 429 then
          if secs > retryMaxSleepMs / 1000 then retryMaxSleepMs else secs * 1000
        else backoffMs attempt
      | none => backoffMs attempt
    ⟨true, min raw retryMaxSleepMs⟩

end Keylight
