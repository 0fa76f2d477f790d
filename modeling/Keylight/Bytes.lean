import Mathlib.Data.List.Sort
import Mathlib.Tactic.IntervalCases

/-!
# Byte strings and decimal numerals

A `std::string` is a list of bytes: nothing in the client requires its text to
be UTF-8. The one numeral format is `std::to_string`, an optional minus sign
followed by the decimal digits without leading zeros.
-/
abbrev Bytes := List UInt8

namespace Bytes

/-- The bytes of an ASCII literal. -/
def ascii (s : String) : Bytes := s.toList.map fun c => UInt8.ofNat c.toNat

def isDigit (c : UInt8) : Bool := 48 ≤ c && c ≤ 57

def digitValue (c : UInt8) : Nat := c.toNat - 48

def natDigits (n : Nat) : Bytes := (Nat.toDigits 10 n).map fun c => UInt8.ofNat c.toNat

/-- `std::to_string` on a signed integer. -/
def decimal (i : Int) : Bytes := if i < 0 then 45 :: natDigits i.natAbs else natDigits i.natAbs

/-- The value a left-to-right scan of decimal digits accumulates. -/
def digitsValue (ds : Bytes) : Nat := ds.foldl (fun n c => n * 10 + digitValue c) 0

theorem digitChar_byte (d : Nat) (h : d < 10) :
    isDigit (UInt8.ofNat (Nat.digitChar d).toNat) = true ∧
      digitValue (UInt8.ofNat (Nat.digitChar d).toNat) = d := by
  interval_cases d <;> decide

theorem natDigits_lt (n : Nat) (h : n < 10) :
    natDigits n = [UInt8.ofNat (Nat.digitChar n).toNat] := by
  simp [natDigits, Nat.toDigits_of_lt_base h]

theorem natDigits_ge (n : Nat) (h : 10 ≤ n) :
    natDigits n = natDigits (n / 10) ++ [UInt8.ofNat (Nat.digitChar (n % 10)).toNat] := by
  simp [natDigits, Nat.toDigits_of_base_le (by decide) h]

theorem natDigits_isDigit (n : Nat) : ∀ c ∈ natDigits n, isDigit c = true := by
  induction n using Nat.strong_induction_on with
  | _ n ih =>
    by_cases h : n < 10
    · simpa [natDigits_lt n h] using (digitChar_byte n h).1
    · rw [natDigits_ge n (by omega)]
      intro c hc
      rcases List.mem_append.mp hc with hc | hc
      · exact ih (n / 10) (by omega) c hc
      · rw [List.mem_singleton.mp hc]
        exact (digitChar_byte (n % 10) (by omega)).1

theorem natDigits_value (n : Nat) : digitsValue (natDigits n) = n := by
  induction n using Nat.strong_induction_on with
  | _ n ih =>
    by_cases h : n < 10
    · simp [natDigits_lt n h, digitsValue, (digitChar_byte n h).2]
    · have hq := ih (n / 10) (by omega)
      have hr := (digitChar_byte (n % 10) (by omega)).2
      rw [natDigits_ge n (by omega)]
      simp only [digitsValue, List.foldl_append, List.foldl_cons, List.foldl_nil, hr] at hq ⊢
      rw [hq]
      omega

theorem natDigits_ne_nil (n : Nat) : natDigits n ≠ [] := by
  by_cases h : n < 10
  · simp [natDigits_lt n h]
  · simp [natDigits_ge n (by omega)]

end Bytes
