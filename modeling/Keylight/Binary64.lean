import Mathlib.Algebra.Group.Nat.Defs
import Mathlib.Data.Nat.Log

/-!
# Non-negative binary64 arithmetic

Just enough of IEEE-754 double precision to run a decimal scanner: values
`mant * 2 ^ exp` and infinity, with sums, products and quotients rounded to the
nearest representable value, ties to even. Every operand is non-negative and no
operation here can produce a NaN, so the type has none.
-/
namespace Binary64

inductive Magnitude where
  | finite : Nat → Int → Magnitude
  | inf : Magnitude
  deriving DecidableEq, Repr

/-- The binary64 value nearest to `num / den`; subnormals share the exponent `-1074`. -/
def round (num den : Nat) : Magnitude :=
  if num = 0 then .finite 0 0 else
    let low : Int := (Nat.log2 num : Int) - Nat.log2 den - 53
    let wide := num * 2 ^ (-low).toNat / (den * 2 ^ low.toNat)
    let exp := max (if wide < 2 ^ 53 then low else low + 1) (-1074)
    let n := num * 2 ^ (-exp).toNat
    let d := den * 2 ^ exp.toNat
    let down := n / d
    let rest := n % d
    let mant := if 2 * rest < d ∨ (2 * rest = d ∧ down % 2 = 0) then down else down + 1
    if 1024 ≤ exp + Nat.log2 mant then .inf else .finite mant exp

def ofNat (n : Nat) : Magnitude := round n 1

def add : Magnitude → Magnitude → Magnitude
  | .finite m e, .finite m' e' =>
    let low := min e e'
    let sum := m * 2 ^ (e - low).toNat + m' * 2 ^ (e' - low).toNat
    round (sum * 2 ^ low.toNat) (2 ^ (-low).toNat)
  | _, _ => .inf

def mul : Magnitude → Magnitude → Magnitude
  | .finite m e, .finite m' e' => round (m * m' * 2 ^ (e + e').toNat) (2 ^ (-(e + e')).toNat)
  | _, _ => .inf

/-- Division by an exactly represented positive integer. -/
def divNat : Magnitude → Nat → Magnitude
  | .finite m e, d => round (m * 2 ^ e.toNat) (d * 2 ^ (-e).toNat)
  | .inf, _ => .inf

/-- The double literal `0.1`. -/
def tenth : Magnitude := round 1 10

example : tenth = .finite 0x1999999999999A (-56) := by decide

/-- `n ≤ x`. -/
def natLE (n : Nat) : Magnitude → Bool
  | .finite m e => n * 2 ^ (-e).toNat ≤ m * 2 ^ e.toNat
  | .inf => true

/-- `n < x`. -/
def natLT (n : Nat) : Magnitude → Bool
  | .finite m e => n * 2 ^ (-e).toNat < m * 2 ^ e.toNat
  | .inf => true

/-- Conversion to an integer discards the fraction. -/
def truncate : Magnitude → Nat
  | .finite m e => m * 2 ^ e.toNat / 2 ^ (-e).toNat
  | .inf => 0

end Binary64
