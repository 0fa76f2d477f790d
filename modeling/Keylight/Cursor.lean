import Mathlib.Data.List.Infix

/-!
# Reading an input through a cursor

Programs that read a fixed input at a position and move the position forward.
A read outside the input and a move past its end are faults, a loop that runs
out of fuel hangs, and a nested call that the stack has no room for overflows:
what a program is shown to return, it returns without any of these. The
reference for such a program is a function on the input that is left, and
`Follows` says that the program computes it.
-/
namespace Cursor

variable {ι α β : Type}

/-- How a run ends that gives no answer. -/
inductive Trap where
  | fault
  | hang
  | overflow
  deriving DecidableEq, Repr

/-- A program over an input and a position in it: `none` where it rejects the input, else a value
and the position after it. -/
def Reader (ι α : Type) := List ι → Nat → Except Trap (Option (α × Nat))

namespace Reader

def andThen (m : Reader ι α) (k : α → Reader ι β) : Reader ι β := fun src p =>
  match m src p with
  | .error t => .error t
  | .ok none => .ok none
  | .ok (some (a, q)) => k a src q

instance : Monad (Reader ι) where
  pure a := fun _ p => .ok (some (a, p))
  bind := andThen

def reject : Reader ι α := fun _ _ => .ok none

def hang : Reader ι α := fun _ _ => .error .hang

def overflow : Reader ι α := fun _ _ => .error .overflow

/-- `p >= end` -/
def atEnd : Reader ι Bool := fun src p => .ok (some (decide (src.length ≤ p), p))

/-- `end - p` -/
def remaining : Reader ι Nat := fun src p => .ok (some (src.length - p, p))

/-- `p[k]` -/
def look (k : Nat) : Reader ι ι := fun src p =>
  match src[p + k]? with
  | some b => .ok (some (b, p))
  | none => .error .fault

/-- `p += k` -/
def skip (k : Nat) : Reader ι Unit := fun src p =>
  if p + k ≤ src.length then .ok (some ((), p + k)) else .error .fault

@[simp] theorem run_pure (a : α) (src : List ι) (p : Nat) :
    (pure a : Reader ι α) src p = .ok (some (a, p)) := rfl

theorem run_bind {m : Reader ι α} {k : α → Reader ι β} {src : List ι} {p q : Nat} {a : α}
    (h : m src p = .ok (some (a, q))) : (m >>= k) src p = k a src q := by
  change andThen m k src p = _
  rw [andThen, h]

theorem run_bind_none {m : Reader ι α} {k : α → Reader ι β} {src : List ι} {p : Nat}
    (h : m src p = .ok none) : (m >>= k) src p = .ok none := by
  change andThen m k src p = _
  rw [andThen, h]

theorem run_bind_error {m : Reader ι α} {k : α → Reader ι β} {src : List ι} {p : Nat} {t : Trap}
    (h : m src p = .error t) : (m >>= k) src p = .error t := by
  change andThen m k src p = _
  rw [andThen, h]

theorem run_ite (c : Prop) [Decidable c] (m m' : Reader ι α) (src : List ι) (p : Nat) :
    (if c then m else m') src p = if c then m src p else m' src p := by
  split <;> rfl

end Reader

/-- The position at which `s` is left of `src`. -/
def place (src s : List ι) : Nat := src.length - s.length

theorem place_self (src : List ι) : place src src = 0 := Nat.sub_self _

/-- The answer of the reference, as a position. -/
def placed (src : List ι) (r : Option (α × List ι)) : Option (α × Nat) :=
  r.map fun (a, rest) => (a, place src rest)

@[simp] theorem placed_none (src : List ι) : placed src (none : Option (α × List ι)) = none := rfl

@[simp] theorem placed_some (src : List ι) (a : α) (rest : List ι) :
    placed src (some (a, rest)) = some (a, place src rest) := rfl

/-- Where at most `n` elements are left, the program computes the reference. -/
def Follows (n : Nat) (m : Reader ι α) (f : List ι → Option (α × List ι)) : Prop :=
  ∀ src s, s <:+ src → s.length ≤ n → m src (place src s) = .ok (placed src (f s))

/-- The run overflows where `deep` holds and answers `a` elsewhere. -/
def Limited (deep : Prop) (run : Except Trap α) (a : α) : Prop :=
  deep ∧ run = .error .overflow ∨ ¬deep ∧ run = .ok a

/-- A reference leaves what follows what it read. -/
def Shrinks (f : List ι → Option (α × List ι)) : Prop :=
  ∀ s a rest, f s = some (a, rest) → rest <:+ s

/-- A program after one that computes its reference. -/
theorem run_placed {m : Reader ι α} {src s : List ι} {r : Option (α × List ι)}
    (h : m src (place src s) = .ok (placed src r)) (k : α → Reader ι β) :
    (m >>= k) src (place src s) =
      r.elim (.ok none) fun (a, rest) => k a src (place src rest) := by
  cases r with
  | none => exact Reader.run_bind_none h
  | some r => exact Reader.run_bind h

theorem add_place {src s : List ι} (h : s <:+ src) : place src s + s.length = src.length :=
  Nat.sub_add_cancel h.length_le

namespace Reader
variable {src s : List ι}

theorem atEnd_place (h : s <:+ src) :
    atEnd src (place src s) = .ok (some (s.isEmpty, place src s)) := by
  have hp := add_place h
  cases s with
  | nil => simp [atEnd, place]
  | cons b s =>
    rw [List.length_cons] at hp
    have hlt : ¬src.length ≤ place src (b :: s) := by omega
    simp only [atEnd, hlt, decide_false, List.isEmpty_cons]

theorem remaining_place (h : s <:+ src) :
    remaining src (place src s) = .ok (some (s.length, place src s)) := by
  have hp := add_place h
  rw [remaining]
  congr 4
  omega

theorem getElem?_place (h : s <:+ src) (k : Nat) : src[place src s + k]? = s[k]? := by
  obtain ⟨t, rfl⟩ := h
  have hp : place (t ++ s) s = t.length := by
    rw [place, List.length_append]
    omega
  rw [hp, List.getElem?_append_right (Nat.le_add_right _ _), Nat.add_sub_cancel_left]

theorem look_place (h : s <:+ src) {k : Nat} {b : ι} (hk : s[k]? = some b) :
    look k src (place src s) = .ok (some (b, place src s)) := by
  rw [look, getElem?_place h, hk]

theorem skip_place (h : s <:+ src) {k : Nat} (hk : k ≤ s.length) :
    skip k src (place src s) = .ok (some ((), place src (s.drop k))) := by
  have hp := add_place h
  have hin : place src s + k ≤ src.length := by omega
  have hto : place src s + k = place src (s.drop k) := by
    simp only [place, List.length_drop] at hp ⊢
    omega
  rw [skip, if_pos hin, hto]

end Reader

namespace Reader

/-- `while (p < end && c(*p)) { push(*p); ++p; }` -/
def scan (c : ι → Bool) (push : α → ι → α) : Nat → α → Reader ι α
  | 0, _ => hang
  | fuel + 1, acc => do
    if ← atEnd then pure acc
    else do
      let b ← look 0
      if c b then do
        skip 1
        scan c push fuel (push acc b)
      else pure acc

end Reader

/-- The loop takes what satisfies its condition and leaves the rest. -/
theorem follows_scan (c : ι → Bool) (push : α → ι → α) {n fuel : Nat} (h : n < fuel) (acc : α) :
    Follows n (Reader.scan c push fuel acc) fun s =>
      some ((s.takeWhile c).foldl push acc, s.dropWhile c) := by
  intro src s hs hl
  induction fuel generalizing n s acc with
  | zero => omega
  | succ fuel ih =>
    rw [Reader.scan, Reader.run_bind (Reader.atEnd_place hs)]
    cases s with
    | nil => rfl
    | cons b s =>
      simp only [List.isEmpty_cons, Bool.false_eq_true, if_false]
      rw [Reader.run_bind (Reader.look_place hs rfl), Reader.run_ite]
      cases hb : c b with
      | false => simp [hb]
      | true =>
        rw [if_pos rfl, Reader.run_bind (Reader.skip_place hs (k := 1) (by simp)), List.drop_one,
          List.tail_cons, List.takeWhile_cons_of_pos hb, List.dropWhile_cons_of_pos hb,
          List.foldl_cons]
        rw [List.length_cons] at hl
        exact ih (n := s.length) (by omega) _ _ ((List.suffix_cons b s).trans hs) le_rfl

end Cursor
