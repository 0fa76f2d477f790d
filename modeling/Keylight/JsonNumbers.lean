import Keylight.JsonCursor

/-!
# The accumulators of a number

`parseNumber` collects digits in two int64 loops. The integer loop leaves the
int64 range for a double before it would overflow; the exponent loop has no
such guard, so it overflows exactly where the exponent written is too large.
-/
namespace Keylight
open Bytes Binary64 JValue

/-- The accumulator before each step of a digit loop, and after the last. -/
def scanSteps (push : β → Nat → β) : β → Bytes → List β
  | acc, [] => [acc]
  | acc, c :: s => if isDigit c then acc :: scanSteps push (push acc (digitValue c)) s else [acc]

theorem scanSteps_last (push : β → Nat → β) (acc : β) (s : Bytes) :
    (scanSteps push acc s).getLast? = some (scanDigits push acc s).1 := by
  induction s generalizing acc with
  | nil => rfl
  | cons c s ih =>
    rw [scanSteps, scanDigits]
    split
    · rw [List.getLast?_cons, ih]
      rfl
    · rfl

/-- What one digit preserves holds at every step. -/
theorem scanSteps_invariant {push : β → Nat → β} {I : β → Prop}
    (hstep : ∀ acc c, isDigit c = true → I acc → I (push acc (digitValue c))) {acc : β}
    (h : I acc) (s : Bytes) : ∀ a ∈ scanSteps push acc s, I a := by
  induction s generalizing acc with
  | nil =>
    intro a ha
    rw [List.mem_singleton.mp ha]
    exact h
  | cons c s ih =>
    intro a ha
    rw [scanSteps] at ha
    split at ha
    · next hc =>
      obtain rfl | ha := List.mem_cons.mp ha
      · exact h
      · exact ih (hstep acc c hc h) a ha
    · rw [List.mem_singleton.mp ha]
      exact h

/-- Two loops in step. -/
theorem scanSteps_map {push : β → Nat → β} {push' : γ → Nat → γ} {f : β → γ}
    (hf : ∀ acc d, f (push acc d) = push' (f acc) d) (acc : β) (s : Bytes) :
    scanSteps push' (f acc) s = (scanSteps push acc s).map f := by
  induction s generalizing acc with
  | nil => rfl
  | cons c s ih =>
    rw [scanSteps, scanSteps]
    split
    · rw [List.map_cons, ← ih, hf]
    · rfl

/-- `n * 10 + digit` over the integers. -/
def decimalPush (n digit : Nat) : Nat := n * 10 + digit

/-- The number that the digits at the head of `s` write. -/
def scannedValue (s : Bytes) : Nat := (scanDigits decimalPush 0 s).1

/-- The value grows with every digit. -/
theorem scanSteps_le (acc : Nat) (s : Bytes) :
    acc ≤ (scanDigits decimalPush acc s).1 ∧
      ∀ n ∈ scanSteps decimalPush acc s, n ≤ (scanDigits decimalPush acc s).1 := by
  induction s generalizing acc with
  | nil => simp [scanSteps, scanDigits]
  | cons c s ih =>
    obtain ⟨hfirst, hall⟩ := ih (decimalPush acc (digitValue c))
    rw [scanSteps, scanDigits]
    split
    · have hacc : acc ≤ decimalPush acc (digitValue c) := by
        unfold decimalPush
        omega
      refine ⟨hacc.trans hfirst, ?_⟩
      intro n hn
      obtain rfl | hn := List.mem_cons.mp hn
      · exact hacc.trans hfirst
      · exact hall n hn
    · simp

/-- The last step is the largest. -/
theorem scanSteps_fit (limit : Nat) (s : Bytes) :
    (∀ n ∈ scanSteps decimalPush 0 s, n ≤ limit) ↔ scannedValue s ≤ limit := by
  constructor
  · intro h
    exact h _ (List.mem_of_getLast? (scanSteps_last decimalPush 0 s))
  · intro h n hn
    exact ((scanSteps_le 0 s).2 n hn).trans h

/-- The guard is exact: the digit is taken where the next value is an int64. -/
theorem push_fits {acc : IntPart} {c : UInt8} (hc : isDigit c = true)
    (h : acc.ival ≤ int64Max) : (IntPart.push acc (digitValue c)).ival ≤ int64Max := by
  have hd : digitValue c ≤ 9 := by
    simp only [isDigit, Bool.and_eq_true, decide_eq_true_eq, UInt8.le_iff_toNat_le] at hc
    simp only [digitValue]
    have h₉ : (57 : UInt8).toNat = 57 := rfl
    omega
  unfold IntPart.push
  cases acc.big with
  | some big => exact h
  | none =>
    dsimp only
    split
    · exact h
    · simp only [int64Max] at *
      omega

/-- The code's accumulator is the integer one, wrapped. -/
theorem exponentSteps_wrap (s : Bytes) :
    scanSteps exponentPush 0 s = (scanSteps decimalPush 0 s).map Int64.ofNat := by
  apply scanSteps_map (f := Int64.ofNat)
  intro n d
  rw [decimalPush, exponentPush, Int64.ofNat_add, Int64.ofNat_mul]
  rfl

/-- A number without its sign. -/
def unsigned (s : Bytes) : Bytes := if s.head? = some 45 then s.tail else s

/-- What the exponent loop reads, in a number that has an exponent. -/
def exponentInput (s : Bytes) : Option Bytes :=
  match unsigned s with
  | [] => none
  | c :: u =>
    if isDigit c then
      let (acc, s) := scanDigits IntPart.push ⟨0, none⟩ (c :: u)
      match (fractionPart (acc.big.getD (ofNat acc.ival)) s).2 with
      | e :: s => if e = 101 ∨ e = 69 then some (exponentSign s).2 else none
      | [] => none
    else none

/-- The number ends where that loop does, and the loop's result scales it. -/
theorem parseNumber_exponent {s t : Bytes} (h : exponentInput s = some t) :
    ∃ neg shift dval, parseNumber s =
      some (.double neg (shift^[(scanDigits exponentPush 0 t).1.toInt.toNat] dval),
        (scanDigits exponentPush 0 t).2) := by
  unfold exponentInput unsigned at h
  rw [parseNumber]
  generalize (if s.head? = some 45 then s.tail else s) = u at h ⊢
  cases u with
  | nil => cases h
  | cons c u =>
    dsimp only at h
    by_cases hd : isDigit c = true
    · rw [if_pos hd] at h
      simp only [if_pos hd]
      generalize scanDigits IntPart.push ⟨0, none⟩ (c :: u) = r at h ⊢
      obtain ⟨acc, v⟩ := r
      dsimp only at h ⊢
      generalize fractionPart (acc.big.getD (ofNat acc.ival)) v = r at h ⊢
      obtain ⟨frac, w⟩ := r
      dsimp only at h ⊢
      cases w with
      | nil => cases h
      | cons e w =>
        dsimp only at h
        split at h
        · next he =>
          cases h
          simp only [exponentPart, if_pos he]
          cases acc.big <;> cases frac <;> exact ⟨_, _, _, rfl⟩
        · cases h
    · rw [if_neg hd] at h
      cases h

/-- Both accumulators stay in `[0, INT64_MAX]` at every step, and a plain decimal literal up to
`INT64_MAX` in size is read exactly. -/
structure NumberSafe (s : Bytes) : Prop where
  integer : ∀ acc ∈ scanSteps IntPart.push ⟨0, none⟩ (unsigned s), acc.ival ≤ int64Max
  exponent : ∀ t, exponentInput s = some t → ∀ e ∈ scanSteps decimalPush 0 t, e ≤ int64Max
  plain : ∀ (neg : Bool) (ds rest : Bytes), s = (if neg then [45] else []) ++ ds ++ rest →
    ds ≠ [] → (∀ c ∈ ds, isDigit c = true) → NumEnd rest → scannedValue ds ≤ int64Max →
    ∃ v, parseNumber s = some (v, rest) ∧
      v.asInt.toInt = if neg then -(scannedValue ds : Int) else scannedValue ds

theorem scannedValue_digits {ds : Bytes} (h : ∀ c ∈ ds, isDigit c = true) :
    scannedValue ds = ds.foldl (fun n c => n * 10 + digitValue c) 0 := by
  have hscan := scanDigits_append decimalPush 0 ds [] h (by simp)
  rw [List.append_nil] at hscan
  rw [scannedValue, hscan]
  rfl

/-- A number is read safely exactly where its exponent, if it has one, is an int64. -/
theorem number_safe (s : Bytes) :
    NumberSafe s ↔ ∀ t, exponentInput s = some t → scannedValue t ≤ int64Max := by
  constructor
  · intro h t ht
    exact (scanSteps_fit int64Max t).mp (h.exponent t ht)
  · intro h
    refine ⟨?_, fun t ht => (scanSteps_fit int64Max t).mpr (h t ht), ?_⟩
    · exact scanSteps_invariant (I := fun acc : IntPart => acc.ival ≤ int64Max)
        (fun acc c hc => push_fits hc) (Nat.zero_le _) _
    · rintro neg ds rest rfl hne hd hrest hle
      rw [scannedValue_digits hd] at hle ⊢
      exact ⟨_, parseNumber_digits neg ds rest hne hd hle hrest, toInt_signed neg hle⟩

/-- `1e9223372036854775808`: the exponent loop overflows at its last digit. -/
theorem exponent_unsafe : ¬∀ s, NumberSafe s := by
  intro h
  let exponent : Bytes :=
    [57, 50, 50, 51, 51, 55, 50, 48, 51, 54, 56, 53, 52, 55, 55, 53, 56, 48, 56]
  have hinput : exponentInput (49 :: 101 :: exponent) = some exponent := by decide +kernel
  have hfit := (h (49 :: 101 :: exponent)).exponent exponent hinput
  rw [scanSteps_fit] at hfit
  exact absurd hfit (by decide +kernel)

end Keylight
