import Keylight.Runs

/-!
# Devices that should be registers

A device holds one value and is loaded, saved and cleared, each with a report.
What was reported so far promises an answer to the next load; a register keeps
every promise in every run. `Lawful.kept` derives it from one law per operation,
where clearing may be lawful in some states only.
-/
namespace Register
open Runs

/-- A load answers a value or fails; a save and a clear report whether they succeeded. -/
structure Device (σ δ : Type) where
  load : σ → Option δ × σ
  save : δ → σ → Bool × σ
  clear : σ → Bool × σ

inductive Call (δ : Type) where
  | load
  | save (d : δ)
  | clear

/-- What the reports so far say a load answers. -/
inductive Promise (δ : Type) where
  | nothing
  | saved (d : δ)
  | cleared

variable {σ δ : Type}

namespace Promise

def value (empty : δ) : Promise δ → Option δ
  | nothing => none
  | saved d => some d
  | cleared => some empty

def afterSave (d : δ) (ok : Bool) : Promise δ := if ok then saved d else nothing

/-- A clear that fails takes back what was saved, not an earlier clear. -/
def afterClear (ok : Bool) : Promise δ → Promise δ
  | cleared => cleared
  | _ => if ok then cleared else nothing

theorem value_afterSave {empty d e : δ} {ok : Bool}
    (h : (afterSave d ok).value empty = some e) : ok = true ∧ d = e := by
  cases ok with
  | false => exact nomatch h
  | true => exact ⟨rfl, Option.some.inj h⟩

theorem value_afterClear {empty e : δ} {ok : Bool} {p : Promise δ}
    (h : (p.afterClear ok).value empty = some e) :
    empty = e ∧ (ok = true ∨ p = cleared) := by
  cases p with
  | cleared => exact ⟨Option.some.inj h, .inr rfl⟩
  | nothing =>
    cases ok with
    | false => exact nomatch h
    | true => exact ⟨Option.some.inj h, .inl rfl⟩
  | saved d =>
    cases ok with
    | false => exact nomatch h
    | true => exact ⟨Option.some.inj h, .inl rfl⟩

end Promise

namespace Device
variable (D : Device σ δ)

def next : Call δ → σ × Promise δ → σ × Promise δ
  | .load, (s, p) => ((D.load s).2, p)
  | .save d, (s, _) => ((D.save d s).2, .afterSave d (D.save d s).1)
  | .clear, (s, p) => ((D.clear s).2, p.afterClear (D.clear s).1)

/-- A load answers now what was promised. -/
def Kept (empty : δ) (t : σ × Promise δ) : Prop :=
  ∀ d, t.2.value empty = some d → (D.load t.1).1 = some d

def IsRegister (empty : δ) : Prop :=
  ∀ s calls, D.Kept empty (runAll D.next calls (s, .nothing))

/-- The laws of a register for a representation `Holds`, where a clear in a state of
`clears` holds the empty value afterwards. -/
structure Lawful (empty : δ) (Holds : σ → δ → Prop) (clears : σ → Prop) : Prop where
  load_value : ∀ s d, Holds s d → (D.load s).1 = some d
  load_keeps : ∀ s d, Holds s d → Holds (D.load s).2 d
  save_holds : ∀ s d, (D.save d s).1 = true → Holds (D.save d s).2 d
  clear_holds : ∀ s, clears s → (D.clear s).1 = true → Holds (D.clear s).2 empty
  clear_keeps : ∀ s, Holds s empty → (D.clear s).1 = false → Holds (D.clear s).2 empty

/-- A clear is only called in a state of `clears`. -/
def Clearing (clears : σ → Prop) (t : σ × Promise δ) (c : Call δ) : Prop :=
  c = .clear → clears t.1

namespace Lawful
variable {D} {empty : δ} {Holds : σ → δ → Prop} {clears : σ → Prop}

/-- The promise, represented. -/
def Represents (empty : δ) (Holds : σ → δ → Prop) (t : σ × Promise δ) : Prop :=
  ∀ d, t.2.value empty = some d → Holds t.1 d

theorem step (h : D.Lawful empty Holds clears) {t : σ × Promise δ} {c : Call δ}
    (hc : Clearing clears t c) (ht : Represents empty Holds t) :
    Represents empty Holds (D.next c t) := by
  obtain ⟨s, p⟩ := t
  intro e he
  cases c with
  | load => exact h.load_keeps s e (ht e he)
  | save d =>
    obtain ⟨hok, rfl⟩ := Promise.value_afterSave he
    exact h.save_holds s d hok
  | clear =>
    obtain ⟨rfl, hwhy⟩ := Promise.value_afterClear he
    cases hok : (D.clear s).1 with
    | true => exact h.clear_holds s (hc rfl) hok
    | false =>
      obtain hok' | rfl := hwhy
      · rw [hok] at hok'
        exact nomatch hok'
      · exact h.clear_keeps s (ht empty rfl) hok

/-- In a run that clears only where it is lawful, every load answers what was promised. -/
theorem kept (h : D.Lawful empty Holds clears) {s : σ} {calls : List (Call δ)}
    (hcalls : Along D.next (Clearing clears) calls (s, .nothing)) :
    D.Kept empty (runAll D.next calls (s, .nothing)) := by
  have hstart : Represents empty Holds (s, .nothing) := by
    intro d hd
    exact nomatch hd
  have hrun := hcalls.holds (fun t c ht hc => h.step hc ht) hstart
  intro d hd
  exact h.load_value _ d (hrun d hd)

end Lawful

end Device

end Register
