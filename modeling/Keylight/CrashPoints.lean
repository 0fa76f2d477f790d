import Keylight.Sections

/-!
# Programs stopped between two sections

`upTo n` is the state after at most `n` sections, where a crash leaves it.
`Throughout I` says that `I` holds at every such point; it is established along
the run, so a section may rely on what the sections before it did.
-/
namespace Sections

variable {σ α β : Type}

namespace Prog

def upTo : Nat → Prog σ α → σ → σ
  | 0, _, s => s
  | _ + 1, done _, s => s
  | n + 1, step _ f r, s => upTo n (r s) (f s)

/-- Enough sections are the whole run. -/
theorem exists_upTo_run (p : Prog σ α) (s : σ) : ∃ n, p.upTo n s = (p.run s).2 := by
  induction p generalizing s with
  | done a => exact ⟨0, rfl⟩
  | step g f r ih =>
    obtain ⟨n, hn⟩ := ih s (f s)
    exact ⟨n + 1, hn⟩

end Prog

def Throughout (I : σ → Prop) : Prog σ α → σ → Prop
  | .done _, s => I s
  | .step _ f r, s => I s ∧ Throughout I (r s) (f s)

namespace Throughout
variable {I : σ → Prop}

theorem atom {f : σ → α × σ} {s : σ} (h : I s) (h' : I (f s).2) : Throughout I (.atom f) s :=
  ⟨h, h'⟩

theorem start {p : Prog σ α} {s : σ} (h : Throughout I p s) : I s := by
  cases p with
  | done a => exact h
  | step g f r => exact h.1

theorem finish {p : Prog σ α} {s : σ} (h : Throughout I p s) : I (p.run s).2 := by
  induction p generalizing s with
  | done a => exact h
  | step g f r ih => exact ih s h.2

theorem bind' {p : Prog σ α} {k : α → Prog σ β} {s : σ} (hp : Throughout I p s)
    (hk : Throughout I (k (p.run s).1) (p.run s).2) : Throughout I (p.bind k) s := by
  induction p generalizing s with
  | done a => exact hk
  | step g f r ih => exact ⟨hp.1, ih s hp.2 hk⟩

theorem bind {p : Prog σ α} {k : α → Prog σ β} {s : σ} (hp : Throughout I p s)
    (hk : Throughout I (k (p.run s).1) (p.run s).2) : Throughout I (p >>= k) s := bind' hp hk

theorem map {p : Prog σ α} {s : σ} (f : α → β) (hp : Throughout I p s) :
    Throughout I (f <$> p) s := bind' hp hp.finish

/-- The point a crash leaves. -/
theorem upTo {p : Prog σ α} {s : σ} (h : Throughout I p s) (n : Nat) : I (p.upTo n s) := by
  induction n generalizing p s with
  | zero => exact h.start
  | succ n ih =>
    cases p with
    | done a => exact h
    | step g f r => exact ih h.2

end Throughout

end Sections
