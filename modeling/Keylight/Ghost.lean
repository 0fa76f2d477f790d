import Keylight.Interference

/-!
# Code with ghost state

Code over a larger state that does, section by section, what other code does on a
part of it. Every run of the plain threads is then a run of the threads with the
ghost state, seen on that part.
-/
namespace Sections

variable {σ τ α β : Type}

/-- `p` does what `q` does on the part `get` of the state. -/
def Erases (get : τ → σ) : Prog τ α → Prog σ α → Prop
  | .done a, .done b => a = b
  | .step g f r, .step g' f' r' =>
    ∀ t, g t = g' (get t) ∧ get (f t) = f' (get t) ∧ Erases get (r t) (r' (get t))
  | _, _ => False

namespace Erases
variable {get : τ → σ} {put : τ → σ → τ}

theorem pure (a : α) : Erases get (Pure.pure a) (Pure.pure a) := rfl

theorem atom {f : τ → α × τ} {f' : σ → α × σ}
    (h : ∀ t, (f t).1 = (f' (get t)).1 ∧ get (f t).2 = (f' (get t)).2) :
    Erases get (.atom f) (.atom f') := fun t => ⟨rfl, (h t).2, (h t).1⟩

/-- Erasing commutes with sequencing. -/
theorem bind' {p : Prog τ α} {q : Prog σ α} {k : α → Prog τ β} {l : α → Prog σ β}
    (hp : Erases get p q) (hk : ∀ a, Erases get (k a) (l a)) :
    Erases get (p.bind k) (q.bind l) := by
  induction p generalizing q with
  | done a =>
    cases q with
    | done b =>
      have hab : a = b := hp
      rw [hab]
      exact hk b
    | step g f r => exact hp.elim
  | step g f r ih =>
    cases q with
    | done b => exact hp.elim
    | step g' f' r' =>
      intro t
      obtain ⟨hg, hf, hr⟩ := hp t
      exact ⟨hg, hf, ih t hr⟩

theorem bind {p : Prog τ α} {q : Prog σ α} {k : α → Prog τ β} {l : α → Prog σ β}
    (hp : Erases get p q) (hk : ∀ a, Erases get (k a) (l a)) :
    Erases get (p >>= k) (q >>= l) := bind' hp hk

theorem ite {c : Prop} [Decidable c] {p q : Prog τ α} {p' q' : Prog σ α} (hp : Erases get p p')
    (hq : Erases get q q') : Erases get (if c then p else q) (if c then p' else q') := by
  split
  · exact hp
  · exact hq

/-- Code put on the part erases to itself. -/
theorem focus (hput : ∀ t s, get (put t s) = s) (p : Prog σ α) :
    Erases get (p.focus get put) p := by
  induction p with
  | done a => rfl
  | step g f r ih => exact fun t => ⟨rfl, hput t _, ih (get t)⟩

end Erases

namespace Pool
variable {ι : Type} [DecidableEq ι] {α : ι → Type} {get : τ → σ}

/-- What the plain threads do, the threads with the ghost state can do, too. -/
theorem erases_lift {c : Pool τ α} {d d' : Pool σ α} (hrun : Run (fun _ _ => True) d d')
    (hshared : get c.shared = d.shared) (hthreads : ∀ i, Erases get (c.threads i) (d.threads i)) :
    ∃ c', Run (fun _ _ => True) c c' ∧ get c'.shared = d'.shared ∧
      ∀ i, Erases get (c'.threads i) (d'.threads i) := by
  induction hrun with
  | refl => exact ⟨c, .refl, hshared, hthreads⟩
  | tail _ hstep ih =>
    obtain ⟨c', hc, hshared', hthreads'⟩ := ih
    obtain ⟨i, hi, -⟩ := hstep
    obtain ⟨g', f', r', hthread, hg, rfl⟩ := advance_eq hi
    have herases := hthreads' i
    rw [hthread] at herases
    cases hp : c'.threads i with
    | done a =>
      rw [hp] at herases
      exact herases.elim
    | step g f r =>
      rw [hp] at herases
      obtain ⟨hguard, hnext, hrest⟩ := herases c'.shared
      rw [hshared'] at hguard hnext hrest
      have hadvance : c'.advance i =
          some ⟨Function.update c'.threads i (r c'.shared), f c'.shared⟩ := by
        rw [advance, hp]
        exact if_pos (hguard.trans hg)
      refine ⟨_, .tail hc ⟨i, hadvance, trivial⟩, hnext, fun j => ?_⟩
      by_cases hj : j = i
      · subst hj
        simp only [Function.update_self]
        exact hrest
      · simp only [Function.update_of_ne hj]
        exact hthreads' j

end Pool
end Sections
