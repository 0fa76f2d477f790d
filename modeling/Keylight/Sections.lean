import Mathlib.Logic.Relation
import Mathlib.Data.List.Basic

/-!
# Programs cut into atomic sections

The code of one thread is a tree of sections. A section waits for its guard,
updates the shared state in one step, and hands the state it found to the rest
of the code. `run` executes one thread alone; `Step` interleaves any number of
them, one section at a time.
-/
namespace Sections

inductive Prog (σ α : Type) where
  | done : α → Prog σ α
  | step : (σ → Bool) → (σ → σ) → (σ → Prog σ α) → Prog σ α

variable {σ α β γ : Type}

namespace Prog

def bind : Prog σ α → (α → Prog σ β) → Prog σ β
  | done a, k => k a
  | step g f r, k => step g f fun s => (r s).bind k

instance : Monad (Prog σ) where
  pure := done
  bind := bind

theorem bind_done (p : Prog σ α) : p.bind done = p := by
  induction p with
  | done a => rfl
  | step g f r ih => exact congrArg (step g f) (funext ih)

theorem bind_assoc' (p : Prog σ α) (k : α → Prog σ β) (l : β → Prog σ γ) :
    (p.bind k).bind l = p.bind fun a => (k a).bind l := by
  induction p with
  | done a => rfl
  | step g f r ih => exact congrArg (step g f) (funext ih)

instance : LawfulMonad (Prog σ) :=
  LawfulMonad.mk' (Prog σ) bind_done (fun _ _ => rfl) bind_assoc'

/-- A section that never waits. -/
def atom (f : σ → α × σ) : Prog σ α :=
  step (fun _ => true) (fun s => (f s).2) fun s => done (f s).1

/-- A section that only reads. -/
def read (f : σ → α) : Prog σ α := atom fun s => (f s, s)

/-- A section that only writes. -/
def modify (f : σ → σ) : Prog σ Unit := atom fun s => ((), f s)

/-- A write that waits for its guard, such as taking a mutex. -/
def await (g : σ → Bool) (f : σ → σ) : Prog σ Unit := step g f fun _ => done ()

/-- One thread alone; it never waits for itself, so guards play no part. -/
def run : Prog σ α → σ → α × σ
  | done a, s => (a, s)
  | step _ f r, s => (r s).run (f s)

-- Not proved by `rfl`, so that simp also rewrites the decidability instances of an `if`.
@[simp] theorem run_done (a : α) (s : σ) : (done a : Prog σ α).run s = (a, s) := by
  simp only [run]

@[simp] theorem run_pure (a : α) (s : σ) : (pure a : Prog σ α).run s = (a, s) := by
  simp only [pure, run]

@[simp] theorem run_atom (f : σ → α × σ) (s : σ) : (atom f).run s = f s := by
  simp only [atom, run]

@[simp] theorem run_read (f : σ → α) (s : σ) : (read f).run s = (f s, s) := by
  simp only [read, run_atom]

@[simp] theorem run_modify (f : σ → σ) (s : σ) : (modify f).run s = ((), f s) := by
  simp only [modify, run_atom]

@[simp] theorem run_await (g : σ → Bool) (f : σ → σ) (s : σ) :
    (await g f).run s = ((), f s) := by
  simp only [await, run]

theorem run_bind' (p : Prog σ α) (k : α → Prog σ β) (s : σ) :
    (p.bind k).run s = (k (p.run s).1).run (p.run s).2 := by
  induction p generalizing s with
  | done a => rfl
  | step g f r ih => exact ih s (f s)

@[simp] theorem run_bind (p : Prog σ α) (k : α → Prog σ β) (s : σ) :
    (p >>= k).run s = (k (p.run s).1).run (p.run s).2 := run_bind' p k s

@[simp] theorem run_map (f : α → β) (p : Prog σ α) (s : σ) :
    (f <$> p).run s = (f (p.run s).1, (p.run s).2) := run_bind' p (fun a => .done (f a)) s

@[simp] theorem run_ite (c : Prop) [Decidable c] (p q : Prog σ α) (s : σ) :
    (if c then p else q).run s = if c then p.run s else q.run s := by
  split <;> rfl

end Prog

/-- Every section of `p` moves the state by `R`, and every result satisfies `Q`. -/
def Each (R : σ → σ → Prop) (Q : α → Prop) : Prog σ α → Prop
  | .done a => Q a
  | .step _ f r => ∀ s, R s (f s) ∧ Each R Q (r s)

namespace Each
variable {R S : σ → σ → Prop} {Q Q' : α → Prop} {T : β → Prop}

theorem atom {f : σ → α × σ} (h : ∀ s, R s (f s).2 ∧ Q (f s).1) : Each R Q (.atom f) := h

theorem read {f : σ → α} (hR : ∀ s, R s s) (h : ∀ s, Q (f s)) : Each R Q (.read f) :=
  fun s => ⟨hR s, h s⟩

theorem modify {f : σ → σ} {Q : Unit → Prop} (h : ∀ s, R s (f s)) (hQ : Q ()) :
    Each R Q (.modify f) :=
  fun s => ⟨h s, hQ⟩

theorem await {g : σ → Bool} {f : σ → σ} {Q : Unit → Prop} (h : ∀ s, R s (f s)) (hQ : Q ()) :
    Each R Q (.await g f) :=
  fun s => ⟨h s, hQ⟩

theorem bind' {p : Prog σ α} {k : α → Prog σ β} (hp : Each R Q p)
    (hk : ∀ a, Q a → Each R T (k a)) : Each R T (p.bind k) := by
  induction p with
  | done a => exact hk a hp
  | step g f r ih =>
    intro s
    exact ⟨(hp s).1, ih s (hp s).2⟩

theorem bind {p : Prog σ α} {k : α → Prog σ β} (hp : Each R Q p)
    (hk : ∀ a, Q a → Each R T (k a)) : Each R T (p >>= k) := bind' hp hk

/-- What every section of a sequence does, those of its parts do, for the results that occur. -/
theorem of_bind {p : Prog σ α} {k : α → Prog σ β} (h : Each R T (p >>= k)) :
    Each R (fun _ => True) p ∧ ∀ s, Each R T (k (p.run s).1) := by
  induction p with
  | done a => exact ⟨trivial, fun _ => h⟩
  | step g f r ih =>
    constructor
    · intro s
      exact ⟨(h s).1, (ih s (h s).2).1⟩
    · intro s
      exact (ih s (h s).2).2 (f s)

theorem ite {c : Prop} [Decidable c] {p q : Prog σ α} (hp : c → Each R Q p)
    (hq : ¬c → Each R Q q) : Each R Q (if c then p else q) := by
  by_cases hc : c
  · rw [if_pos hc]
    exact hp hc
  · rw [if_neg hc]
    exact hq hc

theorem mono {p : Prog σ α} (h : Each R Q p) (hR : ∀ s t, R s t → S s t)
    (hQ : ∀ a, Q a → Q' a) : Each S Q' p := by
  induction p with
  | done a => exact hQ a h
  | step g f r ih =>
    intro s
    exact ⟨hR _ _ (h s).1, ih s (h s).2⟩

/-- What every section does, a run does, when `R` composes. -/
theorem run {p : Prog σ α} (h : Each R Q p) (refl : ∀ s, R s s)
    (trans : ∀ s t u, R s t → R t u → R s u) (s : σ) :
    R s (p.run s).2 ∧ Q (p.run s).1 := by
  induction p generalizing s with
  | done a => exact ⟨refl s, h⟩
  | step g f r ih =>
    obtain ⟨hr, hq⟩ := ih s (h s).2 (f s)
    exact ⟨trans _ _ _ (h s).1 hr, hq⟩

end Each

/-- Every section of the run of `p` from `s` moves the state by `R`. -/
def RunEach (R : σ → σ → Prop) : Prog σ α → σ → Prop
  | .done _, _ => True
  | .step _ f r, s => R s (f s) ∧ RunEach R (r s) (f s)

namespace RunEach
variable {R : σ → σ → Prop}

instance [∀ s t, Decidable (R s t)] (p : Prog σ α) : ∀ s, Decidable (RunEach R p s) :=
  match p with
  | .done _ => fun _ => .isTrue trivial
  | .step _ f r => fun s =>
    have : Decidable (RunEach R (r s) (f s)) := instDecidable (r s) (f s)
    inferInstanceAs (Decidable (R s (f s) ∧ RunEach R (r s) (f s)))

theorem bind_iff {p : Prog σ α} {k : α → Prog σ β} {s : σ} :
    RunEach R (p >>= k) s ↔ RunEach R p s ∧ RunEach R (k (p.run s).1) (p.run s).2 := by
  induction p generalizing s with
  | done a => exact ⟨fun h => ⟨trivial, h⟩, And.right⟩
  | step g f r ih => exact (and_congr_right fun _ => ih s).trans and_assoc.symm

end RunEach

/-- Every run of `p` keeps `I`. -/
def Keeps (I : σ → Prop) (p : Prog σ α) : Prop := ∀ s, I s → I (p.run s).2

namespace Keeps
variable {I : σ → Prop}

theorem pure (a : α) : Keeps I (Pure.pure a) := by
  intro s hs
  exact hs

theorem atom {f : σ → α × σ} (h : ∀ s, I s → I (f s).2) : Keeps I (.atom f) := by
  intro s hs
  exact h s hs

theorem read (f : σ → α) : Keeps I (.read f) := by
  intro s hs
  exact hs

theorem modify {f : σ → σ} (h : ∀ s, I s → I (f s)) : Keeps I (.modify f) := by
  intro s hs
  exact h s hs

theorem bind {p : Prog σ α} {k : α → Prog σ β} (hp : Keeps I p) (hk : ∀ a, Keeps I (k a)) :
    Keeps I (p >>= k) := by
  intro s hs
  rw [Prog.run_bind]
  exact hk _ _ (hp s hs)

end Keeps

/-- From related states `p` and `q` end in related states with one result. -/
def Relates (R : σ → σ → Prop) (p q : Prog σ α) : Prop :=
  ∀ s t, R s t → (p.run s).1 = (q.run t).1 ∧ R (p.run s).2 (q.run t).2

namespace Relates
variable {R : σ → σ → Prop}

theorem pure (a : α) : Relates R (Pure.pure a) (Pure.pure a) := by
  intro s t h
  exact ⟨rfl, h⟩

theorem atom {f g : σ → α × σ} (h : ∀ s t, R s t → (f s).1 = (g t).1 ∧ R (f s).2 (g t).2) :
    Relates R (.atom f) (.atom g) := by
  intro s t hst
  rw [Prog.run_atom, Prog.run_atom]
  exact h s t hst

theorem modify {f g : σ → σ} (h : ∀ s t, R s t → R (f s) (g t)) :
    Relates R (.modify f) (.modify g) :=
  atom fun s t hst => ⟨rfl, h s t hst⟩

theorem read {f : σ → α} (h : ∀ s t, R s t → f s = f t) : Relates R (.read f) (.read f) :=
  atom fun s t hst => ⟨h s t hst, hst⟩

/-- The rest is only compared at the result that `p` has here. -/
theorem bind_at {p q : Prog σ α} {k l : α → Prog σ β} {s t : σ} (hp : Relates R p q)
    (h : R s t) (hk : Relates R (k (p.run s).1) (l (p.run s).1)) :
    ((p >>= k).run s).1 = ((q >>= l).run t).1 ∧ R ((p >>= k).run s).2 ((q >>= l).run t).2 := by
  obtain ⟨hr, hs⟩ := hp s t h
  rw [Prog.run_bind, Prog.run_bind, ← hr]
  exact hk _ _ hs

theorem bind {p q : Prog σ α} {k l : α → Prog σ β} (hp : Relates R p q)
    (hk : ∀ a, Relates R (k a) (l a)) : Relates R (p >>= k) (q >>= l) :=
  fun _ _ h => bind_at hp h (hk _)

/-- A step of the left run alone that keeps the relation and always answers `a`. -/
theorem bind_left {p : Prog σ α} {k : α → Prog σ β} {q : Prog σ β} (a : α)
    (hp : ∀ s t, R s t → (p.run s).1 = a ∧ R (p.run s).2 t) (hk : Relates R (k a) q) :
    Relates R (p >>= k) q := by
  intro s t h
  obtain ⟨hr, hs⟩ := hp s t h
  rw [Prog.run_bind, hr]
  exact hk _ _ hs

theorem ite {c : Prop} [Decidable c] {p q p' q' : Prog σ α} (hp : Relates R p p')
    (hq : Relates R q q') : Relates R (if c then p else q) (if c then p' else q') := by
  split
  · exact hp
  · exact hq

end Relates
end Sections
