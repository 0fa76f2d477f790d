import Keylight.Ownership
import Keylight.Sections

/-!
# Threads under interference

Any number of threads share one state and move it one section at a time. Between
two sections of its own a thread finds the state as the others left it: it relies
on a relation that they respect, and its own sections respect theirs. `Pool.safe`
puts such threads together.
-/
namespace Sections

variable {σ τ α β : Type}

/-- What code that has returned returned. -/
def Prog.result : Prog σ α → Option α
  | .done a => some a
  | .step _ _ _ => none

theorem Prog.result_eq {p : Prog σ α} {a : α} (h : p.result = some a) : p = .done a := by
  cases p with
  | done b =>
    cases h
    rfl
  | step g f r => cases h

/-- From `s` on, whatever the others do within `R`, every section that `C` allows respects `G`,
and the result satisfies `Q`, which the others keep. -/
def Safe (C R G : σ → σ → Prop) (Q : α → σ → Prop) : Prog σ α → σ → Prop
  | .done a, s => ∀ t, R s t → Q a t
  | .step g f r, s => ∀ t, R s t → g t = true → C t (f t) →
      G t (f t) ∧ Safe C R G Q (r t) (f t)

/-- The others keep `P`. -/
def Stable (R : σ → σ → Prop) (P : σ → Prop) : Prop := ∀ s t, P s → R s t → P t

namespace Safe
variable {C R G : σ → σ → Prop} {P : σ → Prop} {Q : α → σ → Prop} {T : β → σ → Prop} {s t : σ}

theorem stable (trans : ∀ s t u, R s t → R t u → R s u) {p : Prog σ α} (h : Safe C R G Q p s)
    (hst : R s t) : Safe C R G Q p t := by
  cases p with
  | done a =>
    intro u hu
    exact h u (trans s t u hst hu)
  | step g f r =>
    intro u hu
    exact h u (trans s t u hst hu)

theorem mono {G' : σ → σ → Prop} {Q' : α → σ → Prop} {p : Prog σ α}
    (h : Safe C R G Q p s) (hG : ∀ s t, G s t → G' s t) (hQ : ∀ a t, Q a t → Q' a t) :
    Safe C R G' Q' p s := by
  induction p generalizing s with
  | done a =>
    intro t ht
    exact hQ a t (h t ht)
  | step g f r ih =>
    intro t ht hg hC
    obtain ⟨hg', hr⟩ := h t ht hg hC
    exact ⟨hG _ _ hg', ih t hr⟩

theorem pure {a : α} (hP : Stable R P) (hs : P s) (h : ∀ t, P t → Q a t) :
    Safe C R G Q (Pure.pure a) s := by
  intro t ht
  exact h t (hP s t hs ht)

theorem atom {f : σ → α × σ} (hP : Stable R P) (hs : P s) (hQ : ∀ a, Stable R (Q a))
    (h : ∀ t, P t → C t (f t).2 → G t (f t).2 ∧ Q (f t).1 (f t).2) :
    Safe C R G Q (.atom f) s := by
  intro t ht _ hC
  obtain ⟨hG, hq⟩ := h t (hP s t hs ht) hC
  exact ⟨hG, fun u hu => hQ _ _ u hq hu⟩

theorem modify {f : σ → σ} {Q : σ → Prop} (hP : Stable R P) (hs : P s) (hQ : Stable R Q)
    (h : ∀ t, P t → C t (f t) → G t (f t) ∧ Q (f t)) :
    Safe C R G (fun _ => Q) (.modify f) s :=
  atom hP hs (fun _ => hQ) h

theorem await {g : σ → Bool} {f : σ → σ} {Q : σ → Prop} (hP : Stable R P) (hs : P s)
    (hQ : Stable R Q) (h : ∀ t, P t → g t = true → C t (f t) → G t (f t) ∧ Q (f t)) :
    Safe C R G (fun _ => Q) (.await g f) s := by
  intro t ht hg hC
  obtain ⟨hG, hq⟩ := h t (hP s t hs ht) hg hC
  exact ⟨hG, fun u hu => hQ _ u hq hu⟩

theorem bind' (refl : ∀ s, R s s) {p : Prog σ α} {k : α → Prog σ β} (hp : Safe C R G Q p s)
    (hk : ∀ a t, Q a t → Safe C R G T (k a) t) : Safe C R G T (p.bind k) s := by
  induction p generalizing s with
  | done a => exact hk a s (hp s (refl s))
  | step g f r ih =>
    intro t ht hg hC
    obtain ⟨hG, hr⟩ := hp t ht hg hC
    exact ⟨hG, ih t hr⟩

theorem bind (refl : ∀ s, R s s) {p : Prog σ α} {k : α → Prog σ β} (hp : Safe C R G Q p s)
    (hk : ∀ a t, Q a t → Safe C R G T (k a) t) : Safe C R G T (p >>= k) s := bind' refl hp hk

/-- What the others keep and a section that respects `G` keeps still holds at the end. -/
theorem keep (hP : Stable R P) (hG : ∀ s t, P s → G s t → P t) {p : Prog σ α}
    (h : Safe C R G Q p s) (hs : P s) : Safe C R G (fun a t => Q a t ∧ P t) p s := by
  induction p generalizing s with
  | done a =>
    intro t ht
    exact ⟨h t ht, hP s t hs ht⟩
  | step g f r ih =>
    intro t ht hg hC
    obtain ⟨hf, hr⟩ := h t ht hg hC
    exact ⟨hf, ih t hr (hG t (f t) (hP s t hs ht) hf)⟩

/-- Code all of whose sections keep `P` as the others do. -/
theorem of_each {M : σ → σ → Prop} {F : α → Prop} {p : Prog σ α} (h : Each M F p)
    (hP : Stable R P) (hM : ∀ t u, P t → M t u → C t u → G t u ∧ P u) (hs : P s) :
    Safe C R G (fun a t => F a ∧ P t) p s := by
  induction p generalizing s with
  | done a =>
    intro t ht
    exact ⟨h, hP s t hs ht⟩
  | step g f r ih =>
    intro t ht _ hC
    obtain ⟨hm, hr⟩ := h t
    obtain ⟨hG, hu⟩ := hM t (f t) (hP s t hs ht) hm hC
    exact ⟨hG, ih t hr hu⟩

end Safe

/-- The code where its state is a part of a larger one. -/
def Prog.focus (get : τ → σ) (put : τ → σ → τ) : Prog σ α → Prog τ α
  | .done a => .done a
  | .step g f r => .step (fun t => g (get t)) (fun t => put t (f (get t)))
      fun t => (r (get t)).focus get put

variable {get : τ → σ} {put : τ → σ → τ}

theorem Prog.focus_atom (f : σ → α × σ) : (Prog.atom f).focus get put =
    .atom fun t => ((f (get t)).1, put t (f (get t)).2) := rfl

theorem Prog.focus_bind (p : Prog σ α) (k : α → Prog σ β) :
    (p >>= k).focus get put = p.focus get put >>= fun a => (k a).focus get put := by
  induction p with
  | done a => rfl
  | step g f r ih =>
    refine congrArg (Prog.step _ _) ?_
    funext t
    exact ih (get t)

theorem Each.focus {M : σ → σ → Prop} {F : α → Prop} {p : Prog σ α} (h : Each M F p) :
    Each (fun t u => ∃ s, u = put t s ∧ M (get t) s) F (p.focus get put) := by
  induction p with
  | done a => exact h
  | step g f r ih =>
    intro t
    obtain ⟨hm, hr⟩ := h (get t)
    exact ⟨⟨_, rfl, hm⟩, ih (get t) hr⟩

/-- Threads over one shared state. -/
structure Pool {ι : Type} (σ : Type) (α : ι → Type) where
  threads : ∀ i, Prog σ (α i)
  shared : σ

namespace Pool
variable {ι : Type} [DecidableEq ι] {α : ι → Type} {C : σ → σ → Prop} {c c' : Pool σ α}

/-- Thread `i` runs its next section, unless it has returned or waits. -/
def advance (i : ι) (c : Pool σ α) : Option (Pool σ α) :=
  match c.threads i with
  | .done _ => none
  | .step g f r =>
    if g c.shared then some ⟨Function.update c.threads i (r c.shared), f c.shared⟩ else none

/-- One section of one thread that `C` allows. -/
def Step (C : σ → σ → Prop) (c c' : Pool σ α) : Prop :=
  ∃ i, c.advance i = some c' ∧ C c.shared c'.shared

/-- Any number of sections, in any order of the threads. -/
abbrev Run (C : σ → σ → Prop) : Pool σ α → Pool σ α → Prop := Relation.ReflTransGen (Step C)

/-- The sections of one schedule. -/
def schedule (C : σ → σ → Prop) [∀ s t, Decidable (C s t)] :
    List ι → Pool σ α → Option (Pool σ α)
  | [], c => some c
  | i :: is, c =>
    match c.advance i with
    | none => none
    | some c' => if C c.shared c'.shared then schedule C is c' else none

/-- A schedule that ends is a run. -/
theorem schedule_run [∀ s t, Decidable (C s t)] {is : List ι}
    (h : schedule C is c = some c') : Run C c c' := by
  induction is generalizing c with
  | nil =>
    cases h
    exact .refl
  | cons i is ih =>
    simp only [schedule] at h
    split at h
    · cases h
    · rename_i c₁ hc
      split at h
      · rename_i hC
        exact .head ⟨i, hc, hC⟩ (ih h)
      · cases h

theorem advance_eq {i : ι} (h : c.advance i = some c') : ∃ g f r, c.threads i = .step g f r ∧
    g c.shared = true ∧ c' = ⟨Function.update c.threads i (r c.shared), f c.shared⟩ := by
  unfold advance at h
  split at h
  · cases h
  · rename_i g f r hi
    split at h
    · rename_i hg
      cases h
      exact ⟨g, f, r, hi, hg, rfl⟩
    · cases h

variable {R : ι → σ → σ → Prop} {Q : ∀ i, α i → σ → Prop}

/-- Thread `i` under the interference of the others, which it does not disturb, with a promise of
its own on every section. -/
def GuardedAt (C : σ → σ → Prop) (R K : ι → σ → σ → Prop) (Q : ∀ i, α i → σ → Prop)
    (c : Pool σ α) (i : ι) : Prop :=
  Safe C (R i) (fun s t => (∀ j, j ≠ i → R j s t) ∧ K i s t) (Q i) (c.threads i) c.shared

/-- Thread `i` under the interference of the others, which it does not disturb. -/
def SafeAt (C : σ → σ → Prop) (R : ι → σ → σ → Prop) (Q : ∀ i, α i → σ → Prop) (c : Pool σ α)
    (i : ι) : Prop :=
  Safe C (R i) (fun s t => ∀ j, j ≠ i → R j s t) (Q i) (c.threads i) c.shared

section
variable {K : ι → σ → σ → Prop}

/-- The next section of a thread keeps its promise and leaves every thread guarded. -/
theorem guarded_advance (refl : ∀ i s, R i s s) (trans : ∀ i s t u, R i s t → R i t u → R i s u)
    {i : ι} (hi : c.advance i = some c') (hC : C c.shared c'.shared)
    (hc : ∀ i, GuardedAt C R K Q c i) :
    K i c.shared c'.shared ∧ ∀ j, GuardedAt C R K Q c' j := by
  obtain ⟨g, f, r, hthread, hg, rfl⟩ := advance_eq hi
  have hsafe := hc i
  rw [GuardedAt, hthread] at hsafe
  obtain ⟨⟨hG, hK⟩, hr⟩ := hsafe c.shared (refl i _) hg hC
  refine ⟨hK, fun j => ?_⟩
  by_cases hj : j = i
  · subst hj
    dsimp only [GuardedAt]
    rw [Function.update_self]
    exact hr
  · dsimp only [GuardedAt]
    rw [Function.update_of_ne hj]
    exact (hc j).stable (trans j) (hG j hj)

/-- What every section promises a run keeps, when the promises compose. -/
theorem guarded (refl : ∀ i s, R i s s) (trans : ∀ i s t u, R i s t → R i t u → R i s u)
    {M : σ → σ → Prop} (hrefl : ∀ s, M s s) (htrans : ∀ s t u, M s t → M t u → M s u)
    (hK : ∀ i s t, K i s t → M s t) (hrun : Run C c c') (hc : ∀ i, GuardedAt C R K Q c i) :
    M c.shared c'.shared ∧ ∀ i, GuardedAt C R K Q c' i := by
  induction hrun with
  | refl => exact ⟨hrefl _, hc⟩
  | tail _ hstep ih =>
    obtain ⟨i, hi, hC⟩ := hstep
    obtain ⟨hM, hmid⟩ := ih
    obtain ⟨hstep, hend⟩ := guarded_advance refl trans hi hC hmid
    exact ⟨htrans _ _ _ hM (hK i _ _ hstep), hend⟩

end

omit [DecidableEq ι] in
theorem guardedAt_safe {i : ι} (h : SafeAt C R Q c i) :
    GuardedAt C R (fun _ _ _ => True) Q c i :=
  Safe.mono h (fun _ _ hG => ⟨hG, trivial⟩) fun _ _ h => h

omit [DecidableEq ι] in
theorem safeAt_guarded {i : ι} (h : GuardedAt C R (fun _ _ _ => True) Q c i) :
    SafeAt C R Q c i :=
  Safe.mono h (fun _ _ hG => hG.1) fun _ _ h => h

theorem safe_step (refl : ∀ i s, R i s s) (trans : ∀ i s t u, R i s t → R i t u → R i s u)
    (h : Step C c c') (hc : ∀ i, SafeAt C R Q c i) : ∀ i, SafeAt C R Q c' i := by
  obtain ⟨i, hi, hC⟩ := h
  have hguarded := (guarded_advance refl trans hi hC fun j => guardedAt_safe (hc j)).2
  exact fun j => safeAt_guarded (hguarded j)

/-- Threads that do not disturb each other stay so over every run. -/
theorem safe (refl : ∀ i s, R i s s) (trans : ∀ i s t u, R i s t → R i t u → R i s u)
    (hrun : Run C c c') (hc : ∀ i, SafeAt C R Q c i) : ∀ i, SafeAt C R Q c' i :=
  Ownership.invariant (I := fun d => ∀ i, SafeAt C R Q d i)
    (fun _ _ hstep hd => safe_step refl trans hstep hd) hrun hc

/-- What a thread has when it has returned it still has at the end of the run. -/
theorem returned (refl : ∀ i s, R i s s) (trans : ∀ i s t u, R i s t → R i t u → R i s u)
    (hrun : Run C c c') (hc : ∀ i, SafeAt C R Q c i) {i : ι} {a : α i}
    (ha : (c'.threads i).result = some a) : Q i a c'.shared := by
  have h := safe refl trans hrun hc i
  rw [SafeAt, Prog.result_eq ha] at h
  exact h c'.shared (refl i _)

end Pool
end Sections
