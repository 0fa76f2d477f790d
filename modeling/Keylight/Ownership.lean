import Mathlib.Logic.Function.Basic
import Mathlib.Logic.Relation

/-!
# Exclusive ownership in a family of threads

Each thread has a weight, the number of its activations that hold some resource.
`Owned` says that the weights are those of one owner or of none: it is the
invariant of a mutex and of a baton that is handed over by a flag.
-/
namespace Ownership

variable {ι τ : Type} [DecidableEq ι] {w : τ → Nat} {threads : ι → τ} {o : Option ι} {i j : ι}

/-- Exactly the owner has a weight, and its weight is one. -/
def Owned (w : τ → Nat) (threads : ι → τ) (o : Option ι) : Prop :=
  ∀ i, w (threads i) = if o = some i then 1 else 0

theorem Owned.owner (h : Owned w threads o) (hi : 0 < w (threads i)) : o = some i := by
  have hw := h i
  by_contra ho
  rw [if_neg ho] at hw
  omega

theorem Owned.one (h : Owned w threads o) (hi : 0 < w (threads i)) : w (threads i) = 1 := by
  rw [h i, if_pos (h.owner hi)]

theorem Owned.le_one (h : Owned w threads o) (i : ι) : w (threads i) ≤ 1 := by
  rw [h i]
  split <;> omega

theorem Owned.eq (h : Owned w threads o) (hi : 0 < w (threads i)) (hj : 0 < w (threads j)) :
    i = j := by
  have ho := h.owner hi
  rw [h.owner hj] at ho
  exact (Option.some.inj ho).symm

/-- A thread that moves without taking or giving the resource. -/
theorem Owned.keep (h : Owned w threads o) {t : τ} (ht : w t = w (threads i)) :
    Owned w (Function.update threads i t) o := by
  intro k
  by_cases hk : k = i
  · subst hk
    rw [Function.update_self, ht]
    exact h k
  · rw [Function.update_of_ne hk]
    exact h k

theorem Owned.take (h : Owned w threads none) {t : τ} (ht : w t = 1) :
    Owned w (Function.update threads i t) (some i) := by
  intro k
  by_cases hk : k = i
  · subst hk
    rw [Function.update_self, if_pos rfl, ht]
  · rw [Function.update_of_ne hk, h k, if_neg (by simp), if_neg]
    intro hs
    exact hk (Option.some.inj hs).symm

theorem Owned.release (h : Owned w threads o) (hi : 0 < w (threads i)) {t : τ} (ht : w t = 0) :
    Owned w (Function.update threads i t) none := by
  intro k
  rw [if_neg (by simp)]
  by_cases hk : k = i
  · subst hk
    rw [Function.update_self, ht]
  · rw [Function.update_of_ne hk, h k, if_neg]
    intro hs
    rw [h.owner hi] at hs
    exact hk (Option.some.inj hs).symm

/-- A property that every step keeps holds after any number of steps. -/
theorem invariant {σ : Type} {R : σ → σ → Prop} {I : σ → Prop} (step : ∀ s t, R s t → I s → I t)
    {s t : σ} (h : Relation.ReflTransGen R s t) (hs : I s) : I t := by
  induction h with
  | refl => exact hs
  | tail _ hstep ih => exact step _ _ hstep ih

end Ownership
