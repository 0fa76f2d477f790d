/-!
# Runs of a deterministic machine

A machine answers an input by moving to one next state. `runAll` is a run on a
list of inputs, `Along ok` says that every input met a condition on the state it
was given to, and `Along.keeps` turns a step lemma into a fact about runs.
-/
namespace Runs

variable {σ ι : Type} (next : ι → σ → σ)

def runAll : List ι → σ → σ
  | [], s => s
  | i :: rest, s => runAll rest (next i s)

/-- Every input of the run meets `ok` in the state it finds. -/
def Along (ok : σ → ι → Prop) : List ι → σ → Prop
  | [], _ => True
  | i :: rest, s => ok s i ∧ Along ok rest (next i s)

variable {next}

theorem runAll_append (xs ys : List ι) (s : σ) :
    runAll next (xs ++ ys) s = runAll next ys (runAll next xs s) := by
  induction xs generalizing s with
  | nil => rfl
  | cons i xs ih => exact ih (next i s)

/-- An invariant that may speak of the inputs seen so far. -/
theorem Along.keeps {ok : σ → ι → Prop} {I : List ι → σ → Prop}
    (step : ∀ seen s i, I seen s → ok s i → I (seen ++ [i]) (next i s))
    {run : List ι} {s : σ} (hok : Along next ok run s) {seen : List ι} (hs : I seen s) :
    I (seen ++ run) (runAll next run s) := by
  induction run generalizing seen s with
  | nil =>
    rw [List.append_nil]
    exact hs
  | cons i rest ih =>
    have h := ih hok.2 (step seen s i hs hok.1)
    rw [List.append_assoc] at h
    exact h

/-- An invariant of the state alone. -/
theorem Along.holds {ok : σ → ι → Prop} {I : σ → Prop}
    (step : ∀ s i, I s → ok s i → I (next i s)) {run : List ι} {s : σ}
    (hok : Along next ok run s) (hs : I s) : I (runAll next run s) := by
  induction run generalizing s with
  | nil => exact hs
  | cons i rest ih => exact ih hok.2 (step s i hs hok.1)

/-- What a condition gives at every state with the invariant holds along the whole run. -/
theorem Along.imp {ok goal : σ → ι → Prop} {I : σ → Prop} (keep : ∀ s i, I s → I (next i s))
    (step : ∀ s i, I s → ok s i → goal s i) {run : List ι} {s : σ} (hok : Along next ok run s)
    (hs : I s) : Along next goal run s := by
  induction run generalizing s with
  | nil => trivial
  | cons i rest ih => exact ⟨step s i hs hok.1, ih hok.2 (keep s i hs)⟩

/-- Where an input keeps the invariant exactly under its condition, every point of a run has it
exactly when every input met its condition. -/
theorem prefixes_iff_along {ok : σ → ι → Prop} {I : σ → Prop} {run : List ι}
    (step : ∀ i ∈ run, ∀ s, I s → (I (next i s) ↔ ok s i)) {s : σ} (hs : I s) :
    (∀ before, before <+: run → I (runAll next before s)) ↔ Along next ok run s := by
  induction run generalizing s with
  | nil =>
    constructor
    · intro _
      trivial
    · intro _ before hbefore
      rw [List.prefix_nil.mp hbefore]
      exact hs
  | cons i rest ih =>
    have hrest := fun hnext => ih (fun k hk => step k (.tail _ hk)) (s := next i s) hnext
    constructor
    · intro h
      have hnext : I (next i s) := h [i] (List.prefix_append [i] rest)
      refine ⟨(step i (.head _) s hs).mp hnext, (hrest hnext).mp ?_⟩
      intro before hbefore
      exact h (i :: before) ((List.prefix_cons_inj i).mpr hbefore)
    · rintro ⟨hok, hrun⟩ before hbefore
      have hnext := (step i (.head _) s hs).mpr hok
      cases before with
      | nil => exact hs
      | cons k before =>
        obtain ⟨rfl, hrest'⟩ := List.cons_prefix_cons.mp hbefore
        exact (hrest hnext).mpr hrun before hrest'

/-- An invariant that every input of the run keeps. -/
theorem runAll_keeps {I : σ → Prop} {run : List ι} (step : ∀ i ∈ run, ∀ s, I s → I (next i s))
    {s : σ} (hs : I s) : I (runAll next run s) := by
  induction run generalizing s with
  | nil => exact hs
  | cons i rest ih =>
    apply ih
    · intro k hk t ht
      exact step k (.tail _ hk) t ht
    · exact step i (.head _) s hs

end Runs
