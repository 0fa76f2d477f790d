import Mathlib.Data.List.Basic

/-!
# Texts joined with a separator

When is a list of fields determined by the fields joined with one separator?
Fields free of it are; and a join of as many fields that equals such a join has
no separator inside a field either, since the pieces are counted.
-/
namespace Separated

variable {α : Type} [BEq α] [LawfulBEq α] {x : α}

/-- A join splits into the pieces of its fields. -/
theorem splitOn_join (fields : List (List α)) (h : fields ≠ []) :
    ([x].intercalate fields).splitOn x = fields.flatMap (List.splitOn x) := by
  induction fields with
  | nil => exact absurd rfl h
  | cons f fields ih =>
    cases fields with
    | nil => simp
    | cons g fields =>
      have hrest := ih (List.cons_ne_nil g fields)
      rw [List.intercalate_cons_cons, List.append_assoc, List.singleton_append,
        List.splitOn_append_cons_self, hrest]
      rfl

theorem flatMap_splitOn_free (fields : List (List α)) (h : ∀ f ∈ fields, x ∉ f) :
    fields.flatMap (List.splitOn x) = fields := by
  induction fields with
  | nil => rfl
  | cons f fields ih =>
    rw [List.flatMap_cons, List.splitOn_eq_singleton (h f List.mem_cons_self),
      ih fun g hg => h g (List.mem_cons_of_mem f hg), List.singleton_append]

omit [LawfulBEq α] in
theorem one_le_pieces (f : List α) : 1 ≤ (f.splitOn x).length :=
  List.length_pos_iff.mpr (List.splitOn_ne_nil x f)

omit [LawfulBEq α] in
theorem le_pieces (fields : List (List α)) :
    fields.length ≤ (fields.flatMap (List.splitOn x)).length := by
  induction fields with
  | nil => simp
  | cons f fields ih =>
    have hf : 1 ≤ (f.splitOn x).length := one_le_pieces f
    rw [List.flatMap_cons, List.length_append, List.length_cons]
    omega

/-- A field that is one piece is that piece. -/
theorem splitOn_of_one_piece {f : List α} (h : (f.splitOn x).length = 1) : f.splitOn x = [f] := by
  obtain ⟨g, hg⟩ := List.length_eq_one_iff.mp h
  have hf : [x].intercalate (f.splitOn x) = f := List.intercalate_splitOn x
  rw [hg, List.intercalate_singleton] at hf
  rw [hg, hf]

/-- With no more pieces than fields, every field is one piece. -/
theorem flatMap_splitOn_of_pieces (fields : List (List α))
    (h : (fields.flatMap (List.splitOn x)).length ≤ fields.length) :
    fields.flatMap (List.splitOn x) = fields := by
  induction fields with
  | nil => rfl
  | cons f fields ih =>
    have hf : 1 ≤ (f.splitOn x).length := one_le_pieces f
    have hrest : fields.length ≤ (fields.flatMap (List.splitOn x)).length := le_pieces fields
    rw [List.flatMap_cons, List.length_append, List.length_cons] at h
    rw [List.flatMap_cons, splitOn_of_one_piece (by omega), ih (by omega), List.singleton_append]

/-- As many fields with the same join: one side free of the separator decides both. -/
theorem join_inj {fields fields' : List (List α)} (hfree : ∀ f ∈ fields, x ∉ f)
    (hne : fields ≠ []) (hlen : fields'.length = fields.length)
    (h : [x].intercalate fields = [x].intercalate fields') : fields = fields' := by
  have hne' : fields' ≠ [] := by
    intro hnil
    rw [hnil, List.length_nil] at hlen
    exact hne (List.length_eq_zero_iff.mp hlen.symm)
  have hpieces : fields = fields'.flatMap (List.splitOn x) := by
    rw [← splitOn_join fields' hne', ← h, splitOn_join fields hne,
      flatMap_splitOn_free fields hfree]
  have hcount : (fields'.flatMap (List.splitOn x)).length ≤ fields'.length := by
    rw [← hpieces]
    omega
  rw [hpieces, flatMap_splitOn_of_pieces fields' hcount]

/-- Fields that are neither empty nor split are determined by their join, their number included. -/
theorem join_inj_of_nonempty {fields fields' : List (List α)}
    (hfree : ∀ f ∈ fields, f ≠ [] ∧ x ∉ f) (hfree' : ∀ f ∈ fields', f ≠ [] ∧ x ∉ f)
    (h : [x].intercalate fields = [x].intercalate fields') : fields = fields' := by
  have hnil : ∀ {fs : List (List α)}, (∀ f ∈ fs, f ≠ [] ∧ x ∉ f) → [x].intercalate fs = [] →
      fs = [] := by
    intro fs hfs hjoin
    cases fs with
    | nil => rfl
    | cons f fs =>
      have hf := (hfs f List.mem_cons_self).1
      cases fs with
      | nil => exact absurd (by simpa using hjoin) hf
      | cons g fs => simp [List.intercalate_cons_cons] at hjoin
  by_cases hempty : fields = []
  · rw [hempty, List.intercalate_nil] at h
    rw [hempty, hnil hfree' h.symm]
  · have hempty' : fields' ≠ [] := by
      intro hz
      rw [hz, List.intercalate_nil] at h
      exact hempty (hnil hfree h)
    rw [← List.splitOn_intercalate x (fun f hf => (hfree f hf).2) hempty, h,
      List.splitOn_intercalate x (fun f hf => (hfree' f hf).2) hempty']

/-- A first field of any content, before as many free fields. -/
theorem join_cons_inj {f f' : List α} {fields fields' : List (List α)}
    (hfree : ∀ g ∈ fields, x ∉ g) (hfree' : ∀ g ∈ fields', x ∉ g)
    (hlen : fields.length = fields'.length)
    (h : [x].intercalate (f :: fields) = [x].intercalate (f' :: fields')) :
    f = f' ∧ fields = fields' := by
  have hsplit := congrArg (List.splitOn x) h
  rw [splitOn_join _ (List.cons_ne_nil f fields), splitOn_join _ (List.cons_ne_nil f' fields'),
    List.flatMap_cons, List.flatMap_cons, flatMap_splitOn_free fields hfree,
    flatMap_splitOn_free fields' hfree'] at hsplit
  obtain ⟨hf, hrest⟩ := List.append_inj' hsplit hlen
  have hjoin := congrArg ([x].intercalate ·) hf
  simp only [List.intercalate_splitOn] at hjoin
  exact ⟨hjoin, hrest⟩

end Separated
