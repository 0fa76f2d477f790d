import Keylight.JsonComplete

/-!
# The keys of an object

The parser maintains an object's key list beside its map. They never disagree:
a key is listed exactly when it has a member, and once.
-/
namespace Keylight
open Bytes

namespace JValue

/-- In every object of the value the key list is the map's. -/
inductive WellKeyed : JValue → Prop
  | null : WellKeyed .null
  | bool (b : Bool) : WellKeyed (.bool b)
  | int (i : Int64) : WellKeyed (.int i)
  | double (neg : Bool) (d : Binary64.Magnitude) : WellKeyed (.double neg d)
  | string (s : Bytes) : WellKeyed (.string s)
  | array {arr : List JValue} : (∀ j ∈ arr, WellKeyed j) → WellKeyed (.array arr)
  | object {keys : List Bytes} {map : List (Bytes × JValue)} : keys.Nodup →
      (∀ k, k ∈ keys ↔ (map.lookup k).isSome = true) → map.length = keys.length →
      (∀ p ∈ map, WellKeyed p.2) → WellKeyed (.object keys map)

/-- The members read so far. -/
structure Keyed (keys : List Bytes) (map : List (Bytes × JValue)) : Prop where
  keys_eq : map.map Prod.fst = keys
  nodup : keys.Nodup
  values : ∀ p ∈ map, WellKeyed p.2

theorem Keyed.empty : Keyed [] [] := ⟨rfl, .nil, by simp⟩

/-- A member of the map is the one set or an old one. -/
theorem mem_setMember {map : List (Bytes × JValue)} {key : Bytes} {v : JValue}
    {p : Bytes × JValue} (h : p ∈ setMember map key v) : p = (key, v) ∨ p ∈ map := by
  induction map with
  | nil => exact .inl (List.mem_singleton.mp h)
  | cons q map ih =>
    rw [setMember] at h
    split at h
    · obtain h | h := List.mem_cons.mp h
      · exact .inl h
      · exact .inr (List.mem_cons_of_mem _ h)
    · obtain rfl | h := List.mem_cons.mp h
      · exact .inr List.mem_cons_self
      · exact (ih h).imp_right (List.mem_cons_of_mem _)

/-- A member in the place of an old one lists its key no second time. -/
theorem nodup_setMember {keys : List Bytes} {map : List (Bytes × JValue)}
    (hkeys : map.map Prod.fst = keys) (hnodup : keys.Nodup) (key : Bytes) :
    (if (map.lookup key).isSome then keys else keys ++ [key]).Nodup := by
  split
  · exact hnodup
  · next hnew =>
    rw [lookup_isSome, hkeys] at hnew
    exact List.nodup_append.mpr ⟨hnodup, List.nodup_singleton key, by
      intro a ha b hb hab
      rw [List.mem_singleton.mp hb] at hab
      exact hnew (hab ▸ ha)⟩

/-- One more member, under a new key or in the place of an old one. -/
theorem Keyed.setMember {keys : List Bytes} {map : List (Bytes × JValue)} (h : Keyed keys map)
    (key : Bytes) {v : JValue} (hv : WellKeyed v) :
    Keyed (if (map.lookup key).isSome then keys else keys ++ [key]) (setMember map key v) where
  keys_eq := by rw [map_fst_setMember, h.keys_eq]
  nodup := nodup_setMember h.keys_eq h.nodup key
  values := by
    intro p hp
    obtain rfl | hp := mem_setMember hp
    · exact hv
    · exact h.values p hp

theorem Keyed.wellKeyed {keys : List Bytes} {map : List (Bytes × JValue)} (h : Keyed keys map) :
    WellKeyed (.object keys map) := by
  refine .object h.nodup (fun k => ?_) ?_ h.values
  · rw [lookup_isSome, h.keys_eq]
  · rw [← h.keys_eq, List.length_map]

/-- A value that holds no other: its first byte and what follows it. -/
def leaf (c : UInt8) (s : Bytes) : Option (JValue × Bytes) :=
  if c = 34 then (parseString s).map fun (out, rest) => (.string out, rest)
  else if c = 116 then literal (ascii "true") (.bool true) (c :: s)
  else if c = 102 then literal (ascii "false") (.bool false) (c :: s)
  else if c = 110 then literal (ascii "null") .null (c :: s)
  else if c = 45 ∨ isDigit c then parseNumber (c :: s)
  else none

/-- The parser by the first byte of the value. -/
theorem parseValue_cons (fuel : Nat) {s t : Bytes} {c : UInt8} (h : skipWs s = c :: t) :
    parseValue (fuel + 1) s =
      if c = 123 then
        match consume 125 (skipWs t) with
        | some rest => some (.object [] [], rest)
        | none => parseMembers fuel [] [] (skipWs t)
      else if c = 91 then
        match consume 93 (skipWs t) with
        | some rest => some (.array [], rest)
        | none => parseElements fuel [] (skipWs t)
      else leaf c t := by
  rw [parseValue, h]
  dsimp only
  by_cases hq : c = 34
  · subst hq
    rfl
  · have hleaf : leaf c t = _ := if_neg hq
    rw [if_neg hq]
    exact congrArg (fun rest => ite (c = 123) _ (ite (c = 91) _ rest)) hleaf.symm

/-- What a value begins with. -/
theorem parseValue_some {fuel : Nat} {s rest : Bytes} {v : JValue} :
    parseValue (fuel + 1) s = some (v, rest) ↔ ∃ c t, skipWs s = c :: t ∧
      (c = 123 ∧ (consume 125 (skipWs t) = some rest ∧ v = .object [] [] ∨
          consume 125 (skipWs t) = none ∧ parseMembers fuel [] [] (skipWs t) = some (v, rest)) ∨
        c = 91 ∧ (consume 93 (skipWs t) = some rest ∧ v = .array [] ∨
          consume 93 (skipWs t) = none ∧ parseElements fuel [] (skipWs t) = some (v, rest)) ∨
        c ≠ 123 ∧ c ≠ 91 ∧ leaf c t = some (v, rest)) := by
  cases hs : skipWs s with
  | nil =>
    rw [parseValue, hs]
    simp
  | cons c t =>
    rw [parseValue_cons fuel hs]
    constructor
    · intro h
      refine ⟨c, t, rfl, ?_⟩
      split_ifs at h with hobject harray
      · refine .inl ⟨hobject, ?_⟩
        split at h
        · next hclose =>
          cases h
          exact .inl ⟨hclose, rfl⟩
        · next hclose => exact .inr ⟨hclose, h⟩
      · refine .inr (.inl ⟨harray, ?_⟩)
        split at h
        · next hclose =>
          cases h
          exact .inl ⟨hclose, rfl⟩
        · next hclose => exact .inr ⟨hclose, h⟩
      · exact .inr (.inr ⟨hobject, harray, h⟩)
    · rintro ⟨c', t', he, h⟩
      obtain ⟨rfl, rfl⟩ := List.cons.inj he
      obtain ⟨rfl, h⟩ | ⟨rfl, h⟩ | ⟨hobject, harray, h⟩ := h
      · obtain ⟨hclose, rfl⟩ | ⟨hclose, h⟩ := h
        · simp [hclose]
        · simp [hclose, h]
      · obtain ⟨hclose, rfl⟩ | ⟨hclose, h⟩ := h
        · simp [hclose]
        · simp [hclose, h]
      · rw [if_neg hobject, if_neg harray, h]

/-- What a member is made of, and what follows it. -/
theorem parseMembers_some {fuel : Nat} {keys : List Bytes} {map : List (Bytes × JValue)}
    {s rest : Bytes} {v : JValue} :
    parseMembers (fuel + 1) keys map s = some (v, rest) ↔ ∃ s₁ key s₂ s₃ val s₄,
      consume 34 (skipWs s) = some s₁ ∧ parseString s₁ = some (key, s₂) ∧
      consume 58 (skipWs s₂) = some s₃ ∧ parseValue fuel (skipWs s₃) = some (val, s₄) ∧
      let keys' := if (map.lookup key).isSome then keys else keys ++ [key]
      let map' := setMember map key val
      (consume 125 (skipWs s₄) = some rest ∧ v = .object keys' map' ∨
        consume 125 (skipWs s₄) = none ∧ ∃ s₅, consume 44 (skipWs s₄) = some s₅ ∧
          parseMembers fuel keys' map' s₅ = some (v, rest)) := by
  rw [parseMembers]
  constructor
  · intro h
    cases h₁ : consume 34 (skipWs s) with
    | none => simp [h₁] at h
    | some s₁ =>
    cases h₂ : parseString s₁ with
    | none => simp [h₁, h₂] at h
    | some r =>
    obtain ⟨key, s₂⟩ := r
    cases h₃ : consume 58 (skipWs s₂) with
    | none => simp [h₁, h₂, h₃] at h
    | some s₃ =>
    cases h₄ : parseValue fuel (skipWs s₃) with
    | none => simp [h₁, h₂, h₃, h₄] at h
    | some r =>
    obtain ⟨val, s₄⟩ := r
    refine ⟨s₁, key, s₂, s₃, val, s₄, rfl, h₂, h₃, h₄, ?_⟩
    simp only [h₁, h₂, h₃, h₄] at h
    cases hclose : consume 125 (skipWs s₄) with
    | some u =>
      simp only [hclose, Option.some.injEq, Prod.mk.injEq] at h
      exact .inl ⟨by rw [h.2], h.1.symm⟩
    | none =>
      refine .inr ⟨rfl, ?_⟩
      simp only [hclose] at h
      cases hcomma : consume 44 (skipWs s₄) with
      | none => simp [hcomma] at h
      | some s₅ =>
        simp only [hcomma] at h
        exact ⟨s₅, rfl, h⟩
  · rintro ⟨s₁, key, s₂, s₃, val, s₄, h₁, h₂, h₃, h₄, h⟩
    simp only [h₁, h₂, h₃, h₄]
    obtain ⟨hclose, rfl⟩ | ⟨hclose, s₅, hcomma, h⟩ := h
    · simp only [hclose]
    · simp only [hclose, hcomma, h]

/-- What follows an element. -/
theorem parseElements_some {fuel : Nat} {arr : List JValue} {s rest : Bytes} {v : JValue} :
    parseElements (fuel + 1) arr s = some (v, rest) ↔ ∃ elem s₁,
      parseValue fuel (skipWs s) = some (elem, s₁) ∧
      (consume 93 (skipWs s₁) = some rest ∧ v = .array (arr ++ [elem]) ∨
        consume 93 (skipWs s₁) = none ∧ ∃ s₂, consume 44 (skipWs s₁) = some s₂ ∧
          parseElements fuel (arr ++ [elem]) s₂ = some (v, rest)) := by
  rw [parseElements]
  constructor
  · intro h
    cases h₁ : parseValue fuel (skipWs s) with
    | none => simp [h₁] at h
    | some r =>
    obtain ⟨elem, s₁⟩ := r
    refine ⟨elem, s₁, rfl, ?_⟩
    simp only [h₁] at h
    cases hclose : consume 93 (skipWs s₁) with
    | some u =>
      simp only [hclose, Option.some.injEq, Prod.mk.injEq] at h
      exact .inl ⟨by rw [h.2], h.1.symm⟩
    | none =>
      refine .inr ⟨rfl, ?_⟩
      simp only [hclose] at h
      cases hcomma : consume 44 (skipWs s₁) with
      | none => simp [hcomma] at h
      | some s₂ =>
        simp only [hcomma] at h
        exact ⟨s₂, rfl, h⟩
  · rintro ⟨elem, s₁, h₁, h⟩
    simp only [h₁]
    obtain ⟨hclose, rfl⟩ | ⟨hclose, s₂, hcomma, h⟩ := h
    · simp only [hclose]
    · simp only [hclose, hcomma, h]

theorem parseNumber_value {s rest : Bytes} {v : JValue} (h : parseNumber s = some (v, rest)) :
    (∃ i, v = .int i) ∨ ∃ neg d, v = .double neg d := by
  simp only [parseNumber] at h
  split at h
  · cases h
  · split at h
    · split at h <;> cases h
      · exact .inl ⟨_, rfl⟩
      · exact .inr ⟨_, _, rfl⟩
    · cases h

theorem literal_value {word s rest : Bytes} {u v : JValue}
    (h : literal word u s = some (v, rest)) : v = u := by
  rw [literal] at h
  split at h
  · cases h
    rfl
  · cases h

/-- The value behind a byte that opens no object and no array. -/
theorem leaf_value {c : UInt8} {s rest : Bytes} {v : JValue} (h : leaf c s = some (v, rest)) :
    c = 34 ∧ (∃ out, v = .string out) ∨
      c ≠ 34 ∧
        (v = .null ∨ (∃ b, v = .bool b) ∨ (∃ i, v = .int i) ∨ ∃ neg d, v = .double neg d) := by
  rw [leaf] at h
  by_cases hc : c = 34
  · rw [if_pos hc] at h
    obtain ⟨_, _, he⟩ := Option.map_eq_some_iff.mp h
    cases he
    exact .inl ⟨hc, _, rfl⟩
  · refine .inr ⟨hc, ?_⟩
    rw [if_neg hc] at h
    split_ifs at h
    · exact .inr (.inl ⟨_, literal_value h⟩)
    · exact .inr (.inl ⟨_, literal_value h⟩)
    · exact .inl (literal_value h)
    · exact .inr (.inr (parseNumber_value h))

theorem wellKeyed_leaf {c : UInt8} {s rest : Bytes} {v : JValue}
    (h : leaf c s = some (v, rest)) : WellKeyed v := by
  obtain ⟨-, _, rfl⟩ | ⟨-, rfl | ⟨_, rfl⟩ | ⟨_, rfl⟩ | ⟨_, _, rfl⟩⟩ := leaf_value h
  · exact .string _
  · exact .null
  · exact .bool _
  · exact .int _
  · exact .double _ _

/-- By induction on the fuel: a value, the members after those read, the elements after those
read. -/
theorem wellKeyed_parse (fuel : Nat) :
    (∀ s v rest, parseValue fuel s = some (v, rest) → WellKeyed v) ∧
    (∀ keys map s v rest, Keyed keys map → parseMembers fuel keys map s = some (v, rest) →
      WellKeyed v) ∧
    (∀ arr s v rest, (∀ j ∈ arr, WellKeyed j) → parseElements fuel arr s = some (v, rest) →
      WellKeyed v) := by
  induction fuel with
  | zero => simp [parseValue, parseMembers, parseElements]
  | succ fuel ih =>
    obtain ⟨hvalue, hmembers, helements⟩ := ih
    refine ⟨fun s v rest h => ?_, fun keys map s v rest hk h => ?_, fun arr s v rest ha h => ?_⟩
    · obtain ⟨c, t, -, h⟩ := parseValue_some.mp h
      obtain ⟨-, h⟩ | ⟨-, h⟩ | ⟨-, -, h⟩ := h
      · obtain ⟨-, rfl⟩ | ⟨-, h⟩ := h
        · exact Keyed.empty.wellKeyed
        · exact hmembers _ _ _ _ _ .empty h
      · obtain ⟨-, rfl⟩ | ⟨-, h⟩ := h
        · exact .array (by simp)
        · exact helements _ _ _ _ (by simp) h
      · exact wellKeyed_leaf h
    · obtain ⟨s₁, key, s₂, s₃, val, s₄, -, -, -, hval, h⟩ := parseMembers_some.mp h
      have hnext := hk.setMember key (hvalue _ _ _ hval)
      obtain ⟨-, rfl⟩ | ⟨-, s₅, -, h⟩ := h
      · exact hnext.wellKeyed
      · exact hmembers _ _ _ _ _ hnext h
    · obtain ⟨elem, s₁, helem, h⟩ := parseElements_some.mp h
      have hnext : ∀ j ∈ arr ++ [elem], WellKeyed j := by
        intro j hj
        obtain hj | hj := List.mem_append.mp hj
        · exact ha j hj
        · rw [List.mem_singleton.mp hj]
          exact hvalue _ _ _ helem
      obtain ⟨-, rfl⟩ | ⟨-, s₂, -, h⟩ := h
      · exact .array hnext
      · exact helements _ _ _ _ hnext h

end JValue

theorem parse_wellKeyed {src : Bytes} {j : Json} (h : Json.parse src = .ok j) :
    JValue.WellKeyed j := by
  rw [Json.parse] at h
  split at h
  · cases h
  · split at h
    · cases h
    · next v rest hv =>
      split at h
      · cases h
        exact (JValue.wellKeyed_parse _).1 _ _ _ hv
      · cases h

end Keylight
