import Keylight.JsonSpelling

/-!
# How deep a text nests

The parser calls itself for every value inside an array or an object, however
deep, and a stack has room for so many calls. `Deep n s` says of the bytes alone
that a value inside `n` others begins in `s`; on these, and on no other input,
a parser with room for `n` calls overflows. Everywhere else it is `Json.parse`.
-/
namespace Keylight
open Bytes Cursor Cursor.Reader JsonGrammar JsonSpelling

/-- Where the elements of an array begin, from behind its bracket or a comma. -/
inductive ElementAt : Bytes → Bytes → Prop
  | first (s : Bytes) : ElementAt s s
  | next {x s t : Bytes} : Text x → ElementAt s t → ElementAt (x ++ 44 :: s) t

/-- Where the values of an object's members begin, from behind its brace or a comma. -/
inductive MemberAt : Bytes → Bytes → Prop
  | first {k s : Bytes} : Key k → MemberAt (k ++ 58 :: s) s
  | next {k x s t : Bytes} : Key k → Text x → MemberAt s t →
      MemberAt (k ++ 58 :: (x ++ 44 :: s)) t

/-- Some value inside `n` arrays and objects begins where a value is to be read from `s`. -/
inductive Deep : Nat → Bytes → Prop
  | value (s : Bytes) : Deep 0 s
  | array {n : Nat} {w s t : Bytes} : Ws w → (∀ w' u, Ws w' → s ≠ w' ++ 93 :: u) →
      ElementAt s t → Deep n t → Deep (n + 1) (w ++ 91 :: s)
  | object {n : Nat} {w s t : Bytes} : Ws w → MemberAt s t → Deep n t →
      Deep (n + 1) (w ++ 123 :: s)

def DeepElements (n : Nat) (s : Bytes) : Prop := ∃ t, ElementAt s t ∧ Deep n t

def DeepMembers (n : Nat) (s : Bytes) : Prop := ∃ t, MemberAt s t ∧ Deep n t

namespace JsonCursor
open JValue

variable {src s t : Bytes} {n fuel : Nat}

theorem consume_none : JValue.consume 93 (JValue.skipWs s) = none ↔
    ∀ w u, Ws w → s ≠ w ++ 93 :: u := by
  constructor
  · rintro h w u hw rfl
    rw [consume_append hw (by decide)] at h
    cases h
  · intro h
    cases hc : JValue.consume 93 (JValue.skipWs s) with
    | none => rfl
    | some u =>
      obtain ⟨w, hw, hs⟩ := consume_split hc
      exact absurd hs (h w u hw)

/-- A value is deep when it opens an array or an object that is. -/
theorem deep_succ {c : UInt8} (hs : JValue.skipWs s = c :: t) : Deep (n + 1) s ↔
    c = 91 ∧ JValue.consume 93 (JValue.skipWs t) = none ∧ DeepElements n t ∨
      c = 123 ∧ DeepMembers n t := by
  constructor
  · intro h
    cases h with
    | @array _ w u v hw hopen hat hdeep =>
      rw [skipWs_append hw, skipWs_cons 91 u (by decide)] at hs
      cases hs
      exact .inl ⟨rfl, consume_none.mpr hopen, v, hat, hdeep⟩
    | @object _ w u v hw hat hdeep =>
      rw [skipWs_append hw, skipWs_cons 123 u (by decide)] at hs
      cases hs
      exact .inr ⟨rfl, v, hat, hdeep⟩
  · obtain ⟨w, hw, hsplit⟩ := skipWs_split s
    rw [hs] at hsplit
    rintro (⟨rfl, hopen, u, hat, hdeep⟩ | ⟨rfl, u, hat, hdeep⟩)
    · rw [hsplit]
      exact .array hw (consume_none.mp hopen) hat hdeep
    · rw [hsplit]
      exact .object hw hat hdeep

theorem not_deep_nil (hs : JValue.skipWs s = []) : ¬Deep (n + 1) s := by
  intro h
  cases h with
  | @array _ w u _ hw _ _ _ =>
    rw [skipWs_append hw, skipWs_cons 91 u (by decide)] at hs
    cases hs
  | @object _ w u _ hw _ _ =>
    rw [skipWs_append hw, skipWs_cons 123 u (by decide)] at hs
    cases hs

theorem deep_skipWs : Deep n (JValue.skipWs s) ↔ Deep n s := by
  cases n with
  | zero => exact iff_of_true (.value _) (.value _)
  | succ n =>
    have htwice := skipWs_skipWs s
    cases hs : JValue.skipWs s with
    | nil => exact iff_of_false (not_deep_nil rfl) (not_deep_nil hs)
    | cons c t =>
      rw [hs] at htwice
      rw [deep_succ hs, deep_succ htwice]

/-- An element is deep, or a later one is. -/
theorem deepElements_iff (hf : s.length ≤ fuel) : DeepElements n s ↔ Deep n s ∨ ∃ v u t,
    JValue.parseValue fuel (JValue.skipWs s) = some (v, u) ∧
      JValue.consume 44 (JValue.skipWs u) = some t ∧ DeepElements n t := by
  constructor
  · rintro ⟨u, hat, hdeep⟩
    cases hat with
    | first => exact .inl hdeep
    | @next x s' _ hx hat =>
      obtain ⟨v, u', hv, hcomma⟩ := (text_iff hf).mp ⟨x, hx, rfl⟩
      exact .inr ⟨v, u', s', hv, hcomma, u, hat, hdeep⟩
  · rintro (hdeep | ⟨v, u, t, hv, hcomma, r, hat, hdeep⟩)
    · exact ⟨s, .first s, hdeep⟩
    · obtain ⟨x, hx, hs⟩ := (text_iff hf).mpr ⟨v, u, hv, hcomma⟩
      rw [hs]
      exact ⟨r, .next hx hat, hdeep⟩

/-- The same for the members. -/
theorem deepMembers_iff (hf : s.length ≤ fuel) : DeepMembers n s ↔ ∃ s₁ key s₂ s₃,
    JValue.consume 34 (JValue.skipWs s) = some s₁ ∧ JValue.parseString s₁ = some (key, s₂) ∧
      JValue.consume 58 (JValue.skipWs s₂) = some s₃ ∧ (Deep n s₃ ∨ ∃ v u t,
        JValue.parseValue fuel (JValue.skipWs s₃) = some (v, u) ∧
          JValue.consume 44 (JValue.skipWs u) = some t ∧ DeepMembers n t) := by
  constructor
  · rintro ⟨u, hat, hdeep⟩
    cases hat with
    | first hk =>
      obtain ⟨s₁, key, s₂, hquote, hkey, hcolon⟩ := key_iff.mp ⟨_, hk, rfl⟩
      exact ⟨s₁, key, s₂, _, hquote, hkey, hcolon, .inl hdeep⟩
    | @next k x s' _ hk hx hat =>
      obtain ⟨s₁, key, s₂, hquote, hkey, hcolon⟩ := key_iff.mp ⟨_, hk, rfl⟩
      have hlen : (x ++ 44 :: s').length ≤ fuel := by
        simp only [List.length_append, List.length_cons] at hf ⊢
        omega
      obtain ⟨v, u', hv, hcomma⟩ := (text_iff hlen).mp ⟨x, hx, rfl⟩
      exact ⟨s₁, key, s₂, _, hquote, hkey, hcolon, .inr ⟨v, u', s', hv, hcomma, u, hat, hdeep⟩⟩
  · rintro ⟨s₁, key, s₂, s₃, hquote, hkey, hcolon, h⟩
    obtain ⟨k, hk, rfl⟩ := key_iff.mpr ⟨s₁, key, s₂, hquote, hkey, hcolon⟩
    obtain hdeep | ⟨v, u, t, hv, hcomma, r, hat, hdeep⟩ := h
    · exact ⟨s₃, .first hk, hdeep⟩
    · have hlen : s₃.length ≤ fuel := by
        simp only [List.length_append, List.length_cons] at hf
        omega
      obtain ⟨x, hx, rfl⟩ := (text_iff hlen).mpr ⟨v, u, hv, hcomma⟩
      exact ⟨r, .next hk hx hat, hdeep⟩

/-- White space in front changes nothing. -/
theorem deepElements_skipWs : DeepElements n (JValue.skipWs s) ↔ DeepElements n s := by
  have hlen := (skipWs_suffix s).length_le
  rw [deepElements_iff hlen, deepElements_iff (le_refl s.length), skipWs_skipWs, deep_skipWs]

theorem deepMembers_skipWs : DeepMembers n (JValue.skipWs s) ↔ DeepMembers n s := by
  have hlen := (skipWs_suffix s).length_le
  rw [deepMembers_iff hlen, deepMembers_iff (le_refl s.length), skipWs_skipWs]

theorem not_deepMembers (h : JValue.consume 125 (JValue.skipWs s) = some t) : ¬DeepMembers n s := by
  rw [deepMembers_iff (le_refl s.length)]
  rintro ⟨s₁, -, -, -, hquote, -⟩
  rw [consume_suffix h, consume_other 34 125 t (by decide)] at hquote
  cases hquote

theorem consume_comma (h : JValue.consume 44 s = some t) {c : UInt8} (hc : (44 : UInt8) ≠ c) :
    JValue.consume c s = none := by
  rw [consume_suffix h]
  exact consume_other c 44 t hc

/-- A program after a byte that is there, or is not. -/
theorem run_consume_bind (h : s <:+ src) (c : UInt8) (f : Bool → Read α) :
    (consume c >>= f) src (place src s) = match JValue.consume c s with
      | some t => f true src (place src t)
      | none => f false src (place src s) := by
  have hrun := run_consume h c
  cases hc : JValue.consume c s with
  | none =>
    rw [hc] at hrun
    exact run_bind hrun
  | some t =>
    rw [hc] at hrun
    exact run_bind hrun

/-- Values that nest nothing take no further call. -/
theorem run_leaf {c : UInt8} {t : Bytes} (h : c :: t <:+ src) (hl : (c :: t).length < fuel) :
    (if c = 34 then do
        skip 1
        let out ← parseString fuel []
        pure (.string out)
      else if c = 116 then literal (ascii "true") (.bool true)
      else if c = 102 then literal (ascii "false") (.bool false)
      else if c = 110 then literal (ascii "null") .null
      else if c = 45 ∨ isDigit c then parseNumber fuel
      else reject : Read JValue) src (place src (c :: t)) = .ok (placed src (leaf c t)) := by
  have ht := (List.suffix_cons c t).trans h
  have hl' : t.length < fuel := (Nat.lt_succ_self _).trans hl
  have htrue : ascii "true" = 116 :: [114, 117, 101] := by decide
  have hfalse : ascii "false" = 102 :: [97, 108, 115, 101] := by decide
  have hnull : ascii "null" = 110 :: [117, 108, 108] := by decide
  simp only [run_ite, leaf]
  split
  · rw [run_bind (skip_place h (k := 1) (by simp)), List.drop_one, List.tail_cons,
      run_placed (run_parseString ht hl' [])]
    cases JValue.parseString t <;> rfl
  · split
    · next hc =>
      subst hc
      rw [htrue]
      exact run_literal 116 h _ _
    · split
      · next hc =>
        subst hc
        rw [hfalse]
        exact run_literal 102 h _ _
      · split
        · next hc =>
          subst hc
          rw [hnull]
          exact run_literal 110 h _ _
        · split
          · exact run_parseNumber h hl
          · rfl

/-- With this much fuel a program is its part of the parser, except where the stack has no room:
twice the length, as a value and the loop over its elements may begin at one byte. -/
structure ParsesAt (src : Bytes) (fuel : Nat) : Prop where
  value : ∀ frames s, s <:+ src → 2 * s.length + 2 ≤ fuel →
    Limited (Deep frames s) (parseValue fuel frames src (place src s))
      (placed src (JValue.parseValue fuel s))
  members : ∀ frames keys map s, s <:+ src → 2 * s.length + 3 ≤ fuel →
    Limited (DeepMembers frames s) (parseMembers fuel frames keys map src (place src s))
      (placed src (JValue.parseMembers fuel keys map s))
  elements : ∀ frames arr s, s <:+ src → 2 * s.length + 3 ≤ fuel →
    Limited (DeepElements frames s) (parseElements fuel frames arr src (place src s))
      (placed src (JValue.parseElements fuel arr s))

section Step
variable (ih : ParsesAt src fuel)
include ih

/-- A value, by its first byte. -/
theorem run_value (frames : Nat) {s : Bytes} (h : s <:+ src) (hl : 2 * s.length + 2 ≤ fuel + 1) :
    Limited (Deep frames s) (parseValue (fuel + 1) frames src (place src s))
      (placed src (JValue.parseValue (fuel + 1) s)) := by
  cases frames with
  | zero => exact .inl ⟨.value s, rfl⟩
  | succ frames =>
  have hws := skipWs_suffix s
  have hlen := hws.length_le
  rw [parseValue, run_bind (run_skipWs h (by omega)), run_bind (atEnd_place (hws.trans h))]
  cases hs : JValue.skipWs s with
  | nil =>
    rw [JValue.parseValue, hs]
    exact .inr ⟨not_deep_nil hs, rfl⟩
  | cons c t =>
    rw [hs] at hws hlen
    rw [List.length_cons] at hlen
    have hct := hws.trans h
    have ht := (List.suffix_cons c t).trans hct
    have hwt := (skipWs_suffix t).trans ht
    have hlt := (skipWs_suffix t).length_le
    simp only [List.isEmpty_cons, Bool.false_eq_true, if_false]
    rw [run_bind (look_place hct (k := 0) rfl), parseValue_cons fuel hs, deep_succ hs]
    by_cases hobject : c = 123
    · subst hobject
      simp only [show (123 : UInt8) ≠ 34 by decide, show (123 : UInt8) ≠ 91 by decide, if_false,
        if_true, false_and, true_and, false_or]
      rw [run_bind (skip_place hct (k := 1) (by simp)), List.drop_one, List.tail_cons,
        run_bind (run_skipWs ht (by omega)), run_consume_bind hwt]
      cases hclose : JValue.consume 125 (JValue.skipWs t) with
      | some rest => exact .inr ⟨not_deepMembers hclose, rfl⟩
      | none =>
        rw [← deepMembers_skipWs]
        exact ih.members frames [] [] _ hwt (by omega)
    by_cases harray : c = 91
    · subst harray
      simp only [show (91 : UInt8) ≠ 34 by decide, show (91 : UInt8) ≠ 123 by decide, if_false,
        if_true, false_and, true_and, or_false]
      rw [run_bind (skip_place hct (k := 1) (by simp)), List.drop_one, List.tail_cons,
        run_bind (run_skipWs ht (by omega)), run_consume_bind hwt]
      cases JValue.consume 93 (JValue.skipWs t) with
      | some rest => exact .inr ⟨by simp, rfl⟩
      | none =>
        rw [← deepElements_skipWs]
        simpa using ih.elements frames [] _ hwt (by omega)
    · simp only [if_neg hobject, if_neg harray]
      refine .inr ⟨?_, run_leaf hct (by rw [List.length_cons]; omega)⟩
      rintro (hdeep | hdeep)
      · exact harray hdeep.1
      · exact hobject hdeep.1

/-- One member, and the loop for the others. -/
theorem run_members (frames : Nat) (keys : List Bytes) (map : List (Bytes × JValue)) {s : Bytes}
    (h : s <:+ src) (hl : 2 * s.length + 3 ≤ fuel + 1) :
    Limited (DeepMembers frames s) (parseMembers (fuel + 1) frames keys map src (place src s))
      (placed src (JValue.parseMembers (fuel + 1) keys map s)) := by
  have hws := (skipWs_suffix s).trans h
  have hiff := deepMembers_iff (n := frames) (show s.length ≤ fuel by omega)
  rw [parseMembers, run_bind (run_skipWs h (by omega)), run_consume_bind hws,
    JValue.parseMembers]
  cases h₁ : JValue.consume 34 (JValue.skipWs s) with
  | none => exact .inr ⟨by simp [hiff, h₁], rfl⟩
  | some s₁ =>
  have ht₁ := Takes.consume h₁
  have hs₁ := ht₁.suffix.trans h
  have hl₁ := ht₁.shorter
  simp only [if_true]
  rw [run_placed (run_parseString hs₁ (by omega) [])]
  cases h₂ : JValue.parseString s₁ with
  | none => exact .inr ⟨by simp [hiff, h₁, h₂], rfl⟩
  | some r =>
  obtain ⟨key, s₂⟩ := r
  have ht₂ := parseString_suffix s₁ key s₂ h₂
  have hs₂ := ht₂.trans hs₁
  have hl₂ := ht₂.length_le
  simp only [Option.map_some, Option.elim_some, List.nil_append]
  rw [run_bind (run_skipWs hs₂ (by omega)), run_consume_bind ((skipWs_suffix s₂).trans hs₂)]
  cases h₃ : JValue.consume 58 (JValue.skipWs s₂) with
  | none => exact .inr ⟨by simp [hiff, h₁, h₂, h₃], rfl⟩
  | some s₃ =>
  have ht₃ := Takes.consume h₃
  have hs₃ := ht₃.suffix.trans hs₂
  have hl₃ := ht₃.shorter
  have hws₃ := skipWs_suffix s₃
  have hl₃' := hws₃.length_le
  simp only [if_true]
  rw [run_bind (run_skipWs hs₃ (by omega))]
  obtain ⟨hdeep, hrun⟩ | ⟨hopen, hrun⟩ := ih.value frames _ (hws₃.trans hs₃) (by omega)
  · rw [deep_skipWs] at hdeep
    exact .inl ⟨hiff.mpr ⟨s₁, key, s₂, s₃, h₁, h₂, h₃, .inl hdeep⟩, run_bind_error hrun⟩
  rw [deep_skipWs] at hopen
  rw [run_placed hrun]
  cases h₄ : JValue.parseValue fuel (JValue.skipWs s₃) with
  | none => exact .inr ⟨by simp [hiff, h₁, h₂, h₃, h₄, hopen], rfl⟩
  | some r =>
  obtain ⟨val, s₄⟩ := r
  have ht₄ := ((parse_takes fuel).1 _ _ _ h₄).after hws₃
  have hs₄ := ht₄.suffix.trans hs₃
  have hl₄ := ht₄.shorter
  have hws₄ := (skipWs_suffix s₄).trans hs₄
  simp only [Option.elim_some]
  rw [run_bind (run_skipWs hs₄ (by omega)), run_consume_bind hws₄]
  cases h₅ : JValue.consume 44 (JValue.skipWs s₄) with
  | none =>
    have hopen' : ¬DeepMembers frames s := by simp [hiff, h₁, h₂, h₃, h₄, h₅, hopen]
    cases JValue.consume 125 (JValue.skipWs s₄) with
    | some rest => exact .inr ⟨hopen', rfl⟩
    | none =>
      simp only [Bool.false_eq_true, if_false]
      rw [run_consume_bind hws₄, h₅]
      exact .inr ⟨hopen', rfl⟩
  | some s₅ =>
  have ht₅ := Takes.consume h₅
  have hl₅ := ht₅.shorter
  have hnext : DeepMembers frames s ↔ DeepMembers frames s₅ := by
    simp [hiff, h₁, h₂, h₃, h₄, h₅, hopen]
  rw [consume_comma h₅ (by decide)]
  simp only [Bool.false_eq_true, if_false]
  rw [run_consume_bind hws₄, h₅, hnext]
  exact ih.members frames _ _ s₅ (ht₅.suffix.trans hs₄) (by omega)

/-- One element, and the loop for the others. -/
theorem run_elements (frames : Nat) (arr : List JValue) {s : Bytes} (h : s <:+ src)
    (hl : 2 * s.length + 3 ≤ fuel + 1) :
    Limited (DeepElements frames s) (parseElements (fuel + 1) frames arr src (place src s))
      (placed src (JValue.parseElements (fuel + 1) arr s)) := by
  have hws := skipWs_suffix s
  have hlen := hws.length_le
  have hiff := deepElements_iff (n := frames) (show s.length ≤ fuel by omega)
  rw [parseElements, run_bind (run_skipWs h (by omega)), JValue.parseElements]
  obtain ⟨hdeep, hrun⟩ | ⟨hopen, hrun⟩ := ih.value frames _ (hws.trans h) (by omega)
  · rw [deep_skipWs] at hdeep
    exact .inl ⟨hiff.mpr (.inl hdeep), run_bind_error hrun⟩
  rw [deep_skipWs] at hopen
  rw [run_placed hrun]
  cases h₁ : JValue.parseValue fuel (JValue.skipWs s) with
  | none => exact .inr ⟨by simp [hiff, h₁, hopen], rfl⟩
  | some r =>
  obtain ⟨elem, s₁⟩ := r
  have ht₁ := ((parse_takes fuel).1 _ _ _ h₁).after hws
  have hs₁ := ht₁.suffix.trans h
  have hl₁ := ht₁.shorter
  have hws₁ := (skipWs_suffix s₁).trans hs₁
  simp only [Option.elim_some]
  rw [run_bind (run_skipWs hs₁ (by omega)), run_consume_bind hws₁]
  cases h₂ : JValue.consume 44 (JValue.skipWs s₁) with
  | none =>
    have hopen' : ¬DeepElements frames s := by simp [hiff, h₁, h₂, hopen]
    cases JValue.consume 93 (JValue.skipWs s₁) with
    | some rest => exact .inr ⟨hopen', rfl⟩
    | none =>
      simp only [Bool.false_eq_true, if_false]
      rw [run_consume_bind hws₁, h₂]
      exact .inr ⟨hopen', rfl⟩
  | some s₂ =>
  have ht₂ := Takes.consume h₂
  have hl₂ := ht₂.shorter
  have hnext : DeepElements frames s ↔ DeepElements frames s₂ := by simp [hiff, h₁, h₂, hopen]
  rw [consume_comma h₂ (by decide)]
  simp only [Bool.false_eq_true, if_false]
  rw [run_consume_bind hws₁, h₂, hnext]
  exact ih.elements frames _ s₂ (ht₂.suffix.trans hs₁) (by omega)

end Step

theorem run_parse (src : Bytes) (fuel : Nat) : ParsesAt src fuel := by
  induction fuel with
  | zero => exact ⟨by omega, by omega, by omega⟩
  | succ fuel ih =>
    exact ⟨fun frames s => run_value ih frames,
      fun frames keys map s => run_members ih frames keys map,
      fun frames arr s => run_elements ih frames arr⟩

theorem forM_ok {f : α → Except Trap Unit} {l : List α} (h : ∀ a ∈ l, f a = .ok ()) :
    l.forM f = .ok () := by
  induction l with
  | nil => rfl
  | cons a l ih =>
    rw [List.forM, h a List.mem_cons_self]
    exact ih fun b hb => h b (List.mem_cons_of_mem a hb)

theorem destroy_leaf {c : UInt8} {rest : Bytes} {v : JValue} (h : leaf c s = some (v, rest))
    (frames : Nat) : destroy (frames + 1) v = .ok () := by
  obtain ⟨-, _, rfl⟩ | ⟨-, rfl | ⟨_, rfl⟩ | ⟨_, rfl⟩ | ⟨_, _, rfl⟩⟩ := leaf_value h <;> rfl

/-- A value that the stack had room to read, it has room to destroy: by induction on the fuel, with
the members and the elements read so far. -/
theorem destroy_parse (fuel : Nat) :
    (∀ frames s v rest, ¬Deep frames s → JValue.parseValue fuel s = some (v, rest) →
      destroy frames v = .ok ()) ∧
    (∀ frames keys map s v rest, (∀ p ∈ map, destroy frames p.2 = .ok ()) →
      ¬DeepMembers frames s → JValue.parseMembers fuel keys map s = some (v, rest) →
      destroy (frames + 1) v = .ok ()) ∧
    (∀ frames arr s v rest, (∀ j ∈ arr, destroy frames j = .ok ()) →
      ¬DeepElements frames s → JValue.parseElements fuel arr s = some (v, rest) →
      destroy (frames + 1) v = .ok ()) := by
  induction fuel with
  | zero => simp [JValue.parseValue, JValue.parseMembers, JValue.parseElements]
  | succ fuel ih =>
    obtain ⟨hvalue, hmembers, helements⟩ := ih
    refine ⟨fun frames s v rest hopen h => ?_, fun frames keys map s v rest hmap hopen h => ?_,
      fun frames arr s v rest harr hopen h => ?_⟩
    · cases frames with
      | zero => exact absurd (.value s) hopen
      | succ frames =>
      obtain ⟨c, t, hs, h⟩ := parseValue_some.mp h
      rw [deep_succ hs, not_or] at hopen
      obtain ⟨hc, h⟩ | ⟨hc, h⟩ | ⟨-, -, h⟩ := h
      · obtain ⟨-, rfl⟩ | ⟨-, h⟩ := h
        · rfl
        · refine hmembers frames _ _ _ _ _ (by simp) ?_ h
          rw [deepMembers_skipWs]
          exact fun hdeep => hopen.2 ⟨hc, hdeep⟩
      · obtain ⟨-, rfl⟩ | ⟨hclose, h⟩ := h
        · rfl
        · refine helements frames _ _ _ _ (by simp) ?_ h
          rw [deepElements_skipWs]
          exact fun hdeep => hopen.1 ⟨hc, hclose, hdeep⟩
      · exact destroy_leaf h frames
    · obtain ⟨s₁, key, s₂, s₃, val, s₄, h₁, h₂, h₃, h₄, h⟩ := parseMembers_some.mp h
      have hiff := deepMembers_iff (n := frames) (le_refl s.length)
      have hopen₃ : ¬Deep frames s₃ := fun hdeep =>
        hopen (hiff.mpr ⟨s₁, key, s₂, s₃, h₁, h₂, h₃, .inl hdeep⟩)
      have hval := hvalue frames _ _ _ (mt deep_skipWs.mp hopen₃) h₄
      have hnext : ∀ p ∈ setMember map key val, destroy frames p.2 = .ok () := by
        intro p hp
        obtain rfl | hp := mem_setMember hp
        · exact hval
        · exact hmap p hp
      obtain ⟨-, rfl⟩ | ⟨-, s₅, h₅, h⟩ := h
      · exact forM_ok hnext
      · refine hmembers frames _ _ s₅ _ _ hnext (fun hdeep => hopen ?_) h
        have hl₁ := (Takes.consume h₁).shorter
        have hl₂ := (parseString_suffix s₁ key s₂ h₂).length_le
        have hl₃ := (Takes.consume h₃).shorter
        have hl₃' := (skipWs_suffix s₃).length_le
        have h₄' := (parse_fuel fuel).1 _ _ _ s.length h₄ (by omega)
        exact hiff.mpr ⟨s₁, key, s₂, s₃, h₁, h₂, h₃, .inr ⟨val, s₄, s₅, h₄', h₅, hdeep⟩⟩
    · obtain ⟨elem, s₁, h₁, h⟩ := parseElements_some.mp h
      have hiff := deepElements_iff (n := frames) (le_refl s.length)
      have helem :=
        hvalue frames _ _ _ (fun hdeep => hopen (hiff.mpr (.inl (deep_skipWs.mp hdeep)))) h₁
      have hnext : ∀ j ∈ arr ++ [elem], destroy frames j = .ok () := by
        intro j hj
        obtain hj | hj := List.mem_append.mp hj
        · exact harr j hj
        · rw [List.mem_singleton.mp hj]
          exact helem
      obtain ⟨-, rfl⟩ | ⟨-, s₂, h₂, h⟩ := h
      · exact forM_ok hnext
      · refine helements frames _ s₂ _ _ hnext (fun hdeep => hopen ?_) h
        have hl := (skipWs_suffix s).length_le
        have h₁' := (parse_fuel fuel).1 _ _ _ s.length h₁ (by omega)
        exact hiff.mpr (.inr ⟨elem, s₁, s₂, h₁', h₂, hdeep⟩)

/-- With enough fuel the program is `Json.parse`, or the stack ends. -/
theorem run_parse_limited (frames : Nat) (hne : src ≠ []) {fuel : Nat}
    (h : 2 * src.length + 2 ≤ fuel) :
    Limited (Deep frames src) (parse fuel frames src) (Json.parse src) := by
  have hvalue := (run_parse src fuel).value frames src List.suffix_rfl h
  rw [place_self, ← parseValue_length src (by omega)] at hvalue
  rw [parse, Json.parse, if_neg hne, if_neg hne]
  obtain ⟨hdeep, hrun⟩ | ⟨hopen, hrun⟩ := hvalue
  · rw [hrun]
    exact .inl ⟨hdeep, rfl⟩
  · refine .inr ⟨hopen, ?_⟩
    rw [hrun]
    cases hv : JValue.parseValue src.length src with
    | none => rfl
    | some r =>
      obtain ⟨v, rest⟩ := r
      have htakes := (parse_takes _).1 _ _ _ hv
      have hl := htakes.shorter
      have hdestroy := (destroy_parse _).1 frames _ _ _ hopen hv
      simp only [placed_some]
      rw [run_bind (run_skipWs htakes.suffix (by omega)),
        atEnd_place ((skipWs_suffix rest).trans htakes.suffix)]
      cases JValue.skipWs rest with
      | nil => rfl
      | cons c rest =>
        simp only [List.isEmpty_cons, hdestroy, List.cons_ne_nil, if_false]

/-- The value that is returned can be destroyed in the same stack. -/
theorem destroy_parsed {frames : Nat} {j : Json} (hopen : ¬Deep frames src)
    (h : Json.parse src = .ok j) : destroy frames j = .ok () := by
  rw [Json.parse] at h
  split at h
  · cases h
  · split at h
    · cases h
    · next v rest hv =>
      split at h
      · cases h
        exact (destroy_parse _).1 frames _ _ _ hopen hv
      · cases h

/-- No value begins deeper than there are bytes before it. -/
theorem deep_length (h : Deep n s) : n ≤ s.length := by
  have helement {s t : Bytes} (h : ElementAt s t) : t.length ≤ s.length := by
    induction h with
    | first => exact le_rfl
    | next _ _ ih =>
      simp only [List.length_append, List.length_cons]
      omega
  have hmember {s t : Bytes} (h : MemberAt s t) : t.length ≤ s.length := by
    induction h with
    | first =>
      simp only [List.length_append, List.length_cons]
      omega
    | next _ _ _ ih =>
      simp only [List.length_append, List.length_cons]
      omega
  induction h with
  | value => exact Nat.zero_le _
  | array _ _ hat _ ih =>
    have := helement hat
    simp only [List.length_append, List.length_cons]
    omega
  | object _ hat _ ih =>
    have := hmember hat
    simp only [List.length_append, List.length_cons]
    omega

theorem deep_brackets (n m : Nat) : Deep n (List.replicate (n + m) 91) := by
  induction n with
  | zero => exact .value _
  | succ n ih =>
    rw [Nat.succ_add, List.replicate_succ]
    refine .array (w := []) (by simp [Ws]) (fun w u _ hs => ?_) (.first _) ih
    have hmem : (93 : UInt8) ∈ List.replicate (n + m) 91 := by simp [hs]
    exact absurd (List.eq_of_mem_replicate hmem) (by decide)

end JsonCursor

/-- What a caller relies on in a stack with room for `frames` nested calls: `Json::parse` ends on
`src`, reads and moves within it, and what it gives has the keys of its members and can be
destroyed. -/
structure ParseSafe (frames : Nat) (src : Bytes) : Prop where
  returns : ∀ fuel, 2 * src.length + 2 ≤ fuel →
    JsonCursor.parse fuel frames src = .ok (Json.parse src)
  keyed : ∀ j, Json.parse src = .ok j → JValue.WellKeyed j
  destroyed : ∀ j, Json.parse src = .ok j → JsonCursor.destroy frames j = .ok ()

theorem ParseSafe.empty (frames : Nat) : ParseSafe frames [] where
  returns _ _ := rfl
  keyed _ h := nomatch h
  destroyed _ h := nomatch h

theorem ParseSafe.shallow {frames : Nat} {src : Bytes} (hne : src ≠ []) (h : ¬Deep frames src) :
    ParseSafe frames src where
  returns fuel hfuel := by
    obtain ⟨hdeep, -⟩ | ⟨-, hrun⟩ := JsonCursor.run_parse_limited frames hne hfuel
    · exact absurd hdeep h
    · exact hrun
  keyed _ := parse_wellKeyed
  destroyed _ := JsonCursor.destroy_parsed h

theorem ParseSafe.not_deep {frames : Nat} {src : Bytes} (hne : src ≠ [])
    (h : ParseSafe frames src) : ¬Deep frames src := by
  have hreturn := h.returns _ le_rfl
  obtain ⟨-, hrun⟩ | ⟨hopen, -⟩ := JsonCursor.run_parse_limited frames hne le_rfl
  · rw [hrun] at hreturn
    cases hreturn
  · exact hopen

/-- A text with fewer bytes than the stack has room for calls cannot nest too deep. -/
theorem ParseSafe.short {frames : Nat} {src : Bytes} (h : src.length < frames) :
    ParseSafe frames src := by
  by_cases hne : src = []
  · rw [hne]
    exact .empty frames
  · refine .shallow hne fun hdeep => ?_
    have := JsonCursor.deep_length hdeep
    omega

/-- The parser is safe where no value begins deeper than the stack allows, and nowhere else. -/
theorem parse_safe (frames : Nat) (src : Bytes) :
    ParseSafe frames src ↔ src = [] ∨ ¬Deep frames src := by
  by_cases hne : src = []
  · rw [hne]
    exact iff_of_true (.empty frames) (.inl rfl)
  · refine ⟨fun h => .inr (h.not_deep hne), fun h => ?_⟩
    exact .shallow hne (h.resolve_left hne)

/-- Eight mebibytes of stack, 128 bytes a call at least, and 100000 opening brackets. -/
theorem brackets_overflow : ¬ParseSafe 65536 (List.replicate 100000 91) := by
  intro h
  have hne : List.replicate 100000 (91 : UInt8) ≠ [] :=
    List.ne_nil_of_length_pos (by rw [List.length_replicate]; decide)
  exact h.not_deep hne (JsonCursor.deep_brackets 65536 34464)

end Keylight
