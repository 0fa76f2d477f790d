import Keylight.JsonGrammar

/-!
# UTF-8 text

Byte strings that encode characters. A character's encoding can be taken off the
front, a text can be cut at any byte below 0x80, and no text has a surrogate.
-/
namespace JsonGrammar

/-- The bytes encode characters. -/
def IsUtf8 (bs : List UInt8) : Prop := ∃ s : List Char, bs = utf8 s

namespace IsUtf8

theorem nil : IsUtf8 [] := ⟨[], rfl⟩

theorem encoded (c : Char) : IsUtf8 (String.utf8EncodeChar c) := by
  refine ⟨[c], ?_⟩
  rw [utf8_cons, utf8, List.flatMap_nil, List.append_nil]

theorem append {a b : List UInt8} (ha : IsUtf8 a) (hb : IsUtf8 b) : IsUtf8 (a ++ b) := by
  obtain ⟨s, rfl⟩ := ha
  obtain ⟨t, rfl⟩ := hb
  exact ⟨s ++ t, by rw [utf8, utf8, utf8, List.flatMap_append]⟩

/-- A character at the front. -/
theorem char_append {c : Char} {bs : List UInt8} :
    IsUtf8 (String.utf8EncodeChar c ++ bs) ↔ IsUtf8 bs := by
  constructor
  · rintro ⟨s, hs⟩
    cases s with
    | nil => exact absurd (List.append_eq_nil_iff.mp hs).1 String.utf8EncodeChar_ne_nil
    | cons d s =>
      rw [utf8_cons] at hs
      -- the first character decodes from the front of either side
      have hfirst : some c = some d := by
        rw [← ByteArray.utf8DecodeChar?_utf8EncodeChar_append (b := bs.toByteArray),
          ← ByteArray.utf8DecodeChar?_utf8EncodeChar_append (b := (utf8 s).toByteArray),
          ← List.toByteArray_append, ← List.toByteArray_append, hs]
      obtain rfl := Option.some.inj hfirst
      exact ⟨s, List.append_cancel_left hs⟩
  · intro h
    exact (encoded c).append h

/-- Whole characters at the front. -/
theorem append_left {a b : List UInt8} (ha : IsUtf8 a) : IsUtf8 (a ++ b) ↔ IsUtf8 b := by
  obtain ⟨s, rfl⟩ := ha
  induction s with
  | nil => rfl
  | cons c s ih => rw [utf8_cons, List.append_assoc, char_append, ih]

end IsUtf8

/-- The bytes of a character: one below 0x80, or several from there on. -/
theorem utf8EncodeChar_ascii {c : Char} {b : UInt8} (h : b ∈ String.utf8EncodeChar c)
    (hb : b.toNat < 0x80) : String.utf8EncodeChar c = [b] := by
  have hbyte : ∀ n : Nat, n < 256 → 0x80 ≤ n → b ≠ UInt8.ofNat n := by
    rintro n hn hlow rfl
    rw [UInt8.toNat_ofNat'] at hb
    omega
  have hmax : c.val.toNat < 0xD800 ∨ 0xDFFF < c.val.toNat ∧ c.val.toNat < 0x110000 := c.valid
  simp only [String.utf8EncodeChar] at h ⊢
  split at h
  · next hone =>
    rw [if_pos hone, List.mem_singleton.mp h]
  · split at h
    · simp only [List.mem_cons, List.not_mem_nil, or_false] at h
      obtain h | h := h <;> exact absurd h (hbyte _ (by omega) (by omega))
    · split at h
      · simp only [List.mem_cons, List.not_mem_nil, or_false] at h
        obtain h | h | h := h <;> exact absurd h (hbyte _ (by omega) (by omega))
      · simp only [List.mem_cons, List.not_mem_nil, or_false] at h
        obtain h | h | h | h := h <;> exact absurd h (hbyte _ (by omega) (by omega))

/-- A text cut at a byte below 0x80. -/
theorem IsUtf8.cut {a b : List UInt8} {c : UInt8} (hc : c.toNat < 0x80)
    (h : IsUtf8 (a ++ c :: b)) : IsUtf8 a ∧ IsUtf8 b := by
  obtain ⟨s, hs⟩ := h
  induction s generalizing a with
  | nil => simp [utf8] at hs
  | cons d s ih =>
    rw [utf8_cons] at hs
    obtain ⟨t, hd, ht⟩ | ⟨t, ha, ht⟩ := List.append_eq_append_iff.mp hs
    · cases t with
      | nil =>
        -- right after the first character
        rw [List.append_nil] at hd
        obtain ⟨-, hb⟩ := ih (a := []) ht
        exact ⟨hd ▸ .encoded d, hb⟩
      | cons x t =>
        -- the cut byte is one of the first character, so the only one
        obtain ⟨hx, hrest⟩ := List.cons.inj ht
        subst hx
        have hsingle := utf8EncodeChar_ascii (c := d) (b := c) (by rw [hd]; simp) hc
        rw [hsingle] at hd
        cases a with
        | nil =>
          obtain ⟨-, rfl⟩ := List.cons.inj hd
          exact ⟨.nil, s, hrest⟩
        | cons y a => simp at hd
    · obtain ⟨ht, hb⟩ := ih ht.symm
      exact ⟨ha ▸ (IsUtf8.encoded d).append ht, hb⟩

theorem isUtf8_ascii_cons {b : UInt8} (hb : b.toNat < 0x80) {bs : List UInt8} :
    IsUtf8 (b :: bs) ↔ IsUtf8 bs := by
  have hvalid : b.toNat.isValidChar := by
    rw [Nat.isValidChar]
    omega
  obtain ⟨c, hc⟩ : ∃ c : Char, c.val.toNat = b.toNat := ⟨Char.ofNatAux b.toNat hvalid, rfl⟩
  have hbyte : String.utf8EncodeChar c = [b] := by
    simp only [String.utf8EncodeChar, hc]
    rw [if_pos (by omega), UInt8.ofNat_toNat]
  have hchar : IsUtf8 (String.utf8EncodeChar c ++ bs) ↔ IsUtf8 bs := IsUtf8.char_append
  rw [hbyte] at hchar
  exact hchar

theorem IsUtf8.drop_ascii {a b : List UInt8} (ha : ∀ c ∈ a, c.toNat < 0x80)
    (h : IsUtf8 (a ++ b)) : IsUtf8 b := by
  induction a with
  | nil => exact h
  | cons c a ih =>
    have hrest := (isUtf8_ascii_cons (ha c (by simp))).mp h
    exact ih (fun d hd => ha d (by simp [hd])) hrest

/-- No character is encoded as a surrogate would be. -/
theorem not_isUtf8_surrogate {b : UInt8} (h : 0xA0 ≤ b.toNat) (bs : List UInt8) :
    ¬IsUtf8 (0xED :: b :: bs) := by
  rintro ⟨s, hs⟩
  cases s with
  | nil => simp [utf8] at hs
  | cons c s =>
    have hbyte : ∀ n : Nat, n < 256 → n ≠ 0xED → (0xED : UInt8) ≠ UInt8.ofNat n := by
      intro n hn hne he
      have heq := congrArg UInt8.toNat he
      rw [UInt8.toNat_ofNat'] at heq
      simp only [UInt8.reduceToNat] at heq
      omega
    have hmax : c.val.toNat < 0xD800 ∨ 0xDFFF < c.val.toNat ∧ c.val.toNat < 0x110000 := c.valid
    rw [utf8_cons] at hs
    simp only [String.utf8EncodeChar] at hs
    split at hs
    · exact hbyte _ (by omega) (by omega) (List.cons.inj hs).1
    · split at hs
      · exact hbyte _ (by omega) (by omega) (List.cons.inj hs).1
      · split at hs
        · -- three bytes from 0xED on are the code points from 0xD000
          obtain ⟨hfirst, hs⟩ := List.cons.inj hs
          obtain ⟨hsecond, -⟩ := List.cons.inj hs
          have hthirteen : c.val.toNat / 4096 = 13 := by
            apply Decidable.byContradiction
            intro hne
            exact hbyte _ (by omega) (by omega) hfirst
          rw [hsecond, UInt8.toNat_ofNat'] at h
          omega
        · exact hbyte _ (by omega) (by omega) (List.cons.inj hs).1

/-- `10xxxxxx` -/
def isContinuation (b : UInt8) : Bool := b &&& 0xC0 = 0x80

theorem isContinuation_iff (b : UInt8) :
    isContinuation b ↔ 0x80 ≤ b.toNat ∧ b.toNat < 0xC0 := by
  have htable : ∀ n < 256, isContinuation (UInt8.ofNat n) = decide (0x80 ≤ n ∧ n < 0xC0) := by
    decide +kernel
  have hb := htable b.toNat b.toNat_lt
  rw [UInt8.ofNat_toNat] at hb
  rw [hb, decide_eq_true_eq]

/-- One lead byte, then continuation bytes only. -/
theorem utf8EncodeChar_shape (c : Char) : ∃ lead rest, String.utf8EncodeChar c = lead :: rest ∧
    isContinuation lead = false ∧ ∀ b ∈ rest, isContinuation b := by
  have hmax : c.val.toNat < 0xD800 ∨ 0xDFFF < c.val.toNat ∧ c.val.toNat < 0x110000 := c.valid
  have hlead : ∀ n : Nat, n < 256 → (n < 0x80 ∨ 0xC0 ≤ n) →
      isContinuation (UInt8.ofNat n) = false := by
    intro n hn hout
    rw [Bool.eq_false_iff, Ne, isContinuation_iff, UInt8.toNat_ofNat']
    omega
  have hcont : ∀ n : Nat, 0x80 ≤ n → n < 0xC0 → isContinuation (UInt8.ofNat n) := by
    intro n hlow hhigh
    rw [isContinuation_iff, UInt8.toNat_ofNat']
    omega
  simp only [String.utf8EncodeChar]
  split
  · exact ⟨_, _, rfl, hlead _ (by omega) (by omega), by simp⟩
  · split
    · refine ⟨_, _, rfl, hlead _ (by omega) (by omega), ?_⟩
      simp only [List.forall_mem_cons, List.not_mem_nil, false_imp_iff, implies_true, and_true]
      exact hcont _ (by omega) (by omega)
    · split
      · refine ⟨_, _, rfl, hlead _ (by omega) (by omega), ?_⟩
        simp only [List.forall_mem_cons, List.not_mem_nil, false_imp_iff, implies_true, and_true]
        exact ⟨hcont _ (by omega) (by omega), hcont _ (by omega) (by omega)⟩
      · refine ⟨_, _, rfl, hlead _ (by omega) (by omega), ?_⟩
        simp only [List.forall_mem_cons, List.not_mem_nil, false_imp_iff, implies_true, and_true]
        exact ⟨hcont _ (by omega) (by omega), hcont _ (by omega) (by omega),
          hcont _ (by omega) (by omega)⟩

/-- A text can be cut before a byte exactly when the byte continues no character. -/
theorem IsUtf8.take_iff {a b : List UInt8} {x : UInt8} (h : IsUtf8 (a ++ x :: b)) :
    IsUtf8 a ↔ isContinuation x = false := by
  constructor
  · intro ha
    obtain ⟨s, hs⟩ := (IsUtf8.append_left ha).mp h
    cases s with
    | nil => simp [utf8] at hs
    | cons c s =>
      obtain ⟨lead, rest, hc, hlead, -⟩ := utf8EncodeChar_shape c
      rw [utf8_cons, hc] at hs
      rw [(List.cons.inj hs).1]
      exact hlead
  · intro hx
    obtain ⟨s, hs⟩ := h
    induction s generalizing a with
    | nil => simp [utf8] at hs
    | cons d s ih =>
      rw [utf8_cons] at hs
      obtain ⟨t, hd, ht⟩ | ⟨t, ha, ht⟩ := List.append_eq_append_iff.mp hs
      · cases a with
        | nil => exact .nil
        | cons y a =>
          cases t with
          | nil =>
            rw [List.append_nil] at hd
            exact hd ▸ .encoded d
          | cons z t =>
            -- the byte would be one of the first character, after its lead
            obtain ⟨rfl, -⟩ := List.cons.inj ht
            obtain ⟨lead, rest, hc, -, hrest⟩ := utf8EncodeChar_shape d
            rw [hc, List.cons_append] at hd
            have hmem : x ∈ rest := by
              rw [(List.cons.inj hd).2]
              simp
            rw [hrest x hmem] at hx
            cases hx
      · exact ha ▸ (IsUtf8.encoded d).append (ih ht.symm)

/-- Dropping bytes below 0x80 drops whole characters. -/
theorem IsUtf8.filter {p : UInt8 → Bool} (hp : ∀ b : UInt8, 0x80 ≤ b.toNat → p b)
    {bs : List UInt8} (h : IsUtf8 bs) : IsUtf8 (bs.filter p) := by
  obtain ⟨s, rfl⟩ := h
  induction s with
  | nil => exact .nil
  | cons c s ih =>
    rw [utf8_cons, List.filter_append]
    refine IsUtf8.append ?_ ih
    by_cases hascii : ∃ b ∈ String.utf8EncodeChar c, b.toNat < 0x80
    · obtain ⟨b, hb, hlow⟩ := hascii
      have hone := utf8EncodeChar_ascii hb hlow
      rw [hone]
      cases hkeep : p b with
      | true =>
        rw [List.filter_cons_of_pos hkeep, List.filter_nil, ← hone]
        exact .encoded c
      | false =>
        rw [List.filter_cons_of_neg (by rw [hkeep]; exact Bool.false_ne_true)]
        exact .nil
    · rw [List.filter_eq_self.mpr]
      · exact .encoded c
      · intro b hb
        apply hp
        apply Nat.le_of_not_lt
        intro hlow
        exact hascii ⟨b, hb, hlow⟩

end JsonGrammar
