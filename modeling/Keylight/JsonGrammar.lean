/-!
# JSON texts of a value tree

The grammar of RFC 8259 as a derivation relation: every text a value may be
written as, with its white space, its escapes and its duplicate keys. Strings
are sequences of Unicode scalar values, integers are bounded by `limit` and
written without fraction or exponent.
-/
namespace JsonGrammar

inductive Value (limit : Nat) where
  | null
  | bool (b : Bool)
  | int (z : {z : Int // z.natAbs ≤ limit})
  | string (s : List Char)
  | array (vs : List (Value limit))
  | object (ms : List (List Char × Value limit))

/-- Space, tab, line feed, carriage return. -/
def Ws (w : List UInt8) : Prop := ∀ c ∈ w, c = 32 ∨ c = 9 ∨ c = 10 ∨ c = 13

def utf8 (s : List Char) : List UInt8 := s.flatMap String.utf8EncodeChar

/-- A hexadecimal digit in either case. -/
def HexDigit (n : Nat) (x : UInt8) : Prop :=
  n < 10 ∧ x.toNat = 48 + n ∨ 10 ≤ n ∧ n < 16 ∧ (x.toNat = 55 + n ∨ x.toNat = 87 + n)

inductive Hex4 : Nat → List UInt8 → Prop
  | digits {a b c d : Nat} {w x y z : UInt8} : HexDigit a w → HexDigit b x → HexDigit c y →
      HexDigit d z → Hex4 (((a * 16 + b) * 16 + c) * 16 + d) [w, x, y, z]

/-- What may follow a backslash, and the character it stands for. -/
def shortEscapes : List (UInt8 × Nat) :=
  [(34, 34), (92, 92), (47, 47), (98, 8), (102, 12), (110, 10), (114, 13), (116, 9)]

/-- The text of a string between its quotes. -/
inductive Content : List Char → List UInt8 → Prop
  | nil : Content [] []
  | literal {c : Char} {s : List Char} {t : List UInt8} : 32 ≤ c.toNat → c.toNat ≠ 34 →
      c.toNat ≠ 92 → Content s t → Content (c :: s) (String.utf8EncodeChar c ++ t)
  | short {e : UInt8} {c : Char} {s : List Char} {t : List UInt8} :
      (e, c.toNat) ∈ shortEscapes → Content s t → Content (c :: s) (92 :: e :: t)
  | unit {c : Char} {s : List Char} {h t : List UInt8} : Hex4 c.toNat h → Content s t →
      Content (c :: s) (92 :: 117 :: (h ++ t))
  | pair {c : Char} {s : List Char} {h l t : List UInt8} : 0x10000 ≤ c.toNat →
      Hex4 (0xD800 + (c.toNat - 0x10000) / 1024) h →
      Hex4 (0xDC00 + (c.toNat - 0x10000) % 1024) l → Content s t →
      Content (c :: s) (92 :: 117 :: (h ++ 92 :: 117 :: (l ++ t)))

def Digit (x : UInt8) : Prop := 48 ≤ x ∧ x ≤ 57

def digitsValue (ds : List UInt8) : Nat := ds.foldl (fun n x => n * 10 + (x.toNat - 48)) 0

/-- No zero is put in front. -/
inductive Natural : Nat → List UInt8 → Prop
  | zero : Natural 0 [48]
  | digits {d : UInt8} {ds : List UInt8} : Digit d → d ≠ 48 → (∀ x ∈ ds, Digit x) →
      Natural (digitsValue (d :: ds)) (d :: ds)

inductive Integer : Int → List UInt8 → Prop
  | plus {n : Nat} {t : List UInt8} : Natural n t → Integer n t
  | minus {n : Nat} {t : List UInt8} : Natural n t → Integer (-n) (45 :: t)

/-- The rest of an array or an object starts after its bracket or a comma. -/
inductive Symbol (limit : Nat) where
  | value (v : Value limit)
  | elements (vs : List (Value limit))
  | members (ms : List (List Char × Value limit))

variable {limit : Nat}

inductive Derives : Symbol limit → List UInt8 → Prop
  | null : Derives (.value .null) [110, 117, 108, 108]
  | true : Derives (.value (.bool Bool.true)) [116, 114, 117, 101]
  | false : Derives (.value (.bool Bool.false)) [102, 97, 108, 115, 101]
  | int {z : {z : Int // z.natAbs ≤ limit}} {t : List UInt8} : Integer z.1 t →
      Derives (.value (.int z)) t
  | string {s : List Char} {q : List UInt8} : Content s q →
      Derives (.value (.string s)) (34 :: (q ++ [34]))
  | emptyArray {w : List UInt8} : Ws w → Derives (.value (.array [])) (91 :: (w ++ [93]))
  | array {vs : List (Value limit)} {t : List UInt8} : Derives (.elements vs) t →
      Derives (.value (.array vs)) (91 :: t)
  | emptyObject {w : List UInt8} : Ws w → Derives (.value (.object [])) (123 :: (w ++ [125]))
  | object {ms : List (List Char × Value limit)} {t : List UInt8} : Derives (.members ms) t →
      Derives (.value (.object ms)) (123 :: t)
  | lastElement {v : Value limit} {w t w' : List UInt8} : Ws w → Derives (.value v) t → Ws w' →
      Derives (.elements [v]) (w ++ (t ++ (w' ++ [93])))
  | element {v : Value limit} {vs : List (Value limit)} {w t w' u : List UInt8} : Ws w →
      Derives (.value v) t → Ws w' → Derives (.elements vs) u →
      Derives (.elements (v :: vs)) (w ++ (t ++ (w' ++ 44 :: u)))
  | lastMember {k : List Char} {v : Value limit} {w q w₁ w₂ t w' : List UInt8} : Ws w →
      Content k q → Ws w₁ → Ws w₂ → Derives (.value v) t → Ws w' →
      Derives (.members [(k, v)])
        (w ++ 34 :: (q ++ 34 :: (w₁ ++ 58 :: (w₂ ++ (t ++ (w' ++ [125]))))))
  | member {k : List Char} {v : Value limit} {ms : List (List Char × Value limit)}
      {w q w₁ w₂ t w' u : List UInt8} : Ws w → Content k q → Ws w₁ → Ws w₂ →
      Derives (.value v) t → Ws w' → Derives (.members ms) u →
      Derives (.members ((k, v) :: ms))
        (w ++ 34 :: (q ++ 34 :: (w₁ ++ 58 :: (w₂ ++ (t ++ (w' ++ 44 :: u))))))

/-- A whole text of `v`. -/
inductive Document : Value limit → List UInt8 → Prop
  | text {v : Value limit} {w t w' : List UInt8} : Ws w → Derives (.value v) t → Ws w' →
      Document v (w ++ (t ++ w'))

theorem utf8_cons (c : Char) (s : List Char) :
    utf8 (c :: s) = String.utf8EncodeChar c ++ utf8 s := List.flatMap_cons

/-- The encoding of a text determines it. -/
theorem utf8_injective (s t : List Char) (h : utf8 s = utf8 t) : s = t := by
  induction s generalizing t with
  | nil =>
    cases t with
    | nil => rfl
    | cons d t =>
      rw [utf8_cons] at h
      exact absurd (List.append_eq_nil_iff.mp h.symm).1 String.utf8EncodeChar_ne_nil
  | cons c s ih =>
    cases t with
    | nil =>
      rw [utf8_cons] at h
      exact absurd (List.append_eq_nil_iff.mp h).1 String.utf8EncodeChar_ne_nil
    | cons d t =>
      rw [utf8_cons, utf8_cons] at h
      -- the first character decodes from the front of either side
      have hfirst : some c = some d := by
        rw [← ByteArray.utf8DecodeChar?_utf8EncodeChar_append (b := (utf8 s).toByteArray),
          ← ByteArray.utf8DecodeChar?_utf8EncodeChar_append (b := (utf8 t).toByteArray),
          ← List.toByteArray_append, ← List.toByteArray_append, h]
      obtain rfl := Option.some.inj hfirst
      rw [ih t (List.append_cancel_left h)]

end JsonGrammar
