import Mathlib.Algebra.Field.Basic
import Mathlib.Tactic.FieldSimp
import Mathlib.Tactic.LinearCombination
import Mathlib.Tactic.Ring

/-!
# Complete twisted Edwards curves

The curve `a x² + y² = 1 + d x² y²` where `a` is a square and `d` is not. Then
no denominator of the addition law vanishes, one formula adds all points, and
the points form a commutative group.
-/
namespace Edwards

/-- The coefficients; `s` is the root of `a`. -/
structure Coefficients (F : Type) [Field F] where
  a : F
  d : F
  s : F
  s_sq : s * s = a
  a_ne_zero : a ≠ 0
  nonsquare : ∀ r, r * r ≠ d
  two_ne_zero : (2 : F) ≠ 0

variable {F : Type} [Field F] (C : Coefficients F)

/-- A point of the curve. -/
@[ext] structure Point where
  x : F
  y : F
  on : C.a * x ^ 2 + y ^ 2 = 1 + C.d * x ^ 2 * y ^ 2

variable {C}

section
variable {a d s e t x₁ y₁ x₂ y₂ x₃ y₃ : F}

/-- The first of the identities behind the law: they hold modulo the equations of the points, with
no denominators. -/
theorem root_identity (h₁ : a * x₁ ^ 2 + y₁ ^ 2 = 1 + d * x₁ ^ 2 * y₁ ^ 2)
    (h₂ : a * x₂ ^ 2 + y₂ ^ 2 = 1 + d * x₂ ^ 2 * y₂ ^ 2) (hs : s * s = a) (he : e * e = 1)
    (ht : t * t = 1) (hcross : d * x₁ * x₂ * y₁ * y₂ = e) :
    (s * x₁ + t * e * y₁) ^ 2 = d * (x₁ * y₁ * (s * x₂ + t * y₂)) ^ 2 := by
  grind

theorem closure_identity (h₁ : a * x₁ ^ 2 + y₁ ^ 2 = 1 + d * x₁ ^ 2 * y₁ ^ 2)
    (h₂ : a * x₂ ^ 2 + y₂ ^ 2 = 1 + d * x₂ ^ 2 * y₂ ^ 2) :
    a * ((x₁ * y₂ + y₁ * x₂) * (1 - d * x₁ * x₂ * y₁ * y₂)) ^ 2 +
      ((y₁ * y₂ - a * x₁ * x₂) * (1 + d * x₁ * x₂ * y₁ * y₂)) ^ 2 =
    ((1 + d * x₁ * x₂ * y₁ * y₂) * (1 - d * x₁ * x₂ * y₁ * y₂)) ^ 2 +
      d * (x₁ * y₂ + y₁ * x₂) ^ 2 * (y₁ * y₂ - a * x₁ * x₂) ^ 2 := by
  grind

theorem assoc_identity_x (h₁ : a * x₁ ^ 2 + y₁ ^ 2 = 1 + d * x₁ ^ 2 * y₁ ^ 2)
    (h₂ : a * x₂ ^ 2 + y₂ ^ 2 = 1 + d * x₂ ^ 2 * y₂ ^ 2)
    (h₃ : a * x₃ ^ 2 + y₃ ^ 2 = 1 + d * x₃ ^ 2 * y₃ ^ 2) :
    ((x₁ * y₂ + y₁ * x₂) * (1 - d * x₁ * x₂ * y₁ * y₂) * y₃ +
      (y₁ * y₂ - a * x₁ * x₂) * (1 + d * x₁ * x₂ * y₁ * y₂) * x₃) *
    ((1 + d * x₂ * x₃ * y₂ * y₃) * (1 - d * x₂ * x₃ * y₂ * y₃) +
      d * x₁ * (x₂ * y₃ + y₂ * x₃) * y₁ * (y₂ * y₃ - a * x₂ * x₃)) =
    (x₁ * (y₂ * y₃ - a * x₂ * x₃) * (1 + d * x₂ * x₃ * y₂ * y₃) +
      y₁ * (x₂ * y₃ + y₂ * x₃) * (1 - d * x₂ * x₃ * y₂ * y₃)) *
    ((1 + d * x₁ * x₂ * y₁ * y₂) * (1 - d * x₁ * x₂ * y₁ * y₂) +
      d * (x₁ * y₂ + y₁ * x₂) * x₃ * (y₁ * y₂ - a * x₁ * x₂) * y₃) := by
  grind

theorem assoc_identity_y (h₁ : a * x₁ ^ 2 + y₁ ^ 2 = 1 + d * x₁ ^ 2 * y₁ ^ 2)
    (h₂ : a * x₂ ^ 2 + y₂ ^ 2 = 1 + d * x₂ ^ 2 * y₂ ^ 2)
    (h₃ : a * x₃ ^ 2 + y₃ ^ 2 = 1 + d * x₃ ^ 2 * y₃ ^ 2) :
    ((y₁ * y₂ - a * x₁ * x₂) * (1 + d * x₁ * x₂ * y₁ * y₂) * y₃ -
      a * (x₁ * y₂ + y₁ * x₂) * (1 - d * x₁ * x₂ * y₁ * y₂) * x₃) *
    ((1 + d * x₂ * x₃ * y₂ * y₃) * (1 - d * x₂ * x₃ * y₂ * y₃) -
      d * x₁ * (x₂ * y₃ + y₂ * x₃) * y₁ * (y₂ * y₃ - a * x₂ * x₃)) =
    (y₁ * (y₂ * y₃ - a * x₂ * x₃) * (1 + d * x₂ * x₃ * y₂ * y₃) -
      a * x₁ * (x₂ * y₃ + y₂ * x₃) * (1 - d * x₂ * x₃ * y₂ * y₃)) *
    ((1 + d * x₁ * x₂ * y₁ * y₂) * (1 - d * x₁ * x₂ * y₁ * y₂) -
      d * (x₁ * y₂ + y₁ * x₂) * x₃ * (y₁ * y₂ - a * x₁ * x₂) * y₃) := by
  grind

end

/-- The product in the denominators. -/
def Point.cross (P Q : Point C) : F := C.d * P.x * Q.x * P.y * Q.y

/-- If the product were `±1`, the coefficient `d` would be a square. -/
theorem cross_ne (P Q : Point C) {e : F} (he : e * e = 1) : P.cross Q ≠ e := by
  intro hcross
  have he₀ : e ≠ 0 := by
    rintro rfl
    simp at he
  rw [← hcross, Point.cross] at he₀
  simp only [ne_eq, mul_eq_zero, not_or] at he₀
  obtain ⟨⟨⟨⟨-, hx₁⟩, hx₂⟩, hy₁⟩, hy₂⟩ := he₀
  rw [Point.cross] at hcross
  have hroot : ∀ t : F, t * t = 1 → C.s * Q.x + t * Q.y ≠ 0 → False := by
    intro t ht hne
    have hsquare : (C.s * P.x + t * e * P.y) ^ 2 =
        C.d * (P.x * P.y * (C.s * Q.x + t * Q.y)) ^ 2 :=
      root_identity P.on Q.on C.s_sq he ht hcross
    apply C.nonsquare ((C.s * P.x + t * e * P.y) / (P.x * P.y * (C.s * Q.x + t * Q.y)))
    have hden : P.x * P.y * (C.s * Q.x + t * Q.y) ≠ 0 :=
      mul_ne_zero (mul_ne_zero hx₁ hy₁) hne
    rw [div_mul_div_comm, div_eq_iff (mul_ne_zero hden hden), ← pow_two, hsquare, pow_two]
  by_cases hplus : C.s * Q.x + 1 * Q.y = 0
  · by_cases hminus : C.s * Q.x + -1 * Q.y = 0
    · apply mul_ne_zero C.two_ne_zero hy₂
      linear_combination hplus - hminus
    · exact hroot (-1) (by ring) hminus
  · exact hroot 1 (by ring) hplus

theorem one_add_cross_ne (P Q : Point C) : 1 + P.cross Q ≠ 0 := by
  intro h
  exact cross_ne P Q (e := -1) (by ring) (by linear_combination h)

theorem one_sub_cross_ne (P Q : Point C) : 1 - P.cross Q ≠ 0 := by
  intro h
  exact cross_ne P Q (e := 1) (by ring) (by linear_combination -h)

def addX (P Q : Point C) : F := (P.x * Q.y + P.y * Q.x) / (1 + P.cross Q)

def addY (P Q : Point C) : F := (P.y * Q.y - C.a * P.x * Q.x) / (1 - P.cross Q)

theorem addX_mul (P Q : Point C) :
    addX P Q * (1 + P.cross Q) = P.x * Q.y + P.y * Q.x :=
  div_mul_cancel₀ _ (one_add_cross_ne P Q)

theorem addY_mul (P Q : Point C) :
    addY P Q * (1 - P.cross Q) = P.y * Q.y - C.a * P.x * Q.x :=
  div_mul_cancel₀ _ (one_sub_cross_ne P Q)

/-- The sum of two points is a point. -/
theorem add_on (P Q : Point C) :
    C.a * addX P Q ^ 2 + addY P Q ^ 2 = 1 + C.d * addX P Q ^ 2 * addY P Q ^ 2 := by
  have hx := addX_mul P Q
  have hy := addY_mul P Q
  have hd := mul_ne_zero (one_add_cross_ne P Q) (one_sub_cross_ne P Q)
  have hclear := closure_identity P.on Q.on
  change _ * (_ * (1 - P.cross Q)) ^ 2 + (_ * (1 + P.cross Q)) ^ 2 =
    ((1 + P.cross Q) * (1 - P.cross Q)) ^ 2 + _ at hclear
  rw [← hx, ← hy] at hclear
  apply mul_right_cancel₀ (pow_ne_zero 2 hd)
  linear_combination hclear

instance : Zero (Point C) := ⟨⟨0, 1, by ring⟩⟩

instance : Neg (Point C) := ⟨fun P => ⟨-P.x, P.y, by rw [neg_sq]; exact P.on⟩⟩

instance : Add (Point C) := ⟨fun P Q => ⟨addX P Q, addY P Q, add_on P Q⟩⟩

@[simp] theorem zero_x : (0 : Point C).x = 0 := rfl
@[simp] theorem zero_y : (0 : Point C).y = 1 := rfl
@[simp] theorem neg_x (P : Point C) : (-P).x = -P.x := rfl
@[simp] theorem neg_y (P : Point C) : (-P).y = P.y := rfl
@[simp] theorem add_x (P Q : Point C) : (P + Q).x = addX P Q := rfl
@[simp] theorem add_y (P Q : Point C) : (P + Q).y = addY P Q := rfl

/-- A point whose coordinates satisfy the cleared equations of a sum is that sum. -/
theorem eq_add {P Q R : Point C} (hx : R.x * (1 + P.cross Q) = P.x * Q.y + P.y * Q.x)
    (hy : R.y * (1 - P.cross Q) = P.y * Q.y - C.a * P.x * Q.x) : R = P + Q := by
  apply Point.ext
  · rw [add_x, addX, eq_div_iff (one_add_cross_ne P Q), hx]
  · rw [add_y, addY, eq_div_iff (one_sub_cross_ne P Q), hy]

theorem add_comm' (P Q : Point C) : P + Q = Q + P := by
  have hcross : Q.cross P = P.cross Q := by
    rw [Point.cross, Point.cross]
    ring
  apply eq_add
  · rw [add_x, hcross, addX_mul]
    ring
  · rw [add_y, hcross, addY_mul]
    ring

theorem zero_add' (P : Point C) : 0 + P = P := by
  have hcross : (0 : Point C).cross P = 0 := by simp [Point.cross]
  symm
  apply eq_add
  · rw [hcross, zero_x, zero_y]
    ring
  · rw [hcross, zero_x, zero_y]
    ring

theorem neg_add' (P : Point C) : -P + P = 0 := by
  have hcross : (-P).cross P = -(C.d * P.x ^ 2 * P.y ^ 2) := by
    rw [Point.cross, neg_x, neg_y]
    ring
  symm
  apply eq_add
  · rw [zero_x, neg_x, neg_y]
    ring
  · rw [zero_y, hcross, neg_x, neg_y]
    linear_combination -P.on

section
variable (P Q R : Point C)

/-- The product with a sum, cleared of the denominators of the sum. -/
theorem cross_add_left : (P + Q).cross R * ((1 + P.cross Q) * (1 - P.cross Q)) =
    C.d * (P.x * Q.y + P.y * Q.x) * R.x * (P.y * Q.y - C.a * P.x * Q.x) * R.y := by
  rw [Point.cross, add_x, add_y, ← addX_mul P Q, ← addY_mul P Q]
  ring

theorem cross_add_right : P.cross (Q + R) * ((1 + Q.cross R) * (1 - Q.cross R)) =
    C.d * P.x * (Q.x * R.y + Q.y * R.x) * P.y * (Q.y * R.y - C.a * Q.x * R.x) := by
  rw [Point.cross, add_x, add_y, ← addX_mul Q R, ← addY_mul Q R]
  ring

/-- Each coordinate by its identity, once the denominators are cleared. -/
theorem add_assoc' : P + Q + R = P + (Q + R) := by
  have hpq := mul_ne_zero (one_add_cross_ne P Q) (one_sub_cross_ne P Q)
  have hqr := mul_ne_zero (one_add_cross_ne Q R) (one_sub_cross_ne Q R)
  have hx₁ := addX_mul P Q
  have hy₁ := addY_mul P Q
  have hx₂ := addX_mul Q R
  have hy₂ := addY_mul Q R
  have hleft := cross_add_left P Q R
  have hright := cross_add_right P Q R
  apply Point.ext
  · rw [add_x, add_x, addX, addX, div_eq_div_iff (one_add_cross_ne _ _) (one_add_cross_ne _ _)]
    apply mul_right_cancel₀ (mul_ne_zero hpq hqr)
    simp only [add_x, add_y]
    calc _ = (addX P Q * (1 + P.cross Q) * (1 - P.cross Q) * R.y +
            addY P Q * (1 - P.cross Q) * (1 + P.cross Q) * R.x) *
          ((1 + Q.cross R) * (1 - Q.cross R) +
            P.cross (Q + R) * ((1 + Q.cross R) * (1 - Q.cross R))) := by ring
      _ = (P.x * (addY Q R * (1 - Q.cross R)) * (1 + Q.cross R) +
            P.y * (addX Q R * (1 + Q.cross R)) * (1 - Q.cross R)) *
          ((1 + P.cross Q) * (1 - P.cross Q) +
            (P + Q).cross R * ((1 + P.cross Q) * (1 - P.cross Q))) := by
        rw [hx₁, hy₁, hx₂, hy₂, hleft, hright]
        exact assoc_identity_x P.on Q.on R.on
      _ = _ := by ring
  · rw [add_y, add_y, addY, addY, div_eq_div_iff (one_sub_cross_ne _ _) (one_sub_cross_ne _ _)]
    apply mul_right_cancel₀ (mul_ne_zero hpq hqr)
    simp only [add_x, add_y]
    calc _ = (addY P Q * (1 - P.cross Q) * (1 + P.cross Q) * R.y -
            C.a * (addX P Q * (1 + P.cross Q)) * (1 - P.cross Q) * R.x) *
          ((1 + Q.cross R) * (1 - Q.cross R) -
            P.cross (Q + R) * ((1 + Q.cross R) * (1 - Q.cross R))) := by ring
      _ = (P.y * (addY Q R * (1 - Q.cross R)) * (1 + Q.cross R) -
            C.a * P.x * (addX Q R * (1 + Q.cross R)) * (1 - Q.cross R)) *
          ((1 + P.cross Q) * (1 - P.cross Q) -
            (P + Q).cross R * ((1 + P.cross Q) * (1 - P.cross Q))) := by
        rw [hx₁, hy₁, hx₂, hy₂, hleft, hright]
        exact assoc_identity_y P.on Q.on R.on
      _ = _ := by ring

end

instance : AddCommGroup (Point C) where
  add_assoc := add_assoc'
  zero_add := zero_add'
  add_zero P := by rw [add_comm', zero_add']
  neg_add_cancel := neg_add'
  add_comm := add_comm'
  nsmul := nsmulRec
  zsmul := zsmulRec

/-- The equation of a point, solved for `x²`. -/
theorem Point.x_sq (P : Point C) : (C.a - C.d * P.y ^ 2) * P.x ^ 2 = 1 - P.y ^ 2 := by
  linear_combination P.on

theorem denominator_ne (C : Coefficients F) (y : F) : C.a - C.d * y ^ 2 ≠ 0 := by
  intro h
  have hy : y ≠ 0 := by
    rintro rfl
    apply C.a_ne_zero
    linear_combination h
  apply C.nonsquare (C.s / y)
  rw [div_mul_div_comm, div_eq_iff (mul_ne_zero hy hy), C.s_sq]
  linear_combination h

/-- Points of one height are equal or opposite. -/
theorem eq_or_eq_neg {P Q : Point C} (h : P.y = Q.y) : P = Q ∨ P = -Q := by
  have hP := P.x_sq
  have hQ := Q.x_sq
  rw [h, ← hQ] at hP
  have hsq : P.x ^ 2 = Q.x ^ 2 := mul_left_cancel₀ (denominator_ne C Q.y) hP
  rcases sq_eq_sq_iff_eq_or_eq_neg.mp hsq with hx | hx
  · exact .inl (Point.ext hx h)
  · exact .inr (Point.ext hx h)

/-- `x = X / Z`, `y = Y / Z`, `T = X Y / Z`. -/
structure Extended (F : Type) where
  X : F
  Y : F
  Z : F
  T : F

structure Extended.Represents (e : Extended F) (P : Point C) : Prop where
  Z_ne : e.Z ≠ 0
  X : e.X = P.x * e.Z
  Y : e.Y = P.y * e.Z
  T : e.T = P.x * P.y * e.Z

/-- Eight multiplications for `a = -1`; `k` is twice the coefficient `d`. -/
def Extended.add (k : F) (p q : Extended F) : Extended F :=
  let a := (p.Y - p.X) * (q.Y - q.X)
  let b := (p.X + p.Y) * (q.X + q.Y)
  let c := p.T * q.T * k
  let d := p.Z * q.Z + p.Z * q.Z
  let e := b - a
  let f := d - c
  let g := d + c
  let h := b + a
  ⟨e * f, h * g, g * f, e * h⟩

/-- The formula adds all points, doubles among them. -/
theorem Extended.Represents.add {k : F} (ha : C.a = -1) (hk : k = C.d + C.d) {p q : Extended F}
    {P Q : Point C} (hp : p.Represents P) (hq : q.Represents Q) :
    (Extended.add k p q).Represents (P + Q) := by
  obtain ⟨hZp, hXp, hYp, hTp⟩ := hp
  obtain ⟨hZq, hXq, hYq, hTq⟩ := hq
  have hx := addX_mul P Q
  have hy := addY_mul P Q
  rw [ha] at hy
  have hZ := mul_ne_zero C.two_ne_zero (mul_ne_zero hZp hZq)
  have hc : p.T * q.T * k = 2 * (p.Z * q.Z) * P.cross Q := by
    rw [hTp, hTq, hk, Point.cross]
    ring
  have he : (p.X + p.Y) * (q.X + q.Y) - (p.Y - p.X) * (q.Y - q.X) =
      2 * (p.Z * q.Z) * (addX P Q * (1 + P.cross Q)) := by
    rw [hx, hXp, hYp, hXq, hYq]
    ring
  have hh : (p.X + p.Y) * (q.X + q.Y) + (p.Y - p.X) * (q.Y - q.X) =
      2 * (p.Z * q.Z) * (addY P Q * (1 - P.cross Q)) := by
    rw [hy, hXp, hYp, hXq, hYq]
    ring
  simp only [Extended.add, hc, he, hh]
  constructor
  · change (p.Z * q.Z + p.Z * q.Z + 2 * (p.Z * q.Z) * P.cross Q) *
      (p.Z * q.Z + p.Z * q.Z - 2 * (p.Z * q.Z) * P.cross Q) ≠ 0
    rw [show p.Z * q.Z + p.Z * q.Z + 2 * (p.Z * q.Z) * P.cross Q =
        2 * (p.Z * q.Z) * (1 + P.cross Q) by ring,
      show p.Z * q.Z + p.Z * q.Z - 2 * (p.Z * q.Z) * P.cross Q =
        2 * (p.Z * q.Z) * (1 - P.cross Q) by ring]
    exact mul_ne_zero (mul_ne_zero hZ (one_add_cross_ne P Q))
      (mul_ne_zero hZ (one_sub_cross_ne P Q))
  · simp only [add_x]
    ring
  · simp only [add_y]
    ring
  · simp only [add_x, add_y]
    ring

/-- `Extended.add` on residues modulo `m`. -/
def Extended.addMod (m k : Int) (p q : Extended Int) : Extended Int :=
  let a := (p.Y - p.X) * (q.Y - q.X)
  let b := (p.X + p.Y) * (q.X + q.Y)
  let c := p.T * q.T % m * k
  let d := p.Z * q.Z + p.Z * q.Z
  let e := (b - a) % m
  let f := (d - c) % m
  let g := (d + c) % m
  let h := (b + a) % m
  ⟨e * f % m, h * g % m, g * f % m, e * h % m⟩

/-- `n` times a point by doubling, for numbers of at most so many bits. -/
def Extended.mulMod (m k : Int) (q : Extended Int) : Nat → Nat → Extended Int
  | 0, _ => ⟨0, 1, 1, 0⟩
  | bits + 1, n =>
    let r := mulMod m k q bits (n / 2)
    let r := addMod m k r r
    if n % 2 = 1 then addMod m k r q else r

def Extended.cast (p : Extended Int) : Extended F := ⟨p.X, p.Y, p.Z, p.T⟩

theorem intCast_emod {m : Int} (hm : (m : F) = 0) (x : Int) : ((x % m : Int) : F) = (x : F) := by
  rw [Int.emod_def, Int.cast_sub, Int.cast_mul, hm, zero_mul, sub_zero]

theorem Extended.cast_addMod {m k : Int} (hm : (m : F) = 0) (p q : Extended Int) :
    (addMod m k p q).cast = Extended.add (k : F) p.cast q.cast := by
  simp only [addMod, Extended.cast, Extended.add, Int.cast_mul, Int.cast_add, Int.cast_sub,
    intCast_emod hm]

theorem Extended.represents_zero : (⟨0, 1, 1, 0⟩ : Extended F).Represents (0 : Point C) := by
  constructor
  · exact one_ne_zero
  · rw [zero_x, zero_mul]
  · rw [zero_y, mul_one]
  · rw [zero_x, zero_mul, zero_mul]

/-- Multiples computed on integers modulo `m` are multiples of the point. -/
theorem Extended.Represents.mulMod {m k : Int} (ha : C.a = -1) (hm : (m : F) = 0)
    (hk : (k : F) = C.d + C.d) {q : Extended Int} {Q : Point C} (hq : q.cast.Represents Q)
    {bits n : Nat} (hn : n < 2 ^ bits) : (mulMod m k q bits n).cast.Represents (n • Q) := by
  induction bits generalizing n with
  | zero =>
    have hzero : n = 0 := by simpa using hn
    rw [hzero, zero_nsmul, Extended.mulMod, Extended.cast, Int.cast_zero, Int.cast_one]
    exact represents_zero
  | succ bits ih =>
    have hhalf : n / 2 < 2 ^ bits := by
      rw [pow_succ] at hn
      omega
    have hdouble := (ih hhalf).add ha hk (ih hhalf)
    rw [← add_nsmul, ← cast_addMod hm] at hdouble
    rw [Extended.mulMod]
    split
    case isTrue hodd =>
      have hnext := hdouble.add ha hk hq
      rw [← succ_nsmul, ← cast_addMod hm] at hnext
      rwa [show n / 2 + n / 2 + 1 = n by omega] at hnext
    case isFalse heven =>
      rwa [show n / 2 + n / 2 = n by omega] at hdouble

/-- Coordinates of the neutral point. -/
theorem Extended.Represents.eq_zero {e : Extended F} {P : Point C} (h : e.Represents P)
    (hX : e.X = 0) (hY : e.Y = e.Z) : P = 0 := by
  apply Point.ext
  · exact (mul_eq_zero.mp (h.X.symm.trans hX)).resolve_right h.Z_ne
  · apply mul_right_cancel₀ h.Z_ne
    rw [← h.Y, hY, zero_y, one_mul]

end Edwards
