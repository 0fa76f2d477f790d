import Mathlib.Data.List.Prime
import Mathlib.NumberTheory.LucasPrimality

/-!
# Primality by certificate

Lucas's test with the factors of `p - 1` given, its powers taken by repeated
squaring so that the kernel evaluates them. A chain of entries certifies the
factors before the numbers they are factors of.
-/
namespace Primality

/-- `a ^ e % m` by squaring, for exponents of at most `k` bits. -/
def powMod (m a : Nat) : Nat → Nat → Nat
  | 0, _ => 1 % m
  | k + 1, e =>
    let r := powMod m a k (e / 2)
    if e % 2 = 1 then r ^ 2 * a % m else r ^ 2 % m

theorem powMod_eq (m a : Nat) {k e : Nat} (h : e < 2 ^ k) : powMod m a k e = a ^ e % m := by
  induction k generalizing e with
  | zero =>
    have he : e = 0 := by simpa using h
    rw [he, powMod, pow_zero]
  | succ k ih =>
    have hhalf : e / 2 < 2 ^ k := by
      rw [pow_succ] at h
      omega
    have hsplit := Nat.div_add_mod e 2
    have hsquare : (a ^ (e / 2) % m) ^ 2 ≡ a ^ (e / 2 * 2) [MOD m] := by
      rw [pow_mul]
      exact (Nat.mod_modEq _ _).pow 2
    rw [powMod, ih hhalf]
    split
    case isTrue hodd =>
      have hpow := hsquare.mul_right a
      rwa [← pow_succ, show e / 2 * 2 + 1 = e by omega] at hpow
    case isFalse heven =>
      rwa [show e / 2 * 2 = e by omega] at hsquare

theorem natCast_pow_eq_one_iff {p : Nat} (hp : 2 ≤ p) (a e : Nat) :
    (a : ZMod p) ^ e = 1 ↔ a ^ e % p = 1 := by
  rw [← Nat.cast_pow, ← Nat.cast_one, ZMod.natCast_eq_natCast_iff',
    Nat.mod_eq_of_lt (show 1 < p by omega)]

/-- What Lucas's test needs of `p`: a witness of order `p - 1`, and the primes that
multiply to `p - 1`. -/
structure Entry where
  p : Nat
  witness : Nat
  factors : List Nat

/-- The test of one entry, its factors being among the known primes. -/
def Entry.passes (known : List Nat) (e : Entry) : Bool :=
  let bits := (e.p - 1).log2 + 1
  decide (2 ≤ e.p) && e.factors.prod == e.p - 1 &&
    powMod e.p e.witness bits (e.p - 1) == 1 &&
    e.factors.all fun q => known.contains q &&
      powMod e.p e.witness bits ((e.p - 1) / q) != 1

/-- Entries in order, each of which may use the ones before it. -/
def chainPasses (known : List Nat) : List Entry → Bool
  | [] => true
  | e :: es => e.passes known && chainPasses (e.p :: known) es

theorem Entry.prime {known : List Nat} (hknown : ∀ q ∈ known, q.Prime) {e : Entry}
    (h : e.passes known = true) : e.p.Prime := by
  simp only [Entry.passes, Bool.and_eq_true, decide_eq_true_eq, beq_iff_eq, List.all_eq_true,
    bne_iff_ne, ne_eq, List.contains_iff_mem] at h
  obtain ⟨⟨⟨hp, hproduct⟩, horder⟩, hfactors⟩ := h
  have hlt : ∀ k ≤ e.p - 1, k < 2 ^ ((e.p - 1).log2 + 1) :=
    fun k hk => hk.trans_lt Nat.lt_log2_self
  apply lucas_primality e.p (e.witness : ZMod e.p)
  · rw [natCast_pow_eq_one_iff hp, ← powMod_eq _ _ (hlt _ (Nat.le_refl _))]
    exact horder
  · intro q hq hdvd
    have hmem : q ∈ e.factors := by
      rw [← hproduct] at hdvd
      obtain ⟨r, hr, hqr⟩ := hq.prime.dvd_prod_iff.mp hdvd
      rwa [(Nat.prime_dvd_prime_iff_eq hq (hknown r (hfactors r hr).1)).mp hqr]
    rw [Ne, natCast_pow_eq_one_iff hp, ← powMod_eq _ _ (hlt _ (Nat.div_le_self _ _))]
    exact (hfactors q hmem).2

/-- All entries of a chain that passes are prime. -/
theorem chain_prime {known : List Nat} (hknown : ∀ q ∈ known, q.Prime) {es : List Entry}
    (h : chainPasses known es = true) : ∀ p ∈ es.map Entry.p, p.Prime := by
  induction es generalizing known with
  | nil => simp
  | cons e es ih =>
    rw [chainPasses, Bool.and_eq_true] at h
    have hp := Entry.prime hknown h.1
    rw [List.map_cons, List.forall_mem_cons]
    refine ⟨hp, ih ?_ h.2⟩
    rw [List.forall_mem_cons]
    exact ⟨hp, hknown⟩

end Primality
