import Keylight.Ed25519

/-!
# What a signature says

The signatures that a holder of a scalar makes are accepted. Of one commitment
the check accepts one number S modulo the order, hence at most two, and one
signature fits two messages only if their challenges agree.
-/
namespace Keylight.Ed25519
open Bytes Words Edwards
open Sha512 (sha512)

/-- A commitment and a number S. -/
def signature (R : Vector UInt8 32) (n : Nat) : Vector UInt8 64 := R ++ word32 n

theorem take_signature (R : Vector UInt8 32) (n : Nat) :
    (signature R n).toList.take 32 = R.toList := by
  rw [signature, Vector.toList_append, List.take_left' Vector.length_toList]

theorem scalar_signature {n : Nat} (R : Vector UInt8 32) (h : n < 256 ^ 32) :
    scalar (signature R n) = n := by
  rw [scalar, signature, Vector.toList_append, List.drop_left' Vector.length_toList,
    leValue_word32, Nat.mod_eq_of_lt h]

/-- The challenge of a commitment, before S is known. -/
def challengeOf (R pubkey : Vector UInt8 32) (msg : Bytes) : Nat :=
  leValue (sha512 (R.toList ++ pubkey.toList ++ msg)).toList % order

theorem challenge_signature (R pubkey : Vector UInt8 32) (n : Nat) (msg : Bytes) :
    challenge msg (signature R n) pubkey = challengeOf R pubkey msg := by
  rw [challenge, take_signature, challengeOf]

/-- The signature that the scalar `a` makes with the nonce `r`. -/
def sign (a r : Nat) (msg : Bytes) : Vector UInt8 64 :=
  let R := encode (r • base)
  signature R ((r + challengeOf R (encode (a • base)) msg * a) % order)

theorem order_lt : order < 2 ^ 253 := by decide

theorem equation_sign (a r : Nat) (msg : Bytes) :
    Equation msg (sign a r msg) (encode (a • base)) (a • base) (r • base) := by
  have hlt : (r + challengeOf (encode (r • base)) (encode (a • base)) msg * a) % order <
      256 ^ 32 := (Nat.mod_lt _ (by decide)).trans (by decide)
  constructor
  · exact (encodes_encode _).decodes
  · rw [sign, take_signature]
    exact encodes_encode _
  · rw [sign, scalar_signature _ hlt, challenge_signature, mod_nsmul_base, add_nsmul, mul_nsmul']

theorem valid_sign (a r : Nat) (msg : Bytes) :
    Valid msg (sign a r msg) (encode (a • base)) := by
  have hlt : (r + challengeOf (encode (r • base)) (encode (a • base)) msg * a) % order <
      order := Nat.mod_lt _ (by decide)
  refine ⟨?_, a • base, r • base, equation_sign a r msg⟩
  rw [sign, scalar_signature _ (hlt.trans (by decide))]
  exact hlt.trans order_lt

/-- Every signature made is accepted. -/
theorem sign_accepted (a r : Nat) (msg : Bytes) :
    ed25519Verify msg (sign a r msg) (encode (a • base)) = some true :=
  accepts_iff.mpr (valid_sign a r msg)

/-- The bytes of a multiple of the base point, from coordinates that fit its
extended ones. -/
theorem encode_nsmul_base {n x y : Nat} (hn : n < 2 ^ 253) (hx : x < prime) (hy : y < prime)
    (hX : ((Extended.mulMod prime kD2.value baseExtended 253 n).X -
      x * (Extended.mulMod prime kD2.value baseExtended 253 n).Z) % prime = 0)
    (hY : ((Extended.mulMod prime kD2.value baseExtended 253 n).Y -
      y * (Extended.mulMod prime kD2.value baseExtended 253 n).Z) % prime = 0) :
    encode (n • base) = word32 (y + 2 ^ 255 * (x % 2)) := by
  have hrep := represents_nsmul_base hn
  have hxel := intCast_eq hX
  have hyel := intCast_eq hY
  rw [Int.cast_mul, Int.cast_natCast] at hxel hyel
  have hPx : (n • base).x = x := mul_right_cancel₀ hrep.Z_ne (hrep.X.symm.trans hxel)
  have hPy : (n • base).y = y := mul_right_cancel₀ hrep.Z_ne (hrep.Y.symm.trans hyel)
  rw [encode, hPx, hPy, ZMod.val_natCast, ZMod.val_natCast, Nat.mod_eq_of_lt hx,
    Nat.mod_eq_of_lt hy]

def knownScalar : Nat :=
  534141211978382579267720972781863424154222581524394306633945369735926487495

def knownNonce : Nat :=
  3708935390207795704151005957304313360809555365997121277205774546442005757839

def knownKey : Vector UInt8 32 :=
  word32 0x0c66f42af155cdc08c96c42ecf2c989cbc7e1b4da70ab7925a8943e8c317403d

def knownCommitment : Vector UInt8 32 :=
  word32 0xda69dbeb232276b38f3f5016547bb2a24025645f0b820e72b8cad4f0a909a092

def knownNumber : Nat := 0x000cbb1216290db0ee2a30b4ae2e7b388c1df1d013368f456e99153ee4c15a08

theorem encode_known : encode (knownScalar • base) = knownKey ∧
    encode (knownNonce • base) = knownCommitment := by
  constructor
  · exact encode_nsmul_base (n := knownScalar)
      (x := 52774231920053734232574595727734981596546427020284349182563870143297718469550)
      (y := 5609657767448528674903586191599477543993232845525898641911799861560072421437)
      (by decide) (by decide) (by decide) (by decide +kernel) (by decide +kernel)
  · exact encode_nsmul_base (n := knownNonce)
      (x := 9723755734215906320098229349078520107637843343703680356978966424352572363457)
      (y := 40895193136033226965014799556713247533209654337761990128738905002094921097362)
      (by decide) (by decide) (by decide) (by decide +kernel) (by decide +kernel)

/-- A published signature of a message of one byte. -/
theorem valid_known : Valid [0x72] (signature knownCommitment knownNumber) knownKey := by
  have hsign := valid_sign knownScalar knownNonce [0x72]
  have hnumber : (knownNonce + challengeOf knownCommitment knownKey [0x72] * knownScalar) %
      order = knownNumber := by decide +kernel
  rwa [sign, encode_known.1, encode_known.2, hnumber] at hsign

section
variable {msg msg' : Bytes} {sig sig' : Vector UInt8 64} {pubkey : Vector UInt8 32}

theorem challenge_congr (h : sig.toList.take 32 = sig'.toList.take 32) :
    challenge msg sig pubkey = challenge msg sig' pubkey := by
  rw [challenge, h, challenge]

theorem eq_of_scalar_eq (htake : sig.toList.take 32 = sig'.toList.take 32)
    (hscalar : scalar sig = scalar sig') : sig = sig' := by
  apply Vector.toList_inj.mp
  have hdrop : sig.toList.drop 32 = sig'.toList.drop 32 :=
    leValue_injective (by simp) hscalar
  rw [← List.take_append_drop 32 sig.toList, htake, hdrop, List.take_append_drop]

/-- Under one commitment the check looks at S modulo the order. -/
theorem valid_iff_of_take_eq (htake : sig.toList.take 32 = sig'.toList.take 32)
    (h : Valid msg sig pubkey) : Valid msg sig' pubkey ↔
      scalar sig' < 2 ^ 253 ∧ scalar sig' % order = scalar sig % order := by
  obtain ⟨-, A, R, hkey, hR, hsum⟩ := h
  have hchallenge : challenge msg sig pubkey = challenge msg sig' pubkey :=
    challenge_congr htake
  constructor
  · rintro ⟨hsmall, A', R', hkey', hR', hsum'⟩
    obtain rfl := hkey'.unique hkey
    rw [← htake] at hR'
    obtain rfl := hR'.injective hR
    rw [← hchallenge, ← hsum] at hsum'
    exact ⟨hsmall, nsmul_base_eq_iff.mp hsum'⟩
  · rintro ⟨hsmall, hmod⟩
    refine ⟨hsmall, A, R, hkey, htake ▸ hR, ?_⟩
    rw [nsmul_base_eq_iff.mpr hmod, hsum, hchallenge]

theorem eq_or_shifted {m n L : Nat} (h : m % L = n % L) (hm : m < 2 * L) (hn : n < 2 * L) :
    m = n ∨ m = n + L ∨ n = m + L := by
  have hdiv : ∀ {k : Nat}, k < 2 * L → k / L = 0 ∨ k / L = 1 := by
    intro k hk
    have hlt : k / L < 2 := Nat.div_lt_of_lt_mul (by rwa [Nat.mul_comm L])
    exact Nat.le_one_iff_eq_zero_or_eq_one.mp (Nat.lt_succ_iff.mp hlt)
  have hmL := Nat.div_add_mod m L
  have hnL := Nat.div_add_mod n L
  rcases hdiv hm with hm' | hm' <;> rcases hdiv hn with hn' | hn' <;> rw [hm'] at hmL <;>
    rw [hn'] at hnL <;> simp only [Nat.mul_zero, Nat.mul_one] at hmL hnL <;> omega

/-- With one commitment, besides an accepted signature only the one whose S is
the order more, or the order less, is accepted. -/
theorem accepted_twice (htake : sig.toList.take 32 = sig'.toList.take 32)
    (h : ed25519Verify msg sig pubkey = some true) :
    ed25519Verify msg sig' pubkey = some true ↔ sig' = sig ∨
      (scalar sig' = scalar sig + order ∧ scalar sig' < 2 ^ 253) ∨
      scalar sig = scalar sig' + order := by
  have hvalid := accepts_iff.mp h
  have hsmall := hvalid.small
  have hlarge : (2 : Nat) ^ 253 < 2 * order := by decide
  rw [accepts_iff, valid_iff_of_take_eq htake hvalid]
  constructor
  · rintro ⟨hsmall', hmod⟩
    rcases eq_or_shifted hmod (by omega) (by omega) with heq | hmore | hless
    · exact .inl (eq_of_scalar_eq htake heq.symm).symm
    · exact .inr (.inl ⟨hmore, hsmall'⟩)
    · exact .inr (.inr hless)
  · rintro (rfl | ⟨hmore, hsmall'⟩ | hless)
    · exact ⟨hsmall, rfl⟩
    · exact ⟨hsmall', by rw [hmore, Nat.add_mod_right]⟩
    · exact ⟨by omega, by rw [hless, Nat.add_mod_right]⟩

theorem accepted_twice_known : ed25519Verify [0x72]
    (signature knownCommitment (knownNumber + order)) knownKey = some true := by
  have hscalar : scalar (signature knownCommitment (knownNumber + order)) =
      scalar (signature knownCommitment knownNumber) + order := by
    rw [scalar_signature _ (by decide), scalar_signature _ (by decide)]
  have hsmall : scalar (signature knownCommitment (knownNumber + order)) < 2 ^ 253 := by
    rw [scalar_signature _ (by decide)]
    decide
  have htake : (signature knownCommitment knownNumber).toList.take 32 =
      (signature knownCommitment (knownNumber + order)).toList.take 32 := by
    rw [take_signature, take_signature]
  exact (accepted_twice htake (accepts_iff.mpr valid_known)).mpr (.inr (.inl ⟨hscalar, hsmall⟩))

/-- An accepted signature fits another message if the challenges agree modulo the
order of the key's point. -/
theorem accepted_message {A : Point curve} (hkey : Decodes pubkey.toList A)
    (h : ed25519Verify msg sig pubkey = some true) :
    ed25519Verify msg' sig pubkey = some true ↔
      challenge msg' sig pubkey ≡ challenge msg sig pubkey [MOD addOrderOf A] := by
  obtain ⟨hsmall, A₁, R, hkey₁, hR, hsum⟩ := accepts_iff.mp h
  obtain rfl := hkey₁.unique hkey
  rw [accepts_iff, ← nsmul_eq_nsmul_iff_modEq]
  constructor
  · rintro ⟨-, A', R', hkey', hR', hsum'⟩
    obtain rfl := hkey'.unique hkey
    obtain rfl := hR'.injective hR
    rw [hsum] at hsum'
    exact (add_left_cancel hsum').symm
  · intro heq
    exact ⟨hsmall, A₁, R, hkey, hR, by rw [hsum, heq]⟩

end

theorem accepted_message_known : ed25519Verify [0x73]
    (signature knownCommitment knownNumber) knownKey ≠ some true := by
  have hkey : Decodes knownKey.toList (knownScalar • base) := by
    rw [← encode_known.1]
    exact (encodes_encode _).decodes
  intro hother
  have hmod := (accepted_message hkey (accepts_iff.mpr valid_known)).mp hother
  rw [addOrderOf_nsmul_base (by decide), challenge_signature, challenge_signature] at hmod
  exact absurd hmod (by decide +kernel)

end Keylight.Ed25519
