import Keylight.Payloads
import Keylight.Sha256Digest
import Keylight.SignedConfig
import Keylight.Signatures

/-!
# Trust

The verifier with its own Ed25519 and SHA-256. A lease or a configuration is
trusted when the curve equation holds on its payload, and a signature taken from
one payload to another needs a collision of the hash.
-/
namespace Keylight
open Bytes Ed25519 Words Edwards Sections MachineId

/-- The loop that copies a string into an array. -/
def byteArray (n : Nat) (b : Bytes) : Vector UInt8 n :=
  Vector.ofFn fun i : Fin n => b.getD i.val 0

def ed25519Crypto : Crypto where
  ed25519Verify msg sig pubkey :=
    (ed25519Verify msg (byteArray 64 sig) (byteArray 32 pubkey)).getD false
  sha256Hex := Sha256.sha256Hex

theorem byteArray_toList {n : Nat} {b : Bytes} (h : b.length = n) :
    (byteArray n b).toList = b := by
  apply List.ext_getElem
  · rw [Vector.length_toList, h]
  · intro i hi hi'
    simp only [byteArray, Vector.toList_ofFn, List.getElem_ofFn, List.getD_eq_getElem _ _ hi']

/-- The texts decode to a signature of the message and its key. -/
def Checks (msg sigText keyText : Bytes) : Prop :=
  ∃ sig pubkey, b64DecodeFlexible sigText = sig.toList ∧
    b64DecodeFlexible keyText = pubkey.toList ∧ Valid msg sig pubkey

theorem accepts_bytes_iff (msg sig pubkey : Bytes) :
    ed25519Crypto.ed25519Verify msg sig pubkey = true ↔
      Valid msg (byteArray 64 sig) (byteArray 32 pubkey) := by
  obtain ⟨ok, hok, hvalid⟩ := ed25519Verify_spec msg (byteArray 64 sig) (byteArray 32 pubkey)
  rw [← hvalid]
  change (ed25519Verify msg (byteArray 64 sig) (byteArray 32 pubkey)).getD false = true ↔ _
  rw [hok, Option.getD_some]

/-- What the verifier checks, in terms of the function it calls. -/
theorem checks_iff (msg sigText keyText : Bytes) : Checks msg sigText keyText ↔
    (b64DecodeFlexible keyText).length = 32 ∧ (b64DecodeFlexible sigText).length = 64 ∧
      ed25519Crypto.ed25519Verify msg (b64DecodeFlexible sigText) (b64DecodeFlexible keyText) =
        true := by
  constructor
  · rintro ⟨sig, pubkey, hsig, hkey, hvalid⟩
    have hsigLength : sig.toList.length = 64 := Vector.length_toList
    have hkeyLength : pubkey.toList.length = 32 := Vector.length_toList
    rw [hsig, hkey, accepts_bytes_iff,
      Vector.toList_inj.mp (byteArray_toList hsigLength),
      Vector.toList_inj.mp (byteArray_toList hkeyLength)]
    exact ⟨hkeyLength, hsigLength, hvalid⟩
  · rintro ⟨hkey, hsig, hvalid⟩
    exact ⟨_, _, (byteArray_toList hsig).symm, (byteArray_toList hkey).symm,
      (accepts_bytes_iff _ _ _).mp hvalid⟩

theorem signatureValid_iff (keyText : Bytes) (l : Lease) :
    Verifier.signatureValid ed25519Crypto keyText l = true ↔
      Checks l.canonicalPayload l.signature keyText := by
  rw [checks_iff]
  simp only [Verifier.signatureValid]
  split
  case isTrue hkey => exact ⟨fun h => absurd h Bool.false_ne_true, fun h => absurd h.1 hkey⟩
  case isFalse hkey =>
    split
    case isTrue hsig => exact ⟨fun h => absurd h Bool.false_ne_true, fun h => absurd h.2.1 hsig⟩
    case isFalse hsig => exact ⟨fun h => ⟨not_not.mp hkey, not_not.mp hsig, h⟩, fun h => h.2.2⟩

theorem isTrusted_iff (C : Crypto) (v : Verifier) (l : Lease) (t : Int64) :
    (v.verify C l t).isTrusted = true ↔ ∃ keyText, v.trustedKeys.lookup l.kid = some keyText ∧
      Verifier.signatureValid C keyText l = true := by
  rw [Verifier.verify]
  cases v.trustedKeys.lookup l.kid with
  | none => simp [VerifyResult.isTrusted]
  | some keyText => simp [VerifyResult.isTrusted]

/-- A lease is trusted when the equation holds on its payload, under the key of its kid. -/
theorem trusted_iff_checks (v : Verifier) (l : Lease) (t : Int64) :
    (v.verify ed25519Crypto l t).isTrusted = true ↔
      ∃ keyText, v.trustedKeys.lookup l.kid = some keyText ∧
        Checks l.canonicalPayload l.signature keyText := by
  simp only [isTrusted_iff, signatureValid_iff]

/-- The payload that a body stands for at this site. -/
def configPayloadOf (X : Site) (j : Json) : Bytes :=
  configCanonicalPayload (j.get (ascii "kid")).asString X.cfg.tenantId X.cfg.productId
    (j.get (ascii "issued_at")).asInt (j.get (ascii "expires_at")).asInt
    (j.get (ascii "trial_duration_days")).asInt.toInt32
    (j.get (ascii "free_tier_enabled")).asBool

/-- The check on a server configuration is the same one, on its own payload. -/
theorem configSignature_iff (X : Site) (j : Json) (keyText : Bytes) :
    isOk (Client.verifyConfigSignature { X with crypto := ed25519Crypto } j keyText) = true ↔
      Checks (configPayloadOf X j) (j.get (ascii "signature")).asString keyText := by
  rw [checks_iff]
  simp only [Client.verifyConfigSignature]
  split
  case isTrue hlength =>
    refine ⟨fun h => absurd h Bool.false_ne_true, ?_⟩
    rintro ⟨hkey, hsig, -⟩
    exact absurd hlength (by simp [hkey, hsig])
  case isFalse hlength =>
    obtain ⟨hkey, hsig⟩ := not_or.mp hlength
    split
    case isTrue hok => exact ⟨fun _ => ⟨not_not.mp hkey, not_not.mp hsig, hok⟩, fun _ => rfl⟩
    case isFalse hbad => exact ⟨fun h => absurd h Bool.false_ne_true, fun h => absurd h.2.2 hbad⟩

/-- Within one product a machine hash names one machine, up to a collision of SHA-256. -/
theorem machineHash_eq_iff {tenantId productId a b : Bytes}
    (ha : (machineText tenantId productId a).length < 2 ^ 61)
    (hb : (machineText tenantId productId b).length < 2 ^ 61) :
    machineHash Sha256.sha256Hex tenantId productId a =
        machineHash Sha256.sha256Hex tenantId productId b ↔
      a = b ∨ Sha256.Collide (machineText tenantId productId a)
        (machineText tenantId productId b) := by
  rw [machineHash, machineHash, Sha256.sha256Hex_eq_iff, Sha256.bytes_eq_iff ha hb]
  simp only [machineText, List.append_cancel_left_eq]

/-- With a live hardware id the hash sent is that of the id, whatever is cached or saved. -/
theorem machineHash_live {X : Site} {E : Env} {w : World} {id : Bytes}
    (h : Client.nonEmpty (E.hardwareId w.ticks.hardwareId) = some id) :
    ((Client.machineHash { X with crypto := ed25519Crypto } E).run w).1 =
      some (machineHash Sha256.sha256Hex X.cfg.tenantId X.cfg.productId id) := by
  have hid : ((Client.cachedHardwareIdValue E).run w).1 = some id := by
    simp only [Client.cachedHardwareIdValue, hardwareIdFn, Prog.run_bind, Prog.run_atom, h,
      Client.noteHardwareId, Prog.run_ite]
    split
    · rfl
    · rfl
  simp only [Client.machineHash, Prog.run_bind, Prog.run_pure, hid, Option.map_some]
  rfl

/-- Two installations of a product, in any states, send one hash when they run on one
machine, and for two machines only behind a collision. -/
theorem machineHash_dedupes {X : Site} {E E' : Env} {w w' : World} {id id' : Bytes}
    (h : Client.nonEmpty (E.hardwareId w.ticks.hardwareId) = some id)
    (h' : Client.nonEmpty (E'.hardwareId w'.ticks.hardwareId) = some id')
    (hlength : (machineText X.cfg.tenantId X.cfg.productId id).length < 2 ^ 61)
    (hlength' : (machineText X.cfg.tenantId X.cfg.productId id').length < 2 ^ 61) :
    ((Client.machineHash { X with crypto := ed25519Crypto } E).run w).1 =
        ((Client.machineHash { X with crypto := ed25519Crypto } E').run w').1 ↔
      id = id' ∨ Sha256.Collide (machineText X.cfg.tenantId X.cfg.productId id)
        (machineText X.cfg.tenantId X.cfg.productId id') := by
  rw [machineHash_live h, machineHash_live h', Option.some.injEq,
    machineHash_eq_iff hlength hlength']

/-- A machine with a hardware id. -/
def machineAt (id : Bytes) : Env := { now := fun _ => 0, hardwareId := fun _ => some id }

theorem machineHash_dedupes_sample :
    ((Client.machineHash { configSite with crypto := ed25519Crypto }
        (machineAt (ascii "m1"))).run {}).1 =
      ((Client.machineHash { configSite with crypto := ed25519Crypto }
        (machineAt (ascii "m2"))).run {}).1 ↔
    ascii "m1" = ascii "m2" ∨
      Sha256.Collide
        (machineText configSite.cfg.tenantId configSite.cfg.productId (ascii "m1"))
        (machineText configSite.cfg.tenantId configSite.cfg.productId (ascii "m2")) :=
  machineHash_dedupes rfl rfl (by decide) (by decide)

section
variable {a r : Nat} {msg msg' sigText sigText' keyText : Bytes}

theorem checks_sign (hkey : b64DecodeFlexible keyText = (encode (a • base)).toList)
    (hsig : b64DecodeFlexible sigText = (sign a r msg).toList) : Checks msg sigText keyText :=
  ⟨_, _, hsig, hkey, valid_sign a r msg⟩

/-- The digests of two messages behind one commitment and one key agree modulo the order. -/
def ChallengesMeet (keyText sigText msg msg' : Bytes) : Prop :=
  msg ≠ msg' ∧ ∃ sig pubkey, b64DecodeFlexible sigText = sig.toList ∧
    b64DecodeFlexible keyText = pubkey.toList ∧
    challenge msg sig pubkey = challenge msg' sig pubkey

/-- One signature checks two messages only behind a collision. -/
theorem checks_both (ha : a % order ≠ 0)
    (hkey : b64DecodeFlexible keyText = (encode (a • base)).toList)
    (hsig : b64DecodeFlexible sigText' = b64DecodeFlexible sigText)
    (h : Checks msg sigText keyText) (h' : Checks msg' sigText' keyText) :
    msg = msg' ∨ ChallengesMeet keyText sigText msg msg' := by
  by_cases hmsg : msg = msg'
  · exact .inl hmsg
  · obtain ⟨sig, pubkey, hs, hk, -, A, R, heq⟩ := h
    obtain ⟨sig', pubkey', hs', hk', -, A', R', heq'⟩ := h'
    obtain rfl := Vector.toList_inj.mp (hs.symm.trans (hsig.symm.trans hs'))
    obtain rfl := Vector.toList_inj.mp (hk.symm.trans hk')
    have hpubkey := Vector.toList_inj.mp (hk.symm.trans hkey)
    have hdecodes : Decodes pubkey.toList (a • base) := hpubkey ▸ (encodes_encode _).decodes
    obtain rfl := heq.key.unique hdecodes
    obtain rfl := heq'.key.unique hdecodes
    obtain rfl := heq'.commitment.injective heq.commitment
    have hmultiple := add_left_cancel (heq.sum.symm.trans heq'.sum)
    have hmod := nsmul_eq_nsmul_iff_modEq.mp hmultiple
    rw [addOrderOf_nsmul_base ha, Nat.ModEq, challenge, challenge, Nat.mod_mod, Nat.mod_mod]
      at hmod
    exact .inr ⟨hmsg, sig, pubkey, hs, hk, hmod⟩

end

def fixtureScalar : Nat :=
  3043214128131127629916144473620960250945377788308078202218773325026037604613

def fixtureNonce : Nat :=
  1557684221376883856923190127249386779998187122143590302759402390316847477960

def fixtureKey : Vector UInt8 32 :=
  word32 0xdecf149bf02245ba99c64b8b1a0783e409ef27a1da438972fdb23c28a7a8e23e

def fixtureCommitment : Vector UInt8 32 :=
  word32 0xee7e456438f52a121a9d799f57d5e057f79ae111b5431e51e507ec3a456541cd

theorem encode_fixture : encode (fixtureScalar • base) = fixtureKey ∧
    encode (fixtureNonce • base) = fixtureCommitment := by
  constructor
  · exact encode_nsmul_base (n := fixtureScalar)
      (x := 21081615722971721938709930532106333849485228564562533689197186803584884992379)
      (y := 42883287348243884122168604200632914673954314872970447091325314560096893198910)
      (by decide) (by decide) (by decide) (by decide +kernel) (by decide +kernel)
  · exact encode_nsmul_base (n := fixtureNonce)
      (x := 3234778753675572339736636706477557833940160887114191258886487155078287454809)
      (y := 49977514996812317503171883272437313275621536978713158734294935351379374719437)
      (by decide) (by decide) (by decide) (by decide +kernel) (by decide +kernel)

/-- A lease that the key of the fixtures signs. -/
def fixtureLease : Lease :=
  { sampleLease with
    signature := ascii "zUFlRTrsB+VRHkO1EeGa91fg1Vef" ++ ascii "eZ0aEir1OGRFfu6xQXl3GDcAdtqg" ++
      ascii "SI8ecwIcdskgwE3A5ikRNX3I02b8Dg==" }

/-- The lease of the fixtures, good for a second longer. -/
def longerLease : Lease := { fixtureLease with expiresAt := 1781681047 }

/-- A configuration with the signature of the lease. -/
def transplantedConfig : Json :=
  .object [ascii "kid", ascii "signature"]
    [(ascii "kid", .string (ascii "k1")), (ascii "signature", .string fixtureLease.signature)]

def fixtureChallenge : Nat :=
  7224544262462874498887700513193729610473112309546105405212992302119085184640

theorem challenge_fixture :
    challengeOf fixtureCommitment fixtureKey fixtureLease.canonicalPayload = fixtureChallenge ∧
      challengeOf fixtureCommitment fixtureKey longerLease.canonicalPayload ≠ fixtureChallenge ∧
      challengeOf fixtureCommitment fixtureKey (configPayloadOf configSite transplantedConfig) ≠
        fixtureChallenge := by
  decide +kernel

theorem decode_fixture : b64DecodeFlexible configKey = fixtureKey.toList ∧
    b64DecodeFlexible fixtureLease.signature = (signature fixtureCommitment
      ((fixtureNonce + fixtureChallenge * fixtureScalar) % order)).toList := by
  decide +kernel

theorem decode_configKey :
    b64DecodeFlexible configKey = (encode (fixtureScalar • base)).toList := by
  rw [encode_fixture.1, decode_fixture.1]

theorem decode_fixtureLease : b64DecodeFlexible fixtureLease.signature =
    (sign fixtureScalar fixtureNonce fixtureLease.canonicalPayload).toList := by
  rw [sign, encode_fixture.1, encode_fixture.2, challenge_fixture.1, decode_fixture.2]

def fixtureVerifier : Verifier := ⟨[(ascii "k1", configKey)], 300⟩

section
variable {a r : Nat} {v : Verifier} {l l' : Lease} {t t' : Int64} {keyText : Bytes}

theorem isTrusted_iff_checks (hkid : v.trustedKeys.lookup l.kid = some keyText) :
    (v.verify ed25519Crypto l t).isTrusted = true ↔
      Checks l.canonicalPayload l.signature keyText := by
  rw [isTrusted_iff]
  simp only [hkid, Option.some.injEq, exists_eq_left', signatureValid_iff]

/-- A lease signed with the scalar behind its key is read back from its text and trusted. -/
theorem issued_trusted (hfields : l.Accepted) (hkid : v.trustedKeys.lookup l.kid = some keyText)
    (hkey : b64DecodeFlexible keyText = (encode (a • base)).toList)
    (hsig : b64DecodeFlexible l.signature = (sign a r l.canonicalPayload).toList) :
    ∃ j, Json.parse (leaseToJson l) = .ok j ∧ Lease.fromJson j = .ok l ∧
      ∀ t, (v.verify ed25519Crypto l t).isTrusted = true :=
  ⟨leaseValue l, (reads_leaseToJson l).parse, fromJson_leaseValue_accepted hfields,
    fun _ => (isTrusted_iff_checks hkid).mpr (checks_sign hkey hsig)⟩

theorem issued_trusted_fixture : ∃ j, Json.parse (leaseToJson fixtureLease) = .ok j ∧
    Lease.fromJson j = .ok fixtureLease ∧
    ∀ t, (fixtureVerifier.verify ed25519Crypto fixtureLease t).isTrusted = true :=
  issued_trusted ⟨by decide, by decide⟩ (by decide) decode_configKey decode_fixtureLease

theorem canonicalPayload_congr (h : SameSigned l l') :
    l.canonicalPayload = l'.canonicalPayload := by
  rw [Lease.canonicalPayload, h.kid, h.licenseKeyHash, h.instanceId, h.issuedAt, h.expiresAt,
    h.status, h.csv, Lease.canonicalPayload]

/-- Under one signature no field may change, short of a collision. -/
theorem altered_trusted_iff (hkid : v.trustedKeys.lookup l.kid = some keyText)
    (ha : a % order ≠ 0) (hkey : b64DecodeFlexible keyText = (encode (a • base)).toList)
    (h : (v.verify ed25519Crypto l t).isTrusted = true) (hfree : ∀ s ∈ l.signedStrings, 124 ∉ s)
    (hkid' : l'.kid = l.kid)
    (hsig : b64DecodeFlexible l'.signature = b64DecodeFlexible l.signature)
    (hno : ¬ChallengesMeet keyText l.signature l.canonicalPayload l'.canonicalPayload) :
    (v.verify ed25519Crypto l' t').isTrusted = true ↔ SameSigned l l' := by
  rw [isTrusted_iff_checks hkid] at h
  rw [isTrusted_iff_checks (by rw [hkid', hkid])]
  constructor
  · intro h'
    exact sameSigned hfree ((checks_both ha hkey hsig h h').resolve_right hno)
  · intro hsame
    rw [← canonicalPayload_congr hsame]
    rwa [Checks, hsig]

theorem not_challengesMeet {sig : Vector UInt8 64} {pubkey : Vector UInt8 32}
    {sigText msg msg' : Bytes} (hsig : b64DecodeFlexible sigText = sig.toList)
    (hkey : b64DecodeFlexible keyText = pubkey.toList)
    (h : challenge msg sig pubkey ≠ challenge msg' sig pubkey) :
    ¬ChallengesMeet keyText sigText msg msg' := by
  rintro ⟨-, sig', pubkey', hsig', hkey', hmeet⟩
  obtain rfl := Vector.toList_inj.mp (hsig.symm.trans hsig')
  obtain rfl := Vector.toList_inj.mp (hkey.symm.trans hkey')
  exact h hmeet

/-- The signature of one lease does not make a longer one trusted. -/
theorem longerLease_untrusted :
    (fixtureVerifier.verify ed25519Crypto longerLease 0).isTrusted ≠ true := by
  have htrusted : (fixtureVerifier.verify ed25519Crypto fixtureLease 0).isTrusted = true :=
    (isTrusted_iff_checks (by decide)).mpr (checks_sign decode_configKey decode_fixtureLease)
  have hdiffer : challenge fixtureLease.canonicalPayload
      (sign fixtureScalar fixtureNonce fixtureLease.canonicalPayload)
      (encode (fixtureScalar • base)) ≠
    challenge longerLease.canonicalPayload
      (sign fixtureScalar fixtureNonce fixtureLease.canonicalPayload)
      (encode (fixtureScalar • base)) := by
    rw [sign, challenge_signature, challenge_signature, encode_fixture.1, encode_fixture.2,
      challenge_fixture.1]
    exact challenge_fixture.2.1.symm
  have hkid : longerLease.kid = fixtureLease.kid := rfl
  have hsignature : longerLease.signature = fixtureLease.signature := rfl
  intro h
  have hsame := (altered_trusted_iff (a := fixtureScalar) (by decide) (by decide)
    decode_configKey htrusted (by decide) hkid (congrArg b64DecodeFlexible hsignature)
    (not_challengesMeet decode_fixtureLease decode_configKey hdiffer)).mp h
  exact absurd hsame.expiresAt (by decide)

/-- A signature of a lease is none of a configuration, short of a collision. -/
theorem lease_no_config {X : Site} {j : Json} (ha : a % order ≠ 0)
    (hkey : b64DecodeFlexible keyText = (encode (a • base)).toList)
    (h : Checks l.canonicalPayload l.signature keyText)
    (hsig : b64DecodeFlexible (j.get (ascii "signature")).asString =
      b64DecodeFlexible l.signature)
    (hno : ¬ChallengesMeet keyText l.signature l.canonicalPayload (configPayloadOf X j)) :
    isOk (Client.verifyConfigSignature { X with crypto := ed25519Crypto } j keyText) = false := by
  rw [← Bool.not_eq_true, configSignature_iff]
  intro h'
  rcases checks_both ha hkey hsig h h' with hmsg | hmeet
  · exact canonicalPayload_ne_config l _ _ _ _ _ _ _ hmsg
  · exact hno hmeet

end

/-- The signature of a lease on a configuration. -/
theorem lease_no_config_fixture : isOk (Client.verifyConfigSignature
    { configSite with crypto := ed25519Crypto } transplantedConfig configKey) = false := by
  have hchecks := checks_sign decode_configKey decode_fixtureLease
  have hdiffer : challenge fixtureLease.canonicalPayload
      (sign fixtureScalar fixtureNonce fixtureLease.canonicalPayload)
      (encode (fixtureScalar • base)) ≠
    challenge (configPayloadOf configSite transplantedConfig)
      (sign fixtureScalar fixtureNonce fixtureLease.canonicalPayload)
      (encode (fixtureScalar • base)) := by
    rw [sign, challenge_signature, challenge_signature, encode_fixture.1, encode_fixture.2,
      challenge_fixture.1]
    exact challenge_fixture.2.2.symm
  have hsignature : (transplantedConfig.get (ascii "signature")).asString =
      fixtureLease.signature := by decide
  exact lease_no_config (a := fixtureScalar) (by decide) decode_configKey hchecks
    (congrArg b64DecodeFlexible hsignature)
    (not_challengesMeet decode_fixtureLease decode_configKey hdiffer)

end Keylight
