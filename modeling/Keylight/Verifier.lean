import Keylight.Lease

/-!
# Configuration and signature checks

Ed25519 and SHA-256 are parameters. A lease is trusted when its `kid` names a
configured key and the signature verifies under it; expiry is a separate bit,
computed with the skew added to the wire value in int64 arithmetic.
-/
namespace Keylight
open Bytes

structure Config where
  tenantId : Bytes
  productId : Bytes
  sdkKey : Bytes := []
  trustedKeys : List (Bytes × Bytes) := []
  maxOfflineDays : Int32 := 15
  trialDurationDays : Int32 := 0
  freeTierEnabled : Bool := false
  apiBaseUrl : Bytes := ascii "https://api.keylight.dev"
  appVersion : Bytes := []
  requireSignedConfig : Bool := false

structure Crypto where
  /-- message, signature, public key -/
  ed25519Verify : Bytes → Bytes → Bytes → Bool
  sha256Hex : Bytes → Bytes

/-- `b64_decode_flexible` before the call to the decoder. -/
def b64Normalize (s : Bytes) : Bytes :=
  let norm := s.filterMap fun c =>
    if c = 32 ∨ c = 9 ∨ c = 10 ∨ c = 13 then none
    else if c = 45 then some 43
    else if c = 95 then some 47
    else some c
  let pad := norm.length % 4
  if pad ≠ 0 then norm ++ List.replicate (4 - pad) 61 else norm

def b64DecodeFlexible (s : Bytes) : Bytes := base64Decode (b64Normalize s)

structure VerifyResult where
  kidKnown : Bool
  signatureValid : Bool
  expired : Bool
  deriving DecidableEq, Repr

def VerifyResult.isTrusted (r : VerifyResult) : Bool := r.kidKnown && r.signatureValid

structure Verifier where
  trustedKeys : List (Bytes × Bytes)
  skewSeconds : Int32 := 300

namespace Verifier

/-- The signature check under the base64 key `pubB64`. -/
def signatureValid (C : Crypto) (pubB64 : Bytes) (lease : Lease) : Bool :=
  let pk := b64DecodeFlexible pubB64
  let sig := b64DecodeFlexible lease.signature
  if pk.length ≠ 32 then false
  else if sig.length ≠ 64 then false
  else C.ed25519Verify lease.canonicalPayload sig pk

def verify (C : Crypto) (v : Verifier) (lease : Lease) (now : Int64) : VerifyResult :=
  let expired := decide (now > lease.expiresAt + v.skewSeconds.toInt64)
  match v.trustedKeys.lookup lease.kid with
  | none => ⟨false, false, expired⟩
  | some pubB64 => ⟨true, signatureValid C pubB64 lease, expired⟩

/-- Trust does not look at the clock. -/
theorem isTrusted_verify (C : Crypto) (v : Verifier) (l : Lease) (s t : Int64) :
    (verify C v l s).isTrusted = (verify C v l t).isTrusted := by
  unfold verify
  cases v.trustedKeys.lookup l.kid <;> simp [VerifyResult.isTrusted]

theorem expired_verify (C : Crypto) (v : Verifier) (l : Lease) (t : Int64) :
    (verify C v l t).expired = decide (t > l.expiresAt + v.skewSeconds.toInt64) := by
  unfold verify
  cases v.trustedKeys.lookup l.kid <;> simp

end Verifier

/-- `config_canonical_payload` -/
def configCanonicalPayload (kid tenantId productId : Bytes) (issuedAt expiresAt : Int64)
    (trialDurationDays : Int32) (freeTierEnabled : Bool) : Bytes :=
  ascii "cfg1|" ++ kid ++ ascii "|" ++ tenantId ++ ascii "|" ++ productId ++
    ascii "|" ++ decimal issuedAt.toInt ++ ascii "|" ++ decimal expiresAt.toInt ++
    ascii "|" ++ decimal trialDurationDays.toInt ++
    ascii "|" ++ ascii (if freeTierEnabled then "true" else "false")

end Keylight
