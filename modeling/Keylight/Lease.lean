import Keylight.JsonText

/-!
# The signed lease

`fromJson` takes every field through the lenient accessors and insists only on
`kid` and `status`. The client writes a lease back as one JSON object;
`fromJson_leaseToJson` says that object is read as the lease it was written from.
-/
namespace Keylight
open Bytes JValue

structure Lease where
  kid : Bytes
  licenseKeyHash : Bytes
  instanceId : Bytes
  issuedAt : Int64
  expiresAt : Int64
  status : Bytes
  signature : Bytes
  entitlements : List Bytes
  deriving DecidableEq, Repr

namespace Lease

def fromJson (j : Json) : Result Lease :=
  let ents := j.get (ascii "entitlements")
  let l : Lease := {
    kid := (j.get (ascii "kid")).asString
    licenseKeyHash := (j.get (ascii "licenseKeyHash")).asString
    instanceId := (j.get (ascii "instanceId")).asString
    issuedAt := (j.get (ascii "issuedAt")).asInt
    expiresAt := (j.get (ascii "expiresAt")).asInt
    status := (j.get (ascii "status")).asString
    signature := (j.get (ascii "signature")).asString
    entitlements := (List.range ents.size).map fun i => (ents.at' i).asString }
  if l.kid = [] ∨ l.status = [] then
    .error ⟨.badResponse, ascii "missing required lease fields"⟩
  else .ok l

/-- What `fromJson` insists on. -/
def Accepted (l : Lease) : Prop := l.kid ≠ [] ∧ l.status ≠ []

theorem accepted_of_fromJson {j : Json} {l : Lease} (h : fromJson j = .ok l) : l.Accepted := by
  simp only [fromJson] at h
  split_ifs at h with hc
  cases h
  exact ⟨fun hk => hc (.inl hk), fun hs => hc (.inr hs)⟩

/-- Entitlements in ascending byte order, comma-joined. -/
def entitlementsCsv (ents : List Bytes) : Bytes := joinComma (ents.insertionSort (· ≤ ·))

/-- The exact bytes the signature covers. -/
def canonicalPayload (l : Lease) : Bytes :=
  ascii "v3|" ++ l.kid ++ ascii "|" ++ l.licenseKeyHash ++ ascii "|" ++ l.instanceId ++
    ascii "|" ++ decimal l.issuedAt.toInt ++ ascii "|" ++ decimal l.expiresAt.toInt ++
    ascii "|" ++ l.status ++ ascii "|" ++ entitlementsCsv l.entitlements

end Lease

/-- `lease_to_json_` -/
def leaseToJson (l : Lease) : Bytes :=
  jsonObject [
    jsonMember (ascii "kid") (jsonStr l.kid),
    jsonMember (ascii "licenseKeyHash") (jsonStr l.licenseKeyHash),
    jsonMember (ascii "instanceId") (jsonStr l.instanceId),
    jsonMember (ascii "issuedAt") (decimal l.issuedAt.toInt),
    jsonMember (ascii "expiresAt") (decimal l.expiresAt.toInt),
    jsonMember (ascii "status") (jsonStr l.status),
    jsonMember (ascii "entitlements") (jsonArray (l.entitlements.map jsonStr)),
    jsonMember (ascii "signature") (jsonStr l.signature)]

def stringMember (key s : Bytes) : Member := ⟨⟨jsonStr s, .string s, reads_jsonStr s⟩, key⟩

def intMember (key : Bytes) (i : Int64) : Member :=
  ⟨⟨decimal i.toInt, intValue i, reads_decimal i⟩, key⟩

def stringsMember (key : Bytes) (xs : List Bytes) : Member :=
  ⟨⟨jsonArray (xs.map jsonStr), .array (xs.map .string), by
    have h := reads_jsonArray (xs.map fun s => ⟨jsonStr s, .string s, reads_jsonStr s⟩)
    simpa [Function.comp_def] using h⟩, key⟩

def leaseMembers (l : Lease) : List Member := [
  stringMember (ascii "kid") l.kid,
  stringMember (ascii "licenseKeyHash") l.licenseKeyHash,
  stringMember (ascii "instanceId") l.instanceId,
  intMember (ascii "issuedAt") l.issuedAt,
  intMember (ascii "expiresAt") l.expiresAt,
  stringMember (ascii "status") l.status,
  stringsMember (ascii "entitlements") l.entitlements,
  stringMember (ascii "signature") l.signature]

/-- The object a written lease is parsed to. -/
def leaseValue (l : Lease) : JValue :=
  .object ((leaseMembers l).map Member.key) ((leaseMembers l).map fun m => (m.key, m.value))

theorem reads_leaseToJson (l : Lease) : Reads (leaseToJson l) (leaseValue l) :=
  reads_jsonObject (leaseMembers l) (by
    change ([_, _, _, _, _, _, _, _] : List Bytes).Nodup
    simp only [stringMember, intMember, stringsMember]
    decide)

@[simp] theorem leaseValue_size (l : Lease) : JValue.size (leaseValue l) = 8 := rfl

theorem range_map_at (xs : List Bytes) :
    (List.range (JValue.size (.array (xs.map .string)))).map
      (fun i => (JValue.at' (.array (xs.map .string)) i).asString) = xs := by
  refine List.ext_getElem (by simp [JValue.size]) ?_
  intro i h₁ h₂
  simp [JValue.at', List.getD_eq_getElem?_getD, h₂, JValue.asString]

/-- A written lease is read as itself or, without a kid or a status, rejected. -/
theorem fromJson_leaseValue (l : Lease) :
    Lease.fromJson (leaseValue l) = if l.kid = [] ∨ l.status = [] then
      .error ⟨.badResponse, ascii "missing required lease fields"⟩ else .ok l := by
  have hkid : (leaseValue l).get (ascii "kid") = .string l.kid := rfl
  have hhash : (leaseValue l).get (ascii "licenseKeyHash") = .string l.licenseKeyHash := rfl
  have hinst : (leaseValue l).get (ascii "instanceId") = .string l.instanceId := rfl
  have hiss : (leaseValue l).get (ascii "issuedAt") = intValue l.issuedAt := rfl
  have hexp : (leaseValue l).get (ascii "expiresAt") = intValue l.expiresAt := rfl
  have hst : (leaseValue l).get (ascii "status") = .string l.status := rfl
  have hent : (leaseValue l).get (ascii "entitlements") =
      .array (l.entitlements.map JValue.string) := rfl
  have hsig : (leaseValue l).get (ascii "signature") = .string l.signature := rfl
  simp only [Lease.fromJson, hkid, hhash, hinst, hiss, hexp, hst, hent, hsig, asInt_intValue,
    range_map_at]
  rfl

/-- A lease the decoder accepts survives being written and read back. -/
theorem fromJson_leaseValue_accepted {l : Lease} (h : l.Accepted) :
    Lease.fromJson (leaseValue l) = .ok l := by
  rw [fromJson_leaseValue, if_neg]
  rintro (hk | hs)
  · exact h.1 hk
  · exact h.2 hs

theorem fromJson_leaseToJson (l : Lease) (h : l.Accepted) :
    (Json.parse (leaseToJson l)).bind Lease.fromJson = .ok l := by
  rw [(reads_leaseToJson l).parse]
  exact fromJson_leaseValue_accepted h

end Keylight
