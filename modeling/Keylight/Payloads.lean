import Keylight.Separated
import Keylight.Verifier

/-!
# Signed payloads

What a canonical payload determines. Both payloads are eight fields joined with
`|`; the last field of a lease is its entitlements joined with commas.
-/
namespace Keylight
open Bytes

theorem pipe_not_digit {c : UInt8} (h : isDigit c = true) : c ≠ 124 := by
  intro hc
  rw [hc] at h
  exact absurd h (by decide)

theorem pipe_not_mem_decimal (i : Int) : 124 ∉ decimal i := by
  have hdigits : ∀ n : Nat, 124 ∉ natDigits n :=
    fun n h => pipe_not_digit (natDigits_isDigit n _ h) rfl
  unfold decimal
  split
  · intro h
    rcases List.mem_cons.mp h with hc | hc
    · exact absurd hc (by decide)
    · exact hdigits _ hc
  · exact hdigits _

/-- A numeral names one number. -/
theorem decimal_inj {i j : Int} (h : decimal i = decimal j) : i = j := by
  have hdigits : ∀ {m n : Nat}, natDigits m = natDigits n → m = n := by
    intro m n hmn
    rw [← natDigits_value m, hmn, natDigits_value n]
  have hminus : ∀ {m n : Nat}, 45 :: natDigits m ≠ natDigits n := by
    intro m n hmn
    have hmem : (45 : UInt8) ∈ natDigits n := hmn ▸ List.mem_cons_self
    exact absurd (natDigits_isDigit n 45 hmem) (by decide)
  unfold decimal at h
  split at h <;> split at h
  · have hn := hdigits (List.cons.inj h).2
    omega
  · exact absurd h hminus
  · exact absurd h.symm hminus
  · have hn := hdigits h
    omega

theorem joinComma_eq (xs : List Bytes) : joinComma xs = [44].intercalate xs := by
  induction xs with
  | nil => rfl
  | cons x xs ih =>
    cases xs with
    | nil => simp [joinComma]
    | cons y xs =>
      rw [joinComma, ih, List.intercalate_cons_cons, List.append_assoc, List.singleton_append]

def Lease.payloadFields (l : Lease) : List Bytes :=
  [ascii "v3", l.kid, l.licenseKeyHash, l.instanceId, decimal l.issuedAt.toInt,
    decimal l.expiresAt.toInt, l.status, entitlementsCsv l.entitlements]

theorem Lease.canonicalPayload_eq (l : Lease) :
    l.canonicalPayload = [124].intercalate l.payloadFields := by
  have hv3 : ascii "v3|" = ascii "v3" ++ [124] := by decide
  have hpipe : ascii "|" = [124] := by decide
  simp only [canonicalPayload, payloadFields, List.intercalate_cons_cons,
    List.intercalate_singleton, hv3, hpipe, List.append_assoc]

/-- What follows the key id in a config payload. -/
def configFields (tenantId productId : Bytes) (issuedAt expiresAt : Int64) (days : Int32)
    (free : Bool) : List Bytes :=
  [tenantId, productId, decimal issuedAt.toInt, decimal expiresAt.toInt, decimal days.toInt,
    ascii (if free then "true" else "false")]

theorem configCanonicalPayload_eq (kid tenantId productId : Bytes) (issuedAt expiresAt : Int64)
    (days : Int32) (free : Bool) :
    configCanonicalPayload kid tenantId productId issuedAt expiresAt days free =
      ascii "cfg1|" ++ [124].intercalate
        (kid :: configFields tenantId productId issuedAt expiresAt days free) := by
  have hpipe : ascii "|" = [124] := by decide
  simp only [configCanonicalPayload, configFields, List.intercalate_cons_cons,
    List.intercalate_singleton, hpipe, List.append_assoc]

/-- The strings of a lease that its signature covers. -/
def Lease.signedStrings (l : Lease) : List Bytes :=
  l.kid :: l.licenseKeyHash :: l.instanceId :: l.status :: l.entitlements

theorem not_mem_joinComma {c : UInt8} (hc : c ≠ 44) {xs : List Bytes} (h : ∀ x ∈ xs, c ∉ x) :
    c ∉ joinComma xs := by
  induction xs with
  | nil => simp [joinComma]
  | cons x xs ih =>
    have hx : c ∉ x := h x List.mem_cons_self
    have hxs := ih fun y hy => h y (List.mem_cons_of_mem x hy)
    cases xs with
    | nil => simpa [joinComma] using hx
    | cons y xs => simp [joinComma, hx, hc, hxs]

theorem Lease.pipe_not_mem_fields {l : Lease} (h : ∀ s ∈ l.signedStrings, 124 ∉ s) :
    ∀ f ∈ l.payloadFields, 124 ∉ f := by
  have hcsv : 124 ∉ entitlementsCsv l.entitlements := by
    apply not_mem_joinComma (by decide)
    intro e he
    exact h e (by simp [signedStrings, (List.mem_insertionSort _).mp he])
  intro f hf
  simp only [payloadFields, List.mem_cons, List.not_mem_nil, or_false] at hf
  rcases hf with rfl | rfl | rfl | rfl | rfl | rfl | rfl | rfl
  · decide
  · exact h _ (by simp [signedStrings])
  · exact h _ (by simp [signedStrings])
  · exact h _ (by simp [signedStrings])
  · exact pipe_not_mem_decimal _
  · exact pipe_not_mem_decimal _
  · exact h _ (by simp [signedStrings])
  · exact hcsv

/-- A payload whose strings have no separator is the payload of these fields only. -/
theorem Lease.payloadFields_inj {l₁ l₂ : Lease} (hfree : ∀ s ∈ l₁.signedStrings, 124 ∉ s)
    (h : l₁.canonicalPayload = l₂.canonicalPayload) : l₁.payloadFields = l₂.payloadFields := by
  rw [canonicalPayload_eq, canonicalPayload_eq] at h
  exact Separated.join_inj (pipe_not_mem_fields hfree) (by simp [payloadFields]) rfl h

theorem pipe_not_mem_configFields {tenantId productId : Bytes} (ht : 124 ∉ tenantId)
    (hp : 124 ∉ productId) (issuedAt expiresAt : Int64) (days : Int32) (free : Bool) :
    ∀ f ∈ configFields tenantId productId issuedAt expiresAt days free, 124 ∉ f := by
  intro f hf
  simp only [configFields, List.mem_cons, List.not_mem_nil, or_false] at hf
  rcases hf with rfl | rfl | rfl | rfl | rfl | rfl
  · exact ht
  · exact hp
  · exact pipe_not_mem_decimal _
  · exact pipe_not_mem_decimal _
  · exact pipe_not_mem_decimal _
  · cases free <;> decide

/-- The two kinds of payload differ in the first byte. -/
theorem canonicalPayload_ne_config (l : Lease) (kid tenantId productId : Bytes)
    (issuedAt expiresAt : Int64) (days : Int32) (free : Bool) :
    l.canonicalPayload ≠
      configCanonicalPayload kid tenantId productId issuedAt expiresAt days free := by
  intro h
  have hhead := congrArg List.head? h
  simp [Lease.canonicalPayload, configCanonicalPayload, ascii] at hhead

/-- Of two leases with one payload, the first without a separator in its strings, all agrees
but the signature and the way the entitlements are listed. -/
structure SameSigned (l₁ l₂ : Lease) : Prop where
  kid : l₁.kid = l₂.kid
  licenseKeyHash : l₁.licenseKeyHash = l₂.licenseKeyHash
  instanceId : l₁.instanceId = l₂.instanceId
  issuedAt : l₁.issuedAt = l₂.issuedAt
  expiresAt : l₁.expiresAt = l₂.expiresAt
  status : l₁.status = l₂.status
  csv : Lease.entitlementsCsv l₁.entitlements = Lease.entitlementsCsv l₂.entitlements

theorem sameSigned {l₁ l₂ : Lease} (hfree : ∀ s ∈ l₁.signedStrings, 124 ∉ s)
    (h : l₁.canonicalPayload = l₂.canonicalPayload) : SameSigned l₁ l₂ := by
  have hfields := Lease.payloadFields_inj hfree h
  simp only [Lease.payloadFields, List.cons.injEq] at hfields
  obtain ⟨_, hkid, hhash, hinst, hissued, hexpires, hstatus, hcsv, _⟩ := hfields
  exact ⟨hkid, hhash, hinst, Int64.toInt_inj.mp (decimal_inj hissued),
    Int64.toInt_inj.mp (decimal_inj hexpires), hstatus, hcsv⟩

theorem ascii_bool_inj {a b : Bool}
    (h : ascii (if a then "true" else "false") = ascii (if b then "true" else "false")) :
    a = b := by
  cases a <;> cases b
  · rfl
  · exact absurd h (by decide)
  · exact absurd h (by decide)
  · rfl

theorem config_inj {tenantId productId : Bytes} (ht : 124 ∉ tenantId) (hp : 124 ∉ productId)
    {kid kid' : Bytes} {issued issued' expires expires' : Int64} {days days' : Int32}
    {free free' : Bool}
    (h : configCanonicalPayload kid tenantId productId issued expires days free =
      configCanonicalPayload kid' tenantId productId issued' expires' days' free') :
    kid = kid' ∧ issued = issued' ∧ expires = expires' ∧ days = days' ∧ free = free' := by
  rw [configCanonicalPayload_eq, configCanonicalPayload_eq] at h
  obtain ⟨hkid, hfields⟩ := Separated.join_cons_inj
    (pipe_not_mem_configFields ht hp issued expires days free)
    (pipe_not_mem_configFields ht hp issued' expires' days' free')
    (by simp only [configFields, List.length_cons]) (List.append_cancel_left h)
  simp only [configFields, List.cons.injEq] at hfields
  obtain ⟨_, _, hissued, hexpires, hdays, hfree, _⟩ := hfields
  exact ⟨hkid, Int64.toInt_inj.mp (decimal_inj hissued),
    Int64.toInt_inj.mp (decimal_inj hexpires), Int32.toInt_inj.mp (decimal_inj hdays),
    ascii_bool_inj hfree⟩

theorem payloads_unambiguous :
    (∀ (l₁ l₂ : Lease) (j : Json), (∀ s ∈ l₁.signedStrings, 124 ∉ s) →
      Lease.fromJson j = .ok l₂ → l₁.canonicalPayload = l₂.canonicalPayload →
      l₁.kid = l₂.kid ∧ l₁.licenseKeyHash = l₂.licenseKeyHash ∧ l₁.instanceId = l₂.instanceId ∧
        l₁.issuedAt = l₂.issuedAt ∧ l₁.expiresAt = l₂.expiresAt ∧ l₁.status = l₂.status) ∧
    (∀ (tenantId productId : Bytes), 124 ∉ tenantId → 124 ∉ productId →
      ∀ (kid kid' : Bytes) (issued issued' expires expires' : Int64) (days days' : Int32)
        (free free' : Bool),
      configCanonicalPayload kid tenantId productId issued expires days free =
        configCanonicalPayload kid' tenantId productId issued' expires' days' free' →
      kid = kid' ∧ issued = issued' ∧ expires = expires' ∧ days = days' ∧ free = free') ∧
    (∀ (l : Lease) (kid tenantId productId : Bytes) (issued expires : Int64) (days : Int32)
        (free : Bool),
      l.canonicalPayload ≠
        configCanonicalPayload kid tenantId productId issued expires days free) := by
  constructor
  · intro l₁ l₂ j hfree _ h
    have hsame := sameSigned hfree h
    exact ⟨hsame.kid, hsame.licenseKeyHash, hsame.instanceId, hsame.issuedAt, hsame.expiresAt,
      hsame.status⟩
  · constructor
    · intro tenantId productId ht hp kid kid' issued issued' expires expires' days days' free
        free' h
      exact config_inj ht hp h
    · exact canonicalPayload_ne_config

/-- A lease for two features. -/
def sampleLease : Lease where
  kid := ascii "k1"
  licenseKeyHash := ascii "0a"
  instanceId := ascii "inst"
  issuedAt := 1781076246
  expiresAt := 1781681046
  status := ascii "active"
  signature := ascii "c2ln"
  entitlements := [ascii "pro", ascii "team"]

/-- The same lease with its entitlements in another order. -/
def reorderedLease : Lease := { sampleLease with entitlements := [ascii "team", ascii "pro"] }

theorem payloads_unambiguous_sample :
    (sampleLease.kid = reorderedLease.kid ∧
      sampleLease.licenseKeyHash = reorderedLease.licenseKeyHash ∧
      sampleLease.instanceId = reorderedLease.instanceId ∧
      sampleLease.issuedAt = reorderedLease.issuedAt ∧
      sampleLease.expiresAt = reorderedLease.expiresAt ∧
      sampleLease.status = reorderedLease.status) ∧
    (ascii "a|b" = ascii "a|b" ∧ (1 : Int64) = 1 ∧ (2 : Int64) = 2 ∧ (14 : Int32) = 14 ∧
      true = true) := by
  constructor
  · exact payloads_unambiguous.1 sampleLease reorderedLease (leaseValue reorderedLease)
      (by decide) (fromJson_leaseValue_accepted ⟨by decide, by decide⟩) (by decide)
  · exact payloads_unambiguous.2.1 (ascii "tenant1") (ascii "prod1") (by decide) (by decide)
      (ascii "a|b") (ascii "a|b") 1 1 2 2 14 14 true true rfl

end Keylight
