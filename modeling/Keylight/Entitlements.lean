import Keylight.Payloads
import Keylight.Gate

/-!
# Entitlements under the signature

The signature covers the sorted entitlements joined with commas, so it binds
the list only as far as the commas tell it apart.
-/
namespace Keylight
open Bytes

/-- Entitlements that a comma-joined list tells apart. -/
def Separable (ents : List Bytes) : Prop := ∀ e ∈ ents, e ≠ [] ∧ 44 ∉ e

theorem separable_sorted {ents : List Bytes} (h : Separable ents) :
    Separable (ents.insertionSort (· ≤ ·)) := by
  intro e he
  exact h e ((List.mem_insertionSort _).mp he)

theorem mem_iff_of_csv {ents ents' : List Bytes} (h : Separable ents) (h' : Separable ents')
    (hcsv : Lease.entitlementsCsv ents = Lease.entitlementsCsv ents') (f : Bytes) :
    f ∈ ents ↔ f ∈ ents' := by
  rw [Lease.entitlementsCsv, Lease.entitlementsCsv, joinComma_eq, joinComma_eq] at hcsv
  have hsorted := Separated.join_inj_of_nonempty (separable_sorted h) (separable_sorted h') hcsv
  rw [← List.mem_insertionSort (· ≤ ·), hsorted, List.mem_insertionSort]

/-- The verifier looks at the key id, the expiry, the signature and the payload. -/
theorem Site.verify_congr (X : Site) {l₁ l₂ : Lease} (hkid : l₁.kid = l₂.kid)
    (hexpires : l₁.expiresAt = l₂.expiresAt) (hsig : l₁.signature = l₂.signature)
    (hpayload : l₁.canonicalPayload = l₂.canonicalPayload) (t : Int64) :
    X.verify l₁ t = X.verify l₂ t := by
  simp only [Site.verify, Verifier.verify, Verifier.signatureValid, hkid, hexpires, hsig, hpayload]

/-- The two leases list the same features, and a client answers alike for every feature
whichever of them it holds. -/
structure SameFeatures (l₁ l₂ : Lease) : Prop where
  mem : ∀ f, f ∈ l₁.entitlements ↔ f ∈ l₂.entitlements
  entitled : l₁.signature = l₂.signature → ∀ (X : Site) (c : Client) (f : Bytes) (t : Int64),
    Client.entitledAt X { c with cache.lease := some l₁ } f t =
      Client.entitledAt X { c with cache.lease := some l₂ } f t

theorem sameFeatures_of_mem {l₁ l₂ : Lease} (hsame : SameSigned l₁ l₂)
    (hpayload : l₁.canonicalPayload = l₂.canonicalPayload)
    (hmem : ∀ f, f ∈ l₁.entitlements ↔ f ∈ l₂.entitlements) : SameFeatures l₁ l₂ := by
  constructor
  · exact hmem
  · intro hsig X c f t
    have hverify := X.verify_congr hsame.kid hsame.expiresAt hsig hpayload
    have htrusts : X.trusts l₁ = X.trusts l₂ := by rw [Site.trusts, hverify, Site.trusts]
    have hexpired : expiredAt X l₁ t = expiredAt X l₂ t := by rw [expiredAt, hverify, expiredAt]
    rw [Bool.eq_iff_iff, entitled_iff, entitled_iff]
    simp only [Option.some.injEq, exists_eq_left', htrusts, hexpired, hsame.status, hmem f]
    rfl

/-- The payload is that of a lease whose strings are not empty and hold no separator. It binds
the features of any other lease that has it exactly when that lease's entitlements are not empty
and hold no comma either. -/
theorem entitlements_bound (l₁ l₂ : Lease)
    (hclean : ∀ s ∈ l₁.signedStrings, s ≠ [] ∧ 124 ∉ s ∧ 44 ∉ s)
    (hpayload : l₁.canonicalPayload = l₂.canonicalPayload) :
    SameFeatures l₁ l₂ ↔ Separable l₂.entitlements := by
  have hsame := sameSigned (fun s hs => (hclean s hs).2.1) hpayload
  have hsep : Separable l₁.entitlements := by
    intro e he
    obtain ⟨hne, _, hcomma⟩ := hclean e (by simp [Lease.signedStrings, he])
    exact ⟨hne, hcomma⟩
  constructor
  · intro h e he
    exact hsep e ((h.mem e).mpr he)
  · intro h
    exact sameFeatures_of_mem hsame hpayload (mem_iff_of_csv hsep h hsame.csv)

/-- The same lease with its two entitlements joined in one string. -/
def splicedLease : Lease := { sampleLease with entitlements := [ascii "pro,team"] }

/-- One signature covers both leases, and only the first grants either feature. -/
theorem entitlements_unbound : ¬∀ (l₁ l₂ : Lease) (j : Json),
    (∀ s ∈ l₁.signedStrings, s ≠ [] ∧ 124 ∉ s ∧ 44 ∉ s) → Lease.fromJson j = .ok l₂ →
    l₁.canonicalPayload = l₂.canonicalPayload → SameFeatures l₁ l₂ := by
  intro h
  have hsame := h sampleLease splicedLease (leaseValue splicedLease) (by decide)
    (fromJson_leaseValue_accepted ⟨by decide, by decide⟩) (by decide)
  exact absurd ((hsame.mem (ascii "pro")).mp (by decide)) (by decide)

theorem entitlements_bound_sample : SameFeatures sampleLease reorderedLease := by
  have hsep : Separable reorderedLease.entitlements := by
    intro e he
    revert e
    decide
  exact (entitlements_bound sampleLease reorderedLease (by decide) (by decide)).mpr hsep

end Keylight
