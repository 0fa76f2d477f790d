import Keylight.Revocation

/-!
# Fields of two licences

An activation merges its reply into the cache: a field the reply carries
replaces the cached one, a field it leaves out keeps what an earlier licence
left there.
-/
namespace Keylight
open Bytes Sections Runs Client

/-- A decoded reply that activates the key and is stored: it has no lease, or a trusted one. -/
structure Activates (X : Site) (E : Env) (j : Json) : Prop where
  reply : ∃ resp, E.reply = .ok resp ∧ resp.status = 200 ∧ Json.parse resp.body = .ok j
  activated : (j.get (ascii "activated")).asBool = true
  lease : (j.get (ascii "lease")).size = 0 ∨ ∃ l, leaseOf j = some l ∧ X.trusts l = true

/-- The licence fields of the cache are those of reply `j`, or what `old` has where it has none. -/
structure Merged (key : Bytes) (j : Json) (old c : Cache) : Prop where
  licenseKey : c.licenseKey = some key
  lease : c.lease = (leaseOf j).or old.lease
  expiresAt : c.expiresAt = (intOf j (ascii "license_expires_at")).or old.expiresAt
  instanceId : c.instanceId = (stringOf j (ascii "instance_id")).or old.instanceId

/-- The hardware id that a request notes is no field of the licence. -/
theorem Merged.noted {key : Bytes} {j : Json} {live : Option Bytes} {old c : Cache}
    (h : Merged key j (withHardwareId live old) c) : Merged key j old c := by
  rw [withHardwareId_eq] at h
  exact ⟨h.licenseKey, h.lease, h.expiresAt, h.instanceId⟩

/-- The verdict of such a reply carries the lease that is stored. -/
theorem Activates.verdict {X : Site} {E : Env} {j : Json} (h : Activates X E j) :
    (leaseOf j = none ∧ activationVerdict E.reply = .bare j) ∨
      ∃ l, leaseOf j = some l ∧ X.trusts l = true ∧ activationVerdict E.reply = .leased j l := by
  obtain ⟨resp, hreply, hstatus, hbody⟩ := h.reply
  rw [hreply]
  simp only [activationVerdict, hstatus, hbody, h.activated, ne_eq, not_true_eq_false, if_false,
    Bool.not_true, Bool.false_eq_true]
  obtain hsize | ⟨l, hl, htrust⟩ := h.lease
  · left
    have hnone : ¬0 < (j.get (ascii "lease")).size := by omega
    exact ⟨if_neg hnone, if_neg hnone⟩
  · right
    refine ⟨l, hl, htrust, ?_⟩
    unfold leaseOf at hl
    split at hl
    · rename_i hsize
      rw [if_pos hsize]
      cases hf : Lease.fromJson (j.get (ascii "lease")) with
      | error e => simp [hf, Except.toOption] at hl
      | ok l' =>
        simp only [hf, Except.toOption, Option.some.injEq] at hl
        rw [hl]
    · cases hl

/-- A successful activation merges what its reply carries into the cache it found. -/
theorem Client.Activated.merged {X : Site} {E : Env} {key : Bytes} {j : Json}
    {v : ActivationVerdict} {c c' : Core} (h : Activated X E key v c c')
    (hv : (leaseOf j = none ∧ v = .bare j) ∨
      ∃ l, leaseOf j = some l ∧ X.trusts l = true ∧ v = .leased j l) :
    Merged key j c.cache c'.cache := by
  obtain ⟨hnone, rfl⟩ | ⟨l, hl, htrust, rfl⟩ := hv
  · cases h
    exact ⟨rfl, by rw [hnone]; rfl, rfl, rfl⟩
  · cases h with
    | leased => exact ⟨rfl, by rw [hl]; rfl, rfl, rfl⟩
    | untrusted _ hu =>
      rw [htrust] at hu
      cases hu

/-- Whatever was cached, an activation that is stored caches its key, and takes each other field
from its reply where the reply has it. -/
theorem activate_merges (X : Site) (E : Env) (key : Bytes) (j : Json) (w : World)
    (h : Activates X E j) :
    Merged key j w.client.cache ((Op.activate key).exec X E w).client.cache := by
  have hcore := activate_core X E key { w with ticks := {} }
  have hrun : ((activate X E key).run { w with ticks := {} }).2 =
      (Op.activate key).exec X E w := (run_ignored _ _).symm
  rw [hrun] at hcore
  exact (hcore.merged h.verdict).noted

/-- The body of an activation that answers with nothing but its success. -/
def bareFields : List Field := [(ascii "activated", some (writtenBool true))]

def bareActivation (t : Int64) : Env :=
  repliesAt t ⟨200, jsonObject ((fieldMembers bareFields).map Member.render), []⟩

theorem bareActivation_activates (X : Site) (t : Int64) :
    Activates X (bareActivation t) (fieldsValue bareFields) where
  reply := ⟨_, rfl, rfl, (reads_fields bareFields (by decide)).parse⟩
  activated := by decide
  lease := .inl (by decide)

/-- The lease of the first key is still there next to the second one. -/
theorem activate_mixes : ¬∀ (X : Site) (store : Bytes) (calls : List Call) (E : Env) (key : Bytes)
    (j : Json), Activates X E j →
    ((Op.activate key).exec X E (history X store calls)).client.cache.licenseKey = some key ∧
    ((Op.activate key).exec X E (history X store calls)).client.cache.lease = leaseOf j := by
  intro h
  have hlease : ((Op.activate (ascii "KEY2")).exec vectorSite (bareActivation 1781076300)
      vectorWorld).client.cache.lease.isSome = true := by decide +kernel
  have hnone : leaseOf (fieldsValue bareFields) = none := if_neg (by decide)
  rw [vectorWorld] at hlease
  have hbare := (h vectorSite vectorStore [(.relaunch, offlineAt 1781076300)]
    (bareActivation 1781076300) (ascii "KEY2") _ (bareActivation_activates _ _)).2
  rw [hbare, hnone] at hlease
  cases hlease

/-- A second key, activated without a lease over the stored licence. -/
theorem activate_merges_vector : Merged (ascii "KEY2") (fieldsValue bareFields)
    vectorWorld.client.cache ((Op.activate (ascii "KEY2")).exec vectorSite
      (bareActivation 1781076300) vectorWorld).client.cache :=
  activate_merges vectorSite (bareActivation 1781076300) (ascii "KEY2") _ vectorWorld
    (bareActivation_activates _ _)

end Keylight
