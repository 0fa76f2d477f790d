import Keylight.Boundary
import Keylight.StoreOrder

/-!
# A validation in flight

One deactivation against one validation. The validation reads the key, waits for
its reply and later writes the lease, the state and the store in sections of
their own, so a reply from before the deactivation can land after it. What the
deactivation leaves behind stays unless the validation's own writes come last.
-/
namespace Keylight
open Bytes Sections

def Event.cachesLease : Event → Bool
  | .leaseCached _ => true
  | _ => false

def Event.storesPaid : Event → Bool
  | .stateStored s => s.paid
  | _ => false

/-- The events of the section between two worlds. -/
def recorded (w v : World) : List Event := v.log.drop w.log.length

theorem recorded_append {w v : World} {es : List Event} (h : v.log = w.log ++ es) :
    recorded w v = es := by
  rw [recorded, h, List.drop_left]

def Event.isReset : Event → Bool
  | .paidReset => true
  | _ => false

def Event.isStateStored : Event → Bool
  | .stateStored _ => true
  | _ => false

/-- No lease is cached after the reset, and no paid state is stored after another state. -/
structure InOrder (w v : World) : Prop where
  lease : (recorded w v).any Event.cachesLease = true → w.log.any Event.isReset = false
  state : (recorded w v).any Event.storesPaid = true → w.log.any Event.isStateStored = false

instance (w v : World) : Decidable (InOrder w v) :=
  decidable_of_iff (_ ∧ _) ⟨fun h => ⟨h.1, h.2⟩, fun h => ⟨h.lease, h.state⟩⟩

/-- The cache is reset and holds no lease and no key. -/
structure Forgotten (w : World) : Prop where
  reset : w.log.any Event.isReset = true
  lease : w.client.cache.lease = none
  key : w.client.cache.licenseKey = none

/-- After the reset an unpaid state has been stored. -/
structure Deactivated (w : World) : Prop extends Forgotten w where
  stored : w.log.any Event.isStateStored = true
  unpaid : w.client.rawState.paid = false

/-- What the deactivation relies on. -/
structure Remains (w v : World) : Prop where
  forgotten : Forgotten w → Forgotten v
  deactivated : Deactivated w → Deactivated v

theorem Remains.refl (w : World) : Remains w w := ⟨id, id⟩

theorem Remains.trans (u w v : World) (h₁ : Remains u w) (h₂ : Remains w v) : Remains u v :=
  ⟨fun h => h₂.forgotten (h₁.forgotten h), fun h => h₂.deactivated (h₁.deactivated h)⟩

theorem any_of_grown {log log' : List Event} {p : Event → Bool} (h : log <+: log')
    (hp : log.any p = true) : log'.any p = true := by
  obtain ⟨e, he, hpe⟩ := List.any_eq_true.1 hp
  exact List.any_eq_true.2 ⟨e, h.subset he, hpe⟩

/-- One section of a validation: a new lease and a new state are on record, and the key stays. -/
structure Validated (w v : World) : Prop where
  log : w.log <+: v.log
  key : v.client.cache.licenseKey = w.client.cache.licenseKey
  lease : v.client.cache.lease = w.client.cache.lease ∨ v.client.cache.lease = none ∨
    (recorded w v).any Event.cachesLease = true
  state : v.client.rawState = w.client.rawState ∨
    (recorded w v).any Event.storesPaid = v.client.rawState.paid

/-- Such a section that comes in order leaves a deactivation standing. -/
theorem Validated.remains {w v : World} (h : Validated w v) (hC : InOrder w v) : Remains w v := by
  have hforgotten : Forgotten w → Forgotten v := by
    intro hw
    refine ⟨any_of_grown h.log hw.reset, ?_, h.key.trans hw.key⟩
    obtain hl | hl | hl := h.lease
    · exact hl.trans hw.lease
    · exact hl
    · have hreset := hC.lease hl
      rw [hw.reset] at hreset
      cases hreset
  refine ⟨hforgotten, fun hw => ⟨hforgotten hw.toForgotten, any_of_grown h.log hw.stored, ?_⟩⟩
  obtain hs | hs := h.state
  · rw [hs]
    exact hw.unpaid
  · cases hp : v.client.rawState.paid with
    | false => rfl
    | true =>
      have hstored := hC.state (hs.trans hp)
      rw [hw.stored] at hstored
      cases hstored

/-- Every section of a validation is one of these. -/
theorem sectional_validated : Sectional Validated where
  cache := fun hlease hkey hstate hlog _ => ⟨hlog, hkey, .inl hlease, .inl hstate⟩
  persist := fun d w hkey => by
    refine ⟨List.prefix_append _ _, by simp [Client.PersistData.merge, hkey], ?_, .inl rfl⟩
    rw [recorded_append rfl]
    cases hl : d.lease with
    | none => exact .inl (by simp [Client.PersistData.merge, hl])
    | some l => exact .inr (.inr (by simp [Client.PersistData.events, hl, Event.cachesLease]))
  clearLease := fun w => ⟨List.prefix_append _ _, rfl, .inr (.inl rfl), .inl rfl⟩
  state := fun s w => by
    refine ⟨List.prefix_append _ _, rfl, .inl rfl, .inr ?_⟩
    rw [recorded_append rfl]
    simp [Event.storesPaid]

namespace Client
variable {X : Site} {E : Env}

/-- A section that leaves the core alone. -/
structure Inert (w v : World) : Prop where
  core : v.core = w.core
  log : w.log <+: v.log

theorem idle_inert {w v : World} (h : Idle w v) : Inert w v := ⟨h.core, h.grows⟩

theorem Inert.forgotten {w v : World} (h : Inert w v) (hw : Forgotten w) : Forgotten v :=
  ⟨any_of_grown h.log hw.reset, (congrArg (fun c => c.cache.lease) h.core).trans hw.lease,
    (congrArg (fun c => c.cache.licenseKey) h.core).trans hw.key⟩

theorem Inert.deactivated {w v : World} (h : Inert w v) (hw : Deactivated w) : Deactivated v := by
  refine ⟨h.forgotten hw.toForgotten, any_of_grown h.log hw.stored, ?_⟩
  rw [show v.client.rawState = w.client.rawState from congrArg Core.rawState h.core]
  exact hw.unpaid

theorem inert_updateStore (keepTrial : Bool) :
    Each Inert (fun _ => True) (updateStore E keepTrial) := by
  cases keepTrial with
  | true => exact each_saveCache E fun hcore hlog _ => ⟨hcore, hlog⟩
  | false => exact Each.atom fun w => ⟨⟨rfl, List.prefix_append _ _⟩, trivial⟩

/-- Without a paid state the trial or the free tier decides. -/
theorem resolveWithTrial_unpaid :
    Each Idle (fun s => s.paid = false) (resolveWithTrial X E .invalid) := by
  refine .bind (quiet_checkTrial X E) fun trial _ => ?_
  cases trial with
  | active => exact rfl
  | expired =>
    refine .bind (quiet_readCache _) fun free _ => ?_
    cases free
    · exact rfl
    · exact rfl
  | notStarted =>
    refine .bind (quiet_readCache _) fun free _ => ?_
    cases free
    · exact rfl
    · exact rfl

theorem stable_forgotten : Stable Remains Forgotten := fun _ _ hs h => h.forgotten hs

theorem stable_deactivated : Stable Remains Deactivated := fun _ _ hs h => h.deactivated hs

abbrev Alone (_ _ : World) : Prop := True

/-- The last step of a deactivation leaves it deactivated, whatever comes in order between its
sections. -/
theorem setState_deactivates {s : State} (hs : s.paid = false) {w : World} (hw : Forgotten w) :
    Safe InOrder Remains Alone (fun _ => Deactivated) (setState E s) w := by
  have hinert : ∀ {α : Type} {p : Code α} {P : World → Prop} {u : World}, Quiet p →
      Stable Remains P → (∀ {v z}, Inert v z → P v → P z) → P u →
      Safe InOrder Remains Alone (fun _ => P) p u := by
    intro α p P u hp hstable hP hu
    refine (Safe.of_each (hp.each idle_inert) hstable ?_ hu).mono (fun _ _ h => h) fun _ _ h => h.2
    exact fun t v ht hm _ => ⟨trivial, hP hm ht⟩
  have hquiet : ∀ {α : Type} {p : Code α} {u : World}, Quiet p → Forgotten u →
      Safe InOrder Remains Alone (fun _ => Forgotten) p u := fun hp hu =>
    hinert hp stable_forgotten Inert.forgotten hu
  refine .bind Remains.refl (hquiet quiet_loadState hw) fun prev u hu => ?_
  refine .bind Remains.refl (hquiet (quiet_readCache _) hu) fun expiry u hu => ?_
  refine .bind Remains.refl (.atom (Q := fun _ => Forgotten) stable_forgotten hu
    (fun _ => stable_forgotten) fun t ht _ => ⟨trivial, ht.reset, ht.lease, ht.key⟩)
    fun later u hu => ?_
  refine .bind Remains.refl (.modify stable_forgotten hu stable_deactivated
    fun t ht _ => ⟨trivial, ?_⟩) fun _ u hu => ?_
  · refine ⟨⟨any_of_grown (List.prefix_append _ _) ht.reset, ht.lease, ht.key⟩, ?_, hs⟩
    simp [Event.isStateStored]
  refine .bind Remains.refl (hinert (quiet_notify E) stable_deactivated Inert.deactivated hu)
    fun _ u hu => ?_
  exact hinert (quiet_announce _) stable_deactivated Inert.deactivated hu

/-- A deactivation that reports success ends deactivated. -/
theorem deactivate_remains (w : World) :
    Safe InOrder Remains Alone (fun r v => r = .ok () → Deactivated v) (deactivate X E) w := by
  have hstart : Stable Remains fun _ => True := fun _ _ _ _ => trivial
  have hquiet : ∀ {α : Type} {p : Code α} {u : World}, Quiet p →
      Safe InOrder Remains Alone (fun _ _ => True) p u := by
    intro α p u hp
    refine (Safe.of_each hp hstart ?_ trivial).mono (fun _ _ h => h) fun _ _ h => h.2
    exact fun _ _ _ _ _ => ⟨trivial, trivial⟩
  refine .bind Remains.refl (hquiet (quiet_readCache _)) fun instanceId u _ => ?_
  refine .bind Remains.refl (hquiet (quiet_readCache _)) fun licenseKey u _ => ?_
  refine .bind Remains.refl (hquiet (quiet_requestDeactivate X E _ _)) fun serverError u _ => ?_
  refine .bind Remains.refl (.atom (Q := fun _ => Forgotten) hstart trivial
    (fun _ => stable_forgotten) fun t _ _ => ⟨trivial, ?_, rfl, rfl⟩) fun keepTrial u hu => ?_
  · simp [Event.isReset]
  have hstore : Safe InOrder Remains Alone (fun _ => Forgotten) (updateStore E keepTrial) u := by
    refine (Safe.of_each (inert_updateStore keepTrial) stable_forgotten ?_ hu).mono
      (fun _ _ h => h) fun _ _ h => h.2
    exact fun _ _ ht hm _ => ⟨trivial, hm.forgotten ht⟩
  refine .bind Remains.refl hstore fun r u hu => ?_
  cases r with
  | error e => exact .pure stable_forgotten hu fun _ _ h => by cases h
  | ok _ =>
    refine .bind Remains.refl (.of_each resolveWithTrial_unpaid stable_forgotten
      (fun _ _ ht hm _ => ⟨trivial, (idle_inert hm).forgotten ht⟩) hu) fun s u hu => ?_
    refine .bind Remains.refl (setState_deactivates hu.1 hu.2) fun _ u hu => ?_
    cases serverError with
    | some e => exact .pure stable_deactivated hu fun _ ht _ => ht
    | none => exact .pure stable_deactivated hu fun _ ht _ => ht

end Client

open Client

inductive Party where
  | deactivating | validating
  deriving DecidableEq

abbrev Party.Result : Party → Type
  | .deactivating => Keylight.Result Unit
  | .validating => Unit

/-- A deactivation on one thread and a validation on another. -/
def race (X : Site) (E : Party → Env) (op : Op) : ∀ p : Party, Code p.Result
  | .deactivating => deactivate X (E .deactivating)
  | .validating => op.code X (E .validating)

/-- Only the deactivation relies on the other thread. -/
def relied : Party → World → World → Prop
  | .deactivating => Remains
  | .validating => fun _ _ => True

/-- A successful deactivation wins over a validation whose own writes do not come last. -/
theorem deactivation_wins (X : Site) (E : Party → Env) (op : Op) (hop : op.validates) (w : World)
    (c : Pool World Party.Result) (hrun : Pool.Run InOrder ⟨race X E op, w⟩ c)
    (hok : (c.threads .deactivating).result = some (.ok ())) :
    c.shared.client.cache.lease = none ∧ c.shared.client.cache.licenseKey = none ∧
      ∀ t, stateAt c.shared.client t ≠ .licensed ∧ stateAt c.shared.client t ≠ .limited := by
  have hsafe : ∀ p, Pool.SafeAt InOrder relied
      (fun | .deactivating => fun r v => r = .ok () → Deactivated v
           | .validating => fun _ _ => True) ⟨race X E op, w⟩ p := by
    intro p
    cases p with
    | deactivating =>
      refine (deactivate_remains w).mono (fun u v _ j hj => ?_) fun _ _ h => h
      cases j with
      | deactivating => exact absurd rfl hj
      | validating => exact trivial
    | validating =>
      have hwrites := sectional_validated.primitives.helpers.validating (fun _ => trivial)
        (fun _ _ _ _ _ => trivial) hop (X := X) (E := E .validating)
      refine (Safe.of_each hwrites (P := fun _ => True) (fun _ _ _ _ => trivial) ?_ trivial).mono
        (fun _ _ h => h) fun _ _ _ => trivial
      intro u v _ hm hC
      refine ⟨fun j hj => ?_, trivial⟩
      cases j with
      | deactivating => exact hm.remains hC
      | validating => exact absurd rfl hj
  have hrefl : ∀ p u, relied p u u := by
    intro p u
    cases p with
    | deactivating => exact .refl u
    | validating => exact trivial
  have htrans : ∀ p u v z, relied p u v → relied p v z → relied p u z := by
    intro p u v z huv hvz
    cases p with
    | deactivating => exact .trans u v z huv hvz
    | validating => exact trivial
  have h := Pool.returned hrefl htrans hrun hsafe hok rfl
  refine ⟨h.lease, h.key, fun t => ?_⟩
  have hunpaid := h.unpaid
  unfold stateAt
  split
  · exact ⟨by decide, by decide⟩
  · constructor
    · intro hs
      rw [hs] at hunpaid
      cases hunpaid
    · intro hs
      rw [hs] at hunpaid
      cases hunpaid

def licensedWorld : World := { seatedWorld with client.rawState := .licensed }

/-- The seat is released, and the validation is answered with the lease of before. -/
def racing : Party → Env
  | .deactivating => releasingEnv 0
  | .validating => { repliesAt 1781076300 (leaseReply 200 vectorLease) with self := 1 }

/-- The validation up to its reply, the deactivation, the rest of the validation. -/
def lateReply : List Party :=
  List.replicate 11 .validating ++ List.replicate 17 .deactivating ++
    List.replicate 28 .validating

/-- The whole validation between the deactivation's request and its reset. -/
def earlyReply : List Party :=
  List.replicate 4 .deactivating ++ List.replicate 38 .validating ++
    List.replicate 13 .deactivating

def raceEnd (C : World → World → Prop) [∀ w v, Decidable (C w v)] (ps : List Party) :
    Option (Pool World Party.Result) :=
  Pool.schedule C ps ⟨race vectorSite racing .validate, licensedWorld⟩

theorem lateReply_end : (raceEnd (fun _ _ => True) lateReply).map (fun c =>
    ((c.threads .deactivating).result, (c.threads .validating).result,
      c.shared.client.cache.lease)) =
      some (some (.ok ()), some (), some vectorLease) := by decide +kernel

/-- A reply from before the deactivation brings the lease back. -/
theorem deactivation_overtaken : ¬∀ (X : Site) (E : Party → Env) (op : Op) (w : World)
    (c : Pool World Party.Result), op.validates → w.log = [] →
      Pool.Run (fun _ _ => True) ⟨race X E op, w⟩ c →
      (c.threads .deactivating).result = some (.ok ()) →
      (c.threads .validating).result.isSome = true →
      c.shared.client.cache.lease = none ∧ c.shared.client.cache.licenseKey = none ∧
        ∀ t, stateAt c.shared.client t ≠ .licensed ∧ stateAt c.shared.client t ≠ .limited := by
  intro h
  have hend := lateReply_end
  cases hc : raceEnd (fun _ _ => True) lateReply with
  | none =>
    rw [hc] at hend
    cases hend
  | some c =>
    rw [hc] at hend
    simp only [Option.map_some, Option.some.injEq, Prod.mk.injEq] at hend
    obtain ⟨hdeactivated, hvalidated, hlease⟩ := hend
    have hwon := h vectorSite racing .validate licensedWorld c rfl rfl (Pool.schedule_run hc)
      hdeactivated (Option.isSome_of_eq_some hvalidated)
    rw [hwon.1] at hlease
    cases hlease

/-- A validation that ends before the reset does not bring the licence back. -/
theorem deactivation_wins_early : ∃ c, raceEnd InOrder earlyReply = some c ∧
    c.shared.client.cache.lease = none ∧ c.shared.client.cache.licenseKey = none ∧
      ∀ t, stateAt c.shared.client t ≠ .licensed ∧ stateAt c.shared.client t ≠ .limited := by
  have hend : ((raceEnd InOrder earlyReply).map fun c => (c.threads .deactivating).result) =
      some (some (.ok ())) := by decide +kernel
  cases hc : raceEnd InOrder earlyReply with
  | none =>
    rw [hc] at hend
    cases hend
  | some c =>
    rw [hc] at hend
    refine ⟨c, rfl, ?_⟩
    exact deactivation_wins vectorSite racing .validate rfl licensedWorld c
      (Pool.schedule_run hc) (Option.some.inj hend)

end Keylight
