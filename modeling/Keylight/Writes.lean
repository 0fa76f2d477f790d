import Keylight.Settle

/-!
# Operations from their helpers

A property of code that the helpers have and sequencing keeps holds of every
operation. The property is graded by what the code may write: a lease, then a
raw state, each at most once. One walk through the operations serves the store
mirror, the history and the interleavings.
-/
namespace Keylight
open Bytes Sections Client

/-- What code writes at most once: a lease, the raw state, or a lease and then the raw state. -/
inductive Writes where
  | nothing | lease | state | both

/-- Stamping the trial, and saving a new stamp. -/
def stampAndSave (E : Env) : Code Unit := do
  let started ← stampTrial E
  if started then do
    let _ ← saveCache E
    pure ()
  else pure ()

/-- The write that arms the beacon's debounce. -/
def armDebounce (E : Env) (wire : Bytes) (now : Int64) : Code Unit := do
  writeCache (fun c => { c with keylessLastState := some wire, lastKeylessPingAt := now }) []
  let _ ← saveCache E
  pure ()

/-- The bodies of 200 replies in `R` are in `C`. -/
def Heeds (R : Result HttpResponse → Prop) (C : Json → Prop) : Prop :=
  ∀ resp j, R (.ok resp) → resp.status = 200 → Json.parse resp.body = .ok j → C j

/-- A graded property that the helpers have and sequencing keeps. `T` are the leases it lets
through to the cache, `R` the replies a request may return and `C` the bodies whose settings it
lets through. A helper that writes the cache and saves it counts as one. Only a beacon and
`startTrial` need more than this. -/
structure Unbeaconed (X : Site) (E : Env) (T : Lease → Prop) (R : Result HttpResponse → Prop)
    (C : Json → Prop) (P : Writes → ∀ {α : Type}, Code α → Prop) : Prop where
  quiet : ∀ {α : Type} {p : Code α}, Quiet p → P .nothing p
  free : ∀ {α β : Type} {p : Code α} {k : α → Code β} {g : Writes},
    P .nothing p → (∀ a, P g (k a)) → P g (p >>= k)
  seq : ∀ {α β : Type} {p : Code α} {k : α → Code β},
    P .lease p → (∀ a, P .state (k a)) → P .both (p >>= k)
  after : ∀ {α β : Type} {p : Code α} {k : α → Code β} {g : Writes},
    P g p → (∀ a, P .nothing (k a)) → P g (p >>= k)
  weaken : ∀ {α : Type} {p : Code α} {g : Writes}, P .nothing p → P g p
  widen : ∀ {α : Type} {p : Code α} {g : Writes}, P g p → P .both p
  request : ∀ {β : Type} {k : Result HttpResponse → Code β} {g : Writes} (method url : Bytes)
    (headers : List (Bytes × Bytes)) (body : Bytes), (∀ r, R r → P g (k r)) →
    P g (requestWithRetry E method url headers body >>= k)
  cachedHardwareIdValue : P .nothing (Client.cachedHardwareIdValue E)
  applyConfigFields : ∀ j, C j → P .nothing (Client.applyConfigFields X E j)
  freeTierInstanceId : P .nothing (Client.freeTierInstanceId E)
  anchor : ∀ t, P .nothing (saveLastValidatedOnline E t)
  persist : ∀ d : PersistData, d.licenseKey = none → (∀ l, d.lease = some l → T l) →
    P .lease (Client.persist E d)
  clearLease : P .lease (Client.clearLease E)
  setState : ∀ s, P .state (Client.setState E s)

/-- With the helper that arms the beacon's debounce. -/
structure Unstamped (X : Site) (E : Env) (T : Lease → Prop) (R : Result HttpResponse → Prop)
    (C : Json → Prop) (P : Writes → ∀ {α : Type}, Code α → Prop) : Prop
    extends Unbeaconed X E T R C P where
  armDebounce : ∀ s now, P .nothing (Keylight.armDebounce E (keylessStateWire s) now)

/-- With the helper that stamps the trial. -/
structure Helpers (X : Site) (E : Env) (T : Lease → Prop) (R : Result HttpResponse → Prop)
    (C : Json → Prop) (P : Writes → ∀ {α : Type}, Code α → Prop) : Prop
    extends Unstamped X E T R C P where
  stampAndSave : P .nothing (Keylight.stampAndSave E)

/-- The same property section by section: a write to the cache has it without the save. -/
structure Primitives (E : Env) (T : Lease → Prop) (P : Writes → ∀ {α : Type}, Code α → Prop) :
    Prop where
  quiet : ∀ {α : Type} {p : Code α}, Quiet p → P .nothing p
  free : ∀ {α β : Type} {p : Code α} {k : α → Code β} {g : Writes},
    P .nothing p → (∀ a, P g (k a)) → P g (p >>= k)
  seq : ∀ {α β : Type} {p : Code α} {k : α → Code β},
    P .lease p → (∀ a, P .state (k a)) → P .both (p >>= k)
  after : ∀ {α β : Type} {p : Code α} {k : α → Code β} {g : Writes},
    P g p → (∀ a, P .nothing (k a)) → P g (p >>= k)
  weaken : ∀ {α : Type} {p : Code α} {g : Writes}, P .nothing p → P g p
  widen : ∀ {α : Type} {p : Code α} {g : Writes}, P g p → P .both p
  writeCache : ∀ f : Cache → Cache, (∀ c, (f c).lease = c.lease ∧ (f c).licenseKey = c.licenseKey ∧
    (f c).lastValidatedOnline = c.lastValidatedOnline ∧ (f c).trialStart = c.trialStart) →
    P .nothing (Keylight.writeCache f [])
  noteHardwareId : ∀ id, P .nothing (Client.noteHardwareId id)
  mint : P .nothing (mintFreeTierInstanceId E)
  stamp : P .nothing (stampTrial E)
  saveCache : P .nothing (Client.saveCache E)
  anchor : ∀ t, P .nothing (saveLastValidatedOnline E t)
  persist : ∀ d : PersistData, d.licenseKey = none → (∀ l, d.lease = some l → T l) →
    P .lease (Client.persist E d)
  clearLease : P .lease (Client.clearLease E)
  setState : ∀ s, P .state (Client.setState E s)

/-- A relation that holds across every section of the helpers. -/
structure Sectional (M : World → World → Prop) : Prop where
  /-- a section that may change other fields of the cache -/
  cache : ∀ {w v : World}, v.client.cache.lease = w.client.cache.lease →
    v.client.cache.licenseKey = w.client.cache.licenseKey →
    v.client.rawState = w.client.rawState → w.log <+: v.log → w.ticks.now ≤ v.ticks.now → M w v
  persist : ∀ (d : PersistData) (w : World), d.licenseKey = none →
    M w { w with client.cache := d.merge w.client.cache, log := w.log ++ d.events }
  clearLease : ∀ w : World,
    M w { w with client.cache.lease := none, log := w.log ++ [.leaseDropped] }
  state : ∀ (s : State) (w : World),
    M w { w with client.rawState := s, log := w.log ++ [.stateStored s] }

namespace Sectional
variable {M : World → World → Prop} {E : Env} (h : Sectional M)
include h

theorem inert {w v : World} (hcore : v.core = w.core) (hlog : w.log <+: v.log)
    (hnow : w.ticks.now ≤ v.ticks.now) : M w v :=
  h.cache (congrArg (fun c => c.cache.lease) hcore) (congrArg (fun c => c.cache.licenseKey) hcore)
    (congrArg Core.rawState hcore) hlog hnow

theorem idle {w v : World} (hidle : Idle w v) : M w v := h.inert hidle.core hidle.grows hidle.now

theorem saveCache : Each M (fun _ => True) (Client.saveCache E) := each_saveCache E h.inert

/-- Such a relation holds across the primitive helpers. -/
theorem primitives : Primitives E (fun _ => True) (fun _ {_} p => Each M (fun _ => True) p) where
  quiet := fun hp => hp.each h.idle
  free := fun hp hk => .bind hp fun a _ => hk a
  seq := fun hp hk => .bind hp fun a _ => hk a
  after := fun hp hk => .bind hp fun a _ => hk a
  weaken := id
  widen := id
  writeCache := fun f hf => Each.modify (fun w =>
    h.cache (hf _).1 (hf _).2.1 rfl (List.prefix_append _ _) le_rfl) trivial
  noteHardwareId := fun id => Each.atom fun w => by
    split
    · exact ⟨h.cache rfl rfl rfl List.prefix_rfl le_rfl, trivial⟩
    · exact ⟨h.inert rfl List.prefix_rfl le_rfl, trivial⟩
  mint := Each.atom fun w => by
    split
    · exact ⟨h.inert rfl List.prefix_rfl le_rfl, trivial⟩
    · exact ⟨h.cache rfl rfl rfl List.prefix_rfl le_rfl, trivial⟩
  stamp := Each.atom fun w => by
    split
    · exact ⟨h.inert rfl List.prefix_rfl le_rfl, trivial⟩
    · exact ⟨h.cache rfl rfl rfl List.prefix_rfl (Nat.le_succ _), trivial⟩
  saveCache := h.saveCache
  anchor := fun t => by
    refine .bind (Each.modify (Q := fun _ => True) (fun w => ?_) trivial) fun _ _ =>
      .bind (Each.modify (Q := fun _ => True) (fun w => ?_) trivial) fun _ _ =>
        .bind h.saveCache fun _ _ => trivial
    · exact h.cache rfl rfl rfl (List.prefix_append _ _) le_rfl
    · exact h.cache rfl rfl rfl List.prefix_rfl le_rfl
  persist := fun d hkey _ => by
    refine .bind (Each.modify (Q := fun _ => True) (fun w => ?_) trivial) fun _ _ =>
      .bind h.saveCache fun _ _ => trivial
    exact h.persist d w hkey
  clearLease := .bind (Each.modify (Q := fun _ => True) h.clearLease trivial) fun _ _ =>
    .bind h.saveCache fun _ _ => trivial
  setState := fun s => each_setState E s h.idle (h.state s)

end Sectional

/-- Settings come from a 200 reply. -/
theorem verdict_settings {R : Result HttpResponse → Prop} {C : Json → Prop} (hC : Heeds R C)
    {r : Result HttpResponse} (hr : R r) {j : Json}
    (hj : (validationVerdict r).settings = some j) : C j := by
  cases r with
  | error e => cases hj
  | ok resp =>
    simp only [validationVerdict] at hj
    split at hj
    · split at hj
      · cases hbody : Json.parse resp.body with
        | error e => simp [hbody, Verdict.settings] at hj
        | ok j' => cases hl : leaseOf j' <;> simp [hbody, hl, Verdict.settings] at hj
      · cases hj
    · rename_i hstatus
      cases hbody : Json.parse resp.body with
      | error e => simp [hbody, Verdict.settings] at hj
      | ok j' =>
        have hsame : j' = j := by
          cases hl : leaseOf j' <;> simpa [hbody, hl, Verdict.settings] using hj
        exact hsame ▸ hC resp j' hr (Decidable.not_not.1 hstatus) hbody

namespace Primitives
variable {X : Site} {E : Env} {T : Lease → Prop} {P : Writes → ∀ {α : Type}, Code α → Prop}
  (h : Primitives E T P)
include h

theorem pure {α : Type} {g : Writes} (a : α) : P g (Pure.pure a : Code α) :=
  h.weaken (h.quiet (.pure a))

theorem cachedHardwareIdValue : P .nothing (Client.cachedHardwareIdValue E) := by
  refine h.free (h.quiet (quiet_hardwareIdFn E)) fun live => ?_
  cases nonEmpty live with
  | none => exact h.quiet (.read _)
  | some id =>
    refine h.free (h.noteHardwareId id) fun changed => ?_
    cases changed with
    | true => exact h.free h.saveCache fun _ => h.pure _
    | false => exact h.pure _

theorem applyConfigFields (j : Json) : P .nothing (Client.applyConfigFields X E j) := by
  unfold Client.applyConfigFields
  split
  · exact h.pure _
  · refine h.free (h.quiet (quiet_verifyConfig X E j)) fun vr => ?_
    split
    · exact h.pure _
    · refine h.free (h.writeCache _ fun _ => ⟨rfl, rfl, rfl, rfl⟩) fun _ => ?_
      exact h.free h.saveCache fun _ => h.pure _

theorem freeTierInstanceId : P .nothing (Client.freeTierInstanceId E) := by
  refine h.free h.mint fun known => ?_
  cases known with
  | some id => exact h.pure _
  | none =>
    refine h.free h.saveCache fun r => ?_
    split
    · exact h.free (h.writeCache _ fun _ => ⟨rfl, rfl, rfl, rfl⟩) fun _ => h.pure _
    · exact h.quiet (.read _)

theorem stampAndSave : P .nothing (Keylight.stampAndSave E) := by
  refine h.free h.stamp fun started => ?_
  cases started with
  | true => exact h.free h.saveCache fun _ => h.pure _
  | false => exact h.pure _

theorem armDebounce (wire : Bytes) (now : Int64) :
    P .nothing (Keylight.armDebounce E wire now) :=
  h.free (h.writeCache _ fun _ => ⟨rfl, rfl, rfl, rfl⟩) fun _ =>
    h.free h.saveCache fun _ => h.pure _

/-- And across those built from them. -/
theorem helpers : Helpers X E T (fun _ => True) (fun _ => True) P where
  quiet := h.quiet
  free := h.free
  seq := h.seq
  after := h.after
  weaken := h.weaken
  widen := h.widen
  request := fun _ _ _ _ hk => h.free (h.quiet (quiet_requestWithRetry E _ _ _ _)) fun r =>
    hk r trivial
  cachedHardwareIdValue := h.cachedHardwareIdValue
  applyConfigFields := fun j _ => h.applyConfigFields j
  freeTierInstanceId := h.freeTierInstanceId
  stampAndSave := h.stampAndSave
  armDebounce := fun s => h.armDebounce (keylessStateWire s)
  anchor := h.anchor
  persist := h.persist
  clearLease := h.clearLease
  setState := h.setState

end Primitives

namespace Unbeaconed
variable {X : Site} {E : Env} {T : Lease → Prop} {R : Result HttpResponse → Prop}
  {C : Json → Prop} {P : Writes → ∀ {α : Type}, Code α → Prop} (h : Unbeaconed X E T R C P)
include h

theorem pure {α : Type} {g : Writes} (a : α) : P g (Pure.pure a : Code α) :=
  h.weaken (h.quiet (.pure a))

theorem machineHash : P .nothing (Client.machineHash X E) :=
  h.free h.cachedHardwareIdValue fun _ => h.pure _

theorem appendAttributionFields (fields : Fields) (b : Bool) :
    P .nothing (Client.appendAttributionFields X E fields b) := by
  have htail : ∀ id : Option Bytes, P .nothing (do
      let hash ← Client.machineHash X E
      Pure.pure (fields ++ optionField (ascii "free_tier_instance_id") id ++
        optionField (ascii "machine_hash") hash)) := fun _ => h.free h.machineHash fun _ => h.pure _
  cases b with
  | true => exact h.free (h.quiet (.read _)) htail
  | false => exact htail none

/-- A request by POST, once its fields are gathered. -/
theorem post {β : Type} {k : Result HttpResponse → Code β} {g : Writes} (action text : Bytes)
    (hk : ∀ r, R r → P g (k r)) : P g (do
      let headers ← jsonHeaders X E
      let hr ← requestWithRetry E (ascii "POST") (apiUrl X action) headers text
      k hr) :=
  h.free (h.quiet (quiet_jsonHeaders X E)) fun _ => h.request _ _ _ _ hk

theorem validateRequest {β : Type} {k : Result HttpResponse → Code β} {g : Writes}
    (licenseKey instanceId : Bytes) (hk : ∀ r, R r → P g (k r)) :
    P g (Client.validateRequest X E licenseKey instanceId >>= k) := by
  simp only [Client.validateRequest, bind_assoc]
  exact h.free (h.appendAttributionFields _ _) fun _ => h.post _ _ hk

theorem resolveAndSet (lease : Option Lease) : P .state (Client.resolveAndSet X E lease) :=
  h.free (h.quiet (quiet_resolveFromLease X E lease)) fun _ =>
    h.free (h.quiet (quiet_resolveWithTrial X E _)) fun _ =>
      h.after (h.setState _) fun _ => h.pure _

/-- A lease written to a persist record comes out as itself. -/
theorem persistLease {l : Lease} (hT : T l) (expiresAt : Option Int64)
    (instanceId : Option Bytes) :
    P .lease (Client.persist E ⟨some (leaseToJson l), expiresAt, instanceId, none⟩) := by
  refine h.persist _ rfl fun l' hl => ?_
  rw [persistData_same hl]
  exact hT

theorem keepLease {l : Lease} (hT : T l) (j : Json) (t : Int64) :
    P .lease (Client.keepLease E j l t) :=
  h.free (h.quiet (.read _)) fun _ => h.after (h.persistLease hT _ _) fun _ => h.anchor t

theorem keepLeaseThenRead {l : Lease} (hT : T l) (j : Json) :
    P .lease (Client.keepLeaseThenRead E j l) :=
  h.free (h.quiet (.read _)) fun _ => h.after (h.persistLease hT _ _) fun _ =>
    h.free (h.quiet (quiet_nowFn E)) fun _ => h.anchor _

/-- A lease is kept when it is trusted, and decides the state either way. -/
theorem keepTrusted {l : Lease} {p : Code Unit} (hp : X.trusts l = true → P .lease p) :
    P .both (do
      if X.trusts l then p else Pure.pure ()
      Client.resolveAndSet X E (some l)) := by
  cases ht : X.trusts l with
  | true => exact h.seq (hp ht) fun _ => h.resolveAndSet _
  | false => exact h.widen (h.resolveAndSet _)

theorem rejectWithLease (j : Json) {l : Lease} (hT : X.trusts l = true → T l) (now : Int64) :
    P .both (Client.rejectWithLease X E j l now) := by
  rw [rejectWithLease_eq]
  exact h.keepTrusted fun ht => h.keepLease (hT ht) j now

theorem revoke : P .both (Client.revoke E) :=
  h.seq h.clearLease fun _ => h.after (h.setState _) fun _ => h.pure _

/-- A decoded 200 reply, for either way of keeping its lease. -/
theorem reply (j : Json) (hj : C j) {keep : Lease → Code Unit}
    (hkeep : ∀ l, leaseOf j = some l → X.trusts l = true → P .lease (keep l)) : P .both (do
      let _ ← Client.applyConfigFields X E j
      match leaseOf j with
      | some l => do
        let _ ← nowFn E
        if X.trusts l then keep l else Pure.pure ()
        Client.resolveAndSet X E (some l)
      | none => Client.resolveAndSet X E none : Code State) := by
  refine h.free (h.applyConfigFields j hj) fun _ => ?_
  cases hl : leaseOf j with
  | none => exact h.widen (h.resolveAndSet none)
  | some l =>
    refine h.free (h.quiet (quiet_nowFn E)) fun _ => ?_
    exact h.keepTrusted (hkeep l hl)

theorem validateReply (j : Json) (hj : C j)
    (hT : ∀ l, leaseOf j = some l → X.trusts l = true → T l) :
    P .both (Client.validateReply X E j) := by
  rw [validateReply_eq]
  refine h.after (h.reply j hj fun l hl ht => ?_) fun _ => h.quiet (quiet_report E _)
  exact h.keepLeaseThenRead (hT l hl ht) j

theorem reconcileReply (j : Json) (hj : C j)
    (hT : ∀ l, leaseOf j = some l → X.trusts l = true → T l) (now : Int64) :
    P .both (Client.reconcileReply X E j now) := by
  rw [reconcileReply_eq]
  exact h.reply j hj fun l hl ht => h.keepLease (hT l hl ht) j now

theorem downgrade : P .state (Client.downgrade E) := by
  refine h.free (h.quiet quiet_loadState) fun current => ?_
  split
  · exact h.after (h.setState _) fun _ => h.pure _
  · exact h.pure _

theorem applyOfflineGrace (now lastLvo : Int64) :
    P .state (Client.applyOfflineGrace X E now lastLvo) := by
  refine h.free (h.quiet (.read _)) fun expired => ?_
  split
  · exact h.downgrade
  · split
    · exact h.weaken (h.quiet quiet_loadState)
    · split
      · exact h.weaken (h.quiet quiet_loadState)
      · exact h.downgrade

theorem keepState : P .nothing (Client.keepState E) := h.quiet (quiet_keepState E)

theorem settleValidate {v : Verdict} (hT : ∀ l, v.lease = some l → X.trusts l = true → T l)
    (hC : ∀ j, v.settings = some j → C j) : P .both (Client.settleValidate X E v) := by
  have hnow := h.quiet (quiet_nowFn E)
  have hreport := fun s => h.quiet (quiet_report E s)
  cases v with
  | transient => exact h.weaken h.keepState
  | undecodable => exact h.free hnow fun _ => h.weaken h.keepState
  | denied => exact h.free hnow fun _ => h.after h.revoke hreport
  | rejectedLease j l =>
    exact h.free hnow fun _ => h.after (h.rejectWithLease j (hT l rfl) _) hreport
  | renewed j l => exact h.validateReply j (hC j rfl) hT
  | leaseless j => exact h.validateReply j (hC j rfl) hT

theorem settleReconcile {v : Verdict} (hT : ∀ l, v.lease = some l → X.trusts l = true → T l)
    (hC : ∀ j, v.settings = some j → C j) (now lastLvo : Int64) :
    P .both (Client.settleReconcile X E now lastLvo v) := by
  cases v with
  | transient => exact h.widen (h.applyOfflineGrace now lastLvo)
  | undecodable => exact h.widen (h.applyOfflineGrace now lastLvo)
  | denied => exact h.revoke
  | rejectedLease j l => exact h.rejectWithLease j (hT l rfl) now
  | renewed j l => exact h.reconcileReply j (hC j rfl) hT now
  | leaseless j => exact h.reconcileReply j (hC j rfl) hT now

section
variable (hT : ∀ l, T l) (hC : Heeds R C)
include hT hC

theorem validate : P .both (Client.validate X E) := by
  rw [validate_eq]
  refine h.free (h.quiet (quiet_notify E)) fun _ => ?_
  refine h.free (h.quiet (.read _)) fun _ => h.free (h.quiet (.read _)) fun _ => ?_
  exact h.validateRequest _ _ fun r hr => h.settleValidate (fun l _ _ => hT l) fun j hj =>
    verdict_settings hC hr hj

theorem validateAndReconcile : P .both (Client.validateAndReconcile X E) := by
  rw [validateAndReconcile_eq]
  refine h.free (h.quiet (quiet_nowFn E)) fun _ => h.free (h.quiet (.read _)) fun _ => ?_
  refine h.free (h.quiet (.read _)) fun _ => h.free (h.quiet (.read _)) fun _ => ?_
  refine h.validateRequest _ _ fun r hr => ?_
  refine h.after (h.settleReconcile (fun l _ _ => hT l) (fun j hj => ?_) _ _) fun _ => h.pure _
  exact verdict_settings hC hr hj

end

theorem resolveCurrentAndSet : P .state (resolveCurrentState X E >>= Client.setState E) :=
  h.free (h.quiet (quiet_resolveCurrentState X E)) fun _ => h.setState _

theorem resolveLocally : P .state (Client.resolveLocally X E) :=
  h.free (h.quiet (quiet_resolveCurrentState X E)) fun _ =>
    h.after (h.setState _) fun _ => h.quiet (quiet_report E _)

theorem reconcileAndReport (hT : ∀ l, T l) (hC : Heeds R C) :
    P .both (Client.validateAndReconcile X E >>= reportResult E) :=
  h.after (h.validateAndReconcile hT hC) fun r => h.quiet (quiet_reportResult E r)

theorem checkOnLaunch (hT : ∀ l, T l) (hC : Heeds R C) : P .both (Client.checkOnLaunch X E) := by
  refine h.free (h.quiet (.read _)) fun stored => ?_
  cases stored with
  | true => exact h.reconcileAndReport hT hC
  | false => exact h.widen h.resolveLocally

/-- A refresh asks, or resolves, or waits. -/
theorem refreshIfNeeded (hT : ∀ l, T l) (hC : Heeds R C) :
    P .both (Client.refreshIfNeeded X E) := by
  refine h.free (h.quiet (quiet_notify E)) fun _ => h.free (h.quiet (.read _)) fun stored => ?_
  cases stored with
  | true =>
    refine h.free (h.quiet (quiet_nowFn E)) fun now => h.free (h.quiet (.read _)) fun lastLvo => ?_
    split
    · exact h.weaken h.keepState
    · refine h.free (h.quiet (.read _)) fun near => ?_
      split
      · exact h.reconcileAndReport hT hC
      · exact h.weaken h.keepState
  | false => exact h.widen h.resolveLocally

/-- A revalidation asks, or waits. -/
theorem activeRevalidate (hT : ∀ l, T l) (hC : Heeds R C) :
    P .both (Client.activeRevalidate X E) := by
  refine h.free (h.quiet (.read _)) fun stored => ?_
  cases stored with
  | true =>
    refine h.free (h.quiet (quiet_nowFn E)) fun now => ?_
    have hrecent : Quiet (.atom fun w : World =>
        if w.client.lastActiveRevalidateAt ≠ 0 ∧ now - w.client.lastActiveRevalidateAt < 60 then
          (true, w)
        else (false, { w with client.lastActiveRevalidateAt := now })) := by
      refine Each.atom fun w => ⟨?_, trivial⟩
      split
      · exact .refl w
      · exact .silent rfl rfl rfl rfl rfl le_rfl
    refine h.free (h.quiet hrecent) fun recent => ?_
    cases recent with
    | true => exact h.pure _
    | false => exact h.after (h.validate hT hC) fun _ => h.pure _
  | false => exact h.pure _

/-- A fetch absorbs a verified body and resolves. -/
theorem fetchConfig (hC : Heeds R C) : P .state (Client.fetchConfig X E) := by
  refine h.free (h.quiet (quiet_jsonHeaders X E)) fun headers => ?_
  refine h.request _ _ _ _ fun r hr => ?_
  cases r with
  | error e => exact h.pure _
  | ok resp =>
    dsimp only
    split
    · exact h.pure _
    · rename_i hstatus
      cases hbody : Json.parse resp.body with
      | error e => exact h.pure _
      | ok j =>
        have hj := hC resp j hr (Decidable.not_not.1 hstatus) hbody
        refine h.free (h.quiet (quiet_verifyConfig X E j)) fun vr => ?_
        cases vr with
        | error e => exact h.pure _
        | ok _ =>
          refine h.free (h.applyConfigFields j hj) fun _ => ?_
          exact h.free (h.quiet (quiet_resolveCurrentState X E)) fun _ =>
            h.after (h.setState _) fun _ => h.pure _

theorem absorbSettings {body : Bytes} (hbody : ∀ j, Json.parse body = .ok j → C j) :
    P .nothing (Client.absorbSettings X E body) := by
  unfold Client.absorbSettings
  cases hj : Json.parse body with
  | error e => exact h.pure _
  | ok j => exact h.applyConfigFields j (hbody j hj)

/-- Activation writes a key, so it needs a stronger fact about `persist`. -/
theorem activateReply
    (hpersist : ∀ d : PersistData, (∀ l, d.lease = some l → T l) → P .lease (Client.persist E d))
    (key : Bytes) (j : Json) (hT : ∀ l, leaseOf j = some l → X.trusts l = true → T l) :
    P .both (Client.activateReply X E key j) := by
  have htail : ∀ s, P .state (do
      let newState ← resolveWithTrial X E s
      Client.setState E newState
      report E newState) := fun s =>
    h.free (h.quiet (quiet_resolveWithTrial X E s)) fun _ =>
      h.after (h.setState _) fun _ => h.quiet (quiet_report E _)
  have hbare : P .both (activateWith X E key j none) := by
    refine h.free (h.quiet quiet_loadState) fun resolved => ?_
    exact h.seq (hpersist _ fun l hl => by cases hl) fun _ => htail _
  have hleased : ∀ l, (X.trusts l = true → T l) → P .both (activateWith X E key j (some l)) := by
    intro l hl
    refine h.free (h.quiet (quiet_resolveFromLease X E (some l))) fun resolved => ?_
    refine h.free (h.quiet (quiet_nowFn E)) fun now => ?_
    rw [X.verify_isTrusted]
    cases ht : X.trusts l with
    | true =>
      refine h.seq (hpersist _ fun l' hl' => ?_) fun _ => ?_
      · rw [persistData_same hl']
        exact hl ht
      · refine h.free (h.quiet (quiet_nowFn E)) fun _ => ?_
        exact h.free (h.anchor _) fun _ => htail _
    | false => exact h.widen (htail _)
  unfold Client.activateReply
  split
  · exact h.free (h.quiet quiet_loadState) fun s => h.weaken (h.quiet (quiet_report E s))
  · split
    · rename_i hsize
      cases hj : Lease.fromJson (j.get (ascii "lease")) with
      | error e => exact h.pure _
      | ok l => exact hleased l (hT l (by simp [leaseOf, hsize, hj, Except.toOption]))
    · exact hbare

/-- An activation persists what its reply brings. -/
theorem settleActivate
    (hpersist : ∀ d : PersistData, (∀ l, d.lease = some l → T l) → P .lease (Client.persist E d))
    (key : Bytes) {r : Result HttpResponse} (hT : ∀ resp j l, r = .ok resp →
      Json.parse resp.body = .ok j → leaseOf j = some l → X.trusts l = true → T l) :
    P .both (Client.settleActivate X E key r) := by
  cases r with
  | error e => exact h.pure _
  | ok resp =>
    dsimp only [Client.settleActivate]
    split
    · exact h.pure _
    · cases hj : Json.parse resp.body with
      | error e => exact h.pure _
      | ok j => exact h.activateReply hpersist key j fun l hl => hT resp j l rfl hj hl

theorem activate (hT : ∀ l, T l) (hpersist : ∀ d, P .lease (Client.persist E d)) (key : Bytes) :
    P .both (Client.activate X E key) := by
  rw [activate_eq]
  refine h.free (h.appendAttributionFields _ _) fun fields => h.post _ _ fun r _ => ?_
  exact h.settleActivate (fun d _ => hpersist d) key fun _ _ l _ _ _ _ => hT l

theorem validating (hT : ∀ l, T l) (hC : Heeds R C) {op : Op} (hop : op.validates) :
    P .both (op.code X E) := by
  cases op with
  | validate => exact h.after (h.validate hT hC) fun _ => h.pure ()
  | checkOnLaunch => exact h.after (h.checkOnLaunch hT hC) fun _ => h.pure ()
  | refreshIfNeeded => exact h.after (h.refreshIfNeeded hT hC) fun _ => h.pure ()
  | activeRevalidate => exact h.after (h.activeRevalidate hT hC) fun _ => h.pure ()
  | _ => cases hop

/-- Every call but the two that write the store or the cache in their own way, the beacon and the
one that stamps the trial. -/
theorem code (hT : ∀ l, T l) (hpersist : ∀ d, P .lease (Client.persist E d)) {op : Op}
    (hC : op.configures → Heeds R C) (hlaunch : op ≠ .relaunch) (hdeactivate : op ≠ .deactivate)
    (hstart : op ≠ .startTrial) (hreport : ∀ s, op ≠ .reportKeylessState s) :
    P .both (op.code X E) := by
  cases op with
  | relaunch => exact absurd rfl hlaunch
  | deactivate => exact absurd rfl hdeactivate
  | startTrial => exact absurd rfl hstart
  | reportKeylessState s => exact absurd rfl (hreport s)
  | activate key => exact h.after (h.activate hT hpersist key) fun _ => h.pure ()
  | validate => exact h.validating hT (hC rfl) rfl
  | checkOnLaunch => exact h.validating hT (hC rfl) rfl
  | refreshIfNeeded => exact h.validating hT (hC rfl) rfl
  | activeRevalidate => exact h.validating hT (hC rfl) rfl
  | fetchConfig => exact h.after (h.widen (h.fetchConfig (hC rfl))) fun _ => h.pure ()
  | freeTierInstanceId => exact h.after (h.weaken h.freeTierInstanceId) fun _ => h.pure ()

end Unbeaconed

namespace Unstamped
variable {X : Site} {E : Env} {T : Lease → Prop} {R : Result HttpResponse → Prop}
  {C : Json → Prop} {P : Writes → ∀ {α : Type}, Code α → Prop} (h : Unstamped X E T R C P)
include h

theorem keylessReply (s : KeylessState) {body : Bytes}
    (hbody : ∀ j, Json.parse body = .ok j → C j) :
    P .state (Client.keylessReply X E (keylessStateWire s) body) := by
  refine h.free (h.absorbSettings hbody) fun absorbed => ?_
  refine h.free (h.quiet (quiet_nowFn E)) fun now => ?_
  have htail : P .state (if absorbed then resolveCurrentState X E >>= Client.setState E
      else Pure.pure ()) := by
    cases absorbed with
    | true => exact h.resolveCurrentAndSet
    | false => exact h.pure ()
  have hrun := h.free (h.armDebounce s now) fun _ => htail
  simpa only [Keylight.armDebounce, bind_assoc, pure_bind] using hrun

/-- A report arms the debounce, absorbs and resolves. -/
theorem reportKeylessState (hC : Heeds R C) (s : KeylessState) :
    P .state (Client.reportKeylessState X E s) := by
  have hdebounced : Quiet (keylessDebounced E (keylessStateWire s)) :=
    .bind (.read _) fun _ => .ite (.bind (quiet_nowFn E) fun _ => .pure _) (.pure _)
  refine h.free (h.quiet hdebounced) fun debounced => ?_
  cases debounced with
  | true => exact h.pure ()
  | false =>
    refine h.free h.freeTierInstanceId fun instanceId => ?_
    split
    · exact h.pure ()
    · refine h.free h.machineHash fun _ => h.post _ _ fun r hr => ?_
      cases r with
      | error e => exact h.pure ()
      | ok resp =>
        dsimp only
        split
        · exact h.pure ()
        · rename_i hstatus
          exact h.keylessReply _ fun j hj => hC resp j hr (Decidable.not_not.1 hstatus) hj

/-- Every call but the two that write the store or the cache in their own way and the one that
stamps the trial. -/
theorem code (hT : ∀ l, T l) (hpersist : ∀ d, P .lease (Client.persist E d)) {op : Op}
    (hC : op.configures → Heeds R C) (hlaunch : op ≠ .relaunch) (hdeactivate : op ≠ .deactivate)
    (hstart : op ≠ .startTrial) : P .both (op.code X E) := by
  by_cases hreport : ∃ s, op = .reportKeylessState s
  · obtain ⟨s, rfl⟩ := hreport
    exact h.widen (h.reportKeylessState (hC rfl) s)
  · apply h.toUnbeaconed.code hT hpersist hC hlaunch hdeactivate hstart
    intro s hs
    exact hreport ⟨s, hs⟩

end Unstamped

/-- The stamp first, then the rest. -/
theorem startTrial_eq (X : Site) (E : Env) : Client.startTrial X E = stampAndSave E >>= fun _ =>
    Client.freeTierInstanceId E >>= fun _ => Client.resolveLocally X E := by
  simp only [Client.startTrial, stampAndSave, Client.resolveLocally, bind_assoc]
  congr 1
  funext started
  cases started <;> rfl

namespace Helpers
variable {X : Site} {E : Env} {T : Lease → Prop} {R : Result HttpResponse → Prop}
  {C : Json → Prop} {P : Writes → ∀ {α : Type}, Code α → Prop} (h : Helpers X E T R C P)
include h

theorem startTrial : P .state (Client.startTrial X E) := by
  rw [startTrial_eq]
  exact h.free h.stampAndSave fun _ => h.free h.freeTierInstanceId fun _ => h.resolveLocally

/-- The keyless calls write no lease. -/
theorem keyless {op : Op} (hop : op.keyless ∨ op = .freeTierInstanceId)
    (hC : op.configures → Heeds R C) : P .both (op.code X E) := by
  cases op with
  | startTrial => exact h.after (h.widen h.startTrial) fun _ => h.pure ()
  | fetchConfig => exact h.after (h.widen (h.fetchConfig (hC rfl))) fun _ => h.pure ()
  | freeTierInstanceId => exact h.after (h.weaken h.freeTierInstanceId) fun _ => h.pure ()
  | reportKeylessState s => exact h.widen (h.reportKeylessState (hC rfl) s)
  | _ => simp [Op.keyless] at hop

/-- Every call but the two that write the store or the cache in their own way. -/
theorem code (hT : ∀ l, T l) (hpersist : ∀ d, P .lease (Client.persist E d)) {op : Op}
    (hC : op.configures → Heeds R C) (hlaunch : op ≠ .relaunch) (hdeactivate : op ≠ .deactivate) :
    P .both (op.code X E) := by
  by_cases hstart : op = .startTrial
  · subst hstart
    exact h.keyless (.inl rfl) hC
  · exact h.toUnstamped.code hT hpersist hC hlaunch hdeactivate hstart

end Helpers
end Keylight
