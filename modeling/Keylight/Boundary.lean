import Keylight.StoreMirror

/-!
# The licensing boundary

A run that starts without a trusted lease on disk stays unlicensed until the
history holds a reply with a trusted lease, or the one reply that licenses
without any: an activation that succeeds with no lease object.
-/
namespace Keylight
open Bytes Sections

/-- A reply that carries a lease the verifier trusts. -/
def Signed (X : Site) (resp : HttpResponse) : Prop := ∃ j l,
  Json.parse resp.body = .ok j ∧ leaseOf j = some l ∧ X.trusts l = true

/-- A successful activation without a lease object. -/
def Bare (X : Site) (req : HttpRequest) (resp : HttpResponse) : Prop :=
  req.url = Client.apiUrl X (ascii "activate") ∧ resp.status = 200 ∧ ∃ j,
    Json.parse resp.body = .ok j ∧ (j.get (ascii "activated")).asBool = true ∧
      ¬0 < (j.get (ascii "lease")).size

/-- The history holds a reply that may license. -/
def Evidence (X : Site) (log : List Event) : Prop := ∃ req resp,
  Event.exchange req (.ok resp) ∈ log ∧ (Signed X resp ∨ Bare X req resp)

theorem Evidence.mono {X : Site} {log log' : List Event} (h : Evidence X log)
    (hlog : log <+: log') : Evidence X log' := by
  obtain ⟨req, resp, hmem, hev⟩ := h
  exact ⟨req, resp, hlog.subset hmem, hev⟩

/-- No section rewrites the history. -/
def Grows (w v : World) : Prop := w.log <+: v.log

theorem Grows.refl (w : World) : Grows w w := List.prefix_rfl

theorem Grows.trans {u v w : World} (h₁ : Grows u v) (h₂ : Grows v w) : Grows u w :=
  List.IsPrefix.trans h₁ h₂

abbrev Growing (p : Code α) : Prop := Each Grows (fun _ => True) p

theorem Growing.run {p : Code α} (h : Growing p) (w : World) : Grows w (p.run w).2 :=
  (Each.run h Grows.refl (fun _ _ _ => Grows.trans) w).1

theorem Growing.bind {p : Code α} {k : α → Code β} (hp : Growing p) (hk : ∀ a, Growing (k a)) :
    Growing (p >>= k) := Each.bind hp fun a _ => hk a

theorem growing_quiet {p : Code α} (h : Quiet p) : Growing p := h.each Idle.grows

theorem growing_modify {f : World → World} (h : ∀ w, ∃ es, (f w).log = w.log ++ es) :
    Growing (.modify f) := by
  refine Each.modify (fun w => ?_) trivial
  obtain ⟨es, hes⟩ := h w
  rw [Grows, hes]
  exact List.prefix_append _ _

theorem sectional_grows : Sectional Grows where
  cache := fun _ _ _ h _ => h
  persist := fun _ _ _ => List.prefix_append _ _
  clearLease := fun _ => List.prefix_append _ _
  state := fun _ _ => List.prefix_append _ _

namespace Client
variable {X : Site} {E : Env}

theorem growing_writeCache (f : Cache → Cache) (events : List Event) :
    Growing (writeCache f events) := growing_modify fun _ => ⟨events, rfl⟩

theorem growing_persist (d : PersistData) : Growing (persist E d) :=
  .bind (growing_writeCache _ _) fun _ => .bind sectional_grows.saveCache fun _ => trivial

theorem growing_primitives : Primitives E (fun _ => True) (fun _ {_} p => Growing p) :=
  sectional_grows.primitives

theorem acted_grows {v : Verdict} {u z : World} (h : Acted X E v u z) : Grows u z := by
  cases h with
  | validate =>
    exact (growing_primitives.helpers.settleValidate (fun _ _ _ => trivial)
      fun _ _ => trivial).run u
  | reconcile k lastLvo =>
    exact (growing_primitives.helpers.settleReconcile (fun _ _ _ => trivial)
      (fun _ _ => trivial) _ _).run u

theorem growing_resetPaid : Growing resetPaid :=
  Each.atom fun _ => ⟨List.prefix_append _ _, trivial⟩

theorem growing_updateStore (keepTrial : Bool) : Growing (updateStore E keepTrial) := by
  cases keepTrial with
  | true => exact sectional_grows.saveCache
  | false => exact Each.atom fun _ => ⟨List.prefix_append _ _, trivial⟩

/-- No section of a deactivation rewrites the history. -/
theorem growing_deactivate : Growing (deactivate X E) := by
  refine .bind (growing_quiet (.read _)) fun instanceId => ?_
  refine .bind (growing_quiet (.read _)) fun licenseKey => ?_
  refine .bind (growing_quiet (quiet_requestDeactivate X E _ _)) fun serverError => ?_
  refine .bind growing_resetPaid fun keepTrial => .bind (growing_updateStore keepTrial) fun r => ?_
  cases r with
  | error e => exact trivial
  | ok _ =>
    refine .bind (growing_quiet (quiet_resolveWithTrial X E _)) fun s => ?_
    refine .bind (growing_primitives.setState s) fun _ => ?_
    cases serverError with
    | none => exact trivial
    | some e => exact trivial

theorem growing_construct : Growing (construct X E) := each_construct X E fun _ hlog => hlog

end Client

open Client in
theorem Op.growing_code (X : Site) (E : Env) (op : Op) : Growing (op.code X E) := by
  by_cases hlaunch : op = .relaunch
  · rw [hlaunch]
    exact growing_construct
  · by_cases hdeactivate : op = .deactivate
    · rw [hdeactivate]
      exact .bind growing_deactivate fun _ => trivial
    · exact growing_primitives.helpers.code (fun _ => trivial) growing_persist
        (fun _ _ _ _ _ _ => trivial) hlaunch hdeactivate

/-- Neither the cache nor the store holds a trusted lease. -/
structure Unsigned (X : Site) (c : Core) (store : Bytes) : Prop where
  cached : ∀ l, c.cache.lease = some l → l.Accepted ∧ X.trusts l = false
  stored : ∀ l, storedLease store = some l → X.trusts l = false

theorem Unsigned.saved {X : Site} {c : Core} {store : Bytes} (E : Env) (k : Nat)
    (h : Unsigned X c store) : Unsigned X c (Client.savedStore E k (buildBlob c.cache) store) := by
  refine ⟨h.cached, fun l hl => ?_⟩
  unfold Client.savedStore at hl
  split at hl
  · rw [storedLease_buildBlob _ fun l hl => (h.cached l hl).1] at hl
    exact (h.cached l hl).2
  · exact h.stored l hl

theorem Unsigned.congr {X : Site} {c c' : Core} {store : Bytes} (h : Unsigned X c store)
    (hlease : c'.cache.lease = c.cache.lease) : Unsigned X c' store := by
  refine ⟨?_, h.stored⟩
  rw [hlease]
  exact h.cached

theorem Unsigned.leaseless {X : Site} {c c' : Core} {store : Bytes} (h : Unsigned X c store)
    (hlease : c'.cache.lease = none) : Unsigned X c' store := by
  refine ⟨fun l hl => ?_, h.stored⟩
  rw [hlease] at hl
  cases hl

theorem Unsigned.cleared {X : Site} {c : Core} {store : Bytes} (h : Unsigned X c store) :
    Unsigned X c [] := by
  refine ⟨h.cached, fun l hl => ?_⟩
  simp [storedLease, decodeStore] at hl

def UnsignedWorld (X : Site) (w : World) : Prop := Unsigned X w.core w.store

namespace Client
variable {X : Site} {E : Env}

theorem unsigned_saveCache : Keeps (UnsignedWorld X) (saveCache E) := by
  intro w hw
  rw [UnsignedWorld, saveCache_core, saveCache_store]
  exact hw.saved E _

/-- What is persisted without a trusted lease leaves none behind. -/
theorem unsigned_persist (d : PersistData) (hd : ∀ l, d.lease = some l → X.trusts l = false) :
    Keeps (UnsignedWorld X) (persist E d) := by
  intro w hw
  rw [UnsignedWorld, persist_core, persist_store]
  have hmerge : Unsigned X { w.core with cache := d.merge w.core.cache } w.store := by
    cases hl : d.lease with
    | none => exact hw.congr (by simp [PersistData.merge, hl])
    | some l =>
      refine ⟨fun l' hl' => ?_, hw.stored⟩
      have hsame : some l = some l' := by simpa [PersistData.merge, hl] using hl'
      cases hsame
      exact ⟨persistData_accepted hl, hd l hl⟩
  exact hmerge.saved E _

/-- The helpers keep a world without a trusted lease, as long as the leases they are given are not
trusted. -/
theorem unsigned_primitives :
    Primitives E (fun l => X.trusts l = false) (fun _ {_} p => Keeps (UnsignedWorld X) p) where
  quiet := by
    intro α p hp w hw
    have hidle := hp.run w
    rw [UnsignedWorld, hidle.core, hidle.store]
    exact hw
  free := .bind
  seq := .bind
  after := .bind
  weaken := id
  widen := id
  writeCache := fun f hf => .modify fun w hw => Unsigned.congr hw (hf _).1
  noteHardwareId := fun id => .atom fun w hw => by
    split
    · exact Unsigned.congr hw rfl
    · exact hw
  mint := .atom fun w hw => by
    split
    · exact hw
    · exact Unsigned.congr hw rfl
  stamp := .atom fun w hw => by
    split
    · exact hw
    · exact Unsigned.congr hw rfl
  saveCache := unsigned_saveCache
  anchor := by
    intro t w hw
    rw [UnsignedWorld, saveLastValidatedOnline_core, saveLastValidatedOnline_store]
    exact Unsigned.saved E _ (Unsigned.congr hw rfl)
  persist := fun d _ hd => unsigned_persist d hd
  clearLease := by
    intro w hw
    rw [UnsignedWorld, clearLease_core, clearLease_store]
    have hnone : Unsigned X { w.core with cache := { w.core.cache with lease := none } } w.store :=
      Unsigned.leaseless hw rfl
    exact hnone.saved E _
  setState := by
    intro s w hw
    rw [UnsignedWorld, setState_core, setState_store]
    exact Unsigned.congr hw rfl

/-- A deactivation brings in no lease. -/
theorem unsigned_deactivate : Keeps (UnsignedWorld X) (deactivate X E) := by
  have h : Primitives E _ _ := unsigned_primitives (X := X) (E := E)
  refine .bind (.read _) fun instanceId => .bind (.read _) fun licenseKey => ?_
  refine .bind (h.quiet (quiet_requestDeactivate X E _ _)) fun serverError => ?_
  refine .bind (.atom fun w hw => Unsigned.leaseless hw rfl) fun keepTrial => ?_
  have hstore : Keeps (UnsignedWorld X) (updateStore E keepTrial) := by
    cases keepTrial with
    | true => exact h.saveCache
    | false =>
      refine .atom fun w hw => ?_
      cases hc : E.clear w.ticks.clear with
      | none =>
        simp only [UnsignedWorld, outcome, isOk_ok, if_true]
        exact Unsigned.cleared hw
      | some e =>
        simp only [UnsignedWorld, outcome, isOk_error, Bool.false_eq_true, if_false]
        exact hw
  refine .bind hstore fun r => ?_
  cases r with
  | error e => exact .pure _
  | ok _ =>
    refine .bind (h.quiet (quiet_resolveWithTrial X E _)) fun s => .bind (h.setState s) fun _ => ?_
    cases serverError with
    | none => exact .pure _
    | some e => exact .pure _

/-- A launch over a store without a trusted lease holds none. -/
theorem unsigned_construct {w : World} (hw : UnsignedWorld X w) :
    UnsignedWorld X ((construct X E).run w).2 := by
  obtain ⟨i, k, n, h⟩ := construct_core X E w
  rw [UnsignedWorld, construct_store, h]
  refine ⟨fun l hl => ?_, hw.stored⟩
  cases hj : loadedJson E w with
  | none =>
    rw [hj] at hl
    cases hl
  | some j =>
    rw [hj] at hl
    have hlease : leaseOf j = some l := by simpa [launchedCore, loadCache] using hl
    refine ⟨leaseOf_accepted hlease, hw.stored l ?_⟩
    simp only [loadedJson] at hj
    split at hj
    · rw [storedLease, hj]
      exact hlease
    · cases hj

variable (X E)

theorem asked_unsigned {action : Bytes} {w u : World} (h : Asked X E action w u)
    (hw : UnsignedWorld X w) : UnsignedWorld X u := by
  have hnear := near_withHardwareId (E.hardwareId w.ticks.hardwareId) w.core.cache
  have hnoted : Unsigned X (notedCore E w) w.store := Unsigned.congr hw hnear.lease
  rw [UnsignedWorld, h.core, h.store, notedStore]
  split
  · exact hnoted.saved E _
  · exact hnoted

/-- A signed reply is evidence once it is asked for. -/
theorem asked_evidence {action : Bytes} {w u v : World} (h : Asked X E action w u)
    (hgrow : Grows u v) {resp : HttpResponse} (hreply : E.replyAt w.ticks.request = .ok resp)
    (hev : ∀ headers body, Signed X resp ∨
      Bare X ⟨ascii "POST", apiUrl X action, headers, body⟩ resp) : Evidence X v.log := by
  obtain ⟨headers, body, hmem⟩ := h.logged
  rw [hreply] at hmem
  exact ⟨_, resp, hgrow.subset hmem, hev headers body⟩

/-- What a call leaves that saw no evidence. -/
structure Locked (w : World) : Prop where
  unsigned : UnsignedWorld X w
  unpaid : w.core.rawState.paid = false

theorem resolvedAt_locked {s : State} (hs : s.paid = false) (c : Cache) (t : Int64) :
    (resolvedAt X c s t).paid = false := by
  by_cases hinvalid : s = .invalid
  · rw [hinvalid]
    exact resolvedAt_unpaid X c t
  · rw [resolvedAt_paid X c hinvalid]
    exact hs

/-- A verdict without a trusted lease makes no paid state. -/
theorem settled_locked {v : Verdict} {c c' : Core} (h : Settled X E v c c')
    (hf : Faithful v) (hv : ∀ l, v.lease = some l → X.trusts l = false)
    (hc : c.rawState.paid = false) : c'.rawState.paid = false := by
  cases h with
  | denied => rfl
  | rejected _ htrust =>
    rw [hv _ rfl] at htrust
    cases htrust
  | rejectedUntrusted => exact resolvedAt_unpaid X _ _
  | renewed _ htrust =>
    rw [hv _ hf] at htrust
    cases htrust
  | renewedUntrusted => exact resolvedAt_unpaid X _ _
  | leaseless => exact resolvedAt_locked X hc _ _

theorem gracedState_locked {c : Core} (hc : c.rawState.paid = false) (now lastLvo : Int64) :
    (gracedState X c now lastLvo).paid = false := by
  unfold gracedState
  split
  · rfl
  · exact hc

/-- Acting on such a verdict keeps the client locked. -/
theorem acted_locked {v : Verdict} {u z : World} (h : Acted X E v u z) (hf : Faithful v)
    (hv : ∀ l, v.lease = some l → X.trusts l = false) (hu : Locked X u) : Locked X z := by
  have hT : ∀ l, v.lease = some l → X.trusts l = true → X.trusts l = false :=
    fun l hl _ => hv l hl
  cases h with
  | validate =>
    refine ⟨unsigned_primitives.helpers.settleValidate hT (fun _ _ => trivial) _ hu.unsigned, ?_⟩
    by_cases hd : Decodable v
    · exact settled_locked X E (settleValidate_settled X E hd hf u) hf hv hu.unpaid
    · obtain rfl | rfl := not_decodable hd
      · rw [settleValidate, ((quiet_keepState E).run u).core]
        exact hu.unpaid
      · rw [settleValidate, Prog.run_bind, ((quiet_keepState E).run _).core,
          ((quiet_nowFn E).run u).core]
        exact hu.unpaid
  | reconcile k lastLvo =>
    refine ⟨unsigned_primitives.helpers.settleReconcile hT (fun _ _ => trivial) _ _ _
      hu.unsigned, ?_⟩
    by_cases hd : Decodable v
    · exact settled_locked X E (settleReconcile_settled X E hd hf _ _ u) hf hv hu.unpaid
    · obtain rfl | rfl := not_decodable hd
      · rw [settleReconcile, applyOfflineGrace_core]
        exact gracedState_locked X hu.unpaid _ _
      · rw [settleReconcile, applyOfflineGrace_core]
        exact gracedState_locked X hu.unpaid _ _

theorem Locked.idle {u z : World} (h : Locked X u) (hi : Idle u z) : Locked X z := by
  refine ⟨?_, ?_⟩
  · rw [UnsignedWorld, hi.core, hi.store]
    exact h.unsigned
  · rw [hi.core]
    exact h.unpaid

/-- The lease of a verdict stood in the body of its reply. -/
theorem validationVerdict_signed {r : Result HttpResponse} {l : Lease}
    (h : (validationVerdict r).lease = some l) :
    ∃ resp j, r = .ok resp ∧ Json.parse resp.body = .ok j ∧ leaseOf j = some l := by
  cases hv : validationVerdict r with
  | rejectedLease j l' =>
    rw [hv] at h
    cases h
    obtain ⟨resp, hreply, hbody, hl⟩ := validationVerdict_lease (.inl hv)
    exact ⟨resp, j, hreply, hbody, hl⟩
  | renewed j l' =>
    rw [hv] at h
    obtain ⟨resp, hreply, hbody, -⟩ := validationVerdict_lease (.inr hv)
    exact ⟨resp, j, hreply, hbody, h⟩
  | leaseless j =>
    rw [hv] at h
    obtain ⟨resp, hreply, -, hbody, -⟩ := validationVerdict_leaseless hv
    exact ⟨resp, j, hreply, hbody, h⟩
  | _ =>
    rw [hv] at h
    cases h

theorem resolveLocally_locked {w : World} (hw : Locked X w) :
    Locked X ((resolveLocally X E).run w).2 := by
  refine ⟨unsigned_primitives.helpers.resolveLocally _ hw.unsigned, ?_⟩
  obtain ⟨i, hcore⟩ := resolveLocally_core X E w
  rw [hcore]
  unfold resolvedCurrent
  split
  · exact hw.unpaid
  · exact resolvedAt_unpaid X _ _

/-- A validation without evidence in its history leaves the client locked. -/
theorem validating_locked {op : Op} (hop : op.validates) {w : World} (hw : Locked X w)
    (hev : ¬Evidence X ((op.code X E).run w).2.log) : Locked X ((op.code X E).run w).2 := by
  have hcode := op.code_validated X E hop w
  generalize ((op.code X E).run w).2 = w' at hev hcode
  obtain h | ⟨u, z, hask, hact, hz⟩ := hcode
  · cases h with
    | stopped hidle => exact hw.idle X hidle
    | keyless hkey hidle => exact resolveLocally_locked X E (hw.idle X hidle)
  · have hgrow : Grows u w' := (acted_grows hact).trans hz.grows
    have hv : ∀ l, (validationVerdict (E.replyAt w.ticks.request)).lease = some l →
        X.trusts l = false := by
      intro l hl
      obtain ⟨resp, j, hreply, hbody, hlease⟩ := validationVerdict_signed hl
      rw [Bool.eq_false_iff]
      intro htrust
      exact hev (asked_evidence X E hask hgrow hreply fun _ _ => .inl ⟨j, l, hbody, hlease, htrust⟩)
    have hu : Locked X u := by
      refine ⟨asked_unsigned X E hask hw.unsigned, ?_⟩
      rw [hask.core]
      exact hw.unpaid
    exact (acted_locked X E hact (validationVerdict_faithful _) hv hu).idle X hz

/-- A bare verdict is a 200 that activates and carries no lease. -/
theorem activationVerdict_bare {r : Result HttpResponse} {j : Json}
    (h : activationVerdict r = .bare j) : ∃ resp, r = .ok resp ∧ resp.status = 200 ∧
      Json.parse resp.body = .ok j ∧ (j.get (ascii "activated")).asBool = true ∧
      ¬0 < (j.get (ascii "lease")).size := by
  cases r with
  | error e => simp [activationVerdict] at h
  | ok resp =>
    simp only [activationVerdict] at h
    refine ⟨resp, rfl, ?_⟩
    split_ifs at h with hstatus
    cases hbody : Json.parse resp.body with
    | error e => simp [hbody] at h
    | ok j' =>
      simp only [hbody] at h
      split_ifs at h with hactivated hsize
      · cases hl : Lease.fromJson (j'.get (ascii "lease")) <;> simp [hl] at h
      · cases h
        refine ⟨by omega, rfl, ?_, hsize⟩
        simpa using hactivated

/-- The lease of an activation stood in the body of its reply. -/
theorem activationVerdict_leased {r : Result HttpResponse} {j : Json} {l : Lease}
    (h : activationVerdict r = .leased j l) : ∃ resp, r = .ok resp ∧
      Json.parse resp.body = .ok j ∧ leaseOf j = some l := by
  cases r with
  | error e => simp [activationVerdict] at h
  | ok resp =>
    simp only [activationVerdict] at h
    refine ⟨resp, rfl, ?_⟩
    split_ifs at h with hstatus
    cases hbody : Json.parse resp.body with
    | error e => simp [hbody] at h
    | ok j' =>
      simp only [hbody] at h
      split_ifs at h with hactivated hsize
      cases hl : Lease.fromJson (j'.get (ascii "lease")) with
      | error e => simp [hl] at h
      | ok l' =>
        simp only [hl, ActivationVerdict.leased.injEq] at h
        obtain ⟨rfl, rfl⟩ := h
        exact ⟨rfl, by simp [leaseOf, hsize, hl, Except.toOption]⟩

/-- An activation without evidence in its history leaves the client locked. -/
theorem activate_locked {w : World} (key : Bytes) (hw : Locked X w)
    (hev : ¬Evidence X ((activate X E key).run w).2.log) :
    Locked X ((activate X E key).run w).2 := by
  obtain ⟨u, hask, hrun⟩ := activate_run X E key w
  have hgrow : Grows u ((activate X E key).run w).2 := by
    rw [hrun]
    exact (growing_primitives.helpers.settleActivate (fun d _ => growing_persist d) key
      fun _ _ _ _ _ _ _ => trivial).run u
  have hsigned : ∀ resp j l, E.replyAt w.ticks.request = .ok resp →
      Json.parse resp.body = .ok j → leaseOf j = some l → X.trusts l = false := by
    intro resp j l hreply hbody hl
    rw [Bool.eq_false_iff]
    intro htrust
    exact hev (asked_evidence X E hask hgrow hreply fun _ _ => .inl ⟨j, l, hbody, hl, htrust⟩)
  have hu : UnsignedWorld X u := asked_unsigned X E hask hw.unsigned
  have hactivated := settleActivate_activated X E key (E.replyAt w.ticks.request) u
  rw [hrun]
  refine ⟨unsigned_primitives.helpers.settleActivate unsigned_persist key
    (fun resp j l hreply hbody hl _ => hsigned resp j l hreply hbody hl) _ hu, ?_⟩
  generalize hv : activationVerdict (E.replyAt w.ticks.request) = v at hactivated
  have hunpaid : u.core.rawState.paid = false := by
    rw [hask.core]
    exact hw.unpaid
  generalize ((settleActivate X E key (E.replyAt w.ticks.request)).run u).2.core = c at hactivated
  cases hactivated with
  | refused => exact hunpaid
  | bare _ j =>
    obtain ⟨resp, hreply, hstatus, hbody, ha, hsize⟩ := activationVerdict_bare hv
    exact absurd (asked_evidence X E hask hgrow hreply
      fun _ _ => .inr ⟨rfl, hstatus, j, hbody, ha, hsize⟩) hev
  | leased _ htrust =>
    obtain ⟨resp, hreply, hbody, hl⟩ := activationVerdict_leased hv
    rw [hsigned resp _ _ hreply hbody hl] at htrust
    cases htrust
  | untrusted => exact resolvedAt_unpaid X _ _

/-- A launch over a store without a trusted lease begins locked. -/
theorem construct_locked {w : World} (hw : UnsignedWorld X w) :
    Locked X ((construct X E).run w).2 := by
  refine ⟨unsigned_construct hw, ?_⟩
  obtain ⟨i, k, n, hcore⟩ := construct_core X E w
  rw [hcore]
  cases hj : loadedJson E w with
  | none => rfl
  | some j =>
    have hpaid : storedPaid X (leaseOf j) (E.now i) = .invalid := by
      cases hl : leaseOf j with
      | none => rfl
      | some l =>
        have hcached := (unsigned_construct (E := E) hw).cached l
        rw [hcore, hj] at hcached
        have hlease : (loadCache j {}).lease = some l := by simp [loadCache, hl]
        exact leaseState_untrusted (hcached hlease).2 _
    simp only [launchedCore, hpaid]
    have hbound : boundedAt X .invalid (loadCache j {}).lastValidatedOnline (E.now k) =
        .invalid := by simp [boundedAt]
    rw [hbound]
    exact resolvedAt_unpaid X _ _

theorem deactivate_locked {w : World} (hw : Locked X w) :
    Locked X ((deactivate X E).run w).2 := by
  refine ⟨unsigned_deactivate _ hw.unsigned, ?_⟩
  obtain h | ⟨i, h⟩ := deactivate_core X E w
  · rw [h]
    exact hw.unpaid
  · rw [h]
    exact resolvedAt_unpaid X _ _

/-- What a keyless call does locally makes no paid state. -/
theorem local_unpaid {reply : Result HttpResponse} {c c' : Core} (h : Local X E reply c c')
    (hc : c.rawState.paid = false) : c'.rawState.paid = false := by
  have hcurrent : ∀ cache t, (resolvedCurrent X cache c.rawState t).paid = false := by
    intro cache t
    unfold resolvedCurrent
    split
    · exact hc
    · exact resolvedAt_unpaid X _ _
  cases h with
  | kept => exact hc
  | resolved => exact hcurrent _ _
  | configured => exact hcurrent _ _
  | stamped => exact hcurrent _ _

/-- The keyless calls leave the client locked. -/
theorem keyless_locked {op : Op} (hop : op.keyless ∨ op = .freeTierInstanceId) {w : World}
    (hw : Locked X w) : Locked X (op.exec X E w) := by
  refine ⟨unsigned_primitives.helpers.keyless hop (fun _ _ _ _ _ _ => trivial) _ hw.unsigned, ?_⟩
  have houtcome := op.exec_outcome X E w
  generalize (op.exec X E w).core = c at houtcome
  cases houtcome with
  | kept h => exact hw.unpaid
  | keyless hop h => exact local_unpaid X E h hw.unpaid
  | settled hv h => cases op <;> simp_all [Op.keyless, Op.validates]
  | graced hv => cases op <;> simp_all [Op.keyless, Op.graces]
  | resolved hv => cases op <;> simp_all [Op.keyless, Op.graces]
  | blank => simp [Op.keyless] at hop
  | launched => simp [Op.keyless] at hop
  | activated => simp [Op.keyless] at hop
  | reset => simp [Op.keyless] at hop

end Client

open Client in
/-- A call that sees no evidence leaves a locked client locked. -/
theorem Op.exec_locked (X : Site) (E : Env) (op : Op) {w : World} (hw : Locked X w)
    (hev : ¬Evidence X (op.exec X E w).log) : Locked X (op.exec X E w) := by
  have hw₀ : Locked X { w with ticks := {} } := ⟨hw.unsigned, hw.unpaid⟩
  cases op with
  | relaunch => exact construct_locked X E hw₀.unsigned
  | activate key =>
    simp only [Op.exec, Op.code, Prog.run_bind, Prog.run_pure] at hev ⊢
    exact activate_locked X E key hw₀ hev
  | deactivate =>
    simp only [Op.exec, Op.code, Prog.run_bind, Prog.run_pure]
    exact deactivate_locked X E hw₀
  | validate => exact validating_locked X E rfl hw₀ hev
  | checkOnLaunch => exact validating_locked X E rfl hw₀ hev
  | refreshIfNeeded => exact validating_locked X E rfl hw₀ hev
  | activeRevalidate => exact validating_locked X E rfl hw₀ hev
  | startTrial => exact keyless_locked X E (.inl rfl) hw
  | fetchConfig => exact keyless_locked X E (.inl rfl) hw
  | freeTierInstanceId => exact keyless_locked X E (.inr rfl) hw
  | reportKeylessState s => exact keyless_locked X E (.inl rfl) hw

open Client in
/-- Over every run from a store without a trusted lease, a paid state means that an earlier
reply was signed, or activated the client without any lease. -/
theorem paid_signed (X : Site) (store : Bytes) (calls : List Call) (t : Int64)
    (hstore : ∀ l, storedLease store = some l → X.trusts l = false)
    (h : stateAt (history X store calls).client t = .licensed ∨
      stateAt (history X store calls).client t = .limited) :
    ∃ req resp, Event.exchange req (.ok resp) ∈ (history X store calls).log ∧
      (Signed X resp ∨ Bare X req resp) := by
  have hstart : Locked X { store } := by
    refine ⟨⟨?_, hstore⟩, rfl⟩
    intro l hl
    cases hl
  have hrun : Evidence X (history X store calls).log ∨ Locked X (history X store calls) := by
    apply Runs.runAll_keeps (I := fun w => Evidence X w.log ∨ Locked X w) _ (.inr hstart)
    intro call _ w hw
    by_cases hev : Evidence X (perform X call w).log
    · exact .inl hev
    · obtain hlog | hlocked := hw
      · have hgrow : Grows { w with ticks := {} } (perform X call w) :=
          (call.1.growing_code X call.2).run _
        exact .inl (Evidence.mono hlog hgrow)
      · exact .inr (call.1.exec_locked X call.2 hlocked hev)
  obtain hev | hlocked := hrun
  · exact hev
  · have hunpaid := stateAt_unpaid hlocked.unpaid t
    obtain h | h := h
    · exact absurd h hunpaid.1
    · exact absurd h hunpaid.2

/-- A server that answers every request with a bare activation. -/
def activatingEnv : Env := repliesAt 1781076300 ⟨200, ascii "\x7b\"activated\":true\x7d", []⟩

def activatingCalls : List Call :=
  [(.relaunch, offlineAt 1781076300), (.activate (ascii "KEY1"), activatingEnv)]

theorem activatingCalls_licensed : Client.stateAt
    (history Client.plainSite [] activatingCalls).client 1781076300 = .licensed := by
  decide +kernel

/-- Without any trusted key an activation with no lease object licenses the client. -/
theorem bare_activation_licenses : ¬∀ (X : Site) (store : Bytes) (calls : List Call) (t : Int64),
    (∀ l, storedLease store = some l → X.trusts l = false) →
    (Client.stateAt (history X store calls).client t = .licensed ∨
      Client.stateAt (history X store calls).client t = .limited) →
    ∃ req resp, Event.exchange req (.ok resp) ∈ (history X store calls).log ∧ Signed X resp := by
  intro h
  obtain ⟨req, resp, -, j, l, -, -, htrust⟩ := h Client.plainSite [] activatingCalls 1781076300
    (by intro l hl; cases hl) (.inl activatingCalls_licensed)
  cases htrust

theorem paid_signed_bare :
    ∃ req resp, Event.exchange req (.ok resp) ∈
      (history Client.plainSite [] activatingCalls).log ∧
      (Signed Client.plainSite resp ∨ Bare Client.plainSite req resp) :=
  paid_signed Client.plainSite [] activatingCalls 1781076300 (by intro l hl; cases hl)
    (.inl activatingCalls_licensed)

end Keylight
