import Keylight.Revocation

/-!
# The two validations

`validate` and `validateAndReconcile` are written separately and read the clock
at different points. Under a constant clock their runs go side by side: the
relation `Agree` forgets the clock readings taken, the history and the event
dedupe, and every helper keeps it.
-/
namespace Keylight
open Bytes Sections

/-- Two worlds with the same cache, raw state, anchor, store and remaining inputs. -/
structure Agree (w v : World) : Prop where
  cache : w.client.cache = v.client.cache
  rawState : w.client.rawState = v.client.rawState
  anchor : w.client.anchor = v.client.anchor
  lastSeenExpiry : w.client.lastSeenExpiry = v.client.lastSeenExpiry
  store : w.store = v.store
  request : w.ticks.request = v.ticks.request
  hardwareId : w.ticks.hardwareId = v.ticks.hardwareId
  requestId : w.ticks.requestId = v.ticks.requestId
  save : w.ticks.save = v.ticks.save

theorem Agree.refl (w : World) : Agree w w := ⟨rfl, rfl, rfl, rfl, rfl, rfl, rfl, rfl, rfl⟩

theorem Agree.symm {w v : World} (h : Agree w v) : Agree v w :=
  ⟨h.cache.symm, h.rawState.symm, h.anchor.symm, h.lastSeenExpiry.symm, h.store.symm,
    h.request.symm, h.hardwareId.symm, h.requestId.symm, h.save.symm⟩

theorem Agree.trans {u w v : World} (h₁ : Agree u w) (h₂ : Agree w v) : Agree u v :=
  ⟨h₁.cache.trans h₂.cache, h₁.rawState.trans h₂.rawState, h₁.anchor.trans h₂.anchor,
    h₁.lastSeenExpiry.trans h₂.lastSeenExpiry, h₁.store.trans h₂.store,
    h₁.request.trans h₂.request, h₁.hardwareId.trans h₂.hardwareId,
    h₁.requestId.trans h₂.requestId, h₁.save.trans h₂.save⟩

namespace Client
variable (X : Site) (E : Env)

theorem agree_readCache (f : Cache → α) : Relates Agree (readCache f) (readCache f) :=
  .read fun _ _ h => congrArg f h.cache

theorem agree_writeCache (f : Cache → Cache) (events : List Event) :
    Relates Agree (writeCache f events) (writeCache f events) :=
  .modify fun _ _ h => { h with cache := congrArg f h.cache }

theorem agree_loadState : Relates Agree loadState loadState :=
  .read fun _ _ h => h.rawState

theorem agree_storeState (s : State) : Relates Agree (storeState s) (storeState s) :=
  .modify fun _ _ h => { h with rawState := rfl }

theorem agree_storeAnchor (t : Int64) : Relates Agree (storeAnchor t) (storeAnchor t) :=
  .modify fun _ _ h => { h with anchor := rfl }

theorem agree_saveCache : Relates Agree (saveCache E) (saveCache E) := by
  intro w v h
  simp only [saveCache, lockSave, unlockSave, storeSave, Prog.run_bind, Prog.run_await,
    Prog.run_atom, Prog.run_modify, Prog.run_pure, h.cache, h.save, h.store, true_and]
  exact { h with store := rfl, save := rfl }

theorem agree_requestLoop (req req' : HttpRequest) (left attempt : Nat)
    (last : Result HttpResponse) :
    Relates Agree (requestLoop E req left attempt last) (requestLoop E req' left attempt last) := by
  induction left generalizing attempt last with
  | zero => exact .pure _
  | succ left ih =>
    refine .bind (.atom fun w v h => ⟨congrArg E.request h.request, ?_⟩) fun last => ?_
    · exact { h with request := congrArg (· + 1) h.request }
    · refine .ite (.pure _) (.ite (.pure _) (.bind (.modify fun w v h => ?_) fun _ => ih _ _))
      exact { h with }

theorem agree_noteHardwareId (id : Bytes) :
    Relates Agree (noteHardwareId id) (noteHardwareId id) := by
  refine .atom fun w v h => ?_
  simp only [h.cache]
  split
  · exact ⟨rfl, { h with cache := rfl }⟩
  · exact ⟨rfl, h⟩

theorem agree_cachedHardwareIdValue :
    Relates Agree (cachedHardwareIdValue E) (cachedHardwareIdValue E) := by
  refine .bind (.atom fun w v h => ⟨congrArg E.hardwareId h.hardwareId, ?_⟩) fun live => ?_
  · exact { h with hardwareId := congrArg (· + 1) h.hardwareId }
  · cases nonEmpty live with
    | none => exact agree_readCache _
    | some id =>
      refine .bind (agree_noteHardwareId id) fun changed => ?_
      exact .ite (.bind (agree_saveCache E) fun _ => .pure _) (.pure _)

theorem agree_validateRequest (licenseKey instanceId : Bytes) :
    Relates Agree (validateRequest X E licenseKey instanceId)
      (validateRequest X E licenseKey instanceId) := by
  refine .bind (.bind (.pure _) fun _ => ?_) fun fields => .bind ?_ fun headers => ?_
  · refine .bind (.bind (agree_cachedHardwareIdValue E) fun _ => .pure _) fun _ => .pure _
  · refine .bind (.atom fun w v h => ⟨congrArg E.requestId h.requestId, ?_⟩) fun _ => .pure _
    exact { h with requestId := congrArg (· + 1) h.requestId }
  · exact agree_requestLoop E _ _ _ _ _

theorem agree_persist (d : PersistData) : Relates Agree (persist E d) (persist E d) :=
  .bind (agree_writeCache _ _) fun _ => .bind (agree_saveCache E) fun _ => .pure _

theorem agree_saveLastValidatedOnline (t : Int64) :
    Relates Agree (saveLastValidatedOnline E t) (saveLastValidatedOnline E t) :=
  .bind (agree_writeCache _ _) fun _ => .bind (agree_storeAnchor t) fun _ =>
    .bind (agree_saveCache E) fun _ => .pure _

theorem agree_clearLease : Relates Agree (clearLease E) (clearLease E) :=
  .bind (agree_writeCache _ _) fun _ => .bind (agree_saveCache E) fun _ => .pure _

theorem nowFn_self (w : World) : Agree ((nowFn E).run w).2 w := by
  rw [nowFn, Prog.run_atom]
  exact { Agree.refl w with }

theorem clockUntrusted_self (w : World) : Agree ((clockUntrusted E).run w).2 w := by
  simp only [clockUntrusted, Prog.run_bind, Prog.run_read, Prog.run_ite]
  split
  · exact nowFn_self E w
  · exact .refl w

theorem state_self (w : World) : Agree ((state E).run w).2 w := by
  simp only [state, loadState, Prog.run_bind, Prog.run_ite]
  split
  · exact clockUntrusted_self E w
  · exact clockUntrusted_self E w

/-- The event dedupe is outside the relation. -/
theorem notify_self (w : World) : Agree ((notify E).run w).2 w := by
  have hs := state_self E ((lockNotify E).run w).2
  have hl : Agree ((lockNotify E).run w).2 w := by
    rw [lockNotify, Prog.run_await]
    exact { Agree.refl w with }
  simp only [notify, unlockNotify, Prog.run_bind, Prog.run_modify]
  refine Agree.trans ?_ (hs.trans hl)
  split
  · exact { Agree.refl _ with }
  · exact { Agree.refl _ with }

theorem agree_notify : Relates Agree (notify E) (notify E) := fun w v h =>
  ⟨Subsingleton.elim _ _, (notify_self E w).trans (h.trans (notify_self E v).symm)⟩

theorem agree_setState (s : State) : Relates Agree (setState E s) (setState E s) := by
  refine .bind agree_loadState fun prev => .bind (agree_readCache _) fun expiry => ?_
  refine .bind (.atom fun w v h => ⟨congrArg (movedLater expiry) h.lastSeenExpiry, ?_⟩)
    fun later => ?_
  · exact { h with lastSeenExpiry := rfl }
  · refine .bind (agree_storeState s) fun _ => .bind (agree_notify E) fun _ => ?_
    cases lifecycleEvent prev s later with
    | none => exact .pure _
    | some ev => exact .modify fun w v h => { h with }

theorem agree_revoke : Relates Agree (revoke E) (revoke E) :=
  .bind (agree_clearLease E) fun _ => .bind (agree_setState E _) fun _ => .pure _

section
variable {E} {t : Int64} (hE : ∀ i, E.now i = t)
include hE

theorem agree_nowFn : Relates Agree (nowFn E) (nowFn E) :=
  .atom fun w v h => ⟨by rw [hE, hE], { h with }⟩

theorem nowFn_left (w v : World) (h : Agree w v) :
    ((nowFn E).run w).1 = t ∧ Agree ((nowFn E).run w).2 v :=
  ⟨hE _, (nowFn_self E w).trans h⟩

theorem agree_report (s : State) : Relates Agree (report E s) (report E s) := by
  refine .bind (.bind (.read fun w v h => h.anchor) fun anchor => .ite ?_ (.pure _)) fun _ => ?_
  · exact .bind (agree_nowFn hE) fun _ => .pure _
  · exact .ite (.pure _) (.pure _)

theorem agree_checkTrial : Relates Agree (checkTrial X E) (checkTrial X E) := by
  refine .bind (agree_readCache _) fun duration => .ite (.pure _) ?_
  refine .bind (agree_readCache _) fun start => ?_
  cases start with
  | none => exact .pure _
  | some _ =>
    exact .bind (.bind (agree_nowFn hE) fun _ => .pure _) fun _ => .ite (.pure _) (.pure _)

theorem agree_resolveWithTrial (s : State) :
    Relates Agree (resolveWithTrial X E s) (resolveWithTrial X E s) := by
  refine .ite (.pure _) (.bind (agree_checkTrial X hE) fun trial => ?_)
  cases trial with
  | active => exact .pure _
  | expired => exact .bind (agree_readCache _) fun _ => .pure _
  | notStarted => exact .bind (agree_readCache _) fun _ => .pure _

theorem agree_resolveFromLease (lease : Option Lease) :
    Relates Agree (resolveFromLease X E lease) (resolveFromLease X E lease) := by
  cases lease with
  | none => exact agree_loadState
  | some l =>
    refine .bind (agree_nowFn hE) fun now => .ite (.pure _) (.ite (.pure _) (.ite (.pure _) ?_))
    exact .pure _

theorem agree_verifyConfig (j : Json) :
    Relates Agree (verifyConfig X E j) (verifyConfig X E j) := by
  refine .ite (.pure _) (.ite (.pure _) (.ite (.pure _) ?_))
  cases X.cfg.trustedKeys.lookup (j.get (ascii "kid")).asString with
  | none => exact .pure _
  | some pub => exact .bind (agree_nowFn hE) fun _ => .ite (.pure _) (.ite (.pure _) (.pure _))

theorem agree_applyConfigFields (j : Json) :
    Relates Agree (applyConfigFields X E j) (applyConfigFields X E j) := by
  refine .ite (.pure _) (.bind (agree_verifyConfig X hE j) fun vr => .ite (.pure _) ?_)
  exact .bind (agree_writeCache _ _) fun _ => .bind (agree_saveCache E) fun _ => .pure _

theorem agree_resolveAndSet (lease : Option Lease) : Relates Agree
    (do let paid ← resolveFromLease X E lease
        let newState ← resolveWithTrial X E paid
        setState E newState
        report E newState)
    (do let paid ← resolveFromLease X E lease
        let newState ← resolveWithTrial X E paid
        setState E newState
        report E newState) :=
  .bind (agree_resolveFromLease X hE lease) fun paid =>
    .bind (agree_resolveWithTrial X hE paid) fun newState =>
      .bind (agree_setState E newState) fun _ => agree_report hE newState

/-- A decoded 200 reply: the anchor read late and the anchor read at entry are the same. -/
theorem agree_validateReply (j : Json) :
    Relates Agree (validateReply X E j) (reconcileReply X E j t >>= report E) := by
  have htail := agree_resolveAndSet X hE (leaseOf j)
  unfold validateReply reconcileReply
  rw [bind_assoc]
  refine .bind (agree_applyConfigFields X hE j) fun _ => ?_
  cases hl : leaseOf j with
  | none =>
    rw [hl] at htail
    simpa only [bind_assoc, pure_bind] using htail
  | some l =>
    rw [hl] at htail
    simp only [bind_assoc]
    refine .bind (agree_nowFn hE) fun now => ?_
    by_cases ht : (X.verify l now).isTrusted = true
    · simp only [if_pos ht, bind_assoc, pure_bind]
      refine .bind (agree_readCache _) fun iid => .bind (agree_persist E _) fun _ => ?_
      refine .bind_left t (nowFn_left hE) ?_
      exact .bind (agree_saveLastValidatedOnline E t) fun _ => htail
    · simpa only [if_neg ht, bind_assoc, pure_bind] using htail

/-- The handler of a 422 with a lease is shared. -/
theorem agree_rejectWithLease (j : Json) (l : Lease) :
    Relates Agree (rejectWithLease X E j l t) (rejectWithLease X E j l t) := by
  have htail : Relates Agree
      (do let paid ← resolveFromLease X E (some l)
          let newState ← resolveWithTrial X E paid
          setState E newState
          pure newState)
      (do let paid ← resolveFromLease X E (some l)
          let newState ← resolveWithTrial X E paid
          setState E newState
          pure newState) :=
    .bind (agree_resolveFromLease X hE _) fun paid =>
      .bind (agree_resolveWithTrial X hE paid) fun newState =>
        .bind (agree_setState E newState) fun _ => .pure _
  unfold rejectWithLease
  refine .ite ?_ ?_
  · exact .bind (agree_readCache _) fun iid => .bind (agree_persist E _) fun _ =>
      .bind (agree_saveLastValidatedOnline E t) fun _ => htail
  · exact htail

/-- Whatever the verdict, the two handlers go side by side. -/
theorem agree_settle (v : Verdict) (lastLvo : Int64) (h : Decodable v) : Relates Agree
    (settleValidate X E v) (settleReconcile X E t lastLvo v >>= report E) := by
  cases v with
  | transient => exact absurd rfl h.1
  | undecodable => exact absurd rfl h.2
  | denied =>
    refine .bind_left t (nowFn_left hE) ?_
    exact .bind (agree_revoke E) fun s => agree_report hE s
  | rejectedLease j l =>
    refine .bind_left t (nowFn_left hE) ?_
    exact .bind (agree_rejectWithLease X hE j l) fun s => agree_report hE s
  | renewed j l => exact agree_validateReply X hE j
  | leaseless j => exact agree_validateReply X hE j

end

theorem settle_decodable {r : Result HttpResponse} {resp : HttpResponse} {j : Json}
    (hreply : r = .ok resp) (hstatus : resp.status = 200 ∨ resp.status = 422)
    (hbody : Json.parse resp.body = .ok j) : Decodable (validationVerdict r) := by
  subst hreply
  obtain h | h := hstatus <;> cases hl : leaseOf j <;>
    simp [validationVerdict, Decodable, h, hbody, hl]

/-- Both validations, run from one world under a constant clock, leave the same cache, store, anchor
and state, and report the same result, where the reply that the retries end with is decodable. -/
theorem validate_eq_validateAndReconcile (t : Int64) (w : World) (resp : HttpResponse) (j : Json)
    (hnow : ∀ i, E.now i = t) (hreply : E.replyAt w.ticks.request = .ok resp)
    (hstatus : resp.status = 200 ∨ resp.status = 422) (hbody : Json.parse resp.body = .ok j) :
    let a := (validate X E).run w
    let b := (validateAndReconcile X E >>= reportResult E).run w
    a.1 = b.1 ∧ a.2.client.cache = b.2.client.cache ∧ a.2.store = b.2.store ∧
      a.2.client.anchor = b.2.client.anchor ∧ a.2.client.rawState = b.2.client.rawState ∧
      ∀ now, stateAt a.2.client now = stateAt b.2.client now := by
  intro a b
  have hw₁ := notify_self E w
  have ha : a = (validateRequest X E (w.client.cache.licenseKey.getD [])
      (w.client.cache.instanceId.getD []) >>= fun hr =>
        settleValidate X E (validationVerdict hr)).run ((notify E).run w).2 := by
    simp only [a, validate_eq]
    rw [Prog.run_bind, ← hw₁.cache]
    rfl
  have hb : b = (validateRequest X E (w.client.cache.licenseKey.getD [])
      (w.client.cache.instanceId.getD []) >>= fun hr =>
        settleReconcile X E t w.client.cache.lastValidatedOnline (validationVerdict hr) >>=
          report E).run ((nowFn E).run w).2 := by
    have ht : ((nowFn E).run w).1 = t := hnow _
    simp only [b, validateAndReconcile_eq, bind_assoc, bind_map_left]
    rw [Prog.run_bind, ht]
    rfl
  have hv := settle_decodable hreply hstatus hbody
  rw [← hw₁.request, ← validateRequest_reply X E (w.client.cache.licenseKey.getD [])
    (w.client.cache.instanceId.getD [])] at hv
  obtain ⟨hresult, h⟩ : a.1 = b.1 ∧ Agree a.2 b.2 := by
    rw [ha, hb]
    exact Relates.bind_at (agree_validateRequest X E _ _) (hw₁.trans (nowFn_self E w).symm)
      (agree_settle X hnow _ _ hv)
  refine ⟨hresult, h.cache, h.store, h.anchor, h.rawState, fun now => ?_⟩
  rw [stateAt, stateAt, untrustedAt, untrustedAt, h.anchor, h.rawState]

/-- The first attempt fails, and the second one is answered with the stored lease. -/
def retriedEnv : Env where
  now _ := 1781076300
  request i := if i = 0 then .ok ⟨503, [], []⟩ else .ok (leaseReply 200 vectorLease)

theorem validate_eq_validateAndReconcile_retried :
    let a := (validate vectorSite retriedEnv).run vectorWorld
    let b :=
      (validateAndReconcile vectorSite retriedEnv >>= reportResult retriedEnv).run vectorWorld
    a.1 = b.1 ∧ a.2.client.cache = b.2.client.cache ∧ a.2.store = b.2.store ∧
      a.2.client.anchor = b.2.client.anchor ∧ a.2.client.rawState = b.2.client.rawState ∧
      ∀ now, stateAt a.2.client now = stateAt b.2.client now := by
  have hfirst : vectorWorld.ticks.request = 0 := by decide +kernel
  exact validate_eq_validateAndReconcile vectorSite retriedEnv 1781076300 vectorWorld
    (leaseReply 200 vectorLease) _ (fun _ => rfl) (by rw [hfirst]; rfl) (.inl rfl)
    (leaseReply_parse 200 vectorLease)

end Client
end Keylight
