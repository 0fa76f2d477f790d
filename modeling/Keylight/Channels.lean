import Keylight.Events
import Keylight.OfflineLaunch
import Keylight.Writes

/-!
# The three channels

A caller learns the state from the value an operation returns, from `state()`
and from the queued events. Under a constant clock the three agree:
`channels_agree` compares the first two after every operation that returns a
state, and the events after the two that poll the guard.
-/
namespace Keylight
open Bytes Sections Runs Client

/-- A section whose events show nothing new. -/
theorem Tracks.unshown {w v : World} {l : List Event} (hlog : v.log = w.log ++ l)
    (hshown : ∀ s, lastQueued s l = s) (hreported : v.client.lastReported = w.client.lastReported) :
    Tracks w v := ⟨l, hlog, by rw [hshown, hreported]⟩

theorem Tracks.silent {w v : World} (hlog : v.log = w.log)
    (hreported : v.client.lastReported = w.client.lastReported) : Tracks w v :=
  .unshown (l := []) (by rw [hlog, List.append_nil]) (fun _ => rfl) hreported

theorem lastQueued_persist (d : PersistData) (s : State) : lastQueued s d.events = s := by
  unfold PersistData.events
  cases d.lease <;> cases d.licenseKey <;> rfl

section Tracking
variable (X : Site) (E : Env)

theorem tracks_saveCache : Each Tracks (fun _ => True) (saveCache E) := by
  refine .bind (Each.await (Q := fun _ => True) (fun w => .silent rfl rfl) trivial) fun _ _ => ?_
  refine .bind (Each.atom (Q := fun _ => True) fun w => ⟨?_, trivial⟩) fun blob _ => ?_
  · exact .unshown (l := [.snapshot]) rfl (fun _ => rfl) rfl
  refine .bind (Each.atom (Q := fun _ => True) fun w => ⟨?_, trivial⟩) fun r _ => ?_
  · exact .unshown (l := [.saved blob _]) rfl (fun _ => rfl) rfl
  exact .bind (Each.modify (Q := fun _ => True) (fun w => .silent rfl rfl) trivial)
    fun _ _ => trivial

theorem tracks_writeCache (f : Cache → Cache) {es : List Event} (hes : ∀ s, lastQueued s es = s) :
    Each Tracks (fun _ => True) (writeCache f es) :=
  Each.modify (fun _ => .unshown rfl hes rfl) trivial

theorem tracks_writeAndSave (f : Cache → Cache) {es : List Event}
    (hes : ∀ s, lastQueued s es = s) : Each Tracks (fun _ => True) (do
      writeCache f es
      let _ ← saveCache E
      pure () : Code Unit) :=
  .bind (tracks_writeCache f hes) fun _ _ => .bind (tracks_saveCache E) fun _ _ => trivial

theorem tracks_setState (s : State) : Each Tracks (fun _ => True) (setState E s) :=
  each_setState E s Idle.tracks fun _ =>
    .unshown (l := [.stateStored s]) rfl (fun _ => rfl) rfl

/-- The dedupe follows what is queued, across every helper. -/
theorem tracks_primitives :
    Primitives E (fun _ => True) (fun _ {_} p => Each Tracks (fun _ => True) p) where
  quiet := fun hp => hp.each Idle.tracks
  free := fun hp hk => .bind hp fun a _ => hk a
  seq := fun hp hk => .bind hp fun a _ => hk a
  after := fun hp hk => .bind hp fun a _ => hk a
  weaken := id
  widen := id
  writeCache := fun f _ => tracks_writeCache f fun _ => rfl
  noteHardwareId := fun id => Each.atom fun w => by
    split
    · exact ⟨.silent rfl rfl, trivial⟩
    · exact ⟨.refl w, trivial⟩
  mint := Each.atom fun w => by
    split
    · exact ⟨.refl w, trivial⟩
    · exact ⟨.silent rfl rfl, trivial⟩
  stamp := Each.atom fun w => by
    split
    · exact ⟨.refl w, trivial⟩
    · exact ⟨.silent rfl rfl, trivial⟩
  saveCache := tracks_saveCache E
  anchor := fun t => by
    refine .bind (tracks_writeCache _ fun _ => rfl) fun _ _ => ?_
    refine .bind (Each.modify (Q := fun _ => True) (fun _ => .silent rfl rfl) trivial) fun _ _ => ?_
    exact .bind (tracks_saveCache E) fun _ _ => trivial
  persist := fun d _ _ => tracks_writeAndSave E d.merge (lastQueued_persist d)
  clearLease := tracks_writeAndSave E _ fun _ => rfl
  setState := tracks_setState E

/-- It does so across a deactivation. -/
theorem tracks_deactivate : Each Tracks (fun _ => True) (deactivate X E) := by
  have hquiet : ∀ {α : Type} {p : Code α}, Quiet p → Each Tracks (fun _ => True) p :=
    fun hp => hp.each Idle.tracks
  have hstore : ∀ keepTrial, Each Tracks (fun _ => True) (updateStore E keepTrial) := by
    intro keepTrial
    cases keepTrial with
    | true => exact tracks_saveCache E
    | false =>
      refine Each.atom fun w => ⟨?_, trivial⟩
      exact .unshown (l := [.cleared _]) rfl (fun _ => rfl) rfl
  refine .bind (hquiet (.read _)) fun instanceId _ => .bind (hquiet (.read _)) fun key _ => ?_
  refine .bind (hquiet (quiet_requestDeactivate X E key instanceId)) fun serverError _ => ?_
  refine .bind (Each.atom (Q := fun _ => True) fun w => ⟨?_, trivial⟩) fun keepTrial _ => ?_
  · exact .unshown (l := [.paidReset]) rfl (fun _ => rfl) rfl
  refine .bind (hstore keepTrial) fun r _ => ?_
  cases r with
  | error e => exact trivial
  | ok _ =>
    refine .bind (hquiet (quiet_resolveWithTrial X E .invalid)) fun s _ => ?_
    refine .bind (tracks_setState E s) fun _ _ => ?_
    cases serverError with
    | some e => exact trivial
    | none => exact trivial

theorem Op.code_tracks {op : Op} (hop : op ≠ .relaunch) :
    Each Tracks (fun _ => True) (op.code X E) := by
  by_cases hd : op = .deactivate
  · rw [hd]
    exact .bind (tracks_deactivate X E) fun _ _ => trivial
  · refine (tracks_primitives E).helpers.code (fun _ => trivial) (fun d => ?_) ?_ hop hd
    · exact tracks_writeAndSave E d.merge (lastQueued_persist d)
    · exact fun _ _ _ _ _ _ => trivial

/-- Every call but a relaunch tracks what it queues. -/
theorem Op.exec_tracks {op : Op} (hop : op ≠ .relaunch) (w : World) :
    Tracks w (op.exec X E w) :=
  Tracks.trans (v := { w with ticks := {} }) (.silent rfl rfl)
    ((op.code_tracks X E hop).run Tracks.refl (fun _ _ _ => Tracks.trans) _).1

end Tracking

theorem tracks_calls (X : Site) {calls : List Call} (hlive : ∀ call ∈ calls, call.1 ≠ .relaunch)
    (w : World) : Tracks w (runAll (perform X) calls w) := by
  refine runAll_keeps (I := Tracks w) (fun call hmem v hv => ?_) (.refl w)
  exact hv.trans (call.1.exec_tracks X call.2 (hlive call hmem) v)

/-- The operations that answer with a state. -/
def Op.answer (X : Site) (E : Env) : Op → Option (Code (Result State))
  | .activate key => some (Client.activate X E key)
  | .validate => some (Client.validate X E)
  | .startTrial => some (Client.startTrial X E)
  | .checkOnLaunch => some (Client.checkOnLaunch X E)
  | .refreshIfNeeded => some (Client.refreshIfNeeded X E)
  | _ => none

theorem Op.code_answer {X : Site} {E : Env} {op : Op} {p : Code (Result State)}
    (h : op.answer X E = some p) : op ≠ .relaunch ∧ ∀ w, ((op.code X E).run w).2 = (p.run w).2 := by
  cases op <;> simp only [Op.answer, Option.some.injEq, reduceCtorEq] at h
  all_goals
    subst h
    exact ⟨by simp, fun w => by simp only [Op.code, Prog.run_bind, Prog.run_pure]⟩

namespace Client
variable {X : Site} {E : Env} {t : Int64}

/-- What `p` returns is what a query at `t` answers afterwards. -/
def Reports (t : Int64) (p : Code (Result State)) : Prop :=
  ∀ w s, (p.run w).1 = .ok s → s = (p.run w).2.client.stateAt t

/-- What `p` returns is the raw state it leaves. -/
def Resolves (p : Code State) : Prop := ∀ w, (p.run w).1 = (p.run w).2.client.rawState

theorem Reports.error (e : Error) : Reports t (pure (.error e)) := by
  intro w s h
  cases h

theorem Reports.bind {α : Type} {p : Code α} {k : α → Code (Result State)}
    (hk : ∀ a, Reports t (k a)) : Reports t (p >>= k) := by
  intro w
  rw [Prog.run_bind]
  exact hk _ _

theorem Resolves.bind {α : Type} {p : Code α} {k : α → Code State} (hk : ∀ a, Resolves (k a)) :
    Resolves (p >>= k) := by
  intro w
  rw [Prog.run_bind]
  exact hk _ _

theorem resolves_loadState : Resolves loadState := fun _ => rfl

theorem resolves_setState (s : State) : Resolves (do
    setState E s
    pure s) := by
  intro w
  have hcore := setState_core E s w
  simp only [Prog.run_bind, Prog.run_pure]
  exact (congrArg Core.rawState hcore).symm

section Clock
variable (hnow : ∀ i, E.now i = t)
include hnow

theorem report_value (s : State) (w : World) :
    ((report E s).run w).1 = .ok (if w.client.untrustedAt t then .invalid else s) := by
  simp only [report, clockUntrusted, nowFn, Prog.run_bind, Prog.run_read, Prog.run_ite,
    Prog.run_atom, Prog.run_pure, untrustedAt, hnow]
  by_cases ha : w.client.anchor = 0
  · simp [ha]
  · by_cases hr : clockRolledBack w.client.anchor t = true
    · simp [ha, hr]
    · simp [ha, hr]

theorem reports_report {s : State} {w : World} (hs : s = w.client.rawState) :
    ∀ s', ((report E s).run w).1 = .ok s' → s' = ((report E s).run w).2.client.stateAt t := by
  intro s' h
  rw [report_value hnow, Except.ok.injEq] at h
  rw [stateAt_core ((quiet_report E s).run w).core, ← h, hs]
  rfl

theorem Resolves.report {p : Code State} (hp : Resolves p) : Reports t (p >>= report E) := by
  intro w
  rw [Prog.run_bind]
  exact reports_report hnow (hp w)

theorem reports_keepState : Reports t (keepState E) := resolves_loadState.report hnow

theorem reports_setState (s : State) : Reports t (do
    setState E s
    report E s) := by
  have h := (resolves_setState (E := E) s).report hnow
  simpa only [bind_assoc, pure_bind] using h

theorem reports_resolveLocally : Reports t (resolveLocally X E) :=
  .bind fun s => reports_setState hnow s

end Clock

theorem resolves_resolveAndSet (lease : Option Lease) : Resolves (resolveAndSet X E lease) :=
  .bind fun _ => .bind fun s => resolves_setState s

theorem resolves_revoke : Resolves (revoke E) := .bind fun _ => resolves_setState _

/-- Whether the lease is kept or not, the state is set last. -/
theorem resolves_keepTrusted (l : Lease) (keep : Code Unit) : Resolves (do
    if X.trusts l then keep else pure ()
    resolveAndSet X E (some l)) := by
  cases X.trusts l with
  | true => exact .bind fun _ => resolves_resolveAndSet _
  | false => exact resolves_resolveAndSet _

theorem resolves_rejectWithLease (j : Json) (l : Lease) (now : Int64) :
    Resolves (rejectWithLease X E j l now) := by
  rw [rejectWithLease_eq]
  exact resolves_keepTrusted l _

theorem resolves_reply (j : Json) (keep : Lease → Code Unit) : Resolves (do
    let _ ← applyConfigFields X E j
    match leaseOf j with
    | some l => do
      let _ ← nowFn E
      if X.trusts l then keep l else pure ()
      resolveAndSet X E (some l)
    | none => resolveAndSet X E none : Code State) := by
  refine .bind fun _ => ?_
  cases leaseOf j with
  | none => exact resolves_resolveAndSet _
  | some l => exact .bind fun _ => resolves_keepTrusted l _

theorem resolves_downgrade : Resolves (downgrade E) := by
  intro w
  have hset := resolves_setState (E := E) .expired w
  simp only [Prog.run_bind, Prog.run_pure] at hset
  simp only [downgrade, loadState, Prog.run_bind, Prog.run_read, Prog.run_ite]
  split
  · exact hset
  · rfl

theorem resolves_applyOfflineGrace (now lastLvo : Int64) :
    Resolves (applyOfflineGrace X E now lastLvo) := by
  refine .bind fun expired => ?_
  split
  · exact resolves_downgrade
  · split
    · exact resolves_loadState
    · split
      · exact resolves_loadState
      · exact resolves_downgrade

/-- What the shared validation returns is the raw state it leaves. -/
theorem resolves_settleReconcile (now lastLvo : Int64) (v : Verdict) :
    Resolves (settleReconcile X E now lastLvo v) := by
  cases v with
  | transient => exact resolves_applyOfflineGrace now lastLvo
  | undecodable => exact resolves_applyOfflineGrace now lastLvo
  | denied => exact resolves_revoke
  | rejectedLease j l => exact resolves_rejectWithLease j l now
  | renewed j l =>
    rw [settleReconcile, reconcileReply_eq]
    exact resolves_reply j _
  | leaseless j =>
    rw [settleReconcile, reconcileReply_eq]
    exact resolves_reply j _

section Clock
variable (hnow : ∀ i, E.now i = t)
include hnow

theorem reports_settleValidate (v : Verdict) : Reports t (settleValidate X E v) := by
  cases v with
  | transient => exact reports_keepState hnow
  | undecodable => exact .bind fun _ => reports_keepState hnow
  | denied => exact .bind fun _ => resolves_revoke.report hnow
  | rejectedLease j l => exact .bind fun _ => (resolves_rejectWithLease j l _).report hnow
  | renewed j l =>
    rw [settleValidate, validateReply_eq]
    exact (resolves_reply j _).report hnow
  | leaseless j =>
    rw [settleValidate, validateReply_eq]
    exact (resolves_reply j _).report hnow

theorem reports_validate : Reports t (validate X E) := by
  rw [validate_eq]
  exact .bind fun _ => .bind fun _ => .bind fun _ => .bind fun _ => reports_settleValidate hnow _

theorem reports_reconcile : Reports t (validateAndReconcile X E >>= reportResult E) := by
  rw [validateAndReconcile_eq]
  simp only [bind_assoc, bind_map_left]
  refine .bind fun now => .bind fun lastLvo => .bind fun _ => .bind fun _ => .bind fun hr => ?_
  exact (resolves_settleReconcile now lastLvo _).report hnow

theorem reports_checkOnLaunch : Reports t (checkOnLaunch X E) := by
  refine .bind fun stored => ?_
  cases stored with
  | true => exact reports_reconcile hnow
  | false => exact reports_resolveLocally hnow

theorem reports_refreshIfNeeded : Reports t (refreshIfNeeded X E) := by
  refine .bind fun _ => .bind fun stored => ?_
  cases stored with
  | true =>
    refine .bind fun now => .bind fun lastLvo => ?_
    split
    · exact reports_keepState hnow
    · refine .bind fun near => ?_
      split
      · exact reports_reconcile hnow
      · exact reports_keepState hnow
  | false => exact reports_resolveLocally hnow

theorem reports_startTrial : Reports t (startTrial X E) := by
  refine .bind fun started => ?_
  cases started with
  | true => exact .bind fun _ => .bind fun _ => reports_resolveLocally hnow
  | false => exact .bind fun _ => reports_resolveLocally hnow

/-- What an activation reports is what a query answers afterwards. -/
theorem reports_activateWith (key : Bytes) (j : Json) (lease : Option Lease) :
    Reports t (activateWith X E key j lease) := by
  have htail : ∀ s, Reports t (do
      let newState ← resolveWithTrial X E s
      setState E newState
      report E newState) := fun s => .bind fun newState => reports_setState hnow newState
  refine .bind fun resolved => ?_
  cases lease with
  | none => exact .bind fun _ => htail _
  | some l =>
    refine .bind fun now => ?_
    split
    · exact .bind fun _ => .bind fun _ => .bind fun _ => htail resolved
    · exact htail resolved

/-- The same for the whole call, its failures included. -/
theorem reports_activate (key : Bytes) : Reports t (activate X E key) := by
  rw [activate_eq]
  refine .bind fun _ => .bind fun _ => .bind fun r => ?_
  cases r with
  | error e => exact .error e
  | ok resp =>
    dsimp only [settleActivate]
    split
    · exact .error _
    · cases Json.parse resp.body with
      | error e => exact .error _
      | ok j =>
        dsimp only [activateReply]
        split
        · exact reports_keepState hnow
        · split
          · cases Lease.fromJson (j.get (ascii "lease")) with
            | error e => exact .error e
            | ok l => exact reports_activateWith hnow key j _
          · exact reports_activateWith hnow key j _

theorem reports_answer {op : Op} {p : Code (Result State)} (h : op.answer X E = some p) :
    Reports t p := by
  cases op <;> simp only [Op.answer, Option.some.injEq, reduceCtorEq] at h
  all_goals subst h
  · exact reports_activate hnow _
  · exact reports_validate hnow
  · exact reports_checkOnLaunch hnow
  · exact reports_refreshIfNeeded hnow
  · exact reports_startTrial hnow

end Clock

/-- Subscribers were shown the state at `t` last. -/
def Told (t : Int64) (w : World) : Prop := w.client.lastReported = w.client.stateAt t

/-- A section that neither moves the state nor reports it. -/
structure Unmoved (w v : World) : Prop where
  rawState : v.client.rawState = w.client.rawState
  anchor : v.client.anchor = w.client.anchor
  lastReported : v.client.lastReported = w.client.lastReported

theorem Unmoved.refl (w : World) : Unmoved w w := ⟨rfl, rfl, rfl⟩

theorem Unmoved.trans (u v w : World) (h₁ : Unmoved u v) (h₂ : Unmoved v w) : Unmoved u w :=
  ⟨h₂.rawState.trans h₁.rawState, h₂.anchor.trans h₁.anchor,
    h₂.lastReported.trans h₁.lastReported⟩

theorem Unmoved.told {w v : World} (h : Unmoved w v) (hw : Told t w) : Told t v := by
  rw [Told, h.lastReported, hw]
  exact stateAt_congr h.anchor.symm h.rawState.symm t

/-- No section of `p` moves the state or reports it. -/
def Still {α : Type} (p : Code α) : Prop := Each Unmoved (fun _ => True) p

namespace Still
variable {α β : Type}

theorem pure (a : α) : Still (Pure.pure a) := trivial

theorem bind {p : Code α} {k : α → Code β} (hp : Still p) (hk : ∀ a, Still (k a)) :
    Still (p >>= k) := Each.bind hp fun a _ => hk a

theorem read (f : World → α) : Still (.read f) := Each.read Unmoved.refl fun _ => trivial

theorem keeps {p : Code α} (h : Still p) : Keeps (Told t) p :=
  fun w hw => (h.run Unmoved.refl Unmoved.trans w).1.told hw

end Still

/-- Whatever was shown before, subscribers know the state at `t` when `p` ends. -/
def Announces {α : Type} (t : Int64) (p : Code α) : Prop := ∀ w, Told t (p.run w).2

namespace Announces
variable {α β : Type} {p : Code α} {k : α → Code β}

theorem bind (hk : ∀ a, Announces t (k a)) : Announces t (p >>= k) := by
  intro w
  rw [Prog.run_bind]
  exact hk _ _

theorem after (hp : Announces t p) (hk : ∀ a, Keeps (Told t) (k a)) :
    Announces t (p >>= k) := by
  intro w
  rw [Prog.run_bind]
  exact hk _ _ (hp w)

theorem keeps (h : Announces t p) : Keeps (Told t) p := fun w _ => h w

end Announces

section Clock
variable (E)

theorem still_nowFn : Still (nowFn E) := Each.atom fun _ => ⟨⟨rfl, rfl, rfl⟩, trivial⟩

theorem still_jsonHeaders (X : Site) : Still (jsonHeaders X E) :=
  .bind (Each.atom fun _ => ⟨⟨rfl, rfl, rfl⟩, trivial⟩) fun _ => .pure _

theorem still_clockUntrusted : Still (clockUntrusted E) := by
  refine .bind (.read _) fun anchor => ?_
  split
  · exact .bind (still_nowFn E) fun _ => .pure _
  · exact .pure _

theorem still_report (s : State) : Still (report E s) := by
  refine .bind (still_clockUntrusted E) fun untrusted => ?_
  split
  · exact .pure _
  · exact .pure _

theorem still_reportResult (r : Result State) : Still (reportResult E r) := by
  cases r with
  | error e => exact .pure _
  | ok s => exact still_report E s

theorem still_keepState : Still (keepState E) := .bind (.read _) fun s => still_report E s

theorem still_saveCache : Still (saveCache E) := by
  refine .bind (Each.await (fun _ => ⟨rfl, rfl, rfl⟩) trivial) fun _ => ?_
  refine .bind (Each.atom fun _ => ⟨⟨rfl, rfl, rfl⟩, trivial⟩) fun _ => ?_
  refine .bind (Each.atom fun _ => ⟨⟨rfl, rfl, rfl⟩, trivial⟩) fun _ => ?_
  exact .bind (Each.modify (fun _ => ⟨rfl, rfl, rfl⟩) trivial) fun _ => .pure _

theorem still_cachedHardwareIdValue : Still (cachedHardwareIdValue E) := by
  refine .bind (Each.atom fun _ => ⟨⟨rfl, rfl, rfl⟩, trivial⟩) fun live => ?_
  cases nonEmpty live with
  | none => exact .read _
  | some id =>
    refine .bind (Each.atom fun w => ⟨?_, trivial⟩) fun changed => ?_
    · split
      · exact ⟨rfl, rfl, rfl⟩
      · exact .refl w
    · cases changed with
      | true => exact .bind (still_saveCache E) fun _ => .pure _
      | false => exact .pure _

theorem still_requestWithRetry (method url : Bytes) (headers : List (Bytes × Bytes))
    (body : Bytes) : Still (requestWithRetry E method url headers body) :=
  each_requestLoop E (fun _ _ => ⟨rfl, rfl, rfl⟩) (fun _ _ => ⟨rfl, rfl, rfl⟩) _ _ _ _

theorem still_validateRequest (X : Site) (licenseKey instanceId : Bytes) :
    Still (validateRequest X E licenseKey instanceId) := by
  have hfields : Still (appendAttributionFields X E [(ascii "license_key", jsonStr licenseKey),
      (ascii "instance_id", jsonStr instanceId)] false) :=
    .bind (.pure _) fun _ => .bind (.bind (still_cachedHardwareIdValue E) fun _ => .pure _)
      fun _ => .pure _
  refine .bind hfields fun fields => .bind (still_jsonHeaders E X) fun headers => ?_
  exact still_requestWithRetry E _ _ headers _

variable {E} (hnow : ∀ i, E.now i = t)
include hnow

theorem announces_notify : Announces t (notify E) := by
  intro w
  obtain ⟨hclient, -⟩ := Events.notify_run E w
  rw [Told, hclient, hnow]
  rfl

theorem announces_setState (s : State) : Announces t (setState E s) := by
  refine .bind fun prev => .bind fun expiry => .bind fun later => .bind fun _ => ?_
  refine (announces_notify hnow).after fun _ => Still.keeps ?_
  cases lifecycleEvent prev s later with
  | none => exact .pure _
  | some ev => exact Each.modify (fun _ => ⟨rfl, rfl, rfl⟩) trivial

theorem announces_resolveAndSet (lease : Option Lease) :
    Announces t (resolveAndSet X E lease) :=
  .bind fun _ => .bind fun s => (announces_setState hnow s).after fun _ => Keeps.pure _

theorem announces_revoke : Announces t (revoke E) :=
  .bind fun _ => (announces_setState hnow _).after fun _ => Keeps.pure _

theorem announces_keepTrusted (l : Lease) (keep : Code Unit) : Announces t (do
    if X.trusts l then keep else pure ()
    resolveAndSet X E (some l)) := by
  cases X.trusts l with
  | true => exact .bind fun _ => announces_resolveAndSet hnow _
  | false => exact announces_resolveAndSet hnow _

theorem announces_rejectWithLease (j : Json) (l : Lease) (now : Int64) :
    Announces t (rejectWithLease X E j l now) := by
  rw [rejectWithLease_eq]
  exact announces_keepTrusted hnow l _

theorem announces_reply (j : Json) (keep : Lease → Code Unit) : Announces t (do
    let _ ← applyConfigFields X E j
    match leaseOf j with
    | some l => do
      let _ ← nowFn E
      if X.trusts l then keep l else pure ()
      resolveAndSet X E (some l)
    | none => resolveAndSet X E none : Code State) := by
  refine .bind fun _ => ?_
  cases leaseOf j with
  | none => exact announces_resolveAndSet hnow _
  | some l => exact .bind fun _ => announces_keepTrusted hnow l _

/-- The offline grace leaves subscribers with the state. -/
theorem keeps_applyOfflineGrace (now lastLvo : Int64) :
    Keeps (Told t) (applyOfflineGrace X E now lastLvo) := by
  have hdowngrade : Keeps (Told t) (downgrade E) := by
    refine .bind (.read _) fun current => ?_
    split
    · exact ((announces_setState hnow _).after fun _ => Keeps.pure _).keeps
    · exact .pure _
  refine .bind (.read _) fun expired => ?_
  split
  · exact hdowngrade
  · split
    · exact .read _
    · split
      · exact .read _
      · exact hdowngrade

/-- So does a settled validation. -/
theorem keeps_settleValidate (v : Verdict) : Keeps (Told t) (settleValidate X E v) := by
  have hreport : ∀ s, Keeps (Told t) (report E s) := fun s => (still_report E s).keeps
  cases v with
  | transient => exact (still_keepState E).keeps
  | undecodable => exact (Still.bind (still_nowFn E) fun _ => still_keepState E).keeps
  | denied =>
    exact (Announces.bind fun _ => (announces_revoke hnow).after hreport).keeps
  | rejectedLease j l =>
    exact (Announces.bind fun _ => (announces_rejectWithLease hnow j l _).after hreport).keeps
  | renewed j l =>
    rw [settleValidate, validateReply_eq]
    exact ((announces_reply hnow j _).after hreport).keeps
  | leaseless j =>
    rw [settleValidate, validateReply_eq]
    exact ((announces_reply hnow j _).after hreport).keeps

/-- So does the shared one. -/
theorem keeps_settleReconcile (now lastLvo : Int64) (v : Verdict) :
    Keeps (Told t) (settleReconcile X E now lastLvo v) := by
  cases v with
  | transient => exact keeps_applyOfflineGrace hnow now lastLvo
  | undecodable => exact keeps_applyOfflineGrace hnow now lastLvo
  | denied => exact (announces_revoke hnow).keeps
  | rejectedLease j l => exact (announces_rejectWithLease hnow j l now).keeps
  | renewed j l =>
    rw [settleReconcile, reconcileReply_eq]
    exact (announces_reply hnow j _).keeps
  | leaseless j =>
    rw [settleReconcile, reconcileReply_eq]
    exact (announces_reply hnow j _).keeps

/-- The guard is polled first; what follows keeps subscribers up to date. -/
theorem announces_validate : Announces t (validate X E) := by
  rw [validate_eq]
  refine (announces_notify hnow).after fun _ => ?_
  refine .bind (.read _) fun licenseKey => .bind (.read _) fun instanceId => ?_
  exact .bind (still_validateRequest E X _ _).keeps fun r => keeps_settleValidate hnow _

theorem keeps_reconcile : Keeps (Told t) (validateAndReconcile X E >>= reportResult E) := by
  rw [validateAndReconcile_eq]
  refine .bind ?_ fun r => (still_reportResult E r).keeps
  refine .bind (still_nowFn E).keeps fun now => .bind (.read _) fun lastLvo => ?_
  refine .bind (.read _) fun licenseKey => .bind (.read _) fun instanceId => ?_
  refine .bind (still_validateRequest E X _ _).keeps fun r => ?_
  exact .bind (keeps_settleReconcile hnow now lastLvo _) fun _ => .pure _

/-- Subscribers know the state when a refresh ends, on whichever of its paths. -/
theorem announces_refreshIfNeeded : Announces t (refreshIfNeeded X E) := by
  refine (announces_notify hnow).after fun _ => .bind (.read _) fun stored => ?_
  cases stored with
  | true =>
    refine .bind (still_nowFn E).keeps fun now => .bind (.read _) fun lastLvo => ?_
    split
    · exact (still_keepState E).keeps
    · refine .bind (.read _) fun near => ?_
      split
      · exact keeps_reconcile hnow
      · exact (still_keepState E).keeps
  | false =>
    have hlocal : Announces t (resolveLocally X E) := .bind fun s =>
      (announces_setState hnow s).after fun _ => (still_report E s).keeps
    exact hlocal.keeps

end Clock
end Client

/-- The operations that poll the clock guard. -/
def Op.polls (op : Op) : Prop := op = .validate ∨ op = .refreshIfNeeded

theorem Op.answer_announces {X : Site} {E : Env} {t : Int64} (hnow : ∀ i, E.now i = t) {op : Op}
    {p : Code (Result State)} (h : op.answer X E = some p) (hop : op.polls) : Announces t p := by
  obtain rfl | rfl := hop
  · cases h
    exact announces_validate hnow
  · cases h
    exact announces_refreshIfNeeded hnow

/-- Under a constant clock every operation returns what a query answers afterwards, and after a
polling one the last queued value, or the one the constructor primed, is the same. -/
theorem channels_agree (X : Site) (start : World) (E₀ : Env) (calls : List Call)
    (hlive : ∀ call ∈ calls, call.1 ≠ .relaunch) (E : Env) (t : Int64) (hnow : ∀ i, E.now i = t)
    (op : Op) (p : Code (Result State)) (hop : op.answer X E = some p) :
    let opened := Op.relaunch.exec X E₀ start
    let w := runAll (perform X) calls opened
    let after := p.run { w with ticks := {} }
    (∀ s, after.1 = .ok s → s = after.2.client.stateAt t) ∧
      (op.polls → lastQueued opened.client.lastReported (after.2.log.drop opened.log.length) =
        after.2.client.stateAt t) := by
  intro opened w after
  refine ⟨reports_answer hnow hop _, fun hpolls => ?_⟩
  obtain ⟨hlaunch, hcode⟩ := Op.code_answer hop
  have hrun : after.2 = op.exec X E w := (hcode _).symm
  have htracks : Tracks opened after.2 := by
    rw [hrun]
    exact (tracks_calls X hlive opened).trans (op.exec_tracks X E hlaunch w)
  obtain ⟨es, hlog, hreported⟩ := htracks
  rw [hlog, List.drop_left, ← hreported]
  exact Op.answer_announces hnow hop hpolls { w with ticks := {} }

/-- The stored licence, launched, validated without a network and asked for its state. -/
theorem channels_agree_vector :
    let opened := Op.relaunch.exec vectorSite (offlineAt 1781076300) { store := vectorStore }
    let w := runAll (perform vectorSite) [] opened
    let after := (validate vectorSite (offlineAt 1781076420)).run { w with ticks := {} }
    (∀ s, after.1 = .ok s → s = after.2.client.stateAt 1781076420) ∧
      (Op.validate.polls → lastQueued opened.client.lastReported
        (after.2.log.drop opened.log.length) = after.2.client.stateAt 1781076420) :=
  channels_agree vectorSite { store := vectorStore } (offlineAt 1781076300) []
    (fun _ h => by cases h) (offlineAt 1781076420) 1781076420 (fun _ => rfl) .validate
    (validate vectorSite (offlineAt 1781076420)) rfl

end Keylight
