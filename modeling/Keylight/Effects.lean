import Keylight.Replies

/-!
# What each helper does to the shared state

`Core` is the part of the client that licensing decisions read. A helper is
`Quiet` when none of its sections touches the core, the store or the save mutex;
the others have an exact lemma for the core and one for the store.
-/
namespace Keylight
open Bytes Sections

structure Core where
  cache : Cache
  rawState : State
  anchor : Int64

def World.core (w : World) : Core := ⟨w.client.cache, w.client.rawState, w.client.anchor⟩

/-- Events that record no write to the cache, the raw state or the store. -/
def Event.isObservation : Event → Bool
  | .exchange _ _ => true
  | .slept _ => true
  | .queued _ => true
  | .lifecycle _ => true
  | _ => false

/-- What a subscriber that last saw `s` has seen after an event. -/
def State.shownBy (s : State) : Event → State
  | .queued reported => reported
  | _ => s

/-- The last value queued, or `s` when there is none. -/
def lastQueued (s : State) (log : List Event) : State := log.foldl State.shownBy s

/-- The dedupe of `notify` holds what was queued last. -/
def Tracks (w v : World) : Prop := ∃ es, v.log = w.log ++ es ∧
  v.client.lastReported = lastQueued w.client.lastReported es

namespace Tracks

theorem refl (w : World) : Tracks w w := ⟨[], by simp, rfl⟩

theorem trans {u v w : World} (h₁ : Tracks u v) (h₂ : Tracks v w) : Tracks u w := by
  obtain ⟨es, hes, hs⟩ := h₁
  obtain ⟨fs, hfs, ht⟩ := h₂
  refine ⟨es ++ fs, by simp [hfs, hes], ?_⟩
  rw [ht, hs, lastQueued, lastQueued, lastQueued, List.foldl_append]

end Tracks

structure Idle (w v : World) : Prop where
  core : v.core = w.core
  store : v.store = w.store
  saveOwner : v.saveOwner = w.saveOwner
  log : ∃ es, v.log = w.log ++ es ∧ ∀ e ∈ es, e.isObservation
  tracks : Tracks w v
  now : w.ticks.now ≤ v.ticks.now

namespace Idle

theorem refl (w : World) : Idle w w := ⟨rfl, rfl, rfl, ⟨[], by simp, by simp⟩, .refl w, le_rfl⟩

theorem trans {u v w : World} (h₁ : Idle u v) (h₂ : Idle v w) : Idle u w := by
  obtain ⟨es, hes, he⟩ := h₁.log
  obtain ⟨fs, hfs, hf⟩ := h₂.log
  refine ⟨h₂.core.trans h₁.core, h₂.store.trans h₁.store, h₂.saveOwner.trans h₁.saveOwner,
    ⟨es ++ fs, by simp [hfs, hes], ?_⟩, h₁.tracks.trans h₂.tracks, h₁.now.trans h₂.now⟩
  intro e hmem
  obtain h | h := List.mem_append.1 hmem
  · exact he e h
  · exact hf e h

/-- A section that changes at most the inputs read, the locks of `notify_` or the debounce, and
records nothing. -/
theorem silent {w v : World} (hcore : v.core = w.core) (hstore : v.store = w.store)
    (hsave : v.saveOwner = w.saveOwner) (hlog : v.log = w.log)
    (hreported : v.client.lastReported = w.client.lastReported)
    (hnow : w.ticks.now ≤ v.ticks.now) : Idle w v :=
  ⟨hcore, hstore, hsave, ⟨[], by simp [hlog], by simp⟩, ⟨[], by simp [hlog], hreported⟩, hnow⟩

theorem record {w v : World} (e : Event) (he : e.isObservation) (hcore : v.core = w.core)
    (hstore : v.store = w.store) (hsave : v.saveOwner = w.saveOwner)
    (hlog : v.log = w.log ++ [e])
    (hreported : v.client.lastReported = w.client.lastReported.shownBy e)
    (hnow : w.ticks.now ≤ v.ticks.now) : Idle w v :=
  ⟨hcore, hstore, hsave, ⟨[e], hlog, by simpa using he⟩, ⟨[e], hlog, hreported⟩, hnow⟩

theorem grows {w v : World} (h : Idle w v) : w.log <+: v.log := by
  obtain ⟨es, hes, -⟩ := h.log
  exact ⟨es, hes.symm⟩

end Idle

/-- No section of `p` writes anything a licensing decision reads. -/
def Quiet (p : Code α) : Prop := Each Idle (fun _ => True) p

namespace Quiet

theorem run {p : Code α} (h : Quiet p) (w : World) : Idle w (p.run w).2 :=
  (Each.run h Idle.refl (fun _ _ _ => Idle.trans) w).1

theorem each {M : World → World → Prop} {p : Code α} (h : Quiet p)
    (hM : ∀ {w v}, Idle w v → M w v) : Each M (fun _ => True) p :=
  Each.mono h (fun _ _ => hM) fun _ h => h

theorem pure (a : α) : Quiet (Pure.pure a) := trivial

theorem bind {p : Code α} {k : α → Code β} (hp : Quiet p) (hk : ∀ a, Quiet (k a)) :
    Quiet (p >>= k) := Each.bind hp fun a _ => hk a

theorem ite {c : Prop} [Decidable c] {p q : Code α} (hp : Quiet p) (hq : Quiet q) :
    Quiet (if c then p else q) := Each.ite (fun _ => hp) fun _ => hq

theorem read (f : World → α) : Quiet (.read f) := Each.read Idle.refl fun _ => trivial

end Quiet

namespace Client
variable (X : Site) (E : Env)

theorem quiet_nowFn : Quiet (nowFn E) :=
  Each.atom fun _ => ⟨.silent rfl rfl rfl rfl rfl (Nat.le_succ _), trivial⟩

theorem quiet_hardwareIdFn : Quiet (hardwareIdFn E) :=
  Each.atom fun _ => ⟨.silent rfl rfl rfl rfl rfl le_rfl, trivial⟩

theorem quiet_readCache (f : Cache → α) : Quiet (readCache f) := .read _

theorem quiet_loadState : Quiet loadState := .read _

theorem quiet_jsonHeaders : Quiet (jsonHeaders X E) :=
  .bind (Each.atom fun _ => ⟨.silent rfl rfl rfl rfl rfl le_rfl, trivial⟩) fun _ => .pure _

theorem quiet_clockUntrusted : Quiet (clockUntrusted E) :=
  .bind (.read _) fun _ => .ite (.bind (quiet_nowFn E) fun _ => .pure _) (.pure _)

theorem quiet_state : Quiet (state E) :=
  .bind (quiet_clockUntrusted E) fun _ => .ite (.pure _) quiet_loadState

theorem quiet_report (s : State) : Quiet (report E s) :=
  .bind (quiet_clockUntrusted E) fun _ => .ite (.pure _) (.pure _)

theorem quiet_reportResult (r : Result State) : Quiet (reportResult E r) := by
  cases r with
  | error e => exact .pure _
  | ok s => exact quiet_report E s

theorem quiet_keepState : Quiet (keepState E) :=
  .bind quiet_loadState fun s => quiet_report E s

theorem quiet_notify : Quiet (notify E) := by
  refine .bind (Each.await (fun _ => .silent rfl rfl rfl rfl rfl le_rfl) trivial) fun _ => ?_
  refine .bind (quiet_state E) fun reported => .bind (Each.modify (fun w => ?_) trivial) fun _ => ?_
  · split
    · exact .refl _
    · exact .record (.queued reported) rfl rfl rfl rfl rfl rfl le_rfl
  · exact Each.modify (fun _ => .silent rfl rfl rfl rfl rfl le_rfl) trivial

theorem quiet_checkTrial : Quiet (checkTrial X E) := by
  refine .bind (quiet_readCache _) fun duration => .ite (.pure _) ?_
  refine .bind (quiet_readCache _) fun start => ?_
  cases start with
  | none => exact .pure _
  | some t =>
    exact .bind (.bind (quiet_nowFn E) fun _ => .pure _) fun _ => .ite (.pure _) (.pure _)

theorem quiet_resolveWithTrial (s : State) : Quiet (resolveWithTrial X E s) := by
  refine .ite (.pure _) (.bind (quiet_checkTrial X E) fun trial => ?_)
  cases trial with
  | active => exact .pure _
  | expired => exact .bind (quiet_readCache _) fun _ => .pure _
  | notStarted => exact .bind (quiet_readCache _) fun _ => .pure _

theorem quiet_resolveCurrentState : Quiet (resolveCurrentState X E) :=
  .bind (quiet_readCache _) fun _ => .ite quiet_loadState (quiet_resolveWithTrial X E _)

theorem quiet_resolveFromLease (lease : Option Lease) : Quiet (resolveFromLease X E lease) := by
  cases lease with
  | none => exact quiet_loadState
  | some l =>
    refine .bind (quiet_nowFn E) fun _ => .ite (.pure _) (.ite (.pure _) (.ite (.pure _) ?_))
    exact .pure _

theorem quiet_verifyConfig (j : Json) : Quiet (verifyConfig X E j) := by
  refine .ite (.pure _) (.ite (.pure _) (.ite (.pure _) ?_))
  cases X.cfg.trustedKeys.lookup (j.get (ascii "kid")).asString with
  | none => exact .pure _
  | some pub => exact .bind (quiet_nowFn E) fun _ => .ite (.pure _) (.ite (.pure _) (.pure _))

/-- A request exchanges and sleeps, and does nothing else. -/
theorem each_requestLoop {M : World → World → Prop}
    (hexchange : ∀ (req : HttpRequest) (w : World), M w { w with
      ticks.request := w.ticks.request + 1
      log := w.log ++ [.exchange req (E.request w.ticks.request)] })
    (hsleep : ∀ (ms : Nat) (w : World), M w { w with log := w.log ++ [.slept ms] })
    (req : HttpRequest) (left attempt : Nat) (last : Result HttpResponse) :
    Each M (fun _ => True) (requestLoop E req left attempt last) := by
  induction left generalizing attempt last with
  | zero => exact trivial
  | succ left ih =>
    refine .bind (Each.atom (Q := fun _ => True) fun w => ⟨hexchange req w, trivial⟩)
      fun last _ => .ite (fun _ => trivial) fun _ => .ite (fun _ => trivial) fun _ => ?_
    exact .bind (Each.modify (Q := fun _ => True) (hsleep _) trivial) fun _ _ => ih _ _

theorem quiet_requestLoop (req : HttpRequest) (left attempt : Nat) (last : Result HttpResponse) :
    Quiet (requestLoop E req left attempt last) := by
  refine each_requestLoop E (fun req w => ?_) (fun ms w => ?_) req left attempt last
  · exact .record (.exchange req (E.request w.ticks.request)) rfl rfl rfl rfl rfl rfl le_rfl
  · exact .record (.slept ms) rfl rfl rfl rfl rfl rfl le_rfl

theorem quiet_requestWithRetry (method url : Bytes) (headers : List (Bytes × Bytes))
    (body : Bytes) : Quiet (requestWithRetry E method url headers body) :=
  quiet_requestLoop E _ _ _ _

theorem quiet_notifyLifecycle (ev : LifecycleEvent) : Quiet (notifyLifecycle ev) :=
  Each.modify (fun _ => .record (.lifecycle ev) rfl rfl rfl rfl rfl rfl le_rfl) trivial

theorem quiet_announce (ev : Option LifecycleEvent) : Quiet (match ev with
    | some ev => notifyLifecycle ev
    | none => pure ()) := by
  cases ev with
  | none => exact .pure _
  | some ev => exact quiet_notifyLifecycle ev

/-- One section of `setState` stores the raw state, the others are idle. -/
theorem each_setState {M : World → World → Prop} (s : State) (hidle : ∀ {w v}, Idle w v → M w v)
    (hstored : ∀ w : World, M w { w with
      client.rawState := s
      log := w.log ++ [.stateStored s] }) : Each M (fun _ => True) (setState E s) := by
  refine .bind (quiet_loadState.each hidle) fun prev _ => ?_
  refine .bind ((quiet_readCache _).each hidle) fun expiry _ => ?_
  refine .bind (Each.atom (Q := fun _ => True) fun w =>
    ⟨hidle (.silent rfl rfl rfl rfl rfl le_rfl), trivial⟩) fun later _ => ?_
  refine .bind (Each.modify (Q := fun _ => True) hstored trivial) fun _ _ => ?_
  exact .bind ((quiet_notify E).each hidle) fun _ _ => (quiet_announce _).each hidle

/-- `setState` stores the raw state and otherwise only announces it. -/
theorem setState_run (s : State) (w : World) : ∃ v,
    v.core = { w.core with rawState := s } ∧ v.store = w.store ∧
      v.log = w.log ++ [.stateStored s] ∧ Idle v ((setState E s).run w).2 := by
  simp only [setState, loadState, readCache, storeState, Prog.run_bind, Prog.run_read,
    Prog.run_atom, Prog.run_modify]
  refine ⟨_, ?_, ?_, ?_, ((quiet_notify E).run _).trans ((quiet_announce _).run _)⟩
  · rfl
  · rfl
  · rfl

@[simp] theorem setState_core (s : State) (w : World) :
    ((setState E s).run w).2.core = { w.core with rawState := s } := by
  obtain ⟨v, hcore, -, -, hidle⟩ := setState_run E s w
  rw [hidle.core, hcore]

@[simp] theorem setState_store (s : State) (w : World) :
    ((setState E s).run w).2.store = w.store := by
  obtain ⟨v, -, hstore, -, hidle⟩ := setState_run E s w
  rw [hidle.store, hstore]

/-- `checkTrial` at a clock reading. -/
def trialStatusAt (c : Cache) (now : Int64) : TrialStatus :=
  if c.serverTrialDays.getD X.cfg.trialDurationDays ≤ 0 then .notStarted
  else
    match c.trialStart with
    | none => .notStarted
    | some start =>
      if daysLeft now start (c.serverTrialDays.getD X.cfg.trialDurationDays) > 0 then .active
      else .expired

/-- `resolveWithTrial` at a clock reading. -/
def resolvedAt (c : Cache) (paidState : State) (now : Int64) : State :=
  if paidState ≠ .invalid then paidState
  else
    match trialStatusAt X c now with
    | .active => .trial
    | .expired => if c.serverFreeTier.getD X.cfg.freeTierEnabled then .freeTier else .expired
    | .notStarted => if c.serverFreeTier.getD X.cfg.freeTierEnabled then .freeTier else .invalid

def hasPaidMaterial (c : Cache) : Bool := c.lease.isSome || hasKey c

/-- The trial status that the code computes is the one at its reading. -/
theorem checkTrial_value (w : World) :
    ((checkTrial X E).run w).1 = trialStatusAt X w.core.cache (E.now w.ticks.now) := by
  change _ = trialStatusAt X w.client.cache _
  simp only [checkTrial, effectiveTrialDurationDays, readCache, daysLeftFrom, nowFn,
    trialStatusAt, Prog.run_bind, Prog.run_read, Prog.run_ite, Prog.run_pure]
  by_cases hd : w.client.cache.serverTrialDays.getD X.cfg.trialDurationDays ≤ 0
  · simp only [if_pos hd]
  · simp only [if_neg hd]
    cases w.client.cache.trialStart with
    | none => simp only [Prog.run_pure]
    | some start =>
      simp only [Prog.run_bind, Prog.run_atom, Prog.run_pure, Prog.run_ite]
      split <;> rfl

theorem resolveWithTrial_value (s : State) (w : World) :
    ((resolveWithTrial X E s).run w).1 = resolvedAt X w.core.cache s (E.now w.ticks.now) := by
  have hcache : ((checkTrial X E).run w).2.client.cache = w.core.cache :=
    congrArg Core.cache ((quiet_checkTrial X E).run w).core
  simp only [resolveWithTrial, resolvedAt, Prog.run_ite, Prog.run_bind, checkTrial_value]
  by_cases hs : s ≠ .invalid
  · simp only [if_pos hs, Prog.run_pure]
  · simp only [if_neg hs]
    cases trialStatusAt X w.core.cache (E.now w.ticks.now) <;>
      simp [effectiveFreeTierEnabled, readCache, hcache]

theorem resolveCurrentState_value (w : World) :
    ((resolveCurrentState X E).run w).1 =
      if hasPaidMaterial w.core.cache then w.core.rawState
      else resolvedAt X w.core.cache .invalid (E.now w.ticks.now) := by
  change _ = if hasPaidMaterial w.client.cache then w.client.rawState else _
  simp only [resolveCurrentState, readCache, loadState, Prog.run_bind, Prog.run_read,
    Prog.run_ite, hasPaidMaterial, ← resolveWithTrial_value]
  split <;> rfl

/-- The constructor's `deriveStateFromVerify` and the reply's resolution are one function. -/
theorem resolveFromLease_some (l : Lease) (w : World) :
    ((resolveFromLease X E (some l)).run w).1 =
      deriveStateFromVerify l (X.verify l (E.now w.ticks.now)) := by
  simp only [resolveFromLease, nowFn, deriveStateFromVerify, Prog.run_bind, Prog.run_atom,
    Prog.run_ite, Prog.run_pure, apply_ite Prod.fst]

theorem resolveFromLease_none (w : World) :
    ((resolveFromLease X E none).run w).1 = w.core.rawState := by
  simp only [resolveFromLease, loadState, Prog.run_read, World.core]

/-- `store_.save` at save number `k`: the old contents stay when it fails. -/
def savedStore (E : Env) (k : Nat) (blob old : Bytes) : Bytes :=
  if (E.save k).isNone then blob else old

/-- No section of `saveCache` touches the core. -/
theorem each_saveCache {M : World → World → Prop}
    (hM : ∀ {w v : World}, v.core = w.core → w.log <+: v.log → w.ticks.now ≤ v.ticks.now →
      M w v) : Each M (fun _ => True) (saveCache E) := by
  refine .bind (Each.await (Q := fun _ => True) (fun w => hM rfl List.prefix_rfl le_rfl) trivial)
    fun _ _ => ?_
  refine .bind (Each.atom (Q := fun _ => True) fun w =>
    ⟨hM rfl (List.prefix_append _ _) le_rfl, trivial⟩) fun blob _ => ?_
  refine .bind (Each.atom (Q := fun _ => True) fun w =>
    ⟨hM rfl (List.prefix_append _ _) le_rfl, trivial⟩) fun r _ => ?_
  exact .bind (Each.modify (Q := fun _ => True) (fun w => hM rfl List.prefix_rfl le_rfl) trivial)
    fun _ _ => trivial

theorem saveCache_run (w : World) : (saveCache E).run w =
    (outcome (E.save w.ticks.save),
      { w with
        saveOwner := none
        ticks.save := w.ticks.save + 1
        store := savedStore E w.ticks.save (buildBlob w.client.cache) w.store
        log := w.log ++ [.snapshot] ++
          [.saved (buildBlob w.client.cache) (outcome (E.save w.ticks.save))] }) := by
  simp only [saveCache, lockSave, unlockSave, storeSave, savedStore, Prog.run_bind,
    Prog.run_await, Prog.run_atom, Prog.run_modify, Prog.run_pure]
  cases E.save w.ticks.save <;> rfl

@[simp] theorem saveCache_core (w : World) : ((saveCache E).run w).2.core = w.core := by
  rw [saveCache_run]
  rfl

@[simp] theorem saveCache_store (w : World) : ((saveCache E).run w).2.store =
    savedStore E w.ticks.save (buildBlob w.core.cache) w.store := by
  rw [saveCache_run]
  rfl

@[simp] theorem persist_core (d : PersistData) (w : World) :
    ((persist E d).run w).2.core = { w.core with cache := d.merge w.core.cache } := by
  simp only [persist, writeCache, Prog.run_bind, Prog.run_modify, Prog.run_pure, saveCache_core]
  rfl

@[simp] theorem persist_store (d : PersistData) (w : World) :
    ((persist E d).run w).2.store =
      savedStore E w.ticks.save (buildBlob (d.merge w.core.cache)) w.store := by
  simp only [persist, writeCache, Prog.run_bind, Prog.run_modify, Prog.run_pure, saveCache_store]
  rfl

@[simp] theorem saveLastValidatedOnline_core (t : Int64) (w : World) :
    ((saveLastValidatedOnline E t).run w).2.core =
      { w.core with cache := { w.core.cache with lastValidatedOnline := t }, anchor := t } := by
  simp only [saveLastValidatedOnline, writeCache, storeAnchor, Prog.run_bind, Prog.run_modify,
    Prog.run_pure, saveCache_core]
  rfl

@[simp] theorem saveLastValidatedOnline_store (t : Int64) (w : World) :
    ((saveLastValidatedOnline E t).run w).2.store = savedStore E w.ticks.save
      (buildBlob { w.core.cache with lastValidatedOnline := t }) w.store := by
  simp only [saveLastValidatedOnline, writeCache, storeAnchor, Prog.run_bind, Prog.run_modify,
    Prog.run_pure, saveCache_store]
  rfl

@[simp] theorem clearLease_core (w : World) :
    ((clearLease E).run w).2.core =
      { w.core with cache := { w.core.cache with lease := none } } := by
  simp only [clearLease, writeCache, Prog.run_bind, Prog.run_modify, Prog.run_pure,
    saveCache_core]
  rfl

@[simp] theorem clearLease_store (w : World) :
    ((clearLease E).run w).2.store =
      savedStore E w.ticks.save (buildBlob { w.core.cache with lease := none }) w.store := by
  simp only [clearLease, writeCache, Prog.run_bind, Prog.run_modify, Prog.run_pure,
    saveCache_store]
  rfl

/-- A live hardware id is written through to the cache. -/
def withHardwareId (live : Option Bytes) (c : Cache) : Cache :=
  match nonEmpty live with
  | some id => { c with hardwareId := some id }
  | none => c

theorem withHardwareId_eq (live : Option Bytes) (c : Cache) :
    withHardwareId live c = { c with hardwareId := (nonEmpty live).or c.hardwareId } := by
  unfold withHardwareId
  cases nonEmpty live with
  | none => rfl
  | some id => rfl

theorem withHardwareId_same {live : Option Bytes} {id : Bytes} {c : Cache}
    (hlive : nonEmpty live = some id) (hc : c.hardwareId = some id) :
    withHardwareId live c = c := by
  cases c
  simp_all [withHardwareId]

/-- Whether a live hardware id differs from the cached one. -/
def idIsNew (live : Option Bytes) (c : Cache) : Bool :=
  match nonEmpty live with
  | some id => c.hardwareId ≠ some id
  | none => false

/-- The store after the next hardware id is noted: a new id is saved at once. -/
def notedStore (w : World) : Bytes :=
  if idIsNew (E.hardwareId w.ticks.hardwareId) w.core.cache then
    savedStore E w.ticks.save
      (buildBlob (withHardwareId (E.hardwareId w.ticks.hardwareId) w.core.cache)) w.store
  else w.store

/-- The cache takes a live hardware id, and the store is rewritten from it when it is new. -/
structure Noted (w v : World) : Prop where
  core : v.core =
    { w.core with cache := withHardwareId (E.hardwareId w.ticks.hardwareId) w.core.cache }
  store : v.store = notedStore E w
  request : v.ticks.request = w.ticks.request

/-- Reading the hardware id notes it in the cache and, when it is new, in the store. -/
theorem cachedHardwareIdValue_run (w : World) :
    Noted E w ((cachedHardwareIdValue E).run w).2 := by
  simp only [cachedHardwareIdValue, hardwareIdFn, Prog.run_bind, Prog.run_atom, noteHardwareId]
  cases hlive : nonEmpty (E.hardwareId w.ticks.hardwareId) with
  | none =>
    simp only [readCache, Prog.run_read]
    have hnew : idIsNew (E.hardwareId w.ticks.hardwareId) w.core.cache = false := by
      simp only [idIsNew, hlive]
    exact ⟨by simp only [withHardwareId, hlive]; rfl, by simp [notedStore, hnew], rfl⟩
  | some id =>
    have hnew : idIsNew (E.hardwareId w.ticks.hardwareId) w.core.cache =
        decide (w.client.cache.hardwareId ≠ some id) := by
      simp only [idIsNew, hlive]
      rfl
    simp only [Prog.run_bind, Prog.run_atom, Prog.run_ite]
    by_cases hc : w.client.cache.hardwareId = some id
    · simp only [hc, ne_eq, not_true_eq_false, if_false, Bool.false_eq_true, Prog.run_pure]
      have hsame : withHardwareId (E.hardwareId w.ticks.hardwareId) w.core.cache = w.core.cache :=
        withHardwareId_same hlive hc
      exact ⟨by rw [hsame]; rfl, by simp [notedStore, hnew, hc], rfl⟩
    · simp only [ne_eq, hc, not_false_eq_true, if_true, Prog.run_pure]
      rw [saveCache_run]
      refine ⟨by simp only [withHardwareId, hlive]; rfl, ?_, rfl⟩
      rw [notedStore, hnew, if_pos (decide_eq_true hc)]
      simp only [withHardwareId, hlive]
      rfl

theorem machineHash_run (w : World) : Noted E w ((machineHash X E).run w).2 := by
  simpa only [machineHash, Prog.run_bind, Prog.run_pure] using cachedHardwareIdValue_run E w

theorem appendAttributionFields_run (fields : Fields) (b : Bool) (w : World) :
    Noted E w ((appendAttributionFields X E fields b).run w).2 := by
  have h := machineHash_run X E w
  cases b with
  | true => simpa [appendAttributionFields, readCache] using h
  | false => simpa [appendAttributionFields] using h

/-- The reply is the one the retry loop settles on from the next unread answer. -/
@[simp] theorem validateRequest_reply (licenseKey instanceId : Bytes) (w : World) :
    ((validateRequest X E licenseKey instanceId).run w).1 = E.replyAt w.ticks.request := by
  simp only [validateRequest, Prog.run_bind, requestWithRetry_reply]
  rw [← (appendAttributionFields_run X E [(ascii "license_key", jsonStr licenseKey),
    (ascii "instance_id", jsonStr instanceId)] false w).request]
  rfl

end Client
end Keylight
