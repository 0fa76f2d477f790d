import Keylight.Debounce
import Keylight.FreshClient
import Mathlib.Data.List.Chain
import Mathlib.Data.List.Induction

/-!
# Beacons over whole runs

A beacon that the server confirms leaves two markers, in memory and on disk: the
state it carried and the time. No other call writes them and a launch reads them
back, so at every point of a run they are those of the last confirmed beacon.
-/
namespace Keylight
open Bytes Sections Runs Client

/-- The state of the last confirmed beacon and its time. -/
def markers (c : Cache) : Option Bytes × Int64 := (c.keylessLastState, c.lastKeylessPingAt)

/-- The markers that the next launch reads. -/
def storedMarkers (store : Bytes) : Option Bytes × Int64 := markers (launchCache store)

/-- The store has the markers of the cache. -/
def Recorded (w : World) : Prop := storedMarkers w.store = markers w.core.cache

theorem storedMarkers_buildBlob (c : Cache) :
    storedMarkers (buildBlob c) = (nonEmpty c.keylessLastState, c.lastKeylessPingAt) := by
  rw [storedMarkers, launchCache_buildBlob]
  rfl

theorem Recorded.named {w : World} (h : Recorded w) : w.core.cache.keylessLastState ≠ some [] := by
  have hlaunched := (launchCache_named w.store).keylessLastState
  have hsame : (launchCache w.store).keylessLastState = w.core.cache.keylessLastState :=
    congrArg Prod.fst h
  rw [hsame] at hlaunched
  exact hlaunched

theorem recorded_blob {w : World} (hstore : w.store = buildBlob w.core.cache)
    (hnamed : w.core.cache.keylessLastState ≠ some []) : Recorded w := by
  rw [Recorded, hstore, storedMarkers_buildBlob, nonEmpty_named hnamed]
  rfl

/-- The markers stay in memory, and on disk where they are there already. -/
structure Spares (w v : World) : Prop where
  memory : markers v.core.cache = markers w.core.cache
  disk : Recorded w → Recorded v

namespace Spares

theorem refl (w : World) : Spares w w := ⟨rfl, id⟩

theorem trans {u v w : World} (h₁ : Spares u v) (h₂ : Spares v w) : Spares u w :=
  ⟨h₂.memory.trans h₁.memory, fun h => h₂.disk (h₁.disk h)⟩

/-- A write to the cache that leaves the markers. -/
theorem cached {w v : World} (hcache : markers v.core.cache = markers w.core.cache)
    (hstore : v.store = w.store) : Spares w v := by
  refine ⟨hcache, fun h => ?_⟩
  rw [Recorded, hstore, hcache]
  exact h

theorem idle {w v : World} (h : Idle w v) : Spares w v :=
  .cached (congrArg (fun c => markers c.cache) h.core) h.store

theorem stored {w v : World} (h : Spares w v) (hw : Recorded w) :
    storedMarkers v.store = storedMarkers w.store := by
  rw [hw, h.disk hw]
  exact h.memory

end Spares

/-- Every run of `p` leaves the markers. -/
def Sparing {α : Type} (p : Code α) : Prop := ∀ w, Spares w (p.run w).2

namespace Sparing
variable {α β : Type}

theorem quiet {p : Code α} (h : Quiet p) : Sparing p := fun w => .idle (h.run w)

theorem bind {p : Code α} {k : α → Code β} (hp : Sparing p) (hk : ∀ a, Sparing (k a)) :
    Sparing (p >>= k) := by
  intro w
  rw [Prog.run_bind]
  exact (hp w).trans (hk _ _)

theorem pure (a : α) : Sparing (Pure.pure a : Code α) := .quiet (.pure a)

theorem writeCache {f : Cache → Cache} {events : List Event}
    (hf : ∀ c, markers (f c) = markers c) : Sparing (Keylight.writeCache f events) := by
  intro w
  rw [Keylight.writeCache, Prog.run_modify]
  exact .cached (hf _) rfl

end Sparing

namespace Client
variable {X : Site} {E : Env}

/-- A save leaves the markers. -/
theorem sparing_saveCache : Sparing (saveCache E) := by
  intro w
  have hcore := saveCache_core E w
  have hstore := saveCache_store E w
  refine ⟨congrArg (fun c => markers c.cache) hcore, fun h => ?_⟩
  rw [savedStore] at hstore
  split at hstore
  · apply recorded_blob
    · rw [hstore, hcore]
    · rw [hcore]
      exact h.named
  · rw [Recorded, hstore, hcore]
    exact h

/-- Noting a hardware id leaves the markers. -/
theorem sparing_cachedHardwareIdValue : Sparing (cachedHardwareIdValue E) := by
  refine .bind (.quiet (quiet_hardwareIdFn E)) fun live => ?_
  cases nonEmpty live with
  | none => exact .quiet (.read _)
  | some id =>
    have hnote : Sparing (noteHardwareId id) := by
      intro w
      simp only [noteHardwareId, Prog.run_atom]
      split
      · exact .cached rfl rfl
      · exact .refl w
    refine hnote.bind fun changed => ?_
    cases changed with
    | true => exact sparing_saveCache.bind fun _ => .pure _
    | false => exact .pure _

theorem sparing_applyConfigFields (j : Json) : Sparing (applyConfigFields X E j) := by
  unfold applyConfigFields
  split
  · exact .pure _
  · refine .bind (.quiet (quiet_verifyConfig X E j)) fun vr => ?_
    split
    · exact .pure _
    · exact .bind (.writeCache fun _ => rfl) fun _ => sparing_saveCache.bind fun _ => .pure _

/-- Minting an instance id leaves the markers. -/
theorem sparing_freeTierInstanceId : Sparing (freeTierInstanceId E) := by
  have hmint : Sparing (mintFreeTierInstanceId E) := by
    intro w
    simp only [mintFreeTierInstanceId, Prog.run_atom]
    split
    · exact .refl w
    · exact .cached rfl rfl
  refine hmint.bind fun known => ?_
  cases known with
  | some id => exact .pure _
  | none =>
    refine sparing_saveCache.bind fun r => ?_
    split
    · exact .bind (.writeCache fun _ => rfl) fun _ => .pure _
    · exact .quiet (.read _)

theorem sparing_stampAndSave : Sparing (stampAndSave E) := by
  have hstamp : Sparing (stampTrial E) := by
    intro w
    simp only [stampTrial, Prog.run_atom]
    split
    · exact .refl w
    · exact .cached rfl rfl
  refine hstamp.bind fun started => ?_
  cases started with
  | true => exact sparing_saveCache.bind fun _ => .pure _
  | false => exact .pure _

theorem sparing_persist (d : PersistData) : Sparing (persist E d) :=
  .bind (.writeCache fun _ => rfl) fun _ => sparing_saveCache.bind fun _ => .pure _

theorem sparing_saveLastValidatedOnline (t : Int64) : Sparing (saveLastValidatedOnline E t) := by
  refine .bind (.writeCache fun _ => rfl) fun _ => ?_
  refine .bind (fun _ => .cached rfl rfl) fun _ => ?_
  exact sparing_saveCache.bind fun _ => .pure _

/-- Every helper but the one that arms the debounce. -/
theorem sparing_helpers : Unbeaconed X E (fun _ => True) (fun _ => True) (fun _ => True)
    (fun _ {_} p => Sparing p) where
  quiet := .quiet
  free := .bind
  seq := .bind
  after := .bind
  weaken := id
  widen := id
  request := fun _ _ _ _ hk => .bind (.quiet (quiet_requestWithRetry E _ _ _ _)) fun r =>
    hk r trivial
  cachedHardwareIdValue := sparing_cachedHardwareIdValue
  applyConfigFields := fun j _ => sparing_applyConfigFields j
  freeTierInstanceId := sparing_freeTierInstanceId
  anchor := sparing_saveLastValidatedOnline
  persist := fun d _ _ => sparing_persist d
  clearLease := .bind (.writeCache fun _ => rfl) fun _ => sparing_saveCache.bind fun _ =>
    .pure _
  setState := fun s w => .cached (by rw [setState_core]) (setState_store E s w)

theorem sparing_startTrial : Sparing (startTrial X E) := by
  have h := sparing_helpers (X := X) (E := E)
  rw [startTrial_eq]
  exact sparing_stampAndSave.bind fun _ =>
    h.free (g := .state) h.freeTierInstanceId fun _ => h.resolveLocally

end Client

open Client in
/-- No call but a launch, a deactivation and a report writes the markers. -/
theorem Op.exec_spares (X : Site) (E : Env) {op : Op} (w : World) (hlaunch : op ≠ .relaunch)
    (hdeactivate : op ≠ .deactivate) (hreport : ∀ s, op ≠ .reportKeylessState s) :
    Spares w (op.exec X E w) := by
  have hcode : Sparing (op.code X E) := by
    by_cases hstart : op = .startTrial
    · subst hstart
      exact sparing_startTrial.bind fun _ => .pure _
    · exact sparing_helpers.code (fun _ => trivial) sparing_persist (fun _ _ _ _ _ _ => trivial)
        hlaunch hdeactivate hstart hreport
  have h := hcode { w with ticks := {} }
  exact ⟨h.memory, h.disk⟩

theorem relaunch_recorded (X : Site) {E : Env} (hE : StoreWorks E) {w : World}
    (h : Recorded w) : Spares w (Op.relaunch.exec X E w) := by
  have hstore : (Op.relaunch.exec X E w).store = w.store := construct_store X E _
  have hcache := relaunch_cache X hE w
  refine .cached ?_ hstore
  rw [hcache]
  exact h

def Client.heard : Result HttpResponse → Bool
  | .error _ => false
  | .ok resp => resp.status = 200

/-- A request that the server answered with 200. -/
def Event.accepted : Event → Bool
  | .exchange _ r => heard r
  | _ => false

/-- From `w` to `v` some request was answered with 200. -/
def confirmed (w v : World) : Bool := (v.log.drop w.log.length).any Event.accepted

/-- From `w` to `v` none was. -/
def Unconfirmed (w v : World) : Prop := ∃ es, v.log = w.log ++ es ∧ es.any Event.accepted = false

theorem confirmed_append {w v : World} {es : List Event} (h : v.log = w.log ++ es) :
    confirmed w v = es.any Event.accepted := by
  rw [confirmed, h, List.drop_left]

namespace Unconfirmed

theorem unsent {w v : World} (h : Unsent w v) : Unconfirmed w v := by
  obtain ⟨es, hes, hnone⟩ := h
  refine ⟨es, hes, List.any_eq_false.mpr fun e hmem => ?_⟩
  cases e with
  | exchange req r => exact absurd rfl (hnone _ hmem req r)
  | _ => simp [Event.accepted]

theorem confirmed_eq {w v : World} (h : Unconfirmed w v) : confirmed w v = false := by
  obtain ⟨es, hes, he⟩ := h
  rw [confirmed_append hes, he]

/-- What is confirmed after a quiet start is confirmed. -/
theorem confirmed_trans {u v w : World} (h : Unconfirmed u v) (hg : Grows v w) :
    confirmed u w = confirmed v w := by
  obtain ⟨es, hes, he⟩ := h
  obtain ⟨fs, hfs⟩ := hg
  have hwhole : w.log = u.log ++ (es ++ fs) := by rw [← hfs, hes, List.append_assoc]
  rw [confirmed_append hfs.symm, confirmed_append hwhole, List.any_append, he, Bool.false_or]

end Unconfirmed

theorem Grows.confirmed {u v w : World} (hu : Grows u v) (hg : Grows v w)
    (h : confirmed u v = true) : confirmed u w = true := by
  obtain ⟨es, hes⟩ := hu
  obtain ⟨fs, hfs⟩ := hg
  rw [confirmed_append hes.symm] at h
  have hwhole : w.log = u.log ++ (es ++ fs) := by rw [← hfs, ← hes, List.append_assoc]
  rw [confirmed_append hwhole, List.any_append, h, Bool.true_or]

namespace Client
variable (X : Site) (E : Env)

theorem heard_of_retry {r : Result HttpResponse} {attempt : Nat}
    (h : (retryDecide (statusOf r) attempt (retryAfterOf r)).retry = true) : heard r = false := by
  cases r with
  | error e => rfl
  | ok resp =>
    by_cases hstatus : resp.status = 200
    · exfalso
      have hno : statusRetryable (statusOf (.ok resp)) = false := by
        simp [statusOf, hstatus, statusRetryable]
      simp [retryDecide, hno] at h
    · simpa [heard] using hstatus

/-- Only the reply that a request settles on can be a 200. -/
theorem requestLoop_confirmed (req : HttpRequest) (left attempt : Nat)
    {last : Result HttpResponse} (hlast : heard last = false) (w : World) :
    ∃ es, ((requestLoop E req left attempt last).run w).2.log = w.log ++ es ∧
      es.any Event.accepted = heard ((requestLoop E req left attempt last).run w).1 := by
  induction left generalizing attempt last w with
  | zero => exact ⟨[], (List.append_nil _).symm, by simp [requestLoop, hlast]⟩
  | succ left ih =>
    simp only [requestLoop, transportRequest, sleepFn, Prog.run_bind, Prog.run_atom,
      Prog.run_ite, Prog.run_pure, Prog.run_modify]
    split
    · exact ⟨_, rfl, by simp [Event.accepted]⟩
    · split
      · exact ⟨_, rfl, by simp [Event.accepted]⟩
      · rename_i hretry
        rw [Bool.not_eq_true, Bool.not_eq_false'] at hretry
        have hunheard := heard_of_retry hretry
        obtain ⟨es, hlog, hany⟩ := ih (attempt + 1) hunheard _
        refine ⟨[.exchange req (E.request w.ticks.request)] ++
          [.slept (retryDecide (statusOf (E.request w.ticks.request)) attempt
            (retryAfterOf (E.request w.ticks.request))).delayMs] ++ es, ?_, ?_⟩
        · rw [hlog]
          simp only [List.append_assoc]
        · rw [← hany]
          simp [Event.accepted, hunheard]

theorem requestWithRetry_confirmed (method url : Bytes) (headers : List (Bytes × Bytes))
    (body : Bytes) (w : World) :
    confirmed w ((requestWithRetry E method url headers body).run w).2 =
      heard (E.replyAt w.ticks.request) := by
  have hlast : heard (.error ⟨.network, ascii "no attempt made"⟩) = false := rfl
  obtain ⟨es, hlog, hany⟩ := requestLoop_confirmed E ⟨method, url, headers, body⟩
    retryMaxAttempts 1 hlast w
  rw [← requestWithRetry_reply E method url headers body w]
  exact (confirmed_append hlog).trans hany

theorem unsent_machineHash (w : World) : Unsent w ((machineHash X E).run w).2 := by
  simp only [machineHash, cachedHardwareIdValue, hardwareIdFn, Prog.run_bind, Prog.run_atom,
    Prog.run_pure]
  cases nonEmpty (E.hardwareId w.ticks.hardwareId) with
  | none => exact .same rfl
  | some id =>
    simp only [noteHardwareId, Prog.run_bind, Prog.run_atom]
    split
    · exact .trans (.same rfl) (unsent_saveCache E _)
    · exact .same rfl

theorem keylessReply_eq (wire body : Bytes) : keylessReply X E wire body = (do
    let absorbed ← absorbSettings X E body
    let now ← nowFn E
    armDebounce E wire now
    if absorbed then resolveCurrentState X E >>= setState E else pure ()) := by
  simp only [keylessReply, armDebounce, bind_assoc, pure_bind]

theorem armDebounce_markers (wire : Bytes) (now : Int64) (w : World) :
    markers ((armDebounce E wire now).run w).2.core.cache = (some wire, now) := by
  simp only [armDebounce, writeCache, Prog.run_bind, Prog.run_modify, Prog.run_pure,
    saveCache_core]
  rfl

theorem armDebounce_recorded (hE : StoreWorks E) {wire : Bytes} (hwire : wire ≠ [])
    (now : Int64) (w : World) : Recorded ((armDebounce E wire now).run w).2 := by
  have hmarkers := armDebounce_markers E wire now w
  apply recorded_blob
  · simp only [armDebounce, Prog.run_bind, Prog.run_pure]
    exact flushed_saveCache hE _
  · intro hempty
    have hstate := congrArg Prod.fst hmarkers
    rw [markers, hempty] at hstate
    exact hwire (Option.some.inj hstate).symm

/-- After a confirmed report the markers are its wire state and a reading of the clock, on disk too
where the store works. -/
theorem keylessReply_markers (s : KeylessState) (body : Bytes) (w : World) :
    let v := ((keylessReply X E (keylessStateWire s) body).run w).2
    (∃ k, markers v.core.cache = (some (keylessStateWire s), E.now k)) ∧
      (StoreWorks E → Recorded v) := by
  have htail : ∀ absorbed : Bool, Sparing (if absorbed then
      resolveCurrentState X E >>= setState E else (pure () : Code Unit)) := by
    intro absorbed
    cases absorbed with
    | true => exact (sparing_helpers (X := X)).resolveCurrentAndSet
    | false => exact .pure ()
  rw [keylessReply_eq, Prog.run_bind, Prog.run_bind, Prog.run_bind]
  generalize (absorbSettings X E body).run w = u
  have hnow : ((nowFn E).run u.2).1 = E.now u.2.ticks.now := rfl
  rw [hnow]
  have hmarkers := armDebounce_markers E (keylessStateWire s) (E.now u.2.ticks.now)
    ((nowFn E).run u.2).2
  have hrest := htail u.1 ((armDebounce E (keylessStateWire s) (E.now u.2.ticks.now)).run
    ((nowFn E).run u.2).2).2
  refine ⟨⟨u.2.ticks.now, hrest.memory.trans hmarkers⟩, fun hE => hrest.disk ?_⟩
  exact armDebounce_recorded E hE (keylessStateWire_ne_nil s) _ _

/-- What the answer to a report does, when nothing was confirmed before it. -/
theorem answeredReport_cases (s : KeylessState) {w z : World} (hgrow : Grows w z)
    (hspares : Spares w z) (r : Result HttpResponse) : confirmed w z = heard r →
    let v := ((match r with
      | .error _ => pure ()
      | .ok resp =>
        if resp.status ≠ 200 then pure ()
        else keylessReply X E (keylessStateWire s) resp.body : Code Unit).run z).2
    confirmed w v = false ∧ Spares w v ∨
    confirmed w v = true ∧ (∃ k, markers v.core.cache = (some (keylessStateWire s), E.now k)) ∧
      (StoreWorks E → Recorded v) := by
  intro hheard
  cases r with
  | error e => exact .inl ⟨hheard, hspares⟩
  | ok resp =>
    by_cases hstatus : resp.status = 200
    · simp only [hstatus, ne_eq, not_true_eq_false, if_false]
      have htrue : confirmed w z = true := by simp [hheard, heard, hstatus]
      obtain ⟨hmarkers, hrecorded⟩ := keylessReply_markers X E s resp.body z
      refine .inr ⟨hgrow.confirmed ?_ htrue, hmarkers, hrecorded⟩
      exact (growing_keylessReply X E s resp.body).run z
    · simp only [hstatus, ne_eq, not_false_eq_true, if_true]
      exact .inl ⟨by simp [hheard, heard, hstatus], hspares⟩

/-- A report that is not confirmed leaves the markers, and a confirmed one writes them. -/
theorem reportKeylessState_cases (s : KeylessState) (w : World) :
    let v := ((reportKeylessState X E s).run w).2
    confirmed w v = false ∧ Spares w v ∨
    confirmed w v = true ∧ (∃ k, markers v.core.cache = (some (keylessStateWire s), E.now k)) ∧
      (StoreWorks E → Recorded v) := by
  have hspares : Spares w ((keylessDebounced E (keylessStateWire s)).run w).2 :=
    .idle ((quiet_keylessDebounced E _).run w)
  have hunsent := unsent_keylessDebounced E (keylessStateWire s) w
  simp only [reportKeylessState, Prog.run_bind]
  generalize (keylessDebounced E (keylessStateWire s)).run w = u at hspares hunsent ⊢
  obtain ⟨debounced, u⟩ := u
  cases debounced with
  | true => exact .inl ⟨(Unconfirmed.unsent hunsent).confirmed_eq, hspares⟩
  | false =>
    have hid := hspares.trans (sparing_freeTierInstanceId (E := E) u)
    have hunsent' := hunsent.trans (unsent_freeTierInstanceId E u)
    simp only [Bool.false_eq_true, if_false, Prog.run_bind]
    generalize (freeTierInstanceId E).run u = v at hid hunsent' ⊢
    obtain ⟨instanceId, v⟩ := v
    by_cases hempty : instanceId = []
    · simp only [hempty, if_true]
      exact .inl ⟨(Unconfirmed.unsent hunsent').confirmed_eq, hid⟩
    · simp only [hempty, if_false, Prog.run_bind]
      have hhash := hid.trans ((sparing_helpers (X := X) (E := E)).machineHash v)
      have hbefore := hunsent'.trans (unsent_machineHash X E v)
      generalize (machineHash X E).run v = x at hhash hbefore ⊢
      obtain ⟨hash, x⟩ := x
      have hheaders := hhash.trans (Sparing.quiet (quiet_jsonHeaders X E) x)
      have hbefore' : Unsent w ((jsonHeaders X E).run x).2 := hbefore.trans (.same rfl)
      generalize (jsonHeaders X E).run x = y at hheaders hbefore' ⊢
      obtain ⟨headers, y⟩ := y
      generalize (buildJson X ([(ascii "instance_id", jsonStr instanceId), (ascii "state",
        jsonStr (keylessStateWire s))] ++ optionField (ascii "machine_hash") hash) true) = text
      have hreply := requestWithRetry_reply E (ascii "POST") (apiUrl X (ascii "keyless"))
        headers text y
      have hidle := (quiet_requestWithRetry E (ascii "POST") (apiUrl X (ascii "keyless"))
        headers text).run y
      have hconfirmed := requestWithRetry_confirmed E (ascii "POST")
        (apiUrl X (ascii "keyless")) headers text y
      generalize (requestWithRetry E _ _ headers text).run y = z at hreply hidle hconfirmed ⊢
      obtain ⟨r, z⟩ := z
      simp only at hreply hidle hconfirmed hheaders
      rw [← hreply] at hconfirmed
      have hwhole : confirmed w z = heard r := by
        rw [(Unconfirmed.unsent hbefore').confirmed_trans hidle.grows, hconfirmed]
      have hgrow : Grows w z := by
        obtain ⟨es, hes, -⟩ := hbefore'
        exact Grows.trans (v := y) ⟨es, hes.symm⟩ hidle.grows
      exact answeredReport_cases X E s hgrow (hheaders.trans (.idle hidle)) r hwhole

end Client

/-- A confirmed report: its state, the clock of its call and the time it left in the cache. -/
structure Beacon where
  state : KeylessState
  clock : Nat → Int64
  stamp : Int64

def beaconOf (X : Site) (call : Call) (w : World) : List Beacon :=
  match call.1 with
  | .reportKeylessState s =>
    let v := perform X call w
    if confirmed w v then [⟨s, call.2.now, v.client.cache.lastKeylessPingAt⟩] else []
  | _ => []

def beacons (X : Site) : List Call → World → List Beacon
  | [], _ => []
  | call :: rest, w => beaconOf X call w ++ beacons X rest (perform X call w)

/-- Every reading is positive and none is before an earlier one. -/
structure Clocked (E : Env) : Prop where
  positive : ∀ i, 0 < E.now i
  forward : ∀ i k, i ≤ k → E.now i ≤ E.now k

/-- The clock of `b` goes on where that of `a` stopped. -/
def Later (a b : Env) : Prop := ∀ i k, a.now i ≤ b.now k

/-- The store loads and saves, as a launch from the same store must find what was written; the clock
does not go back, and nothing is deactivated. -/
structure Orderly (calls : List Call) : Prop where
  works : ∀ call ∈ calls, StoreWorks call.2
  clocked : ∀ call ∈ calls, Clocked call.2
  later : calls.Pairwise fun a b => Later a.2 b.2
  kept : ∀ call ∈ calls, call.1 ≠ .deactivate

/-- The markers of the last confirmed beacon, in memory and on disk. -/
structure Marked (bs : List Beacon) (w : World) : Prop where
  recorded : Recorded w
  last : markers w.core.cache =
    bs.getLast?.elim (none, 0) fun b => (some (keylessStateWire b.state), b.stamp)

section
variable {X : Site}

theorem beacons_append (calls later : List Call) (w : World) : beacons X (calls ++ later) w =
    beacons X calls w ++ beacons X later (runAll (perform X) calls w) := by
  induction calls generalizing w with
  | nil => rfl
  | cons call calls ih =>
    simp only [List.cons_append, beacons, runAll, ih, List.append_assoc]

theorem beacons_concat (calls : List Call) (call : Call) (w : World) :
    beacons X (calls ++ [call]) w =
      beacons X calls w ++ beaconOf X call (runAll (perform X) calls w) := by
  rw [beacons_append, beacons, beacons, List.append_nil]

/-- One call is confirmed at most once. -/
theorem beaconOf_chain (R : Beacon → Beacon → Prop) (call : Call) (w : World) :
    (beaconOf X call w).IsChain R := by
  unfold beaconOf
  split
  · dsimp only
    split
    · exact .singleton _
    · exact .nil
  · exact .nil

/-- A beacon is stamped at a reading of its call. -/
theorem mem_beaconOf {call : Call} {w : World} {b : Beacon} (h : b ∈ beaconOf X call w) :
    call.1 = .reportKeylessState b.state ∧ b.clock = call.2.now ∧
      confirmed w (perform X call w) = true ∧ ∃ k, b.stamp = b.clock k := by
  obtain ⟨op, E⟩ := call
  cases op with
  | reportKeylessState s =>
    simp only [beaconOf] at h
    split at h
    · rename_i hconfirmed
      rw [List.mem_singleton] at h
      subst h
      refine ⟨rfl, rfl, hconfirmed, ?_⟩
      obtain ⟨hnone, -⟩ | ⟨-, ⟨k, hmarkers⟩, -⟩ :=
        reportKeylessState_cases X E s { w with ticks := {} }
      · have hsame : confirmed w (perform X (.reportKeylessState s, E) w) = false := hnone
        rw [hsame] at hconfirmed
        cases hconfirmed
      · exact ⟨k, congrArg Prod.snd hmarkers⟩
    · cases h
  | _ => cases h

theorem mem_beacons {calls : List Call} {w : World} {b : Beacon} (h : b ∈ beacons X calls w) :
    (∃ call ∈ calls, b.clock = call.2.now) ∧ ∃ k, b.stamp = b.clock k := by
  induction calls generalizing w with
  | nil => cases h
  | cons call calls ih =>
    obtain h | h := List.mem_append.mp h
    · obtain ⟨-, hclock, -, hstamp⟩ := mem_beaconOf h
      exact ⟨⟨call, .head _, hclock⟩, hstamp⟩
    · obtain ⟨⟨c, hmem, hclock⟩, hstamp⟩ := ih h
      exact ⟨⟨c, .tail _ hmem, hclock⟩, hstamp⟩

theorem Marked.spares {bs : List Beacon} {w v : World} (h : Marked bs w) (hv : Spares w v) :
    Marked bs v :=
  ⟨hv.disk h.recorded, hv.memory.trans h.last⟩

/-- One call keeps the markers those of the last confirmed beacon. -/
theorem perform_marked {call : Call} (hE : StoreWorks call.2) (hkept : call.1 ≠ .deactivate)
    {bs : List Beacon} {w : World} (h : Marked bs w) :
    Marked (bs ++ beaconOf X call w) (perform X call w) := by
  obtain ⟨op, E⟩ := call
  have hspared : beaconOf X (op, E) w = [] → Spares w (op.exec X E w) →
      Marked (bs ++ beaconOf X (op, E) w) (perform X (op, E) w) := by
    intro hnone hspares
    rw [hnone, List.append_nil]
    exact h.spares hspares
  cases op with
  | reportKeylessState s =>
    obtain ⟨hnone, hspares⟩ | ⟨hconfirmed, ⟨k, hmarkers⟩, hrecorded⟩ :=
      reportKeylessState_cases X E s { w with ticks := {} }
    · have hsame : confirmed w (perform X (.reportKeylessState s, E) w) = false := hnone
      apply hspared
      · rw [beaconOf]
        simp [hsame]
      · exact ⟨hspares.memory, hspares.disk⟩
    · have hsame : confirmed w (perform X (.reportKeylessState s, E) w) = true := hconfirmed
      refine ⟨hrecorded hE, ?_⟩
      have hbeacon : beaconOf X (.reportKeylessState s, E) w = [⟨s, E.now,
          (perform X (.reportKeylessState s, E) w).client.cache.lastKeylessPingAt⟩] := by
        rw [beaconOf]
        simp [hsame]
      rw [hbeacon, List.getLast?_concat]
      have hstate : (perform X (.reportKeylessState s, E) w).core.cache.keylessLastState =
          some (keylessStateWire s) := congrArg Prod.fst hmarkers
      exact Prod.ext hstate rfl
  | relaunch => exact hspared rfl (relaunch_recorded X hE h.recorded)
  | deactivate => exact absurd rfl hkept
  | _ => exact hspared rfl (Op.exec_spares X E w (by simp) (by simp) (by simp))

theorem run_marked {calls : List Call} (hworks : ∀ call ∈ calls, StoreWorks call.2)
    (hkept : ∀ call ∈ calls, call.1 ≠ .deactivate) {bs : List Beacon} {w : World}
    (h : Marked bs w) : Marked (bs ++ beacons X calls w) (runAll (perform X) calls w) := by
  induction calls generalizing bs w with
  | nil =>
    rw [beacons, List.append_nil]
    exact h
  | cons call calls ih =>
    have hstep := perform_marked (X := X) (hworks call (.head _)) (hkept call (.head _)) h
    have hrest := ih (fun c hc => hworks c (.tail _ hc)) (fun c hc => hkept c (.tail _ hc)) hstep
    rw [List.append_assoc] at hrest
    exact hrest

/-- Nothing is confirmed before the first call. -/
theorem marked_start : Marked [] {} := ⟨rfl, rfl⟩

theorem marked_history {calls : List Call} (h : Orderly calls) :
    Marked (beacons X calls {}) (history X [] calls) :=
  run_marked h.works h.kept marked_start

/-- With a clock that has not gone back the test of the window does not wrap. -/
theorem aged_of_le {last now : Int64} (hpos : 0 < last) (hle : last ≤ now) :
    now - last < 86400 ↔ Aged last now 86400 := by
  have hforward : Forward last now 86400 := by
    left
    refine ⟨hle, ?_⟩
    have h₁ := now.toInt_lt
    rw [Int64.lt_iff_toInt_lt, Int64.toInt_zero] at hpos
    omega
  have hwindow : (86400 : Int64).toInt = 86400 := by decide
  have haged := aged_iff last now 86400 (by decide)
  rw [hwindow] at haged
  refine ⟨haged.mpr hforward, ?_⟩
  rintro ⟨h₀, h₁⟩
  have hsub : (now - last).toInt = (now.toInt - last.toInt).bmod (2 ^ 64) := Int64.toInt_sub _ _
  rw [Int64.lt_iff_toInt_lt, hsub, hwindow, Int.bmod]
  split <;> omega

/-- A stamp of the run is positive and not after a later reading. -/
theorem stamp_le {calls : List Call} (h : Orderly calls) {E : Env}
    (hE : ∀ call ∈ calls, Later call.2 E) {w : World} {b : Beacon} (hb : b ∈ beacons X calls w)
    (i : Nat) : 0 < b.stamp ∧ b.stamp ≤ E.now i := by
  obtain ⟨⟨call, hmem, hclock⟩, k, hstamp⟩ := mem_beacons hb
  rw [hstamp, hclock]
  exact ⟨(h.clocked call hmem).positive k, hE call hmem k i⟩

/-- The debounce holds exactly while the last confirmed beacon carried the state within a day. -/
theorem debounced_iff {calls : List Call} (h : Orderly calls) {E : Env}
    (hE : ∀ call ∈ calls, Later call.2 E) (wire : Bytes) :
    Debounced (history X [] calls).client.cache wire (E.now 0) ↔
      ∃ b, (beacons X calls {}).getLast? = some b ∧ keylessStateWire b.state = wire ∧
        Aged b.stamp (E.now 0) 86400 := by
  have hmarked := (marked_history (X := X) h).last
  rw [markers] at hmarked
  have hstate := congrArg Prod.fst hmarked
  have hping := congrArg Prod.snd hmarked
  simp only at hstate hping
  rw [Debounced]
  cases hlast : (beacons X calls {}).getLast? with
  | none =>
    rw [hlast] at hping
    constructor
    · intro hdebounced
      exact absurd hping hdebounced.1
    · rintro ⟨b, hb, -⟩
      cases hb
  | some b =>
    rw [hlast] at hstate hping
    change (history X [] calls).client.cache.keylessLastState = _ at hstate
    change (history X [] calls).client.cache.lastKeylessPingAt = _ at hping
    obtain ⟨hpos, hle⟩ := stamp_le h hE (List.mem_of_getLast? hlast) 0
    rw [hstate, hping]
    simp only [Option.elim, Option.some.injEq, exists_eq_left']
    rw [aged_of_le hpos hle]
    constructor
    · rintro ⟨-, hwire, haged⟩
      exact ⟨hwire, haged⟩
    · rintro ⟨hwire, haged⟩
      refine ⟨?_, hwire, haged⟩
      rintro hzero
      rw [hzero] at hpos
      exact absurd hpos (by decide)

theorem report_unsent (X : Site) (E : Env) (s : KeylessState) (w : World) :
    Unsent w ((Op.reportKeylessState s).exec X E w) ↔
      Debounced w.client.cache (keylessStateWire s) (E.now 0) ∨
        beaconId E { w with ticks := {} } = [] :=
  reportKeylessState_unsent X E s { w with ticks := {} }

/-- A confirmed beacon of the same state as the last one comes a day after it. -/
theorem beaconOf_apart {calls : List Call} {call : Call} (h : Orderly calls)
    (hcall : ∀ c ∈ calls, Later c.2 call.2) {a b : Beacon}
    (ha : (beacons X calls {}).getLast? = some a)
    (hb : b ∈ beaconOf X call (history X [] calls))
    (hsame : keylessStateWire a.state = keylessStateWire b.state) :
    a.stamp.toInt + 86400 ≤ (call.2.now 0).toInt := by
  obtain ⟨hop, -, hconfirmed, -⟩ := mem_beaconOf hb
  obtain ⟨op, E⟩ := call
  subst hop
  have hsent : ¬Debounced (history X [] calls).client.cache (keylessStateWire b.state)
      (E.now 0) := by
    intro hdebounced
    have hunsent := (report_unsent X E b.state (history X [] calls)).mpr (.inl hdebounced)
    have hnone := (Unconfirmed.unsent hunsent).confirmed_eq
    rw [perform, hnone] at hconfirmed
    cases hconfirmed
  rw [debounced_iff h hcall] at hsent
  have hnot : ¬Aged a.stamp (E.now 0) 86400 := fun haged => hsent ⟨a, ha, hsame, haged⟩
  obtain ⟨-, hle⟩ := stamp_le h hcall (List.mem_of_getLast? ha) 0
  rw [Int64.le_iff_toInt_le] at hle
  rw [Aged] at hnot
  change _ ≤ (E.now 0).toInt
  change _ ≤ (E.now 0).toInt at hle
  omega

/-- Two successive beacons with one wire state are a day apart: by induction on the calls, with the
markers of the last beacon. -/
theorem beacons_chain {calls : List Call} (h : Orderly calls) :
    (beacons X calls {}).IsChain fun a b => keylessStateWire a.state = keylessStateWire b.state →
      ∀ i, a.stamp.toInt + 86400 ≤ (b.clock i).toInt := by
  induction calls using List.reverseRecOn with
  | nil => exact .nil
  | append_singleton calls call ih =>
    have hbefore : Orderly calls :=
      ⟨fun c hc => h.works c (List.mem_append_left _ hc),
        fun c hc => h.clocked c (List.mem_append_left _ hc),
        (List.pairwise_append.mp h.later).1, fun c hc => h.kept c (List.mem_append_left _ hc)⟩
    have hlater : ∀ c ∈ calls, Later c.2 call.2 := fun c hc =>
      (List.pairwise_append.mp h.later).2.2 c hc call (.head _)
    rw [beacons_concat, List.isChain_append]
    refine ⟨ih hbefore, beaconOf_chain _ call _, ?_⟩
    intro a ha b hb hsame i
    have hmem := List.mem_of_head? hb
    have hapart := beaconOf_apart hbefore hlater ha hmem hsame
    have hforward := (h.clocked call (by simp)).forward 0 i (Nat.zero_le i)
    rw [Int64.le_iff_toInt_le] at hforward
    rw [(mem_beaconOf hmem).2.1]
    exact hapart.trans hforward

end

/-- The beacons of a run over a new store. -/
theorem beacons_debounced (X : Site) {calls : List Call} (h : Orderly calls) (s : KeylessState)
    {E : Env} (hlater : ∀ call ∈ calls, Later call.2 E) :
    let w := history X [] calls
    let v := (Op.reportKeylessState s).exec X E w
    ((beacons X calls {}).IsChain fun a b => keylessStateWire a.state = keylessStateWire b.state →
      ∀ i, a.stamp.toInt + 86400 ≤ (b.clock i).toInt) ∧
    (∀ b ∈ beacons X calls {}, ∃ k, b.stamp = b.clock k) ∧
    (Unsent w v ↔ beaconId E { w with ticks := {} } = [] ∨
      ∃ b, (beacons X calls {}).getLast? = some b ∧
        keylessStateWire b.state = keylessStateWire s ∧ Aged b.stamp (E.now 0) 86400) ∧
    (confirmed w v = false → markers v.client.cache = markers w.client.cache ∧
      storedMarkers v.store = storedMarkers w.store) := by
  intro w v
  refine ⟨beacons_chain h, fun b hb => (mem_beacons hb).2, ?_, ?_⟩
  · rw [report_unsent, debounced_iff h hlater, or_comm]
  · intro hnone
    have hspares : Spares w v := by
      obtain ⟨-, hspares⟩ | ⟨hconfirmed, -⟩ :=
        reportKeylessState_cases X E s { w with ticks := {} }
      · exact ⟨hspares.memory, hspares.disk⟩
      · have hsame : confirmed w v = true := hconfirmed
        rw [hsame] at hnone
        cases hnone
    exact ⟨hspares.memory, hspares.stored (marked_history h).recorded⟩

theorem clocked_const {E : Env} {t : Int64} (hE : E.now = fun _ => t) (ht : 0 < t) :
    Clocked E := by
  constructor
  · intro i
    rw [hE]
    exact ht
  · intro i k _
    rw [hE]
    exact Int64.le_refl t

/-- An hour after a confirmed report of the trial. -/
theorem beacons_debounced_vector :
    let calls := [(.relaunch, offlineAt 1781076300),
      (.reportKeylessState .trial, repliesAt 1781076301 ⟨200, [], []⟩)]
    let w := history vectorSite [] calls
    let E := offlineAt 1781079901
    Unsent w ((Op.reportKeylessState .trial).exec vectorSite E w) ↔
      beaconId E { w with ticks := {} } = [] ∨
        ∃ b, (beacons vectorSite calls {}).getLast? = some b ∧
          keylessStateWire b.state = keylessStateWire .trial ∧
          Aged b.stamp (E.now 0) 86400 := by
  intro calls w E
  have horderly : Orderly calls := by
    refine ⟨?_, ?_, ?_, ?_⟩
    · simp only [calls, List.forall_mem_cons]
      exact ⟨offlineAt_works _, ⟨fun _ => rfl, fun _ => rfl⟩, by simp⟩
    · simp only [calls, List.forall_mem_cons]
      exact ⟨clocked_const rfl (by decide), clocked_const rfl (by decide), by simp⟩
    · simp only [calls, List.pairwise_pair]
      intro i k
      change (1781076300 : Int64) ≤ 1781076301
      decide
    · simp [calls]
  have hlater : ∀ call ∈ calls, Later call.2 E := by
    simp only [calls, List.forall_mem_cons]
    refine ⟨?_, ?_, by simp⟩
    · intro i k
      change (1781076300 : Int64) ≤ 1781079901
      decide
    · intro i k
      change (1781076301 : Int64) ≤ 1781079901
      decide
  exact (beacons_debounced vectorSite horderly .trial hlater).2.2.1

end Keylight
