import Keylight.Operations
import Keylight.Ownership
import Mathlib.Data.List.Chain

/-!
# State events

`notify_` with its delivery loop, for any number of threads. A thread is a stack
of frames, the innermost activation first: a listener that re-enters the client
pushes frames above the loop that called it. Each frame's next section is
`Frame.step`; the sections of all threads interleave freely.
-/
namespace Keylight.Events
open Ownership Sections

/-- Where an activation stands. -/
inductive Frame where
  /-- application code, a listener's body or client code between two notifications -/
  | host
  /-- `set_state_`, about to store; what it reads for lifecycle events is in `Client.setState` -/
  | storing (newState : State)
  /-- `notify_`, waiting for `notify_mutex_` -/
  | locking
  /-- `clock_untrusted_`, about to load the anchor -/
  | anchoring
  | timing (anchor : Int64)
  /-- `state`, about to load `state_` -/
  | loading
  | publishing (reported : State)
  /-- the head of the delivery loop -/
  | draining
  | copying (ev : State)
  | looping (ev : State) (cbs : List Nat)
  /-- the loop while a listener runs in the frame above -/
  | calling (ev : State) (cbs : List Nat)
  deriving DecidableEq

/-- What the threads share, and below it a history nothing in the code reads. -/
structure Channel (ι : Type) where
  client : Client
  now : Int64
  listeners : List Nat
  owner : Option ι := none
  pending : List State := []
  delivering : Bool := false
  initial : State
  queued : List State := []
  delivered : List State := []
  snapshots : List (State × List Nat) := []
  calls : List (State × Nat) := []
  /-- the anchor and the clock as the last `notify_` read them -/
  noted : Int64 × Int64

variable {ι : Type} {i : ι}

/-- The next section of a frame: the frames it is replaced by and the shared state after it,
or `none` while it waits. -/
def Frame.step (self : ι) (c : Channel ι) : Frame → Option (List Frame × Channel ι)
  | .host => none
  | .calling _ _ => none
  | .storing newState => some ([.locking], { c with client.rawState := newState })
  | .locking =>
    if c.owner = none then some ([.anchoring], { c with owner := some self }) else none
  | .anchoring =>
    some ([if c.client.anchor ≠ 0 then .timing c.client.anchor else .loading],
      { c with noted := (c.client.anchor, c.now) })
  | .timing anchor =>
    some ([if clockRolledBack anchor c.now then .publishing .invalid else .loading],
      { c with noted := (anchor, c.now) })
  | .loading => some ([.publishing c.client.rawState], c)
  | .publishing reported =>
    if c.client.lastReported = reported then some ([], { c with owner := none })
    else
      let c := { c with
        owner := none
        pending := c.pending ++ [reported]
        queued := c.queued ++ [reported]
        client.lastReported := reported }
      if c.delivering then some ([], c) else some ([.draining], { c with delivering := true })
  | .draining =>
    if c.owner = none then
      match c.pending with
      | [] => some ([], { c with delivering := false })
      | ev :: rest =>
        some ([.copying ev], { c with pending := rest, delivered := c.delivered ++ [ev] })
    else none
  | .copying ev =>
    some ([.looping ev c.listeners], { c with snapshots := c.snapshots ++ [(ev, c.listeners)] })
  | .looping _ [] => some ([.draining], c)
  | .looping ev (cb :: cbs) =>
    some ([.host, .calling ev cbs], { c with calls := c.calls ++ [(ev, cb)] })

/-- Every section a frame can run. -/
inductive Moved (i : ι) (c : Channel ι) : Frame → List Frame → Channel ι → Prop where
  | stored (newState : State) :
    Moved i c (.storing newState) [.locking] { c with client.rawState := newState }
  | locked (h : c.owner = none) : Moved i c .locking [.anchoring] { c with owner := some i }
  | anchored (h : c.client.anchor ≠ 0) :
    Moved i c .anchoring [.timing c.client.anchor] { c with noted := (c.client.anchor, c.now) }
  | unanchored (h : c.client.anchor = 0) :
    Moved i c .anchoring [.loading] { c with noted := (c.client.anchor, c.now) }
  | rolledBack (anchor : Int64) (h : clockRolledBack anchor c.now = true) :
    Moved i c (.timing anchor) [.publishing .invalid] { c with noted := (anchor, c.now) }
  | trusted (anchor : Int64) (h : clockRolledBack anchor c.now = false) :
    Moved i c (.timing anchor) [.loading] { c with noted := (anchor, c.now) }
  | loaded : Moved i c .loading [.publishing c.client.rawState] c
  | unchanged (reported : State) (h : c.client.lastReported = reported) :
    Moved i c (.publishing reported) [] { c with owner := none }
  | queued (reported : State) (h : c.client.lastReported ≠ reported) (hd : c.delivering = true) :
    Moved i c (.publishing reported) []
      { c with
        owner := none
        pending := c.pending ++ [reported]
        queued := c.queued ++ [reported]
        client.lastReported := reported }
  | took (reported : State) (h : c.client.lastReported ≠ reported) (hd : c.delivering = false) :
    Moved i c (.publishing reported) [.draining]
      { c with
        owner := none
        pending := c.pending ++ [reported]
        queued := c.queued ++ [reported]
        client.lastReported := reported
        delivering := true }
  | drained (ho : c.owner = none) (h : c.pending = []) :
    Moved i c .draining [] { c with delivering := false }
  | popped (ho : c.owner = none) (ev : State) (rest : List State) (h : c.pending = ev :: rest) :
    Moved i c .draining [.copying ev]
      { c with pending := rest, delivered := c.delivered ++ [ev] }
  | copied (ev : State) : Moved i c (.copying ev) [.looping ev c.listeners]
      { c with snapshots := c.snapshots ++ [(ev, c.listeners)] }
  | looped (ev : State) : Moved i c (.looping ev []) [.draining] c
  | called (ev : State) (cb : Nat) (cbs : List Nat) :
    Moved i c (.looping ev (cb :: cbs)) [.host, .calling ev cbs]
      { c with calls := c.calls ++ [(ev, cb)] }

/-- A section of a frame makes one of the moves. -/
theorem Frame.step_moved {i : ι} {c c' : Channel ι} {f : Frame} {top : List Frame}
    (h : f.step i c = some (top, c')) : Moved i c f top c' := by
  cases f with
  | host => cases h
  | calling ev cbs => cases h
  | storing st =>
    cases h
    exact .stored st
  | locking =>
    simp only [Frame.step] at h
    split at h
    · rename_i ho
      cases h
      exact .locked ho
    · cases h
  | anchoring =>
    cases h
    by_cases ha : c.client.anchor = 0
    · rw [if_neg (by simp [ha])]
      exact .unanchored ha
    · rw [if_pos ha]
      exact .anchored ha
  | timing a =>
    cases h
    cases hr : clockRolledBack a c.now with
    | true => exact .rolledBack a hr
    | false => exact .trusted a hr
  | loading =>
    cases h
    exact .loaded
  | publishing r =>
    simp only [Frame.step] at h
    split at h
    · rename_i hl
      cases h
      exact .unchanged r hl
    · rename_i hl
      split at h
      · rename_i hd
        cases h
        exact .queued r hl hd
      · rename_i hd
        cases h
        exact .took r hl (Bool.eq_false_iff.2 hd)
  | draining =>
    simp only [Frame.step] at h
    split at h
    · rename_i ho
      split at h
      · rename_i hp
        cases h
        exact .drained ho hp
      · rename_i ev rest hp
        cases h
        exact .popped ho ev rest hp
    · cases h
  | copying ev =>
    cases h
    exact .copied ev
  | looping ev cbs =>
    cases cbs with
    | nil =>
      cases h
      exact .looped ev
    | cons cb cbs =>
      cases h
      exact .called ev cb cbs

/-- The sections of one thread while no other moves. -/
abbrev Alone (i : ι) : List Frame × Channel ι → List Frame × Channel ι → Prop :=
  Relation.ReflTransGen fun p q => ∃ f fs top, p.1 = f :: fs ∧
    f.step i p.2 = some (top, q.2) ∧ q.1 = top ++ fs

theorem Alone.next {p : List Frame × Channel ι} {f : Frame} {fs top : List Frame}
    {c c' : Channel ι} (h : Alone i p (f :: fs, c)) (hs : f.step i c = some (top, c')) :
    Alone i p (top ++ fs, c') :=
  h.tail ⟨f, fs, top, rfl, hs, rfl⟩

theorem state_run (E : Env) (w : World) :
    ((Client.state E).run w).1 = w.client.stateAt (E.now w.ticks.now) ∧
      ((Client.state E).run w).2.client = w.client ∧ ((Client.state E).run w).2.log = w.log := by
  simp only [Client.state, Client.clockUntrusted, loadState, nowFn, Prog.run_bind, Prog.run_read,
    Prog.run_ite, Prog.run_atom, Prog.run_pure, Client.stateAt, Client.untrustedAt]
  by_cases ha : w.client.anchor = 0
  · simp [ha]
  · by_cases hr : clockRolledBack w.client.anchor (E.now w.ticks.now) = true
    · simp [ha, hr]
    · simp [ha, hr]

/-- What `notify_` reports in the world of one thread. -/
theorem notify_run (E : Env) (w : World) :
    ((Client.notify E).run w).2.client =
      { w.client with lastReported := w.client.stateAt (E.now w.ticks.now) } ∧
    ((Client.notify E).run w).2.log =
      w.log ++ if w.client.lastReported = w.client.stateAt (E.now w.ticks.now) then []
        else [.queued (w.client.stateAt (E.now w.ticks.now))] := by
  obtain ⟨hvalue, hclient, hlog⟩ := state_run E { w with notifyOwner := some E.self }
  have hvalue : ((Client.state E).run { w with notifyOwner := some E.self }).1 =
      w.client.stateAt (E.now w.ticks.now) := hvalue
  simp only [Client.notify, lockNotify, unlockNotify, Prog.run_bind, Prog.run_await,
    Prog.run_modify, hvalue, hclient]
  split
  · rename_i h
    refine ⟨?_, by simpa using hlog⟩
    rw [← h]
    exact hclient
  · refine ⟨?_, ?_⟩
    · simp
    · simp [hlog]

/-- `Client.notify` is the critical section of `notify_`, run by a thread that meets no other. -/
theorem notify_sections (E : Env) (w : World) (c : Channel ι) (howner : c.owner = none)
    (hclient : c.client = w.client) (hnow : E.now w.ticks.now = c.now) : ∃ top c',
    Alone i ([.locking], c) (top, c') ∧ c'.owner = none ∧
      c'.client = ((Client.notify E).run w).2.client ∧
      ((Client.notify E).run w).2.log =
        w.log ++ (c'.queued.drop c.queued.length).map Event.queued := by
  obtain ⟨hc, hlog⟩ := notify_run E w
  rw [hc, hlog, ← hclient, hnow]
  have hfree : Frame.step i c .locking = some ([.anchoring], { c with owner := some i }) := by
    simp [Frame.step, howner]
  have hlock : Alone i ([.locking], c) ([.anchoring], { c with owner := some i }) :=
    Alone.next .refl hfree
  -- the reads end with the guarded state about to be published
  have hread : ∃ noted, Alone i ([.locking], c)
      ([.publishing (c.client.stateAt c.now)], { c with owner := some i, noted := noted }) := by
    have hanchor := hlock.next (rfl : Frame.step i { c with owner := some i } .anchoring = _)
    by_cases ha : c.client.anchor = 0
    · rw [if_neg (by simp [ha])] at hanchor
      have hstate : c.client.stateAt c.now = c.client.rawState := by
        simp [Client.stateAt, Client.untrustedAt, ha]
      rw [hstate]
      exact ⟨_, hanchor.next rfl⟩
    · rw [if_pos ha] at hanchor
      have htime := hanchor.next rfl
      by_cases hr : clockRolledBack c.client.anchor c.now = true
      · have hstate : c.client.stateAt c.now = .invalid := by
          simp [Client.stateAt, Client.untrustedAt, ha, hr]
        rw [hstate]
        simp only [hr, if_true] at htime
        exact ⟨_, htime⟩
      · have hstate : c.client.stateAt c.now = c.client.rawState := by
          simp [Client.stateAt, Client.untrustedAt, hr]
        rw [hstate]
        simp only [hr] at htime
        exact ⟨_, htime.next rfl⟩
  obtain ⟨noted, hread⟩ := hread
  by_cases hsame : c.client.lastReported = c.client.stateAt c.now
  · refine ⟨_, _, hread.next (if_pos hsame), rfl, ?_, ?_⟩
    · rw [← hsame]
    · simp [hsame]
  · have hstep : ∃ top c', (Frame.publishing (c.client.stateAt c.now)).step i
        { c with owner := some i, noted := noted } = some (top, c') ∧ c'.owner = none ∧
        c'.client = { c.client with lastReported := c.client.stateAt c.now } ∧
        c'.queued = c.queued ++ [c.client.stateAt c.now] := by
      simp only [Frame.step, if_neg hsame]
      split
      · exact ⟨_, _, rfl, rfl, rfl, rfl⟩
      · exact ⟨_, _, rfl, rfl, rfl, rfl⟩
    obtain ⟨top, c', hs, ho, hcl, hq⟩ := hstep
    refine ⟨_, c', hread.next hs, ho, hcl, ?_⟩
    simp [hsame, hq]

/-- All threads and what they share. -/
structure System (ι : Type) extends Channel ι where
  threads : ι → List Frame

variable [DecidableEq ι]

/-- Thread `i` replaces its innermost frame. -/
def System.move (s : System ι) (i : ι) (stack : List Frame) (c : Channel ι) : System ι :=
  ⟨c, Function.update s.threads i stack⟩

/-- One step of some thread, or of the clock, the anchor and the subscriptions. -/
inductive Step : System ι → System ι → Prop where
  | section (s : System ι) (i : ι) (f : Frame) (fs top : List Frame) (c : Channel ι)
    (h : s.threads i = f :: fs) (hs : f.step i s.toChannel = some (top, c)) :
    Step s (s.move i (top ++ fs) c)
  | setState (s : System ι) (i : ι) (fs : List Frame) (h : s.threads i = .host :: fs)
    (newState : State) : Step s (s.move i (.storing newState :: .host :: fs) s.toChannel)
  | notify (s : System ι) (i : ι) (fs : List Frame) (h : s.threads i = .host :: fs) :
    Step s (s.move i (.locking :: .host :: fs) s.toChannel)
  | returned (s : System ι) (i : ι) (ev : State) (cbs : List Nat) (fs : List Frame)
    (h : s.threads i = .host :: .calling ev cbs :: fs) :
    Step s (s.move i (.looping ev cbs :: fs) s.toChannel)
  /-- `catch (...)`: the loop goes on with the next listener -/
  | threw (s : System ι) (i : ι) (ev : State) (cbs : List Nat) (fs : List Frame)
    (h : s.threads i = .host :: .calling ev cbs :: fs) :
    Step s (s.move i (.looping ev cbs :: fs) s.toChannel)
  | tick (s : System ι) (t : Int64) : Step s { s with now := t }
  | anchor (s : System ι) (t : Int64) : Step s { s with client.anchor := t }
  | subscribe (s : System ι) (ls : List Nat) : Step s { s with listeners := ls }

/-- A constructed client: what it reports was stored as the last report. -/
def start (client : Client) (now : Int64) (listeners : List Nat) : System ι where
  client := { client with lastReported := client.stateAt now }
  now := now
  listeners := listeners
  initial := client.stateAt now
  noted := (client.anchor, now)
  threads _ := [.host]

abbrev Reachable (client : Client) (now : Int64) (listeners : List Nat) (s : System ι) : Prop :=
  Relation.ReflTransGen Step (start client now listeners) s

end Keylight.Events
