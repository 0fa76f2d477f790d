import Keylight.Ownership
import Mathlib.Algebra.Group.Nat.Defs

/-!
# Background threads

The auto-validation workers and the keyless heartbeat. A worker is retired by an
epoch it was not spawned with; start and stop join only workers that have marked
themselves done, the destructor joins the rest. Each section under `av_mutex_` or
`kh_mutex_` is one step, and any thread may take the next one.
-/
namespace Keylight.Workers

variable {H : Type}

/-- A thread of the host, an auto-validation worker or a heartbeat, by order of spawning. -/
inductive Thread (H : Type) where
  | host (h : H)
  | worker (w : Nat)
  | heartbeat (b : Nat)
  deriving DecidableEq

/-- The calls that move background threads; `setState` ends in `start_heartbeat_`. -/
inductive Call where
  | start | stop | setState
  deriving DecidableEq

/-- What a thread is doing in such a call. -/
inductive Activity where
  | free
  /-- waiting for the mutex of the call -/
  | entered (call : Call)
  /-- `~Reaper`, with the workers still to join -/
  | reaping (ws : List Nat)
  deriving DecidableEq

/-- How far a worker is. -/
inductive Stage where
  | unborn
  /-- at the loop's condition -/
  | checking
  | waiting
  /-- inside `refreshIfNeeded`, where its listeners may call back in -/
  | cycling
  /-- past the loop, before `done->store(true)` -/
  | left
  | done
  | exited
  deriving DecidableEq

/-- How far a heartbeat is. -/
inductive Beat where
  | unborn | waiting | reporting | exited
  deriving DecidableEq

/-- How far `~Client` is. -/
inductive Teardown where
  | alive
  /-- `stop_heartbeat_` joins its victim -/
  | halting (victim : Option Nat)
  | halted
  /-- the destructor's Reaper, with the workers still to join -/
  | joining (ws : List Nat)
  | ended
  deriving DecidableEq

structure Pool (H : Type) where
  epoch : UInt64 := 0
  current : Option Nat := none
  retired : List Nat := []
  /-- the number of workers spawned so far -/
  spawned : Nat := 0
  epochOf : Nat → UInt64 := fun _ => 0
  stage : Nat → Stage := fun _ => .unborn
  joined : Nat → Bool := fun _ => false
  activity : Thread H → Activity := fun _ => .free
  stopBeat : Bool := false
  shutdown : Bool := false
  heartbeat : Option Nat := none
  beats : Nat := 0
  beat : Nat → Beat := fun _ => .unborn
  teardown : Teardown := .alive
  /-- how often the epoch was bumped, and the count at each worker's spawning -/
  bumps : Nat := 0
  born : Nat → Nat := fun _ => 0
  /-- the validation cycles each worker has begun -/
  begun : Nat → Nat := fun _ => 0

inductive Label (H : Type) where
  | call (t : Thread H) (c : Call)
  /-- a critical section; `spawns` is whether the system grants a thread -/
  | start (t : Thread H) (spawns : Bool)
  | stop (t : Thread H)
  | setState (t : Thread H) (spawns : Bool)
  | join (t : Thread H)
  | check (w : Nat)
  | wake (w : Nat)
  | cycled (w : Nat)
  | mark (w : Nat)
  | exit (w : Nat)
  | beatWake (b : Nat)
  | beatCycled (b : Nat)
  | halt
  | haltJoin
  | collect
  | collectJoin

namespace Pool

/-- The `done` flag of a worker. -/
def isDone (s : Pool H) (w : Nat) : Bool := s.stage w = .done ∨ s.stage w = .exited

/-- `take_exited_`: the retired workers that are done, and those that stay. -/
def takeExited (s : Pool H) : List Nat × List Nat :=
  (s.retired.filter s.isDone, s.retired.filter fun w => !s.isDone w)

/-- Host threads call at any time, the others from inside a cycle. -/
def mayCall (s : Pool H) : Thread H → Bool
  | .host _ => true
  | .worker w => s.stage w = .cycling
  | .heartbeat b => s.beat b = .reporting

def setStage (s : Pool H) (w : Nat) (g : Stage) : Pool H :=
  { s with stage := Function.update s.stage w g }

def setBeat (s : Pool H) (b : Nat) (g : Beat) : Pool H :=
  { s with beat := Function.update s.beat b g }

def bump (s : Pool H) : Pool H := { s with epoch := s.epoch + 1, bumps := s.bumps + 1 }

/-- A new worker of the present epoch in the current slot. -/
def spawn (s : Pool H) : Pool H :=
  { s with
    current := some s.spawned
    spawned := s.spawned + 1
    epochOf := Function.update s.epochOf s.spawned s.epoch
    stage := Function.update s.stage s.spawned .checking
    born := Function.update s.born s.spawned s.bumps }

/-- `start_heartbeat_` -/
def startHeartbeat (s : Pool H) (intervalMs : Int) (spawns : Bool) : Pool H :=
  if intervalMs ≤ 0 then s
  else if s.shutdown then s
  else if s.heartbeat.isSome then s
  else if spawns then
    { s with
      stopBeat := false
      heartbeat := some s.beats
      beats := s.beats + 1
      beat := Function.update s.beat s.beats .waiting }
  else { s with stopBeat := false }

/-- `start_heartbeat_` touches only the heartbeat's fields. -/
theorem startHeartbeat_eq (s : Pool H) (intervalMs : Int) (spawns : Bool) : ∃ stop hb n beat,
    s.startHeartbeat intervalMs spawns =
      { s with stopBeat := stop, heartbeat := hb, beats := n, beat := beat } := by
  unfold startHeartbeat
  split
  · exact ⟨_, _, _, _, rfl⟩
  · split
    · exact ⟨_, _, _, _, rfl⟩
    · split
      · exact ⟨_, _, _, _, rfl⟩
      · split
        · exact ⟨_, _, _, _, rfl⟩
        · exact ⟨_, _, _, _, rfl⟩

variable [DecidableEq H]

def setActivity (s : Pool H) (t : Thread H) (a : Activity) : Pool H :=
  { s with activity := Function.update s.activity t a }

/-- The critical section of `startAutoValidation`. -/
def startAutoValidation (s : Pool H) (t : Thread H) (spawns : Bool) : Pool H :=
  let (exited, running) := s.takeExited
  let s := { s with retired := running }.setActivity t (.reaping exited)
  match s.current with
  | some _ => s
  -- a `std::thread` that cannot be created throws after the bump
  | none => if spawns then s.bump.spawn else s.bump

/-- The critical section of `stopAutoValidation`. -/
def stopAutoValidation (s : Pool H) (t : Thread H) : Pool H :=
  let (exited, running) := s.takeExited
  let s := { s with retired := running }.setActivity t (.reaping exited)
  match s.current with
  | some w => { s.bump with retired := running ++ [w], current := none }
  | none => s

/-- The step of a label, or `none` where it is not possible. -/
def next (intervalMs : Int) (s : Pool H) : Label H → Option (Pool H)
  | .call t c =>
    if s.activity t = .free ∧ s.mayCall t then some (s.setActivity t (.entered c)) else none
  | .start t spawns =>
    if s.activity t = .entered .start then some (s.startAutoValidation t spawns) else none
  | .stop t => if s.activity t = .entered .stop then some (s.stopAutoValidation t) else none
  | .setState t spawns =>
    if s.activity t = .entered .setState then
      some ((s.startHeartbeat intervalMs spawns).setActivity t .free)
    else none
  | .join t =>
    match s.activity t with
    | .reaping [] => some (s.setActivity t .free)
    | .reaping (w :: ws) =>
      if s.stage w = .exited then
        some { s.setActivity t (.reaping ws) with joined := Function.update s.joined w true }
      else none
    | _ => none
  | .check w =>
    if s.stage w = .checking then
      some (s.setStage w (if s.epoch = s.epochOf w then .waiting else .left))
    else none
  | .wake w =>
    if s.stage w = .waiting then
      if s.epoch = s.epochOf w then
        some { s.setStage w .cycling with begun := Function.update s.begun w (s.begun w + 1) }
      else some (s.setStage w .left)
    else none
  | .cycled w =>
    if s.stage w = .cycling ∧ s.activity (.worker w) = .free then
      some (s.setStage w .checking)
    else none
  | .mark w => if s.stage w = .left then some (s.setStage w .done) else none
  | .exit w => if s.stage w = .done then some (s.setStage w .exited) else none
  | .beatWake b =>
    if s.beat b = .waiting then
      some (s.setBeat b (if s.stopBeat then .exited else .reporting))
    else none
  | .beatCycled b =>
    if s.beat b = .reporting ∧ s.activity (.heartbeat b) = .free then
      some (s.setBeat b .waiting)
    else none
  | .halt =>
    if s.teardown = .alive then
      some { s with
        stopBeat := true
        shutdown := true
        teardown := .halting s.heartbeat
        heartbeat := none }
    else none
  | .haltJoin =>
    match s.teardown with
    | .halting none => some { s with teardown := .halted }
    | .halting (some b) =>
      if s.beat b = .exited then some { s with teardown := .halted } else none
    | _ => none
  | .collect =>
    if s.teardown = .halted then
      some { s.bump with
        teardown := .joining (s.current.toList ++ s.retired)
        current := none
        retired := [] }
    else none
  | .collectJoin =>
    match s.teardown with
    | .joining [] => some { s with teardown := .ended }
    | .joining (w :: ws) =>
      if s.stage w = .exited then
        some { s with teardown := .joining ws, joined := Function.update s.joined w true }
      else none
    | _ => none

end Pool

variable [DecidableEq H]

/-- The steps that `next` allows, one constructor a branch. -/
inductive Move (intervalMs : Int) (s : Pool H) : Label H → Pool H → Prop where
  | call (t : Thread H) (c : Call) (hfree : s.activity t = .free) (hmay : s.mayCall t = true) :
    Move intervalMs s (.call t c) (s.setActivity t (.entered c))
  | start (t : Thread H) (spawns : Bool) (h : s.activity t = .entered .start) :
    Move intervalMs s (.start t spawns) (s.startAutoValidation t spawns)
  | stop (t : Thread H) (h : s.activity t = .entered .stop) :
    Move intervalMs s (.stop t) (s.stopAutoValidation t)
  | setState (t : Thread H) (spawns : Bool) (h : s.activity t = .entered .setState) :
    Move intervalMs s (.setState t spawns)
      ((s.startHeartbeat intervalMs spawns).setActivity t .free)
  | reaped (t : Thread H) (h : s.activity t = .reaping []) :
    Move intervalMs s (.join t) (s.setActivity t .free)
  | joined (t : Thread H) (w : Nat) (ws : List Nat) (h : s.activity t = .reaping (w :: ws))
    (hw : s.stage w = .exited) : Move intervalMs s (.join t)
      { s.setActivity t (.reaping ws) with joined := Function.update s.joined w true }
  | kept (w : Nat) (h : s.stage w = .checking) (he : s.epoch = s.epochOf w) :
    Move intervalMs s (.check w) (s.setStage w .waiting)
  | leftLoop (w : Nat) (h : s.stage w = .checking) (he : s.epoch ≠ s.epochOf w) :
    Move intervalMs s (.check w) (s.setStage w .left)
  | began (w : Nat) (h : s.stage w = .waiting) (he : s.epoch = s.epochOf w) :
    Move intervalMs s (.wake w)
      { s.setStage w .cycling with begun := Function.update s.begun w (s.begun w + 1) }
  | leftWait (w : Nat) (h : s.stage w = .waiting) (he : s.epoch ≠ s.epochOf w) :
    Move intervalMs s (.wake w) (s.setStage w .left)
  | cycled (w : Nat) (h : s.stage w = .cycling) (hfree : s.activity (.worker w) = .free) :
    Move intervalMs s (.cycled w) (s.setStage w .checking)
  | marked (w : Nat) (h : s.stage w = .left) : Move intervalMs s (.mark w) (s.setStage w .done)
  | exited (w : Nat) (h : s.stage w = .done) : Move intervalMs s (.exit w) (s.setStage w .exited)
  | beatWoke (b : Nat) (h : s.beat b = .waiting) : Move intervalMs s (.beatWake b)
      (s.setBeat b (if s.stopBeat then .exited else .reporting))
  | beatCycled (b : Nat) (h : s.beat b = .reporting)
    (hfree : s.activity (.heartbeat b) = .free) :
    Move intervalMs s (.beatCycled b) (s.setBeat b .waiting)
  | halted (h : s.teardown = .alive) : Move intervalMs s .halt
      { s with
        stopBeat := true
        shutdown := true
        teardown := .halting s.heartbeat
        heartbeat := none }
  | unhalted (h : s.teardown = .halting none) :
    Move intervalMs s .haltJoin { s with teardown := .halted }
  | haltJoined (b : Nat) (h : s.teardown = .halting (some b)) (hb : s.beat b = .exited) :
    Move intervalMs s .haltJoin { s with teardown := .halted }
  | collected (h : s.teardown = .halted) : Move intervalMs s .collect
      { s.bump with
        teardown := .joining (s.current.toList ++ s.retired)
        current := none
        retired := [] }
  | ended (h : s.teardown = .joining []) :
    Move intervalMs s .collectJoin { s with teardown := .ended }
  | collectJoined (w : Nat) (ws : List Nat) (h : s.teardown = .joining (w :: ws))
    (hw : s.stage w = .exited) : Move intervalMs s .collectJoin
      { s with teardown := .joining ws, joined := Function.update s.joined w true }

/-- A label makes one of the moves. -/
theorem Pool.next_move {intervalMs : Int} {s t : Pool H} {l : Label H}
    (h : s.next intervalMs l = some t) : Move intervalMs s l t := by
  cases l with
  | call t c =>
    simp only [Pool.next] at h
    split at h
    · rename_i hc
      cases h
      exact .call t c hc.1 hc.2
    · cases h
  | start t spawns =>
    simp only [Pool.next] at h
    split at h
    · rename_i hc
      cases h
      exact .start t spawns hc
    · cases h
  | stop t =>
    simp only [Pool.next] at h
    split at h
    · rename_i hc
      cases h
      exact .stop t hc
    · cases h
  | setState t spawns =>
    simp only [Pool.next] at h
    split at h
    · rename_i hc
      cases h
      exact .setState t spawns hc
    · cases h
  | join t =>
    simp only [Pool.next] at h
    split at h
    · rename_i hc
      cases h
      exact .reaped t hc
    · rename_i w ws hc
      split at h
      · rename_i hw
        cases h
        exact .joined t w ws hc hw
      · cases h
    · cases h
  | check w =>
    simp only [Pool.next] at h
    split at h
    · rename_i hc
      cases h
      by_cases he : s.epoch = s.epochOf w
      · rw [if_pos he]
        exact .kept w hc he
      · rw [if_neg he]
        exact .leftLoop w hc he
    · cases h
  | wake w =>
    simp only [Pool.next] at h
    split at h
    · rename_i hc
      split at h
      · rename_i he
        cases h
        exact .began w hc he
      · rename_i he
        cases h
        exact .leftWait w hc he
    · cases h
  | cycled w =>
    simp only [Pool.next] at h
    split at h
    · rename_i hc
      cases h
      exact .cycled w hc.1 hc.2
    · cases h
  | mark w =>
    simp only [Pool.next] at h
    split at h
    · rename_i hc
      cases h
      exact .marked w hc
    · cases h
  | exit w =>
    simp only [Pool.next] at h
    split at h
    · rename_i hc
      cases h
      exact .exited w hc
    · cases h
  | beatWake b =>
    simp only [Pool.next] at h
    split at h
    · rename_i hc
      cases h
      exact .beatWoke b hc
    · cases h
  | beatCycled b =>
    simp only [Pool.next] at h
    split at h
    · rename_i hc
      cases h
      exact .beatCycled b hc.1 hc.2
    · cases h
  | halt =>
    simp only [Pool.next] at h
    split at h
    · rename_i hc
      cases h
      exact .halted hc
    · cases h
  | haltJoin =>
    simp only [Pool.next] at h
    split at h
    · rename_i hc
      cases h
      exact .unhalted hc
    · rename_i b hc
      split at h
      · rename_i hb
        cases h
        exact .haltJoined b hc hb
      · cases h
    · cases h
  | collect =>
    simp only [Pool.next] at h
    split at h
    · rename_i hc
      cases h
      exact .collected hc
    · cases h
  | collectJoin =>
    simp only [Pool.next] at h
    split at h
    · rename_i hc
      cases h
      exact .ended hc
    · rename_i w ws hc
      split at h
      · rename_i hw
        cases h
        exact .collectJoined w ws hc hw
      · cases h
    · cases h

/-- Some label leads from one pool to the next. -/
def Step (intervalMs : Int) (s t : Pool H) : Prop := ∃ l, s.next intervalMs l = some t

/-- What the threads of a freshly constructed client can reach. -/
abbrev Reachable (intervalMs : Int) (s : Pool H) : Prop :=
  Relation.ReflTransGen (Step intervalMs) {} s

/-- A schedule, when each of its steps is possible. -/
def Pool.run (intervalMs : Int) : List (Label H) → Pool H → Option (Pool H)
  | [], s => some s
  | l :: ls, s => (s.next intervalMs l).bind (run intervalMs ls)

theorem Pool.run_steps {intervalMs : Int} {ls : List (Label H)} {s t : Pool H}
    (h : Pool.run intervalMs ls s = some t) : Relation.ReflTransGen (Step intervalMs) s t := by
  induction ls generalizing s with
  | nil =>
    cases h
    exact .refl
  | cons l ls ih =>
    rw [Pool.run, Option.bind_eq_some_iff] at h
    obtain ⟨u, hu, hrest⟩ := h
    exact .head ⟨l, hu⟩ (ih hrest)

end Keylight.Workers
