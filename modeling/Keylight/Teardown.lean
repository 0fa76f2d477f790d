import Keylight.AutoValidation

/-!
# Destruction

`stop_heartbeat_` latches the heartbeat off before the destructor joins anything.
Auto-validation has no such latch: a listener on a worker the destructor is
joining may still start another one. `torn_down` is what holds as long as no
start gets a thread after the destructor has collected the workers.
-/
namespace Keylight.Workers

variable {H : Type}

/-- Past the section of the destructor that moves the workers out. -/
def Pool.collected (s : Pool H) : Bool :=
  match s.teardown with
  | .joining _ => true
  | .ended => true
  | _ => false

/-- The workers the destructor has yet to join. -/
def Pool.joining (s : Pool H) : List Nat :=
  match s.teardown with
  | .joining ws => ws
  | _ => []

/-- The label is not a start that gets its thread after the workers were collected. -/
def Timely (s : Pool H) (l : Label H) : Prop := ∀ t, l = .start t true → s.collected = false

/-- No background thread is left to anyone. -/
structure TornDown (s : Pool H) : Prop where
  current : s.current = none
  retired : s.retired = []
  heartbeat : s.heartbeat = none
  workers : ∀ w < s.spawned, s.isDone w = true
  beats : ∀ b < s.beats, s.beat b = .exited

/-- Which threads are accounted for, and what is latched as destruction goes on. -/
structure Latched (s : Pool H) : Prop where
  shutdown : s.teardown ≠ .alive → s.shutdown = true ∧ s.heartbeat = none
  collected : s.collected = true → s.current = none ∧ s.retired = []
  workers : ∀ w < s.spawned, s.current = some w ∨ w ∈ s.retired ∨ w ∈ s.joining ∨
    s.isDone w = true
  beats : ∀ b < s.beats, s.heartbeat = some b ∨ s.teardown = .halting (some b) ∨
    s.beat b = .exited

/-- While the destructor has nobody to join. -/
theorem Latched.idle (h : Latched s) (hj : s.joining = []) {js : List Nat} : ∀ w < s.spawned,
    s.current = some w ∨ w ∈ s.retired ∨ w ∈ js ∨ s.isDone w = true := by
  intro w hw
  obtain hc | hr | hmem | hd := h.workers w hw
  · exact .inl hc
  · exact .inr (.inl hr)
  · rw [hj] at hmem
    cases hmem
  · exact .inr (.inr (.inr hd))

/-- Once the destructor has joined its victim no heartbeat is left. -/
theorem Latched.exited (h : Latched s) (hne : s.teardown ≠ .alive)
    (hnot : ∀ b, s.teardown ≠ .halting (some b)) : ∀ b < s.beats, s.beat b = .exited := by
  intro b hb
  obtain hh | ht | he := h.beats b hb
  · rw [(h.shutdown hne).2] at hh
    cases hh
  · exact absurd ht (hnot b)
  · exact he

/-- A worker's own move. -/
theorem Latched.setStage (h : Latched s) {w : Nat} {g : Stage}
    (hw : s.isDone w = true → g = .done ∨ g = .exited) : Latched (s.setStage w g) := by
  refine ⟨h.shutdown, h.collected, ?_, h.beats⟩
  intro v hv
  obtain hc | hr | hj | hd := h.workers v hv
  · exact .inl hc
  · exact .inr (.inl hr)
  · exact .inr (.inr (.inl hj))
  · refine .inr (.inr (.inr ?_))
    rw [isDone_iff]
    by_cases heq : v = w
    · subst heq
      simpa only [Pool.setStage, Function.update_self] using hw hd
    · simpa only [Pool.setStage, Function.update_of_ne heq] using isDone_iff.1 hd

theorem Latched.setBeat (h : Latched s) {b : Nat} {g : Beat} (hb : s.beat b ≠ .exited) :
    Latched (s.setBeat b g) := by
  refine ⟨h.shutdown, h.collected, h.workers, ?_⟩
  intro c hc
  obtain hh | ht | he := h.beats c hc
  · exact .inl hh
  · exact .inr (.inl ht)
  · refine .inr (.inr ?_)
    have hne : c ≠ b := by
      rintro rfl
      exact hb he
    simpa only [Pool.setBeat, Function.update_of_ne hne] using he

/-- A start that gets its thread before the workers are collected keeps the latch. -/
theorem Latched.spawn (h : Latched s) (hc : s.current = none) (hopen : s.collected = false) :
    Latched s.bump.spawn := by
  refine ⟨h.shutdown, ?_, ?_, h.beats⟩
  · intro hcol
    rw [show s.bump.spawn.collected = s.collected from rfl, hopen] at hcol
    cases hcol
  · intro w hw
    have hw : w < s.spawned + 1 := hw
    by_cases hnew : w = s.spawned
    · subst hnew
      exact .inl rfl
    · obtain hcur | hr | hj | hd := h.workers w (by omega)
      · rw [hc] at hcur
        cases hcur
      · exact .inr (.inl hr)
      · exact .inr (.inr (.inl hj))
      · refine .inr (.inr (.inr ?_))
        rw [isDone_iff] at hd ⊢
        simpa only [Pool.spawn, Pool.bump, Function.update_of_ne hnew] using hd

/-- Stopping moves the current worker to the retired ones. -/
theorem Latched.retire (h : Latched s) {w : Nat} (hc : s.current = some w) :
    Latched { s.bump with retired := s.retired ++ [w], current := none } := by
  refine ⟨h.shutdown, ?_, ?_, h.beats⟩
  · intro hcol
    have hnone := (h.collected hcol).1
    rw [hc] at hnone
    cases hnone
  · intro v hv
    change none = some v ∨ v ∈ s.retired ++ [w] ∨ v ∈ s.joining ∨ s.isDone v = true
    rw [List.mem_append, List.mem_singleton]
    obtain hcur | hr | hj | hd := h.workers v hv
    · rw [hc] at hcur
      exact .inr (.inl (.inr (Option.some.inj hcur).symm))
    · exact .inr (.inl (.inl hr))
    · exact .inr (.inr (.inl hj))
    · exact .inr (.inr (.inr hd))

/-- So does a start of the heartbeat. -/
theorem Latched.startHeartbeat (h : Latched s) (intervalMs : Int) (spawns : Bool) :
    Latched (s.startHeartbeat intervalMs spawns) := by
  unfold Pool.startHeartbeat
  split
  · exact h
  · split
    · exact h
    · rename_i hshut
      have halive : s.teardown = .alive := by
        by_contra hne
        exact hshut (h.shutdown hne).1
      split
      · exact h
      · rename_i hnone
        split
        · refine ⟨?_, h.collected, h.workers, ?_⟩
          · intro hne
            exact absurd halive hne
          · intro b hb
            have hb : b < s.beats + 1 := hb
            by_cases hnew : b = s.beats
            · subst hnew
              exact .inl rfl
            · obtain hh | ht | he := h.beats b (by omega)
              · rw [hh] at hnone
                simp at hnone
              · rw [halive] at ht
                cases ht
              · refine .inr (.inr ?_)
                simpa only [Function.update_of_ne hnew] using he
        · exact ⟨h.shutdown, h.collected, h.workers, h.beats⟩

theorem latched_start : Latched ({} : Pool H) := by
  constructor
  · intro hne
    exact absurd rfl hne
  · intro hcol
    cases hcol
  · intro w hw
    cases hw
  · intro b hb
    cases hb

/-- At the end of the destructor no background thread is left. -/
theorem Latched.tornDown {s : Pool H} (h : Latched s) (hend : s.teardown = .ended) :
    TornDown s := by
  have hheart := (h.shutdown (by simp [hend])).2
  obtain ⟨hc, hr⟩ := h.collected (by simp [Pool.collected, hend])
  refine ⟨hc, hr, hheart, ?_, h.exited (by simp [hend]) (by simp [hend])⟩
  · intro w hw
    obtain hcur | hret | hj | hd := h.workers w hw
    · rw [hc] at hcur
      cases hcur
    · rw [hr] at hret
      cases hret
    · rw [Pool.joining, hend] at hj
      cases hj
    · exact hd

variable [DecidableEq H]

theorem Latched.setActivity (h : Latched s) (t : Thread H) (a : Activity) :
    Latched (s.setActivity t a) := ⟨h.shutdown, h.collected, h.workers, h.beats⟩

/-- `take_exited_` only lets go of workers that are done. -/
theorem Latched.reap (h : Latched s) (t : Thread H) (a : Activity) :
    Latched (({ s with retired := s.takeExited.2 } : Pool H).setActivity t a) := by
  refine ⟨h.shutdown, ?_, ?_, h.beats⟩
  · intro hcol
    obtain ⟨hc, hr⟩ := h.collected hcol
    refine ⟨hc, ?_⟩
    change s.takeExited.2 = []
    rw [Pool.takeExited, hr]
    rfl
  · intro w hw
    obtain hc | hr | hj | hd := h.workers w hw
    · exact .inl hc
    · by_cases hd : s.isDone w = true
      · exact .inr (.inr (.inr hd))
      · refine .inr (.inl ?_)
        simp only [Bool.not_eq_true] at hd
        exact List.mem_filter.2 ⟨hr, by simp [hd]⟩
    · exact .inr (.inr (.inl hj))
    · exact .inr (.inr (.inr hd))

/-- Every timely step keeps the latch. -/
theorem latched_step {intervalMs : Int} {s t : Pool H} {l : Label H}
    (h : s.next intervalMs l = some t) (htime : Timely s l) (hs : Latched s) : Latched t := by
  cases Pool.next_move h with
  | call t c hfree hmay => exact hs.setActivity _ _
  | start t spawns hact =>
    have hmid := hs.reap t (.reaping s.takeExited.1)
    simp only [Pool.startAutoValidation]
    split
    · exact hmid
    · rename_i hc
      split
      · rename_i hspawns
        subst hspawns
        exact hmid.spawn hc (htime t rfl)
      · exact ⟨hmid.shutdown, hmid.collected, hmid.workers, hmid.beats⟩
  | stop t hact =>
    have hmid := hs.reap t (.reaping s.takeExited.1)
    simp only [Pool.stopAutoValidation]
    split
    · rename_i w hc
      exact hmid.retire hc
    · exact hmid
  | setState t spawns hact => exact (hs.startHeartbeat _ _).setActivity _ _
  | reaped t hact => exact hs.setActivity _ _
  | joined t w ws hact hw =>
    have hmid := hs.setActivity t (.reaping ws)
    exact ⟨hmid.shutdown, hmid.collected, hmid.workers, hmid.beats⟩
  | kept w hw he => exact hs.setStage (by simp [Pool.isDone, hw])
  | leftLoop w hw he => exact hs.setStage (by simp [Pool.isDone, hw])
  | began w hw he =>
    have hmid : Latched (s.setStage w .cycling) := hs.setStage (by simp [Pool.isDone, hw])
    exact ⟨hmid.shutdown, hmid.collected, hmid.workers, hmid.beats⟩
  | leftWait w hw he => exact hs.setStage (by simp [Pool.isDone, hw])
  | cycled w hw hfree => exact hs.setStage (by simp [Pool.isDone, hw])
  | marked w hw => exact hs.setStage (by simp)
  | exited w hw => exact hs.setStage (by simp)
  | beatWoke b hb => exact hs.setBeat (by simp [hb])
  | beatCycled b hb hfree => exact hs.setBeat (by simp [hb])
  | halted halive =>
    refine ⟨fun _ => ⟨rfl, rfl⟩, ?_, hs.idle (by simp [Pool.joining, halive]), ?_⟩
    · intro hcol
      cases hcol
    · intro b hb
      obtain hh | ht | he := hs.beats b hb
      · exact .inr (.inl (by rw [← hh]))
      · rw [halive] at ht
        cases ht
      · exact .inr (.inr he)
  | unhalted hhalt =>
    refine ⟨fun _ => hs.shutdown (by simp [hhalt]), ?_, hs.idle (by simp [Pool.joining, hhalt]), ?_⟩
    · intro hcol
      cases hcol
    · intro b hb
      exact .inr (.inr (hs.exited (by simp [hhalt]) (by simp [hhalt]) b hb))
  | haltJoined b hhalt hexit =>
    refine ⟨fun _ => hs.shutdown (by simp [hhalt]), ?_, hs.idle (by simp [Pool.joining, hhalt]), ?_⟩
    · intro hcol
      cases hcol
    · intro c hc
      obtain hh | ht | he := hs.beats c hc
      · exact .inl hh
      · rw [hhalt] at ht
        cases ht
        exact .inr (.inr hexit)
      · exact .inr (.inr he)
  | collected hhalt =>
    refine ⟨fun _ => hs.shutdown (by simp [hhalt]), fun _ => ⟨rfl, rfl⟩, ?_, ?_⟩
    · intro w hw
      change none = some w ∨ w ∈ [] ∨ w ∈ s.current.toList ++ s.retired ∨ s.isDone w = true
      rw [List.mem_append, Option.mem_toList]
      obtain hc | hr | hj | hd := hs.workers w hw
      · exact .inr (.inr (.inl (.inl hc)))
      · exact .inr (.inr (.inl (.inr hr)))
      · rw [Pool.joining, hhalt] at hj
        cases hj
      · exact .inr (.inr (.inr hd))
    · intro b hb
      exact .inr (.inr (hs.exited (by simp [hhalt]) (by simp [hhalt]) b hb))
  | ended hjoin =>
    have hempty := hs.collected (by simp [Pool.collected, hjoin])
    refine ⟨fun _ => hs.shutdown (by simp [hjoin]), fun _ => hempty,
      hs.idle (by simp [Pool.joining, hjoin]), ?_⟩
    intro b hb
    exact .inr (.inr (hs.exited (by simp [hjoin]) (by simp [hjoin]) b hb))
  | collectJoined w ws hjoin hw =>
    have hempty := hs.collected (by simp [Pool.collected, hjoin])
    refine ⟨fun _ => hs.shutdown (by simp [hjoin]), fun _ => hempty, ?_, ?_⟩
    · intro v hv
      change s.current = some v ∨ v ∈ s.retired ∨ v ∈ ws ∨ s.isDone v = true
      obtain hc | hr | hj | hd := hs.workers v hv
      · exact .inl hc
      · exact .inr (.inl hr)
      · rw [Pool.joining, hjoin] at hj
        cases hj with
        | head => exact .inr (.inr (.inr (isDone_iff.2 (.inr hw))))
        | tail _ hj => exact .inr (.inr (.inl hj))
      · exact .inr (.inr (.inr hd))
    · intro b hb
      exact .inr (.inr (hs.exited (by simp [hjoin]) (by simp [hjoin]) b hb))

/-- A step that is not a late start. -/
def TimelyStep (intervalMs : Int) (s t : Pool H) : Prop :=
  ∃ l, s.next intervalMs l = some t ∧ Timely s l

theorem latched_run {intervalMs : Int} {s t : Pool H}
    (h : Relation.ReflTransGen (TimelyStep intervalMs) s t) (hs : Latched s) : Latched t := by
  apply Ownership.invariant (R := TimelyStep intervalMs) _ h hs
  rintro u v ⟨l, hnext, htime⟩ hu
  exact latched_step hnext htime hu

/-- Once the destructor has ended nothing is spawned any more. -/
theorem ended_step {intervalMs : Int} {s t : Pool H} {l : Label H}
    (h : s.next intervalMs l = some t) (htime : Timely s l) (hs : Latched s)
    (hend : s.teardown = .ended) :
    t.teardown = .ended ∧ t.spawned = s.spawned ∧ t.beats = s.beats := by
  have hshut := (hs.shutdown (by simp [hend])).1
  have hcurrent := (hs.collected (by simp [Pool.collected, hend])).1
  cases Pool.next_move h with
  | start t spawns hact =>
    simp only [Pool.startAutoValidation]
    split
    · exact ⟨hend, rfl, rfl⟩
    · split
      · rename_i hspawns
        subst hspawns
        have hopen := htime t rfl
        rw [Pool.collected, hend] at hopen
        cases hopen
      · exact ⟨hend, rfl, rfl⟩
  | stop t hact =>
    simp only [Pool.stopAutoValidation]
    split
    · exact ⟨hend, rfl, rfl⟩
    · exact ⟨hend, rfl, rfl⟩
  | setState t spawns hact =>
    have hsame : s.startHeartbeat intervalMs spawns = s := by
      simp [Pool.startHeartbeat, hshut]
    rw [hsame]
    exact ⟨hend, rfl, rfl⟩
  | halted hne => simp [hend] at hne
  | unhalted hne => simp [hend] at hne
  | haltJoined b hne hb => simp [hend] at hne
  | collected hne => simp [hend] at hne
  | ended hne => simp [hend] at hne
  | collectJoined w ws hne hw => simp [hend] at hne
  | _ => exact ⟨hend, rfl, rfl⟩

/-- As long as no start gets a thread after the workers were collected, the destructor leaves
no background thread, and none is spawned afterwards. -/
theorem torn_down {intervalMs : Int} {s : Pool H}
    (h : Relation.ReflTransGen (TimelyStep intervalMs) {} s) (hend : s.teardown = .ended) :
    TornDown s ∧ ∀ u, Relation.ReflTransGen (TimelyStep intervalMs) s u →
      u.spawned = s.spawned ∧ u.beats = s.beats ∧ TornDown u := by
  have hs := latched_run h latched_start
  refine ⟨hs.tornDown hend, ?_⟩
  intro u hu
  have hall : u.teardown = .ended ∧ u.spawned = s.spawned ∧ u.beats = s.beats := by
    induction hu with
    | refl => exact ⟨hend, rfl, rfl⟩
    | tail hsu hstep ih =>
      obtain ⟨hend', hspawned, hbeats⟩ := ih
      obtain ⟨l, hnext, htime⟩ := hstep
      obtain ⟨h₁, h₂, h₃⟩ := ended_step hnext htime (latched_run hsu hs) hend'
      exact ⟨h₁, h₂.trans hspawned, h₃.trans hbeats⟩
  exact ⟨hall.2.1, hall.2.2, (latched_run hu hs).tornDown hall.1⟩

/-- A listener on the first worker starts auto-validation while the destructor waits for it. -/
def lateStart : List (Label Unit) :=
  [.call (.host ()) .start, .start (.host ()) true, .join (.host ()), .check 0, .wake 0,
    .call (.worker 0) .start, .halt, .haltJoin, .collect, .start (.worker 0) true,
    .join (.worker 0), .cycled 0, .check 0, .mark 0, .exit 0, .collectJoin, .collectJoin]

theorem late_start : ¬∀ s : Pool Unit, Reachable 1 s → s.teardown = .ended →
    s.current = none ∧ s.retired = [] ∧ s.heartbeat = none ∧ ∀ u,
      Relation.ReflTransGen (Step 1) s u → u.spawned = s.spawned ∧ u.beats = s.beats := by
  intro h
  have hrun : ∃ s, Pool.run 1 lateStart {} = some s ∧ s.teardown = .ended ∧
      s.current = some 1 := ⟨_, rfl, rfl, rfl⟩
  obtain ⟨s, hs, hend, hc⟩ := hrun
  have hnone := (h s (Pool.run_steps hs) hend).1
  rw [hc] at hnone
  cases hnone

/-- A schedule without starts is in time. -/
theorem Pool.run_timely {intervalMs : Int} {ls : List (Label H)} {s t : Pool H}
    (h : Pool.run intervalMs ls s = some t) (hnone : ∀ u, Label.start u true ∉ ls) :
    Relation.ReflTransGen (TimelyStep intervalMs) s t := by
  induction ls generalizing s with
  | nil =>
    cases h
    exact .refl
  | cons l ls ih =>
    rw [Pool.run, Option.bind_eq_some_iff] at h
    obtain ⟨v, hv, hrest⟩ := h
    refine .head ⟨l, hv, ?_⟩ (ih hrest fun u hu => hnone u (.tail _ hu))
    rintro u rfl
    exact absurd (.head _) (hnone u)

/-- The worker of an earlier start is joined, and nothing is left. -/
theorem torn_down_joined : ∃ s : Pool Unit, s.spawned = 1 ∧ s.joined 0 = true ∧ TornDown s := by
  have hcall : TimelyStep 1 ({} : Pool Unit) _ :=
    ⟨.call (.host ()) .start, rfl, by simp [Timely]⟩
  have hstart : Relation.ReflTransGen (TimelyStep 1) ({} : Pool Unit) _ :=
    (Relation.ReflTransGen.single hcall).tail ⟨.start (.host ()) true, rfl, fun _ _ => rfl⟩
  have hrest := hstart.trans (@Pool.run_timely Unit _ 1 [.join (.host ()), .halt, .haltJoin,
    .collect, .check 0, .mark 0, .exit 0, .collectJoin, .collectJoin] _ _ rfl (by simp))
  exact ⟨_, rfl, rfl, (torn_down hrest rfl).1⟩

end Keylight.Workers
