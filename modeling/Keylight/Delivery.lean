import Keylight.Events

/-!
# Delivery of state events

The mutex orders the queue, the baton orders its delivery. Four invariants, each
kept by every step, give what a subscriber may rely on; `delivery` collects it.
-/
namespace Keylight.Events
open Ownership

variable {ι : Type} {s t : System ι} {i : ι}

/-- Inside the critical section of `notify_`. -/
def Frame.locked : Frame → Bool
  | .anchoring => true
  | .loading => true
  | .timing _ => true
  | .publishing _ => true
  | _ => false

/-- Inside the delivery loop. -/
def Frame.drains : Frame → Bool
  | .draining => true
  | .copying _ => true
  | .looping _ _ => true
  | .calling _ _ => true
  | _ => false

/-- Still to load `state_` in this notification. -/
def Frame.obliged : Frame → Bool
  | .locking => true
  | .anchoring => true
  | .loading => true
  | .timing _ => true
  | _ => false

theorem countP_pos_head {p : Frame → Bool} {f : Frame} {fs : List Frame}
    (h : s.threads i = f :: fs) (hf : p f = true) : 0 < (s.threads i).countP p := by
  rw [h, List.countP_cons_of_pos hf]
  omega

/-- What was queued was delivered or is pending, no value twice in a row. -/
structure Queue (s : System ι) : Prop where
  order : s.delivered ++ s.pending = s.queued
  reported : s.client.lastReported = s.queued.getLast?.getD s.initial
  distinct : (s.initial :: s.queued).IsChain (· ≠ ·)
  empty : s.delivering = false → s.pending = []

theorem getLast?_cons (a : State) (l : List State) :
    (a :: l).getLast? = some (l.getLast?.getD a) := by
  cases l <;> simp [List.getLast?_cons]

/-- A report that differs from the last one goes to the end of the queue. -/
theorem Queue.push (hs : Queue s) {r : State} (h : s.client.lastReported ≠ r) :
    (s.initial :: (s.queued ++ [r])).IsChain (· ≠ ·) := by
  rw [← List.cons_append]
  apply List.IsChain.append hs.distinct (List.isChain_singleton r)
  intro x hx y hy
  rw [getLast?_cons, ← hs.reported] at hx
  cases hx
  cases hy
  exact h

variable [DecidableEq ι]

/-- The mutex is held by the one thread inside the critical section. -/
def Locked (s : System ι) : Prop := Owned (List.countP Frame.locked) s.threads s.owner

/-- The baton is held by the one thread inside the loop, if the flag is set. -/
def Baton (s : System ι) (o : Option ι) : Prop :=
  Owned (List.countP Frame.drains) s.threads o ∧ s.delivering = o.isSome

theorem countP_tail {p : Frame → Bool} {o : Option ι} {f : Frame} {fs : List Frame}
    (ho : Owned (List.countP p) s.threads o) (h : s.threads i = f :: fs) (hf : p f = true) :
    fs.countP p = 0 := by
  have hone := ho.one (countP_pos_head h hf)
  rw [h, List.countP_cons_of_pos hf] at hone
  omega

/-- Each step keeps the mutex with the one thread inside the critical section. -/
theorem locked_step (h : Step s t) (hs : Locked s) : Locked t := by
  have keep : ∀ {i stack stack' c}, s.threads i = stack →
      stack'.countP Frame.locked = stack.countP Frame.locked → c.owner = s.owner →
      Locked (s.move i stack' c) := by
    intro i stack stack' c hstack hcount hc
    have := Owned.keep (w := List.countP Frame.locked) hs (t := stack') (i := i)
      (by rw [hstack, hcount])
    rw [← hc] at this
    exact this
  cases h with
  | setState i fs h st => exact keep h (by simp [Frame.locked]) rfl
  | notify i fs h => exact keep h (by simp [Frame.locked]) rfl
  | returned i ev cbs fs h => exact keep h (by simp [Frame.locked]) rfl
  | threw i ev cbs fs h => exact keep h (by simp [Frame.locked]) rfl
  | tick t => exact hs
  | anchor t => exact hs
  | subscribe ls => exact hs
  | «section» i f fs top c h hstep =>
    cases Frame.step_moved hstep with
    | stored st => exact keep h (by simp [Frame.locked]) rfl
    | locked ho =>
      have hcount : fs.countP Frame.locked = 0 := by
        have hzero := hs i
        rw [h, ho] at hzero
        simpa [List.countP_cons, Frame.locked] using hzero
      have hown : Owned (List.countP Frame.locked) s.threads none := by
        rw [← ho]
        exact hs
      exact hown.take (by simp [List.countP_cons, Frame.locked, hcount])
    | anchored ha => exact keep h (by simp [List.countP_cons, Frame.locked]) rfl
    | unanchored ha => exact keep h (by simp [List.countP_cons, Frame.locked]) rfl
    | rolledBack a hr => exact keep h (by simp [List.countP_cons, Frame.locked]) rfl
    | trusted a hr => exact keep h (by simp [List.countP_cons, Frame.locked]) rfl
    | loaded => exact keep h (by simp [List.countP_cons, Frame.locked]) rfl
    | unchanged r hl =>
      have hcount := countP_tail hs h (rfl : Frame.locked (.publishing r) = true)
      exact hs.release (countP_pos_head h rfl) hcount
    | queued r hl hd =>
      have hcount := countP_tail hs h (rfl : Frame.locked (.publishing r) = true)
      exact hs.release (countP_pos_head h rfl) hcount
    | took r hl hd =>
      have hcount := countP_tail hs h (rfl : Frame.locked (.publishing r) = true)
      exact hs.release (countP_pos_head h rfl) (by simp [Frame.locked, hcount])
    | drained ho hp => exact keep h (by simp [Frame.locked]) rfl
    | popped ho ev rest hp => exact keep h (by simp [Frame.locked]) rfl
    | copied ev => exact keep h (by simp [Frame.locked]) rfl
    | looped ev => exact keep h (by simp [Frame.locked]) rfl
    | called ev cb cbs => exact keep h (by simp [Frame.locked]) rfl

/-- Each step delivers the front of the queue or reports at its end. -/
theorem queue_step (h : Step s t) (hs : Queue s) : Queue t := by
  cases h with
  | setState i fs h st => exact ⟨hs.order, hs.reported, hs.distinct, hs.empty⟩
  | notify i fs h => exact ⟨hs.order, hs.reported, hs.distinct, hs.empty⟩
  | returned i ev cbs fs h => exact ⟨hs.order, hs.reported, hs.distinct, hs.empty⟩
  | threw i ev cbs fs h => exact ⟨hs.order, hs.reported, hs.distinct, hs.empty⟩
  | tick t => exact ⟨hs.order, hs.reported, hs.distinct, hs.empty⟩
  | anchor t => exact ⟨hs.order, hs.reported, hs.distinct, hs.empty⟩
  | subscribe ls => exact ⟨hs.order, hs.reported, hs.distinct, hs.empty⟩
  | «section» i f fs top c h hstep =>
    cases Frame.step_moved hstep with
    | stored st => exact ⟨hs.order, hs.reported, hs.distinct, hs.empty⟩
    | locked ho => exact ⟨hs.order, hs.reported, hs.distinct, hs.empty⟩
    | anchored ha => exact ⟨hs.order, hs.reported, hs.distinct, hs.empty⟩
    | unanchored ha => exact ⟨hs.order, hs.reported, hs.distinct, hs.empty⟩
    | rolledBack a hr => exact ⟨hs.order, hs.reported, hs.distinct, hs.empty⟩
    | trusted a hr => exact ⟨hs.order, hs.reported, hs.distinct, hs.empty⟩
    | loaded => exact ⟨hs.order, hs.reported, hs.distinct, hs.empty⟩
    | unchanged r hl => exact ⟨hs.order, hs.reported, hs.distinct, hs.empty⟩
    | queued r hl hd =>
      refine ⟨?_, ?_, hs.push hl, ?_⟩
      · change s.delivered ++ (s.pending ++ [r]) = s.queued ++ [r]
        rw [← List.append_assoc, hs.order]
      · simp [System.move]
      · intro hfalse
        rw [show s.delivering = false from hfalse] at hd
        cases hd
    | took r hl hd =>
      refine ⟨?_, ?_, hs.push hl, ?_⟩
      · change s.delivered ++ (s.pending ++ [r]) = s.queued ++ [r]
        rw [← List.append_assoc, hs.order]
      · simp [System.move]
      · intro hfalse
        cases hfalse
    | drained ho hp => exact ⟨hs.order, hs.reported, hs.distinct, fun _ => hp⟩
    | popped ho ev rest hp =>
      have hcons : s.pending = ev :: rest := hp
      refine ⟨?_, hs.reported, hs.distinct, ?_⟩
      · change (s.delivered ++ [ev]) ++ rest = s.queued
        rw [← hs.order, hcons, List.append_assoc, List.singleton_append]
      · intro hfalse
        rw [hs.empty hfalse] at hcons
        cases hcons
    | copied ev => exact ⟨hs.order, hs.reported, hs.distinct, hs.empty⟩
    | looped ev => exact ⟨hs.order, hs.reported, hs.distinct, hs.empty⟩
    | called ev cb cbs => exact ⟨hs.order, hs.reported, hs.distinct, hs.empty⟩

/-- The calls a frame owes for the event it has copied the listeners for. -/
@[simp] def Frame.remaining : Frame → List (State × Nat)
  | .looping ev cbs => cbs.map (ev, ·)
  | .calling ev cbs => cbs.map (ev, ·)
  | _ => []

/-- The event a frame has taken off the queue and not yet copied the listeners for. -/
@[simp] def Frame.taken : Frame → List State
  | .copying ev => [ev]
  | _ => []

def remaining (stack : List Frame) : List (State × Nat) := stack.flatMap Frame.remaining

def taken (stack : List Frame) : List State := stack.flatMap Frame.taken

@[simp] theorem remaining_cons (f : Frame) (fs : List Frame) :
    remaining (f :: fs) = f.remaining ++ remaining fs := List.flatMap_cons

@[simp] theorem taken_cons (f : Frame) (fs : List Frame) :
    taken (f :: fs) = f.taken ++ taken fs := List.flatMap_cons

@[simp] theorem remaining_append (fs gs : List Frame) :
    remaining (fs ++ gs) = remaining fs ++ remaining gs := List.flatMap_append

@[simp] theorem taken_append (fs gs : List Frame) : taken (fs ++ gs) = taken fs ++ taken gs :=
  List.flatMap_append

@[simp] theorem remaining_nil : remaining [] = [] := rfl

@[simp] theorem taken_nil : taken [] = [] := rfl

/-- The stack of the thread with the baton. -/
def holding (s : System ι) (o : Option ι) : List Frame := (o.map s.threads).getD []

/-- Every delivered event is passed once to every listener it was copied for, in order. -/
structure Passed (s : System ι) (o : Option ι) : Prop where
  calls : s.calls ++ remaining (holding s o) = s.snapshots.flatMap fun p => p.2.map (p.1, ·)
  delivered : s.snapshots.map Prod.fst ++ taken (holding s o) = s.delivered

theorem drains_none {fs : List Frame} (h : fs.countP Frame.drains = 0) :
    remaining fs = [] ∧ taken fs = [] := by
  rw [List.countP_eq_zero] at h
  constructor
  · rw [remaining, List.flatMap_eq_nil_iff]
    intro f hf
    have hd := h f hf
    cases f <;> simp_all [Frame.drains]
  · rw [taken, List.flatMap_eq_nil_iff]
    intro f hf
    have hd := h f hf
    cases f <;> simp_all [Frame.drains]

/-- The flag, the one thread in the loop and the calls it has made agree. -/
structure Drain (s : System ι) (o : Option ι) : Prop where
  baton : Baton s o
  passed : Passed s o

/-- A move that changes nothing the loop depends on. -/
theorem Drain.away {o : Option ι} (hs : Drain s o) {stack stack' : List Frame} {c : Channel ι}
    (h : s.threads i = stack) (hcount : stack'.countP Frame.drains = stack.countP Frame.drains)
    (hrem : remaining stack' = remaining stack) (htaken : taken stack' = taken stack)
    (hflag : c.delivering = s.delivering) (hcalls : c.calls = s.calls)
    (hsnap : c.snapshots = s.snapshots) (hdel : c.delivered = s.delivered) :
    Drain (s.move i stack' c) o := by
  have hown := Owned.keep (w := List.countP Frame.drains) hs.baton.1 (t := stack') (i := i)
    (by rw [h, hcount])
  have hhold : remaining (holding (s.move i stack' c) o) = remaining (holding s o) ∧
      taken (holding (s.move i stack' c) o) = taken (holding s o) := by
    cases o with
    | none => exact ⟨rfl, rfl⟩
    | some k =>
      simp only [holding, System.move, Option.map_some, Option.getD_some]
      by_cases hk : k = i
      · subst hk
        rw [Function.update_self, h]
        exact ⟨hrem, htaken⟩
      · rw [Function.update_of_ne hk]
        exact ⟨rfl, rfl⟩
  refine ⟨⟨hown, hflag.trans hs.baton.2⟩, ?_, ?_⟩
  · rw [hhold.1]
    change c.calls ++ _ = c.snapshots.flatMap _
    rw [hcalls, hsnap]
    exact hs.passed.calls
  · rw [hhold.2]
    change c.snapshots.map _ ++ _ = c.delivered
    rw [hsnap, hdel]
    exact hs.passed.delivered

/-- A move of the drainer inside the loop. -/
theorem Drain.inside {o : Option ι} (hs : Drain s o) {f : Frame} {fs top : List Frame}
    {c : Channel ι} (h : s.threads i = f :: fs) (hf : f.drains = true)
    (htop : top.countP Frame.drains = 1) (hflag : c.delivering = s.delivering)
    (hcalls : s.calls ++ remaining [f] = (s.snapshots.flatMap fun p => p.2.map (p.1, ·)) →
      c.calls ++ remaining top = c.snapshots.flatMap fun p => p.2.map (p.1, ·))
    (hdel : s.snapshots.map Prod.fst ++ taken [f] = s.delivered →
      c.snapshots.map Prod.fst ++ taken top = c.delivered) :
    Drain (s.move i (top ++ fs) c) o := by
  have ho : o = some i := hs.baton.1.owner (countP_pos_head h hf)
  obtain ⟨hrem, htaken⟩ := drains_none (countP_tail hs.baton.1 h hf)
  have hcount : (f :: fs).countP Frame.drains = 1 := by
    rw [← h]
    exact hs.baton.1.one (countP_pos_head h hf)
  have hown := Owned.keep (w := List.countP Frame.drains) hs.baton.1 (t := top ++ fs) (i := i)
    (by rw [h, hcount, List.countP_append, htop, countP_tail hs.baton.1 h hf])
  subst ho
  have hold : holding s (some i) = [f] ++ fs := h
  have hnew : holding (s.move i (top ++ fs) c) (some i) = top ++ fs := by
    simp [holding, System.move]
  refine ⟨⟨hown, hflag.trans hs.baton.2⟩, ?_, ?_⟩
  · have hcall := hs.passed.calls
    rw [hold, remaining_append, hrem, List.append_nil] at hcall
    rw [hnew, remaining_append, hrem, List.append_nil]
    exact hcalls hcall
  · have hdelivered := hs.passed.delivered
    rw [hold, taken_append, htaken, List.append_nil] at hdelivered
    rw [hnew, taken_append, htaken, List.append_nil]
    exact hdel hdelivered

/-- Taking the baton to drain the queue. -/
theorem Drain.take (hs : Drain s none) {f : Frame} {fs : List Frame} {c : Channel ι}
    (h : s.threads i = f :: fs) (hf : f.drains = false) (hflag : c.delivering = true)
    (hcalls : c.calls = s.calls) (hsnap : c.snapshots = s.snapshots)
    (hdel : c.delivered = s.delivered) : Drain (s.move i (.draining :: fs) c) (some i) := by
  have hcount : fs.countP Frame.drains = 0 := by
    have hzero := hs.baton.1 i
    rw [h, List.countP_cons_of_neg (by simp [hf])] at hzero
    simpa using hzero
  obtain ⟨hrem, htaken⟩ := drains_none hcount
  have hhold : holding (s.move i (.draining :: fs) c) (some i) = .draining :: fs := by
    simp [holding, System.move]
  have hcall := hs.passed.calls
  have hdelivered := hs.passed.delivered
  refine ⟨⟨hs.baton.1.take ?_, hflag⟩, ?_, ?_⟩
  · rw [List.countP_cons_of_pos rfl, hcount]
  · rw [hhold, remaining_cons, hrem]
    change c.calls ++ [] = c.snapshots.flatMap _
    rw [hcalls, hsnap]
    exact hcall
  · rw [hhold, taken_cons, htaken]
    change c.snapshots.map _ ++ [] = c.delivered
    rw [hsnap, hdel]
    exact hdelivered

/-- Giving it back in the section that found the queue empty. -/
theorem Drain.give {o : Option ι} (hs : Drain s o) {fs : List Frame} {c : Channel ι}
    (h : s.threads i = .draining :: fs) (hflag : c.delivering = false)
    (hcalls : c.calls = s.calls) (hsnap : c.snapshots = s.snapshots)
    (hdel : c.delivered = s.delivered) : Drain (s.move i fs c) none := by
  have ho : o = some i := hs.baton.1.owner (countP_pos_head h rfl)
  have hcount := countP_tail hs.baton.1 h (rfl : Frame.drains .draining = true)
  obtain ⟨hrem, htaken⟩ := drains_none hcount
  subst ho
  have hhold : holding s (some i) = .draining :: fs := h
  have hcall := hs.passed.calls
  have hdelivered := hs.passed.delivered
  rw [hhold, remaining_cons, hrem] at hcall
  rw [hhold, taken_cons, htaken] at hdelivered
  refine ⟨⟨hs.baton.1.release (countP_pos_head h rfl) hcount, hflag⟩, ?_, ?_⟩
  · change c.calls ++ [] = c.snapshots.flatMap _
    rw [hcalls, hsnap]
    exact hcall
  · change c.snapshots.map _ ++ [] = c.delivered
    rw [hsnap, hdel]
    exact hdelivered

/-- Each step keeps the loop with one thread, or hands it on. -/
theorem drain_step {o : Option ι} (h : Step s t) (hs : Drain s o) : ∃ o', Drain t o' := by
  cases h with
  | setState i fs h st =>
    exact ⟨o, hs.away h (by simp [Frame.drains]) (by simp) (by simp) rfl rfl rfl rfl⟩
  | notify i fs h =>
    exact ⟨o, hs.away h (by simp [Frame.drains]) (by simp) (by simp) rfl rfl rfl rfl⟩
  | returned i ev cbs fs h =>
    exact ⟨o, hs.away h (by simp [List.countP_cons, Frame.drains]) (by simp) (by simp)
      rfl rfl rfl rfl⟩
  | threw i ev cbs fs h =>
    exact ⟨o, hs.away h (by simp [List.countP_cons, Frame.drains]) (by simp) (by simp)
      rfl rfl rfl rfl⟩
  | tick t => exact ⟨o, hs.baton, hs.passed.calls, hs.passed.delivered⟩
  | anchor t => exact ⟨o, hs.baton, hs.passed.calls, hs.passed.delivered⟩
  | subscribe ls => exact ⟨o, hs.baton, hs.passed.calls, hs.passed.delivered⟩
  | «section» i f fs top c h hstep =>
    cases Frame.step_moved hstep with
    | took r hl hd =>
      have ho : o = none := by
        have hflag := hs.baton.2
        cases o with
        | none => rfl
        | some k =>
          rw [hd] at hflag
          cases hflag
      subst ho
      exact ⟨some i, hs.take h rfl rfl rfl rfl rfl⟩
    | drained ho hp => exact ⟨none, hs.give h rfl rfl rfl rfl⟩
    | popped ho ev rest hp =>
      exact ⟨o, hs.inside h rfl (by simp [List.countP_cons, Frame.drains]) rfl
        (by simp) (by intro h; simpa using h)⟩
    | copied ev =>
      exact ⟨o, hs.inside h rfl (by simp [List.countP_cons, Frame.drains]) rfl
        (by intro h; simpa using h) (by intro h; simpa using h)⟩
    | called ev cb cbs =>
      exact ⟨o, hs.inside h rfl (by simp [List.countP_cons, Frame.drains]) rfl
        (by intro h; simpa using h) (by intro h; simpa using h)⟩
    | looped ev =>
      exact ⟨o, hs.away h (by simp [List.countP_cons, Frame.drains]) (by simp) (by simp)
        rfl rfl rfl rfl⟩
    | _ => exact ⟨o, hs.away h (by simp [Frame.drains]) (by simp) (by simp) rfl rfl rfl rfl⟩

/-- What `state()` answers at the clock and anchor the last `notify_` read. -/
def Channel.target (c : Channel ι) : State :=
  { c.client with anchor := c.noted.1 }.stateAt c.noted.2

/-- The guard was satisfied when the last `notify_` read it. -/
def Channel.trusted (c : Channel ι) : Prop :=
  { c.client with anchor := c.noted.1 }.untrustedAt c.noted.2 = false

/-- Some notification has yet to load `state_`. -/
def Obliged (threads : ι → List Frame) : Prop := ∃ i, ∃ f ∈ threads i, f.obliged = true

/-- What was reported last is current, or a notification is on its way. -/
structure Current (s : System ι) : Prop where
  timing : ∀ i a, Frame.timing a ∈ s.threads i → a ≠ 0
  loading : ∀ i, Frame.loading ∈ s.threads i → s.trusted
  publishing : ∀ i r, Frame.publishing r ∈ s.threads i → r = s.target ∨ Obliged s.threads
  current : s.client.lastReported = s.target ∨ Obliged s.threads ∨
    ∃ i r, Frame.publishing r ∈ s.threads i

/-- A frame of a moved thread is an old one or one of those it pushed. -/
theorem mem_move {g : Frame} {old fs top : List Frame} {c : Channel ι} {k : ι}
    (h : s.threads i = old ++ fs) (hg : g ∈ (s.move i (top ++ fs) c).threads k) :
    g ∈ s.threads k ∨ k = i ∧ g ∈ top := by
  simp only [System.move] at hg
  by_cases hk : k = i
  · subst hk
    rw [Function.update_self, List.mem_append] at hg
    rw [h, List.mem_append]
    obtain hg | hg := hg
    · exact .inr ⟨rfl, hg⟩
    · exact .inl (.inr hg)
  · rw [Function.update_of_ne hk] at hg
    exact .inl hg

theorem mem_moved {g : Frame} {old fs top : List Frame} {c : Channel ι} {k : ι}
    (h : s.threads i = old ++ fs) (hg : g ∈ s.threads k) (hold : g ∉ old) :
    g ∈ (s.move i (top ++ fs) c).threads k := by
  simp only [System.move]
  by_cases hk : k = i
  · subst hk
    rw [h, List.mem_append] at hg
    rw [Function.update_self, List.mem_append]
    exact .inr (hg.resolve_left hold)
  · rw [Function.update_of_ne hk]
    exact hg

theorem mem_top {g : Frame} {fs top : List Frame} {c : Channel ι} (hg : g ∈ top) :
    g ∈ (s.move i (top ++ fs) c).threads i := by
  simp [System.move, hg]

/-- While a frame is inside the critical section no other one is. -/
theorem Locked.alone (hs : Locked s) {f g : Frame} {fs top : List Frame} {c : Channel ι} {k : ι}
    (h : s.threads i = f :: fs) (hf : f.locked = true)
    (hg : g ∈ (s.move i (top ++ fs) c).threads k) (hlocked : g.locked = true) : g ∈ top := by
  have htail := countP_tail hs h hf
  simp only [System.move] at hg
  by_cases hk : k = i
  · subst hk
    rw [Function.update_self, List.mem_append] at hg
    obtain hg | hg := hg
    · exact hg
    · rw [List.countP_eq_zero] at htail
      exact absurd hlocked (htail g hg)
  · rw [Function.update_of_ne hk] at hg
    have hpos : 0 < (s.threads k).countP Frame.locked := List.countP_pos_iff.2 ⟨g, hg, hlocked⟩
    exact absurd (Owned.eq hs hpos (countP_pos_head h hf)) hk

/-- A move that neither reads nor reports. -/
theorem Current.quiet (hs : Current s) (old top : List Frame) {fs : List Frame} {c : Channel ι}
    (h : s.threads i = old ++ fs) (hold : ∀ f ∈ old, f.obliged = false)
    (holdp : ∀ r, Frame.publishing r ∉ old) (htop : ∀ f ∈ top, f.locked = false)
    (hclient : c.client = s.client) (hnoted : c.noted = s.noted) :
    Current (s.move i (top ++ fs) c) := by
  have hlocked : ∀ {k g}, g ∈ (s.move i (top ++ fs) c).threads k → g.locked = true →
      g ∈ s.threads k := by
    intro k g hg hl
    obtain hg | ⟨-, hg⟩ := mem_move h hg
    · exact hg
    · rw [htop g hg] at hl
      cases hl
  have hobliged : Obliged s.threads → Obliged (s.move i (top ++ fs) c).threads := by
    rintro ⟨k, g, hg, ho⟩
    refine ⟨k, g, mem_moved h hg ?_, ho⟩
    intro hmem
    rw [hold g hmem] at ho
    cases ho
  have htarget : (s.move i (top ++ fs) c).target = s.target := by
    simp only [System.move, Channel.target, hclient, hnoted]
  constructor
  · intro k a hg
    exact hs.timing k a (hlocked hg rfl)
  · intro k hg
    have ht := hs.loading k (hlocked hg rfl)
    simpa only [System.move, Channel.trusted, hclient, hnoted] using ht
  · intro k r hg
    rw [htarget]
    exact (hs.publishing k r (hlocked hg rfl)).imp_right hobliged
  · rw [htarget]
    change c.client.lastReported = _ ∨ _
    rw [hclient]
    obtain h' | h' | ⟨k, r, hg⟩ := hs.current
    · exact .inl h'
    · exact .inr (.inl (hobliged h'))
    · exact .inr (.inr ⟨k, r, mem_moved h hg (holdp r)⟩)

/-- A move to a frame that will load `state_` later. -/
theorem Current.obliging (hs : Current s) {f g : Frame} {fs : List Frame} {c : Channel ι}
    (h : s.threads i = f :: fs) (hg : g.obliged = true)
    (htiming : ∀ a, g = .timing a → a ≠ 0) (hloading : g = .loading → c.trusted)
    (hkeep : ∀ k, Frame.loading ∈ (s.move i ([g] ++ fs) c).threads k → g = .loading ∨ c.trusted) :
    Current (s.move i ([g] ++ fs) c) := by
  have hobliged : Obliged (s.move i ([g] ++ fs) c).threads :=
    ⟨i, g, mem_top (List.mem_singleton_self g), hg⟩
  constructor
  · intro k a hmem
    obtain hmem | ⟨-, hmem⟩ := mem_move (s := s) (show s.threads i = [f] ++ fs from h) hmem
    · exact hs.timing k a hmem
    · exact htiming a (List.mem_singleton.1 hmem).symm
  · intro k hmem
    obtain hload | htrust := hkeep k hmem
    · exact hloading hload
    · exact htrust
  · intro k r hmem
    exact .inr hobliged
  · exact .inr (.inl hobliged)

/-- A move out of the reads, with the value they determine. -/
theorem Current.publish (hl : Locked s) {f : Frame} {fs : List Frame} {c : Channel ι} {r : State}
    (h : s.threads i = f :: fs) (hf : f.locked = true) (hr : r = c.target) :
    Current (s.move i ([.publishing r] ++ fs) c) := by
  have honly : ∀ {k g}, g ∈ (s.move i ([.publishing r] ++ fs) c).threads k →
      g.locked = true → g = .publishing r := by
    intro k g hg hlocked
    exact List.mem_singleton.1 (hl.alone h hf hg hlocked)
  constructor
  · intro k a hg
    cases honly hg rfl
  · intro k hg
    cases honly hg rfl
  · intro k r' hg
    cases honly hg rfl
    exact .inl hr
  · exact .inr (.inr ⟨i, r, mem_top (List.mem_singleton_self _)⟩)

/-- A move out of the critical section, with the value now reported. -/
theorem Current.published (hs : Current s) (hl : Locked s) (top : List Frame) {fs : List Frame}
    {c : Channel ι} {r : State} (h : s.threads i = .publishing r :: fs)
    (htop : ∀ f ∈ top, f.locked = false)
    (hclient : c.client = { s.client with lastReported := r }) (hnoted : c.noted = s.noted) :
    Current (s.move i (top ++ fs) c) := by
  have hnone : ∀ {k g}, g ∈ (s.move i (top ++ fs) c).threads k → g.locked = true → False := by
    intro k g hg hlocked
    have hmem := hl.alone h rfl hg hlocked
    rw [htop g hmem] at hlocked
    cases hlocked
  have htarget : (s.move i (top ++ fs) c).target = s.target := by
    simp only [System.move, Channel.target, hclient, hnoted]
    rfl
  constructor
  · intro k a hg
    exact (hnone hg rfl).elim
  · intro k hg
    exact (hnone hg rfl).elim
  · intro k r' hg
    exact (hnone hg rfl).elim
  · rw [htarget]
    have hmem : Frame.publishing r ∈ s.threads i := by simp [h]
    obtain hr | ⟨k, g, hg, ho⟩ := hs.publishing i r hmem
    · left
      change c.client.lastReported = _
      rw [hclient, hr]
    · right
      left
      refine ⟨k, g, mem_moved (show s.threads i = [.publishing r] ++ fs from h) hg ?_, ho⟩
      intro hmem
      rw [List.mem_singleton.1 hmem] at ho
      cases ho

/-- Each step leaves what was reported last current, or a notification on its way. -/
theorem current_step (h : Step s t) (hl : Locked s) (hs : Current s) : Current t := by
  cases h with
  | setState i fs h st =>
    exact hs.quiet [.host] [.storing st, .host] h (by simp [Frame.obliged])
      (by simp) (by simp [Frame.locked]) rfl rfl
  | notify i fs h =>
    exact hs.quiet [.host] [.locking, .host] h (by simp [Frame.obliged])
      (by simp) (by simp [Frame.locked]) rfl rfl
  | returned i ev cbs fs h =>
    exact hs.quiet [.host, .calling ev cbs] [.looping ev cbs] h
      (by simp [Frame.obliged]) (by simp) (by simp [Frame.locked]) rfl rfl
  | threw i ev cbs fs h =>
    exact hs.quiet [.host, .calling ev cbs] [.looping ev cbs] h
      (by simp [Frame.obliged]) (by simp) (by simp [Frame.locked]) rfl rfl
  | tick t => exact ⟨hs.timing, hs.loading, hs.publishing, hs.current⟩
  | anchor t => exact ⟨hs.timing, hs.loading, hs.publishing, hs.current⟩
  | subscribe ls => exact ⟨hs.timing, hs.loading, hs.publishing, hs.current⟩
  | «section» i f fs top c h hstep =>
    have hquiet : ∀ (top : List Frame) {c : Channel ι}, f.obliged = false →
        (∀ r, f ≠ .publishing r) → (∀ g ∈ top, g.locked = false) → c.client = s.client →
        c.noted = s.noted → Current (s.move i (top ++ fs) c) := by
      intro top c hf hp htop hclient hnoted
      refine hs.quiet [f] top h ?_ ?_ htop hclient hnoted
      · intro g hg
        rw [List.mem_singleton.1 hg]
        exact hf
      · intro r hr
        exact hp r (List.mem_singleton.1 hr).symm
    cases Frame.step_moved hstep with
    | stored st =>
      refine hs.obliging h rfl (by simp) (by simp) ?_
      intro k hk
      obtain hk | ⟨-, hk⟩ := mem_move (s := s) (show s.threads i = [.storing st] ++ fs from h) hk
      · exact .inr (hs.loading k hk)
      · simp at hk
    | locked ho =>
      refine hs.obliging h rfl (by simp) (by simp) ?_
      intro k hk
      obtain hk | ⟨-, hk⟩ := mem_move (s := s) (show s.threads i = [.locking] ++ fs from h) hk
      · exact .inr (hs.loading k hk)
      · simp at hk
    | anchored ha =>
      refine hs.obliging h rfl (by simp [ha]) (by simp) ?_
      intro k hk
      have hmem := hl.alone h rfl hk rfl
      simp at hmem
    | unanchored ha =>
      have htrust : Channel.trusted { s.toChannel with noted := (s.client.anchor, s.now) } := by
        simp [Channel.trusted, Client.untrustedAt, ha]
      exact hs.obliging h rfl (by simp) (fun _ => htrust) fun _ _ => .inl rfl
    | rolledBack a hr =>
      have ha : a ≠ 0 := hs.timing i a (by simp [h])
      refine Current.publish hl h rfl ?_
      simp [Channel.target, Client.stateAt, Client.untrustedAt, ha, hr]
    | trusted a hr =>
      have htrust : Channel.trusted { s.toChannel with noted := (a, s.now) } := by
        simp [Channel.trusted, Client.untrustedAt, hr]
      exact hs.obliging h rfl (by simp) (fun _ => htrust) fun _ _ => .inl rfl
    | loaded =>
      have htrust := hs.loading i (by simp [h])
      refine Current.publish hl h rfl ?_
      rw [Channel.trusted] at htrust
      rw [Channel.target, Client.stateAt, htrust]
      rfl
    | unchanged r hr =>
      refine hs.published hl [] h (by simp) ?_ rfl
      rw [← hr]
    | queued r hr hd => exact hs.published hl [] h (by simp) rfl rfl
    | took r hr hd => exact hs.published hl _ h (by simp [Frame.locked]) rfl rfl
    | drained ho hp => exact hquiet [] rfl (by simp) (by simp) rfl rfl
    | popped ho ev rest hp => exact hquiet _ rfl (by simp) (by simp [Frame.locked]) rfl rfl
    | copied ev => exact hquiet _ rfl (by simp) (by simp [Frame.locked]) rfl rfl
    | looped ev => exact hquiet _ rfl (by simp) (by simp [Frame.locked]) rfl rfl
    | called ev cb cbs => exact hquiet _ rfl (by simp) (by simp [Frame.locked]) rfl rfl

/-- A listener is running on this stack. -/
def listening (stack : List Frame) : Nat :=
  stack.countP fun f =>
    match f with
    | .calling _ _ => true
    | _ => false

/-- Every thread is outside the client, or between two of its notifications. -/
def Quiescent (s : System ι) : Prop := ∀ i, ∀ f ∈ s.threads i, f = .host

/-- An ordered queue, delivered once, by one listener call at a time. -/
structure Delivery (s : System ι) : Prop where
  exclusive : ∀ i j, 0 < listening (s.threads i) → 0 < listening (s.threads j) → i = j
  single : ∀ i, listening (s.threads i) ≤ 1
  order : s.delivered ++ s.pending = s.queued
  passed : ∃ o, Passed s o
  distinct : (s.initial :: s.delivered).IsChain (· ≠ ·)
  stranded : s.delivering = false → s.pending = []
  complete : s.delivering = false → s.snapshots.map Prod.fst = s.delivered ∧
    s.calls = s.snapshots.flatMap fun p => p.2.map (p.1, ·)
  settled : Quiescent s → s.noted = (s.client.anchor, s.now) →
    s.delivered.getLast?.getD s.initial = s.client.stateAt s.now

/-- Everything the steps keep. -/
structure Kept (s : System ι) : Prop where
  locked : Locked s
  drain : ∃ o, Drain s o
  queue : Queue s
  current : Current s

/-- The invariant holds at the start. -/
theorem kept_start (client : Client) (now : Int64) (listeners : List Nat) :
    Kept (start client now listeners : System ι) := by
  have hzero : ∀ p : Frame → Bool, p .host = false →
      Owned (List.countP p) (start client now listeners : System ι).threads none := by
    intro p hp i
    simp [start, hp]
  constructor
  · exact hzero _ rfl
  · exact ⟨none, ⟨hzero _ rfl, rfl⟩, rfl, rfl⟩
  · exact ⟨rfl, rfl, List.isChain_singleton _, fun _ => rfl⟩
  · constructor
    · intro i a h
      simp [start] at h
    · intro i h
      simp [start] at h
    · intro i r h
      simp [start] at h
    · exact .inl rfl

theorem kept_step (h : Step s t) (hs : Kept s) : Kept t := by
  obtain ⟨o, hdrain⟩ := hs.drain
  constructor
  · exact locked_step h hs.locked
  · exact drain_step h hdrain
  · exact queue_step h hs.queue
  · exact current_step h hs.locked hs.current

theorem listening_le_drains (stack : List Frame) :
    listening stack ≤ stack.countP Frame.drains := by
  apply List.countP_mono_left
  intro f hf h
  cases f <;> simp_all [Frame.drains]

theorem Kept.quiescent (hs : Kept s) (hq : Quiescent s) : s.delivering = false := by
  obtain ⟨o, ⟨hown, hflag⟩, -⟩ := hs.drain
  cases o with
  | none => exact hflag
  | some i =>
    have hpos := hown i
    rw [if_pos rfl] at hpos
    obtain ⟨f, hf, hd⟩ := List.countP_pos_iff.1 (by omega : 0 < (s.threads i).countP Frame.drains)
    rw [hq i f hf] at hd
    cases hd

/-- In a quiescent state the last value delivered is the state of the client. -/
theorem Kept.settled (hs : Kept s) (hq : Quiescent s)
    (hclock : s.noted = (s.client.anchor, s.now)) :
    s.delivered.getLast?.getD s.initial = s.client.stateAt s.now := by
  have hempty := hs.queue.empty (hs.quiescent hq)
  have horder := hs.queue.order
  rw [hempty, List.append_nil] at horder
  have htarget : s.target = s.client.stateAt s.now := by
    rw [Channel.target, hclock]
  rw [horder, ← hs.queue.reported, ← htarget]
  obtain h | ⟨i, f, hf, ho⟩ | ⟨i, r, hf⟩ := hs.current.current
  · exact h
  · rw [hq i f hf] at ho
    cases ho
  · cases hq i _ hf

/-- The invariant says what a subscriber may rely on. -/
theorem Kept.delivery (hs : Kept s) : Delivery s := by
  obtain ⟨o, hbaton, hpassed⟩ := hs.drain
  have hpos : ∀ i, 0 < listening (s.threads i) → 0 < (s.threads i).countP Frame.drains := by
    intro i hi
    have := listening_le_drains (s.threads i)
    omega
  constructor
  · intro i j hi hj
    exact hbaton.1.eq (hpos i hi) (hpos j hj)
  · intro i
    exact (listening_le_drains _).trans (hbaton.1.le_one i)
  · exact hs.queue.order
  · exact ⟨o, hpassed⟩
  · have hchain := hs.queue.distinct
    rw [← hs.queue.order, ← List.cons_append] at hchain
    exact hchain.left_of_append
  · exact hs.queue.empty
  · intro hfree
    have ho : o = none := by
      rw [hbaton.2] at hfree
      cases o with
      | none => rfl
      | some i => cases hfree
    subst ho
    have hcalls := hpassed.calls
    have hdelivered := hpassed.delivered
    simp only [holding, Option.map_none, Option.getD_none, remaining_nil, taken_nil,
      List.append_nil] at hcalls hdelivered
    exact ⟨hdelivered, hcalls⟩
  · exact hs.settled

/-- Whatever the interleaving, listeners see every change of the reported state once, in order
and one at a time. -/
theorem delivery_reachable (client : Client) (now : Int64) (listeners : List Nat)
    {s : System ι} (h : Reachable client now listeners s) : Delivery s := by
  have hkept : Kept s := by
    apply invariant (R := Step) _ h (kept_start client now listeners)
    intro u v hstep hu
    exact kept_step hstep hu
  exact hkept.delivery

/-- One thread stores Licensed, and the listener it calls throws. -/
theorem delivery_reachable_threw : ∃ s : System Unit, s.calls = [(.licensed, 7)] ∧
    s.delivering = false ∧ Delivery s := by
  have h₁ : Reachable {} 0 [7] _ := .single (.setState (start {} 0 [7]) () [] rfl .licensed)
  have h₂ := h₁.tail (.section _ () _ _ _ _ rfl rfl)
  have h₃ := h₂.tail (.section _ () _ _ _ _ rfl rfl)
  have h₄ := h₃.tail (.section _ () _ _ _ _ rfl rfl)
  have h₅ := h₄.tail (.section _ () _ _ _ _ rfl rfl)
  have h₆ := h₅.tail (.section _ () _ _ _ _ rfl rfl)
  have h₇ := h₆.tail (.section _ () _ _ _ _ rfl rfl)
  have h₈ := h₇.tail (.section _ () _ _ _ _ rfl rfl)
  have h₉ := h₈.tail (.section _ () _ _ _ _ rfl rfl)
  have h₁₀ := h₉.tail (.threw _ () _ _ _ rfl)
  have h₁₁ := h₁₀.tail (.section _ () _ _ _ _ rfl rfl)
  have h₁₂ := h₁₁.tail (.section _ () _ _ _ _ rfl rfl)
  exact ⟨_, rfl, rfl, delivery_reachable {} 0 [7] h₁₂⟩

end Keylight.Events
