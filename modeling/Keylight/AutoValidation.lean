import Keylight.Workers

/-!
# Auto-validation epochs

Start and stop never join a live worker. What holds in every reachable pool: a
worker with the present epoch is the one in the current slot, every worker is in
one place, and whoever is about to be joined is done. The epoch has 64 bits, so
the facts about it hold until it has been bumped 2^64 times.
-/
namespace Keylight.Workers

variable {H : Type} {intervalMs : Int} {s t : Pool H}

/-- The epoch counts the bumps; the worker of the last bump is the current one. -/
structure Epochs (s : Pool H) : Prop where
  epoch : s.epoch = UInt64.ofNat s.bumps
  epochOf : ∀ w < s.spawned, s.epochOf w = UInt64.ofNat (s.born w)
  le : ∀ w < s.spawned, s.born w ≤ s.bumps
  current : ∀ w < s.spawned, s.born w = s.bumps ↔ s.current = some w
  slot : ∀ w, s.current = some w → w < s.spawned

theorem ofNat_succ (n : Nat) : UInt64.ofNat n + 1 = UInt64.ofNat (n + 1) := by
  rw [UInt64.ofNat_add]
  rfl

/-- A bump that leaves no worker in the slot. -/
theorem Epochs.bump (h : Epochs s) {t : Pool H} (he : t.epoch = s.epoch + 1)
    (hb : t.bumps = s.bumps + 1) (ho : t.epochOf = s.epochOf) (hn : t.born = s.born)
    (hs : t.spawned = s.spawned) (hc : t.current = none) : Epochs t := by
  constructor
  · rw [he, hb, h.epoch, ofNat_succ]
  · intro w hw
    rw [hs] at hw
    rw [ho, hn]
    exact h.epochOf w hw
  · intro w hw
    rw [hs] at hw
    have hle := h.le w hw
    rw [hn, hb]
    omega
  · intro w hw
    rw [hs] at hw
    have hle := h.le w hw
    rw [hn, hb, hc]
    constructor
    · intro heq
      omega
    · intro heq
      cases heq
  · intro w hw
    rw [hc] at hw
    cases hw

/-- A start after its bump puts a worker of the new epoch in the slot. -/
theorem Epochs.spawn (h : Epochs s) (hc : s.current = none) : Epochs s.bump.spawn := by
  have hb := h.bump (t := s.bump) rfl rfl rfl rfl rfl hc
  have hold : ∀ {w}, w < s.spawned + 1 → w ≠ s.spawned → w < s.spawned := by omega
  constructor
  · exact hb.epoch
  · intro w hw
    by_cases hnew : w = s.spawned
    · subst hnew
      simp only [Pool.spawn, Pool.bump, Function.update_self]
      exact hb.epoch
    · simp only [Pool.spawn, Pool.bump, Function.update_of_ne hnew]
      exact h.epochOf w (hold hw hnew)
  · intro w hw
    by_cases hnew : w = s.spawned
    · subst hnew
      simp [Pool.spawn, Pool.bump]
    · have hle := hb.le w (hold hw hnew)
      simpa only [Pool.spawn, Pool.bump, Function.update_of_ne hnew] using hle
  · intro w hw
    by_cases hnew : w = s.spawned
    · subst hnew
      simp [Pool.spawn, Pool.bump]
    · have hle := h.le w (hold hw hnew)
      simp only [Pool.spawn, Pool.bump, Function.update_of_ne hnew, Option.some.injEq]
      constructor
      · intro heq
        omega
      · intro heq
        exact absurd heq.symm hnew
  · intro w hw
    simp only [Pool.spawn, Pool.bump, Option.some.injEq] at hw
    simp only [Pool.spawn, Pool.bump]
    omega

theorem Epochs.current_iff (h : Epochs s) (hb : s.bumps < 2 ^ 64) {w : Nat} (hw : w < s.spawned) :
    s.epochOf w = s.epoch ↔ s.current = some w := by
  rw [h.epoch, h.epochOf w hw, ← h.current w hw]
  have hle := h.le w hw
  constructor
  · intro heq
    have hnat := congrArg UInt64.toNat heq
    have hborn : s.born w < UInt64.size := Nat.lt_of_le_of_lt hle hb
    rw [UInt64.toNat_ofNat_of_lt' hborn, UInt64.toNat_ofNat_of_lt' hb] at hnat
    exact hnat
  · intro heq
    rw [heq]

/-- Where the handle of a worker is. -/
inductive Place (H : Type) where
  | unborn
  | current
  | retired
  /-- in the Reaper of a call on this thread -/
  | reaping (t : Thread H)
  | joined

/-- The workers a call on this thread is about to join. -/
def Pool.reaping (s : Pool H) (t : Thread H) : List Nat :=
  match s.activity t with
  | .reaping ws => ws
  | _ => []

/-- Every worker is where `loc` says, once, and nowhere else. -/
structure Placed (s : Pool H) (loc : Nat → Place H) : Prop where
  unborn : ∀ w, loc w = .unborn ↔ s.spawned ≤ w
  current : ∀ w, loc w = .current ↔ s.current = some w
  retired : ∀ w, loc w = .retired ↔ w ∈ s.retired
  reaping : ∀ w t, loc w = .reaping t ↔ w ∈ s.reaping t
  joined : ∀ w, loc w = .joined ↔ s.joined w = true
  retiredOnce : s.retired.Nodup
  reapingOnce : ∀ t, (s.reaping t).Nodup

/-- Workers in a Reaper are done, joined ones have exited; calls come from inside a cycle. -/
structure Marked (s : Pool H) : Prop where
  reaping : ∀ t w, w ∈ s.reaping t → s.isDone w = true
  joined : ∀ w, s.joined w = true → s.stage w = .exited
  fresh : ∀ w, s.spawned ≤ w → s.stage w = .unborn
  inside : ∀ w, s.activity (.worker w) ≠ .free → s.stage w = .cycling

theorem isDone_iff {w : Nat} : s.isDone w = true ↔ s.stage w = .done ∨ s.stage w = .exited := by
  simp [Pool.isDone]

theorem reaping_of_ne {t : Thread H} (h : ∀ ws, s.activity t ≠ .reaping ws) :
    s.reaping t = [] := by
  unfold Pool.reaping
  split
  · rename_i ws hws
    exact absurd hws (h ws)
  · rfl

/-- A spawned worker is the current one. -/
theorem Placed.spawn {loc : Nat → Place H} (h : Placed s loc) (hc : s.current = none) :
    Placed s.bump.spawn (Function.update loc s.spawned .current) := by
  have hfresh : loc s.spawned = .unborn := (h.unborn _).2 (Nat.le_refl _)
  have hnone : ∀ w, loc w ≠ .current := by
    intro w hw
    rw [h.current, hc] at hw
    cases hw
  have hstay : ∀ w (p : Place H), p ≠ .unborn → p ≠ .current →
      (Function.update loc s.spawned .current w = p ↔ loc w = p) := by
    intro w p hp hcur
    by_cases hw : w = s.spawned
    · subst hw
      rw [Function.update_self, hfresh]
      exact ⟨fun h => absurd h.symm hcur, fun h => absurd h.symm hp⟩
    · rw [Function.update_of_ne hw]
  constructor
  · intro w
    change _ ↔ s.spawned + 1 ≤ w
    by_cases hw : w = s.spawned
    · subst hw
      rw [Function.update_self]
      simp
    · rw [Function.update_of_ne hw, h.unborn]
      omega
  · intro w
    change _ ↔ some s.spawned = some w
    by_cases hw : w = s.spawned
    · subst hw
      simp
    · rw [Function.update_of_ne hw, Option.some.injEq]
      exact ⟨fun h => absurd h (hnone w), fun h => absurd h.symm hw⟩
  · intro w
    rw [hstay w _ (by simp) (by simp)]
    exact h.retired w
  · intro w u
    rw [hstay w _ (by simp) (by simp)]
    exact h.reaping w u
  · intro w
    rw [hstay w _ (by simp) (by simp)]
    exact h.joined w
  · exact h.retiredOnce
  · exact h.reapingOnce

/-- Stopping retires the current worker. -/
theorem Placed.retire {loc : Nat → Place H} (h : Placed s loc) {w : Nat}
    (hc : s.current = some w) :
    Placed { s.bump with retired := s.retired ++ [w], current := none }
      (Function.update loc w .retired) := by
  have hcur : loc w = .current := (h.current w).2 hc
  have hout : w ∉ s.retired := by
    intro hmem
    rw [← h.retired, hcur] at hmem
    cases hmem
  have hstay : ∀ v (p : Place H), p ≠ .current → p ≠ .retired →
      (Function.update loc w .retired v = p ↔ loc v = p) := by
    intro v p hp hr
    by_cases hv : v = w
    · subst hv
      rw [Function.update_self, hcur]
      exact ⟨fun h => absurd h.symm hr, fun h => absurd h.symm hp⟩
    · rw [Function.update_of_ne hv]
  constructor
  · intro v
    rw [hstay v _ (by simp) (by simp)]
    exact h.unborn v
  · intro v
    change _ ↔ none = some v
    by_cases hv : v = w
    · subst hv
      simp
    · rw [Function.update_of_ne hv, h.current, hc, Option.some.injEq]
      constructor
      · intro heq
        exact absurd heq.symm hv
      · intro heq
        cases heq
  · intro v
    change _ ↔ v ∈ s.retired ++ [w]
    rw [List.mem_append, List.mem_singleton]
    by_cases hv : v = w
    · subst hv
      simp
    · rw [Function.update_of_ne hv, h.retired]
      simp [hv]
  · intro v u
    rw [hstay v _ (by simp) (by simp)]
    exact h.reaping v u
  · intro v
    rw [hstay v _ (by simp) (by simp)]
    exact h.joined v
  · change (s.retired ++ [w]).Nodup
    rw [List.nodup_append]
    refine ⟨h.retiredOnce, by simp, ?_⟩
    intro v hv u hu heq
    rw [heq, List.mem_singleton.1 hu] at hv
    exact hout hv
  · exact h.reapingOnce

/-- A worker's own move. -/
theorem Marked.setStage (h : Marked s) {w : Nat} {g g' : Stage} (hw : s.stage w = g)
    (hborn : g ≠ .unborn) (hexited : g ≠ .exited) (hdone : g = .done → g' = .exited)
    (hfree : g = .cycling → s.activity (.worker w) = .free) : Marked (s.setStage w g') := by
  constructor
  · intro t v hv
    have hd := isDone_iff.1 (h.reaping t v hv)
    rw [isDone_iff]
    by_cases heq : v = w
    · subst heq
      simp only [Pool.setStage, Function.update_self]
      rw [hw] at hd
      exact .inr (hdone (hd.resolve_right hexited))
    · simpa only [Pool.setStage, Function.update_of_ne heq] using hd
  · intro v hv
    have hs := h.joined v hv
    by_cases heq : v = w
    · subst heq
      rw [hw] at hs
      exact absurd hs hexited
    · simpa only [Pool.setStage, Function.update_of_ne heq] using hs
  · intro v hv
    have hs := h.fresh v hv
    by_cases heq : v = w
    · subst heq
      rw [hw] at hs
      exact absurd hs hborn
    · simpa only [Pool.setStage, Function.update_of_ne heq] using hs
  · intro v hv
    have hs := h.inside v hv
    by_cases heq : v = w
    · subst heq
      rw [hw] at hs
      exact absurd (hfree hs) hv
    · simpa only [Pool.setStage, Function.update_of_ne heq] using hs

/-- Nobody reaps or joins the new worker yet. -/
theorem Marked.spawn (h : Marked s) : Marked s.bump.spawn := by
  have hne : ∀ {w}, s.stage w ≠ .unborn → w ≠ s.spawned := by
    rintro w hw rfl
    exact hw (h.fresh _ (Nat.le_refl _))
  have hstage : ∀ {w}, s.stage w ≠ .unborn → (s.bump.spawn).stage w = s.stage w := by
    intro w hw
    simp only [Pool.spawn, Pool.bump, Function.update_of_ne (hne hw)]
  constructor
  · intro t w hw
    have hd := isDone_iff.1 (h.reaping t w hw)
    have hborn : s.stage w ≠ .unborn := by
      obtain hd | hd := hd
      · simp [hd]
      · simp [hd]
    rw [isDone_iff, hstage hborn]
    exact hd
  · intro w hw
    have hs := h.joined w hw
    rw [hstage (by simp [hs])]
    exact hs
  · intro w hw
    have hw : s.spawned + 1 ≤ w := hw
    have hne : w ≠ s.spawned := by omega
    simp only [Pool.spawn, Pool.bump, Function.update_of_ne hne]
    exact h.fresh w (by omega)
  · intro w hw
    have hs := h.inside w hw
    rw [hstage (by simp [hs])]
    exact hs

variable [DecidableEq H]

/-- Every step keeps each worker at its epoch. -/
theorem epochs_step (h : Step intervalMs s t) (hs : Epochs s) : Epochs t := by
  have same : ∀ {t : Pool H}, t.epoch = s.epoch → t.bumps = s.bumps → t.epochOf = s.epochOf →
      t.born = s.born → t.spawned = s.spawned → t.current = s.current → Epochs t := by
    intro t he hb ho hn hsp hc
    obtain ⟨h₁, h₂, h₃, h₄, h₅⟩ := hs
    rw [← he, ← hb] at h₁
    rw [← hsp, ← ho, ← hn] at h₂
    rw [← hsp, ← hn, ← hb] at h₃
    rw [← hsp, ← hn, ← hb, ← hc] at h₄
    rw [← hsp, ← hc] at h₅
    exact ⟨h₁, h₂, h₃, h₄, h₅⟩
  obtain ⟨l, h⟩ := h
  cases Pool.next_move h with
  | start t spawns h =>
    have hmid : Epochs (({ s with retired := s.takeExited.2 } : Pool H).setActivity t
        (.reaping s.takeExited.1)) := same rfl rfl rfl rfl rfl rfl
    simp only [Pool.startAutoValidation]
    split
    · exact hmid
    · rename_i hc
      split
      · exact hmid.spawn hc
      · exact hmid.bump rfl rfl rfl rfl rfl hc
  | stop t h =>
    simp only [Pool.stopAutoValidation]
    split
    · exact hs.bump rfl rfl rfl rfl rfl rfl
    · exact same rfl rfl rfl rfl rfl rfl
  | setState t spawns h =>
    obtain ⟨stop, hb, n, beat, heq⟩ := s.startHeartbeat_eq intervalMs spawns
    rw [heq]
    exact same rfl rfl rfl rfl rfl rfl
  | collected h => exact hs.bump rfl rfl rfl rfl rfl rfl
  | _ => exact same rfl rfl rfl rfl rfl rfl

theorem reaping_setActivity (t u : Thread H) (a : Activity) :
    (s.setActivity t a).reaping u =
      if u = t then (match a with | .reaping ws => ws | _ => []) else s.reaping u := by
  by_cases hu : u = t
  · subst hu
    simp only [Pool.reaping, Pool.setActivity, Function.update_self, if_true]
  · simp only [Pool.reaping, Pool.setActivity, Function.update_of_ne hu, if_neg hu]

/-- An activity that joins nothing changes no place. -/
theorem Placed.idle {loc : Nat → Place H} (h : Placed s loc) {t : Thread H} {a : Activity}
    (hold : s.reaping t = []) (hnew : ∀ ws, a ≠ .reaping ws) : Placed (s.setActivity t a) loc := by
  have hreap : ∀ u, (s.setActivity t a).reaping u = s.reaping u := by
    intro u
    rw [reaping_setActivity]
    split
    · rename_i hu
      rw [hu, hold]
      split
      · rename_i ws
        exact absurd rfl (hnew ws)
      · rfl
    · rfl
  refine ⟨h.unborn, h.current, h.retired, ?_, h.joined, h.retiredOnce, ?_⟩
  · intro w u
    rw [hreap]
    exact h.reaping w u
  · intro u
    rw [hreap]
    exact h.reapingOnce u

/-- `take_exited_` moves the retired workers that are done into the Reaper of the call. -/
theorem Placed.reap {loc : Nat → Place H} (h : Placed s loc) {t : Thread H}
    (hold : s.reaping t = []) :
    Placed (({ s with retired := s.takeExited.2 } : Pool H).setActivity t
      (.reaping s.takeExited.1))
      fun w => if w ∈ s.takeExited.1 then .reaping t else loc w := by
  have hmem : ∀ {w}, w ∈ s.takeExited.1 ↔ w ∈ s.retired ∧ s.isDone w = true := by
    intro w
    exact List.mem_filter
  have hrest : ∀ {w}, w ∈ s.takeExited.2 ↔ w ∈ s.retired ∧ s.isDone w = false := by
    intro w
    simp [Pool.takeExited, List.mem_filter]
  have hloc : ∀ {w}, w ∈ s.takeExited.1 → loc w = .retired := by
    intro w hw
    exact (h.retired w).2 (hmem.1 hw).1
  have other : ∀ w (p : Place H), p ≠ .retired → (∀ u, p ≠ .reaping u) →
      ((if w ∈ s.takeExited.1 then .reaping t else loc w) = p ↔ loc w = p) := by
    intro w p hp hr
    by_cases hw : w ∈ s.takeExited.1
    · rw [if_pos hw, hloc hw]
      exact ⟨fun h => absurd h.symm (hr t), fun h => absurd h.symm hp⟩
    · rw [if_neg hw]
  constructor
  · intro w
    rw [other w _ (by simp) (by simp)]
    exact h.unborn w
  · intro w
    rw [other w _ (by simp) (by simp)]
    exact h.current w
  · intro w
    change _ ↔ w ∈ s.takeExited.2
    rw [hrest]
    by_cases hw : w ∈ s.takeExited.1
    · rw [if_pos hw]
      have hdone := (hmem.1 hw).2
      simp [hdone]
    · rw [if_neg hw, h.retired]
      rw [hmem] at hw
      constructor
      · intro hr
        refine ⟨hr, ?_⟩
        by_contra hd
        exact hw ⟨hr, by simpa using hd⟩
      · intro hr
        exact hr.1
  · intro w u
    rw [reaping_setActivity]
    by_cases hw : w ∈ s.takeExited.1
    · rw [if_pos hw]
      by_cases hu : u = t
      · subst hu
        simp [hw]
      · rw [if_neg hu]
        have hne : w ∉ s.reaping u := by
          intro hmem
          have h₁ := (h.reaping w u).2 hmem
          rw [hloc hw] at h₁
          cases h₁
        constructor
        · intro heq
          exact absurd (Place.reaping.inj heq).symm hu
        · intro hmem
          exact absurd hmem hne
    · rw [if_neg hw]
      by_cases hu : u = t
      · subst hu
        rw [if_pos rfl, h.reaping, hold]
        simp [hw]
      · rw [if_neg hu]
        exact h.reaping w u
  · intro w
    rw [other w _ (by simp) (by simp)]
    exact h.joined w
  · exact h.retiredOnce.filter _
  · intro u
    rw [reaping_setActivity]
    split
    · exact h.retiredOnce.filter _
    · exact h.reapingOnce u

/-- A join takes the worker out of the Reaper. -/
theorem Placed.join {loc : Nat → Place H} (h : Placed s loc) {t : Thread H} {w : Nat}
    {ws : List Nat} (ht : s.activity t = .reaping (w :: ws)) :
    Placed { s.setActivity t (.reaping ws) with joined := Function.update s.joined w true }
      (Function.update loc w .joined) := by
  have hreap : s.reaping t = w :: ws := by
    rw [Pool.reaping, ht]
  have hloc : loc w = .reaping t := by
    rw [h.reaping, hreap]
    exact .head _
  have honce := h.reapingOnce t
  rw [hreap, List.nodup_cons] at honce
  have hstay : ∀ v (p : Place H), p ≠ .reaping t → p ≠ .joined →
      (Function.update loc w .joined v = p ↔ loc v = p) := by
    intro v p hp hj
    by_cases hv : v = w
    · subst hv
      rw [Function.update_self, hloc]
      exact ⟨fun h => absurd h.symm hj, fun h => absurd h.symm hp⟩
    · rw [Function.update_of_ne hv]
  constructor
  · intro v
    rw [hstay v _ (by simp) (by simp)]
    exact h.unborn v
  · intro v
    rw [hstay v _ (by simp) (by simp)]
    exact h.current v
  · intro v
    rw [hstay v _ (by simp) (by simp)]
    exact h.retired v
  · intro v u
    change _ ↔ v ∈ (s.setActivity t (.reaping ws)).reaping u
    rw [reaping_setActivity]
    by_cases hu : u = t
    · subst hu
      rw [if_pos rfl]
      by_cases hv : v = w
      · subst hv
        rw [Function.update_self]
        constructor
        · intro heq
          cases heq
        · intro hmem
          exact absurd hmem honce.1
      · rw [Function.update_of_ne hv, h.reaping, hreap, List.mem_cons]
        simp [hv]
    · rw [if_neg hu, hstay v _ (by simpa using hu) (by simp)]
      exact h.reaping v u
  · intro v
    change _ ↔ Function.update s.joined w true v = true
    by_cases hv : v = w
    · subst hv
      simp
    · rw [Function.update_of_ne hv, Function.update_of_ne hv]
      exact h.joined v
  · exact h.retiredOnce
  · intro u
    change ((s.setActivity t (.reaping ws)).reaping u).Nodup
    rw [reaping_setActivity]
    split
    · exact honce.2
    · exact h.reapingOnce u

/-- A client that lives after a step lived before it. -/
theorem alive_step (h : Step intervalMs s t) (halive : t.teardown = .alive) :
    s.teardown = .alive := by
  obtain ⟨l, hl⟩ := h
  cases Pool.next_move hl with
  | start t spawns h =>
    revert halive
    simp only [Pool.startAutoValidation]
    split
    · exact id
    · split
      · exact id
      · exact id
  | stop t h =>
    revert halive
    simp only [Pool.stopAutoValidation]
    split
    · exact id
    · exact id
  | setState t spawns h =>
    obtain ⟨stop, hb, n, beat, heq⟩ := s.startHeartbeat_eq intervalMs spawns
    rw [heq] at halive
    exact halive
  | halted h => exact h
  | unhalted h => cases halive
  | haltJoined b h hb => cases halive
  | collected h => cases halive
  | ended h => cases halive
  | collectJoined w ws h hw => cases halive
  | _ => exact halive

/-- Until the destructor starts every worker has its place. -/
theorem placed_step (h : Step intervalMs s t) (halive : t.teardown = .alive) {loc : Nat → Place H}
    (hs : Placed s loc) : ∃ loc', Placed t loc' := by
  obtain ⟨l, hl⟩ := h
  have hfree : ∀ {t}, s.activity t = .free → s.reaping t = [] := by
    intro t ht
    exact reaping_of_ne (by simp [ht])
  have hentered : ∀ {t c}, s.activity t = .entered c → s.reaping t = [] := by
    intro t c ht
    exact reaping_of_ne (by simp [ht])
  cases Pool.next_move hl with
  | call t c h hmay => exact ⟨loc, hs.idle (hfree h) (by simp)⟩
  | start t spawns h =>
    have hmid := hs.reap (hentered h)
    simp only [Pool.startAutoValidation]
    split
    · exact ⟨_, hmid⟩
    · rename_i hc
      split
      · exact ⟨_, hmid.spawn hc⟩
      · exact ⟨_, hmid.unborn, hmid.current, hmid.retired, hmid.reaping, hmid.joined,
          hmid.retiredOnce, hmid.reapingOnce⟩
  | stop t h =>
    have hmid := hs.reap (hentered h)
    simp only [Pool.stopAutoValidation]
    split
    · rename_i w hc
      exact ⟨_, hmid.retire hc⟩
    · exact ⟨_, hmid⟩
  | setState t spawns h =>
    obtain ⟨stop, hb, n, beat, heq⟩ := s.startHeartbeat_eq intervalMs spawns
    rw [heq]
    have hmid := hs.idle (a := .free) (hentered h) (by simp)
    exact ⟨loc, hmid.unborn, hmid.current, hmid.retired, hmid.reaping, hmid.joined,
      hmid.retiredOnce, hmid.reapingOnce⟩
  | reaped t h => exact ⟨loc, hs.idle (by rw [Pool.reaping, h]) (by simp)⟩
  | joined t w ws h hw => exact ⟨_, hs.join h⟩
  | halted h => cases halive
  | unhalted h => cases halive
  | haltJoined b h hb => cases halive
  | collected h => cases halive
  | ended h => cases halive
  | collectJoined w ws h hw => cases halive
  | _ =>
    exact ⟨loc, hs.unborn, hs.current, hs.retired, hs.reaping, hs.joined,
      hs.retiredOnce, hs.reapingOnce⟩

/-- A call's own move, from inside the call or with the right to make one. -/
theorem Marked.setActivity (h : Marked s) {t : Thread H} {a : Activity}
    (hreap : ∀ w, w ∈ (s.setActivity t a).reaping t → s.isDone w = true)
    (hmay : ∀ w, t = .worker w → a ≠ .free → s.stage w = .cycling) :
    Marked (s.setActivity t a) := by
  refine ⟨?_, h.joined, h.fresh, ?_⟩
  · intro u w hw
    by_cases hu : u = t
    · subst hu
      exact hreap w hw
    · rw [reaping_setActivity, if_neg hu] at hw
      exact h.reaping u w hw
  · intro w hw
    by_cases hu : Thread.worker w = t
    · subst hu
      simp only [Pool.setActivity, Function.update_self] at hw
      exact hmay w rfl hw
    · simp only [Pool.setActivity, Function.update_of_ne hu] at hw
      exact h.inside w hw

theorem Marked.reap (h : Marked s) {t : Thread H} {c : Call} (ht : s.activity t = .entered c) :
    Marked (({ s with retired := s.takeExited.2 } : Pool H).setActivity t
      (.reaping s.takeExited.1)) := by
  have hmid : Marked ({ s with retired := s.takeExited.2 } : Pool H) :=
    ⟨h.reaping, h.joined, h.fresh, h.inside⟩
  apply hmid.setActivity
  · intro w hw
    rw [reaping_setActivity, if_pos rfl] at hw
    exact (List.mem_filter.1 hw).2
  · intro w hw _
    subst hw
    exact h.inside w (by simp [ht])

/-- Every step keeps the marks. -/
theorem marked_step (h : Step intervalMs s t) (hs : Marked s) : Marked t := by
  obtain ⟨l, hl⟩ := h
  cases Pool.next_move hl with
  | call t c h hmay =>
    apply hs.setActivity
    · intro w hw
      rw [reaping_setActivity, if_pos rfl] at hw
      cases hw
    · intro w hw _
      subst hw
      simpa [Pool.mayCall] using hmay
  | start t spawns h =>
    have hmid := hs.reap h
    simp only [Pool.startAutoValidation]
    split
    · exact hmid
    · split
      · exact hmid.spawn
      · exact ⟨hmid.reaping, hmid.joined, hmid.fresh, hmid.inside⟩
  | stop t h =>
    have hmid := hs.reap h
    simp only [Pool.stopAutoValidation]
    split
    · exact ⟨hmid.reaping, hmid.joined, hmid.fresh, hmid.inside⟩
    · exact hmid
  | setState t spawns h =>
    obtain ⟨stop, hb, n, beat, heq⟩ := s.startHeartbeat_eq intervalMs spawns
    rw [heq]
    have hmid : Marked
        ({ s with stopBeat := stop, heartbeat := hb, beats := n, beat := beat } : Pool H) :=
      ⟨hs.reaping, hs.joined, hs.fresh, hs.inside⟩
    apply hmid.setActivity
    · intro w hw
      rw [reaping_setActivity, if_pos rfl] at hw
      cases hw
    · intro w _ hfree
      exact absurd rfl hfree
  | reaped t h =>
    apply hs.setActivity
    · intro w hw
      rw [reaping_setActivity, if_pos rfl] at hw
      cases hw
    · intro w _ hfree
      exact absurd rfl hfree
  | joined t w ws h hw =>
    have hmid : Marked (s.setActivity t (.reaping ws)) := by
      apply hs.setActivity
      · intro v hv
        rw [reaping_setActivity, if_pos rfl] at hv
        apply hs.reaping t v
        rw [Pool.reaping, h]
        exact .tail _ hv
      · intro v hv _
        subst hv
        exact hs.inside v (by simp [h])
    refine ⟨hmid.reaping, ?_, hmid.fresh, hmid.inside⟩
    intro v hv
    by_cases heq : v = w
    · subst heq
      exact hw
    · simp only [Function.update_of_ne heq] at hv
      exact hs.joined v hv
  | kept w h he => exact hs.setStage h (by simp) (by simp) (by simp) (by simp)
  | leftLoop w h he => exact hs.setStage h (by simp) (by simp) (by simp) (by simp)
  | began w h he =>
    have hmid : Marked (s.setStage w .cycling) :=
      hs.setStage h (by simp) (by simp) (by simp) (by simp)
    exact ⟨hmid.reaping, hmid.joined, hmid.fresh, hmid.inside⟩
  | leftWait w h he => exact hs.setStage h (by simp) (by simp) (by simp) (by simp)
  | cycled w h hfree => exact hs.setStage h (by simp) (by simp) (by simp) fun _ => hfree
  | marked w h => exact hs.setStage h (by simp) (by simp) (by simp) (by simp)
  | exited w h => exact hs.setStage h (by simp) (by simp) (fun _ => rfl) (by simp)
  | collectJoined w ws h hw =>
    refine ⟨hs.reaping, ?_, hs.fresh, hs.inside⟩
    intro v hv
    by_cases heq : v = w
    · subst heq
      exact hw
    · simp only [Function.update_of_ne heq] at hv
      exact hs.joined v hv
  | _ => exact ⟨hs.reaping, hs.joined, hs.fresh, hs.inside⟩

/-- What no step does: lower the count, forget a worker's birth, or begin a cycle of a worker
that is not current. -/
theorem step_history (h : Step intervalMs s t) : s.bumps ≤ t.bumps ∧ s.spawned ≤ t.spawned ∧
    (∀ w < s.spawned, t.born w = s.born w) ∧
    ∀ w, s.epochOf w ≠ s.epoch → t.begun w = s.begun w := by
  obtain ⟨l, hl⟩ := h
  cases Pool.next_move hl with
  | start t spawns h =>
    simp only [Pool.startAutoValidation]
    split
    · exact ⟨Nat.le_refl _, Nat.le_refl _, fun _ _ => rfl, fun _ _ => rfl⟩
    · split
      · refine ⟨Nat.le_succ _, Nat.le_succ _, ?_, fun _ _ => rfl⟩
        intro w hw
        have hne : w ≠ s.spawned := by omega
        exact Function.update_of_ne hne _ _
      · exact ⟨Nat.le_succ _, Nat.le_refl _, fun _ _ => rfl, fun _ _ => rfl⟩
  | stop t h =>
    simp only [Pool.stopAutoValidation]
    split
    · exact ⟨Nat.le_succ _, Nat.le_refl _, fun _ _ => rfl, fun _ _ => rfl⟩
    · exact ⟨Nat.le_refl _, Nat.le_refl _, fun _ _ => rfl, fun _ _ => rfl⟩
  | setState t spawns h =>
    obtain ⟨stop, hb, n, beat, heq⟩ := s.startHeartbeat_eq intervalMs spawns
    rw [heq]
    exact ⟨Nat.le_refl _, Nat.le_refl _, fun _ _ => rfl, fun _ _ => rfl⟩
  | began w h he =>
    refine ⟨Nat.le_refl _, Nat.le_refl _, fun _ _ => rfl, ?_⟩
    intro v hv
    have hne : v ≠ w := by
      rintro rfl
      exact hv he.symm
    exact Function.update_of_ne hne _ _
  | collected h => exact ⟨Nat.le_succ _, Nat.le_refl _, fun _ _ => rfl, fun _ _ => rfl⟩
  | _ => exact ⟨Nat.le_refl _, Nat.le_refl _, fun _ _ => rfl, fun _ _ => rfl⟩

/-- Once another epoch is current a worker begins no further cycle, until the epoch wraps. -/
theorem superseded (hs : Epochs s) {w : Nat} (hw : w < s.spawned)
    (hold : s.epochOf w ≠ s.epoch) (h : Relation.ReflTransGen (Step intervalMs) s t)
    (hb : t.bumps < 2 ^ 64) : t.begun w = s.begun w := by
  have hborn : s.born w < s.bumps := by
    have hle := hs.le w hw
    have hne : s.born w ≠ s.bumps := by
      intro heq
      apply hold
      rw [hs.epochOf w hw, hs.epoch, heq]
    omega
  have hall : (t.bumps < 2 ^ 64 → t.begun w = s.begun w) ∧ Epochs t ∧ w < t.spawned ∧
      t.born w = s.born w ∧ s.bumps ≤ t.bumps := by
    induction h with
    | refl => exact ⟨fun _ => rfl, hs, hw, rfl, Nat.le_refl _⟩
    | @tail u v _ hstep ih =>
      obtain ⟨hbegun, hu, hlt, hbornu, hbumps⟩ := ih (by
        have := (step_history hstep).1
        omega)
      obtain ⟨hle, hspawn, hsame, hkeep⟩ := step_history hstep
      refine ⟨?_, epochs_step hstep hu, by omega, (hsame w hlt).trans hbornu, by omega⟩
      intro hv
      have hub : u.bumps < 2 ^ 64 := by omega
      have hother : u.epochOf w ≠ u.epoch := by
        intro heq
        rw [hu.current_iff hub hlt, ← hu.current w hlt, hbornu] at heq
        omega
      rw [hkeep w hother]
      exact hbegun hub
  exact hall.1 hb

/-- What start and stop keep while the client lives. -/
structure Managed (intervalMs : Int) (s : Pool H) : Prop where
  exclusive : ∀ w v, w < s.spawned → v < s.spawned → s.epochOf w = s.epoch →
    s.epochOf v = s.epoch → w = v
  placed : ∃ loc, Placed s loc
  marked : ∀ t w, w ∈ s.reaping t → s.isDone w = true ∧ t ≠ .worker w
  superseded : ∀ u, Relation.ReflTransGen (Step intervalMs) s u → u.bumps < 2 ^ 64 →
    ∀ w < s.spawned, s.epochOf w ≠ s.epoch → u.begun w = s.begun w

/-- The invariant of the epochs, over every interleaving. -/
theorem epochs_reachable (h : Reachable intervalMs s) : Epochs s := by
  apply Ownership.invariant (R := Step intervalMs) _ h
  · constructor
    · rfl
    · intro w hw
      cases hw
    · intro w hw
      cases hw
    · intro w hw
      cases hw
    · intro w hw
      cases hw
  · intro u v hstep hu
    exact epochs_step hstep hu

/-- The invariant of the marks, over every interleaving. -/
theorem marked_reachable (h : Reachable intervalMs s) : Marked s := by
  apply Ownership.invariant (R := Step intervalMs) _ h
  · constructor
    · intro t w hw
      cases hw
    · intro w hw
      cases hw
    · intro w _
      rfl
    · intro w hw
      exact absurd rfl hw
  · intro u v hstep hu
    exact marked_step hstep hu

/-- While the client lives each worker is in one place, in every state reached. -/
theorem placed_reachable (h : Reachable intervalMs s) (halive : s.teardown = .alive) :
    ∃ loc, Placed s loc := by
  induction h with
  | refl =>
    refine ⟨fun _ => .unborn, ?_, ?_, ?_, ?_, ?_, List.nodup_nil, fun _ => List.nodup_nil⟩
    · intro w
      simp
    · intro w
      simp
    · intro w
      simp
    · intro w t
      simp [Pool.reaping]
    · intro w
      simp
  | tail _ hstep ih =>
    obtain ⟨loc, hloc⟩ := ih (alive_step hstep halive)
    exact placed_step hstep halive hloc

/-- At any time before destruction a worker with the present epoch is the current one, every
worker is in one place, and only done workers are about to be joined. -/
theorem managed (h : Reachable intervalMs s) (halive : s.teardown = .alive)
    (hb : s.bumps < 2 ^ 64) : Managed intervalMs s := by
  have hepochs := epochs_reachable h
  have hmarked := marked_reachable h
  constructor
  · intro w v hw hv hew hev
    rw [hepochs.current_iff hb hw] at hew
    rw [hepochs.current_iff hb hv, hew] at hev
    exact Option.some.inj hev
  · exact placed_reachable h halive
  · intro t w hw
    have hdone := hmarked.reaping t w hw
    refine ⟨hdone, ?_⟩
    rintro rfl
    have hbusy : s.activity (.worker w) ≠ .free := by
      intro hfree
      rw [Pool.reaping, hfree] at hw
      cases hw
    have hcycling := hmarked.inside w hbusy
    rw [isDone_iff, hcycling] at hdone
    simp at hdone
  · intro u hu hub w hw hold
    exact superseded hepochs hw hold hu hub

/-- Start, stop and start again by one host thread, up to the Reaper of the last call. -/
def handoff : List (Label Unit) :=
  [.call (.host ()) .start, .start (.host ()) true, .join (.host ()),
    .call (.host ()) .stop, .stop (.host ()), .join (.host ()),
    .check 0, .mark 0, .call (.host ()) .start, .start (.host ()) true]

/-- A worker that a call is about to join is in no other place. -/
theorem handoff_reaping : ∃ s : Pool Unit, Reachable 1 s ∧ s.teardown = .alive ∧
    0 < s.spawned ∧ s.current = some 1 ∧ s.retired = [] ∧ s.joined 0 = false := by
  have hrun : ∃ s, Pool.run 1 handoff {} = some s ∧ s.teardown = .alive ∧ 0 < s.spawned ∧
      s.current = some 1 ∧ s.retired = [] ∧ s.joined 0 = false :=
    ⟨_, rfl, rfl, by decide, rfl, rfl, rfl⟩
  obtain ⟨s, hs, hrest⟩ := hrun
  exact ⟨s, Pool.run_steps hs, hrest⟩

/-- The first worker is inside a cycle while the epoch has moved on to `n`. -/
structure Stalled (s : Pool Unit) (n : Nat) : Prop where
  reachable : Reachable 1 s
  alive : s.teardown = .alive
  current : s.current = none
  retired : s.retired = [0]
  spawned : s.spawned = 1
  stage : s.stage 0 = .cycling
  epochOf : s.epochOf 0 = 1
  epoch : s.epoch = UInt64.ofNat n
  free : s.activity (.host ()) = .free

theorem stalled_two : ∃ s, Stalled s 2 := by
  have hrun : ∃ s, Pool.run 1 [.call (.host ()) .start, .start (.host ()) true,
      .join (.host ()), .check 0, .wake 0, .call (.host ()) .stop, .stop (.host ()),
      .join (.host ())] {} = some s ∧ s.teardown = .alive ∧ s.current = none ∧
      s.retired = [0] ∧ s.spawned = 1 ∧ s.stage 0 = .cycling ∧ s.epochOf 0 = 1 ∧
      s.epoch = UInt64.ofNat 2 ∧ s.activity (.host ()) = .free :=
    ⟨_, rfl, rfl, rfl, rfl, rfl, rfl, rfl, rfl, rfl⟩
  obtain ⟨s, hs, h₁, h₂, h₃, h₄, h₅, h₆, h₇, h₈⟩ := hrun
  exact ⟨s, Pool.run_steps hs, h₁, h₂, h₃, h₄, h₅, h₆, h₇, h₈⟩

/-- A start that finds nobody to reap and the slot free. -/
theorem startAutoValidation_free {s : Pool H} (hc : s.current = none)
    (hd : ∀ w ∈ s.retired, s.isDone w = false) (t : Thread H) (spawns : Bool) :
    s.startAutoValidation t spawns =
      if spawns then (s.setActivity t (.reaping [])).bump.spawn
      else (s.setActivity t (.reaping [])).bump := by
  have hexited : s.retired.filter s.isDone = [] := by
    rw [List.filter_eq_nil_iff]
    intro w hw
    simp [hd w hw]
  have hrunning : (s.retired.filter fun w => !s.isDone w) = s.retired := by
    rw [List.filter_eq_self]
    intro w hw
    simp [hd w hw]
  simp only [Pool.startAutoValidation, Pool.takeExited, hexited, hrunning]
  split
  · rename_i w hw
    rw [show s.current = some w from hw] at hc
    cases hc
  · rfl

/-- With no worker left to join the call ends. -/
theorem next_join_done {s : Pool H} {t : Thread H} (h : s.activity t = .reaping []) (i : Int) :
    s.next i (.join t) = some (s.setActivity t .free) := by
  simp only [Pool.next, h]

/-- With the worker stalled a start joins nobody; it bumps the epoch, thread or not. -/
theorem Stalled.start {s : Pool Unit} {n : Nat} (h : Stalled s n) (spawns : Bool) : ∃ a,
    Pool.run 1 [.call (.host ()) .start, .start (.host ()) spawns, .join (.host ())] s =
      some { (if spawns then s.bump.spawn else s.bump) with activity := a } ∧
    a (.host ()) = .free := by
  have hcall : s.next 1 (.call (.host ()) .start) =
      some (s.setActivity (.host ()) (.entered .start)) := by
    simp [Pool.next, h.free, Pool.mayCall]
  have hstart : (s.setActivity (.host ()) (.entered .start)).next 1 (.start (.host ()) spawns) =
      some ((s.setActivity (.host ()) (.entered .start)).startAutoValidation (.host ())
        spawns) := by
    simp [Pool.next, Pool.setActivity]
  have hd : ∀ w ∈ s.retired, s.isDone w = false := by
    rw [h.retired]
    intro w hw
    rw [List.mem_singleton.1 hw]
    simp [Pool.isDone, h.stage]
  rw [startAutoValidation_free (s := s.setActivity (.host ()) (.entered .start)) h.current hd]
    at hstart
  simp only [Pool.run, hcall, Option.bind_some, hstart]
  have hreaping : ((s.setActivity (.host ()) (.entered .start)).setActivity (.host ())
      (.reaping [])).activity (.host ()) = .reaping [] := by
    simp only [Pool.setActivity, Function.update_self]
  cases spawns with
  | true =>
    rw [if_pos rfl, next_join_done]
    · exact ⟨_, rfl, Function.update_self (Thread.host ()) _ _⟩
    · exact hreaping
  | false =>
    rw [if_neg Bool.false_ne_true, next_join_done]
    · exact ⟨_, rfl, Function.update_self (Thread.host ()) _ _⟩
    · exact hreaping

theorem Stalled.bump {s : Pool Unit} {n : Nat} (h : Stalled s n) : ∃ t, Stalled t (n + 1) := by
  obtain ⟨a, hrun, ha⟩ := h.start false
  refine ⟨_, h.reachable.trans (Pool.run_steps hrun), h.alive, h.current, h.retired, h.spawned,
    h.stage, h.epochOf, ?_, ha⟩
  change s.epoch + 1 = _
  rw [h.epoch, ofNat_succ]

theorem stalled_add (n : Nat) : ∃ s, Stalled s (2 + n) := by
  induction n with
  | zero => exact stalled_two
  | succ n ih =>
    obtain ⟨s, hs⟩ := ih
    exact hs.bump

/-- Inside the loop. -/
def Pool.live (s : Pool H) (w : Nat) : Bool :=
  s.stage w = .checking ∨ s.stage w = .waiting ∨ s.stage w = .cycling

/-- After 2^64 bumps the stalled worker and a new one carry the same epoch. -/
theorem wrapped : ∃ s : Pool Unit, Reachable 1 s ∧ s.teardown = .alive ∧
    s.live 0 = true ∧ s.live 1 = true ∧ s.epochOf 0 = s.epoch ∧ s.epochOf 1 = s.epoch := by
  obtain ⟨s, hs⟩ := stalled_add (2 ^ 64 - 2)
  obtain ⟨a, hrun, -⟩ := hs.start true
  have hzero : s.epoch + 1 = 1 := by
    rw [hs.epoch]
    rfl
  have hstage : Function.update s.stage s.spawned .checking 0 = .cycling := by
    rw [Function.update_of_ne (by simp [hs.spawned]), hs.stage]
  have hold : Function.update s.epochOf s.spawned (s.epoch + 1) 0 = s.epoch + 1 := by
    rw [Function.update_of_ne (by simp [hs.spawned]), hs.epochOf, hzero]
  refine ⟨_, hs.reachable.trans (Pool.run_steps hrun), hs.alive, ?_, ?_, hold, ?_⟩
  · simp [Pool.live, Pool.spawn, Pool.bump, hstage]
  · simp [Pool.live, Pool.spawn, Pool.bump, hs.spawned]
  · simp [Pool.spawn, Pool.bump, hs.spawned]

/-- Neither holds of every reachable pool: a worker in the current slot, retired or joined, and
one live worker at most with the present epoch. -/
theorem unmanaged :
    (¬∀ s : Pool Unit, Reachable 1 s → s.teardown = .alive → ∀ w < s.spawned,
      s.current = some w ∨ w ∈ s.retired ∨ s.joined w = true) ∧
    ¬∀ s : Pool Unit, Reachable 1 s → s.teardown = .alive → ∀ w v, s.live w = true →
      s.live v = true → s.epochOf w = s.epoch → s.epochOf v = s.epoch → w = v := by
  constructor
  · intro h
    obtain ⟨s, hs, halive, hspawned, hc, hr, hj⟩ := handoff_reaping
    obtain hw | hw | hw := h s hs halive 0 hspawned
    · rw [hc] at hw
      cases hw
    · rw [hr] at hw
      cases hw
    · rw [hj] at hw
      cases hw
  · intro h
    obtain ⟨s, hs, halive, h₀, h₁, he₀, he₁⟩ := wrapped
    cases h s hs halive 0 1 h₀ h₁ he₀ he₁

/-- The pool of the handoff, before the Reaper of its last call has joined anyone. -/
theorem managed_handoff : ∃ s : Pool Unit, s.current = some 1 ∧ s.reaping (.host ()) = [0] ∧
    Managed 1 s := by
  have hrun : ∃ s, Pool.run 1 handoff {} = some s ∧ s.current = some 1 ∧
      s.reaping (.host ()) = [0] ∧ s.teardown = .alive ∧ s.bumps = 3 :=
    ⟨_, rfl, rfl, rfl, rfl, rfl⟩
  obtain ⟨s, hs, hc, hr, halive, hb⟩ := hrun
  exact ⟨s, hc, hr, managed (Pool.run_steps hs) halive (by rw [hb]; decide)⟩
end Keylight.Workers
