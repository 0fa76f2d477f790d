import Keylight.Interference
import Keylight.Revocation

/-!
# The order of store writes

One deactivation among any number of savers. A save takes its snapshot and writes
it under `save_mutex_`; a deactivation without a trial clears the store outside
it. The history says where the save in flight stands, and the store stays bare
after every clear that no stale save is waiting behind.
-/
namespace Keylight
open Bytes Sections

/-- The licence key a store holds. -/
def storedKey (blob : Bytes) : Option Bytes :=
  (decodeStore blob).bind fun j => stringOf j (ascii "licenseKey")

theorem storedKey_buildBlob (c : Cache) :
    storedKey (buildBlob c) = Client.nonEmpty c.licenseKey := by
  have hmem : (ascii "licenseKey", c.licenseKey.map writtenString) ∈ blobFields c :=
    .tail _ (.tail _ (.tail _ (.head _)))
  rw [storedKey, decodeStore_buildBlob, Option.bind_some, stringOf_blob hmem]

/-- A store without a lease and without a licence key. -/
structure BareStore (blob : Bytes) : Prop where
  lease : storedLease blob = none
  key : storedKey blob = none

theorem BareStore.empty : BareStore [] := ⟨rfl, rfl⟩

theorem BareStore.blob {c : Cache} (hlease : c.lease = none) (hkey : c.licenseKey = none) :
    BareStore (buildBlob c) := by
  constructor
  · rw [storedLease_buildBlob c (by simp [hlease]), hlease]
  · rw [storedKey_buildBlob, hkey]
    rfl

/-- The save between its snapshot and its write; stale once the cache was reset behind it. -/
inductive Flight where
  | none | fresh | stale
  deriving DecidableEq

structure Progress where
  flight : Flight := .none
  /-- the cache has been reset -/
  reset : Bool := false
  /-- the store has been cleared -/
  cleared : Bool := false

def Progress.next (p : Progress) : Event → Progress
  | .snapshot => { p with flight := .fresh }
  | .saved _ _ => { p with flight := .none }
  | .paidReset => { p with
      flight := if p.flight = .none then .none else .stale
      reset := true }
  | .cleared (.ok _) => { p with cleared := true }
  | _ => p

/-- What a history says about the save in flight, the reset and the clear. -/
def progress (log : List Event) : Progress := log.foldl Progress.next {}

theorem progress_append (log es : List Event) :
    progress (log ++ es) = es.foldl Progress.next (progress log) := List.foldl_append

theorem progress_record (log : List Event) (e : Event) :
    progress (log ++ [e]) = (progress log).next e := progress_append log [e]

theorem Progress.observed (p : Progress) {es : List Event} (h : ∀ e ∈ es, e.isObservation) :
    es.foldl Progress.next p = p := by
  induction es with
  | nil => rfl
  | cons e es ih =>
    have he : p.next e = p := by
      have hobs := h e (.head es)
      cases e <;> first | rfl | cases hobs
    rw [List.foldl_cons, he]
    exact ih fun e he => h e (.tail _ he)

theorem idle_progress {w v : World} (h : Idle w v) : progress v.log = progress w.log := by
  obtain ⟨es, hes, hobs⟩ := h.log
  rw [hes, progress_append, Progress.observed _ hobs]

/-- The section between two worlds clears the store. -/
def clears (w v : World) : Bool :=
  match v.log.drop w.log.length with
  | [.cleared _] => true
  | _ => false

/-- The store is not cleared while a stale save is in flight. -/
def ClearsInOrder (w v : World) : Prop :=
  clears w v = true → (progress w.log).flight ≠ .stale

instance (w v : World) : Decidable (ClearsInOrder w v) :=
  inferInstanceAs (Decidable (_ → _))

structure Sound (w : World) : Prop where
  untried : w.client.cache.trialStart = none
  reset : (progress w.log).reset = true →
    w.client.cache.lease = none ∧ w.client.cache.licenseKey = none
  cleared : (progress w.log).cleared = true → (progress w.log).reset = true ∧
    (progress w.log).flight ≠ .stale ∧ BareStore w.store

/-- The blob of the save in flight is bare unless it is stale or older than the reset. -/
def Carries (b : Bytes) (w : World) : Prop :=
  (progress w.log).flight ≠ .none ∧
    ((progress w.log).flight = .fresh → (progress w.log).reset = true → BareStore b)

/-- What thread `i` finds unchanged after a section of another thread; thread 0 deactivates. -/
structure Kept (i : Nat) (w v : World) : Prop where
  sound : Sound v
  owner : w.saveOwner = some i → v.saveOwner = some i ∧ ∀ b, Carries b w → Carries b v
  reset : i = 0 → (progress v.log).reset = (progress w.log).reset
  cleared : i = 0 → (progress v.log).cleared = (progress w.log).cleared

def Undisturbed (i : Nat) (w v : World) : Prop := Sound w → Kept i w v

theorem Undisturbed.refl (i : Nat) (w : World) : Undisturbed i w w :=
  fun h => ⟨h, fun ho => ⟨ho, fun _ hb => hb⟩, fun _ => rfl, fun _ => rfl⟩

theorem Undisturbed.trans (i : Nat) (u w v : World) (h₁ : Undisturbed i u w)
    (h₂ : Undisturbed i w v) : Undisturbed i u v := by
  intro hu
  have hk₁ := h₁ hu
  have hk₂ := h₂ hk₁.sound
  refine ⟨hk₂.sound, fun ho => ?_, fun hi => (hk₂.reset hi).trans (hk₁.reset hi),
    fun hi => (hk₂.cleared hi).trans (hk₁.cleared hi)⟩
  obtain ⟨ho₁, hb₁⟩ := hk₁.owner ho
  obtain ⟨ho₂, hb₂⟩ := hk₂.owner ho₁
  exact ⟨ho₂, fun b hb => hb₂ b (hb₁ b hb)⟩

theorem Carries.congr {b : Bytes} {w v : World} (h : Carries b w)
    (hlog : progress v.log = progress w.log) : Carries b v := by
  rw [Carries, hlog]
  exact h

/-- A section that leaves the cache, the store and the progress alone. -/
structure Still (w v : World) : Prop where
  cache : v.client.cache = w.client.cache
  store : v.store = w.store
  owner : v.saveOwner = w.saveOwner
  progress : progress v.log = progress w.log

theorem idle_still {w v : World} (h : Idle w v) : Still w v :=
  ⟨congrArg Core.cache h.core, h.store, h.saveOwner, idle_progress h⟩

theorem Sound.congr {w v : World} (h : Sound w) (hcache : v.client.cache = w.client.cache)
    (hstore : v.store = w.store) (hlog : progress v.log = progress w.log) : Sound v := by
  constructor
  · rw [hcache]
    exact h.untried
  · rw [hcache, hlog]
    exact h.reset
  · rw [hstore, hlog]
    exact h.cleared

/-- Taking and giving up the save mutex leave the rest alone too. -/
theorem undisturbed_same {i : Nat} {w v : World} (hcache : v.client.cache = w.client.cache)
    (hstore : v.store = w.store) (hlog : progress v.log = progress w.log)
    (howner : w.saveOwner = some i → v.saveOwner = some i) : Undisturbed i w v := by
  intro hw
  refine ⟨hw.congr hcache hstore hlog, fun ho => ⟨howner ho, fun b hb => hb.congr hlog⟩,
    fun _ => ?_, fun _ => ?_⟩
  · rw [hlog]
  · rw [hlog]

theorem Still.undisturbed {i : Nat} {w v : World} (h : Still w v) : Undisturbed i w v :=
  undisturbed_same h.cache h.store h.progress h.owner.trans

/-- A thread other than the owner of the save mutex has nothing in flight. -/
theorem undisturbed_held {i j : Nat} {w v : World} (hj : j ≠ i) (howner : w.saveOwner = some i)
    (hsound : Sound w → Sound v) (hreset : (progress v.log).reset = (progress w.log).reset)
    (hcleared : (progress v.log).cleared = (progress w.log).cleared) : Undisturbed j w v := by
  intro hw
  refine ⟨hsound hw, fun ho => ?_, fun _ => hreset, fun _ => hcleared⟩
  rw [howner] at ho
  exact absurd (Option.some.inj ho).symm hj

namespace Client
variable {X : Site} {E : Env}

/-- The save mutex is held by thread `i`. -/
def Holding (i : Nat) (w : World) : Prop := Sound w ∧ w.saveOwner = some i

def Flying (i : Nat) (b : Bytes) (w : World) : Prop :=
  Sound w ∧ w.saveOwner = some i ∧ Carries b w

theorem stable_sound (i : Nat) : Stable (Undisturbed i) Sound :=
  fun _ _ hs h => (h hs).sound

theorem stable_holding (i : Nat) : Stable (Undisturbed i) (Holding i) := by
  intro s t hs h
  exact ⟨(h hs.1).sound, ((h hs.1).owner hs.2).1⟩

theorem stable_flying (i : Nat) (b : Bytes) : Stable (Undisturbed i) (Flying i b) := by
  intro s t hs h
  obtain ⟨ho, hb⟩ := (h hs.1).owner hs.2.1
  exact ⟨(h hs.1).sound, ho, hb b hs.2.2⟩

/-- The sections of thread `i` respect every other thread. -/
abbrev Respects (i : Nat) (w v : World) : Prop := ∀ j : Nat, j ≠ i → Undisturbed j w v

theorem snapshot_sound {w : World} (h : Sound w) :
    Sound { w with log := w.log ++ [.snapshot] } := by
  refine ⟨h.untried, ?_, ?_⟩
  · simp only [progress_record, Progress.next]
    exact h.reset
  · simp only [progress_record, Progress.next]
    intro hc
    exact ⟨(h.cleared hc).1, by simp, (h.cleared hc).2.2⟩

theorem snapshot_carries {w : World} (h : Sound w) :
    Carries (buildBlob w.client.cache) { w with log := w.log ++ [.snapshot] } := by
  simp only [Carries, progress_record, Progress.next]
  refine ⟨by simp, fun _ hr => ?_⟩
  obtain ⟨hlease, hkey⟩ := h.reset hr
  exact .blob hlease hkey

/-- A save that lands after the clear is neither stale nor older than the reset. -/
theorem save_sound {w v : World} {b : Bytes} {r : Result Unit} (h : Sound w) (hb : Carries b w)
    (hcache : v.client.cache = w.client.cache) (hstore : v.store = b ∨ v.store = w.store)
    (hlog : v.log = w.log ++ [.saved b r]) : Sound v := by
  have hprogress : progress v.log = { progress w.log with flight := .none } := by
    rw [hlog, progress_record]
    rfl
  constructor
  · rw [hcache]
    exact h.untried
  · rw [hcache, hprogress]
    exact h.reset
  · rw [hprogress]
    intro hc
    obtain ⟨hreset, hfresh, hbare⟩ := h.cleared hc
    refine ⟨hreset, by simp, ?_⟩
    obtain hs | hs := hstore
    · rw [hs]
      refine hb.2 ?_ hreset
      cases hf : (progress w.log).flight with
      | none => exact absurd hf hb.1
      | fresh => rfl
      | stale => exact absurd hf hfresh
    · rw [hs]
      exact hbare

/-- A save keeps the order of snapshots, with any others in between. -/
theorem saveCache_safe {i : Nat} (hself : E.self = i) {w : World} (hw : Sound w) :
    Safe ClearsInOrder (Undisturbed i) (Respects i) (fun _ => Sound) (saveCache E) w := by
  have refl := Undisturbed.refl i
  refine .bind refl (.await (stable_sound i) hw (stable_holding i) fun t ht hg _ => ⟨?_, ?_⟩)
    fun _ u hu => ?_
  · intro j hj
    refine undisturbed_same rfl rfl rfl fun ho => ?_
    rw [ho] at hg
    cases hg
  · exact ⟨ht.congr rfl rfl rfl, congrArg some hself⟩
  refine .bind refl (.atom (stable_holding i) hu (stable_flying i) fun t ht _ => ⟨?_, ?_⟩)
    fun b u hu => ?_
  · intro j hj
    refine undisturbed_held hj ht.2 snapshot_sound ?_ ?_
    · simp only [progress_record, Progress.next]
    · simp only [progress_record, Progress.next]
  · exact ⟨snapshot_sound ht.1, ht.2, snapshot_carries ht.1⟩
  refine .bind refl (.atom (Q := fun _ => Holding i) (stable_flying i b) hu
    (fun _ => stable_holding i) fun t ht _ => ?_) fun r u hu => ?_
  · have hstore : ∀ c : Bool, (if c then b else t.store) = b ∨
        (if c then b else t.store) = t.store := by
      intro c
      cases c
      · exact .inr rfl
      · exact .inl rfl
    refine ⟨fun j hj => ?_, ?_⟩
    · refine undisturbed_held hj ht.2.1 (fun h => save_sound h ht.2.2 rfl (hstore _) rfl) ?_ ?_
      · simp only [progress_record, Progress.next]
      · simp only [progress_record, Progress.next]
    · exact ⟨save_sound ht.1 ht.2.2 rfl (hstore _) rfl, ht.2.1⟩
  refine .bind refl (.modify (stable_holding i) hu (stable_sound i) fun t ht _ => ⟨?_, ?_⟩)
    fun _ u hu => ?_
  · intro j hj
    refine undisturbed_same rfl rfl rfl fun ho => ?_
    rw [ht.2] at ho
    exact absurd (Option.some.inj ho).symm hj
  · exact ht.1.congr rfl rfl rfl
  · exact .pure (stable_sound i) hu fun _ ht => ht

def Ahead (w : World) : Prop := Sound w ∧ (progress w.log).reset = false

def Reset (w : World) : Prop := Sound w ∧ (progress w.log).reset = true

def Cleared (w : World) : Prop := Sound w ∧ (progress w.log).cleared = true

theorem stable_ahead : Stable (Undisturbed 0) Ahead :=
  fun _ _ hs h => ⟨(h hs.1).sound, ((h hs.1).reset rfl).trans hs.2⟩

theorem stable_reset : Stable (Undisturbed 0) Reset :=
  fun _ _ hs h => ⟨(h hs.1).sound, ((h hs.1).reset rfl).trans hs.2⟩

theorem stable_cleared : Stable (Undisturbed 0) Cleared :=
  fun _ _ hs h => ⟨(h hs.1).sound, ((h hs.1).cleared rfl).trans hs.2⟩

theorem still_ahead {w v : World} (h : Still w v) (hw : Ahead w) : Ahead v := by
  refine ⟨hw.1.congr h.cache h.store h.progress, ?_⟩
  rw [h.progress]
  exact hw.2

theorem still_cleared {w v : World} (h : Still w v) (hw : Cleared w) : Cleared v := by
  refine ⟨hw.1.congr h.cache h.store h.progress, ?_⟩
  rw [h.progress]
  exact hw.2

theorem still_setState (s : State) : Each Still (fun _ => True) (setState E s) := by
  refine each_setState E s idle_still fun w => ⟨rfl, rfl, rfl, ?_⟩
  exact progress_record w.log (.stateStored s)

/-- The reset makes a save in flight stale. -/
theorem reset_undisturbed {w v : World} (hw : Ahead w)
    (hcache : v.client.cache.trialStart = w.client.cache.trialStart ∧
      v.client.cache.lease = none ∧ v.client.cache.licenseKey = none)
    (howner : v.saveOwner = w.saveOwner) (hlog : v.log = w.log ++ [.paidReset]) :
    Reset v ∧ Respects 0 w v := by
  have hprogress : progress v.log = (progress w.log).next .paidReset := by
    rw [hlog, progress_record]
  have hsound : Sound v := by
    refine ⟨hcache.1.trans hw.1.untried, fun _ => hcache.2, fun hc => ?_⟩
    have hcleared : (progress w.log).cleared = true := by
      rw [hprogress] at hc
      exact hc
    have hreset := (hw.1.cleared hcleared).1
    rw [hw.2] at hreset
    cases hreset
  refine ⟨⟨hsound, by rw [hprogress]; rfl⟩, fun j hj _ => ⟨hsound, fun ho => ?_, ?_, ?_⟩⟩
  · refine ⟨howner.trans ho, fun b hb => ?_⟩
    rw [Carries, hprogress]
    simp only [Progress.next, if_neg hb.1]
    exact ⟨by simp, fun hf => by cases hf⟩
  · intro h
    exact absurd h hj
  · intro h
    exact absurd h hj

/-- A clear with no old snapshot in flight keeps the order. -/
theorem clear_undisturbed {w v : World} {r : Result Unit} (hw : Reset w)
    (hstale : (progress w.log).flight ≠ .stale) (hcache : v.client.cache = w.client.cache)
    (howner : v.saveOwner = w.saveOwner) (hstore : v.store = if isOk r then [] else w.store)
    (hlog : v.log = w.log ++ [.cleared r]) :
    (Sound v ∧ (r = .ok () → Cleared v)) ∧ Respects 0 w v := by
  cases r with
  | error e =>
    have hprogress : progress v.log = progress w.log := by
      rw [hlog, progress_record]
      rfl
    have hstill : Still w v := ⟨hcache, hstore, howner, hprogress⟩
    refine ⟨⟨hw.1.congr hcache hstore hprogress, fun h => by cases h⟩, fun j _ => ?_⟩
    exact hstill.undisturbed
  | ok _ =>
    have hprogress : progress v.log = { progress w.log with cleared := true } := by
      rw [hlog, progress_record]
      rfl
    have hsound : Sound v := by
      constructor
      · rw [hcache]
        exact hw.1.untried
      · rw [hcache, hprogress]
        exact hw.1.reset
      · rw [hprogress, hstore]
        exact fun _ => ⟨hw.2, hstale, .empty⟩
    refine ⟨⟨hsound, fun _ => ⟨hsound, by rw [hprogress]⟩⟩, fun j hj _ => ⟨hsound, ?_, ?_, ?_⟩⟩
    · intro ho
      refine ⟨howner.trans ho, fun b hb => ?_⟩
      rw [Carries, hprogress]
      exact hb
    · intro h
      exact absurd h hj
    · intro h
      exact absurd h hj

theorem clears_record {w v : World} {r : Result Unit} (h : v.log = w.log ++ [.cleared r]) :
    clears w v = true := by
  rw [clears, h, List.drop_left]

/-- A deactivation that reports success ends with a cleared store. -/
theorem deactivate_safe {w : World} (hw : Ahead w) :
    Safe ClearsInOrder (Undisturbed 0) (Respects 0) (fun r v => r = .ok () → Cleared v)
      (deactivate X E) w := by
  have refl := Undisturbed.refl 0
  have hquiet : ∀ {α : Type} {p : Code α} {u : World}, Quiet p → Ahead u →
      Safe ClearsInOrder (Undisturbed 0) (Respects 0) (fun _ => Ahead) p u := by
    intro α p u hp hu
    refine (Safe.of_each (hp.each idle_still) stable_ahead ?_ hu).mono (fun _ _ h => h)
      fun a t h => h.2
    exact fun t v ht hm _ => ⟨fun j _ => hm.undisturbed, still_ahead hm ht⟩
  refine .bind refl (hquiet (quiet_readCache _) hw) fun instanceId u hu => ?_
  refine .bind refl (hquiet (quiet_readCache _) hu) fun licenseKey u hu => ?_
  refine .bind refl (hquiet (quiet_requestDeactivate X E _ _) hu) fun serverError u hu => ?_
  -- no trial has started, so the reset answers that there is none to keep
  refine .bind refl (.atom (Q := fun a v => Reset v ∧ a = false) stable_ahead hu
    (fun a s t hs h => ⟨stable_reset s t hs.1 h, hs.2⟩) fun t ht _ => ?_) fun keepTrial u hu => ?_
  · obtain ⟨hreset, hrespects⟩ := reset_undisturbed (v := (resetPaid.run t).2) ht
      ⟨rfl, rfl, rfl⟩ rfl rfl
    refine ⟨hrespects, hreset, ?_⟩
    rw [ht.1.untried]
    rfl
  obtain ⟨hu, rfl⟩ := hu
  refine .bind refl (.atom (Q := fun (r : Result Unit) v =>
    Sound v ∧ (r = .ok () → Cleared v)) stable_reset hu
    (fun r s t hs h => ⟨stable_sound 0 s t hs.1 h, fun hr => stable_cleared s t (hs.2 hr) h⟩)
    fun t ht hC => ?_) fun r u hu => ?_
  · have hstale := hC (clears_record rfl)
    obtain ⟨hcleared, hrespects⟩ := clear_undisturbed
      (v := ((storeClear E).run t).2) ht hstale rfl rfl rfl rfl
    exact ⟨hrespects, hcleared⟩
  cases r with
  | error e => exact .pure (stable_sound 0) hu.1 fun _ _ h => by cases h
  | ok _ =>
    have hstill : ∀ {α : Type} {p : Code α} {u : World}, Each Still (fun _ => True) p →
        Cleared u → Safe ClearsInOrder (Undisturbed 0) (Respects 0) (fun _ => Cleared) p u := by
      intro α p u hp hu
      refine (Safe.of_each hp stable_cleared ?_ hu).mono (fun _ _ h => h) fun a t h => h.2
      exact fun t v ht hm _ => ⟨fun j _ => hm.undisturbed, still_cleared hm ht⟩
    refine .bind refl (hstill ((quiet_resolveWithTrial X E _).each idle_still) (hu.2 rfl))
      fun s u hu => ?_
    refine .bind refl (hstill (still_setState s) hu) fun _ u hu => ?_
    cases serverError with
    | some e => exact .pure stable_cleared hu fun _ ht _ => ht
    | none => exact .pure stable_cleared hu fun _ ht _ => ht

end Client

open Client

/-- Thread 0 deactivates, the others save. -/
def deactivateAmongSavers (X : Site) {n : Nat} (E : Fin (n + 1) → Env) (i : Fin (n + 1)) :
    Code (Result Unit) :=
  if i = 0 then deactivate X (E i) else saveCache (E i)

/-- The store is bare from the return of a successful deactivation on, whatever the savers do. -/
theorem store_stays_bare (X : Site) {n : Nat} (E : Fin (n + 1) → Env)
    (hself : ∀ i, (E i).self = i) (w : World) (hlog : w.log = [])
    (htrial : w.client.cache.trialStart = none) (c : Pool World fun _ : Fin (n + 1) => Result Unit)
    (hrun : Pool.Run ClearsInOrder ⟨deactivateAmongSavers X E, w⟩ c)
    (hok : (c.threads 0).result = some (.ok ())) : BareStore c.shared.store := by
  have hstart : progress w.log = {} := by
    rw [hlog]
    rfl
  have hsound : Sound w := by
    refine ⟨htrial, fun h => ?_, fun h => ?_⟩
    · rw [hstart] at h
      cases h
    · rw [hstart] at h
      cases h
  have hsafe : ∀ i, Pool.SafeAt ClearsInOrder (fun i : Fin (n + 1) => Undisturbed i)
      (fun i r v => i = 0 → r = .ok () → Cleared v) ⟨deactivateAmongSavers X E, w⟩ i := by
    intro i
    have hothers : ∀ u v, Respects i u v → ∀ j : Fin (n + 1), j ≠ i → Undisturbed j u v :=
      fun u v h j hj => h j fun he => hj (Fin.ext he)
    by_cases hi : i = 0
    · subst hi
      have hahead : Ahead w := ⟨hsound, by rw [hstart]⟩
      exact (deactivate_safe hahead).mono hothers fun r v h _ => h
    · have hsave := saveCache_safe (hself i) hsound
      have hthread : deactivateAmongSavers X E i = saveCache (E i) := if_neg hi
      dsimp only [Pool.SafeAt]
      rw [hthread]
      exact hsave.mono hothers fun _ _ _ h => absurd h hi
  have hcleared := Pool.returned (R := fun i : Fin (n + 1) => Undisturbed i)
    (fun i => Undisturbed.refl i) (fun i => Undisturbed.trans i) hrun hsafe hok rfl rfl
  exact (hcleared.1.cleared hcleared.2).2.2

/-- A licensed installation that holds a seat. -/
def seatedWorld : World :=
  { client := { cache := { vectorCache with instanceId := some (ascii "inst-1") } } }

/-- The server releases the seat. -/
def releasingEnv (self : Nat) : Env where
  self := self
  now _ := 1781076300
  request _ := .ok ⟨200, ascii "{}", []⟩

def releasing (i : Fin 2) : Env := releasingEnv i

/-- A save that is written after the deactivation is over, with its snapshot taken after the
deactivation's first `k` sections. -/
def lateSave (k : Nat) : List (Fin 2) :=
  List.replicate k 0 ++ [1, 1] ++ List.replicate (17 - k) 0 ++ [1, 1]

def endOf (C : World → World → Prop) [∀ w v, Decidable (C w v)] (is : List (Fin 2)) :
    Option (Pool World fun _ : Fin 2 => Result Unit) :=
  Pool.schedule C is ⟨deactivateAmongSavers vectorSite releasing, seatedWorld⟩

/-- With the snapshot taken at the start, the licence is back in the store at the end. -/
theorem lateSave_end : (endOf (fun _ _ => True) (lateSave 0)).map (fun c =>
    ((c.threads 0).result, (c.threads 1).result, storedKey c.shared.store)) =
      some (some (.ok ()), some (.ok ()), some (ascii "KEY1")) := by decide +kernel

/-- A save in flight puts the old licence back into the cleared store. -/
theorem store_resurrected : ¬∀ (X : Site) (n : Nat) (E : Fin (n + 1) → Env) (w : World)
    (c : Pool World fun _ : Fin (n + 1) => Result Unit), (∀ i, (E i).self = i) → w.log = [] →
      w.client.cache.trialStart = none →
      Pool.Run (fun _ _ => True) ⟨deactivateAmongSavers X E, w⟩ c →
      (∀ i, (c.threads i).result.isSome = true) → (c.threads 0).result = some (.ok ()) →
      BareStore c.shared.store := by
  intro h
  have hend := lateSave_end
  cases hc : endOf (fun _ _ => True) (lateSave 0) with
  | none =>
    rw [hc] at hend
    cases hend
  | some c =>
    rw [hc] at hend
    simp only [Option.map_some, Option.some.injEq, Prod.mk.injEq] at hend
    obtain ⟨h0, h1, hkey⟩ := hend
    have hall : ∀ i, (c.threads i).result.isSome = true := by
      intro i
      match i with
      | 0 => exact Option.isSome_of_eq_some h0
      | 1 => exact Option.isSome_of_eq_some h1
    have hbare := h vectorSite 1 releasing seatedWorld c (fun _ => rfl) rfl rfl
      (Pool.schedule_run hc) hall h0
    rw [hbare.key] at hkey
    cases hkey

/-- With the snapshot taken after the reset, what lands after the clear is bare. -/
theorem store_stays_bare_late : ∃ c, endOf ClearsInOrder (lateSave 5) = some c ∧
    BareStore c.shared.store := by
  have hend : ((endOf ClearsInOrder (lateSave 5)).map fun c => (c.threads 0).result) =
      some (some (.ok ())) := by decide +kernel
  cases hc : endOf ClearsInOrder (lateSave 5) with
  | none =>
    rw [hc] at hend
    cases hend
  | some c =>
    rw [hc] at hend
    refine ⟨c, rfl, ?_⟩
    exact store_stays_bare vectorSite releasing (fun _ => rfl) seatedWorld rfl rfl c
      (Pool.schedule_run hc) (Option.some.inj hend)

end Keylight
