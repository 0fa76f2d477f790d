import Keylight.InFlight
import Keylight.TrialClock

/-!
# Clients that share a store

Any number of clients over one store, each with a cache of its own that it filled
once, when it was constructed. A save rewrites the whole blob from that cache, so
what another client has stored since survives only while the saving client's own
cache covers it. Any number of threads run the clients' operations, one section
at a time.
-/
namespace Keylight
open Bytes Sections Client

variable {κ : Type}

/-- The clients of one process over one store. The `store` of a single world plays no part. -/
structure Host (κ : Type) where
  worlds : κ → World
  store : Bytes
  /-- what has happened, and on whose part -/
  history : List (κ × Event) := []

/-- The blob `b` has what the store `s` has, but for a lease or a key that may be missing. -/
structure Covers (lease key : Bool) (b s : Bytes) : Prop where
  trial : storedTrial s = none ∨ storedTrial b = storedTrial s
  lease : (storedLease s).isSome = true → (storedLease b).isSome = true ∨ lease = true
  key : (storedKey s).isSome = true → (storedKey b).isSome = true ∨ key = true

instance (lease key : Bool) (b s : Bytes) : Decidable (Covers lease key b s) :=
  decidable_of_iff (_ ∧ _ ∧ _) ⟨fun h => ⟨h.1, h.2.1, h.2.2⟩, fun h => ⟨h.trial, h.lease, h.key⟩⟩

/-- Events that drop the cached or the stored lease: a deactivation and a definitive rejection,
the one caller of `clear_lease_`. -/
def Event.dropsLease : Event → Bool
  | .leaseDropped => true
  | .paidReset => true
  | _ => false

def Event.dropsKey : Event → Bool
  | .paidReset => true
  | _ => false

/-- What a history says about each client. -/
structure Ledger (κ : Type) where
  /-- the last client to have written the store -/
  writer : Option κ := none
  /-- another client has written the store since the client's last snapshot -/
  overtaken : κ → Bool := fun _ => false
  /-- the client has dropped its lease since another client last wrote the store -/
  lease : κ → Bool := fun _ => false
  /-- the same for its licence key -/
  key : κ → Bool := fun _ => false

section
variable [DecidableEq κ]

/-- Client `k` has written the store. -/
def Ledger.wrote (l : Ledger κ) (k : κ) : Ledger κ where
  writer := some k
  overtaken j := j ≠ k || l.overtaken j
  lease j := j = k && l.lease j
  key j := j = k && l.key j

/-- Client `k` has dropped its lease, its key or both. -/
def Ledger.drop (l : Ledger κ) (k : κ) (lease key : Bool) : Ledger κ :=
  { l with
    lease := fun j => j = k && lease || l.lease j
    key := fun j => j = k && key || l.key j }

/-- A clear is a deactivation's. -/
def Ledger.next (l : Ledger κ) : κ × Event → Ledger κ
  | (k, .snapshot) => { l with overtaken := fun j => j ≠ k && l.overtaken j }
  | (k, .saved _ (.ok _)) => l.wrote k
  | (k, .cleared (.ok _)) => (l.wrote k).drop k true true
  | (k, e) => l.drop k e.dropsLease e.dropsKey

def Host.ledger (h : Host κ) : Ledger κ := h.history.foldl Ledger.next {}

namespace Host

/-- What client `k` sees. -/
def view (h : Host κ) (k : κ) : World := { h.worlds k with store := h.store }

/-- A section of client `k` that leaves it at `v`. -/
def act (k : κ) (h : Host κ) (v : World) : Host κ where
  worlds := Function.update h.worlds k v
  store := v.store
  history := h.history ++ (recorded (h.view k) v).map (k, ·)

/-- What client `k` would save now. -/
def blob (h : Host κ) (k : κ) : Bytes := buildBlob (h.worlds k).client.cache

/-- The condition on one event. A client that takes a snapshot, and was not the last to write the
store, has what the store has; nobody else writes the store between its snapshot and its save. -/
def Permits (h : Host κ) : κ × Event → Prop
  | (k, .snapshot) => h.ledger.writer ≠ some k →
      Covers (h.ledger.lease k) (h.ledger.key k) (h.blob k) h.store
  | (k, .saved _ (.ok _)) => h.ledger.overtaken k = false
  | (_, .cleared (.ok _)) => storedTrial h.store = none
  | (_, .keyCached key) => key ≠ []
  | _ => True

instance (h : Host κ) : DecidablePred h.Permits := fun x => by
  unfold Permits
  split <;> infer_instance

/-- The condition on one section. -/
def UpToDate (h h' : Host κ) : Prop := ∀ x ∈ h'.history.drop h.history.length, h.Permits x

instance (h h' : Host κ) : Decidable (UpToDate h h') := inferInstanceAs (Decidable (∀ x ∈ _, _))

end Host

namespace Covers
variable {lease key lease' key' : Bool} {a b s : Bytes}

theorem refl (b : Bytes) : Covers lease key b b := ⟨.inr rfl, fun h => .inl h, fun h => .inl h⟩

theorem mono (h : Covers lease key b s) (hlease : lease = true → lease' = true)
    (hkey : key = true → key' = true) : Covers lease' key' b s :=
  ⟨h.trial, fun hs => (h.lease hs).imp_right hlease, fun hs => (h.key hs).imp_right hkey⟩

/-- Covering is transitive. -/
theorem trans (h₁ : Covers lease key a b) (h₂ : Covers lease key b s) :
    Covers lease key a s := by
  constructor
  · obtain hs | hs := h₂.trial
    · exact .inl hs
    · obtain hb | hb := h₁.trial
      · exact .inl (hs.symm.trans hb)
      · exact .inr (hb.trans hs)
  · intro hs
    obtain hb | hb := h₂.lease hs
    · exact h₁.lease hb
    · exact .inr hb
  · intro hs
    obtain hb | hb := h₂.key hs
    · exact h₁.key hb
    · exact .inr hb

/-- Nothing is missing from an empty store. -/
theorem empty (b : Bytes) : Covers lease key b [] := by
  refine ⟨.inl rfl, fun h => ?_, fun h => ?_⟩
  · cases h
  · cases h

theorem storedLease_congr {c d : Cache} (h : c.lease = d.lease) :
    storedLease (buildBlob c) = storedLease (buildBlob d) := by
  have hc : (ascii "lease", c.lease.map writtenLease) ∈ blobFields c := .head _
  have hd : (ascii "lease", d.lease.map writtenLease) ∈ blobFields d := .head _
  rw [storedLease, storedLease, decodeStore_buildBlob, decodeStore_buildBlob]
  simp only [Option.bind_some, leaseOf, blobValue, get_fields _ (blobFields_nodup c) hc,
    get_fields _ (blobFields_nodup d) hd, h]

/-- The blob of one cache covers that of another when it has the stamp, the lease and the key. -/
theorem blob {c d : Cache} (htrial : d.trialStart = none ∨ c.trialStart = d.trialStart)
    (hlease : c.lease = d.lease ∨ (storedLease (buildBlob c)).isSome = true ∨ lease = true)
    (hkey : c.licenseKey = d.licenseKey ∨ (storedKey (buildBlob c)).isSome = true ∨ key = true) :
    Covers lease key (buildBlob c) (buildBlob d) := by
  constructor
  · rw [storedTrial_buildBlob, storedTrial_buildBlob]
    obtain hd | hd := htrial
    · rw [hd]
      exact .inl rfl
    · rw [hd]
      exact .inr rfl
  · intro hs
    obtain hl | hl := hlease
    · rw [storedLease_congr hl]
      exact .inl hs
    · exact hl
  · intro hs
    obtain hk | hk := hkey
    · rw [storedKey_buildBlob, hk, ← storedKey_buildBlob d]
      exact .inl hs
    · exact hk

end Covers

namespace Ledger

theorem drop_nothing (l : Ledger κ) (k : κ) : l.drop k false false = l := by
  simp only [drop, Bool.and_false, Bool.false_or]

theorem drop_drop (l : Ledger κ) (k : κ) (a b c d : Bool) :
    (l.drop k a b).drop k c d = l.drop k (a || c) (b || d) := by
  unfold drop
  congr 1
  · funext j
    cases a <;> cases c <;> simp
  · funext j
    cases b <;> cases d <;> simp

theorem next_failed (l : Ledger κ) (k : κ) (b : Bytes) (e : Error) :
    l.next (k, .saved b (.error e)) = l := l.drop_nothing k

end Ledger

/-- Events that are no part of a save and do not touch the store. -/
def Event.isPlain : Event → Bool
  | .snapshot => false
  | .saved _ _ => false
  | .cleared r => !isOk r
  | _ => true

theorem Ledger.next_plain (l : Ledger κ) (k : κ) {e : Event} (he : e.isPlain = true) :
    l.next (k, e) = l.drop k e.dropsLease e.dropsKey := by
  cases e with
  | cleared r =>
    cases r with
    | ok _ => cases he
    | error _ => rfl
  | snapshot => cases he
  | saved _ _ => cases he
  | _ => rfl

theorem Ledger.foldl_plain (l : Ledger κ) (k : κ) {es : List Event}
    (h : ∀ e ∈ es, e.isPlain = true) : (es.map (k, ·)).foldl Ledger.next l =
      l.drop k (es.any Event.dropsLease) (es.any Event.dropsKey) := by
  induction es generalizing l with
  | nil => exact (l.drop_nothing k).symm
  | cons e es ih =>
    rw [List.map_cons, List.foldl_cons, l.next_plain k (h e (.head es)),
      ih _ fun e he => h e (.tail _ he), drop_drop]
    rfl

namespace Host

@[simp] theorem act_same (k : κ) (h : Host κ) (v : World) : (h.act k v).worlds k = v :=
  Function.update_self ..

@[simp] theorem act_other {j k : κ} (hj : j ≠ k) (h : Host κ) (v : World) :
    (h.act k v).worlds j = h.worlds j := Function.update_of_ne hj ..

theorem act_ledger (k : κ) (h : Host κ) {v : World} {s : List Event}
    (hlog : v.log = (h.view k).log ++ s) :
    (h.act k v).ledger = (s.map (k, ·)).foldl Ledger.next h.ledger := by
  rw [ledger, act, recorded_append hlog, List.foldl_append]
  rfl

theorem UpToDate.permits {k : κ} {h : Host κ} {v : World} {s : List Event}
    (hC : UpToDate h (h.act k v)) (hlog : v.log = (h.view k).log ++ s) :
    ∀ e ∈ s, h.Permits (k, e) := by
  intro e he
  apply hC
  rw [act, recorded_append hlog, List.drop_left]
  exact List.mem_map_of_mem he

/-- What client `k` alone does to the host is what it does to its own world. -/
theorem focus_run {k : κ} {p : Code α} (hp : Growing p) (h : Host κ) :
    ((p.focus (fun h => h.view k) (act k)).run h).1 = (p.run (h.view k)).1 ∧
      ((p.focus (fun h => h.view k) (act k)).run h).2.view k = (p.run (h.view k)).2 ∧
      ((p.focus (fun h => h.view k) (act k)).run h).2.history =
        h.history ++ (recorded (h.view k) (p.run (h.view k)).2).map (k, ·) := by
  induction p generalizing h with
  | done a => simp [Prog.focus, Prog.run, recorded]
  | step g f r ih =>
    obtain ⟨hgrows, hr⟩ := hp (h.view k)
    have hview : (h.act k (f (h.view k))).view k = f (h.view k) := by
      rw [view, act_same]
      rfl
    obtain ⟨hresult, hworld, hhistory⟩ := ih (h.view k) hr (h.act k (f (h.view k)))
    rw [hview] at hresult hworld hhistory
    refine ⟨hresult, hworld, hhistory.trans ?_⟩
    obtain ⟨s, hs⟩ := hgrows
    obtain ⟨t, ht⟩ := Growing.run hr (f (h.view k))
    rw [act, recorded_append hs.symm, recorded_append ht.symm, Prog.run,
      recorded_append (ht.symm.trans (by rw [← hs, List.append_assoc]))]
    simp only [List.map_append, List.append_assoc]

/-- The last client to write the store has what the store has. -/
def Current (h : Host κ) : Prop := ∀ k, h.ledger.writer = some k →
  Covers (h.ledger.lease k) (h.ledger.key k) (h.blob k) h.store

/-- The blob of the save in flight, unless it was overtaken: the cache still has what it has, and
it has what the store has. -/
def Flies (k : κ) (b : Bytes) (h : Host κ) : Prop := h.ledger.overtaken k = false →
  Covers (h.ledger.lease k) (h.ledger.key k) (h.blob k) b ∧
    Covers (h.ledger.lease k) (h.ledger.key k) b h.store

/-- Thread `n` of client `k` holds the client's save mutex. -/
def Holds (k : κ) (n : Nat) (h : Host κ) : Prop := (h.worlds k).saveOwner = some n

/-- What thread `n` of client `k` finds unchanged after a section of another thread. -/
structure Kept (k : κ) (n : Nat) (h h' : Host κ) : Prop where
  current : Current h'
  owner : Holds k n h → Holds k n h' ∧ ∀ b, Flies k b h → Flies k b h'

def Undisturbed (k : κ) (n : Nat) (h h' : Host κ) : Prop := Current h → Kept k n h h'

theorem Undisturbed.refl (k : κ) (n : Nat) (h : Host κ) : Undisturbed k n h h :=
  fun hh => ⟨hh, fun ho => ⟨ho, fun _ hb => hb⟩⟩

theorem Undisturbed.trans (k : κ) (n : Nat) (h₁ h₂ h₃ : Host κ) (h : Undisturbed k n h₁ h₂)
    (h' : Undisturbed k n h₂ h₃) : Undisturbed k n h₁ h₃ := by
  intro h₁
  have hk := h h₁
  have hk' := h' hk.current
  refine ⟨hk'.current, fun ho => ?_⟩
  obtain ⟨ho', hb⟩ := hk.owner ho
  obtain ⟨ho', hb'⟩ := hk'.owner ho'
  exact ⟨ho', fun b h => hb' b (hb b h)⟩

/-- What client `k` does to the store in one section. -/
def Promises (k : κ) (h h' : Host κ) : Prop :=
  Covers (h'.ledger.lease k) (h'.ledger.key k) h'.store h.store

/-- The sections of thread `n` of client `k` respect every other thread. -/
def Respects (k : κ) (n : Nat) (h h' : Host κ) : Prop :=
  (∀ (j : κ) (other : Nat), (j, other) ≠ (k, n) → Undisturbed j other h h') ∧ Promises k h h'

/-- A save with nothing in between takes nothing from the store exactly when its client's cache
covers it: the condition on a snapshot leaves out no save that would have been harmless. -/
theorem save_promises {k : κ} {E : Env} {h : Host κ}
    (hE : E.save (h.worlds k).ticks.save = none) :
    Promises k h (((saveCache E).focus (fun h => h.view k) (act k)).run h).2 ↔
      Covers (h.ledger.lease k) (h.ledger.key k) (h.blob k) h.store := by
  have hgrows : Growing (saveCache E) := sectional_grows.saveCache
  obtain ⟨-, hview, hhistory⟩ := focus_run (k := k) hgrows h
  rw [saveCache_run] at hview hhistory
  have hsave : outcome (E.save (h.view k).ticks.save) = .ok () := congrArg outcome hE
  simp only [hsave] at hview hhistory
  generalize (((saveCache E).focus (fun h => h.view k) (act k)).run h).2 = h' at hview hhistory ⊢
  have hstore : h'.store = h.blob k := by
    refine (congrArg World.store hview).trans ?_
    exact if_pos (congrArg Option.isNone hE)
  rw [recorded_append (List.append_assoc ..)] at hhistory
  have hledger : h'.ledger = (h.ledger.next (k, .snapshot)).wrote k := by
    rw [ledger, hhistory, List.foldl_append]
    rfl
  rw [Promises, hstore, hledger]
  simp [Ledger.wrote, Ledger.next]

/-- Such a section loses nothing of what any client has, and thread `n` of client `k` keeps
the save mutex. -/
structure Calm (k : κ) (n : Nat) (h h' : Host κ) : Prop where
  store : h'.store = h.store
  writer : h'.ledger.writer = h.ledger.writer
  overtaken : h'.ledger.overtaken k = false → h.ledger.overtaken k = false
  lease : ∀ j, h.ledger.lease j = true → h'.ledger.lease j = true
  key : ∀ j, h.ledger.key j = true → h'.ledger.key j = true
  blob : ∀ j, Covers (h'.ledger.lease j) (h'.ledger.key j) (h'.blob j) (h.blob j)
  owner : Holds k n h → Holds k n h'

theorem Calm.current {k : κ} {n : Nat} {h h' : Host κ} (hcalm : Calm k n h h')
    (hh : Current h) : Current h' := by
  intro j hj
  rw [hcalm.writer] at hj
  rw [hcalm.store]
  exact (hcalm.blob j).trans ((hh j hj).mono (hcalm.lease j) (hcalm.key j))

theorem Calm.undisturbed {k : κ} {n : Nat} {h h' : Host κ} (hcalm : Calm k n h h') :
    Undisturbed k n h h' := by
  intro hh
  refine ⟨hcalm.current hh, fun ho => ⟨hcalm.owner ho, fun b hb hover => ?_⟩⟩
  obtain ⟨hcache, hstore⟩ := hb (hcalm.overtaken hover)
  rw [hcalm.store]
  exact ⟨(hcalm.blob k).trans (hcache.mono (hcalm.lease k) (hcalm.key k)),
    hstore.mono (hcalm.lease k) (hcalm.key k)⟩

theorem promises_same {k : κ} {h h' : Host κ} (hstore : h'.store = h.store) :
    Promises k h h' := by
  rw [Promises, hstore]
  exact .refl _

/-- A section of one client on its own world, its store and its save mutex apart. -/
structure Eases (w v : World) : Prop where
  store : v.store = w.store
  owner : v.saveOwner = w.saveOwner
  log : ∃ es, v.log = w.log ++ es ∧ (∀ e ∈ es, e.isPlain = true) ∧
    Covers (es.any Event.dropsLease) (es.any Event.dropsKey) (buildBlob v.client.cache)
      (buildBlob w.client.cache)

/-- Such a section on one client loses nothing of any. -/
theorem Eases.calm {j k : κ} {n : Nat} {h : Host κ} {v : World} (hv : Eases (h.view k) v) :
    Calm j n h (h.act k v) := by
  obtain ⟨es, hlog, hplain, hcovers⟩ := hv.log
  have hledger := act_ledger k h hlog
  rw [Ledger.foldl_plain _ k hplain] at hledger
  have hlease : ∀ i, h.ledger.lease i = true → (h.act k v).ledger.lease i = true := by
    intro i hi
    simp only [hledger, Ledger.drop, hi, Bool.or_true]
  have hkey : ∀ i, h.ledger.key i = true → (h.act k v).ledger.key i = true := by
    intro i hi
    simp only [hledger, Ledger.drop, hi, Bool.or_true]
  refine ⟨hv.store, by rw [hledger]; rfl, ?_, hlease, hkey, fun i => ?_, fun ho => ?_⟩
  · rw [hledger]
    exact id
  · by_cases hi : i = k
    · subst hi
      rw [blob, act_same]
      refine hcovers.mono (fun hl => ?_) fun hk => ?_
      · simp [hledger, Ledger.drop, hl]
      · simp [hledger, Ledger.drop, hk]
    · rw [blob, blob, act_other hi]
      exact .refl _
  · by_cases hj : j = k
    · subst hj
      rw [Holds, act_same, hv.owner]
      exact ho
    · rw [Holds, act_other hj]
      exact ho

theorem Eases.respects {k : κ} {n : Nat} {h : Host κ} {v : World} (hv : Eases (h.view k) v) :
    Respects k n h (h.act k v) :=
  ⟨fun _ _ _ => hv.calm.undisturbed, promises_same hv.store⟩

/-- A section of thread `n` of client `k` that takes, holds or gives up the save mutex and writes
neither the cache nor the store. -/
structure Guarded (k : κ) (n : Nat) (h h' : Host κ) : Prop where
  store : h'.store = h.store
  others : ∀ j, j ≠ k → h'.worlds j = h.worlds j
  cache : (h'.worlds k).client.cache = (h.worlds k).client.cache
  owner : ∀ m, Holds k m h → m = n
  ledger : ∃ o, h'.ledger = { h.ledger with overtaken := o } ∧
    ∀ j, j ≠ k → o j = h.ledger.overtaken j

theorem Guarded.blob {k : κ} {n : Nat} {h h' : Host κ} (hg : Guarded k n h h') (j : κ) :
    h'.blob j = h.blob j := by
  by_cases hj : j = k
  · rw [hj, Host.blob, hg.cache]
    rfl
  · rw [Host.blob, hg.others j hj]
    rfl

theorem Guarded.current {k : κ} {n : Nat} {h h' : Host κ} (hg : Guarded k n h h')
    (hh : Current h) : Current h' := by
  obtain ⟨o, hledger, -⟩ := hg.ledger
  intro j hj
  rw [hledger] at hj
  rw [hledger, hg.blob, hg.store]
  exact hh j hj

/-- Another thread of the client does not hold the mutex, and another client sees no change. -/
theorem Guarded.respects {k : κ} {n : Nat} {h h' : Host κ} (hg : Guarded k n h h') :
    Respects k n h h' := by
  refine ⟨fun j m hne hh => ⟨hg.current hh, fun ho => ?_⟩, promises_same hg.store⟩
  have hj : j ≠ k := by
    rintro rfl
    exact hne (congrArg _ (hg.owner m ho))
  obtain ⟨o, hledger, hover⟩ := hg.ledger
  constructor
  · rw [Holds, hg.others j hj]
    exact ho
  · intro b hb
    rw [Flies, hledger, hg.blob, hg.store]
    intro ho
    exact hb ((hover j hj).symm.trans ho)

theorem guarded_act {k : κ} {n : Nat} {h : Host κ} {v : World} (ho : ∀ m, Holds k m h → m = n)
    (hstore : v.store = h.store) (hcache : v.client.cache = (h.worlds k).client.cache)
    {s : List Event} (hlog : v.log = (h.worlds k).log ++ s)
    (hs : ∀ e ∈ s, e = .snapshot ∨ ∃ b r, e = .saved b (.error r)) :
    Guarded k n h (h.act k v) := by
  refine ⟨hstore, fun j hj => act_other hj h v, ?_, ho, ?_⟩
  · rw [act_same]
    exact hcache
  · rw [act_ledger k h hlog]
    generalize h.ledger = l
    clear hlog
    induction s generalizing l with
    | nil => exact ⟨l.overtaken, rfl, fun _ _ => rfl⟩
    | cons e s ih =>
      rw [List.map_cons, List.foldl_cons]
      obtain ⟨o, ho, hj⟩ := ih (fun e he => hs e (.tail _ he)) (l.next (k, e))
      rw [ho]
      obtain rfl | ⟨b, r, rfl⟩ := hs e (.head s)
      · refine ⟨o, rfl, fun j hne => ?_⟩
        simp [hj j hne, Ledger.next, hne]
      · rw [l.next_failed] at hj ⊢
        exact ⟨o, rfl, hj⟩

/-- From every current host, whatever the other threads do, the sections of `p` respect them. -/
def Steady (k : κ) (n : Nat) (p : Code α) : Prop := ∀ h, Current h →
  Safe UpToDate (Undisturbed k n) (Respects k n) (fun _ => Current)
    (p.focus (fun h => h.view k) (act k)) h

section
variable {k : κ} {n : Nat}

theorem stable_current : Stable (Undisturbed k n) Current := fun _ _ hs h => (h hs).current

theorem stable_holding : Stable (Undisturbed k n) fun h => Current h ∧ Holds k n h :=
  fun _ _ hs h => ⟨(h hs.1).current, ((h hs.1).owner hs.2).1⟩

theorem stable_flying (b : Bytes) :
    Stable (Undisturbed k n) fun h => Current h ∧ Holds k n h ∧ Flies k b h := by
  intro s t hs h
  obtain ⟨howner, hb⟩ := (h hs.1).owner hs.2.1
  exact ⟨(h hs.1).current, howner, hb b hs.2.2⟩

theorem Steady.bind {p : Code α} {q : α → Code β} (hp : Steady k n p)
    (hq : ∀ a, Steady k n (q a)) : Steady k n (p >>= q) := by
  intro h hh
  rw [Prog.focus_bind]
  exact .bind (Undisturbed.refl k n) (hp h hh) fun a u hu => hq a u hu

theorem Steady.of_each {p : Code α} (hp : Each Eases (fun _ => True) p) : Steady k n p := by
  intro h hh
  refine (Safe.of_each hp.focus stable_current ?_ hh).mono (fun _ _ h => h) fun _ _ h => h.2
  rintro t _ ht ⟨v, rfl, hv⟩ -
  exact ⟨hv.respects, (hv.calm (j := k) (n := n)).current ht⟩

theorem idle_eases {w v : World} (h : Idle w v) : Eases w v := by
  obtain ⟨es, hlog, hobserved⟩ := h.log
  refine ⟨h.store, h.saveOwner, es, hlog, fun e he => ?_, ?_⟩
  · have hobs := hobserved e he
    cases e <;> first | rfl | cases hobs
  · rw [show v.client.cache = w.client.cache from congrArg Core.cache h.core]
    exact .refl _

theorem Steady.quiet {p : Code α} (hp : Quiet p) : Steady k n p := .of_each (hp.each idle_eases)

theorem Steady.pure (a : α) : Steady k n (Pure.pure a : Code α) := .quiet (.pure a)

/-- The blob of a snapshot has what the store has: the client was the last to write it, or has
caught up. -/
theorem snapshot_flies {h : Host κ} (hh : Current h) (hC : UpToDate h (h.act k
      { h.view k with log := (h.view k).log ++ [.snapshot] })) :
    Flies k (h.blob k) (h.act k { h.view k with log := (h.view k).log ++ [.snapshot] }) := by
  have hledger : (h.act k { h.view k with log := (h.view k).log ++ [.snapshot] }).ledger =
      h.ledger.next (k, .snapshot) := act_ledger k h (s := [.snapshot]) rfl
  have hblob : (h.act k { h.view k with log := (h.view k).log ++ [.snapshot] }).blob k =
      h.blob k := by
    rw [blob, act_same]
    rfl
  intro _
  rw [hledger, hblob]
  refine ⟨.refl _, ?_⟩
  by_cases hw : h.ledger.writer = some k
  · exact hh k hw
  · exact hC.permits (s := [.snapshot]) rfl .snapshot (.head _) hw

/-- The write of the save: what it takes from the store its client has dropped. -/
theorem write_respects {h : Host κ} {v : World} {b : Bytes} {r : Result Unit} (hh : Current h)
    (ho : Holds k n h) (hb : Flies k b h) (hC : UpToDate h (h.act k v))
    (hcache : v.client.cache = (h.worlds k).client.cache)
    (hstore : v.store = if isOk r then b else h.store)
    (hlog : v.log = (h.worlds k).log ++ [.saved b r]) :
    Respects k n h (h.act k v) ∧ Current (h.act k v) := by
  have howner : ∀ m, Holds k m h → m = n := fun m hm => Option.some.inj (hm.symm.trans ho)
  cases r with
  | error e =>
    have hguarded : Guarded k n h (h.act k v) :=
      guarded_act (s := [.saved b (.error e)]) howner hstore hcache hlog (by simp)
    exact ⟨hguarded.respects, hguarded.current hh⟩
  | ok u =>
    have hledger : (h.act k v).ledger = h.ledger.wrote k := act_ledger k h hlog
    obtain ⟨hblob, hcovers⟩ := hb (hC.permits hlog _ (.head _))
    have hsame : (h.act k v).blob k = h.blob k := by
      rw [blob, act_same, hcache]
      rfl
    have hcurrent : Current (h.act k v) := by
      intro j hj
      rw [hledger] at hj
      obtain rfl : k = j := Option.some.inj hj
      rw [hledger, hsame, show (h.act k v).store = b from hstore]
      simpa [Ledger.wrote] using hblob
    refine ⟨⟨fun j m hne _ => ⟨hcurrent, fun hj => ?_⟩, ?_⟩, hcurrent⟩
    · have hother : j ≠ k := by
        rintro rfl
        exact hne (congrArg _ (howner m hj))
      constructor
      · rw [Holds, act_other hother]
        exact hj
      · intro b _ hover
        rw [hledger] at hover
        simp [Ledger.wrote, hother] at hover
    · rw [Promises, hledger, show (h.act k v).store = b from hstore]
      simpa [Ledger.wrote] using hcovers

/-- A save is steady code. -/
theorem Steady.saveCache {E : Env} (hself : E.self = n) : Steady k n (Client.saveCache E) := by
  intro h hh
  simp only [Client.saveCache, storeSave, Prog.focus_bind, Prog.focus_atom]
  have refl := Undisturbed.refl k n
  refine .bind refl (.await (g := fun h => (h.view k).saveOwner.isNone) stable_current hh
    stable_holding fun t ht hg _ => ?_) fun _ u hu => ?_
  · have hguarded : Guarded k n t (t.act k { t.view k with saveOwner := some E.self }) := by
      refine guarded_act (s := []) (fun m ho => ?_) rfl rfl (List.append_nil _).symm (by simp)
      rw [show (t.view k).saveOwner = some m from ho] at hg
      cases hg
    refine ⟨hguarded.respects, hguarded.current ht, ?_⟩
    rw [← hself]
    exact congrArg World.saveOwner (act_same k t _)
  have howner : ∀ {t : Host κ}, Holds k n t → ∀ m, Holds k m t → m = n := by
    intro t ht m hm
    exact Option.some.inj (hm.symm.trans ht)
  refine .bind refl (.atom stable_holding hu stable_flying fun t ht hC => ?_) fun b u hu => ?_
  · have hguarded : Guarded k n t
        (t.act k { t.view k with log := (t.view k).log ++ [.snapshot] }) :=
      guarded_act (s := [.snapshot]) (howner ht.2) rfl rfl rfl (by simp)
    refine ⟨hguarded.respects, hguarded.current ht.1, ?_, snapshot_flies ht.1 hC⟩
    exact (congrArg World.saveOwner (act_same k t _)).trans ht.2
  refine .bind refl (.atom (Q := fun _ h => Current h ∧ Holds k n h) (stable_flying b) hu
    (fun _ => stable_holding) fun t ht hC => ?_) fun r u hu => ?_
  · obtain ⟨hrespects, hcurrent⟩ := write_respects ht.1 ht.2.1 ht.2.2 hC rfl rfl rfl
    exact ⟨hrespects, hcurrent, (congrArg World.saveOwner (act_same k t _)).trans ht.2.1⟩
  refine .bind refl (.modify stable_holding hu stable_current fun t ht _ => ?_) fun _ u hu => ?_
  · have hguarded : Guarded k n t (t.act k { t.view k with saveOwner := none }) :=
      guarded_act (s := []) (howner ht.2) rfl rfl (List.append_nil _).symm (by simp)
    exact ⟨hguarded.respects, hguarded.current ht.1⟩
  exact .pure stable_current hu fun _ h => h

/-- A clear takes no stamp, and its client has dropped the rest. -/
theorem clear_respects {h : Host κ} {v : World} {r : Result Unit} (hh : Current h)
    (hC : UpToDate h (h.act k v)) (hcache : v.client.cache = (h.worlds k).client.cache)
    (howner : v.saveOwner = (h.worlds k).saveOwner)
    (hstore : v.store = if isOk r then [] else h.store)
    (hlog : v.log = (h.worlds k).log ++ [.cleared r]) :
    Respects k n h (h.act k v) ∧ Current (h.act k v) := by
  cases r with
  | error e =>
    have heases : Eases (h.view k) v := by
      refine ⟨hstore, howner, [.cleared (.error e)], hlog, by simp [Event.isPlain], ?_⟩
      rw [hcache]
      exact .refl _
    exact ⟨heases.respects, (heases.calm (j := k) (n := n)).current hh⟩
  | ok u =>
    have hledger : (h.act k v).ledger = (h.ledger.wrote k).drop k true true :=
      act_ledger k h hlog
    have hempty : (h.act k v).store = [] := hstore
    have hcurrent : Current (h.act k v) := by
      intro j _
      rw [hempty]
      exact .empty _
    refine ⟨⟨fun j m _ _ => ⟨hcurrent, fun hj => ⟨?_, fun b hb hover => ?_⟩⟩, ?_⟩, hcurrent⟩
    · by_cases hother : j = k
      · subst hother
        rw [Holds, act_same, howner]
        exact hj
      · rw [Holds, act_other hother]
        exact hj
    · rw [hledger] at hover
      obtain rfl : j = k := by
        by_contra hother
        simp [Ledger.wrote, Ledger.drop, hother] at hover
      obtain ⟨hblob, -⟩ := hb (by simpa [Ledger.wrote, Ledger.drop] using hover)
      have hsame : (h.act j v).blob j = h.blob j := by
        rw [blob, act_same, hcache]
        rfl
      rw [hsame, hempty]
      refine ⟨hblob.mono (fun _ => ?_) fun _ => ?_, .empty b⟩
      · simp [hledger, Ledger.drop]
      · simp [hledger, Ledger.drop]
    · have htrial : storedTrial h.store = none := hC.permits hlog _ (.head _)
      refine ⟨.inl htrial, fun _ => .inr ?_, fun _ => .inr ?_⟩
      · simp [hledger, Ledger.drop]
      · simp [hledger, Ledger.drop]

theorem Steady.storeClear (E : Env) : Steady k n (Keylight.storeClear E) := by
  intro h hh
  rw [Keylight.storeClear, Prog.focus_atom]
  refine .atom (Q := fun _ => Current) stable_current hh (fun _ => stable_current)
    fun t ht hC => ?_
  exact clear_respects ht hC rfl rfl rfl rfl

theorem Steady.write {f : World → World} (hf : ∀ w, Eases w (f w)) : Steady k n (.modify f) :=
  .of_each (Each.modify hf trivial)

/-- A write to the cache that keeps the stamp, the lease and the key. -/
theorem Steady.writeCache {f : Cache → Cache} (hf : ∀ c, (f c).trialStart = c.trialStart ∧
    (f c).lease = c.lease ∧ (f c).licenseKey = c.licenseKey) :
    Steady k n (Keylight.writeCache f []) := by
  refine .write fun w => ⟨rfl, rfl, [], rfl, by simp, ?_⟩
  obtain ⟨htrial, hlease, hkey⟩ := hf w.client.cache
  exact .blob (.inr htrial) (.inl hlease) (.inl hkey)

/-- What a persist adds takes nothing away, unless it is the empty key. -/
theorem eases_persist (d : PersistData) (w : World) (hkey : d.licenseKey ≠ some []) :
    Eases w { w with
      client.cache := d.merge w.client.cache
      log := w.log ++ d.events } := by
  refine ⟨rfl, rfl, d.events, rfl, ?_, .blob (.inr rfl) ?_ ?_⟩
  · intro e he
    obtain he | he := List.mem_append.mp he
    · obtain ⟨l, -, rfl⟩ := Option.map_eq_some_iff.mp (Option.mem_toList.mp he)
      rfl
    · obtain ⟨key, -, rfl⟩ := Option.map_eq_some_iff.mp (Option.mem_toList.mp he)
      rfl
  · cases hl : d.lease with
    | none => exact .inl (by simp [PersistData.merge, hl])
    | some l =>
      have hmerged : (d.merge w.client.cache).lease = some l := by simp [PersistData.merge, hl]
      rw [storedLease_buildBlob _ fun l' hl' => ?_, hmerged]
      · exact .inr (.inl rfl)
      · rw [hmerged] at hl'
        exact Option.some.inj hl' ▸ persistData_accepted hl
  · cases hk : d.licenseKey with
    | none => exact .inl (by simp [PersistData.merge, hk])
    | some key =>
      have hmerged : (d.merge w.client.cache).licenseKey = some key := by
        simp [PersistData.merge, hk]
      rw [storedKey_buildBlob, hmerged]
      cases key with
      | nil => exact absurd hk hkey
      | cons b key => exact .inr (.inl rfl)

/-- A persist of the empty key is not permitted. -/
theorem Steady.persist {E : Env} (hself : E.self = n) (d : PersistData) :
    Steady k n (Client.persist E d) := by
  refine .bind ?_ fun _ => .bind (.saveCache hself) fun _ => .pure _
  intro h hh
  refine .modify stable_current hh stable_current fun t ht hC => ?_
  have heases := eases_persist d (t.view k) fun hempty => ?_
  · exact ⟨heases.respects, (heases.calm (j := k) (n := n)).current ht⟩
  · refine hC.permits (s := d.events) rfl (.keyCached []) ?_ rfl
    simp [PersistData.events, hempty]

variable {X : Site} {E : Env}

theorem Steady.stamp : Steady k n (stampTrial E) := by
  refine .of_each (Each.atom fun w => ⟨?_, trivial⟩)
  cases hs : w.client.cache.trialStart with
  | some t => exact idle_eases (.refl w)
  | none =>
    exact ⟨rfl, rfl, [], (List.append_nil _).symm, by simp,
      .blob (.inl hs) (.inl rfl) (.inl rfl)⟩

/-- A section that keeps the stamp, the lease, the key, the store and the save mutex, and records
nothing. -/
theorem eases_same {w v : World} (hstore : v.store = w.store) (howner : v.saveOwner = w.saveOwner)
    (hlog : v.log = w.log) (htrial : v.client.cache.trialStart = w.client.cache.trialStart)
    (hlease : v.client.cache.lease = w.client.cache.lease)
    (hkey : v.client.cache.licenseKey = w.client.cache.licenseKey) : Eases w v :=
  ⟨hstore, howner, [], hlog.trans (List.append_nil _).symm, by simp,
    .blob (.inr htrial) (.inl hlease) (.inl hkey)⟩

theorem Steady.noteHardwareId (id : Bytes) : Steady k n (Client.noteHardwareId id) := by
  refine .of_each (Each.atom fun w => ⟨?_, trivial⟩)
  split
  · exact eases_same rfl rfl rfl rfl rfl rfl
  · exact eases_same rfl rfl rfl rfl rfl rfl

theorem Steady.mint : Steady k n (mintFreeTierInstanceId E) := by
  refine .of_each (Each.atom fun w => ⟨?_, trivial⟩)
  split
  · exact eases_same rfl rfl rfl rfl rfl rfl
  · exact eases_same rfl rfl rfl rfl rfl rfl

theorem Steady.setState (s : State) : Steady k n (Client.setState E s) := by
  refine .of_each (each_setState E s idle_eases fun w => ?_)
  exact ⟨rfl, rfl, [.stateStored s], rfl, by simp [Event.isPlain], .refl _⟩

/-- So are the primitive helpers, and with them every other. -/
theorem steady_primitives (hself : E.self = n) :
    Primitives E (fun _ => True) (fun _ {_} p => Steady k n p) where
  quiet := .quiet
  free := .bind
  seq := .bind
  after := .bind
  weaken := id
  widen := id
  writeCache := fun f hf => .writeCache fun c => ⟨(hf c).2.2.2, (hf c).1, (hf c).2.1⟩
  noteHardwareId := .noteHardwareId
  mint := .mint
  stamp := .stamp
  saveCache := .saveCache hself
  anchor := fun t => by
    refine .bind (.writeCache fun _ => ⟨rfl, rfl, rfl⟩) fun _ => ?_
    refine .bind (.write fun w => eases_same rfl rfl rfl rfl rfl rfl) fun _ => ?_
    exact .bind (.saveCache hself) fun _ => .pure _
  persist := fun d _ _ => .persist hself d
  clearLease := by
    refine .bind (.write fun w => ?_) fun _ => .bind (.saveCache hself) fun _ => .pure _
    exact ⟨rfl, rfl, [.leaseDropped], rfl, by simp [Event.isPlain],
      .blob (.inr rfl) (.inr (.inr rfl)) (.inl rfl)⟩
  setState := .setState

/-- The reset is on record as dropping the lease and the key. -/
theorem eases_reset (w : World) : Eases w (resetPaid.run w).2 := by
  rw [resetPaid, Prog.run_atom]
  exact ⟨rfl, rfl, [.paidReset], rfl, by simp [Event.isPlain],
    .blob (.inr rfl) (.inr (.inr rfl)) (.inr (.inr rfl))⟩

/-- So is a deactivation. -/
theorem Steady.deactivate (hself : E.self = n) : Steady k n (Client.deactivate X E) := by
  refine .bind (.quiet (quiet_readCache _)) fun instanceId => ?_
  refine .bind (.quiet (quiet_readCache _)) fun licenseKey => ?_
  refine .bind (.quiet (quiet_requestDeactivate X E _ _)) fun serverError => ?_
  refine .bind (.of_each (Each.atom fun w => ⟨eases_reset w, trivial⟩)) fun keepTrial => ?_
  have hstore : Steady k n (updateStore E keepTrial) := by
    cases keepTrial with
    | true => exact .saveCache hself
    | false => exact .storeClear E
  refine .bind hstore fun r => ?_
  cases r with
  | error e => exact .pure _
  | ok _ =>
    refine .bind (.quiet (quiet_resolveWithTrial X E _)) fun s => .bind (.setState s) fun _ => ?_
    cases serverError with
    | some e => exact .pure _
    | none => exact .pure _

theorem Steady.code (hself : E.self = n) {op : Op} (hlive : op ≠ .relaunch) :
    Steady k n (op.code X E) := by
  by_cases hdeactivate : op = .deactivate
  · subst hdeactivate
    exact .bind (.deactivate hself) fun _ => .pure ()
  · exact (steady_primitives hself).helpers.code (fun _ => trivial) (.persist hself)
      (fun _ _ _ _ _ _ => trivial) hlive hdeactivate

end

theorem stamp_stays {k : κ} {h h' : Host κ} (hp : Promises k h h') {t : Int64}
    (ht : storedTrial h.store = some t) : storedTrial h'.store = some t := by
  obtain hs | hs := Covers.trial hp
  · rw [hs] at ht
    cases ht
  · exact hs.trans ht

end Host

open Host

/-- Each thread runs one operation of one client. -/
def calls (X : κ → Site) {ι : Type} (client : ι → κ) (op : ι → Op) (E : ι → Env) (i : ι) :
    Prog (Host κ) Unit :=
  ((op i).code (X (client i)) (E i)).focus (fun h => h.view (client i)) (act (client i))

/-- While every section is up to date, a stored stamp stays, and a lease or a key is only taken
from the store by a client that has dropped its own. -/
theorem shared_store (X : κ → Site) {ι : Type} [DecidableEq ι] (client : ι → κ) (op : ι → Op)
    (E : ι → Env) (hself : ∀ i j, client i = client j → (E i).self = (E j).self → i = j)
    (hlive : ∀ i, op i ≠ .relaunch) (worlds : κ → World) (store : Bytes)
    {c : Pool (Host κ) fun _ : ι => Unit}
    (hrun : Pool.Run UpToDate ⟨calls X client op E, ⟨worlds, store, []⟩⟩ c) :
    (∀ c' t, Pool.Run UpToDate c c' → storedTrial c.shared.store = some t →
      storedTrial c'.shared.store = some t) ∧
    ∀ i c', c.advance i = some c' → UpToDate c.shared c'.shared →
      ((storedLease c.shared.store).isSome = true →
        (storedLease c'.shared.store).isSome = true ∨
          c'.shared.ledger.lease (client i) = true) ∧
      ((storedKey c.shared.store).isSome = true →
        (storedKey c'.shared.store).isSome = true ∨
          c'.shared.ledger.key (client i) = true) := by
  have hrefl : ∀ i h, Host.Undisturbed (client i) (E i).self h h := fun i => .refl _ _
  have htrans := fun i => Host.Undisturbed.trans (client i) (E i).self
  have hstart : ∀ i, Pool.GuardedAt UpToDate (fun i => Host.Undisturbed (client i) (E i).self)
      (fun i => Promises (client i)) (fun _ _ _ => True)
      ⟨calls X client op E, ⟨worlds, store, []⟩⟩ i := by
    intro i
    have hcode : Safe UpToDate _ _ _ (calls X client op E i) ⟨worlds, store, []⟩ :=
      Steady.code (n := (E i).self) rfl (hlive i) _ fun k hk => by cases hk
    refine hcode.mono (fun s t hg => ⟨fun j hj => hg.1 _ _ fun he => hj ?_, hg.2⟩)
      fun _ _ _ => trivial
    exact hself j i (congrArg Prod.fst he) (congrArg Prod.snd he)
  have hkeeps : ∀ {d d' : Pool (Host κ) fun _ : ι => Unit}, Pool.Run UpToDate d d' →
      (∀ i, Pool.GuardedAt UpToDate (fun i => Host.Undisturbed (client i) (E i).self)
        (fun i => Promises (client i)) (fun _ _ _ => True) d i) → _ :=
    Pool.guarded hrefl htrans (M := fun s t => ∀ x, storedTrial s.store = some x →
      storedTrial t.store = some x) (fun _ _ hx => hx) (fun _ _ _ h₁ h₂ x hx => h₂ x (h₁ x hx))
      fun _ _ _ hp _ hx => stamp_stays hp hx
  obtain ⟨-, hmid⟩ := hkeeps hrun hstart
  constructor
  · intro c' t hlater ht
    exact (hkeeps hlater hmid).1 t ht
  · intro i c' hi hC
    obtain ⟨hp, -⟩ := Pool.guarded_advance hrefl htrans hi hC hmid
    exact ⟨Covers.lease hp, Covers.key hp⟩

end

open Host

/-- Clients just constructed over one store. -/
def opened (X : κ → Site) (E : κ → Env) (store : Bytes) : Host κ where
  worlds k := Op.relaunch.exec (X k) (E k) { store := store }
  store := store

/-- Two instances of one product on one store. -/
inductive Plugin where
  | first
  | second
  deriving DecidableEq

def Plugin.self : Plugin → Nat
  | .first => 0
  | .second => 1

/-- Two clients, and the operations of one thread of each. -/
def pair (op : Plugin → Op) (E : Plugin → Env) (store : Bytes) :
    Pool (Host Plugin) fun _ : Plugin => Unit :=
  ⟨calls (fun _ => vectorSite) id op E,
    opened (fun _ => vectorSite) (fun _ => offlineAt 1781076300) store⟩

def triedStore : Bytes := buildBlob { vectorCache with trialStart := some 1781000000 }

/-- One client renews its lease, the other is rejected. -/
def renewedAndRejected (i : Plugin) : Env :=
  { repliesAt 1781076300 (match i with
      | .first => leaseReply 200 vectorLease
      | .second => ⟨422, ascii "\x7b\x7d", []⟩)
    with self := i.self }

def inTurns : List Plugin :=
  List.replicate 11 .first ++ List.replicate 11 .second ++ List.replicate 28 .first ++
    List.replicate 19 .second

/-- Where the sections of a schedule lead when `C` allows each of them. -/
def pairEnd (C : Host Plugin → Host Plugin → Prop) [∀ h h', Decidable (C h h')]
    (op : Plugin → Op) (E : Plugin → Env) (store : Bytes) (is : List (Plugin)) :
    Option (Pool (Host Plugin) fun _ : Plugin => Unit) :=
  Pool.schedule C is (pair op E store)

/-- Both clients know the stored trial, and it stays. -/
theorem shared_store_vector : ∃ c,
    pairEnd UpToDate (fun _ => .validate) renewedAndRejected triedStore inTurns = some c ∧
      storedTrial c.shared.store = some 1781000000 := by
  have hend : (pairEnd UpToDate (fun _ => .validate) renewedAndRejected triedStore
      inTurns).isSome = true := by decide +kernel
  obtain ⟨c, hc⟩ := Option.isSome_iff_exists.mp hend
  refine ⟨c, hc, ?_⟩
  exact (shared_store (fun _ => vectorSite) id (fun _ => .validate) renewedAndRejected
    (fun _ _ h _ => h) (by simp) _ triedStore .refl).1 c 1781000000 (Pool.schedule_run hc)
    (by decide +kernel)

/-- Two clients open the same empty store; one starts the trial, and the other, which has not
seen it, mints its anonymous id. -/
theorem startTrial_lost : ¬∀ (X : Plugin → Site) (client : Plugin → Plugin) (op : Plugin → Op)
    (E launch : Plugin → Env) (store : Bytes) (c : Pool (Host Plugin) fun _ : Plugin => Unit),
    (∀ i j, client i = client j → (E i).self = (E j).self → i = j) →
    (∀ i, op i ≠ .relaunch) →
    Pool.Run (fun _ _ => True) ⟨calls X client op E, opened X launch store⟩ c →
    (∀ c' t, Pool.Run (fun _ _ => True) c c' → storedTrial c.shared.store = some t →
      storedTrial c'.shared.store = some t) ∧
    ∀ i c', c.advance i = some c' →
      ((storedLease c.shared.store).isSome = true →
        (storedLease c'.shared.store).isSome = true ∨
          c'.shared.ledger.lease (client i) = true) ∧
      ((storedKey c.shared.store).isSome = true →
        (storedKey c'.shared.store).isSome = true ∨
          c'.shared.ledger.key (client i) = true) := by
  intro h
  let op : Plugin → Op
    | .first => .startTrial
    | .second => .freeTierInstanceId
  let E : Plugin → Env := fun i => { offlineAt 1781076300 with self := i.self }
  have hlive : ∀ i, op i ≠ .relaunch := by
    intro i
    cases i with
    | first => simp [op]
    | second => simp [op]
  have hmid : (pairEnd (fun _ _ => True) op E [] (List.replicate 24 .first)).map
      (fun c => storedTrial c.shared.store) = some (some 1781076300) := by decide +kernel
  have hend : ((pairEnd (fun _ _ => True) op E [] (List.replicate 24 .first)).bind
      (Pool.schedule (fun _ _ => True) (List.replicate 6 .second))).map
      (fun c => storedTrial c.shared.store) = some none := by decide +kernel
  cases hc : pairEnd (fun _ _ => True) op E [] (List.replicate 24 .first) with
  | none =>
    rw [hc] at hmid
    cases hmid
  | some c =>
    rw [hc, Option.map_some] at hmid
    rw [hc, Option.bind_some] at hend
    cases hc' : Pool.schedule (fun _ _ => True) (List.replicate 6 .second) c with
    | none =>
      rw [hc'] at hend
      cases hend
    | some c' =>
      rw [hc', Option.map_some] at hend
      have hkept := (h _ id op E _ [] c (fun _ _ h _ => h) hlive (Pool.schedule_run hc)).1 c' _
        (Pool.schedule_run hc') (Option.some.inj hmid)
      rw [Option.some.inj hend] at hkept
      cases hkept

end Keylight
