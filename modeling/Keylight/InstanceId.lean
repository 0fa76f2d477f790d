import Keylight.FreshClient
import Keylight.Ghost

/-!
# The free-tier instance id under interleaving

Any number of threads ask one client for the id, start its trial or report its
keyless state. An id is minted in one section, saved in the next ones and taken
back in a last one when the save fails, so another thread can find an id that is
not yet in the store. A desk beside the client notes who mints and which ids have
been returned: the ids are one and stored as long as nobody finds an id before it
is written, and no failed save takes back an id that was found.
-/
namespace Keylight
open Bytes Sections Client

/-- The instance id a store holds. -/
def storedInstanceId (blob : Bytes) : Option Bytes :=
  (decodeStore blob).bind fun j => stringOf j (ascii "freeTierInstanceId")

theorem storedInstanceId_buildBlob (c : Cache) :
    storedInstanceId (buildBlob c) = Client.nonEmpty c.freeTierInstanceId := by
  have hmem : (ascii "freeTierInstanceId", c.freeTierInstanceId.map writtenString) ∈
      blobFields c := List.mem_of_getElem? (i := 6) rfl
  rw [storedInstanceId, decodeStore_buildBlob, Option.bind_some, stringOf_blob hmem]

/-- The id that a successful save wrote. -/
def Event.writesInstanceId : Event → Option Bytes
  | .saved b (.ok _) => storedInstanceId b
  | _ => none

/-- The id was in the store at the launch, or has been saved since. -/
def WrittenId (store : Bytes) (w : World) (id : Bytes) : Prop :=
  storedInstanceId store = some id ∨ ∃ e ∈ w.log, e.writesInstanceId = some id

instance (store : Bytes) (w : World) (id : Bytes) : Decidable (WrittenId store w id) :=
  inferInstanceAs (Decidable (_ ∨ _))

theorem WrittenId.grown {store : Bytes} {w v : World} {id : Bytes} (h : WrittenId store w id)
    (hlog : w.log <+: v.log) : WrittenId store v id := by
  obtain h | ⟨e, he, hid⟩ := h
  · exact .inl h
  · exact .inr ⟨e, hlog.subset he, hid⟩

inductive IdCall where
  | freeTierInstanceId
  | startTrial
  | reportKeylessState (s : KeylessState)
  deriving DecidableEq

/-- One call, and the ids its caller gets. -/
def IdCall.code (X : Site) (E : Env) : IdCall → Code (List Bytes)
  | .freeTierInstanceId => do
    let id ← Client.freeTierInstanceId E
    pure [id]
  | .startTrial => do
    let _ ← Client.startTrial X E
    pure []
  | .reportKeylessState s => do
    Client.reportKeylessState X E s
    pure []

/-- The calls of one thread, one after another. -/
def idCalls (X : Site) (E : Env) : List IdCall → Code (List Bytes)
  | [] => pure []
  | call :: calls => do
    let ids ← call.code X E
    let later ← idCalls X E calls
    pure (ids ++ later)

namespace Client

/-- The rest of a report once it has an id. -/
def sendBeacon (X : Site) (E : Env) (wire instanceId : Bytes) : Code Unit := do
  let hash ← machineHash X E
  let headers ← jsonHeaders X E
  let hr ← requestWithRetry E (ascii "POST") (apiUrl X (ascii "keyless")) headers
    (buildJson X ([(ascii "instance_id", jsonStr instanceId),
      (ascii "state", jsonStr wire)] ++ optionField (ascii "machine_hash") hash) true)
  match hr with
  | .error _ => pure ()
  | .ok resp =>
    if resp.status ≠ 200 then pure ()
    else keylessReply X E wire resp.body

theorem reportKeylessState_eq (X : Site) (E : Env) (s : KeylessState) :
    reportKeylessState X E s = (do
      let debounced ← keylessDebounced E (keylessStateWire s)
      if debounced then pure ()
      else do
        let instanceId ← freeTierInstanceId E
        if instanceId = [] then pure ()
        else sendBeacon X E (keylessStateWire s) instanceId) := rfl

end Client

/-- The client with a note of the thread that is minting, if any, and of the ids returned. -/
structure Desk (ι : Type) where
  world : World
  minter : Option ι := none
  issued : List Bytes := []

namespace Desk
variable {ι : Type}

/-- `cached_free_tier_instance_id_` -/
def slot (d : Desk ι) : Option Bytes := d.world.client.cache.freeTierInstanceId

def put (d : Desk ι) (w : World) : Desk ι := { d with world := w }

/-- Code that notes nothing. -/
abbrev on (p : Code α) : Prog (Desk ι) α := p.focus world put

/-- `freeTierInstanceId` of thread `i`, noting each id in the section that reads it for the
return. -/
def freeTierInstanceId (E : Env) (i : ι) : Prog (Desk ι) Bytes := do
  let known ← .atom fun d =>
    let (known, w) := (mintFreeTierInstanceId E).run d.world
    match known with
    | some id => (some id, { d with world := w, issued := d.issued ++ [id] })
    | none => (none, { d with world := w, minter := some i })
  match known with
  | some id => pure id
  | none => do
    let r ← on (saveCache E)
    if !isOk r then do
      .modify fun d => { d with
        world := { d.world with client.cache.freeTierInstanceId := none }
        minter := none }
      pure []
    else
      .atom fun d => (d.slot.getD [],
        { d with minter := none, issued := d.issued ++ d.slot.toList })

def startTrial (X : Site) (E : Env) (i : ι) : Prog (Desk ι) (Result State) := do
  on (stampAndSave E)
  let _ ← Desk.freeTierInstanceId E i
  on (resolveLocally X E)

def reportKeylessState (X : Site) (E : Env) (i : ι) (s : KeylessState) : Prog (Desk ι) Unit := do
  let debounced ← on (keylessDebounced E (keylessStateWire s))
  if debounced then pure ()
  else do
    let instanceId ← Desk.freeTierInstanceId E i
    if instanceId = [] then pure ()
    else on (sendBeacon X E (keylessStateWire s) instanceId)

def code (X : Site) (E : Env) (i : ι) : IdCall → Prog (Desk ι) (List Bytes)
  | .freeTierInstanceId => do
    let id ← Desk.freeTierInstanceId E i
    pure [id]
  | .startTrial => do
    let _ ← Desk.startTrial X E i
    pure []
  | .reportKeylessState s => do
    Desk.reportKeylessState X E i s
    pure []

def idCalls (X : Site) (E : Env) (i : ι) : List IdCall → Prog (Desk ι) (List Bytes)
  | [] => pure []
  | call :: calls => do
    let ids ← code X E i call
    let later ← idCalls X E i calls
    pure (ids ++ later)

theorem erases_on (p : Code α) : Erases (world : Desk ι → World) (on p) p :=
  Erases.focus (fun _ _ => rfl) p

/-- Without the bookkeeping it is the client's own call. -/
theorem erases_freeTierInstanceId (E : Env) (i : ι) :
    Erases world (Desk.freeTierInstanceId E i) (Client.freeTierInstanceId E) := by
  refine .bind (.atom fun d => ?_) fun known => ?_
  · simp only [mintFreeTierInstanceId, Prog.run_atom]
    cases d.world.client.cache.freeTierInstanceId with
    | some id => exact ⟨rfl, rfl⟩
    | none => exact ⟨rfl, rfl⟩
  cases known with
  | some id => exact .pure id
  | none =>
    refine .bind (erases_on _) fun r => .ite ?_ ?_
    · refine .bind (.atom fun d => ⟨rfl, ?_⟩) fun _ => .pure _
      simp only [List.append_nil]
    · exact .atom fun d => ⟨rfl, rfl⟩

theorem erases_startTrial (X : Site) (E : Env) (i : ι) :
    Erases world (Desk.startTrial X E i) (Client.startTrial X E) := by
  rw [startTrial_eq]
  refine .bind (erases_on _) fun _ => .bind (erases_freeTierInstanceId E i) fun _ => ?_
  exact erases_on _

theorem erases_reportKeylessState (X : Site) (E : Env) (i : ι) (s : KeylessState) :
    Erases world (Desk.reportKeylessState X E i s) (Client.reportKeylessState X E s) := by
  rw [reportKeylessState_eq]
  refine .bind (erases_on _) fun debounced => .ite (.pure _) ?_
  exact .bind (erases_freeTierInstanceId E i) fun id => .ite (.pure _) (erases_on _)

theorem erases_idCalls (X : Site) (E : Env) (i : ι) (calls : List IdCall) :
    Erases world (Desk.idCalls X E i calls) (Keylight.idCalls X E calls) := by
  induction calls with
  | nil => exact .pure _
  | cons call calls ih =>
    refine .bind ?_ fun ids => .bind ih fun later => .pure _
    cases call with
    | freeTierInstanceId => exact .bind (erases_freeTierInstanceId E i) fun _ => .pure _
    | startTrial => exact .bind (erases_startTrial X E i) fun _ => .pure _
    | reportKeylessState s => exact .bind (erases_reportKeylessState X E i s) fun _ => .pure _

/-- A call that finds an id still being minted finds one that is written, and no failed save takes
back an id that a call has returned. -/
structure Prompt (store : Bytes) (d d' : Desk ι) : Prop where
  found : ∀ id ∈ d'.issued.drop d.issued.length, d'.minter.isSome → WrittenId store d.world id
  kept : ∀ id ∈ d.issued, d.slot = some id → d'.slot.isSome

instance (store : Bytes) (d d' : Desk ι) : Decidable (Prompt store d d') :=
  decidable_of_iff (_ ∧ _) ⟨fun h => ⟨h.1, h.2⟩, fun h => ⟨h.found, h.kept⟩⟩

theorem Prompt.issues {store : Bytes} {d d' : Desk ι} (h : Prompt store d d') {id : Bytes}
    (hissued : d'.issued = d.issued ++ [id]) (hminter : d'.minter.isSome) :
    WrittenId store d.world id := by
  apply h.found id _ hminter
  rw [hissued, List.drop_left]
  exact .head _

/-- All ids returned are the one in the cache, and it is written unless it is being minted. -/
structure Agreed (store : Bytes) (d : Desk ι) : Prop where
  issued : ∀ id ∈ d.issued, d.slot = some id ∧ WrittenId store d.world id
  settled : d.minter = none → ∀ id, d.slot = some id → WrittenId store d.world id
  minting : d.minter.isSome → d.slot.isSome

/-- What every section does: nothing that was written or returned is undone. -/
structure Grows (store : Bytes) (d d' : Desk ι) : Prop where
  agreed : Agreed store d'
  log : d.world.log <+: d'.world.log
  issued : d.issued <+: d'.issued

/-- What thread `i` finds after a section of another thread: its mint is its own. -/
structure Undisputed (store : Bytes) (i : ι) (d d' : Desk ι) : Prop extends Grows store d d' where
  minter : d.minter = some i → d'.minter = some i ∧ d'.slot = d.slot

def Promise (store : Bytes) (d d' : Desk ι) : Prop := Agreed store d → Grows store d d'

def Rely (store : Bytes) (i : ι) (d d' : Desk ι) : Prop := Agreed store d → Undisputed store i d d'

/-- What the sections of thread `i` keep to. -/
abbrev Guarantee (store : Bytes) (i : ι) (d d' : Desk ι) : Prop :=
  (∀ j, j ≠ i → Rely store j d d') ∧ Promise store d d'

/-- Thread `i` is minting `id`. -/
structure Minting (store : Bytes) (i : ι) (id : Bytes) (d : Desk ι) : Prop where
  agreed : Agreed store d
  minter : d.minter = some i
  slot : d.slot = some id

/-- The ids that a thread has got are among those noted. -/
structure Returned (store : Bytes) (ids : List Bytes) (d : Desk ι) : Prop where
  agreed : Agreed store d
  noted : ∀ id ∈ ids, id ≠ [] → id ∈ d.issued

section
variable {store : Bytes} {i : ι} {id : Bytes} {d d' : Desk ι}

theorem Grows.refl (h : Agreed store d) : Grows store d d :=
  ⟨h, List.prefix_rfl, List.prefix_rfl⟩

theorem Grows.trans {d'' : Desk ι} (h₁ : Grows store d d') (h₂ : Grows store d' d'') :
    Grows store d d'' := ⟨h₂.agreed, h₁.log.trans h₂.log, h₁.issued.trans h₂.issued⟩

theorem Promise.refl (d : Desk ι) : Promise store d d := fun h => .refl h

theorem Promise.trans {d'' : Desk ι} (h₁ : Promise store d d') (h₂ : Promise store d' d'') :
    Promise store d d'' := fun h => (h₁ h).trans (h₂ (h₁ h).agreed)

theorem Rely.refl (store : Bytes) (i : ι) (d : Desk ι) : Rely store i d d :=
  fun h => ⟨.refl h, fun hi => ⟨hi, rfl⟩⟩

theorem Rely.trans (store : Bytes) (i : ι) (d d' d'' : Desk ι) (h₁ : Rely store i d d')
    (h₂ : Rely store i d' d'') : Rely store i d d'' := by
  intro hd
  have hu := h₁ hd
  have hv := h₂ hu.agreed
  refine ⟨hu.toGrows.trans hv.toGrows, fun hi => ?_⟩
  obtain ⟨hminter, hslot⟩ := hu.minter hi
  obtain ⟨hminter', hslot'⟩ := hv.minter hminter
  exact ⟨hminter', hslot'.trans hslot⟩

theorem stable_agreed : Stable (Rely store i) (Agreed store) := fun _ _ hd h => (h hd).agreed

theorem stable_minting (id : Bytes) : Stable (Rely store i) (Minting store i id) := by
  intro d d' hd h
  obtain ⟨hminter, hslot⟩ := (h hd.agreed).minter hd.minter
  exact ⟨(h hd.agreed).agreed, hminter, hslot.trans hd.slot⟩

theorem Returned.grown {ids : List Bytes} (h : Returned store ids d) (hg : Grows store d d') :
    Returned store ids d' :=
  ⟨hg.agreed, fun id hid hne => hg.issued.subset (h.noted id hid hne)⟩

theorem stable_returned (ids : List Bytes) : Stable (Rely store i) (Returned store ids) :=
  fun _ _ hd h => hd.grown (h hd.agreed).toGrows

theorem Returned.nothing (h : Agreed store d) : Returned store [] d :=
  ⟨h, fun id hid => by cases hid⟩

theorem Agreed.congr (h : Agreed store d) (hslot : d'.slot = d.slot)
    (hlog : d.world.log <+: d'.world.log) (hminter : d'.minter = d.minter)
    (hissued : d'.issued = d.issued) : Agreed store d' := by
  constructor
  · rw [hissued, hslot]
    exact fun id hid => ⟨(h.issued id hid).1, (h.issued id hid).2.grown hlog⟩
  · rw [hminter, hslot]
    exact fun hnone id hid => (h.settled hnone id hid).grown hlog
  · rw [hminter, hslot]
    exact h.minting

theorem Minting.congr (h : Minting store i id d) (hslot : d'.slot = d.slot)
    (hlog : d.world.log <+: d'.world.log) (hminter : d'.minter = d.minter)
    (hissued : d'.issued = d.issued) : Minting store i id d' :=
  ⟨h.agreed.congr hslot hlog hminter hissued, hminter.trans h.minter, hslot.trans h.slot⟩

theorem guarantee_congr (hslot : d'.slot = d.slot) (hlog : d.world.log <+: d'.world.log)
    (hminter : d'.minter = d.minter) (hissued : d'.issued = d.issued) : Guarantee store i d d' := by
  have hgrows : Promise store d d' := by
    refine fun hd => ⟨hd.congr hslot hlog hminter hissued, hlog, [], ?_⟩
    rw [List.append_nil, hissued]
  exact ⟨fun j _ hd => ⟨hgrows hd, fun hj => ⟨hminter.trans hj, hslot⟩⟩, hgrows⟩

end

/-- A section of the client that leaves the id alone. -/
structure KeepsId (w v : World) : Prop where
  slot : v.client.cache.freeTierInstanceId = w.client.cache.freeTierInstanceId
  log : w.log <+: v.log

theorem KeepsId.inert {w v : World} (hcore : v.core = w.core) (hlog : w.log <+: v.log) :
    KeepsId w v := ⟨congrArg (fun c => c.cache.freeTierInstanceId) hcore, hlog⟩

theorem KeepsId.idle {w v : World} (h : Idle w v) : KeepsId w v := .inert h.core h.grows

/-- Every section leaves the id alone. -/
abbrev Spectates (p : Code α) : Prop := Each KeepsId (fun _ => True) p

/-- Code of thread `i` that keeps to the guarantee and ends in `Q`. -/
abbrev Upholds (store : Bytes) (i : ι) (Q : α → Desk ι → Prop) (p : Prog (Desk ι) α) (d : Desk ι) :
    Prop := Safe (Prompt store) (Rely store i) (Guarantee store i) Q p d

section
variable {store : Bytes} {i : ι} {id : Bytes} {d d' : Desk ι}

theorem Spectates.upholds {p : Code α} (hp : Spectates p) (hd : Agreed store d) :
    Upholds store i (fun _ => Agreed store) (on p) d := by
  refine (Safe.of_each hp.focus stable_agreed ?_ hd).mono (fun _ _ h => h) fun _ _ h => h.2
  rintro t _ ht ⟨v, rfl, hv⟩ -
  exact ⟨guarantee_congr hv.slot hv.log rfl rfl, ht.congr hv.slot hv.log rfl rfl⟩

/-- A section of a thread that mints, or where nobody mints. -/
theorem guarantee_own (hown : ∀ j, j ≠ i → d.minter ≠ some j) (h : Grows store d d') :
    Guarantee store i d d' :=
  ⟨fun j hj _ => ⟨h, fun hm => absurd hm (hown j hj)⟩, fun _ => h⟩

theorem Minting.own (h : Minting store i id d) (j : ι) (hj : j ≠ i) : d.minter ≠ some j := by
  rw [h.minter]
  exact fun hm => hj (Option.some.inj hm).symm

theorem Agreed.unminted (h : Agreed store d) (hslot : d.slot = none) : d.minter = none := by
  rw [← Option.not_isSome_iff_eq_none]
  intro hm
  have hsome := h.minting hm
  rw [hslot] at hsome
  cases hsome

/-- An id that a call finds in the cache is written. -/
theorem Agreed.found (h : Agreed store d)
    (hC : Prompt store d { d with issued := d.issued ++ [id] }) (hslot : d.slot = some id) :
    WrittenId store d.world id := by
  cases hm : d.minter with
  | none => exact h.settled hm id hslot
  | some j =>
    refine hC.issues rfl ?_
    rw [hm]
    rfl

/-- Noting the id in the cache once more, when it is written; a mint may end with it. -/
theorem Agreed.issue (h : Agreed store d) (minter : Option ι) (hslot : d.slot = some id)
    (hwritten : WrittenId store d.world id) :
    Agreed store { d with minter := minter, issued := d.issued ++ [id] } := by
  constructor
  · intro x hx
    obtain hx | hx := List.mem_append.1 hx
    · exact h.issued x hx
    · obtain rfl := List.mem_singleton.1 hx
      exact ⟨hslot, hwritten⟩
  · intro _ x hx
    obtain rfl := Option.some.inj (hslot.symm.trans hx)
    exact hwritten
  · exact fun _ => Option.isSome_of_eq_some hslot

/-- A call mints into an empty cache, where nothing has been returned. -/
theorem Agreed.mint (h : Agreed store d) {w : World} (hempty : d.slot = none)
    (hslot : w.client.cache.freeTierInstanceId = some id) :
    Agreed store { d with world := w, minter := some i } := by
  constructor
  · intro x hx
    have hfound := (h.issued x hx).1
    rw [hempty] at hfound
    cases hfound
  · exact fun hm => by cases hm
  · exact fun _ => Option.isSome_of_eq_some hslot

/-- A failed save takes back an id that no call has found. -/
theorem Minting.takenBack (h : Minting store i id d) {w : World}
    (hC : Prompt store d { d with world := w, minter := none })
    (hslot : w.client.cache.freeTierInstanceId = none) :
    Agreed store ({ d with world := w, minter := none } : Desk ι) := by
  constructor
  · intro x hx
    have hkept := hC.kept x hx (h.agreed.issued x hx).1
    rw [show ({ d with world := w, minter := none } : Desk ι).slot = none from hslot] at hkept
    cases hkept
  · intro _ x hx
    rw [show ({ d with world := w, minter := none } : Desk ι).slot = none from hslot] at hx
    cases hx
  · exact fun hm => by cases hm

/-- The blob of the snapshot holds the id. -/
theorem storedInstanceId_slot (hslot : d.slot = some id) (hne : id ≠ []) :
    storedInstanceId (buildBlob d.world.client.cache) = some id := by
  rw [storedInstanceId_buildBlob, show d.world.client.cache.freeTierInstanceId = some id from hslot]
  apply nonEmpty_named
  intro hempty
  exact hne (Option.some.inj hempty)

/-- The end of a save: when it succeeded, the id is written. -/
def Saved (store : Bytes) (i : ι) (id : Bytes) (r : Result Unit) (d : Desk ι) : Prop :=
  Minting store i id d ∧ (isOk r = true → WrittenId store d.world id)

theorem stable_saved (id : Bytes) (r : Result Unit) : Stable (Rely store i) (Saved store i id r) :=
  fun d d' hd h => ⟨stable_minting id d d' hd.1 h, fun hok => (hd.2 hok).grown (h hd.1.agreed).log⟩

/-- The save of a minted id puts it in the store, whoever runs in between. -/
theorem upholds_saveCache (hne : id ≠ []) (E : Env) (hd : Minting store i id d) :
    Upholds store i (Saved store i id) (on (saveCache E)) d := by
  have refl := Rely.refl store i
  have hblob : ∀ b : Bytes, Stable (Rely store i) fun d : Desk ι =>
      Minting store i id d ∧ storedInstanceId b = some id :=
    fun b d d' hd h => ⟨stable_minting id d d' hd.1 h, hd.2⟩
  simp only [on, saveCache, storeSave, Prog.focus_bind, Prog.focus_atom]
  refine .bind refl (.await (g := fun d : Desk ι => d.world.saveOwner.isNone) (stable_minting id) hd
    (stable_minting id) fun t ht _ _ => ⟨?_, ?_⟩) fun _ u hu => ?_
  · exact guarantee_congr rfl List.prefix_rfl rfl rfl
  · exact ht.congr rfl List.prefix_rfl rfl rfl
  refine .bind refl (.atom (stable_minting id) hu hblob fun t ht _ => ⟨?_, ?_, ?_⟩) fun b u hu => ?_
  · exact guarantee_congr rfl (List.prefix_append _ _) rfl rfl
  · exact ht.congr rfl (List.prefix_append _ _) rfl rfl
  · exact storedInstanceId_slot ht.slot hne
  refine .bind refl (.atom (hblob b) hu (stable_saved id) fun t ht _ => ⟨?_, ?_, fun hok => ?_⟩)
    fun r u hu => ?_
  · exact guarantee_congr rfl (List.prefix_append _ _) rfl rfl
  · exact ht.1.congr rfl (List.prefix_append _ _) rfl rfl
  · refine .inr ⟨.saved b (outcome (E.save t.world.ticks.save)),
      List.mem_append_right _ (.head _), ?_⟩
    cases hr : outcome (E.save t.world.ticks.save) with
    | error e =>
      rw [hr] at hok
      cases hok
    | ok _ => exact ht.2
  refine .bind refl (.modify (stable_saved id r) hu (stable_saved id r) fun t ht _ => ⟨?_, ?_, ?_⟩)
    fun _ u hu => ?_
  · exact guarantee_congr rfl List.prefix_rfl rfl rfl
  · exact ht.1.congr rfl List.prefix_rfl rfl rfl
  · exact fun hok => (ht.2 hok).grown List.prefix_rfl
  · exact .pure (stable_saved id r) hu fun _ ht => ht

/-- What the first section of a call leaves: an id it returns, or a mint. -/
def Opened (store : Bytes) (i : ι) : Option Bytes → Desk ι → Prop
  | some id, d => Returned store [id] d
  | none, d => ∃ id, id ≠ [] ∧ Minting store i id d

theorem stable_opened (known : Option Bytes) : Stable (Rely store i) (Opened store i known) := by
  cases known with
  | some id => exact stable_returned [id]
  | none =>
    rintro d d' ⟨id, hne, hd⟩ h
    exact ⟨id, hne, stable_minting id d d' hd h⟩

/-- The section that finds the id notes it, and leaves a mint of another thread alone. -/
theorem upholds_found (h : Agreed store d)
    (hC : Prompt store d { d with issued := d.issued ++ [id] }) (hslot : d.slot = some id) :
    Guarantee store i d { d with issued := d.issued ++ [id] } ∧
      Returned store [id] { d with issued := d.issued ++ [id] } := by
  have hagreed := h.issue d.minter hslot (h.found hC hslot)
  have hgrows : Grows store d { d with issued := d.issued ++ [id] } :=
    ⟨hagreed, List.prefix_rfl, List.prefix_append _ _⟩
  refine ⟨⟨fun j _ _ => ⟨hgrows, fun hj => ⟨hj, rfl⟩⟩, fun _ => hgrows⟩, hagreed, fun x hx _ => ?_⟩
  exact List.mem_append_right _ hx

/-- The call returns the id that the store holds. -/
theorem upholds_freeTierInstanceId (E : Env) (hd : Agreed store d) :
    Upholds store i (fun id => Returned store [id]) (Desk.freeTierInstanceId E i) d := by
  have refl := Rely.refl store i
  refine .bind refl (.atom stable_agreed hd stable_opened fun t ht hC => ?_) fun known u hu => ?_
  · simp only [mintFreeTierInstanceId, Prog.run_atom] at hC ⊢
    cases hslot : t.world.client.cache.freeTierInstanceId with
    | some id =>
      simp only [hslot] at hC ⊢
      exact upholds_found ht hC hslot
    | none =>
      dsimp only
      have hagreed := ht.mint (i := i) (w := { t.world with
        client.cache.freeTierInstanceId := some (uuidV4 (E.uuid t.world.ticks.uuid))
        ticks.uuid := t.world.ticks.uuid + 1 }) hslot rfl
      have hnone := ht.unminted hslot
      refine ⟨guarantee_own (fun j _ => ?_) ⟨hagreed, List.prefix_rfl, List.prefix_rfl⟩, _,
        uuidV4_ne_nil _, hagreed, rfl, rfl⟩
      rw [hnone]
      exact fun hm => by cases hm
  cases known with
  | some id => exact .pure (stable_returned [id]) hu fun _ ht => ht
  | none =>
    obtain ⟨id, hne, hu⟩ := hu
    refine .bind refl (upholds_saveCache hne E hu) fun r u hu => ?_
    cases r with
    | error e =>
      refine .bind refl (.modify (stable_minting id) hu.1 stable_agreed fun t ht hC => ?_)
        fun _ u hu => ?_
      · have hagreed := ht.takenBack hC rfl
        exact ⟨guarantee_own ht.own ⟨hagreed, List.prefix_rfl, List.prefix_rfl⟩, hagreed⟩
      · refine .pure (P := Agreed store) stable_agreed hu fun t ht => ⟨ht, fun x hx hne => ?_⟩
        exact absurd (List.mem_singleton.1 hx) hne
    | ok _ =>
      refine .atom (stable_saved id (.ok ())) hu (fun x => stable_returned [x]) fun t ht _ => ?_
      have hagreed := ht.1.agreed.issue none ht.1.slot (ht.2 rfl)
      have hnoted : t.slot.toList = [id] := by
        rw [ht.1.slot]
        rfl
      have hgot : t.slot.getD [] = id := by
        rw [ht.1.slot]
        rfl
      simp only [hnoted, hgot]
      refine ⟨guarantee_own ht.1.own ⟨hagreed, List.prefix_rfl, List.prefix_append _ _⟩, hagreed,
        fun x hx _ => List.mem_append_right _ hx⟩

end

section
variable (X : Site) (E : Env)

theorem spectates_quiet {p : Code α} (hp : Quiet p) : Spectates p := hp.each KeepsId.idle

theorem spectates_saveCache : Spectates (saveCache E) :=
  each_saveCache E fun hcore hlog _ => .inert hcore hlog

theorem spectates_stampAndSave : Spectates (stampAndSave E) := by
  refine .bind (Each.atom (Q := fun _ => True) fun w => ⟨?_, trivial⟩) fun started _ => ?_
  · split
    · exact ⟨rfl, List.prefix_rfl⟩
    · exact ⟨rfl, List.prefix_rfl⟩
  cases started with
  | true => exact .bind (spectates_saveCache E) fun _ _ => trivial
  | false => exact trivial

/-- The machine hash leaves the id alone. -/
theorem spectates_machineHash : Spectates (machineHash X E) := by
  have hnote : ∀ id, Spectates (noteHardwareId id) := by
    refine fun id => Each.atom fun w => ⟨?_, trivial⟩
    split
    · exact ⟨rfl, List.prefix_rfl⟩
    · exact ⟨rfl, List.prefix_rfl⟩
  refine .bind (Q := fun _ => True) ?_ fun _ _ => trivial
  refine .bind (spectates_quiet (quiet_hardwareIdFn E)) fun live _ => ?_
  cases nonEmpty live with
  | none => exact spectates_quiet (.read _)
  | some id =>
    refine .bind (hnote id) fun changed _ => ?_
    cases changed with
    | true => exact .bind (spectates_saveCache E) fun _ _ => trivial
    | false => exact trivial

theorem spectates_setState (s : State) : Spectates (setState E s) :=
  each_setState E s KeepsId.idle fun _ => ⟨rfl, List.prefix_append _ _⟩

theorem spectates_resolveLocally : Spectates (resolveLocally X E) :=
  .bind (spectates_quiet (quiet_resolveCurrentState X E)) fun _ _ =>
    .bind (spectates_setState E _) fun _ _ => spectates_quiet (quiet_report E _)

theorem spectates_absorbSettings (body : Bytes) : Spectates (absorbSettings X E body) := by
  unfold absorbSettings applyConfigFields
  split
  · refine .ite (fun _ => trivial) fun _ => ?_
    refine .bind (spectates_quiet (quiet_verifyConfig X E _)) fun vr _ => ?_
    refine .ite (fun _ => trivial) fun _ => ?_
    refine .bind (Each.modify (Q := fun _ => True) (fun w => ?_) trivial) fun _ _ => ?_
    · exact ⟨rfl, List.prefix_append _ _⟩
    · exact .bind (spectates_saveCache E) fun _ _ => trivial
  · exact trivial

theorem spectates_keylessReply (wire body : Bytes) : Spectates (keylessReply X E wire body) := by
  refine .bind (spectates_absorbSettings X E body) fun absorbed _ => ?_
  refine .bind (spectates_quiet (quiet_nowFn E)) fun now _ => ?_
  refine .bind (Each.modify (Q := fun _ => True) (fun w => ?_) trivial) fun _ _ => ?_
  · exact ⟨rfl, List.prefix_append _ _⟩
  refine .bind (spectates_saveCache E) fun _ _ => .ite (fun _ => ?_) fun _ => trivial
  exact .bind (spectates_quiet (quiet_resolveCurrentState X E)) fun _ _ => spectates_setState E _

theorem spectates_sendBeacon (wire id : Bytes) : Spectates (sendBeacon X E wire id) := by
  refine .bind (spectates_machineHash X E) fun hash _ => ?_
  refine .bind (spectates_quiet (quiet_jsonHeaders X E)) fun headers _ => ?_
  refine .bind (spectates_quiet (quiet_requestWithRetry E _ _ _ _)) fun hr _ => ?_
  cases hr with
  | error e => exact trivial
  | ok resp => exact .ite (fun _ => trivial) fun _ => spectates_keylessReply X E wire resp.body

variable {store : Bytes} {i : ι} {d : Desk ι}

theorem upholds_startTrial (hd : Agreed store d) :
    Upholds store i (fun _ => Agreed store) (Desk.startTrial X E i) d := by
  have refl := Rely.refl store i
  refine .bind refl ((spectates_stampAndSave E).upholds hd) fun _ u hu => ?_
  refine .bind refl (upholds_freeTierInstanceId E hu) fun id u hu => ?_
  exact (spectates_resolveLocally X E).upholds hu.agreed

/-- A report keeps the id agreed. -/
theorem upholds_reportKeylessState (s : KeylessState) (hd : Agreed store d) :
    Upholds store i (fun _ => Agreed store) (Desk.reportKeylessState X E i s) d := by
  have refl := Rely.refl store i
  refine .bind refl ((spectates_quiet (quiet_keylessDebounced E _)).upholds hd)
    fun debounced u hu => ?_
  cases debounced with
  | true => exact .pure stable_agreed hu fun _ ht => ht
  | false =>
    refine .bind refl (upholds_freeTierInstanceId E hu) fun id u hu => ?_
    by_cases hid : id = []
    · rw [if_pos hid]
      exact .pure stable_agreed hu.agreed fun _ ht => ht
    · rw [if_neg hid]
      exact (spectates_sendBeacon X E _ id).upholds hu.agreed

/-- Every call returns ids that agree with the store. -/
theorem upholds_code (call : IdCall) (hd : Agreed store d) :
    Upholds store i (Returned store) (code X E i call) d := by
  have refl := Rely.refl store i
  cases call with
  | freeTierInstanceId =>
    exact .bind refl (upholds_freeTierInstanceId E hd) fun id u hu =>
      .pure (stable_returned [id]) hu fun _ ht => ht
  | startTrial =>
    exact .bind refl (upholds_startTrial X E hd) fun _ u hu =>
      .pure stable_agreed hu fun _ ht => .nothing ht
  | reportKeylessState s =>
    exact .bind refl (upholds_reportKeylessState X E s hd) fun _ u hu =>
      .pure stable_agreed hu fun _ ht => .nothing ht

/-- The calls of a thread, one after another: what an earlier call returned stays noted. -/
theorem upholds_idCalls (calls : List IdCall) (hd : Agreed store d) :
    Upholds store i (Returned store) (Desk.idCalls X E i calls) d := by
  have refl := Rely.refl store i
  induction calls generalizing d with
  | nil => exact .pure stable_agreed hd fun _ ht => .nothing ht
  | cons call calls ih =>
    refine .bind refl (upholds_code X E call hd) fun ids u hu => ?_
    have hlater := (ih hu.agreed).keep (stable_returned ids)
      (fun s t hs ht => hs.grown (ht.2 hs.agreed)) hu
    refine .bind refl hlater fun later v hv => ?_
    refine .pure (stable_returned (ids ++ later)) ⟨hv.1.agreed, fun id hid hne => ?_⟩ fun _ ht => ht
    obtain hid | hid := List.mem_append.1 hid
    · exact hv.2.noted id hid hne
    · exact hv.1.noted id hid hne

end

/-- What the launch puts into the cache is in the store. -/
theorem relaunch_instanceId (X : Site) (E : Env) (store : Bytes) {id : Bytes}
    (h : (Op.relaunch.exec X E { store }).client.cache.freeTierInstanceId = some id) :
    storedInstanceId store = some id := by
  obtain ⟨i, k, n, hcore⟩ := construct_core X E { store }
  rw [show (Op.relaunch.exec X E { store }).client.cache =
    ((construct X E).run { store }).2.core.cache from rfl, hcore, loadedJson] at h
  unfold storedInstanceId
  by_cases hload : (E.load ({ store } : World).ticks.load).isNone
  · rw [if_pos hload] at h
    cases hj : decodeStore store with
    | none =>
      simp only [hj] at h
      cases h
    | some j =>
      simp only [hj, launchedCore, loadCache, Option.or_none] at h
      exact h
  · rw [if_neg hload] at h
    cases h

theorem launched_agreed (X : Site) (E : Env) (store : Bytes) :
    Agreed store ({ world := Op.relaunch.exec X E { store } } : Desk ι) := by
  constructor
  · intro id hid
    cases hid
  · exact fun _ id hid => .inl (relaunch_instanceId X E store hid)
  · exact fun h => by cases h

section
variable [DecidableEq ι] (X : Site) (store : Bytes) (E₀ : Env) (E : ι → Env)
  (calls : ι → List IdCall)

/-- The threads of a client launched over `store`, with its desk. -/
def launched : Pool (Desk ι) fun _ : ι => List Bytes :=
  ⟨fun i => Desk.idCalls X (E i) i (calls i), { world := Op.relaunch.exec X E₀ { store } }⟩

/-- Every run of the calls is the run of the noted calls, without the notes. -/
theorem launched_noted {c : Pool World fun _ : ι => List Bytes}
    (hrun : Pool.Run (fun _ _ => True)
      ⟨fun i => Keylight.idCalls X (E i) (calls i), Op.relaunch.exec X E₀ { store }⟩ c) :
    ∃ c', Pool.Run (fun _ _ => True) (launched X store E₀ E calls) c' ∧
      c'.shared.world = c.shared ∧ ∀ i, Erases world (c'.threads i) (c.threads i) :=
  Pool.erases_lift hrun rfl fun i => erases_idCalls X (E i) i (calls i)

end

end Desk

open Desk

/-- All ids a client returns are one, and it is written, when no section breaks the condition. -/
theorem instanceIds_agree (X : Site) (store : Bytes) (E₀ : Env) {ι : Type} [DecidableEq ι]
    (E : ι → Env) (calls : ι → List IdCall) (c : Pool (Desk ι) fun _ : ι => List Bytes)
    (hrun : Pool.Run (Prompt store) (launched X store E₀ E calls) c) :
    (∀ id ∈ c.shared.issued, ∀ id' ∈ c.shared.issued, id = id') ∧
      (∀ id ∈ c.shared.issued, WrittenId store c.shared.world id) ∧
      ∀ i ids, (c.threads i).result = some ids → ∀ id ∈ ids, id ≠ [] → id ∈ c.shared.issued := by
  have hlaunched : Agreed store (launched X store E₀ E calls).shared := launched_agreed X E₀ store
  have hsafe : ∀ i, Pool.GuardedAt (Prompt store) (Rely store) (fun _ => Promise store)
      (fun _ => Returned store) (launched X store E₀ E calls) i :=
    fun i => upholds_idCalls X (E i) (calls i) hlaunched
  obtain ⟨hpromise, hend⟩ := Pool.guarded (Rely.refl store) (Rely.trans store) (M := Promise store)
    Promise.refl (fun _ _ _ => .trans) (fun _ _ _ h => h) hrun hsafe
  have hagreed := (hpromise hlaunched).agreed
  refine ⟨fun id hid id' hid' => ?_, fun id hid => (hagreed.issued id hid).2, fun i ids hids => ?_⟩
  · exact Option.some.inj ((hagreed.issued id hid).1.symm.trans (hagreed.issued id' hid').1)
  · have hthread := hend i
    rw [Pool.GuardedAt, Prog.result_eq hids] at hthread
    exact (hthread c.shared (Rely.refl store i _)).noted

/-- Every id is a new one, and the first save fails. -/
def failingFirst : Env where
  now _ := 1781076300
  uuid k _ := UInt8.ofNat k
  save k := if k = 0 then some ⟨.io, ascii "disk full"⟩ else none

def askOnce (_ : Fin 3) : List IdCall := [.freeTierInstanceId]

/-- Thread 1 finds the id of thread 0 before its save fails; then thread 2 mints its own. -/
def takenBack : List (Fin 3) := [0, 1] ++ List.replicate 5 0 ++ List.replicate 6 2

theorem takenBack_end : (Pool.schedule (fun _ _ => True) takenBack
    ⟨fun i => idCalls vectorSite failingFirst (askOnce i),
      Op.relaunch.exec vectorSite failingFirst {}⟩).map (fun c =>
        ((c.threads 1).result, (c.threads 2).result)) =
    some (some [uuidV4 fun _ => 0], some [uuidV4 fun _ => 1]) := by decide +kernel

/-- Two threads may take back two different ids, when the first save fails. -/
theorem instanceIds_differ : ¬∀ (X : Site) (store : Bytes) (E₀ : Env) (ι : Type)
    [DecidableEq ι] (E : ι → Env) (calls : ι → List IdCall)
    (c : Pool World fun _ : ι => List Bytes),
    Pool.Run (fun _ _ => True)
      ⟨fun i => idCalls X (E i) (calls i), Op.relaunch.exec X E₀ { store }⟩ c →
    ∀ i j ids ids', (c.threads i).result = some ids → (c.threads j).result = some ids' →
      ∀ id ∈ ids, ∀ id' ∈ ids', id ≠ [] → id' ≠ [] → id = id' ∧ WrittenId store c.shared id := by
  intro h
  have hend := takenBack_end
  cases hc : Pool.schedule (fun _ _ => True) takenBack
      ⟨fun i => idCalls vectorSite failingFirst (askOnce i),
        Op.relaunch.exec vectorSite failingFirst {}⟩ with
  | none =>
    rw [hc] at hend
    cases hend
  | some c =>
    rw [hc] at hend
    simp only [Option.map_some, Option.some.injEq, Prod.mk.injEq] at hend
    obtain ⟨hfound, hminted⟩ := hend
    have hsame := h vectorSite [] failingFirst (Fin 3) (fun _ => failingFirst) askOnce c
      (Pool.schedule_run hc) 1 2 _ _ hfound hminted _ (.head _) _ (.head _) (uuidV4_ne_nil _)
      (uuidV4_ne_nil _)
    have hne : uuidV4 (fun _ => 0) ≠ uuidV4 fun _ => 1 := by decide
    exact hne hsame.1

/-- Every save succeeds. -/
def mintingEnv : Env where
  now _ := 1781076300

/-- One thread starts the trial, the other asks for the id. -/
def trialAndAsk : Bool → List IdCall
  | true => [.startTrial]
  | false => [.freeTierInstanceId]

/-- The id is found when it has just been written and not yet been returned. -/
def foundWritten : List Bool := List.replicate 9 true ++ [false] ++ List.replicate 2 true

/-- A thread that finds the id just written returns the same one. -/
theorem instanceIds_agree_found : ∃ c, Pool.schedule (Prompt []) foundWritten
      (launched vectorSite [] mintingEnv (fun _ => mintingEnv) trialAndAsk) = some c ∧
    c.shared.issued.length = 2 ∧ ∀ id ∈ c.shared.issued, ∀ id' ∈ c.shared.issued, id = id' := by
  have hend : (Pool.schedule (Prompt []) foundWritten
      (launched vectorSite [] mintingEnv (fun _ => mintingEnv) trialAndAsk)).map
        (fun c => c.shared.issued.length) = some 2 := by decide +kernel
  cases hc : Pool.schedule (Prompt []) foundWritten
      (launched vectorSite [] mintingEnv (fun _ => mintingEnv) trialAndAsk) with
  | none =>
    rw [hc] at hend
    cases hend
  | some c =>
    rw [hc] at hend
    exact ⟨c, rfl, Option.some.inj hend, (instanceIds_agree vectorSite [] mintingEnv
      (fun _ => mintingEnv) trialAndAsk c (Pool.schedule_run hc)).1⟩

end Keylight
