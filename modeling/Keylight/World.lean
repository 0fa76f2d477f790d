import Keylight.Verifier
import Keylight.Retry
import Keylight.Sections

/-!
# The client, its store and its environment

`Client` is the data of one `keylight::Client`; `World` adds the license store,
the two mutexes that span several sections, and a history of what happened. The
clock, the transport, the machine and the outcome of each store operation come
from an `Env`: arbitrary sequences, read in order.
-/
namespace Keylight
open Bytes Sections

/-- The high-level license state. -/
inductive State where
  | licensed | trial | expired | invalid | freeTier | limited
  deriving DecidableEq, Repr

inductive TrialStatus where
  | notStarted | active | expired
  deriving DecidableEq, Repr

inductive KeylessState where
  | trial | freeTier | expired
  deriving DecidableEq, Repr

def keylessStateWire : KeylessState → Bytes
  | .trial => ascii "trial"
  | .freeTier => ascii "free_tier"
  | .expired => ascii "expired"

inductive LifecycleEvent where
  | renewed | cancelled | expired | restored
  deriving DecidableEq, Repr

def lifecycleEvent (prev next : State) (expiryMovedLater : Bool) : Option LifecycleEvent :=
  if prev = .licensed ∧ next = .licensed then
    if expiryMovedLater then some .renewed else none
  else if prev = .licensed ∧ (next = .expired ∨ next = .limited) then some .cancelled
  else if next = .licensed ∧ (prev = .expired ∨ prev = .limited ∨ prev = .invalid) then
    some .restored
  else if next = .expired ∧ prev ≠ .expired then some .expired
  else none

/-- How far the clock may move backward before it counts as a rollback. -/
def clockBackwardTolerance : Int64 := 3600

def clockRolledBack (lastSeen now : Int64) : Bool := lastSeen - now > clockBackwardTolerance

/-- The fields behind `cache_mutex_`; an int64 of 0 stands for "never". -/
structure Cache where
  lease : Option Lease := none
  expiresAt : Option Int64 := none
  instanceId : Option Bytes := none
  licenseKey : Option Bytes := none
  lastValidatedOnline : Int64 := 0
  trialStart : Option Int64 := none
  freeTierInstanceId : Option Bytes := none
  hardwareId : Option Bytes := none
  keylessLastState : Option Bytes := none
  lastKeylessPingAt : Int64 := 0
  serverTrialDays : Option Int32 := none
  serverFreeTier : Option Bool := none

structure Client where
  cache : Cache := {}
  /-- `state_`, before the clock guard -/
  rawState : State := .invalid
  lastReported : State := .invalid
  /-- `last_validated_online_atomic_` -/
  anchor : Int64 := 0
  lastSeenExpiry : Option Int64 := none
  lastActiveRevalidateAt : Int64 := 0

structure HttpRequest where
  method : Bytes
  url : Bytes
  headers : List (Bytes × Bytes)
  body : Bytes
  deriving DecidableEq

structure HttpResponse where
  status : Int
  body : Bytes
  headers : List (Bytes × Bytes) := []
  deriving DecidableEq

/-- What the rest of the process can observe, and the writes to shared memory. -/
inductive Event where
  | launched : Event
  | exchange : HttpRequest → Result HttpResponse → Event
  | slept : Nat → Event
  | snapshot : Event
  | saved : Bytes → Result Unit → Event
  | cleared : Result Unit → Event
  | leaseCached : Lease → Event
  | leaseDropped : Event
  | keyCached : Bytes → Event
  | paidReset : Event
  | stateStored : State → Event
  | queued : State → Event
  | lifecycle : LifecycleEvent → Event

/-- How many values of each input have been read. -/
structure Ticks where
  now : Nat := 0
  request : Nat := 0
  hardwareId : Nat := 0
  uuid : Nat := 0
  requestId : Nat := 0
  load : Nat := 0
  save : Nat := 0
  clear : Nat := 0

structure World where
  client : Client := {}
  store : Bytes := []
  saveOwner : Option Nat := none
  notifyOwner : Option Nat := none
  ticks : Ticks := {}
  log : List Event := []

/-- Build-time and machine data sent as telemetry. -/
structure Device where
  machineName : Bytes := []
  platform : Bytes := ascii "linux"
  cpuCores : Bytes := []
  memory : Bytes := []
  osVersion : Bytes := []
  arch : Bytes := []

/-- What is fixed for the lifetime of an installation. -/
structure Site where
  cfg : Config
  crypto : Crypto
  device : Device := {}

/-- The inputs of one call, by the order in which they are read. -/
structure Env where
  /-- the calling thread -/
  self : Nat := 0
  now : Nat → Int64
  request : Nat → Result HttpResponse := fun _ => .error ⟨.network, []⟩
  hardwareId : Nat → Option Bytes := fun _ => none
  uuid : Nat → Fin 16 → UInt8 := fun _ _ => 0
  requestId : Nat → Bytes := fun _ => []
  load : Nat → Option Error := fun _ => none
  save : Nat → Option Error := fun _ => none
  clear : Nat → Option Error := fun _ => none

abbrev Code := Prog World

def Site.verify (X : Site) (l : Lease) (now : Int64) : VerifyResult :=
  Verifier.verify X.crypto ⟨X.cfg.trustedKeys, 300⟩ l now

section Sections_
variable (E : Env)

/-- `now_fn_` -/
def nowFn : Code Int64 :=
  .atom fun w => (E.now w.ticks.now, { w with ticks.now := w.ticks.now + 1 })

/-- One `cache_mutex_` section that reads. -/
def readCache (f : Cache → α) : Code α := .read fun w => f w.client.cache

/-- One `cache_mutex_` section that writes. -/
def writeCache (f : Cache → Cache) (events : List Event) : Code Unit :=
  .modify fun w => { w with client.cache := f w.client.cache, log := w.log ++ events }

def loadState : Code State := .read fun w => w.client.rawState

def storeState (s : State) : Code Unit :=
  .modify fun w => { w with client.rawState := s, log := w.log ++ [.stateStored s] }

def storeAnchor (t : Int64) : Code Unit := .modify fun w => { w with client.anchor := t }

def transportRequest (req : HttpRequest) : Code (Result HttpResponse) :=
  .atom fun w => (E.request w.ticks.request,
    { w with
      ticks.request := w.ticks.request + 1
      log := w.log ++ [.exchange req (E.request w.ticks.request)] })

def sleepFn (ms : Nat) : Code Unit := .modify fun w => { w with log := w.log ++ [.slept ms] }

def hardwareIdFn : Code (Option Bytes) :=
  .atom fun w => (E.hardwareId w.ticks.hardwareId,
    { w with ticks.hardwareId := w.ticks.hardwareId + 1 })

def randomRequestId : Code Bytes :=
  .atom fun w => (E.requestId w.ticks.requestId,
    { w with ticks.requestId := w.ticks.requestId + 1 })

def outcome : Option Error → Result Unit
  | none => .ok ()
  | some e => .error e

/-- `store_.save`: a failed save leaves the old contents. -/
def storeSave (blob : Bytes) : Code (Result Unit) :=
  .atom fun w =>
    let r := outcome (E.save w.ticks.save)
    (r, { w with
      ticks.save := w.ticks.save + 1
      store := if isOk r then blob else w.store
      log := w.log ++ [.saved blob r] })

/-- `store_.clear` -/
def storeClear : Code (Result Unit) :=
  .atom fun w =>
    let r := outcome (E.clear w.ticks.clear)
    (r, { w with
      ticks.clear := w.ticks.clear + 1
      store := if isOk r then [] else w.store
      log := w.log ++ [.cleared r] })

/-- `store_.load` -/
def storeLoad : Code (Result Bytes) :=
  .atom fun w =>
    ((outcome (E.load w.ticks.load)).map fun _ => w.store,
      { w with ticks.load := w.ticks.load + 1 })

def lockSave : Code Unit :=
  .await (fun w => w.saveOwner.isNone) fun w => { w with saveOwner := some E.self }

def unlockSave : Code Unit := .modify fun w => { w with saveOwner := none }

def lockNotify : Code Unit :=
  .await (fun w => w.notifyOwner.isNone) fun w => { w with notifyOwner := some E.self }

def unlockNotify : Code Unit := .modify fun w => { w with notifyOwner := none }

def hexDigit (n : UInt8) : UInt8 := if n < 10 then 48 + n else 87 + n

/-- `uuid_v4` over its sixteen random bytes. -/
def uuidV4 (b : Fin 16 → UInt8) : Bytes :=
  (List.finRange 16).flatMap fun i =>
    let v := if i.val = 6 then (b i &&& 0x0f) ||| 0x40
      else if i.val = 8 then (b i &&& 0x3f) ||| 0x80 else b i
    (if i.val = 4 ∨ i.val = 6 ∨ i.val = 8 ∨ i.val = 10 then ascii "-" else []) ++
      [hexDigit ((v >>> 4) &&& 0x0f), hexDigit (v &&& 0x0f)]

end Sections_

def optionMember (key : Bytes) (text : Option Bytes) : List Bytes :=
  match text with
  | some t => [jsonMember key t]
  | none => []

def nonZero (i : Int64) : Option Int64 := if i = 0 then none else some i

def int64Text (i : Int64) : Bytes := decimal i.toInt

def boolText (b : Bool) : Bytes := ascii (if b then "true" else "false")

/-- `build_blob_locked_` -/
def buildBlob (c : Cache) : Bytes :=
  jsonObject (
    optionMember (ascii "lease") (c.lease.map leaseToJson) ++
    optionMember (ascii "expiresAt") (c.expiresAt.map int64Text) ++
    optionMember (ascii "instanceId") (c.instanceId.map jsonStr) ++
    optionMember (ascii "licenseKey") (c.licenseKey.map jsonStr) ++
    optionMember (ascii "lastValidatedOnline") ((nonZero c.lastValidatedOnline).map int64Text) ++
    optionMember (ascii "trialStart") (c.trialStart.map int64Text) ++
    optionMember (ascii "freeTierInstanceId") (c.freeTierInstanceId.map jsonStr) ++
    optionMember (ascii "cachedHardwareId") (c.hardwareId.map jsonStr) ++
    optionMember (ascii "keylessLastState") (c.keylessLastState.map jsonStr) ++
    optionMember (ascii "lastKeylessPingAt") ((nonZero c.lastKeylessPingAt).map int64Text) ++
    optionMember (ascii "serverTrialDurationDays")
      (c.serverTrialDays.map fun d => decimal d.toInt) ++
    optionMember (ascii "serverFreeTierEnabled") (c.serverFreeTier.map boolText))

/-- A lease field counts when it has members; `none` also for one the decoder rejects. -/
def leaseOf (j : Json) : Option Lease :=
  if 0 < (j.get (ascii "lease")).size then
    (Lease.fromJson (j.get (ascii "lease"))).toOption
  else none

/-- "0 means absent" -/
def intOf (j : Json) (key : Bytes) : Option Int64 := nonZero (j.get key).asInt

/-- "empty means absent" -/
def stringOf (j : Json) (key : Bytes) : Option Bytes :=
  if (j.get key).asString = [] then none else some (j.get key).asString

/-- `json_has_`: presence matters where 0 and false are legitimate values. -/
def jsonHas (j : Json) (key : Bytes) : Bool := j.keys.contains key

/-- The cache section of `refresh_state_from_store_`. -/
def loadCache (j : Json) (c : Cache) : Cache where
  lease := (leaseOf j).or c.lease
  expiresAt := (intOf j (ascii "expiresAt")).or c.expiresAt
  instanceId := (stringOf j (ascii "instanceId")).or c.instanceId
  licenseKey := (stringOf j (ascii "licenseKey")).or c.licenseKey
  lastValidatedOnline :=
    (intOf j (ascii "lastValidatedOnline")).getD c.lastValidatedOnline
  trialStart := (intOf j (ascii "trialStart")).or c.trialStart
  freeTierInstanceId := (stringOf j (ascii "freeTierInstanceId")).or c.freeTierInstanceId
  hardwareId := (stringOf j (ascii "cachedHardwareId")).or c.hardwareId
  keylessLastState := (stringOf j (ascii "keylessLastState")).or c.keylessLastState
  lastKeylessPingAt := (j.get (ascii "lastKeylessPingAt")).asInt
  serverTrialDays :=
    if jsonHas j (ascii "serverTrialDurationDays") then
      some (j.get (ascii "serverTrialDurationDays")).asInt.toInt32
    else c.serverTrialDays
  serverFreeTier :=
    if jsonHas j (ascii "serverFreeTierEnabled") then
      some (j.get (ascii "serverFreeTierEnabled")).asBool
    else c.serverFreeTier

end Keylight
