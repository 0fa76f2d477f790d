import Keylight.World

/-!
# The client's helpers

One definition for each private helper of the client, as code over the shared
world. Every mutex-protected section, atomic access, clock reading, request and
store operation is one section.
-/
namespace Keylight
open Bytes Sections

namespace MachineId

/-- What `machine_hash` digests. -/
def machineText (tenantId productId stableId : Bytes) : Bytes :=
  ascii "keylight-keyless-machine-v1|" ++ tenantId ++ ascii "|" ++ productId ++ ascii "|" ++
    stableId

/-- `machine_hash`, with the digest as an argument. -/
def machineHash (sha256Hex : Bytes → Bytes) (tenantId productId stableId : Bytes) : Bytes :=
  sha256Hex (machineText tenantId productId stableId)

end MachineId

namespace Client
variable (X : Site) (E : Env)

/-- `clock_untrusted_`: with no anchor the clock is not read. -/
def clockUntrusted : Code Bool := do
  let anchor ← .read fun w => w.client.anchor
  if anchor ≠ 0 then do
    let now ← nowFn E
    pure (clockRolledBack anchor now)
  else pure false

def state : Code State := do
  let untrusted ← clockUntrusted E
  if untrusted then pure .invalid else loadState

/-- `report_` of a state -/
def report (s : State) : Code (Result State) := do
  let untrusted ← clockUntrusted E
  if untrusted then pure (.ok .invalid) else pure (.ok s)

/-- `report_` of a result: an error passes through. -/
def reportResult (r : Result State) : Code (Result State) :=
  match r with
  | .ok s => report E s
  | .error e => pure (.error e)

/-- The part of `notify_` under `notify_mutex_`; delivery is not modelled here. -/
def notify : Code Unit := do
  lockNotify E
  let reported ← state E
  .modify fun w =>
    if w.client.lastReported = reported then w
    else { w with client.lastReported := reported, log := w.log ++ [.queued reported] }
  unlockNotify

/-- A first observed expiry counts as later. -/
def movedLater (expiry last : Option Int64) : Bool :=
  match expiry, last with
  | none, _ => false
  | some _, none => true
  | some e, some l => e > l

def notifyLifecycle (ev : LifecycleEvent) : Code Unit :=
  .modify fun w => { w with log := w.log ++ [.lifecycle ev] }

def setState (newState : State) : Code Unit := do
  let prev ← loadState
  let expiry ← readCache fun c => c.expiresAt
  let later ← .atom fun w =>
    (movedLater expiry w.client.lastSeenExpiry, { w with client.lastSeenExpiry := expiry })
  storeState newState
  notify E
  match lifecycleEvent prev newState later with
  | some ev => notifyLifecycle ev
  | none => pure ()

def effectiveTrialDurationDays : Code Int32 :=
  readCache fun c => c.serverTrialDays.getD X.cfg.trialDurationDays

def effectiveFreeTierEnabled : Code Bool :=
  readCache fun c => c.serverFreeTier.getD X.cfg.freeTierEnabled

/-- Whole days left at a clock reading; a clock before the start counts as no time. -/
def daysLeft (now start : Int64) (durationDays : Int32) : Int64 :=
  let elapsed := if now - start < 0 then 0 else now - start
  durationDays.toInt64 - elapsed / 86400

def daysLeftFrom (start : Int64) (durationDays : Int32) : Code Int64 := do
  let now ← nowFn E
  pure (daysLeft now start durationDays)

def checkTrial : Code TrialStatus := do
  let duration ← effectiveTrialDurationDays X
  if duration ≤ 0 then pure .notStarted
  else do
    let start ← readCache fun c => c.trialStart
    match start with
    | none => pure .notStarted
    | some t => do
      let left ← daysLeftFrom E t duration
      if left > 0 then pure .active else pure .expired

/-- Whole days left, for display: 0 when disabled, not started, or elapsed. -/
def trialDaysLeft : Code Int32 := do
  let duration ← effectiveTrialDurationDays X
  if duration ≤ 0 then pure 0
  else do
    let start ← readCache fun c => c.trialStart
    match start with
    | none => pure 0
    | some t => do
      let left ← daysLeftFrom E t duration
      if left > 0 then pure left.toInt32 else pure 0

/-- Only an unusable paid state consults the trial; the free tier outranks an elapsed one. -/
def resolveWithTrial (paidState : State) : Code State :=
  if paidState ≠ .invalid then pure paidState
  else do
    let trial ← checkTrial X E
    match trial with
    | .active => pure .trial
    | .expired => do
      let free ← effectiveFreeTierEnabled X
      pure (if free then .freeTier else .expired)
    | .notStarted => do
      let free ← effectiveFreeTierEnabled X
      pure (if free then .freeTier else .invalid)

def hasKey (c : Cache) : Bool :=
  match c.licenseKey with
  | some k => k ≠ []
  | none => false

def resolveCurrentState : Code State := do
  let hasPaidMaterial ← readCache fun c => c.lease.isSome || hasKey c
  if hasPaidMaterial then loadState else resolveWithTrial X E .invalid

/-- `derive_state_from_verify_` -/
def deriveStateFromVerify (l : Lease) (vr : VerifyResult) : State :=
  if !vr.isTrusted then .invalid
  else if l.status = ascii "active" then if vr.expired then .expired else .licensed
  else if l.status = ascii "fallback" then .limited
  else .expired

/-- `resolve_from_lease_`: with no lease the raw state stays. -/
def resolveFromLease (lease : Option Lease) : Code State :=
  match lease with
  | none => loadState
  | some l => do
    let now ← nowFn E
    let vr := X.verify l now
    if !vr.isTrusted then pure .invalid
    else if l.status = ascii "active" then pure (if vr.expired then .expired else .licensed)
    else if l.status = ascii "fallback" then pure .limited
    else pure .expired

/-- `save_cache_`: the save mutex spans the snapshot and the write. -/
def saveCache : Code (Result Unit) := do
  lockSave E
  let blob ← .atom fun w => (buildBlob w.client.cache, { w with log := w.log ++ [.snapshot] })
  let r ← storeSave E blob
  unlockSave
  pure r

/-- A field of `none` leaves the cached value alone. -/
structure PersistData where
  leaseJson : Option Bytes
  expiresAt : Option Int64
  instanceId : Option Bytes
  licenseKey : Option Bytes

def PersistData.lease (d : PersistData) : Option Lease :=
  d.leaseJson.bind fun text => ((Json.parse text).bind Lease.fromJson).toOption

def PersistData.events (d : PersistData) : List Event :=
  (d.lease.map Event.leaseCached).toList ++ (d.licenseKey.map Event.keyCached).toList

def PersistData.merge (d : PersistData) (c : Cache) : Cache :=
  { c with
    lease := d.lease.or c.lease
    expiresAt := d.expiresAt.or c.expiresAt
    instanceId := d.instanceId.or c.instanceId
    licenseKey := d.licenseKey.or c.licenseKey }

def persist (d : PersistData) : Code Unit := do
  writeCache d.merge d.events
  let _ ← saveCache E
  pure ()

def saveLastValidatedOnline (t : Int64) : Code Unit := do
  writeCache (fun c => { c with lastValidatedOnline := t }) []
  storeAnchor t
  let _ ← saveCache E
  pure ()

def clearLease : Code Unit := do
  writeCache (fun c => { c with lease := none }) [.leaseDropped]
  let _ ← saveCache E
  pure ()

def loadInstanceId : Code Bytes := readCache fun c => c.instanceId.getD []

def loadLicenseKey : Code Bytes := readCache fun c => c.licenseKey.getD []

def hasStoredLicense : Code Bool := readCache hasKey

def loadLastValidatedOnline : Code Int64 := readCache fun c => c.lastValidatedOnline

/-- The section of `cached_hardware_id_value_` that compares and stores a live id. -/
def noteHardwareId (id : Bytes) : Code Bool :=
  .atom fun w =>
    if w.client.cache.hardwareId ≠ some id then
      (true, { w with client.cache.hardwareId := some id })
    else (false, w)

def nonEmpty (s : Option Bytes) : Option Bytes :=
  match s with
  | some [] => none
  | s => s

def cachedHardwareIdValue : Code (Option Bytes) := do
  let live ← hardwareIdFn E
  match nonEmpty live with
  | some id => do
    let changed ← noteHardwareId id
    if changed then do
      let _ ← saveCache E
      pure (some id)
    else pure (some id)
  | none => readCache fun c => nonEmpty c.hardwareId

/-- `machine_hash_`: the digest of the live id, or of the last one seen. -/
def machineHash : Code (Option Bytes) := do
  let hw ← cachedHardwareIdValue E
  pure (hw.map (MachineId.machineHash X.crypto.sha256Hex X.cfg.tenantId X.cfg.productId))

abbrev Fields := List (Bytes × Bytes)

def optionField (key : Bytes) (text : Option Bytes) : Fields :=
  match text with
  | some t => [(key, jsonStr t)]
  | none => []

def appendAttributionFields (fields : Fields) (includeInstanceId : Bool) : Code Fields := do
  let id ← if includeInstanceId then readCache fun c => nonEmpty c.freeTierInstanceId
    else pure none
  let hash ← machineHash X E
  pure (fields ++ optionField (ascii "free_tier_instance_id") id ++
    optionField (ascii "machine_hash") hash)

/-- The telemetry members in order; an empty value is left out. -/
def telemetry : Fields :=
  [(ascii "sdk_version", jsonStr (ascii "0.2.2")),
   (ascii "platform", jsonStr X.device.platform),
   (ascii "sdk", jsonStr (ascii "cpp")),
   (ascii "sdk_trial_duration_days", decimal X.cfg.trialDurationDays.toInt)] ++
  optionField (ascii "app_version") (nonEmpty (some X.cfg.appVersion)) ++
  optionField (ascii "cpu_cores") (nonEmpty (some X.device.cpuCores)) ++
  optionField (ascii "memory") (nonEmpty (some X.device.memory)) ++
  optionField (ascii "os_version") (nonEmpty (some X.device.osVersion)) ++
  optionField (ascii "arch") (nonEmpty (some X.device.arch))

def buildJson (fields : Fields) (includeTelemetry : Bool) : Bytes :=
  let all := if includeTelemetry then fields ++ telemetry X else fields
  jsonObject (all.map fun kv => jsonMember kv.1 kv.2)

def apiUrl (action : Bytes) : Bytes :=
  (X.cfg.apiBaseUrl.reverse.dropWhile (· = 47)).reverse ++ ascii "/" ++ X.cfg.tenantId ++
    ascii "/" ++ X.cfg.productId ++ ascii "/" ++ action

def jsonHeaders : Code (List (Bytes × Bytes)) := do
  let requestId ← randomRequestId E
  pure ([(ascii "Content-Type", ascii "application/json"),
      (ascii "X-Keylight-Request-Id", requestId)] ++
    if X.cfg.sdkKey = [] then [] else [(ascii "X-Keylight-SDK-Key", X.cfg.sdkKey)])

/-- The worker's own reason when the body carries one, else a status line. -/
def httpErrorMessage (body action : Bytes) (status : Int) : Bytes :=
  let fallback := action ++ ascii " HTTP " ++ decimal status
  if body = [] then fallback
  else
    match Json.parse body with
    | .error _ => fallback
    | .ok j =>
      let err := (j.get (ascii "error")).asString
      let msg := if err = [] then (j.get (ascii "message")).asString else err
      if msg = [] then fallback else msg

def retryAfterOf (r : Result HttpResponse) : Option Nat :=
  match r with
  | .ok resp => (resp.headers.lookup (ascii "retry-after")).bind parseRetryAfter
  | .error _ => none

/-- A transport failure has no status; the policy treats it as a 503. -/
def statusOf (r : Result HttpResponse) : Int :=
  match r with
  | .ok resp => resp.status
  | .error _ => 503

/-- The loop of `request_with_retry_`: `left` attempts remain, `attempt` is the next one. -/
def requestLoop (req : HttpRequest) :
    Nat → Nat → Result HttpResponse → Code (Result HttpResponse)
  | 0, _, last => pure last
  | left + 1, attempt, _ => do
    let last ← transportRequest E req
    if isOk last && !statusRetryable (statusOf last) then pure last
    else
      let d := retryDecide (statusOf last) attempt (retryAfterOf last)
      if !d.retry then pure last
      else do
        sleepFn d.delayMs
        requestLoop req left (attempt + 1) last

def requestWithRetry (method url : Bytes) (headers : List (Bytes × Bytes)) (body : Bytes) :
    Code (Result HttpResponse) :=
  requestLoop E ⟨method, url, headers, body⟩ retryMaxAttempts 1
    (.error ⟨.network, ascii "no attempt made"⟩)

def badResponse (message : Bytes) : Result Unit := .error ⟨.badResponse, message⟩

/-- The part of `verify_config_` after the envelope is known to be complete and fresh. -/
def verifyConfigSignature (j : Json) (pubB64 : Bytes) : Result Unit :=
  let payload := configCanonicalPayload (j.get (ascii "kid")).asString X.cfg.tenantId
    X.cfg.productId (j.get (ascii "issued_at")).asInt (j.get (ascii "expires_at")).asInt
    (j.get (ascii "trial_duration_days")).asInt.toInt32
    (j.get (ascii "free_tier_enabled")).asBool
  let pk := b64DecodeFlexible pubB64
  let sig := b64DecodeFlexible (j.get (ascii "signature")).asString
  if pk.length ≠ 32 ∨ sig.length ≠ 64 then
    badResponse (ascii "config: malformed key or signature")
  else if X.crypto.ed25519Verify payload sig pk then .ok ()
  else badResponse (ascii "config: signature does not verify")

def verifyConfig (j : Json) : Code (Result Unit) :=
  if !X.cfg.requireSignedConfig then pure (.ok ())
  else if !jsonHas j (ascii "trial_duration_days") || !jsonHas j (ascii "free_tier_enabled") then
    pure (badResponse (ascii "config: signed response is missing a covered field"))
  else if (j.get (ascii "kid")).asString = [] ∨ (j.get (ascii "signature")).asString = [] then
    pure (badResponse (ascii "config: unsigned response rejected (requireSignedConfig)"))
  else
    match X.cfg.trustedKeys.lookup (j.get (ascii "kid")).asString with
    | none =>
      pure (badResponse (ascii "config: unknown signing key '" ++
        (j.get (ascii "kid")).asString ++ ascii "'"))
    | some pubB64 => do
      let now ← nowFn E
      let issuedAt := (j.get (ascii "issued_at")).asInt
      let expiresAt := (j.get (ascii "expires_at")).asInt
      -- the skew is added to this side of the comparison, never to the wire value
      if expiresAt ≠ 0 ∧ now - 300 > expiresAt then
        pure (badResponse (ascii "config: signed response has expired"))
      else if issuedAt ≠ 0 ∧ now + 300 < issuedAt then
        pure (badResponse (ascii "config: signed response is not yet valid"))
      else pure (verifyConfigSignature X j pubB64)

/-- An absent field keeps its cached value. -/
def mergeConfig (j : Json) (c : Cache) : Cache :=
  { c with
    serverTrialDays :=
      if jsonHas j (ascii "trial_duration_days") then
        some (j.get (ascii "trial_duration_days")).asInt.toInt32
      else c.serverTrialDays
    serverFreeTier :=
      if jsonHas j (ascii "free_tier_enabled") then
        some (j.get (ascii "free_tier_enabled")).asBool
      else c.serverFreeTier }

def applyConfigFields (j : Json) : Code Bool :=
  if !jsonHas j (ascii "trial_duration_days") && !jsonHas j (ascii "free_tier_enabled") then
    pure false
  else do
    let vr ← verifyConfig X E j
    if !isOk vr then pure false
    else do
      writeCache (mergeConfig j) []
      let _ ← saveCache E
      pure true

/-- The branch of `handle_validate_rejection_` for a lease the decoder accepts. -/
def rejectWithLease (j : Json) (lease : Lease) (now : Int64) : Code State := do
  if (X.verify lease now).isTrusted then do
    let iid ← readCache fun c => c.instanceId
    persist E ⟨some (leaseToJson lease), intOf j (ascii "license_expires_at"), iid, none⟩
    saveLastValidatedOnline E now
  else pure ()
  let paid ← resolveFromLease X E (some lease)
  let newState ← resolveWithTrial X E paid
  setState E newState
  pure newState

/-- The definitive rejection: the lease goes and the trial is not consulted. -/
def revoke : Code State := do
  clearLease E
  setState E .invalid
  pure .invalid

/-- `handle_validate_rejection_`: `none` for a body that does not decode. -/
def handleValidateRejection (body : Bytes) (now : Int64) : Code (Option State) :=
  match Json.parse body with
  | .error _ => pure none
  | .ok j =>
    match leaseOf j with
    | some lease => some <$> rejectWithLease X E j lease now
    | none => some <$> revoke E

def paidFromStore (lease : Option Lease) : Code State :=
  match lease with
  | none => pure .invalid
  | some l => do
    let now ← nowFn E
    pure (deriveStateFromVerify l (X.verify l now))

/-- The offline bound on a cached paid state; it fails closed without a usable anchor. -/
def beyondOfflineBound (anchor now : Int64) : Bool :=
  anchor = 0 || clockRolledBack anchor now || now - anchor > X.cfg.maxOfflineDays.toInt64 * 86400

def boundOffline (paid : State) : Code State :=
  if paid ≠ .invalid ∧ X.cfg.maxOfflineDays > 0 then do
    let anchor ← readCache fun c => c.lastValidatedOnline
    let now ← nowFn E
    pure (if beyondOfflineBound X anchor now then .expired else paid)
  else pure paid

/-- The cache section of `refresh_state_from_store_`, with the atomic mirror it writes. -/
def loadBlob (j : Json) : Code Unit :=
  .modify fun w =>
    { w with
      client.cache := loadCache j w.client.cache
      client.anchor := (intOf j (ascii "lastValidatedOnline")).getD w.client.anchor }

/-- The raw state is stored without an event: nobody can have subscribed yet. -/
def storeInitialState (s : State) : Code Unit :=
  .modify fun w => { w with client.rawState := s }

def refreshStateFromStore : Code Unit := do
  let lr ← storeLoad E
  match lr with
  | .error _ => storeInitialState .invalid
  | .ok [] => storeInitialState .invalid
  | .ok blob =>
    match Json.parse blob with
    | .error _ => storeInitialState .invalid
    | .ok j => do
      loadBlob j
      let paid ← paidFromStore X E (leaseOf j)
      let paid ← boundOffline X E paid
      let s ← resolveWithTrial X E paid
      storeInitialState s

/-- The constructor: a fresh client over the store that is already there. -/
def construct : Code Unit := do
  .modify fun w =>
    { w with client := {}, saveOwner := none, notifyOwner := none, log := w.log ++ [.launched] }
  refreshStateFromStore X E
  let s ← state E
  .modify fun w => { w with client.lastReported := s }

end Client
end Keylight
