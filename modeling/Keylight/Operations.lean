import Keylight.Client

/-!
# The public operations

Each operation is the source's code in its own order. `Op.exec` runs one of them
alone; a `Run` is any sequence of operations, each with its own environment.
-/
namespace Keylight
open Bytes Sections

namespace Client
variable (X : Site) (E : Env)

def instanceName : Bytes :=
  if X.device.machineName = [] then ascii "device" else X.device.machineName

/-- A decoded reply with `activated` true; `lease` is `none` when the reply has no lease object. -/
def activateWith (key : Bytes) (j : Json) (lease : Option Lease) : Code (Result State) := do
  let expiresAt := intOf j (ascii "license_expires_at")
  let instanceId := stringOf j (ascii "instance_id")
  let resolved ← resolveFromLease X E lease
  let newState ← match lease with
    | some l => do
      let now ← nowFn E
      if (X.verify l now).isTrusted then do
        persist E ⟨some (leaseToJson l), expiresAt, instanceId, some key⟩
        let now ← nowFn E
        saveLastValidatedOnline E now
        pure resolved
      else pure resolved
    | none => do
      -- activated without a lease: persist what there is, treat as licensed
      persist E ⟨none, expiresAt, instanceId, some key⟩
      pure .licensed
  let newState ← resolveWithTrial X E newState
  setState E newState
  report E newState

def activateReply (key : Bytes) (j : Json) : Code (Result State) :=
  if !(j.get (ascii "activated")).asBool then do
    let s ← loadState
    report E s
  else if 0 < (j.get (ascii "lease")).size then
    match Lease.fromJson (j.get (ascii "lease")) with
    | .error e => pure (.error e)
    | .ok l => activateWith X E key j (some l)
  else activateWith X E key j none

def activate (key : Bytes) : Code (Result State) := do
  let fields ← appendAttributionFields X E
    [(ascii "license_key", jsonStr key), (ascii "instance_name", jsonStr (instanceName X))] true
  let headers ← jsonHeaders X E
  let hr ← requestWithRetry E (ascii "POST") (apiUrl X (ascii "activate")) headers
    (buildJson X fields true)
  match hr with
  | .error e => pure (.error e)
  | .ok resp =>
    if resp.status ≠ 200 then
      pure (.error ⟨.http, httpErrorMessage resp.body (ascii "activate") resp.status⟩)
    else
      match Json.parse resp.body with
      | .error _ => pure (.error ⟨.badResponse, ascii "activate: invalid JSON"⟩)
      | .ok j => activateReply X E key j

/-- The request both validation paths send. -/
def validateRequest (licenseKey instanceId : Bytes) : Code (Result HttpResponse) := do
  let fields ← appendAttributionFields X E
    [(ascii "license_key", jsonStr licenseKey), (ascii "instance_id", jsonStr instanceId)] false
  let headers ← jsonHeaders X E
  requestWithRetry E (ascii "POST") (apiUrl X (ascii "validate")) headers
    (buildJson X fields true)

/-- A decoded 200 reply in `validate`; the anchor is a clock reading of its own. -/
def validateReply (j : Json) : Code (Result State) := do
  let _ ← applyConfigFields X E j
  match leaseOf j with
  | some l => do
    let now ← nowFn E
    if (X.verify l now).isTrusted then do
      let iid ← readCache fun c => c.instanceId
      persist E ⟨some (leaseToJson l), intOf j (ascii "license_expires_at"), iid, none⟩
      let now ← nowFn E
      saveLastValidatedOnline E now
    else pure ()
  | none => pure ()
  let paid ← resolveFromLease X E (leaseOf j)
  let newState ← resolveWithTrial X E paid
  setState E newState
  report E newState

def keepState : Code (Result State) := do
  let s ← loadState
  report E s

def validate : Code (Result State) := do
  notify E
  let licenseKey ← loadLicenseKey
  let instanceId ← loadInstanceId
  let hr ← validateRequest X E licenseKey instanceId
  match hr with
  | .error _ => keepState E
  | .ok resp =>
    if resp.status ≠ 200 then
      if resp.status = 422 then do
        let now ← nowFn E
        let rejected ← handleValidateRejection X E resp.body now
        match rejected with
        | some s => report E s
        | none => keepState E
      else keepState E
    else
      match Json.parse resp.body with
      | .error _ => keepState E
      | .ok j => validateReply X E j

/-- The reset section; it answers whether a trial stamp is kept. -/
def resetPaid : Code Bool :=
  .atom fun w => (w.client.cache.trialStart.isSome,
    { w with
      client.cache := { w.client.cache with
        lease := none
        expiresAt := none
        instanceId := none
        licenseKey := none
        lastValidatedOnline := 0 }
      client.anchor := 0
      log := w.log ++ [.paidReset] })

def requestDeactivate (licenseKey instanceId : Bytes) : Code (Option Error) :=
  if instanceId = [] then pure none
  else do
    let headers ← jsonHeaders X E
    let hr ← requestWithRetry E (ascii "POST") (apiUrl X (ascii "deactivate")) headers
      (buildJson X [(ascii "license_key", jsonStr licenseKey),
        (ascii "instance_id", jsonStr instanceId)] false)
    match hr with
    | .error e => pure (some e)
    | .ok resp =>
      if resp.status ≠ 200 then
        pure (some ⟨.http, httpErrorMessage resp.body (ascii "deactivate") resp.status⟩)
      else pure none

/-- The trial stamp survives in a rewritten blob; without one the store is cleared. -/
def updateStore (keepTrial : Bool) : Code (Result Unit) :=
  if keepTrial then saveCache E else storeClear E

def deactivate : Code (Result Unit) := do
  let instanceId ← loadInstanceId
  let licenseKey ← loadLicenseKey
  let serverError ← requestDeactivate X E licenseKey instanceId
  let keepTrial ← resetPaid
  let r ← updateStore E keepTrial
  match r with
  | .error e => pure (.error e)
  | .ok () => do
    let s ← resolveWithTrial X E .invalid
    setState E s
    match serverError with
    | some e => pure (.error e)
    | none => pure (.ok ())

def fetchConfig : Code (Result Unit) := do
  let headers ← jsonHeaders X E
  let hr ← requestWithRetry E (ascii "GET") (apiUrl X (ascii "config")) headers []
  match hr with
  | .error e => pure (.error e)
  | .ok resp =>
    if resp.status ≠ 200 then
      pure (.error ⟨.http, httpErrorMessage resp.body (ascii "config") resp.status⟩)
    else
      match Json.parse resp.body with
      | .error _ => pure (.error ⟨.badResponse, ascii "config: undecodable body"⟩)
      | .ok j => do
        let vr ← verifyConfig X E j
        match vr with
        | .error e => pure (.error e)
        | .ok () => do
          let _ ← applyConfigFields X E j
          let s ← resolveCurrentState X E
          setState E s
          pure (.ok ())

/-- Minted on first use, in one section; `none` says that the id is new. -/
def mintFreeTierInstanceId : Code (Option Bytes) :=
  .atom fun w =>
    match w.client.cache.freeTierInstanceId with
    | some id => (some id, w)
    | none => (none,
      { w with
        client.cache.freeTierInstanceId := some (uuidV4 (E.uuid w.ticks.uuid))
        ticks.uuid := w.ticks.uuid + 1 })

def freeTierInstanceId : Code Bytes := do
  let known ← mintFreeTierInstanceId E
  match known with
  | some id => pure id
  | none => do
    let r ← saveCache E
    if !isOk r then do
      writeCache (fun c => { c with freeTierInstanceId := none }) []
      pure []
    else readCache fun c => c.freeTierInstanceId.getD []

/-- The debounce of the beacon: a changed state always sends. -/
def keylessDebounced (wire : Bytes) : Code Bool := do
  let c ← readCache fun c => c
  if c.lastKeylessPingAt ≠ 0 then do
    let now ← nowFn E
    pure (c.keylessLastState = some wire && now - c.lastKeylessPingAt < 86400)
  else pure false

/-- An unlicensed install learns the server's settings from the beacon's reply. -/
def absorbSettings (body : Bytes) : Code Bool :=
  match Json.parse body with
  | .ok j => applyConfigFields X E j
  | .error _ => pure false

/-- The end of the beacon after a 200: only a real reply arms the debounce. -/
def keylessReply (wire body : Bytes) : Code Unit := do
  let absorbed ← absorbSettings X E body
  let now ← nowFn E
  writeCache (fun c => { c with keylessLastState := some wire, lastKeylessPingAt := now }) []
  let _ ← saveCache E
  if absorbed then do
    let s ← resolveCurrentState X E
    setState E s
  else pure ()

def reportKeylessState (state : KeylessState) : Code Unit := do
  let wire := keylessStateWire state
  let debounced ← keylessDebounced E wire
  if debounced then pure ()
  else do
    let instanceId ← freeTierInstanceId E
    if instanceId = [] then pure ()
    else do
      let hash ← machineHash X E
      let headers ← jsonHeaders X E
      let hr ← requestWithRetry E (ascii "POST") (apiUrl X (ascii "keyless")) headers
        (buildJson X ([(ascii "instance_id", jsonStr instanceId),
          (ascii "state", jsonStr wire)] ++ optionField (ascii "machine_hash") hash) true)
      match hr with
      | .error _ => pure ()
      | .ok resp =>
        if resp.status ≠ 200 then pure ()
        else keylessReply X E wire resp.body

/-- One section: a stamp is never overwritten, and is written even when trials are off. -/
def stampTrial : Code Bool :=
  .atom fun w =>
    match w.client.cache.trialStart with
    | some _ => (false, w)
    | none => (true,
      { w with
        client.cache.trialStart := some (E.now w.ticks.now)
        ticks.now := w.ticks.now + 1 })

def startTrial : Code (Result State) := do
  let started ← stampTrial E
  if started then do
    let _ ← saveCache E
    pure ()
  else pure ()
  let _ ← freeTierInstanceId E
  let newState ← resolveCurrentState X E
  setState E newState
  report E newState

/-- A licensed state that grace cannot carry becomes expired. -/
def downgrade : Code State := do
  let current ← loadState
  if current = .licensed then do
    setState E .expired
    pure .expired
  else pure current

/-- `apply_offline_grace_`: the lease's raw expiry, then the offline window. -/
def applyOfflineGrace (now lastLvo : Int64) : Code State := do
  let leaseRawExpired ← readCache fun c =>
    match c.lease with
    | none => true
    | some l => decide (now > l.expiresAt)
  if leaseRawExpired then downgrade E
  else if X.cfg.maxOfflineDays ≤ 0 then loadState
  else if lastLvo > 0 ∧ now - lastLvo ≤ X.cfg.maxOfflineDays.toInt64 * 86400 then loadState
  else downgrade E

/-- A decoded 200 reply in `validate_and_reconcile_`; the anchor is the reading at entry. -/
def reconcileReply (j : Json) (now : Int64) : Code State := do
  let _ ← applyConfigFields X E j
  match leaseOf j with
  | some l => do
    let t ← nowFn E
    if (X.verify l t).isTrusted then do
      let iid ← readCache fun c => c.instanceId
      persist E ⟨some (leaseToJson l), intOf j (ascii "license_expires_at"), iid, none⟩
      saveLastValidatedOnline E now
    else pure ()
  | none => pure ()
  let paid ← resolveFromLease X E (leaseOf j)
  let newState ← resolveWithTrial X E paid
  setState E newState
  pure newState

def validateAndReconcile : Code (Result State) := do
  let now ← nowFn E
  let lastLvo ← loadLastValidatedOnline
  let licenseKey ← loadLicenseKey
  let instanceId ← loadInstanceId
  let hr ← validateRequest X E licenseKey instanceId
  match hr with
  | .error _ => .ok <$> applyOfflineGrace X E now lastLvo
  | .ok resp =>
    if resp.status ≠ 200 then
      if resp.status = 422 then do
        let rejected ← handleValidateRejection X E resp.body now
        match rejected with
        | some s => pure (.ok s)
        | none => .ok <$> applyOfflineGrace X E now lastLvo
      else .ok <$> applyOfflineGrace X E now lastLvo
    else
      match Json.parse resp.body with
      | .error _ => .ok <$> applyOfflineGrace X E now lastLvo
      | .ok j => .ok <$> reconcileReply X E j now

/-- Without a stored key there is nothing to revalidate: the local trial decides. -/
def resolveLocally : Code (Result State) := do
  let newState ← resolveCurrentState X E
  setState E newState
  report E newState

def checkOnLaunch : Code (Result State) := do
  let stored ← hasStoredLicense
  if stored then do
    let r ← validateAndReconcile X E
    reportResult E r
  else resolveLocally X E

def refreshDebounce : Int64 := 300
def refreshStale : Int64 := 21600
def nearExpirySecs : Int64 := 86400

def nearExpiry (now : Int64) (c : Cache) : Bool :=
  match c.lease with
  | none => false
  | some l => l.expiresAt - now < nearExpirySecs

def refreshIfNeeded : Code (Result State) := do
  notify E
  let stored ← hasStoredLicense
  if stored then do
    let now ← nowFn E
    let lastLvo ← loadLastValidatedOnline
    if lastLvo > 0 ∧ now - lastLvo < refreshDebounce then keepState E
    else do
      let near ← readCache (nearExpiry now)
      if ¬lastLvo > 0 ∨ now - lastLvo ≥ refreshStale ∨ near then do
        let r ← validateAndReconcile X E
        reportResult E r
      else keepState E
  else resolveLocally X E

/-- Debounced to a minute; the window is not persisted. -/
def activeRevalidate : Code Bool := do
  let stored ← hasStoredLicense
  if stored then do
    let now ← nowFn E
    let recent ← .atom fun w =>
      if w.client.lastActiveRevalidateAt ≠ 0 ∧ now - w.client.lastActiveRevalidateAt < 60 then
        (true, w)
      else (false, { w with client.lastActiveRevalidateAt := now })
    if recent then pure false
    else do
      let _ ← validate X E
      pure true
  else pure false

/-- The clock guard at reading `t`. -/
def untrustedAt (c : Client) (t : Int64) : Bool := c.anchor ≠ 0 && clockRolledBack c.anchor t

/-- `state()` at reading `t`. -/
def stateAt (c : Client) (t : Int64) : State := if c.untrustedAt t then .invalid else c.rawState

/-- `hasEntitlement` at reading `t`. -/
def entitledAt (c : Client) (feature : Bytes) (t : Int64) : Bool :=
  if c.untrustedAt t then false
  else
    match c.cache.lease with
    | none => false
    | some l =>
      let vr := X.verify l t
      if !vr.isTrusted || vr.expired || l.status = ascii "expired" then false
      else l.entitlements.contains feature

end Client

inductive Op where
  | relaunch
  | activate (key : Bytes)
  | validate
  | deactivate
  | checkOnLaunch
  | refreshIfNeeded
  | activeRevalidate
  | startTrial
  | fetchConfig
  | freeTierInstanceId
  | reportKeylessState (s : KeylessState)
  deriving DecidableEq

def Op.code (X : Site) (E : Env) : Op → Code Unit
  | .relaunch => Client.construct X E
  | .activate key => do let _ ← Client.activate X E key
  | .validate => do let _ ← Client.validate X E
  | .deactivate => do let _ ← Client.deactivate X E
  | .checkOnLaunch => do let _ ← Client.checkOnLaunch X E
  | .refreshIfNeeded => do let _ ← Client.refreshIfNeeded X E
  | .activeRevalidate => do let _ ← Client.activeRevalidate X E
  | .startTrial => do let _ ← Client.startTrial X E
  | .fetchConfig => do let _ ← Client.fetchConfig X E
  | .freeTierInstanceId => do let _ ← Client.freeTierInstanceId E
  | .reportKeylessState s => Client.reportKeylessState X E s

/-- The operations that can send a validation request. -/
def Op.validates : Op → Bool
  | .validate => true
  | .checkOnLaunch => true
  | .refreshIfNeeded => true
  | .activeRevalidate => true
  | _ => false

/-- The operations that apply the offline grace after a transient failure. -/
def Op.graces : Op → Bool
  | .checkOnLaunch => true
  | .refreshIfNeeded => true
  | _ => false

/-- The operations of the keyless side. -/
def Op.keyless : Op → Bool
  | .startTrial => true
  | .fetchConfig => true
  | .reportKeylessState _ => true
  | _ => false

/-- The operations that read the server's settings from a reply. -/
def Op.configures (op : Op) : Bool :=
  op.validates || match op with
    | .fetchConfig => true
    | .reportKeylessState _ => true
    | _ => false

/-- One call run to its end, with the inputs of `E` read from the start. -/
def Op.exec (X : Site) (E : Env) (op : Op) (w : World) : World :=
  ((op.code X E).run { w with ticks := {} }).2

/-- A call is the run of its operation, whose answer it drops. -/
theorem run_ignored (p : Code α) (w : World) :
    ((do let _ ← p; pure () : Code Unit).run w).2 = (p.run w).2 := by
  rw [Prog.run_bind, Prog.run_pure]

end Keylight
