import Keylight.Operations

/-!
# Replies

What the retry loop settles on is a function of the transport's answers alone,
and each operation acts on a reply through its verdict. `validate` and
`validateAndReconcile` are brought to one shape: a request, then a match on the
verdict of its reply.
-/
namespace Keylight
open Bytes Sections

/-- The reply the retry loop returns when the transport's next answer is number `i`. -/
def settledReply (request : Nat → Result HttpResponse) :
    Nat → Nat → Nat → Result HttpResponse → Result HttpResponse
  | 0, _, _, last => last
  | left + 1, attempt, i, _ =>
    let last := request i
    if isOk last && !statusRetryable (Client.statusOf last) then last
    else if !(retryDecide (Client.statusOf last) attempt (Client.retryAfterOf last)).retry then last
    else settledReply request left (attempt + 1) (i + 1) last

/-- The reply of a request whose first attempt is the transport's answer number `i`. -/
def Env.replyAt (E : Env) (i : Nat) : Result HttpResponse :=
  settledReply E.request retryMaxAttempts 1 i (.error ⟨.network, ascii "no attempt made"⟩)

/-- The reply of an operation run from its first input. -/
def Env.reply (E : Env) : Result HttpResponse := E.replyAt 0

/-- What a validation reply says. -/
inductive Verdict where
  | transient
  | undecodable
  | denied
  | rejectedLease (j : Json) (l : Lease)
  | renewed (j : Json) (l : Lease)
  | leaseless (j : Json)

/-- The lease that the reply's handler looks at. -/
def Verdict.lease : Verdict → Option Lease
  | .rejectedLease _ l => some l
  | .renewed j _ => leaseOf j
  | .leaseless j => leaseOf j
  | _ => none

/-- The body that the reply's handler reads settings from. -/
def Verdict.settings : Verdict → Option Json
  | .renewed j _ => some j
  | .leaseless j => some j
  | _ => none

def validationVerdict : Result HttpResponse → Verdict
  | .error _ => .transient
  | .ok resp =>
    if resp.status ≠ 200 then
      if resp.status = 422 then
        match Json.parse resp.body with
        | .error _ => .undecodable
        | .ok j =>
          match leaseOf j with
          | some l => .rejectedLease j l
          | none => .denied
      else .transient
    else
      match Json.parse resp.body with
      | .error _ => .transient
      | .ok j =>
        match leaseOf j with
        | some l => .renewed j l
        | none => .leaseless j

/-- What an activation reply says. -/
inductive ActivationVerdict where
  | refused
  | bare (j : Json)
  | leased (j : Json) (l : Lease)

def activationVerdict : Result HttpResponse → ActivationVerdict
  | .error _ => .refused
  | .ok resp =>
    if resp.status ≠ 200 then .refused
    else
      match Json.parse resp.body with
      | .error _ => .refused
      | .ok j =>
        if !(j.get (ascii "activated")).asBool then .refused
        else if 0 < (j.get (ascii "lease")).size then
          match Lease.fromJson (j.get (ascii "lease")) with
          | .error _ => .refused
          | .ok l => .leased j l
        else .bare j

namespace Client
variable (X : Site) (E : Env)

theorem requestLoop_reply (req : HttpRequest) (left attempt : Nat) (last : Result HttpResponse)
    (w : World) : ((requestLoop E req left attempt last).run w).1 =
      settledReply E.request left attempt w.ticks.request last := by
  induction left generalizing attempt last w with
  | zero => rfl
  | succ left ih =>
    simp only [requestLoop, settledReply, transportRequest, sleepFn, Prog.run_bind,
      Prog.run_atom, Prog.run_ite, Prog.run_pure, Prog.run_modify]
    split
    · rfl
    · split
      · rfl
      · exact ih _ _ _

@[simp] theorem requestWithRetry_reply (method url : Bytes) (headers : List (Bytes × Bytes))
    (body : Bytes) (w : World) :
    ((requestWithRetry E method url headers body).run w).1 = E.replyAt w.ticks.request :=
  requestLoop_reply E _ _ _ _ w

/-- Each attempt is logged before the loop can return it. -/
theorem requestLoop_appends (req : HttpRequest) (left attempt : Nat) (last : Result HttpResponse)
    (w : World) : ∃ es, ((requestLoop E req left attempt last).run w).2.log = w.log ++ es ∧
      (Event.exchange req ((requestLoop E req left attempt last).run w).1 ∈ es ∨
        left = 0 ∧ ((requestLoop E req left attempt last).run w).1 = last) := by
  induction left generalizing attempt last w with
  | zero => exact ⟨[], by simp [requestLoop], .inr ⟨rfl, rfl⟩⟩
  | succ left ih =>
    simp only [requestLoop, transportRequest, sleepFn, Prog.run_bind, Prog.run_atom,
      Prog.run_ite, Prog.run_pure, Prog.run_modify]
    split
    · exact ⟨_, rfl, .inl (.head _)⟩
    · split
      · exact ⟨_, rfl, .inl (.head _)⟩
      · obtain ⟨es, hlog, hmem⟩ := ih (attempt + 1) (E.request w.ticks.request) _
        refine ⟨[.exchange req (E.request w.ticks.request)] ++
          [.slept (retryDecide (statusOf (E.request w.ticks.request)) attempt
            (retryAfterOf (E.request w.ticks.request))).delayMs] ++ es, ?_, .inl ?_⟩
        · rw [hlog]
          simp only [List.append_assoc]
        · obtain hmem | ⟨-, hlast⟩ := hmem
          · exact List.mem_append_right _ hmem
          · rw [hlast]
            exact .head _

/-- A request appends the exchange whose reply it returns. -/
theorem requestWithRetry_appends (method url : Bytes) (headers : List (Bytes × Bytes))
    (body : Bytes) (w : World) :
    ∃ es, ((requestWithRetry E method url headers body).run w).2.log = w.log ++ es ∧
      Event.exchange ⟨method, url, headers, body⟩ (E.replyAt w.ticks.request) ∈ es := by
  obtain ⟨es, hlog, hmem⟩ := requestLoop_appends E ⟨method, url, headers, body⟩
    retryMaxAttempts 1 (.error ⟨.network, ascii "no attempt made"⟩) w
  refine ⟨es, hlog, ?_⟩
  rw [← requestWithRetry_reply E method url headers body w]
  obtain hmem | ⟨hzero, -⟩ := hmem
  · exact hmem
  · exact absurd hzero (by decide)

theorem requestWithRetry_logged (method url : Bytes) (headers : List (Bytes × Bytes))
    (body : Bytes) (w : World) :
    Event.exchange ⟨method, url, headers, body⟩ (E.replyAt w.ticks.request) ∈
      ((requestWithRetry E method url headers body).run w).2.log := by
  obtain ⟨es, hlog, hmem⟩ := requestWithRetry_appends E method url headers body w
  rw [hlog]
  exact List.mem_append_right _ hmem

/-- What `validate` does with a verdict. -/
def settleValidate : Verdict → Code (Result State)
  | .transient => keepState E
  | .undecodable => do
    let _ ← nowFn E
    keepState E
  | .denied => do
    let _ ← nowFn E
    let s ← revoke E
    report E s
  | .rejectedLease j l => do
    let now ← nowFn E
    let s ← rejectWithLease X E j l now
    report E s
  | .renewed j _ => validateReply X E j
  | .leaseless j => validateReply X E j

/-- What `validateAndReconcile` does with a verdict. -/
def settleReconcile (now lastLvo : Int64) : Verdict → Code State
  | .transient => applyOfflineGrace X E now lastLvo
  | .undecodable => applyOfflineGrace X E now lastLvo
  | .denied => revoke E
  | .rejectedLease j l => rejectWithLease X E j l now
  | .renewed j _ => reconcileReply X E j now
  | .leaseless j => reconcileReply X E j now

/-- `validate` as a request and the settling of its verdict. -/
theorem validate_eq : validate X E = (do
    notify E
    let licenseKey ← loadLicenseKey
    let instanceId ← loadInstanceId
    let hr ← validateRequest X E licenseKey instanceId
    settleValidate X E (validationVerdict hr)) := by
  unfold validate
  congr 1; funext _; congr 1; funext _; congr 1; funext _; congr 1; funext hr
  cases hr with
  | error e => rfl
  | ok resp =>
    simp only [validationVerdict]
    split
    · split
      · unfold handleValidateRejection
        cases Json.parse resp.body with
        | error e => simp only [pure_bind, settleValidate]
        | ok j => cases hl : leaseOf j <;> simp [settleValidate, hl]
      · rfl
    · cases Json.parse resp.body with
      | error e => rfl
      | ok j => cases hl : leaseOf j <;> simp [settleValidate, hl]

/-- The shared validation in the same form. -/
theorem validateAndReconcile_eq : validateAndReconcile X E = (do
    let now ← nowFn E
    let lastLvo ← loadLastValidatedOnline
    let licenseKey ← loadLicenseKey
    let instanceId ← loadInstanceId
    let hr ← validateRequest X E licenseKey instanceId
    .ok <$> settleReconcile X E now lastLvo (validationVerdict hr)) := by
  unfold validateAndReconcile
  congr 1; funext now; congr 1; funext lastLvo; congr 1; funext _; congr 1; funext _
  congr 1; funext hr
  cases hr with
  | error e => rfl
  | ok resp =>
    simp only [validationVerdict]
    split
    · split
      · unfold handleValidateRejection
        cases Json.parse resp.body with
        | error e => simp only [pure_bind, settleReconcile]
        | ok j => cases hl : leaseOf j <;> simp [settleReconcile, hl]
      · rfl
    · cases Json.parse resp.body with
      | error e => rfl
      | ok j => cases hl : leaseOf j <;> simp [settleReconcile, hl]

/-- What `activate` does with a reply. -/
def settleActivate (key : Bytes) : Result HttpResponse → Code (Result State)
  | .error e => pure (.error e)
  | .ok resp =>
    if resp.status ≠ 200 then
      pure (.error ⟨.http, httpErrorMessage resp.body (ascii "activate") resp.status⟩)
    else
      match Json.parse resp.body with
      | .error _ => pure (.error ⟨.badResponse, ascii "activate: invalid JSON"⟩)
      | .ok j => activateReply X E key j

theorem activate_eq (key : Bytes) : activate X E key = (do
    let fields ← appendAttributionFields X E
      [(ascii "license_key", jsonStr key), (ascii "instance_name", jsonStr (instanceName X))] true
    let headers ← jsonHeaders X E
    let hr ← requestWithRetry E (ascii "POST") (apiUrl X (ascii "activate")) headers
      (buildJson X fields true)
    settleActivate X E key hr) := rfl

end Client
end Keylight
