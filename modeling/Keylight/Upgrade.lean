import Mathlib.Data.List.Sort
import Keylight.Attempts
import Keylight.Revocation
import Keylight.Turns

/-!
# Polling after an upgrade

`refreshAfterUpgrade` validates until the entitlements or the raw state change,
or until the deadline passes between two polls. The pauses of the retries inside
a poll come from the server; `refreshAfterUpgrade_bound_iff` says when they keep
within the timeout and one interval.
-/
namespace Keylight
open Bytes Sections Client

/-- The entitlements of the cached lease, in byte order. -/
def sortedEntitlements (c : Cache) : List Bytes :=
  ((c.lease.map Lease.entitlements).getD []).insertionSort (· ≤ ·)

namespace Client
variable (X : Site) (E : Env)

/-- The polling loop, with a bound on the number of polls; `none` when it runs out. -/
def pollUpgrade (before : List Bytes) (beforeState : State) (interval : Nat) (deadline : Int64) :
    Nat → Code (Option Bool)
  | 0 => pure none
  | polls + 1 => do
    let _ ← validate X E
    let after ← readCache sortedEntitlements
    let s ← loadState
    if after ≠ before ∨ s ≠ beforeState then pure (some true)
    else do
      let now ← nowFn E
      if now ≥ deadline then pure (some false)
      else do
        sleepFn interval
        pollUpgrade before beforeState interval deadline polls

/-- A non-positive interval would spin. -/
def pollInterval (pollIntervalMs : Int32) : Nat :=
  if pollIntervalMs > 0 then pollIntervalMs.toInt.toNat else 100

/-- The timeout in the clock's whole seconds. -/
def timeoutSeconds (timeoutMs : Int32) : Int64 :=
  if timeoutMs > 0 then (timeoutMs / 1000).toInt64 else 0

def refreshAfterUpgrade (polls : Nat) (timeoutMs pollIntervalMs : Int32) : Code (Option Bool) := do
  let stored ← hasStoredLicense
  if !stored then pure (some false)
  else do
    let before ← readCache sortedEntitlements
    let beforeState ← loadState
    let now ← nowFn E
    pollUpgrade X E before beforeState (pollInterval pollIntervalMs)
      (now + timeoutSeconds timeoutMs) polls

end Client

/-- The time slept so far. -/
def World.slept (w : World) : Nat := (sleeps w.log).sum

/-- The pauses of a request whose first attempt gets answer `t`. -/
def pausesFrom (request : Nat → Result HttpResponse) : Nat → Nat → Nat → List Nat
  | 0, _, _ => []
  | left + 1, attempt, t =>
    if definitive (request t) then []
    else retryDelay attempt (request t) :: pausesFrom request left (attempt + 1) (t + 1)

/-- The time a request sleeps whose first attempt gets answer `t`. -/
def retryPause (request : Nat → Result HttpResponse) (t : Nat) : Nat :=
  (pausesFrom request 2 1 t).sum

/-- The pauses of a request that ends at attempt `n`. -/
theorem pausesFrom_eq (request : Nat → Result HttpResponse) {left n : Nat} (attempt t : Nat)
    (hn : n ≤ left) (hretried : ∀ i < n, definitive (request (t + i)) = false)
    (hstop : definitive (request (t + n)) ∨ n = left) : pausesFrom request left attempt t =
      (List.range n).map fun i => retryDelay (attempt + i) (request (t + i)) := by
  induction left generalizing n attempt t with
  | zero =>
    obtain rfl := Nat.le_zero.mp hn
    rfl
  | succ left ih =>
    cases n with
    | zero =>
      have hdef := hstop.resolve_right (Nat.succ_ne_zero left).symm
      rw [Nat.add_zero] at hdef
      rw [pausesFrom, if_pos hdef]
      rfl
    | succ n =>
      have hfirst := hretried 0 (Nat.succ_pos n)
      rw [Nat.add_zero] at hfirst
      rw [pausesFrom, hfirst, if_neg Bool.false_ne_true, ih (n := n) (attempt + 1) (t + 1)
        (Nat.le_of_succ_le_succ hn) ?_ ?_]
      · rw [List.range_succ_eq_map, List.map_cons, List.map_map]
        simp only [Function.comp_def, Nat.succ_eq_add_one, Nat.add_zero, Nat.add_assoc,
          Nat.add_comm 1]
      · intro i hi
        rw [Nat.add_assoc, Nat.add_comm 1]
        exact hretried (i + 1) (Nat.succ_lt_succ hi)
      · rw [Nat.add_assoc, Nat.add_comm 1]
        exact hstop.imp_right Nat.succ.inj

theorem pausesFrom_definitive {request : Nat → Result HttpResponse} (left attempt : Nat) {t : Nat}
    (h : definitive (request t) = true) : pausesFrom request left attempt t = [] := by
  cases left with
  | zero => rfl
  | succ left => rw [pausesFrom, if_pos h]

theorem Hushed.slept {w v : World} (h : Hushed w v) : v.slept = w.slept :=
  congrArg List.sum h.sleeps

theorem Leads.hushed {p : Code α} {k : α → Code β} (hp : Leads Hushed p)
    (hk : ∀ a, Leads Hushed (k a)) : Leads Hushed (p >>= k) := hp.bind hk Hushed.trans

namespace Client
variable {X : Site} {E : Env}

/-- A request sleeps for its pauses. -/
theorem requestWithRetry_slept (method url : Bytes) (headers : List (Bytes × Bytes)) (body : Bytes)
    (w : World) : ((requestWithRetry E method url headers body).run w).2.slept =
      w.slept + retryPause E.request w.ticks.request := by
  obtain ⟨n, hn, hretried, hstop, -, hworld⟩ := requestLoop_attempts E
    ⟨method, url, headers, body⟩ 2 1 (.error ⟨.network, ascii "no attempt made"⟩) w
    (Nat.le_refl 1) rfl
  have hsleeps : sleeps ((requestWithRetry E method url headers body).run w).2.log =
      sleeps w.log ++ pausesFrom E.request 2 1 w.ticks.request := by
    change sleeps (((requestLoop E ⟨method, url, headers, body⟩ (2 + 1) 1 _).run w).2).log = _
    rw [hworld, sleeps_append, sleeps_append, sleeps_retriesLogged, sleeps_exchange,
      List.append_nil, pausesFrom_eq E.request 1 w.ticks.request hn hretried hstop]
  rw [World.slept, hsleeps, List.sum_append]
  rfl

theorem hushes {p : Code α} (h : Routinely p) : Leads Hushed p := fun w => (h.run w).toHushed

theorem hushes_writeCache (f : Cache → Cache) {es : List Event} (hes : sleeps es = []) :
    Leads Hushed (Keylight.writeCache f es) := by
  intro w
  refine ⟨rfl, ?_, Nat.le_refl _⟩
  exact (sleeps_append _ _).trans (by rw [hes, List.append_nil])

theorem hushes_announce (ev : Option LifecycleEvent) : Leads Hushed (match ev with
    | some ev => notifyLifecycle ev
    | none => pure ()) := by
  intro w
  cases ev with
  | none => exact .refl w
  | some ev => exact ⟨rfl, (sleeps_append _ _).trans (List.append_nil _), Nat.le_refl _⟩

theorem hushes_setState (s : State) : Leads Hushed (setState E s) := by
  have hlast : ∀ expiry, Leads Hushed (.atom fun w =>
      (movedLater expiry w.client.lastSeenExpiry,
        { w with client.lastSeenExpiry := expiry })) := fun _ w => ⟨rfl, rfl, Nat.le_refl _⟩
  have hstore : Leads Hushed (storeState s) := fun w =>
    ⟨rfl, (sleeps_append _ _).trans (List.append_nil _), Nat.le_refl _⟩
  refine .hushed (hushes (.read _)) fun prev => .hushed (hushes (.read _)) fun expiry =>
    .hushed (hlast expiry) fun later => hstore.hushed fun _ =>
      .hushed (hushes (routinely_notify E)) fun _ => ?_
  exact hushes_announce _

theorem hushes_persist (d : PersistData) : Leads Hushed (persist E d) := by
  have hevents : sleeps d.events = [] := by
    unfold PersistData.events
    cases d.lease <;> cases d.licenseKey <;> rfl
  exact (hushes_writeCache _ hevents).hushed fun _ =>
    hushes (.bind (routinely_saveCache E) fun _ => .pure _)

theorem hushes_saveLastValidatedOnline (t : Int64) :
    Leads Hushed (saveLastValidatedOnline E t) := by
  have hanchor : Leads Hushed (storeAnchor t) := fun w => ⟨rfl, rfl, Nat.le_refl _⟩
  exact (hushes_writeCache _ rfl).hushed fun _ => hanchor.hushed fun _ =>
    hushes (.bind (routinely_saveCache E) fun _ => .pure _)

theorem hushes_resolveAndSet (lease : Option Lease) : Leads Hushed (resolveAndSet X E lease) :=
  .hushed (hushes (routinely_resolveFromLease X E lease)) fun _ =>
    .hushed (hushes (routinely_resolveWithTrial X E _)) fun _ =>
      .hushed (hushes_setState _) fun _ => hushes (.pure _)

theorem hushes_keepTrusted (l : Lease) {p : Code Unit} (hp : Leads Hushed p) :
    Leads Hushed (do
      if X.trusts l then p else pure ()
      resolveAndSet X E (some l)) := by
  cases X.trusts l with
  | true => exact hp.hushed fun _ => hushes_resolveAndSet _
  | false => exact hushes_resolveAndSet _

theorem hushes_rejectWithLease (j : Json) (l : Lease) (now : Int64) :
    Leads Hushed (rejectWithLease X E j l now) := by
  rw [rejectWithLease_eq]
  exact hushes_keepTrusted l (.hushed (hushes (.read _)) fun _ => .hushed (hushes_persist _)
    fun _ => hushes_saveLastValidatedOnline _)

theorem hushes_validateReply (j : Json) : Leads Hushed (validateReply X E j) := by
  rw [validateReply_eq]
  refine .hushed (.hushed (hushes (routinely_applyConfigFields X E j)) fun _ => ?_) fun _ =>
    hushes (routinely_report E _)
  cases leaseOf j with
  | none => exact hushes_resolveAndSet none
  | some l =>
    exact .hushed (hushes (routinely_nowFn E)) fun _ => hushes_keepTrusted l
      (.hushed (hushes (.read _)) fun _ => .hushed (hushes_persist _) fun _ =>
        .hushed (hushes (routinely_nowFn E)) fun _ => hushes_saveLastValidatedOnline _)

/-- Settling a verdict sleeps for nothing. -/
theorem hushes_settleValidate (v : Verdict) : Leads Hushed (settleValidate X E v) := by
  have hreport : ∀ s, Leads Hushed (report E s) := fun s => hushes (routinely_report E s)
  cases v with
  | transient => exact hushes (routinely_keepState E)
  | undecodable =>
    exact .hushed (hushes (routinely_nowFn E)) fun _ => hushes (routinely_keepState E)
  | denied =>
    refine .hushed (hushes (routinely_nowFn E)) fun _ => .hushed ?_ hreport
    exact .hushed (hushes (routinely_clearLease E)) fun _ => .hushed (hushes_setState _) fun _ =>
      hushes (.pure _)
  | rejectedLease j l =>
    exact .hushed (hushes (routinely_nowFn E)) fun now =>
      .hushed (hushes_rejectWithLease j l now) hreport
  | renewed j l => exact hushes_validateReply j
  | leaseless j => exact hushes_validateReply j

/-- A validation sleeps for its one request. -/
theorem validate_slept (w : World) : ((validate X E).run w).2.slept =
    w.slept + retryPause E.request w.ticks.request := by
  have hnotify := hushes (routinely_notify E) w
  have hrequest : ∀ key id, ∀ u : World, ((validateRequest X E key id).run u).2.slept =
      u.slept + retryPause E.request u.ticks.request := by
    intro key id u
    have hask := (hushes (routinely_appendAttributionFields X E
      [(ascii "license_key", jsonStr key), (ascii "instance_id", jsonStr id)] false) u).trans
        (hushes (routinely_jsonHeaders X E) _)
    rw [← hask.slept, ← hask.request]
    simp only [validateRequest, Prog.run_bind]
    exact requestWithRetry_slept _ _ _ _ _
  rw [validate_eq]
  simp only [loadLicenseKey, loadInstanceId, readCache, Prog.run_bind, Prog.run_read]
  rw [(hushes_settleValidate _ _).slept, hrequest, hnotify.slept, hnotify.request]

end Client

/-- The entitlements or the raw state are no longer those at entry. -/
def Upgraded (before : List Bytes) (beforeState : State) (v : World) : Prop :=
  sortedEntitlements v.client.cache ≠ before ∨ v.client.rawState ≠ beforeState

instance (before : List Bytes) (beforeState : State) (v : World) :
    Decidable (Upgraded before beforeState v) := inferInstanceAs (Decidable (_ ∨ _))

/-- Only pauses take time: a reading is the start and what was slept since `w`, in seconds. -/
def PausesOnly (E : Env) (startMs : Int) (w u v : World) : Prop :=
  ∀ k < v.ticks.now, u.ticks.now ≤ k →
    (E.now k).toInt = (startMs + (u.slept - w.slept : Nat)) / 1000

instance (E : Env) (startMs : Int) (w u v : World) : Decidable (PausesOnly E startMs w u v) :=
  inferInstanceAs (Decidable (∀ k < _, _ → _))

/-- The world after a clock reading. -/
def World.tick (w : World) : World := { w with ticks.now := w.ticks.now + 1 }

def World.pause (ms : Nat) (w : World) : World := { w with log := w.log ++ [.slept ms] }

@[simp] theorem World.tick_slept (w : World) : w.tick.slept = w.slept := rfl

@[simp] theorem World.pause_slept (ms : Nat) (w : World) : (w.pause ms).slept = w.slept + ms := by
  simp [World.slept, World.pause, sleeps]

section
variable (X : Site) (E : Env) (before : List Bytes) (beforeState : State) (interval : Nat)
  (deadline : Int64)

/-- The poll begun at `u` ends unchanged before the deadline, and the next one begins at `x`. -/
def PollsAgain (u x : World) : Prop :=
  let v := ((validate X E).run u).2
  ¬Upgraded before beforeState v ∧ E.now v.ticks.now < deadline ∧ x = v.tick.pause interval

/-- One poll of the loop. -/
theorem pollUpgrade_run (polls : Nat) (u : World) :
    (pollUpgrade X E before beforeState interval deadline (polls + 1)).run u =
      let v := ((validate X E).run u).2
      if Upgraded before beforeState v then (some true, v)
      else if E.now v.ticks.now < deadline then
        (pollUpgrade X E before beforeState interval deadline polls).run (v.tick.pause interval)
      else (some false, v.tick) := by
  rw [pollUpgrade, Prog.run_bind]
  generalize ((validate X E).run u).2 = v
  simp only [readCache, loadState, Prog.run_bind, Prog.run_read, Prog.run_ite, Prog.run_pure]
  by_cases hup : Upgraded before beforeState v
  · rw [if_pos hup]
    exact if_pos hup
  · rw [if_neg hup]
    refine (if_neg hup).trans ?_
    simp only [nowFn, sleepFn, Prog.run_atom, Prog.run_modify]
    by_cases hlate : E.now v.ticks.now < deadline
    · rw [if_pos hlate]
      exact if_neg (Int64.not_le.mpr hlate)
    · rw [if_neg hlate]
      exact if_pos (Int64.not_lt.mp hlate)

variable {X E before beforeState interval deadline}

/-- What holds of each section of the loop holds of the reading after an unchanged poll, and of
the polls that follow. -/
theorem pollUpgrade_runEach {R : World → World → Prop} {polls : Nat} {u : World}
    (h : RunEach R (pollUpgrade X E before beforeState interval deadline (polls + 1)) u)
    (hup : ¬Upgraded before beforeState ((validate X E).run u).2) :
    R ((validate X E).run u).2 ((validate X E).run u).2.tick ∧
      (E.now ((validate X E).run u).2.ticks.now < deadline →
        RunEach R (pollUpgrade X E before beforeState interval deadline polls)
          (((validate X E).run u).2.tick.pause interval)) := by
  rw [pollUpgrade, RunEach.bind_iff] at h
  obtain ⟨-, h⟩ := h
  generalize ((validate X E).run u).2 = v at h hup ⊢
  rw [RunEach.bind_iff] at h
  obtain ⟨-, h⟩ := h
  rw [RunEach.bind_iff] at h
  obtain ⟨-, h⟩ := h
  change RunEach R (if Upgraded before beforeState v then _ else _) v at h
  rw [if_neg hup, RunEach.bind_iff] at h
  obtain ⟨⟨hread, -⟩, h⟩ := h
  refine ⟨hread, fun hlate => ?_⟩
  change RunEach R (if E.now v.ticks.now ≥ deadline then _ else _) v.tick at h
  rw [if_neg (Int64.not_le.mpr hlate), RunEach.bind_iff] at h
  exact h.2

/-- With polls enough for the timeout the loop stops. It stops at a poll `x`, the only one whose
retries may last past the timeout, and which begins before the next interval has passed. -/
theorem pollUpgrade_stops {w : World} {startMs : Int} {timeout : Nat}
    (hdeadline : deadline.toInt ≤ startMs / 1000 + timeout / 1000) (hinterval : 0 < interval)
    {polls : Nat} {u : World} (hpolls : 0 < polls) (hslept : w.slept ≤ u.slept)
    (henough : timeout < polls + (u.slept - w.slept))
    (hclock : RunEach (PausesOnly E startMs w)
      (pollUpgrade X E before beforeState interval deadline polls) u) :
    ∃ b v x, (pollUpgrade X E before beforeState interval deadline polls).run u = (some b, v) ∧
      (b = true ↔ Upgraded before beforeState v) ∧
      Relation.ReflTransGen (PollsAgain X E before beforeState interval deadline) u x ∧
      v.slept = x.slept + retryPause E.request x.ticks.request ∧
      (x = u ∨ x.slept < w.slept + timeout + interval) ∧
      ∀ y, Relation.ReflTransGen (PollsAgain X E before beforeState interval deadline) u y →
        u.slept ≤ y.slept ∧
          (y = x ∨ y.slept + retryPause E.request y.ticks.request < w.slept + timeout) := by
  induction polls generalizing u with
  | zero => exact absurd hpolls (Nat.lt_irrefl 0)
  | succ polls ih =>
    have hrun := pollUpgrade_run X E before beforeState interval deadline polls u
    have hpause := validate_slept (X := X) (E := E) u
    have hlast : ∀ {y}, ¬(¬Upgraded before beforeState ((validate X E).run u).2 ∧
        E.now ((validate X E).run u).2.ticks.now < deadline) →
        Relation.ReflTransGen (PollsAgain X E before beforeState interval deadline) u y →
        u.slept ≤ y.slept ∧
          (y = u ∨ y.slept + retryPause E.request y.ticks.request < w.slept + timeout) := by
      intro y hstop hy
      obtain rfl | ⟨z, ⟨hsame, hearly, -⟩, -⟩ := hy.cases_head
      · exact ⟨Nat.le_refl _, .inl rfl⟩
      · exact absurd ⟨hsame, hearly⟩ hstop
    by_cases hup : Upgraded before beforeState ((validate X E).run u).2
    · refine ⟨true, _, u, hrun.trans (if_pos hup), ?_, .refl, hpause, .inl rfl, fun y hy => ?_⟩
      · exact ⟨fun _ => hup, fun _ => rfl⟩
      · exact hlast (fun h => h.1 hup) hy
    · obtain ⟨hread, hrest⟩ := pollUpgrade_runEach hclock hup
      by_cases hearly : E.now ((validate X E).run u).2.ticks.now < deadline
      · have hnow := hread _ (Nat.lt_succ_self _) (Nat.le_refl _)
        have hbefore := Int64.lt_iff_toInt_lt.mp hearly
        generalize hv : ((validate X E).run u).2 = v at *
        have hwithin : v.slept < w.slept + timeout := by omega
        have hnext : (v.tick.pause interval).slept = v.slept + interval := World.pause_slept _ _
        obtain ⟨b, z, x, hz, hb, hx, hzx, hbegun, hall⟩ := ih (u := v.tick.pause interval)
          (by omega) (by omega) (by omega) (hrest hearly)
        have hagain : PollsAgain X E before beforeState interval deadline u
            (v.tick.pause interval) := by
          rw [PollsAgain, hv]
          exact ⟨hup, hearly, rfl⟩
        have hbegun' : x.slept < w.slept + timeout + interval := by
          obtain rfl | hbegun := hbegun
          · omega
          · exact hbegun
        refine ⟨b, z, x, ?_, hb, hx.head hagain, hzx, .inr hbegun', fun y hy => ?_⟩
        · rw [hrun]
          simp only [if_neg hup, if_pos hearly]
          exact hz
        · obtain rfl | ⟨c, ⟨-, -, hc⟩, hy⟩ := hy.cases_head
          · exact ⟨Nat.le_refl _, .inr (by omega)⟩
          · rw [hv] at hc
            rw [hc] at hy
            obtain ⟨hlater, hwhich⟩ := hall y hy
            exact ⟨by omega, hwhich⟩
      · refine ⟨false, _, u, hrun.trans ((if_neg hup).trans (if_neg hearly)), ?_, .refl, hpause,
          .inl rfl, fun y hy => ?_⟩
        · exact ⟨fun h => (Bool.false_ne_true h).elim, fun h => absurd h hup⟩
        · exact hlast (fun h => hearly h.2) hy

end

/-- The deadline is at most the timeout's whole seconds ahead: an overflow only lowers it. -/
theorem deadline_le (now : Int64) {timeoutMs : Int32} (h : 0 < timeoutMs) :
    (now + timeoutSeconds timeoutMs).toInt ≤ now.toInt + timeoutMs.toInt / 1000 := by
  have hpos : 0 < timeoutMs.toInt := Int32.lt_iff_toInt_lt.mp h
  have hlow := Int64.le_toInt now
  have hsecs : (timeoutSeconds timeoutMs).toInt = timeoutMs.toInt / 1000 := by
    rw [timeoutSeconds, if_pos h, Int32.toInt_toInt64,
      Int32.toInt_div_of_ne_right _ _ (by decide), show (1000 : Int32).toInt = 1000 from rfl,
      Int.tdiv_eq_ediv_of_nonneg hpos.le]
  rw [Int64.toInt_add, hsecs]
  have hnonneg : 0 ≤ timeoutMs.toInt / 1000 := Int.ediv_nonneg hpos.le (by decide)
  rw [Int.bmod_def]
  split <;> omega

/-- The call begins a poll at `u`. -/
def Polls (X : Site) (E : Env) (w : World) (timeoutMs pollIntervalMs : Int32) (u : World) : Prop :=
  hasKey w.client.cache = true ∧ Relation.ReflTransGen
    (PollsAgain X E (sortedEntitlements w.client.cache) w.client.rawState
      (pollInterval pollIntervalMs) (E.now w.ticks.now + timeoutSeconds timeoutMs)) w.tick u

section Call
variable {X : Site} {E : Env} {w : World} {startMs : Int} {timeoutMs pollIntervalMs : Int32}
  {polls : Nat}

theorem refreshAfterUpgrade_keyless (hkey : hasKey w.client.cache = false) :
    (refreshAfterUpgrade X E polls timeoutMs pollIntervalMs).run w = (some false, w) := by
  simp only [refreshAfterUpgrade, hasStoredLicense, readCache, Prog.run_bind, Prog.run_read, hkey,
    Bool.not_false, if_true, Prog.run_pure]

/-- The loop of a call with a stored key stops, at a poll `x` as in `pollUpgrade_stops`. -/
theorem refreshAfterUpgrade_stops (htimeout : 0 < timeoutMs) (hinterval : 0 < pollIntervalMs)
    (hpolls : timeoutMs.toInt < polls)
    (hclock : RunEach (PausesOnly E startMs w)
      (refreshAfterUpgrade X E polls timeoutMs pollIntervalMs) w)
    (hkey : hasKey w.client.cache = true) :
    ∃ b v x, (refreshAfterUpgrade X E polls timeoutMs pollIntervalMs).run w = (some b, v) ∧
      (b = true ↔ Upgraded (sortedEntitlements w.client.cache) w.client.rawState v) ∧
      Polls X E w timeoutMs pollIntervalMs x ∧
      v.slept = x.slept + retryPause E.request x.ticks.request ∧
      x.slept ≤ w.slept + timeoutMs.toInt.toNat + pollIntervalMs.toInt.toNat ∧
      ∀ y, Polls X E w timeoutMs pollIntervalMs y → w.slept ≤ y.slept ∧
        (y = x ∨ y.slept + retryPause E.request y.ticks.request <
          w.slept + timeoutMs.toInt.toNat) := by
  have htimeout' := Int32.lt_iff_toInt_lt.mp htimeout
  have hinterval' := Int32.lt_iff_toInt_lt.mp hinterval
  rw [Int32.toInt_zero] at htimeout' hinterval'
  have hwait : pollInterval pollIntervalMs = pollIntervalMs.toInt.toNat := if_pos hinterval
  have hrun : (refreshAfterUpgrade X E polls timeoutMs pollIntervalMs).run w =
      (pollUpgrade X E (sortedEntitlements w.client.cache) w.client.rawState
        (pollInterval pollIntervalMs) (E.now w.ticks.now + timeoutSeconds timeoutMs) polls).run
          w.tick := by
    simp only [refreshAfterUpgrade, hasStoredLicense, readCache, loadState, nowFn, Prog.run_bind,
      Prog.run_read, hkey, Bool.not_true, Bool.false_eq_true, if_false, Prog.run_atom]
    rfl
  obtain ⟨hread, hloop⟩ : PausesOnly E startMs w w w.tick ∧ RunEach (PausesOnly E startMs w)
      (pollUpgrade X E (sortedEntitlements w.client.cache) w.client.rawState
        (pollInterval pollIntervalMs) (E.now w.ticks.now + timeoutSeconds timeoutMs) polls)
          w.tick := by
    rw [refreshAfterUpgrade, RunEach.bind_iff] at hclock
    obtain ⟨-, hclock⟩ := hclock
    change RunEach _ (if (!hasKey w.client.cache) = true then _ else _) w at hclock
    rw [hkey, Bool.not_true, if_neg Bool.false_ne_true, RunEach.bind_iff] at hclock
    obtain ⟨-, hclock⟩ := hclock
    rw [RunEach.bind_iff] at hclock
    obtain ⟨-, hclock⟩ := hclock
    rw [RunEach.bind_iff] at hclock
    exact ⟨hclock.1.1, hclock.2⟩
  have hstart := hread w.ticks.now (Nat.lt_succ_self _) (Nat.le_refl _)
  have hdeadline := deadline_le (E.now w.ticks.now) htimeout
  have hfirst : (E.now w.ticks.now + timeoutSeconds timeoutMs).toInt ≤
      startMs / 1000 + (timeoutMs.toInt.toNat : Int) / 1000 := by omega
  have henough : timeoutMs.toInt.toNat < polls + (w.tick.slept - w.slept) := by
    rw [World.tick_slept]
    omega
  obtain ⟨b, v, x, hstop, hb, hx, hslept, hbegun, hall⟩ := pollUpgrade_stops hfirst
    (by rw [hwait]; omega) (by omega) (Nat.le_refl w.tick.slept) henough hloop
  refine ⟨b, v, x, hrun.trans hstop, hb, ⟨hkey, hx⟩, hslept, ?_, fun y hy => hall y hy.2⟩
  obtain rfl | hbegun := hbegun
  · rw [World.tick_slept]
    omega
  · rw [World.tick_slept, hwait] at hbegun
    omega

end Call

/-- Where only pauses take time, a call with enough polls returns, and says whether something
changed. It slept at most the timeout and one interval exactly when every poll it began left room
for the retries that the server asks of it. -/
theorem refreshAfterUpgrade_bound_iff (X : Site) (E : Env) (w : World) (startMs : Int)
    {timeoutMs pollIntervalMs : Int32} (htimeout : 0 < timeoutMs) (hinterval : 0 < pollIntervalMs)
    {polls : Nat} (hpolls : timeoutMs.toInt < polls)
    (hclock : RunEach (PausesOnly E startMs w)
      (refreshAfterUpgrade X E polls timeoutMs pollIntervalMs) w) :
    ∃ b v, (refreshAfterUpgrade X E polls timeoutMs pollIntervalMs).run w = (some b, v) ∧
      (b = true ↔ Upgraded (sortedEntitlements w.client.cache) w.client.rawState v) ∧
      ((v.slept - w.slept : Nat) ≤ timeoutMs.toInt + pollIntervalMs.toInt ↔
        ∀ u, Polls X E w timeoutMs pollIntervalMs u →
          (u.slept - w.slept + retryPause E.request u.ticks.request : Nat) ≤
            timeoutMs.toInt + pollIntervalMs.toInt) := by
  have htimeout' := Int32.lt_iff_toInt_lt.mp htimeout
  have hinterval' := Int32.lt_iff_toInt_lt.mp hinterval
  rw [Int32.toInt_zero] at htimeout' hinterval'
  cases hkey : hasKey w.client.cache with
  | false =>
    refine ⟨false, w, refreshAfterUpgrade_keyless hkey, by simp [Upgraded], ?_⟩
    constructor
    · rintro - u ⟨hstored, -⟩
      rw [hkey] at hstored
      cases hstored
    · intro _
      omega
  | true =>
    obtain ⟨b, v, x, hrun, hb, hx, hslept, -, hall⟩ :=
      refreshAfterUpgrade_stops htimeout hinterval hpolls hclock hkey
    refine ⟨b, v, hrun, hb, ?_⟩
    constructor
    · intro hbound u hu
      obtain ⟨hlater, rfl | hwithin⟩ := hall u hu
      · omega
      · omega
    · intro hroom
      have hlast := hroom x hx
      have hlater := (hall x hx).1
      omega

/-- A bound from the server's answers alone: what its longest retries add to the timeout and one
interval. -/
theorem refreshAfterUpgrade_slept (X : Site) (E : Env) (w : World) (startMs : Int)
    {timeoutMs pollIntervalMs : Int32} (htimeout : 0 < timeoutMs) (hinterval : 0 < pollIntervalMs)
    {polls : Nat} (hpolls : timeoutMs.toInt < polls)
    (hclock : RunEach (PausesOnly E startMs w)
      (refreshAfterUpgrade X E polls timeoutMs pollIntervalMs) w)
    {pause : Nat} (hpause : ∀ k, retryPause E.request k ≤ pause) :
    (((refreshAfterUpgrade X E polls timeoutMs pollIntervalMs).run w).2.slept - w.slept : Nat) ≤
      timeoutMs.toInt + pollIntervalMs.toInt + pause := by
  have htimeout' := Int32.lt_iff_toInt_lt.mp htimeout
  have hinterval' := Int32.lt_iff_toInt_lt.mp hinterval
  rw [Int32.toInt_zero] at htimeout' hinterval'
  cases hkey : hasKey w.client.cache with
  | false =>
    rw [refreshAfterUpgrade_keyless hkey]
    change ((w.slept - w.slept : Nat) : Int) ≤ _
    omega
  | true =>
    obtain ⟨b, v, x, hrun, -, -, hslept, hbegun, -⟩ :=
      refreshAfterUpgrade_stops htimeout hinterval hpolls hclock hkey
    have hlast := hpause x.ticks.request
    rw [hrun]
    change ((v.slept - w.slept : Nat) : Int) ≤ _
    omega

/-- Where no answer is tried again, the call keeps within the timeout and one interval. -/
theorem refreshAfterUpgrade_prompt (X : Site) (E : Env) (w : World) (startMs : Int)
    {timeoutMs pollIntervalMs : Int32} (htimeout : 0 < timeoutMs) (hinterval : 0 < pollIntervalMs)
    {polls : Nat} (hpolls : timeoutMs.toInt < polls)
    (hclock : RunEach (PausesOnly E startMs w)
      (refreshAfterUpgrade X E polls timeoutMs pollIntervalMs) w)
    (hprompt : ∀ k, definitive (E.request k) = true) :
    (((refreshAfterUpgrade X E polls timeoutMs pollIntervalMs).run w).2.slept - w.slept : Nat) ≤
      timeoutMs.toInt + pollIntervalMs.toInt := by
  have hpause : ∀ k, retryPause E.request k ≤ 0 := by
    intro k
    rw [retryPause, pausesFrom_definitive 2 1 (hprompt k)]
    rfl
  have hslept := refreshAfterUpgrade_slept X E w startMs htimeout hinterval hpolls hclock hpause
  omega

/-- The licensed client of `vectorWorld`, before a call. -/
def upgradingWorld : World := { vectorWorld with ticks := {} }

/-- The first poll is answered at its second attempt and changes nothing; at the poll after the
interval the licence is withdrawn. -/
def withdrawnEnv : Env where
  now k := if k < 4 then 1781076300 else 1781076302
  request k := .ok ⟨if k = 0 then 503 else if k = 1 then 400 else 422, ascii "{}", []⟩

/-- Two polls, a retried attempt and the interval between them. -/
theorem refreshAfterUpgrade_withdrawn : ∃ v,
    (refreshAfterUpgrade vectorSite withdrawnEnv 30001 30000 2000).run upgradingWorld =
      (some true, v) ∧
    Upgraded (sortedEntitlements upgradingWorld.client.cache) upgradingWorld.client.rawState v ∧
    v.slept - upgradingWorld.slept = 2500 ∧
    ∀ u, Polls vectorSite withdrawnEnv upgradingWorld 30000 2000 u →
      (u.slept - upgradingWorld.slept + retryPause withdrawnEnv.request u.ticks.request : Nat) ≤
        (30000 : Int32).toInt + (2000 : Int32).toInt := by
  obtain ⟨hclock, hresult, hslept⟩ :
      RunEach (PausesOnly withdrawnEnv 1781076300000 upgradingWorld)
        (refreshAfterUpgrade vectorSite withdrawnEnv 30001 30000 2000) upgradingWorld ∧
      ((refreshAfterUpgrade vectorSite withdrawnEnv 30001 30000 2000).run upgradingWorld).1 =
        some true ∧
      ((refreshAfterUpgrade vectorSite withdrawnEnv 30001 30000 2000).run
        upgradingWorld).2.slept - upgradingWorld.slept = 2500 := by
    decide +kernel
  obtain ⟨b, v, hrun, hchanged, hroom⟩ := refreshAfterUpgrade_bound_iff vectorSite withdrawnEnv
    upgradingWorld 1781076300000 (show (0 : Int32) < 30000 by decide) (by decide) (by decide)
    hclock
  rw [hrun] at hresult hslept
  cases hresult
  refine ⟨v, hrun, hchanged.mp rfl, hslept, hroom.mp ?_⟩
  rw [hslept]
  decide

/-- A server that asks for an hour's patience at each attempt. -/
def throttlingEnv : Env where
  now k := if k < 2 then 1781076300 else 1781083500
  request _ := .ok ⟨429, [], [(ascii "retry-after", ascii "3600")]⟩

theorem refreshAfterUpgrade_throttled : ¬∀ (X : Site) (E : Env) (w : World) (startMs : Int)
    (timeoutMs pollIntervalMs : Int32) (polls : Nat), 0 < timeoutMs → 0 < pollIntervalMs →
    timeoutMs.toInt < polls → RunEach (PausesOnly E startMs w)
      (refreshAfterUpgrade X E polls timeoutMs pollIntervalMs) w →
    (((refreshAfterUpgrade X E polls timeoutMs pollIntervalMs).run w).2.slept - w.slept : Nat) ≤
      timeoutMs.toInt + pollIntervalMs.toInt := by
  intro h
  have hslept := h vectorSite throttlingEnv upgradingWorld 1781076300000 30000 2000 30001
    (by decide) (by decide) (by decide) (by decide +kernel)
  exact absurd hslept (by decide +kernel)

end Keylight
