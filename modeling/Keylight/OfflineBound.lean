import Keylight.Channels
import Keylight.Launch

/-!
# The offline bound

A transient failure carries no verdict. At launch and on a refresh it ends a
licence that has outlived its lease or its offline window and changes nothing
else; `validate` answers the state it had and never looks at either.
-/
namespace Keylight
open Bytes Sections Client

/-- A failure that says nothing about the licence, after the retries: of the transport, another
status, or a 200 or 422 whose body does not decode. -/
def Transient : Result HttpResponse → Prop
  | .error _ => True
  | .ok resp => (resp.status ≠ 200 ∧ resp.status ≠ 422) ∨ ∃ e, Json.parse resp.body = .error e

/-- A reply is transient when its verdict is none. -/
theorem transient_iff (r : Result HttpResponse) :
    Transient r ↔ ¬Decodable (validationVerdict r) := by
  cases r with
  | error e => simp [Transient, Decodable, validationVerdict]
  | ok resp =>
    simp only [Transient, validationVerdict]
    cases hbody : Json.parse resp.body with
    | error e =>
      by_cases h₂₀₀ : resp.status = 200
      · simp [h₂₀₀, Decodable]
      · by_cases h₄₂₂ : resp.status = 422 <;> simp [h₂₀₀, h₄₂₂, Decodable]
    | ok j =>
      by_cases h₂₀₀ : resp.status = 200
      · cases hl : leaseOf j <;> simp [h₂₀₀, hl, Decodable]
      · by_cases h₄₂₂ : resp.status = 422
        · cases hl : leaseOf j <;> simp [h₄₂₂, hl, Decodable]
        · simp [h₂₀₀, h₄₂₂, Decodable]

theorem Offline.transient {E : Env} (h : Offline E) : Transient E.reply := by
  rw [transient_iff, h.verdict]
  exact fun hd => hd.1 rfl

theorem offlineAt_transient (t : Int64) : Transient (offlineAt t).reply :=
  Offline.transient fun _ => ⟨_, rfl⟩

/-- The lease is not past its raw expiry, and the last validation not past the offline window. -/
structure WithinGrace (X : Site) (c : Cache) (t : Int64) : Prop where
  lease : ∃ l, c.lease = some l ∧ t ≤ l.expiresAt
  online : 0 < X.cfg.maxOfflineDays → 0 < c.lastValidatedOnline ∧
    t.toInt - c.lastValidatedOnline.toInt ≤ 86400 * X.cfg.maxOfflineDays.toInt

/-- What a transient failure leaves alone. -/
structure LicenceKept (w v : World) : Prop where
  lease : v.client.cache.lease = w.client.cache.lease
  licenseKey : v.client.cache.licenseKey = w.client.cache.licenseKey
  instanceId : v.client.cache.instanceId = w.client.cache.instanceId
  expiresAt : v.client.cache.expiresAt = w.client.cache.expiresAt
  lastValidatedOnline : v.client.cache.lastValidatedOnline = w.client.cache.lastValidatedOnline
  anchor : v.client.anchor = w.client.anchor
  trialStart : v.client.cache.trialStart = w.client.cache.trialStart

namespace Client
variable (X : Site) (E : Env)

/-- A difference that leaves the int64 range can only come out too large. -/
theorem toInt_sub_le_of_pos {t last bound : Int64} (hlast : 0 < last) (hbound : 0 ≤ bound.toInt)
    (h : t - last ≤ bound) : t.toInt - last.toInt ≤ bound.toInt := by
  rw [Int64.lt_iff_toInt_lt, Int64.toInt_zero] at hlast
  rw [Int64.le_iff_toInt_le] at h
  have h₁ := t.toInt_lt
  by_cases hspan : -2 ^ 63 ≤ t.toInt - last.toInt
  · have hsub : (t - last).toInt = t.toInt - last.toInt :=
      toInt_sub_of_spans ⟨hspan, by omega⟩
    omega
  · omega

/-- A grace that does not end is within the window: the difference cannot wrap there. -/
theorem withinGrace_of_not_graceEnds {c : Cache} {t : Int64}
    (h : ¬graceEnds X c t c.lastValidatedOnline) : WithinGrace X c t := by
  have hexpired : rawExpired c t = false := by
    cases hr : rawExpired c t with
    | true => exact absurd (.inl hr) h
    | false => rfl
  constructor
  · cases hl : c.lease with
    | none => simp [rawExpired, hl] at hexpired
    | some l =>
      have hle : ¬t > l.expiresAt := by simpa [rawExpired, hl] using hexpired
      exact ⟨l, rfl, Int64.not_lt.1 hle⟩
  · intro hd
    have hwindow : c.lastValidatedOnline > 0 ∧
        t - c.lastValidatedOnline ≤ X.cfg.maxOfflineDays.toInt64 * 86400 := by
      by_contra hn
      exact h (.inr ⟨hd, hn⟩)
    have hsecs := offlineSecs_toInt X.cfg.maxOfflineDays
    have hpos : 0 < X.cfg.maxOfflineDays.toInt := by
      rw [Int32.lt_iff_toInt_lt, Int32.toInt_zero] at hd
      exact hd
    refine ⟨hwindow.1, ?_⟩
    have hle := toInt_sub_le_of_pos hwindow.1 (by omega) hwindow.2
    omega

/-- A core that differs at most in the hardware id and the raw state. -/
theorem licenceKept_noted {w v : World} (s : State)
    (h : v.core = { notedCore E { w with ticks := {} } with rawState := s }) :
    LicenceKept w v := by
  have hcache : v.client.cache = withHardwareId (E.hardwareId 0) w.client.cache :=
    congrArg Core.cache h
  rw [withHardwareId_eq] at hcache
  constructor
  case anchor => exact congrArg Core.anchor h
  all_goals rw [hcache]

/-- A refresh that sent a request was due. -/
theorem asks_of_sent {op : Op} (w : World) (hkey : hasKey w.client.cache = true) {t : Int64}
    (hnow : ∀ i, E.now i = t)
    (hsent : op = .refreshIfNeeded → 0 < (op.exec X E w).ticks.request) :
    op.asks w.client.cache t := by
  rintro rfl
  have hrun : Op.refreshIfNeeded.exec X E w =
      ((Client.refreshIfNeeded X E).run { w with ticks := {} }).2 := run_ignored _ _
  have hpos := hsent rfl
  obtain ⟨k, ⟨-, -, hrequest⟩ | ⟨hdue, -⟩⟩ := refreshIfNeeded_run X E { w with ticks := {} } hkey
  · rw [hrun, hrequest] at hpos
    exact absurd hpos (Nat.lt_irrefl 0)
  · rw [hnow] at hdue
    exact hdue

/-- The grace lets a licence stand only within its bounds, and moves no other state. -/
theorem gracedState_licensed {c : Core} {t : Int64}
    (h : gracedState X c t c.cache.lastValidatedOnline = .licensed) :
    c.rawState = .licensed ∧ WithinGrace X c.cache t := by
  unfold gracedState at h
  split at h
  · cases h
  · rename_i hstands
    exact ⟨h, withinGrace_of_not_graceEnds X fun hends => hstands ⟨h, hends⟩⟩

theorem gracedState_other {c : Core} (h : c.rawState ≠ .licensed) (t lastLvo : Int64) :
    gracedState X c t lastLvo = c.rawState := by
  rw [gracedState, if_neg fun hl => h hl.1]

end Client

/-- After a transient failure at launch or on a refresh a licence stands only within its lease
and its offline window, and nothing but a licensed state changes. -/
theorem offline_bound (X : Site) (E : Env) (op : Op) (w : World) (t : Int64)
    (hop : op.graces) (hkey : hasKey w.client.cache = true) (hnow : ∀ i, E.now i = t)
    (hsent : op = .refreshIfNeeded → 0 < (op.exec X E w).ticks.request)
    (hfail : Transient E.reply) :
    (stateAt (op.exec X E w).client t = .licensed →
      stateAt w.client t = .licensed ∧ WithinGrace X w.client.cache t) ∧
    (w.client.rawState ≠ .licensed →
      (op.exec X E w).client.rawState = w.client.rawState) ∧
    LicenceKept w (op.exec X E w) := by
  have hasks := asks_of_sent X E w hkey hnow hsent
  have hcore : (op.exec X E w).core = { notedCore E { w with ticks := {} } with
      rawState := gracedState X w.core t w.client.cache.lastValidatedOnline } := by
    obtain ⟨hno, -⟩ | ⟨-, -, hgraced⟩ := op.exec_graces X E hop w hkey hnow
    · exact absurd hasks hno
    · exact hgraced ((transient_iff _).1 hfail)
  have hraw : (op.exec X E w).client.rawState =
      gracedState X w.core t w.core.cache.lastValidatedOnline := congrArg Core.rawState hcore
  refine ⟨fun h => ?_, fun h => ?_, licenceKept_noted E _ hcore⟩
  · obtain ⟨huntrusted, hlicensed⟩ := stateAt_licensed h
    rw [hraw] at hlicensed
    obtain ⟨hbefore, hwithin⟩ := gracedState_licensed X hlicensed
    refine ⟨?_, hwithin⟩
    rw [← h]
    exact stateAt_congr (congrArg Core.anchor hcore).symm
      (hbefore.trans (hraw.trans hlicensed).symm) t
  · rw [hraw]
    exact gracedState_other X h t _

/-- Two minutes after its launch the stored licence survives a launch without a network. -/
theorem offline_bound_vector :
    (stateAt (Op.checkOnLaunch.exec vectorSite (offlineAt 1781076420) vectorWorld).client
      1781076420 = .licensed →
      stateAt vectorWorld.client 1781076420 = .licensed ∧
        WithinGrace vectorSite vectorWorld.client.cache 1781076420) ∧
    (vectorWorld.client.rawState ≠ .licensed →
      (Op.checkOnLaunch.exec vectorSite (offlineAt 1781076420) vectorWorld).client.rawState =
        vectorWorld.client.rawState) ∧
    LicenceKept vectorWorld (Op.checkOnLaunch.exec vectorSite (offlineAt 1781076420) vectorWorld) :=
  offline_bound vectorSite (offlineAt 1781076420) .checkOnLaunch vectorWorld 1781076420 rfl
    vectorWorld_hasKey (fun _ => rfl) (fun h => by cases h) (offlineAt_transient _)

/-- The lease has not expired with its skew, and the last validation is within the offline
window. -/
structure InWindow (X : Site) (c : Cache) (t : Int64) : Prop where
  lease : ∃ l, c.lease = some l ∧ t.toInt ≤ l.expiresAt.toInt + 300
  online : 0 < X.cfg.maxOfflineDays →
    t.toInt - c.lastValidatedOnline.toInt ≤ 86400 * X.cfg.maxOfflineDays.toInt

theorem inWindow_near {X : Site} {c c' : Cache} (h : Near c c') (t : Int64) :
    InWindow X c' t ↔ InWindow X c t := by
  constructor
  · intro hw
    exact ⟨h.lease ▸ hw.lease, h.lastValidatedOnline ▸ hw.online⟩
  · intro hw
    exact ⟨h.lease.symm ▸ hw.lease, h.lastValidatedOnline.symm ▸ hw.online⟩

namespace Client
variable (X : Site) {E : Env} {t : Int64}

theorem keepState_value (hnow : ∀ i, E.now i = t) (w : World) :
    ((keepState E).run w).1 = .ok (w.client.stateAt t) := by
  rw [keepState, Prog.run_bind, report_value hnow]
  rfl

/-- A transient failure of `validate` answers the state it found and notes a hardware id. -/
theorem validate_transient (hnow : ∀ i, E.now i = t) (w : World)
    (hfail : Transient (E.replyAt w.ticks.request)) :
    ((validate X E).run w).1 = .ok (w.client.stateAt t) ∧
      ((validate X E).run w).2.core = notedCore E w := by
  have hverdict := (transient_iff _).1 hfail
  refine ⟨?_, (validate_core X E w).2 hverdict⟩
  obtain ⟨u, hask, hrun⟩ := validate_run X E w
  have hstate : ∀ v : World, v.core = u.core → v.client.stateAt t = w.client.stateAt t := by
    intro v hv
    have hcore := hv.trans hask.core
    exact stateAt_congr (congrArg Core.anchor hcore) (congrArg Core.rawState hcore) t
  rw [hrun]
  obtain hv | hv := not_decodable hverdict
  · rw [hv, settleValidate, keepState_value hnow, hstate u rfl]
  · rw [hv, settleValidate, Prog.run_bind, keepState_value hnow, hstate _ ?_]
    exact ((quiet_nowFn E).run u).core

end Client

/-- A failed `validate` that answers Licensed is within the window exactly when the state it
found is not Licensed or the cache it found is within it: nothing is checked on the way. -/
theorem validate_window (X : Site) (E : Env) (w : World) (t : Int64) (hnow : ∀ i, E.now i = t)
    (hfail : Transient E.reply) :
    let after := (validate X E).run { w with ticks := {} }
    (after.1 = .ok .licensed → InWindow X after.2.client.cache t) ↔
      (w.client.stateAt t ≠ .licensed ∨ InWindow X w.client.cache t) := by
  intro after
  obtain ⟨hanswer, hcore⟩ := validate_transient X hnow { w with ticks := {} } hfail
  have hcache : after.2.client.cache = withHardwareId (E.hardwareId 0) w.client.cache :=
    congrArg Core.cache hcore
  have hlicensed : after.1 = .ok .licensed ↔ w.client.stateAt t = .licensed := by
    change ((validate X E).run { w with ticks := {} }).1 = _ ↔ _
    rw [hanswer, Except.ok.injEq]
  rw [hlicensed, hcache, inWindow_near (near_withHardwareId _ _), imp_iff_not_or]

/-- A year after its lease ran out, a client that only polls `validate` is still Licensed. -/
theorem validate_outlives : ¬∀ (X : Site) (store : Bytes) (calls : List Call) (E : Env)
    (t : Int64), hasKey (history X store calls).client.cache = true → (∀ i, E.now i = t) →
    Transient E.reply →
    ((validate X E).run { history X store calls with ticks := {} }).1 = .ok .licensed →
    InWindow X ((validate X E).run { history X store calls with ticks := {} }).2.client.cache
      t := by
  intro h
  have hanswer : ((validate vectorSite (offlineAt 1813217046)).run
      { vectorWorld with ticks := {} }).1 = .ok .licensed := by decide +kernel
  have hlease : (((validate vectorSite (offlineAt 1813217046)).run
      { vectorWorld with ticks := {} }).2.client.cache.lease.all fun l =>
        l.expiresAt.toInt + 300 < (1813217046 : Int64).toInt) = true := by decide +kernel
  have hkey := vectorWorld_hasKey
  rw [vectorWorld] at hanswer hlease hkey
  obtain ⟨l, hl, hle⟩ := (h vectorSite vectorStore [(.relaunch, offlineAt 1781076300)]
    (offlineAt 1813217046) 1813217046 hkey (fun _ => rfl) (offlineAt_transient _) hanswer).lease
  rw [hl, Option.all_some, decide_eq_true_eq] at hlease
  omega

/-- Two minutes after its launch the stored licence is within the window. -/
theorem validate_window_vector :
    let w := vectorWorld
    let after := (validate vectorSite (offlineAt 1781076420)).run { w with ticks := {} }
    (after.1 = .ok .licensed → InWindow vectorSite after.2.client.cache 1781076420) ↔
      (w.client.stateAt 1781076420 ≠ .licensed ∨ InWindow vectorSite w.client.cache 1781076420) :=
  validate_window vectorSite (offlineAt 1781076420) vectorWorld 1781076420 (fun _ => rfl)
    (offlineAt_transient _)

end Keylight
