import Keylight.Launch

/-!
# The state of an unlicensed client

Without a lease and a licence key the resolution order is: an active trial, the
free tier, an elapsed trial, Invalid. Which calls apply it, and what the others
leave in its place.
-/
namespace Keylight
open Bytes Sections Client

/-- Neither a lease nor a licence key. -/
def Unlicensed (c : Cache) : Prop := hasPaidMaterial c = false

instance (c : Cache) : Decidable (Unlicensed c) := inferInstanceAs (Decidable (_ = _))

theorem Unlicensed.lease {c : Cache} (h : Unlicensed c) : c.lease = none := by
  cases hl : c.lease with
  | none => rfl
  | some l => simp [Unlicensed, hasPaidMaterial, hl] at h

theorem Unlicensed.key {c : Cache} (h : Unlicensed c) : hasKey c = false := by
  cases hk : hasKey c with
  | false => rfl
  | true => simp [Unlicensed, hasPaidMaterial, hk] at h

/-- The documented resolution order at a clock reading. -/
def unlicensedState (X : Site) (c : Cache) (now : Int64) : State :=
  if trialStatusAt X c now = .active then .trial
  else if c.serverFreeTier.getD X.cfg.freeTierEnabled then .freeTier
  else if trialStatusAt X c now = .expired then .expired
  else .invalid

/-- Every store operation of the call succeeds, a removal included. -/
structure StoreAnswers (E : Env) : Prop where
  works : StoreWorks E
  clear : ∀ i, E.clear i = none

namespace Client
variable (X : Site)

/-- The fallback behind an unusable paid state is the documented order. -/
theorem resolvedAt_invalid_eq (c : Cache) (t : Int64) :
    resolvedAt X c .invalid t = unlicensedState X c t := by
  simp only [resolvedAt, unlicensedState, ne_eq, not_true_eq_false, if_false]
  cases trialStatusAt X c t with
  | active => rfl
  | expired => simp
  | notStarted => simp

theorem resolvedCurrent_unlicensed {c : Cache} (h : Unlicensed c) (s : State) (t : Int64) :
    resolvedCurrent X c s t = unlicensedState X c t := by
  rw [resolvedCurrent, h, ← resolvedAt_invalid_eq]
  rfl

theorem unlicensed_near {c c' : Cache} (h : Near c c') : Unlicensed c' ↔ Unlicensed c := by
  rw [Unlicensed, Unlicensed, hasPaidMaterial, hasPaidMaterial, h.lease, hasKey, hasKey,
    h.licenseKey]

variable (E : Env) {now : Int64} (hclock : ∀ i, E.now i = now)
include hclock

theorem resolveLocally_unlicensed {w : World} (h : Unlicensed w.core.cache) :
    ((resolveLocally X E).run w).2.core.cache = w.core.cache ∧
      ((resolveLocally X E).run w).2.core.rawState = unlicensedState X w.core.cache now := by
  obtain ⟨i, hcore⟩ := resolveLocally_core X E w
  rw [hcore, hclock, resolvedCurrent_unlicensed X h]
  exact ⟨rfl, rfl⟩

/-- A launch with nothing to validate resolves. -/
theorem checkOnLaunch_unlicensed {w : World} (h : Unlicensed w.core.cache) :
    ((checkOnLaunch X E).run w).2.core.rawState =
      unlicensedState X ((checkOnLaunch X E).run w).2.core.cache now := by
  obtain ⟨hcache, hraw⟩ := resolveLocally_unlicensed X E hclock h
  rw [checkOnLaunch_core, h.key]
  simp only [Bool.false_eq_true, if_false]
  rw [hraw, hcache]

theorem refreshIfNeeded_unlicensed {w : World} (h : Unlicensed w.core.cache) :
    ((refreshIfNeeded X E).run w).2.core.rawState =
      unlicensedState X ((refreshIfNeeded X E).run w).2.core.cache now := by
  obtain ⟨i, hcore⟩ := refreshIfNeeded_local X E w h.key
  rw [hcore, hclock, resolvedCurrent_unlicensed X h]

theorem startTrial_unlicensed {w : World} (h : Unlicensed w.core.cache) :
    ((startTrial X E).run w).2.core.rawState =
      unlicensedState X ((startTrial X E).run w).2.core.cache now := by
  obtain ⟨u, hrun, hu⟩ := startTrial_run X E w
  have hun : Unlicensed u.core.cache := by
    obtain hd | ⟨_, n, hd⟩ := hu
    · exact (unlicensed_near hd.cache).mpr h
    · exact (unlicensed_near hd.cache).mpr h
  obtain ⟨hcache, hraw⟩ := resolveLocally_unlicensed X E hclock hun
  rw [hrun, hraw, hcache]

/-- A fetch resolves, or fails and keeps the raw state. -/
theorem fetchConfig_unlicensed {w : World} (h : Unlicensed w.core.cache) :
    (((fetchConfig X E).run w).1 = .ok () ∧ ((fetchConfig X E).run w).2.core.rawState =
      unlicensedState X ((fetchConfig X E).run w).2.core.cache now) ∨
    ((∃ e, ((fetchConfig X E).run w).1 = .error e) ∧
      ((fetchConfig X E).run w).2.core.rawState = w.core.rawState) := by
  obtain ⟨he, hcore⟩ | ⟨hok, resp, j, n, i, _, _, hcore⟩ := fetchConfig_core X E w
  · right
    rw [hcore]
    exact ⟨he, rfl⟩
  · left
    have hun : Unlicensed (configured X j (E.now n) w.core.cache) := by
      unfold configured
      split
      · exact h
      · exact h
    rw [hcore, hclock i, resolvedCurrent_unlicensed X hun]
    exact ⟨hok, rfl⟩

theorem deactivate_unlicensed (hstore : StoreAnswers E) (w : World) :
    ((deactivate X E).run w).2.core.rawState =
      unlicensedState X ((deactivate X E).run w).2.core.cache now := by
  obtain ⟨_, k, e, hs | hc⟩ | ⟨i, hcore⟩ := deactivate_reset X E w
  · rw [hstore.works.save] at hs
    cases hs
  · rw [hstore.clear] at hc
    cases hc
  · rw [hcore, hclock, resolvedAt_invalid_eq]
    rfl

/-- A client built from a decoded blob without a lease resolves. -/
theorem construct_unlicensed {w : World} {j : Json} (hj : loadedJson E w = some j)
    (h : Unlicensed ((construct X E).run w).2.core.cache) :
    ((construct X E).run w).2.core.rawState =
      unlicensedState X ((construct X E).run w).2.core.cache now := by
  obtain ⟨i, k, n, hcore⟩ := construct_core X E w
  rw [hj] at hcore
  rw [hcore] at h ⊢
  have hlease : leaseOf j = none := by
    rw [leaseOf_eq, ← loadCache_lease]
    exact h.lease
  simp only [launchedCore, hlease, storedPaid, boundedAt, ne_eq, not_true_eq_false, false_and,
    if_false, hclock]
  exact resolvedAt_invalid_eq X _ now

end Client

/-- What a validation leaves in an unlicensed client that it does not license. Nothing is said of
a client without a key that is denied. -/
def validatedState (X : Site) (v : Verdict) (raw : State) (c : Cache) (now : Int64) :
    Option State :=
  match v with
  | .transient => some raw
  | .undecodable => some raw
  | .denied => none
  | .leaseless _ => some (if raw = .invalid then unlicensedState X c now else raw)
  | .rejectedLease _ _ => some (unlicensedState X c now)
  | .renewed _ _ => some (unlicensedState X c now)

namespace Client
variable (X : Site) (E : Env) {now : Int64} (hclock : ∀ i, E.now i = now)
include hclock

/-- A settled validation leaves what `validatedState` says. -/
theorem settled_unlicensed {v : Verdict} {c c' : Core} (h : Settled X E v c c')
    (hafter : Unlicensed c'.cache) {s : State}
    (hs : validatedState X v c.rawState c'.cache now = some s) : c'.rawState = s := by
  cases h with
  | denied => cases hs
  | rejected htrust i k => exact absurd hafter.lease (by simp [renewedCache])
  | rejectedUntrusted htrust i =>
    obtain rfl := Option.some.inj hs
    simp only [hclock, resolvedAt_invalid_eq]
  | renewed htrust i k n => exact absurd hafter.lease (by simp [renewedCache])
  | renewedUntrusted htrust i n =>
    obtain rfl := Option.some.inj hs
    simp only [hclock, resolvedAt_invalid_eq]
  | leaseless j i n =>
    obtain rfl := Option.some.inj hs
    by_cases hraw : c.rawState = .invalid
    · simp only [hraw, if_true, hclock, resolvedAt_invalid_eq]
    · simp only [hraw, if_false]
      exact resolvedAt_paid X _ hraw _

/-- The same for the whole call. -/
theorem validate_unlicensed {w : World} (hafter : Unlicensed ((validate X E).run w).2.core.cache)
    {s : State} (hs : validatedState X (validationVerdict (E.replyAt w.ticks.request))
      w.core.rawState ((validate X E).run w).2.core.cache now = some s) :
    ((validate X E).run w).2.core.rawState = s := by
  obtain ⟨hsettled, hkept⟩ := validate_core X E w
  by_cases hv : Decodable (validationVerdict (E.replyAt w.ticks.request))
  · exact settled_unlicensed X E hclock (hsettled hv) hafter hs
  · rw [hkept hv]
    obtain hv | hv := not_decodable hv
    · rw [hv] at hs
      exact Option.some.inj hs
    · rw [hv] at hs
      exact Option.some.inj hs

end Client

open Client in
/-- The state after each operation of an unlicensed client, at the one clock reading of the call. -/
theorem unlicensed_resolution (X : Site) (E : Env) (w : World) (now : Int64)
    (hclock : ∀ i, E.now i = now) (hstore : StoreAnswers E) :
    let after := fun op : Op => (op.exec X E w).client
    (Unlicensed w.client.cache →
      (∀ op, op = .checkOnLaunch ∨ op = .refreshIfNeeded ∨ op = .startTrial →
        (after op).rawState = unlicensedState X (after op).cache now) ∧
      (((fetchConfig X E).run { w with ticks := {} }).1 = .ok () →
        (after .fetchConfig).rawState = unlicensedState X (after .fetchConfig).cache now) ∧
      (∀ e, ((fetchConfig X E).run { w with ticks := {} }).1 = .error e →
        (after .fetchConfig).rawState = w.client.rawState) ∧
      (Unlicensed (after .validate).cache → ∀ s, validatedState X (validationVerdict E.reply)
          w.client.rawState (after .validate).cache now = some s →
        (after .validate).rawState = s)) ∧
    (after .deactivate).rawState = unlicensedState X (after .deactivate).cache now ∧
    (∀ j, decodeStore w.store = some j → Unlicensed (after .relaunch).cache →
      (after .relaunch).rawState = unlicensedState X (after .relaunch).cache now) := by
  intro after
  have hfetch : (after .fetchConfig) =
      ((fetchConfig X E).run { w with ticks := {} }).2.client := by
    simp only [after, Op.exec, Op.code, Prog.run_bind, Prog.run_pure]
  refine ⟨?_, ?_, ?_⟩
  · intro h
    refine ⟨?_, ?_, ?_, ?_⟩
    · rintro op (rfl | rfl | rfl)
      · simp only [after, Op.exec, Op.code, Prog.run_bind, Prog.run_pure]
        exact checkOnLaunch_unlicensed X E hclock (w := { w with ticks := {} }) h
      · simp only [after, Op.exec, Op.code, Prog.run_bind, Prog.run_pure]
        exact refreshIfNeeded_unlicensed X E hclock (w := { w with ticks := {} }) h
      · simp only [after, Op.exec, Op.code, Prog.run_bind, Prog.run_pure]
        exact startTrial_unlicensed X E hclock (w := { w with ticks := {} }) h
    · intro hok
      rw [hfetch]
      obtain ⟨_, hraw⟩ | ⟨⟨e, he⟩, _⟩ :=
        fetchConfig_unlicensed X E hclock (w := { w with ticks := {} }) h
      · exact hraw
      · rw [he] at hok
        cases hok
    · intro e he
      rw [hfetch]
      obtain ⟨hok, _⟩ | ⟨_, hraw⟩ :=
        fetchConfig_unlicensed X E hclock (w := { w with ticks := {} }) h
      · rw [he] at hok
        cases hok
      · exact hraw
    · intro hafter s hs
      simp only [after, Op.exec, Op.code, Prog.run_bind, Prog.run_pure] at hafter hs ⊢
      exact validate_unlicensed X E hclock (w := { w with ticks := {} }) hafter hs
  · simp only [after, Op.exec, Op.code, Prog.run_bind, Prog.run_pure]
    exact deactivate_unlicensed X E hclock hstore { w with ticks := {} }
  · intro j hj hafter
    have hloaded : loadedJson E { w with ticks := {} } = some j := by
      rw [loadedJson, hstore.works.load]
      exact hj
    exact construct_unlicensed X E hclock hloaded hafter

/-- The operations that bring an unlicensed client to its place in the priority. -/
def Op.resolvesUnlicensed : Op → Bool
  | .relaunch => true
  | .validate => true
  | .checkOnLaunch => true
  | .refreshIfNeeded => true
  | .fetchConfig => true
  | .startTrial => true
  | .deactivate => true
  | _ => false

def trialCalls : List Call :=
  [(.relaunch, offlineAt 1781076300), (.startTrial, offlineAt 1781076300)]

/-- The week is over; the server cannot be reached. -/
def elapsedWorld : World :=
  Op.validate.exec weekSite (offlineAt 1781768000) (history weekSite [] trialCalls)

theorem trialCalls_unlicensed : Unlicensed (history weekSite [] trialCalls).client.cache := by
  decide +kernel

theorem elapsedWorld_stale : Unlicensed elapsedWorld.client.cache ∧
    elapsedWorld.client.rawState = .trial ∧
    unlicensedState weekSite elapsedWorld.client.cache 1781768000 = .expired := by
  decide +kernel

theorem offlineAt_answers (t : Int64) : StoreAnswers (offlineAt t) :=
  ⟨offlineAt_works t, fun _ => rfl⟩

/-- A validation that fails keeps an elapsed trial. -/
theorem unlicensed_unresolved : ¬∀ (X : Site) (store : Bytes) (calls : List Call) (op : Op)
    (E : Env) (now : Int64), (∀ i, E.now i = now) → StoreAnswers E → op.resolvesUnlicensed = true →
    (op ≠ .relaunch → Unlicensed (history X store calls).client.cache) →
    Unlicensed (op.exec X E (history X store calls)).client.cache →
    (op.exec X E (history X store calls)).client.rawState =
      unlicensedState X (op.exec X E (history X store calls)).client.cache now := by
  intro h
  obtain ⟨hafter, hraw, hdoc⟩ := elapsedWorld_stale
  have hstate : elapsedWorld.client.rawState =
      unlicensedState weekSite elapsedWorld.client.cache 1781768000 :=
    h weekSite [] trialCalls .validate (offlineAt 1781768000) 1781768000 (fun _ => rfl)
      (offlineAt_answers _) rfl (fun _ => trialCalls_unlicensed) hafter
  rw [hraw, hdoc] at hstate
  cases hstate

/-- The same client refreshed at the same time. -/
theorem unlicensed_resolution_week :
    (Op.refreshIfNeeded.exec weekSite (offlineAt 1781768000)
      (history weekSite [] trialCalls)).client.rawState =
    unlicensedState weekSite (Op.refreshIfNeeded.exec weekSite (offlineAt 1781768000)
      (history weekSite [] trialCalls)).client.cache 1781768000 :=
  ((unlicensed_resolution weekSite (offlineAt 1781768000) (history weekSite [] trialCalls)
    1781768000 (fun _ => rfl) (offlineAt_answers _)).1 trialCalls_unlicensed).1 _
    (.inr (.inl rfl))

end Keylight
