import Keylight.Turns

/-!
# The courses of one call

A call that neither builds the client nor deactivates it is steady, or turns
once: on an activation, on a verdict, on a licence that lapses offline, or on
the cache alone.
-/
namespace Keylight
open Bytes Sections Client

/-- What lets the call get to its validation request. -/
def Op.due (E : Env) (w : World) : Op → Prop
  | .checkOnLaunch => hasKey w.client.cache = true
  | .refreshIfNeeded => hasKey w.client.cache = true ∧
    refreshDue w.client.cache (E.now (guardReads w))
  | .activeRevalidate => hasKey w.client.cache = true ∧ ¬RecentlyRevalidated w.client (E.now 0)
  | _ => True

/-- The call takes its state from the cache, whatever the server says. -/
def Op.resolves (w : World) (op : Op) : Prop :=
  op = .startTrial ∨ op.graces ∧ hasKey w.client.cache = false

/-- The call takes settings over from its reply, and then its state from the cache. -/
def Op.takesSettings (X : Site) (E : Env) (w : World) : Op → Prop
  | .fetchConfig => JsonReply (Verifies X E) E.reply
  | .reportKeylessState s => ¬Debounced w.client.cache (keylessStateWire s) (E.now 0) ∧
    JsonReply (fun j => HasSettings j ∧ Verifies X E j) E.reply
  | _ => False

/-- A turn of one call, in which every time is a reading of the call. -/
abbrev CallTurn (E : Env) : World → World → Prop := Turn E fun _ => False

/-- How a call that neither builds the client nor deactivates it can go. -/
inductive Course (X : Site) (E : Env) (w : World) : Op → World → Prop where
  | steady {op : Op} {v : World} (h : Steady w v) : Course X E w op v
  | lapsed {op : Op} {v : World} (h : CallTurn E w v) (hraw : v.client.rawState = .expired) :
    Course X E w op v
  | activated {key : Bytes} {v : World} (hv : activationVerdict E.reply ≠ .refused)
    (hcore : Activated X E key (activationVerdict E.reply) (notedCore E w) v.core)
    (h : CallTurn E w v) : Course X E w (.activate key) v
  | validated {op : Op} {v : World} (hop : op.validates) (hdue : op.due E w)
    (hcore : Settled X E (validationVerdict E.reply) (notedCore E w) v.core)
    (h : CallTurn E w v) : Course X E w op v
  | resolved {op : Op} {v : World} (hop : op.resolves w ∨ op.takesSettings X E w)
    (hpaid : v.client.rawState = .licensed → hasPaidMaterial w.client.cache = true)
    (h : CallTurn E w v) : Course X E w op v

/-- A local step neither brings nor drops a lease or a key. -/
theorem Client.Local.paidMaterial {X : Site} {E : Env} {r : Result HttpResponse} {c c' : Core}
    (h : Local X E r c c') : hasPaidMaterial c'.cache = hasPaidMaterial c.cache := by
  have hnear : ∀ {a b : Cache}, Near a b → hasPaidMaterial b = hasPaidMaterial a := by
    intro a b h
    rw [hasPaidMaterial, hasPaidMaterial, hasKey, hasKey, h.lease, h.licenseKey]
  cases h with
  | kept h => exact hnear h
  | resolved h i => exact hnear h
  | configured hreply hbody n i h =>
    refine (hnear h).trans ?_
    unfold Client.configured
    split <;> rfl
  | stamped hnew n i h => exact (hnear h).trans rfl

namespace Course
variable {X : Site} {E : Env} {w u v : World} {op : Op}

/-- A validating call that gets to its request. -/
theorem validating (hop : op.validates) (hdue : op.due E w) (hstart : SameStart w u)
    (hu : Steady w u) (hv : v = ((Client.validate X E).run u).2 ∨
      Idle ((Client.validateAndReconcile X E).run u).2 v ∧
      Steady ((Client.validateAndReconcile X E).run u).2 v) : Course X E w op v := by
  have hreply : E.replyAt u.ticks.request = E.reply := by
    rw [hstart.request]
    rfl
  obtain rfl | ⟨hidle, hsteady⟩ := hv
  · have hcore := validate_core X E u
    rw [hstart.noted, hreply] at hcore
    obtain ⟨-, hv⟩ | ⟨hdecodes, hv⟩ := validate_turns (X := X) (E := E) (T := fun _ => False) u
    · exact .steady (hu.trans hv)
    · rw [hreply] at hdecodes
      exact .validated hop hdue (hcore.1 hdecodes) (hv.after hu.dated)
  · have hcore := validateAndReconcile_core X E u
    rw [hstart.noted, hreply, ← hidle.core] at hcore
    obtain ⟨-, hv | ⟨hv, hraw⟩⟩ | ⟨hdecodes, hv⟩ :=
      reconcile_turns (X := X) (E := E) (T := fun _ => False) u
    · exact .steady (hu.trans (hv.trans hsteady))
    · refine .lapsed ((hv.after hu.dated).steady hsteady) ?_
      exact (congrArg Standing.rawState hsteady.standing).trans hraw
    · rw [hreply] at hdecodes
      exact .validated hop hdue (hcore.1 hdecodes) ((hv.after hu.dated).steady hsteady)

/-- A call that took its state from the cache. -/
theorem resolving {r : Result HttpResponse} (hop : op.resolves w ∨ op.takesSettings X E w)
    (hlocal : Local X E r w.core v.core) (h : Resolved E (fun _ => False) w v) :
    Course X E w op v :=
  .resolved hop (fun hraw => hlocal.paidMaterial.symm.trans (h.paid hraw)) h.toTurn

/-- The copies of the anchor move together, to a reading of the call. -/
theorem anchored (h : Course X E w op v) : Anchored E (fun _ => False) w v := by
  cases h with
  | steady h => exact h.anchored
  | lapsed h _ => exact h.toAnchored
  | activated _ _ h => exact h.toAnchored
  | validated _ _ _ h => exact h.toAnchored
  | resolved _ _ h => exact h.toAnchored

end Course

theorem resolveLocally_local (X : Site) (E : Env) (r : Result HttpResponse) (w : World) :
    Local X E r w.core ((resolveLocally X E).run w).2.core := by
  obtain ⟨i, hcore⟩ := resolveLocally_core X E w
  rw [hcore]
  exact .resolved (.refl _) i

/-- A refresh goes one of the courses. -/
theorem refreshIfNeeded_course (X : Site) (E : Env) {w : World} (hticks : w.ticks = {}) :
    Course X E w .refreshIfNeeded ((Client.refreshIfNeeded X E).run w).2 := by
  have hnotify := (routinely_notify E).run w
  have hcore := ((quiet_notify E).run w).core
  cases hkey : hasKey w.client.cache with
  | true =>
    obtain ⟨hdue, hkept⟩ := refreshIfNeeded_due X E hkey rfl rfl
    have hnow := hnotify.trans ((routinely_nowFn E).run ((notify E).run w).2)
    have hread := ((quiet_nowFn E).run ((notify E).run w).2).core
    have hindex := hnow.request
    have hhardware : ((nowFn E).run ((notify E).run w).2).2.ticks.hardwareId =
        w.ticks.hardwareId := by
      change ((notify E).run w).2.ticks.hardwareId = _
      rw [notify_ticks]
    rw [notify_now, hticks, Nat.zero_add] at hdue hkept
    generalize ((nowFn E).run ((notify E).run w).2).2 = z
      at hnow hread hindex hhardware hdue hkept
    by_cases h : refreshDue w.client.cache (E.now (guardReads w))
    · rw [hdue h]
      refine .validating rfl ⟨hkey, h⟩ ⟨hread.trans hcore, ?_, hhardware⟩ hnow.toSteady
        (.inr ⟨(quiet_reportResult E _).run _, ((routinely_reportResult E _).run _).toSteady⟩)
      rw [hindex, hticks]
    · rw [hkept h]
      exact .steady (hnow.toSteady.trans ((routinely_keepState E).run z).toSteady)
  | false =>
    have hlocal : ((Client.refreshIfNeeded X E).run w).2 =
        ((resolveLocally X E).run ((notify E).run w).2).2 := by
      have hkey' : hasKey ((notify E).run w).2.client.cache = false := by
        rw [show ((notify E).run w).2.client.cache = w.client.cache from congrArg Core.cache hcore]
        exact hkey
      simp only [Client.refreshIfNeeded, hasStoredLicense, readCache, Prog.run_bind,
        Prog.run_read, hkey', Bool.false_eq_true, if_false]
    rw [hlocal]
    have hcored := resolveLocally_local X E E.reply ((notify E).run w).2
    rw [hcore] at hcored
    exact .resolving (.inl (.inr ⟨rfl, hkey⟩)) hcored
      ((resolves_locally _).after hnotify.toSteady)

/-- So does `activeRevalidate`. -/
theorem activeRevalidate_course (X : Site) (E : Env) {w : World} (hticks : w.ticks = {}) :
    Course X E w .activeRevalidate ((Client.activeRevalidate X E).run w).2 := by
  simp only [Client.activeRevalidate, hasStoredLicense, readCache, nowFn, Prog.run_bind,
    Prog.run_read, Prog.run_ite]
  split
  · next hkey =>
    simp only [Prog.run_atom]
    split
    · exact .steady ⟨rfl, rfl, Nat.le_succ w.ticks.now⟩
    · next hrecent =>
      rw [hticks] at hrecent
      simp only [Bool.false_eq_true, if_false, Prog.run_pure]
      refine .validating (u := { w with
        ticks.now := w.ticks.now + 1
        client.lastActiveRevalidateAt := E.now w.ticks.now }) rfl ⟨hkey, hrecent⟩ ⟨rfl, ?_, rfl⟩
          ⟨rfl, rfl, Nat.le_succ w.ticks.now⟩ (.inl rfl)
      exact congrArg Ticks.request hticks
  · exact .steady (.refl w)

theorem checkOnLaunch_course (X : Site) (E : Env) {w : World} (hticks : w.ticks = {}) :
    Course X E w .checkOnLaunch ((Client.checkOnLaunch X E).run w).2 := by
  simp only [Client.checkOnLaunch, hasStoredLicense, readCache, Prog.run_bind, Prog.run_read,
    Prog.run_ite]
  split
  · next hkey =>
    refine .validating rfl hkey ⟨rfl, congrArg Ticks.request hticks, rfl⟩ (.refl w) (.inr ?_)
    exact ⟨(quiet_reportResult E _).run _, ((routinely_reportResult E _).run _).toSteady⟩
  · next hkey =>
    exact .resolving (.inl (.inr ⟨rfl, Bool.eq_false_iff.mpr hkey⟩))
      (resolveLocally_local X E E.reply w) (resolves_locally w)

/-- Every call goes one of these ways, unless it builds the client or deactivates it. -/
theorem Op.exec_course (X : Site) (E : Env) {op : Op} (w : World) (hlaunch : op ≠ .relaunch)
    (hdeactivate : op ≠ .deactivate) :
    Course X E { w with ticks := {} } op (op.exec X E w) := by
  simp only [Op.exec]
  generalize hw : ({ w with ticks := {} } : World) = w₀
  have hticks : w₀.ticks = {} := by
    rw [← hw]
  have hreply : E.replyAt w₀.ticks.request = E.reply := by
    rw [hticks]
    rfl
  cases op with
  | relaunch => exact absurd rfl hlaunch
  | deactivate => exact absurd rfl hdeactivate
  | activate key =>
    have hcore := activate_core X E key w₀
    rw [Op.code, run_ignored]
    obtain h | ⟨hv, h⟩ := activate_turns (X := X) (E := E) (T := fun _ => False) key w₀
    · exact .steady h
    · rw [hreply] at hv hcore
      exact .activated hv hcore h
  | validate =>
    rw [Op.code, run_ignored]
    exact .validating rfl trivial ⟨rfl, congrArg Ticks.request hticks, rfl⟩ (.refl w₀) (.inl rfl)
  | checkOnLaunch =>
    rw [Op.code, run_ignored]
    exact checkOnLaunch_course X E hticks
  | refreshIfNeeded =>
    rw [Op.code, run_ignored]
    exact refreshIfNeeded_course X E hticks
  | activeRevalidate =>
    rw [Op.code, run_ignored]
    exact activeRevalidate_course X E hticks
  | startTrial =>
    rw [Op.code, run_ignored]
    exact .resolving (.inl (.inl rfl)) (startTrial_local X E E.reply w₀) (resolves_startTrial w₀)
  | fetchConfig =>
    have hlocal := fetchConfig_local X E w₀
    rw [Op.code, run_ignored]
    obtain h | ⟨hr, h⟩ := fetchConfig_turns (X := X) (E := E) (T := fun _ => False) w₀
    · exact .steady h
    · rw [hreply] at hr
      exact .resolving (.inr hr) hlocal h
  | freeTierInstanceId =>
    rw [Op.code, run_ignored]
    exact .steady (steadily (routinely_freeTierInstanceId E) w₀)
  | reportKeylessState s =>
    have hlocal := reportKeylessState_local X E s w₀
    obtain h | ⟨hdebounced, hr, h⟩ :=
      reportKeylessState_turns (X := X) (E := E) (T := fun _ => False) s w₀
    · exact .steady h
    · rw [hreply] at hr
      rw [hticks] at hdebounced
      exact .resolving (.inr ⟨hdebounced, hr⟩) hlocal h

end Keylight
