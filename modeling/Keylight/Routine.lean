import Keylight.Attempts
import Keylight.Writes

/-!
# Routine sections

Most sections leave alone what announcements and the rollback guard go by, send
nothing and do not sleep. A helper is `Routinely` when all of its sections are
such; what is left are requests, the writes of a reply's lease and `setState`.
-/
namespace Keylight
open Bytes Sections Client

/-- What announcements and the rollback guard go by. -/
structure Standing where
  expiresAt : Option Int64
  lastValidatedOnline : Int64
  rawState : State
  anchor : Int64
  lastSeenExpiry : Option Int64

def World.standing (w : World) : Standing :=
  ⟨w.client.cache.expiresAt, w.client.cache.lastValidatedOnline, w.client.rawState,
    w.client.anchor, w.client.lastSeenExpiry⟩

/-- The lifecycle events among some events, in order. -/
def announced (events : List Event) : List LifecycleEvent :=
  events.filterMap fun
    | .lifecycle ev => some ev
    | _ => none

@[simp] theorem announced_append (xs ys : List Event) :
    announced (xs ++ ys) = announced xs ++ announced ys := List.filterMap_append

/-- Neither sent nor slept; the clock may have been read. -/
structure Hushed (w v : World) : Prop where
  request : v.ticks.request = w.ticks.request
  sleeps : sleeps v.log = sleeps w.log
  now : w.ticks.now ≤ v.ticks.now

/-- Nothing announced, and nothing changed that decides on it. -/
structure Steady (w v : World) : Prop where
  standing : v.standing = w.standing
  announced : announced v.log = announced w.log
  now : w.ticks.now ≤ v.ticks.now

structure Routine (w v : World) : Prop extends Hushed w v, Steady w v

namespace Hushed

theorem refl (w : World) : Hushed w w := ⟨rfl, rfl, Nat.le_refl _⟩

theorem trans {u v w : World} (h₁ : Hushed u v) (h₂ : Hushed v w) : Hushed u w :=
  ⟨h₂.request.trans h₁.request, h₂.sleeps.trans h₁.sleeps, h₁.now.trans h₂.now⟩

end Hushed

namespace Steady

theorem refl (w : World) : Steady w w := ⟨rfl, rfl, Nat.le_refl _⟩

theorem trans {u v w : World} (h₁ : Steady u v) (h₂ : Steady v w) : Steady u w :=
  ⟨h₂.standing.trans h₁.standing, h₂.announced.trans h₁.announced, h₁.now.trans h₂.now⟩

end Steady

namespace Routine

theorem refl (w : World) : Routine w w := ⟨.refl w, rfl, rfl⟩

theorem trans {u v w : World} (h₁ : Routine u v) (h₂ : Routine v w) : Routine u w :=
  ⟨h₁.toHushed.trans h₂.toHushed, h₂.standing.trans h₁.standing, h₂.announced.trans h₁.announced⟩

/-- A section that records nothing. -/
theorem silent {w v : World} (hstanding : v.standing = w.standing) (hlog : v.log = w.log)
    (hrequest : v.ticks.request = w.ticks.request) (hnow : w.ticks.now ≤ v.ticks.now) :
    Routine w v :=
  ⟨⟨hrequest, congrArg Keylight.sleeps hlog, hnow⟩, hstanding, congrArg Keylight.announced hlog⟩

/-- A section that records events of other kinds. -/
theorem record {w v : World} (es : List Event) (hsleeps : Keylight.sleeps es = [])
    (hannounced : Keylight.announced es = []) (hstanding : v.standing = w.standing)
    (hlog : v.log = w.log ++ es) (hticks : v.ticks = w.ticks) : Routine w v := by
  refine ⟨⟨?_, ?_, ?_⟩, hstanding, ?_⟩
  · rw [hticks]
  · rw [hlog, sleeps_append, hsleeps, List.append_nil]
  · rw [hticks]
  · rw [hlog, announced_append, hannounced, List.append_nil]

end Routine

/-- Every section of `p` is routine. -/
def Routinely (p : Code α) : Prop := Each Routine (fun _ => True) p

namespace Routinely

theorem run {p : Code α} (h : Routinely p) (w : World) : Routine w (p.run w).2 :=
  (Each.run h Routine.refl (fun _ _ _ => Routine.trans) w).1

theorem pure (a : α) : Routinely (Pure.pure a) := trivial

theorem bind {p : Code α} {k : α → Code β} (hp : Routinely p) (hk : ∀ a, Routinely (k a)) :
    Routinely (p >>= k) := Each.bind hp fun a _ => hk a

theorem ite {c : Prop} [Decidable c] {p q : Code α} (hp : Routinely p) (hq : Routinely q) :
    Routinely (if c then p else q) := Each.ite (fun _ => hp) fun _ => hq

theorem read (f : World → α) : Routinely (.read f) := Each.read Routine.refl fun _ => trivial

/-- A write to the cache, beside the expiry and the last validation. -/
theorem writeCache {f : Cache → Cache} {es : List Event}
    (hf : ∀ c, (f c).expiresAt = c.expiresAt ∧ (f c).lastValidatedOnline = c.lastValidatedOnline)
    (hsleeps : sleeps es = []) (hannounced : announced es = []) :
    Routinely (Keylight.writeCache f es) := by
  refine Each.modify (fun w => .record es hsleeps hannounced ?_ rfl rfl) trivial
  simp only [World.standing, (hf _).1, (hf _).2]

end Routinely

namespace Client
variable (X : Site) (E : Env)

theorem routinely_nowFn : Routinely (nowFn E) :=
  Each.atom fun w => ⟨.silent rfl rfl rfl (Nat.le_succ w.ticks.now), trivial⟩

theorem routinely_jsonHeaders : Routinely (jsonHeaders X E) :=
  .bind (Each.atom fun _ => ⟨.silent rfl rfl rfl (Nat.le_refl _), trivial⟩) fun _ => .pure _

theorem routinely_clockUntrusted : Routinely (clockUntrusted E) :=
  .bind (.read _) fun _ => .ite (.bind (routinely_nowFn E) fun _ => .pure _) (.pure _)

theorem routinely_state : Routinely (state E) :=
  .bind (routinely_clockUntrusted E) fun _ => .ite (.pure _) (.read _)

theorem routinely_report (s : State) : Routinely (report E s) :=
  .bind (routinely_clockUntrusted E) fun _ => .ite (.pure _) (.pure _)

theorem routinely_reportResult (r : Result State) : Routinely (reportResult E r) := by
  cases r with
  | error e => exact .pure _
  | ok s => exact routinely_report E s

theorem routinely_keepState : Routinely (keepState E) :=
  .bind (.read _) fun s => routinely_report E s

theorem routinely_notify : Routinely (notify E) := by
  refine .bind (Each.await (fun _ => .silent rfl rfl rfl (Nat.le_refl _)) trivial) fun _ => ?_
  refine .bind (routinely_state E) fun reported => ?_
  refine .bind (Each.modify (fun w => ?_) trivial) fun _ => ?_
  · split
    · exact .refl _
    · exact .record [.queued reported] rfl rfl rfl rfl rfl
  · exact Each.modify (fun _ => .silent rfl rfl rfl (Nat.le_refl _)) trivial

theorem routinely_checkTrial : Routinely (checkTrial X E) := by
  refine .bind (.read _) fun duration => .ite (.pure _) (.bind (.read _) fun start => ?_)
  cases start with
  | none => exact .pure _
  | some t =>
    exact .bind (.bind (routinely_nowFn E) fun _ => .pure _) fun _ => .ite (.pure _) (.pure _)

theorem routinely_resolveWithTrial (s : State) : Routinely (resolveWithTrial X E s) := by
  refine .ite (.pure _) (.bind (routinely_checkTrial X E) fun trial => ?_)
  cases trial with
  | active => exact .pure _
  | expired => exact .bind (.read _) fun _ => .pure _
  | notStarted => exact .bind (.read _) fun _ => .pure _

theorem routinely_resolveCurrentState : Routinely (resolveCurrentState X E) :=
  .bind (.read _) fun _ => .ite (.read _) (routinely_resolveWithTrial X E _)

theorem routinely_resolveFromLease (lease : Option Lease) :
    Routinely (resolveFromLease X E lease) := by
  cases lease with
  | none => exact .read _
  | some l =>
    refine .bind (routinely_nowFn E) fun _ => .ite (.pure _) (.ite (.pure _) (.ite (.pure _) ?_))
    exact .pure _

theorem routinely_saveCache : Routinely (saveCache E) := by
  refine .bind (Each.await (fun _ => .silent rfl rfl rfl (Nat.le_refl _)) trivial) fun _ => ?_
  refine .bind (Each.atom fun w => ⟨.record [.snapshot] rfl rfl rfl rfl rfl, trivial⟩)
    fun blob => ?_
  refine .bind (Each.atom fun w => ⟨?_, trivial⟩) fun r => ?_
  · -- the save moves its own input on
    refine ⟨⟨rfl, ?_, Nat.le_refl _⟩, rfl, ?_⟩
    · exact (sleeps_append _ _).trans (List.append_nil _)
    · exact (announced_append _ _).trans (List.append_nil _)
  · exact .bind (Each.modify (fun _ => .silent rfl rfl rfl (Nat.le_refl _)) trivial) fun _ =>
      .pure _

theorem routinely_storeClear : Routinely (storeClear E) := by
  refine Each.atom fun w => ⟨⟨⟨rfl, ?_, Nat.le_refl _⟩, rfl, ?_⟩, trivial⟩
  · exact (sleeps_append _ _).trans (List.append_nil _)
  · exact (announced_append _ _).trans (List.append_nil _)

theorem routinely_updateStore (keepTrial : Bool) : Routinely (updateStore E keepTrial) :=
  .ite (routinely_saveCache E) (routinely_storeClear E)

theorem routinely_clearLease : Routinely (clearLease E) :=
  .bind (.writeCache (fun _ => ⟨rfl, rfl⟩) rfl rfl) fun _ =>
    .bind (routinely_saveCache E) fun _ => .pure _

theorem routinely_verifyConfig (j : Json) : Routinely (verifyConfig X E j) := by
  refine .ite (.pure _) (.ite (.pure _) (.ite (.pure _) ?_))
  cases X.cfg.trustedKeys.lookup (j.get (ascii "kid")).asString with
  | none => exact .pure _
  | some pub => exact .bind (routinely_nowFn E) fun _ => .ite (.pure _) (.ite (.pure _) (.pure _))

theorem routinely_applyConfigFields (j : Json) : Routinely (applyConfigFields X E j) := by
  refine .ite (.pure _) (.bind (routinely_verifyConfig X E j) fun vr => .ite (.pure _) ?_)
  exact .bind (.writeCache (fun _ => ⟨rfl, rfl⟩) rfl rfl) fun _ =>
    .bind (routinely_saveCache E) fun _ => .pure _

theorem routinely_cachedHardwareIdValue : Routinely (cachedHardwareIdValue E) := by
  refine .bind (Each.atom fun _ => ⟨.silent rfl rfl rfl (Nat.le_refl _), trivial⟩) fun live => ?_
  cases nonEmpty live with
  | none => exact .read _
  | some id =>
    refine .bind (Each.atom fun w => ?_) fun changed => ?_
    · split
      · exact ⟨.silent rfl rfl rfl (Nat.le_refl _), trivial⟩
      · exact ⟨.refl w, trivial⟩
    · cases changed with
      | true => exact .bind (routinely_saveCache E) fun _ => .pure _
      | false => exact .pure _

theorem routinely_machineHash : Routinely (machineHash X E) :=
  .bind (routinely_cachedHardwareIdValue E) fun _ => .pure _

theorem routinely_appendAttributionFields (fields : Fields) (b : Bool) :
    Routinely (appendAttributionFields X E fields b) := by
  cases b with
  | true => exact .bind (.read _) fun _ => .bind (routinely_machineHash X E) fun _ => .pure _
  | false => exact .bind (.pure none) fun _ => .bind (routinely_machineHash X E) fun _ => .pure _

theorem routinely_freeTierInstanceId : Routinely (freeTierInstanceId E) := by
  refine .bind (Each.atom fun w => ?_) fun known => ?_
  · split
    · exact ⟨.refl w, trivial⟩
    · exact ⟨.silent rfl rfl rfl (Nat.le_refl _), trivial⟩
  · cases known with
    | some id => exact .pure _
    | none =>
      refine .bind (routinely_saveCache E) fun r => .ite ?_ (.read _)
      exact .bind (.writeCache (fun _ => ⟨rfl, rfl⟩) rfl rfl) fun _ => .pure _

theorem routinely_stampAndSave : Routinely (stampAndSave E) := by
  refine .bind (Each.atom fun w => ?_) fun started => ?_
  · split
    · exact ⟨.refl w, trivial⟩
    · exact ⟨.silent rfl rfl rfl (Nat.le_succ w.ticks.now), trivial⟩
  · cases started with
    | true => exact .bind (routinely_saveCache E) fun _ => .pure _
    | false => exact .pure _

theorem routinely_armDebounce (wire : Bytes) (now : Int64) :
    Routinely (armDebounce E wire now) :=
  .bind (.writeCache (fun _ => ⟨rfl, rfl⟩) rfl rfl) fun _ =>
    .bind (routinely_saveCache E) fun _ => .pure _

theorem routinely_keylessDebounced (wire : Bytes) : Routinely (keylessDebounced E wire) :=
  .bind (.read _) fun _ => .ite (.bind (routinely_nowFn E) fun _ => .pure _) (.pure _)

theorem routinely_absorbSettings (body : Bytes) : Routinely (absorbSettings X E body) := by
  unfold absorbSettings
  cases Json.parse body with
  | error e => exact .pure _
  | ok j => exact routinely_applyConfigFields X E j

end Client
end Keylight
