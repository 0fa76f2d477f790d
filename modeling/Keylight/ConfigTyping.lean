import Mathlib.Logic.Relation
import Keylight.JsonKeys
import Keylight.SignedConfig

/-!
# Typed settings

A reply carries the server's settings under two keys. The presence of a key
decides that its setting changes, a coercing accessor decides to what: a value
of another type, or out of range, replaces what was learned.
-/
namespace Keylight
open Bytes Sections Client

/-- The trial length a body carries: an integer that an `int` holds. -/
def carriedDays (j : Json) : Option Int32 :=
  match j.get (ascii "trial_duration_days") with
  | .int i => if -2 ^ 31 ≤ i.toInt ∧ i.toInt < 2 ^ 31 then some i.toInt32 else none
  | _ => none

/-- The free-tier flag a body carries. -/
def carriedFree (j : Json) : Option Bool :=
  match j.get (ascii "free_tier_enabled") with
  | .bool b => some b
  | _ => none

/-- What absorbing a body makes of the settings. -/
def mergeSettings (j : Json) (p : Settings) : Settings :=
  (if jsonHas j (ascii "trial_duration_days") then
    some (j.get (ascii "trial_duration_days")).asInt.toInt32 else p.1,
   if jsonHas j (ascii "free_tier_enabled") then
    some (j.get (ascii "free_tier_enabled")).asBool else p.2)

theorem settingsOf_mergeConfig (j : Json) (c : Cache) :
    settingsOf (mergeConfig j c) = mergeSettings j (settingsOf c) := rfl

theorem configured_unsigned {X : Site} (hflag : X.cfg.requireSignedConfig = false) (j : Json)
    (t : Int64) (c : Cache) : configured X j t c = mergeConfig j c := by
  simp [configured, verifyConfigAt, verifyConfig, hflag, isOk]

theorem applied_settings {X : Site} (hflag : X.cfg.requireSignedConfig = false) (E : Env)
    (j : Json) (w : World) :
    settingsOf ((applyConfigFields X E j).run w).2.client.cache =
      mergeSettings j (settingsOf w.client.cache) := by
  change settingsOf ((applyConfigFields X E j).run w).2.core.cache = _
  rw [applyConfigFields_core, configured_unsigned hflag]
  exact settingsOf_mergeConfig j w.core.cache

/-- The key is absent, the value an integer in range, or the setting what it coerces to. -/
def DaysTyped (j : Json) (days : Option Int32) : Prop :=
  jsonHas j (ascii "trial_duration_days") = false ∨ (carriedDays j).isSome = true ∨
    days = some (j.get (ascii "trial_duration_days")).asInt.toInt32

/-- The key is absent, the value a boolean, or the setting what it coerces to. -/
def FreeTyped (j : Json) (free : Option Bool) : Prop :=
  jsonHas j (ascii "free_tier_enabled") = false ∨ (carriedFree j).isSome = true ∨
    free = some (j.get (ascii "free_tier_enabled")).asBool

theorem get_absent {j : Json} (hj : JValue.WellKeyed j) {key : Bytes}
    (h : jsonHas j key = false) : j.get key = .null := by
  cases hj with
  | object _ hkeys _ _ =>
    simp only [jsonHas, JValue.keys, List.contains_eq_mem, decide_eq_false_iff_not, hkeys,
      Option.not_isSome_iff_eq_none] at h
    rw [JValue.get, h]
    rfl
  | _ => rfl

variable {j : Json} (hj : JValue.WellKeyed j)
include hj

/-- The days taken are those the body carries, or the old ones, exactly when they are typed. -/
theorem mergeSettings_days (p : Settings) :
    (mergeSettings j p).1 = (carriedDays j).or p.1 ↔ DaysTyped j p.1 := by
  cases hhas : jsonHas j (ascii "trial_duration_days") with
  | false =>
    have hnone : carriedDays j = none := by rw [carriedDays, get_absent hj hhas]
    simp [mergeSettings, DaysTyped, hhas, hnone]
  | true =>
    cases hd : carriedDays j with
    | none =>
      simp only [mergeSettings, DaysTyped, hhas, hd, if_true, Option.none_or, Option.isSome_none,
        Bool.false_eq_true, Bool.true_eq_false, false_or]
      exact eq_comm
    | some d =>
      have hread : (j.get (ascii "trial_duration_days")).asInt.toInt32 = d := by
        unfold carriedDays at hd
        split at hd
        · next i hi =>
          split at hd
          · cases hd
            rw [hi]
            rfl
          · cases hd
        · cases hd
      simp [mergeSettings, DaysTyped, hhas, hd, hread]

/-- The same for the free tier. -/
theorem mergeSettings_free (p : Settings) :
    (mergeSettings j p).2 = (carriedFree j).or p.2 ↔ FreeTyped j p.2 := by
  cases hhas : jsonHas j (ascii "free_tier_enabled") with
  | false =>
    have hnone : carriedFree j = none := by rw [carriedFree, get_absent hj hhas]
    simp [mergeSettings, FreeTyped, hhas, hnone]
  | true =>
    cases hd : carriedFree j with
    | none =>
      simp only [mergeSettings, FreeTyped, hhas, hd, if_true, Option.none_or, Option.isSome_none,
        Bool.false_eq_true, Bool.true_eq_false, false_or]
      exact eq_comm
    | some b =>
      have hread : (j.get (ascii "free_tier_enabled")).asBool = b := by
        unfold carriedFree at hd
        split at hd
        · next hi =>
          cases hd
          rw [hi]
          rfl
        · cases hd
      simp [mergeSettings, FreeTyped, hhas, hd, hread]

omit hj

/-- A body that a 200 reply of the call delivered. -/
def Delivered (X : Site) (w : World) (call : Call) (j : Json) : Prop :=
  ∃ es req resp, (perform X call w).log = w.log ++ es ∧ Event.exchange req (.ok resp) ∈ es ∧
    resp.status = 200 ∧ Json.parse resp.body = .ok j

/-- From the first settings to the second by absorbing bodies that the call delivered. -/
def Absorbed (X : Site) (w : World) (call : Call) : Settings → Settings → Prop :=
  Relation.ReflTransGen fun p q => ∃ j, Delivered X w call j ∧ q = mergeSettings j p

/-- The settings of a client change by what its replies deliver. -/
theorem exec_absorbed {X : Site} (hflag : X.cfg.requireSignedConfig = false) (w : World)
    (call : Call) (hlaunch : call.1 ≠ .relaunch) (hdeactivate : call.1 ≠ .deactivate) :
    Absorbed X w call (settingsOf w.client.cache)
      (settingsOf (perform X call w).client.cache) := by
  obtain ⟨op, E⟩ := call
  refine (op.exec_absorbs (A := Absorbed X w (op, E) (settingsOf w.core.cache))
    (B := fun _ => True) (fun _ _ => trivial) hlaunch hdeactivate .refl trivial
    (C := Delivered X w (op, E)) ?_ ?_).1
  · intro j hj
    refine holds_absorb (fun _ _ => trivial) fun u hu => ?_
    rw [configured_unsigned hflag, settingsOf_mergeConfig]
    exact hu.tail ⟨j, hj, rfl⟩
  · rintro - resp j ⟨es, req, hlog, hmem⟩ hstatus hbody
    exact ⟨es, req, resp, hlog, hmem, hstatus, hbody⟩

/-- Without the flag a client's settings change only by absorbing what a 200 reply delivered, and
a body's fields are heeded as they are typed exactly where they are absent, typed, or coerce to
the setting in force. -/
theorem config_typing (X : Site) (hflag : X.cfg.requireSignedConfig = false) :
    (∀ (w : World) (call : Call), call.1 ≠ .relaunch → call.1 ≠ .deactivate →
      Absorbed X w call (settingsOf w.client.cache)
        (settingsOf (perform X call w).client.cache)) ∧
    ∀ (E : Env) (w : World) (body : Bytes) (j : Json), Json.parse body = .ok j →
      let old := settingsOf w.client.cache
      let new := settingsOf ((applyConfigFields X E j).run w).2.client.cache
      new = mergeSettings j old ∧
      (new.1 = (carriedDays j).or old.1 ↔ DaysTyped j old.1) ∧
      (new.2 = (carriedFree j).or old.2 ↔ FreeTyped j old.2) := by
  refine ⟨fun w call => exec_absorbed hflag w call, fun E w body j hparse => ?_⟩
  intro old new
  have hj := parse_wellKeyed hparse
  have hnew : new = mergeSettings j old := applied_settings hflag E j w
  rw [hnew]
  exact ⟨rfl, mergeSettings_days hj old, mergeSettings_free hj old⟩

def nullMember : Member where
  text := [110, 117, 108, 108]
  value := .null
  reads := reads_null
  key := ascii "trial_duration_days"

/-- `{"trial_duration_days":null}` -/
def nullBody : Bytes := jsonObject [nullMember.render]

def nullValue : Json := .object [nullMember.key] [(nullMember.key, .null)]

theorem parse_nullBody : Json.parse nullBody = .ok nullValue :=
  (reads_jsonObject [nullMember] (List.nodup_singleton _)).parse

/-- A client that has learned a trial of fourteen days. -/
def learnedWorld : World := { client.cache.serverTrialDays := some 14 }

/-- A trial length of null switches the trial off. -/
theorem null_unheeded : ¬∀ (X : Site), X.cfg.requireSignedConfig = false →
    ∀ (E : Env) (w : World) (body : Bytes) (j : Json), Json.parse body = .ok j →
      let old := settingsOf w.client.cache
      let new := settingsOf ((applyConfigFields X E j).run w).2.client.cache
      new.1 = (carriedDays j).or old.1 ∧ new.2 = (carriedFree j).or old.2 := by
  intro h
  obtain ⟨hdays, -⟩ := h vectorSite rfl (offlineAt 0) learnedWorld nullBody nullValue parse_nullBody
  rw [applied_settings rfl] at hdays
  have hlearned : settingsOf learnedWorld.client.cache = (some 14, none) := rfl
  have hmerged : (mergeSettings nullValue (some 14, none)).1 = some 0 := by decide
  have hcarried : carriedDays nullValue = none := by decide
  rw [hlearned, hmerged, hcarried] at hdays
  exact absurd hdays (by decide)

/-- The null body absorbed, and a fetch that fails. -/
theorem config_typing_vector :
    Absorbed vectorSite learnedWorld (.fetchConfig, offlineAt 0) (some 14, none)
      (settingsOf (perform vectorSite (.fetchConfig, offlineAt 0) learnedWorld).client.cache) ∧
    settingsOf ((applyConfigFields vectorSite (offlineAt 0) nullValue).run
      learnedWorld).2.client.cache = (some 0, none) := by
  obtain ⟨hcall, hbody⟩ := config_typing vectorSite rfl
  refine ⟨hcall learnedWorld (.fetchConfig, offlineAt 0) (by decide) (by decide), ?_⟩
  have hmerged : mergeSettings nullValue (some 14, none) = (some 0, none) := by decide
  rw [← hmerged]
  exact (hbody (offlineAt 0) learnedWorld nullBody nullValue parse_nullBody).1

end Keylight
