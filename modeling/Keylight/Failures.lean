import Keylight.OfflineBound

/-!
# Calls that fail

An activation that errs or is declined, a settings fetch that errs and a
validation without a verdict leave the licence as it was. What is left to write
is a hardware id that the request read for the first time, and one save of it.
-/
namespace Keylight
open Bytes Sections Client

/-- What is recorded from `w` to `v`, observations left out. -/
def Wrote (es : List Event) (w v : World) : Prop :=
  ∃ fs, v.log = w.log ++ fs ∧ fs.filter (fun e => !e.isObservation) = es

theorem Wrote.trans {es fs : List Event} {u v w : World} (h₁ : Wrote es u v)
    (h₂ : Wrote fs v w) : Wrote (es ++ fs) u w := by
  obtain ⟨gs, hgs, hes⟩ := h₁
  obtain ⟨hs, hhs, hfs⟩ := h₂
  refine ⟨gs ++ hs, ?_, ?_⟩
  · rw [hhs, hgs, List.append_assoc]
  · rw [List.filter_append, hes, hfs]

theorem Idle.wrote {w v : World} (h : Idle w v) : Wrote [] w v := by
  obtain ⟨es, hlog, hes⟩ := h.log
  refine ⟨es, hlog, ?_⟩
  rw [List.filter_eq_nil_iff]
  intro e he
  simp [hes e he]

/-- The raw state and the anchor stay; the cache becomes `c`, and `es` are the writes. -/
structure Leaves (c : Cache) (es : List Event) (w v : World) : Prop where
  cache : v.client.cache = c
  rawState : v.client.rawState = w.client.rawState
  anchor : v.client.anchor = w.client.anchor
  wrote : Wrote es w v

/-- What a failed call may do: nothing, or cache the hardware id that is its reading number `i` and
rewrite the store once from that cache. -/
inductive Intact (E : Env) (i : Nat) (w v : World) : Prop where
  | untouched (h : Leaves w.client.cache [] w v) (hstore : v.store = w.store)
  | noted (id : Bytes) (r : Result Unit) (hread : nonEmpty (E.hardwareId i) = some id)
    (hnew : w.client.cache.hardwareId ≠ some id)
    (h : Leaves { w.client.cache with hardwareId := some id }
      [.snapshot, .saved (buildBlob v.client.cache) r] w v)
    (hstore : v.store = if isOk r then buildBlob v.client.cache else w.store)

/-- The calls of which this is said. -/
inductive Fails (X : Site) (E : Env) (w : World) : Op → Prop where
  | activate {key : Bytes} {e : Error} (h : ((activate X E key).run w).1 = .error e) :
    Fails X E w (.activate key)
  | declined {key : Bytes} {resp : HttpResponse} {j : Json} (hreply : E.reply = .ok resp)
    (hstatus : resp.status = 200) (hbody : Json.parse resp.body = .ok j)
    (h : (j.get (ascii "activated")).asBool = false) : Fails X E w (.activate key)
  | fetchConfig {e : Error} (h : ((fetchConfig X E).run w).1 = .error e) : Fails X E w .fetchConfig
  | validate (h : Transient E.reply) : Fails X E w .validate

namespace Intact
variable {E : Env} {i : Nat}

theorem idle {w v : World} (h : Idle w v) : Intact E i w v := by
  refine .untouched ⟨?_, ?_, ?_, h.wrote⟩ h.store
  · exact congrArg Core.cache h.core
  · exact congrArg Core.rawState h.core
  · exact congrArg Core.anchor h.core

/-- Observations in front of a failed call change nothing. -/
theorem before {u v w : World} (hidle : Idle u v) (h : Intact E i v w) :
    Intact E i u w := by
  have hcache : v.client.cache = u.client.cache := congrArg Core.cache hidle.core
  have hraw : v.client.rawState = u.client.rawState := congrArg Core.rawState hidle.core
  have hanchor : v.client.anchor = u.client.anchor := congrArg Core.anchor hidle.core
  cases h with
  | untouched h hstore =>
    exact .untouched ⟨h.cache.trans hcache, h.rawState.trans hraw, h.anchor.trans hanchor,
      hidle.wrote.trans h.wrote⟩ (hstore.trans hidle.store)
  | noted id r hread hnew h hstore =>
    rw [hcache] at hnew
    rw [hidle.store] at hstore
    refine .noted id r hread hnew ⟨?_, h.rawState.trans hraw, h.anchor.trans hanchor,
      hidle.wrote.trans h.wrote⟩ hstore
    rw [h.cache, hcache]

/-- Nor do those behind it. -/
theorem after {u v w : World} (h : Intact E i u v) (hidle : Idle v w) :
    Intact E i u w := by
  have hcache : w.client.cache = v.client.cache := congrArg Core.cache hidle.core
  have hraw : w.client.rawState = v.client.rawState := congrArg Core.rawState hidle.core
  have hanchor : w.client.anchor = v.client.anchor := congrArg Core.anchor hidle.core
  cases h with
  | untouched h hstore =>
    exact .untouched ⟨hcache.trans h.cache, hraw.trans h.rawState, hanchor.trans h.anchor,
      h.wrote.trans hidle.wrote⟩ (hidle.store.trans hstore)
  | noted id r hread hnew h hstore =>
    refine .noted id r hread hnew ⟨hcache.trans h.cache, hraw.trans h.rawState,
      hanchor.trans h.anchor, ?_⟩ ?_
    · rw [hcache]
      exact h.wrote.trans hidle.wrote
    · rw [hidle.store, hstore, hcache]

/-- A call reads its inputs from the first one on. -/
theorem restarted {w v : World} (h : Intact E i { w with ticks := {} } v) : Intact E i w v := by
  cases h with
  | untouched h hstore => exact .untouched ⟨h.cache, h.rawState, h.anchor, h.wrote⟩ hstore
  | noted id r hread hnew h hstore =>
    exact .noted id r hread hnew ⟨h.cache, h.rawState, h.anchor, h.wrote⟩ hstore

end Intact

namespace Client
variable (X : Site) (E : Env)

/-- The hardware id is the one thing that a request writes. -/
theorem intact_cachedHardwareIdValue (w : World) :
    Intact E w.ticks.hardwareId w ((cachedHardwareIdValue E).run w).2 := by
  simp only [cachedHardwareIdValue, hardwareIdFn, Prog.run_bind, Prog.run_atom, noteHardwareId]
  cases hread : nonEmpty (E.hardwareId w.ticks.hardwareId) with
  | none => exact .idle (.silent rfl rfl rfl rfl rfl le_rfl)
  | some id =>
    simp only [Prog.run_bind, Prog.run_atom, Prog.run_ite]
    by_cases hnew : w.client.cache.hardwareId = some id
    · simp only [hnew, ne_eq, not_true_eq_false, if_false, Bool.false_eq_true, Prog.run_pure]
      exact .idle (.silent rfl rfl rfl rfl rfl le_rfl)
    · simp only [ne_eq, hnew, not_false_eq_true, if_true, Prog.run_pure]
      rw [saveCache_run]
      refine .noted id (outcome (E.save w.ticks.save)) hread hnew ⟨rfl, rfl, rfl, ?_⟩ ?_
      · exact ⟨[.snapshot] ++ [.saved _ _], (List.append_assoc _ _ _), rfl⟩
      · simp only [savedStore]
        cases E.save w.ticks.save <;> rfl

theorem intact_appendAttributionFields (fields : Fields) (b : Bool) (w : World) :
    Intact E w.ticks.hardwareId w ((appendAttributionFields X E fields b).run w).2 := by
  have h := intact_cachedHardwareIdValue E w
  cases b with
  | true => simpa [appendAttributionFields, machineHash, readCache] using h
  | false => simpa [appendAttributionFields, machineHash] using h

/-- A request by POST after its attribution fields. -/
theorem intact_post (fields : Fields) (b : Bool) (action : Bytes) (text : Fields → Bytes)
    (w : World) : Intact E w.ticks.hardwareId w ((do
      let fields ← appendAttributionFields X E fields b
      let headers ← jsonHeaders X E
      requestWithRetry E (ascii "POST") (apiUrl X action) headers (text fields) :
        Code _).run w).2 := by
  simp only [Prog.run_bind]
  have hheaders := (intact_appendAttributionFields X E fields b w).after
    ((quiet_jsonHeaders X E).run _)
  exact hheaders.after ((quiet_requestWithRetry E _ _ _ _).run _)

theorem report_ok (s : State) (w : World) : ∃ t, ((report E s).run w).1 = .ok t := by
  simp only [report, Prog.run_bind, Prog.run_ite, Prog.run_pure]
  split
  · exact ⟨_, rfl⟩
  · exact ⟨_, rfl⟩

theorem activateWith_ok (key : Bytes) (j : Json) (lease : Option Lease) (w : World) :
    ∃ t, ((activateWith X E key j lease).run w).1 = .ok t := by
  cases lease with
  | none =>
    simp only [activateWith, Prog.run_bind]
    exact report_ok E _ _
  | some l =>
    simp only [activateWith, Prog.run_bind]
    split <;> simp only [Prog.run_bind] <;> exact report_ok E _ _

/-- A reply that ends in an error, or declines, has not been acted on. -/
theorem activateReply_idle {key : Bytes} {j : Json} {w : World}
    (h : (∃ e, ((activateReply X E key j).run w).1 = .error e) ∨
      (j.get (ascii "activated")).asBool = false) :
    Idle w ((activateReply X E key j).run w).2 := by
  have hok : ∀ lease e, ((activateWith X E key j lease).run w).1 ≠ .error e := by
    intro lease e he
    obtain ⟨t, ht⟩ := activateWith_ok X E key j lease w
    rw [ht] at he
    cases he
  cases ha : (j.get (ascii "activated")).asBool with
  | false =>
    rw [activateReply, ha]
    exact (quiet_keepState E).run w
  | true =>
    obtain ⟨e, he⟩ := h.resolve_right (by simp [ha])
    rw [activateReply, ha] at he ⊢
    simp only [Bool.not_true, Bool.false_eq_true, if_false] at he ⊢
    split at he
    · rename_i hsize
      rw [if_pos hsize]
      cases hl : Lease.fromJson (j.get (ascii "lease")) with
      | error e' => exact .refl w
      | ok l =>
        rw [hl] at he
        exact absurd he (hok (some l) e)
    · exact absurd he (hok none e)

/-- An activation that errs has not touched the licence. -/
theorem settleActivate_error {key : Bytes} {r : Result HttpResponse} {w : World} {e : Error}
    (h : ((settleActivate X E key r).run w).1 = .error e) :
    Idle w ((settleActivate X E key r).run w).2 := by
  cases r with
  | error e' => exact .refl w
  | ok resp =>
    simp only [settleActivate, Prog.run_ite] at h ⊢
    split at h
    · rename_i hstatus
      rw [if_pos hstatus]
      exact .refl w
    · rename_i hstatus
      rw [if_neg hstatus]
      cases hbody : Json.parse resp.body with
      | error e' => exact .refl w
      | ok j =>
        rw [hbody] at h
        exact activateReply_idle X E (.inl ⟨e, h⟩)

theorem activate_settles (key : Bytes) (w : World) : ∃ u, Intact E w.ticks.hardwareId w u ∧
    (activate X E key).run w = (settleActivate X E key (E.replyAt w.ticks.request)).run u := by
  have hpost := intact_post X E [(ascii "license_key", jsonStr key),
    (ascii "instance_name", jsonStr (instanceName X))] true (ascii "activate")
    (fun fields => buildJson X fields true) w
  have hindex := (appendAttributionFields_run X E [(ascii "license_key", jsonStr key),
    (ascii "instance_name", jsonStr (instanceName X))] true w).request
  refine ⟨_, hpost, ?_⟩
  have hreply : ∀ v : World, ((jsonHeaders X E).run v).2.ticks.request = v.ticks.request :=
    fun _ => rfl
  simp only [activate_eq, Prog.run_bind, requestWithRetry_reply, hreply, hindex]

theorem validate_transient_idle {r : Result HttpResponse} (h : Transient r) (w : World) :
    Idle w ((settleValidate X E (validationVerdict r)).run w).2 := by
  obtain hv | hv := not_decodable ((transient_iff _).1 h)
  · rw [hv, settleValidate]
    exact (quiet_keepState E).run w
  · rw [hv, settleValidate, Prog.run_bind]
    exact ((quiet_nowFn E).run w).trans ((quiet_keepState E).run _)

theorem intact_validateRequest (licenseKey instanceId : Bytes) (w : World) :
    Intact E w.ticks.hardwareId w ((validateRequest X E licenseKey instanceId).run w).2 :=
  intact_post X E _ false (ascii "validate") (fun fields => buildJson X fields true) w

theorem intact_validate {w : World} (h : Transient (E.replyAt w.ticks.request)) :
    Intact E w.ticks.hardwareId w ((validate X E).run w).2 := by
  have hidle := (quiet_notify E).run w
  have hticks := notify_ticks E w
  simp only [validate_eq, loadLicenseKey, loadInstanceId, readCache, Prog.run_bind,
    Prog.run_read, validateRequest_reply]
  have hindex : ((notify E).run w).2.ticks.request = w.ticks.request := by rw [hticks]
  rw [hindex]
  refine .before hidle (Intact.after ?_ (validate_transient_idle X E h _))
  rw [← show ((notify E).run w).2.ticks.hardwareId = w.ticks.hardwareId by rw [hticks]]
  exact intact_validateRequest X E _ _ _

/-- A fetch that errs has absorbed nothing. -/
theorem intact_fetchConfig {w : World} {e : Error} (h : ((fetchConfig X E).run w).1 = .error e) :
    Intact E w.ticks.hardwareId w ((fetchConfig X E).run w).2 := by
  simp only [fetchConfig, Prog.run_bind] at h ⊢
  refine .before ((quiet_jsonHeaders X E).run w) ?_
  generalize (jsonHeaders X E).run w = v at h ⊢
  refine .before ((quiet_requestWithRetry E (ascii "GET") (apiUrl X (ascii "config")) v.1 []).run
    v.2) ?_
  generalize (requestWithRetry E _ _ v.1 _).run v.2 = z at h ⊢
  obtain ⟨r, z⟩ := z
  cases r with
  | error e' => exact .idle (.refl z)
  | ok resp =>
    simp only [Prog.run_ite] at h ⊢
    split at h
    · rename_i hstatus
      rw [if_pos hstatus]
      exact .idle (.refl z)
    · rename_i hstatus
      rw [if_neg hstatus]
      cases hbody : Json.parse resp.body with
      | error e' => exact .idle (.refl z)
      | ok j =>
        rw [hbody] at h
        simp only [Prog.run_bind] at h ⊢
        refine .before ((quiet_verifyConfig X E j).run z) ?_
        generalize (verifyConfig X E j).run z = y at h ⊢
        obtain ⟨vr, y⟩ := y
        cases vr with
        | error e' => exact .idle (.refl y)
        | ok _ =>
          simp only [Prog.run_bind, Prog.run_pure] at h
          cases h

end Client

/-- A failed call leaves the licence as it was, from every world and at every reading of the
clock; the hardware id it may cache is the first one it reads. -/
theorem failed_intact (X : Site) (E : Env) (op : Op) (w : World)
    (h : Fails X E { w with ticks := {} } op) : Intact E 0 w (op.exec X E w) := by
  apply Intact.restarted
  cases h with
  | @activate key e h =>
    obtain ⟨u, hu, hrun⟩ := activate_settles X E key { w with ticks := {} }
    rw [Op.exec, Op.code, run_ignored, hrun]
    rw [hrun] at h
    exact hu.after (settleActivate_error X E h)
  | @declined key resp j hreply hstatus hbody hno =>
    obtain ⟨u, hu, hrun⟩ := activate_settles X E key { w with ticks := {} }
    have hsettle : settleActivate X E key E.reply = activateReply X E key j := by
      rw [hreply, settleActivate, if_neg (by simp [hstatus]), hbody]
    rw [Op.exec, Op.code, run_ignored, hrun]
    change Intact _ _ _ ((settleActivate X E key E.reply).run u).2
    rw [hsettle]
    exact hu.after (activateReply_idle X E (.inr hno))
  | fetchConfig h =>
    rw [Op.exec, Op.code, run_ignored]
    exact intact_fetchConfig X E h
  | validate h =>
    rw [Op.exec, Op.code, run_ignored]
    exact intact_validate X E (w := { w with ticks := {} }) h

/-- The stored licence, without a network and with a hardware id read for the first time. -/
theorem failed_intact_vector :
    let E : Env := { offlineAt 1781076300 with hardwareId := fun _ => some (ascii "HW1") }
    Intact E 0 vectorWorld (Op.validate.exec vectorSite E vectorWorld) :=
  failed_intact vectorSite _ .validate vectorWorld
    (.validate (Offline.transient fun _ => ⟨_, rfl⟩))

end Keylight
