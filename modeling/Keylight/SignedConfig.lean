import Mathlib.Data.List.Induction
import Keylight.Boundary
import Keylight.Persistence

/-!
# Signed configuration

With `requireSignedConfig` the two server settings are taken from a reply only
as a pair, and only when the reply signs them for this tenant and product and
is current. `signed_config` says where the pair of a run comes from.
-/
namespace Keylight
open Bytes Sections

/-- The server's settings: trial days and the free tier. -/
abbrev Settings := Option Int32 × Option Bool

def settingsOf (c : Cache) : Settings := (c.serverTrialDays, c.serverFreeTier)

/-- The settings that the next launch reads. -/
def storedSettings (store : Bytes) : Settings :=
  match decodeStore store with
  | none => (none, none)
  | some j => settingsOf (loadCache j {})

/-- The body signs `days` and `free` for this tenant and product, under a trusted key, and its
window contains the reading `t`. -/
structure SignedConfig (X : Site) (j : Json) (t : Int64) (days : Int32) (free : Bool) : Prop where
  carriesDays : jsonHas j (ascii "trial_duration_days") = true ∧
    (j.get (ascii "trial_duration_days")).asInt.toInt32 = days
  carriesFree : jsonHas j (ascii "free_tier_enabled") = true ∧
    (j.get (ascii "free_tier_enabled")).asBool = free
  signed : ∃ pubB64, X.cfg.trustedKeys.lookup (j.get (ascii "kid")).asString = some pubB64 ∧
    (b64DecodeFlexible pubB64).length = 32 ∧
    (b64DecodeFlexible (j.get (ascii "signature")).asString).length = 64 ∧
    X.crypto.ed25519Verify
      (configCanonicalPayload (j.get (ascii "kid")).asString X.cfg.tenantId X.cfg.productId
        (j.get (ascii "issued_at")).asInt (j.get (ascii "expires_at")).asInt days free)
      (b64DecodeFlexible (j.get (ascii "signature")).asString) (b64DecodeFlexible pubB64) = true
  expires : (j.get (ascii "expires_at")).asInt ≠ 0 →
    t.toInt ≤ (j.get (ascii "expires_at")).asInt.toInt + 300
  issued : (j.get (ascii "issued_at")).asInt ≠ 0 →
    (j.get (ascii "issued_at")).asInt.toInt ≤ t.toInt + 300

theorem storedSettings_buildBlob (c : Cache) : storedSettings (buildBlob c) = settingsOf c := by
  simp only [storedSettings, decodeStore_buildBlob, settingsOf, serverTrialDays_blob,
    serverFreeTier_blob]

/-- A subtraction that wraps only makes a reading look later. -/
theorem le_add_of_not_sub_gt {t e : Int64} (h : ¬t - 300 > e) : t.toInt ≤ e.toInt + 300 := by
  rw [gt_iff_lt, Int64.lt_iff_toInt_lt, Int64.toInt_sub] at h
  have hskew : (300 : Int64).toInt = 300 := rfl
  have hmin := e.le_toInt
  have hmax := t.toInt_lt
  rw [hskew] at h
  by_cases hwrap : -2 ^ 63 ≤ t.toInt - 300
  · rw [Int.bmod_eq_of_le (by omega) (by omega)] at h
    omega
  · omega

/-- An addition that wraps only makes a reading look earlier. -/
theorem le_add_of_not_add_lt {t i : Int64} (h : ¬t + 300 < i) : i.toInt ≤ t.toInt + 300 := by
  rw [Int64.lt_iff_toInt_lt, Int64.toInt_add] at h
  have hskew : (300 : Int64).toInt = 300 := rfl
  have hmin := t.le_toInt
  have hmax := t.toInt_lt
  have hlt := i.toInt_lt
  rw [hskew] at h
  by_cases hwrap : t.toInt + 300 < 2 ^ 63
  · rw [Int.bmod_eq_of_le (by omega) (by omega)] at h
    omega
  · omega

namespace Client
variable {X : Site} {E : Env}

/-- What passes `verify_config_` under the flag is signed and current. -/
theorem verifyConfigAt_signed (hflag : X.cfg.requireSignedConfig = true) {j : Json} {t : Int64}
    (h : isOk (verifyConfigAt X j t) = true) : ∃ days free, SignedConfig X j t days free ∧
      ∀ c, settingsOf (mergeConfig j c) = (some days, some free) := by
  revert h
  simp only [verifyConfigAt, verifyConfig, hflag, Bool.not_true, Bool.false_eq_true, if_false,
    Prog.run_ite, Prog.run_pure]
  by_cases hfields : (!jsonHas j (ascii "trial_duration_days") ||
      !jsonHas j (ascii "free_tier_enabled")) = true
  · rw [if_pos hfields]
    intro h
    cases h
  · rw [if_neg hfields]
    by_cases hkid : (j.get (ascii "kid")).asString = [] ∨ (j.get (ascii "signature")).asString = []
    · rw [if_pos hkid]
      intro h
      cases h
    · rw [if_neg hkid]
      cases hkey : X.cfg.trustedKeys.lookup (j.get (ascii "kid")).asString with
      | none =>
        intro h
        cases h
      | some pub =>
        simp only [nowFn, Prog.run_bind, Prog.run_atom, Prog.run_ite, Prog.run_pure]
        by_cases hexp : (j.get (ascii "expires_at")).asInt ≠ 0 ∧
            t - 300 > (j.get (ascii "expires_at")).asInt
        · rw [if_pos hexp]
          intro h
          cases h
        · rw [if_neg hexp]
          by_cases hiss : (j.get (ascii "issued_at")).asInt ≠ 0 ∧
              t + 300 < (j.get (ascii "issued_at")).asInt
          · rw [if_pos hiss]
            intro h
            cases h
          · rw [if_neg hiss]
            intro h
            simp only [Bool.or_eq_true, Bool.not_eq_true', not_or, Bool.not_eq_false] at hfields
            simp only [verifyConfigSignature] at h
            split at h
            · cases h
            · rename_i hlen
              obtain ⟨hpk, hsig⟩ := not_or.1 hlen
              split at h
              · rename_i hverify
                refine ⟨_, _, ⟨⟨hfields.1, rfl⟩, ⟨hfields.2, rfl⟩,
                  ⟨pub, hkey, Decidable.not_not.1 hpk, Decidable.not_not.1 hsig, hverify⟩,
                  fun hne => le_add_of_not_sub_gt fun hgt => hexp ⟨hne, hgt⟩,
                  fun hne => le_add_of_not_add_lt fun hlt => hiss ⟨hne, hlt⟩⟩, ?_⟩
                intro c
                simp only [settingsOf, mergeConfig, hfields.1, hfields.2, if_true]
              · cases h

/-- A body that is not signed or not current changes nothing. -/
theorem applyConfigFields_rejected (hflag : X.cfg.requireSignedConfig = true) {j : Json}
    {u : World} (h : ∀ days free, ¬SignedConfig X j (E.now u.ticks.now) days free) :
    ((applyConfigFields X E j).run u).2.core = u.core ∧
      ((applyConfigFields X E j).run u).2.store = u.store := by
  have hok : isOk (verifyConfigAt X j (E.now u.ticks.now)) = false := by
    rw [Bool.eq_false_iff]
    intro hok
    obtain ⟨days, free, hsigned, -⟩ := verifyConfigAt_signed hflag hok
    exact h days free hsigned
  have hidle := (quiet_verifyConfig X E j).run u
  simp only [applyConfigFields, Prog.run_ite, Prog.run_bind, verifyConfig_value, hok]
  split
  · exact ⟨rfl, rfl⟩
  · exact ⟨hidle.core, hidle.store⟩

end Client

/-- A reply of the call appended to the history carried the settings, signed and current at a
reading of the call. -/
def Carried (X : Site) (w : World) (call : Call) (p : Settings) : Prop :=
  ∃ es req resp j n days free, (perform X call w).log = w.log ++ es ∧
    Event.exchange req (.ok resp) ∈ es ∧ resp.status = 200 ∧ Json.parse resp.body = .ok j ∧
    n < (perform X call w).ticks.now ∧ SignedConfig X j (call.2.now n) days free ∧
    p = (some days, some free)

/-- The history since `start` with the cached settings in `A` and the stored ones in `B`. -/
structure Within (A B : Settings → Prop) (start w : World) : Prop where
  log : start.log <+: w.log
  cached : A (settingsOf w.core.cache)
  stored : B (storedSettings w.store)

/-- The store is left alone or rewritten from the cache. -/
def Through (w v : World) : Prop := v.store = w.store ∨ v.store = buildBlob v.core.cache

theorem through_savedStore {w v : World} {E : Env} {k : Nat}
    (h : v.store = Client.savedStore E k (buildBlob v.core.cache) w.store) : Through w v := by
  rw [Through, h, Client.savedStore]
  split
  · exact .inr rfl
  · exact .inl rfl

theorem Within.through {A B : Settings → Prop} {start w v : World} (h : Within A B start w)
    (hAB : ∀ p, A p → B p) (hlog : w.log <+: v.log) (hA : A (settingsOf v.core.cache))
    (hstore : Through w v) : Within A B start v := by
  refine ⟨h.log.trans hlog, hA, ?_⟩
  obtain hstore | hstore := hstore
  · rw [hstore]
    exact h.stored
  · rw [hstore, storedSettings_buildBlob]
    exact hAB _ hA

theorem Within.idle {A B : Settings → Prop} {start w v : World} (h : Within A B start w)
    (hi : Idle w v) : Within A B start v := by
  refine ⟨h.log.trans hi.grows, ?_, ?_⟩
  · rw [hi.core]
    exact h.cached
  · rw [hi.store]
    exact h.stored

/-- Nothing recorded is rewritten, and no clock reading taken back. -/
structure Ages (w v : World) : Prop where
  log : w.log <+: v.log
  now : w.ticks.now ≤ v.ticks.now

theorem Ages.refl (w : World) : Ages w w := ⟨List.prefix_rfl, le_rfl⟩

theorem Ages.trans {u v w : World} (h₁ : Ages u v) (h₂ : Ages v w) : Ages u w :=
  ⟨h₁.log.trans h₂.log, h₁.now.trans h₂.now⟩

abbrev Aging (p : Code α) : Prop := Each Ages (fun _ => True) p

theorem Aging.run {p : Code α} (h : Aging p) (w : World) : Ages w (p.run w).2 :=
  (Each.run h Ages.refl (fun _ _ _ => Ages.trans) w).1

theorem sectional_ages : Sectional Ages where
  cache := fun _ _ _ hlog hnow => ⟨hlog, hnow⟩
  persist := fun _ _ _ => ⟨List.prefix_append _ _, le_rfl⟩
  clearLease := fun _ => ⟨List.prefix_append _ _, le_rfl⟩
  state := fun _ _ => ⟨List.prefix_append _ _, le_rfl⟩

namespace Client
variable {X : Site} {E : Env} {A B : Settings → Prop} {start final : World}

theorem aging_persist (d : PersistData) : Aging (persist E d) :=
  .bind (Each.modify (Q := fun _ => True)
    (fun _ => ⟨List.prefix_append _ _, le_rfl⟩) trivial) fun _ _ =>
      .bind sectional_ages.saveCache fun _ _ => trivial

/-- On the way to the world `final` the settings stay where they are. -/
def Holds (A B : Settings → Prop) (start final : World) (p : Code α) : Prop :=
  Aging p → ∀ w, Within A B start w → Ages (p.run w).2 final → Within A B start (p.run w).2

theorem Holds.quiet {p : Code α} (hp : Quiet p) : Holds A B start final p :=
  fun _ w hw _ => hw.idle (hp.run w)

theorem Holds.bind {p : Code α} {k : α → Code β} (hp : Holds A B start final p)
    (hk : ∀ a, Holds A B start final (k a)) : Holds A B start final (p >>= k) := by
  intro hages w hw hfinal
  obtain ⟨hages, hrest⟩ := hages.of_bind
  rw [Prog.run_bind] at hfinal ⊢
  have hmid : Ages (p.run w).2 final := (Aging.run (hrest w) _).trans hfinal
  exact hk _ (hrest w) _ (hp hages w hw hmid) hfinal

theorem through_saveCache {w u : World} (h : u.store = w.store) :
    Through w ((saveCache E).run u).2 := by
  apply through_savedStore (E := E) (k := u.ticks.save)
  rw [saveCache_core, saveCache_store, h]

theorem applyConfigFields_through (j : Json) (w : World) :
    Through w ((applyConfigFields X E j).run w).2 := by
  have hidle := (quiet_verifyConfig X E j).run w
  simp only [applyConfigFields, Prog.run_ite, Prog.run_bind, Prog.run_pure]
  split
  · exact .inl rfl
  · split
    · exact .inl hidle.store
    · exact through_saveCache hidle.store

/-- A reply that the history of the call gained. -/
def Gained (start final : World) (r : Result HttpResponse) : Prop :=
  ∃ es req, final.log = start.log ++ es ∧ Event.exchange req r ∈ es

/-- The code after a request may rely on the reply being one that the call gained. -/
theorem Holds.request {k : Result HttpResponse → Code β} (method url : Bytes)
    (headers : List (Bytes × Bytes)) (body : Bytes)
    (hk : ∀ r, Gained start final r → Holds A B start final (k r)) :
    Holds A B start final (requestWithRetry E method url headers body >>= k) := by
  intro hages w hw hfinal
  obtain ⟨-, hrest⟩ := hages.of_bind
  rw [Prog.run_bind] at hfinal ⊢
  obtain ⟨es, hes, hmem⟩ := requestWithRetry_appends E method url headers body w
  have hquiet := (quiet_requestWithRetry E method url headers body).run w
  have hmid : Ages ((requestWithRetry E method url headers body).run w).2 final :=
    (Aging.run (hrest w) _).trans hfinal
  have hgained : Gained start final ((requestWithRetry E method url headers body).run w).1 := by
    obtain ⟨before, hbefore⟩ := hw.log
    obtain ⟨after, hafter⟩ := hmid.log
    rw [requestWithRetry_reply]
    refine ⟨before ++ es ++ after, ⟨method, url, headers, body⟩, ?_, ?_⟩
    · rw [← hafter, hes, ← hbefore]
      simp only [List.append_assoc]
    · exact List.mem_append_left _ (List.mem_append_right _ hmem)
  exact hk _ hgained (hrest w) _ (hw.idle hquiet) hfinal

/-- What a reply may change: settings it signs at one of the first `readings` of the call. -/
def Allowed (X : Site) (E : Env) (A : Settings → Prop) (readings : Nat) (j : Json) : Prop :=
  ∀ n < readings, ∀ days free, SignedConfig X j (E.now n) days free → A (some days, some free)

/-- Under the flag a body that verifies has been compared with the clock. -/
theorem verifyConfig_reads (hflag : X.cfg.requireSignedConfig = true) {j : Json} {w : World}
    (h : isOk ((verifyConfig X E j).run w).1 = true) :
    w.ticks.now < ((verifyConfig X E j).run w).2.ticks.now := by
  revert h
  simp only [verifyConfig, hflag, Bool.not_true, Bool.false_eq_true, if_false, Prog.run_ite,
    Prog.run_pure]
  split
  · intro h
    cases h
  · split
    · intro h
      cases h
    · cases X.cfg.trustedKeys.lookup (j.get (ascii "kid")).asString with
      | none =>
        intro h
        cases h
      | some pub =>
        simp only [nowFn, Prog.run_bind, Prog.run_atom, Prog.run_ite, Prog.run_pure]
        split
        · intro h
          cases h
        · split
          · intro h
            cases h
          · exact fun _ => Nat.lt_succ_self _

/-- Under the flag settings are taken over only after a reading of the clock. -/
theorem applyConfigFields_reads (hflag : X.cfg.requireSignedConfig = true) {j : Json} {w : World}
    (hok : isOk (verifyConfigAt X j (E.now w.ticks.now)) = true) :
    w.ticks.now < ((applyConfigFields X E j).run w).2.ticks.now := by
  obtain ⟨days, free, hsigned, -⟩ := verifyConfigAt_signed hflag hok
  have hvalue := verifyConfig_value X E j w
  have hreads := verifyConfig_reads hflag (hvalue ▸ hok)
  simp only [applyConfigFields, hsigned.carriesDays.1, Bool.not_true, Bool.false_and,
    Bool.false_eq_true, if_false, Prog.run_bind, hvalue, hok, writeCache, Prog.run_modify,
    Prog.run_pure, saveCache_run]
  exact hreads

variable (hAB : ∀ p, A p → B p)
include hAB

/-- A helper that keeps the settings in the cache and writes it through. -/
theorem holds_through {p : Code α}
    (hcache : ∀ w, settingsOf (p.run w).2.core.cache = settingsOf w.core.cache)
    (hstore : ∀ w, Through w (p.run w).2) : Holds A B start final p := by
  intro hages w hw _
  apply hw.through hAB (Aging.run hages w).log _ (hstore w)
  rw [hcache]
  exact hw.cached

/-- Noting a hardware id leaves the settings. -/
theorem holds_cachedHardwareIdValue : Holds A B start final (cachedHardwareIdValue E) := by
  apply holds_through hAB
  · intro w
    rw [(cachedHardwareIdValue_run E w).core]
    have hnear := near_withHardwareId (E.hardwareId w.ticks.hardwareId) w.core.cache
    exact Prod.ext hnear.serverTrialDays hnear.serverFreeTier
  · intro w
    have hnoted := cachedHardwareIdValue_run E w
    by_cases hnew : idIsNew (E.hardwareId w.ticks.hardwareId) w.core.cache = true
    · apply through_savedStore (E := E) (k := w.ticks.save)
      rw [hnoted.core, hnoted.store, notedStore, if_pos hnew]
    · left
      rw [hnoted.store, notedStore, if_neg hnew]

/-- Minting an instance id leaves the settings. -/
theorem holds_freeTierInstanceId : Holds A B start final (freeTierInstanceId E) := by
  apply holds_through hAB
  · intro w
    have hnear := (drift_freeTierInstanceId E w).cache
    exact Prod.ext hnear.serverTrialDays hnear.serverFreeTier
  · intro w
    simp only [freeTierInstanceId, mintFreeTierInstanceId, Prog.run_bind, Prog.run_atom]
    cases w.client.cache.freeTierInstanceId with
    | some id => exact .inl rfl
    | none =>
      simp only [Prog.run_bind, Prog.run_ite, saveCache_run, savedStore]
      cases E.save w.ticks.save with
      | none => exact .inr rfl
      | some e => exact .inl rfl

/-- Stamping the trial leaves the settings. -/
theorem holds_stampAndSave : Holds A B start final (stampAndSave E) := by
  apply holds_through hAB
  · intro w
    simp only [stampAndSave, stampTrial, Prog.run_bind, Prog.run_atom]
    cases w.client.cache.trialStart with
    | some t => rfl
    | none =>
      simp only [if_true, Prog.run_bind, Prog.run_pure, saveCache_core]
      rfl
  · intro w
    simp only [stampAndSave, stampTrial, Prog.run_bind, Prog.run_atom]
    cases w.client.cache.trialStart with
    | some t => exact .inl rfl
    | none => exact through_saveCache rfl

theorem holds_armDebounce (wire : Bytes) (now : Int64) :
    Holds A B start final (armDebounce E wire now) := by
  apply holds_through hAB
  · intro w
    simp only [armDebounce, writeCache, Prog.run_bind, Prog.run_modify, Prog.run_pure,
      saveCache_core]
    rfl
  · intro w
    simp only [armDebounce, writeCache, Prog.run_bind, Prog.run_modify, Prog.run_pure]
    exact through_saveCache rfl

theorem holds_saveLastValidatedOnline (t : Int64) :
    Holds A B start final (saveLastValidatedOnline E t) := by
  apply holds_through hAB
  · intro w
    rw [saveLastValidatedOnline_core]
    rfl
  · intro w
    apply through_savedStore (E := E) (k := w.ticks.save)
    rw [saveLastValidatedOnline_core, saveLastValidatedOnline_store]

theorem holds_persist (d : PersistData) : Holds A B start final (persist E d) := by
  apply holds_through hAB
  · intro w
    rw [persist_core]
    rfl
  · intro w
    apply through_savedStore (E := E) (k := w.ticks.save)
    rw [persist_core, persist_store]

theorem holds_clearLease : Holds A B start final (clearLease E) := by
  apply holds_through hAB
  · intro w
    rw [clearLease_core]
    rfl
  · intro w
    apply through_savedStore (E := E) (k := w.ticks.save)
    rw [clearLease_core, clearLease_store]

theorem holds_setState (s : State) : Holds A B start final (setState E s) := by
  apply holds_through hAB
  · intro w
    rw [setState_core]
  · intro w
    exact .inl (setState_store E s w)

/-- A body whose settings stay within the set. -/
theorem holds_absorb {j : Json} (hj : ∀ w : World, A (settingsOf w.core.cache) →
      A (settingsOf (configured X j (E.now w.ticks.now) w.core.cache))) :
    Holds A B start final (applyConfigFields X E j) := by
  intro hages w hw _
  apply hw.through hAB (Aging.run hages w).log _ (applyConfigFields_through j w)
  rw [applyConfigFields_core]
  exact hj w hw.cached

/-- The settings a reply may bring are those it signs at a reading of the call. -/
theorem holds_applyConfigFields (hflag : X.cfg.requireSignedConfig = true) {j : Json}
    (hj : Allowed X E A final.ticks.now j) :
    Holds A B start final (applyConfigFields X E j) := by
  intro hages w hw hfinal
  apply hw.through hAB (Aging.run hages w).log _ (applyConfigFields_through j w)
  rw [applyConfigFields_core, configured]
  split
  · rename_i hok
    obtain ⟨days, free, hsigned, hmerge⟩ := verifyConfigAt_signed hflag hok
    have hreads := (applyConfigFields_reads hflag hok).trans_le hfinal.now
    rw [hmerge]
    exact hj _ hreads days free hsigned
  · exact hw.cached

/-- So does every helper, bodies with settings apart. -/
theorem holds_helpers {C : Json → Prop}
    (happly : ∀ j, C j → Holds A B start final (applyConfigFields X E j)) :
    Helpers X E (fun _ => True) (Gained start final) C
      (fun _ {_} p => Holds A B start final p) where
  quiet := .quiet
  free := .bind
  seq := .bind
  after := .bind
  weaken := id
  widen := id
  request := .request
  cachedHardwareIdValue := holds_cachedHardwareIdValue hAB
  applyConfigFields := happly
  freeTierInstanceId := holds_freeTierInstanceId hAB
  stampAndSave := holds_stampAndSave hAB
  armDebounce := fun s => holds_armDebounce hAB (keylessStateWire s)
  anchor := holds_saveLastValidatedOnline hAB
  persist := fun d _ _ => holds_persist hAB d
  clearLease := holds_clearLease hAB
  setState := holds_setState hAB

end Client

open Client in
/-- A call that neither launches nor deactivates, for any sets that the bodies of its replies
keep to. -/
theorem Op.exec_absorbs {X : Site} {E : Env} {op : Op} {A B : Settings → Prop}
    (hAB : ∀ p, A p → B p) {w : World} (hlaunch : op ≠ .relaunch) (hdeactivate : op ≠ .deactivate)
    (hA : A (settingsOf w.core.cache)) (hB : B (storedSettings w.store)) {C : Json → Prop}
    (happly : ∀ j, C j → Holds A B w (op.exec X E w) (applyConfigFields X E j))
    (hheeds : op.configures → Heeds (Gained w (op.exec X E w)) C) :
    A (settingsOf (op.exec X E w).core.cache) ∧ B (storedSettings (op.exec X E w).store) := by
  have hcode := (holds_helpers hAB happly).code (fun _ => trivial) (holds_persist hAB) hheeds
    hlaunch hdeactivate
  have hages : Aging (op.code X E) := (sectional_ages.primitives (E := E)).helpers.code
    (fun _ => trivial) aging_persist (fun _ _ _ _ _ _ => trivial) hlaunch hdeactivate
  have hwithin := hcode hages { w with ticks := {} } ⟨List.prefix_rfl, hA, hB⟩ (.refl _)
  exact ⟨hwithin.cached, hwithin.stored⟩

open Client in
/-- Where the flag is on, for any sets that the signed pairs of its replies keep to. -/
theorem Op.exec_within {X : Site} (hflag : X.cfg.requireSignedConfig = true) {E : Env} {op : Op}
    {A B : Settings → Prop} (hAB : ∀ p, A p → B p) {w : World} (hlaunch : op ≠ .relaunch)
    (hdeactivate : op ≠ .deactivate) (hA : A (settingsOf w.core.cache))
    (hB : B (storedSettings w.store))
    (hC : op.configures → ∀ p, Carried X w (op, E) p → A p) :
    A (settingsOf (op.exec X E w).core.cache) ∧ B (storedSettings (op.exec X E w).store) := by
  refine op.exec_absorbs hAB hlaunch hdeactivate hA hB
    (C := Allowed X E A (op.exec X E w).ticks.now)
    (fun j hj => holds_applyConfigFields hAB hflag hj) ?_
  intro hop resp j hr hstatus hbody n hn days free hsigned
  obtain ⟨es, req, hlog, hmem⟩ := hr
  exact hC hop _ ⟨es, req, resp, j, n, days, free, hlog, hmem, hstatus, hbody, hn, hsigned, rfl⟩

open Client in
/-- A launch takes over the stored settings or none, and leaves the store. -/
theorem relaunch_settings (X : Site) (E : Env) (w : World) :
    (settingsOf (Op.relaunch.exec X E w).core.cache = (none, none) ∨
      settingsOf (Op.relaunch.exec X E w).core.cache = storedSettings w.store) ∧
    (Op.relaunch.exec X E w).store = w.store := by
  obtain ⟨i, k, n, hcore⟩ := construct_core X E { w with ticks := {} }
  have hcore : (Op.relaunch.exec X E w).core = _ := hcore
  refine ⟨?_, construct_store X E _⟩
  rw [hcore]
  cases hj : loadedJson E { w with ticks := {} } with
  | none => exact .inl rfl
  | some j =>
    right
    simp only [loadedJson] at hj
    split at hj
    · rw [storedSettings, show decodeStore w.store = some j from hj]
      rfl
    · cases hj

open Client in
/-- A deactivation keeps the cached settings, and stores them or none. -/
theorem deactivate_settings (X : Site) (E : Env) (w : World) :
    settingsOf (Op.deactivate.exec X E w).core.cache = settingsOf w.core.cache ∧
      (storedSettings (Op.deactivate.exec X E w).store = settingsOf w.core.cache ∨
        storedSettings (Op.deactivate.exec X E w).store = (none, none) ∨
        storedSettings (Op.deactivate.exec X E w).store = storedSettings w.store) := by
  simp only [Op.exec, Op.code, Prog.run_bind, Prog.run_pure]
  have hcache := deactivate_cache (X := X) (E := E) { w with ticks := {} }
  refine ⟨?_, ?_⟩
  · rw [hcache]
    rfl
  · obtain ⟨-, k, h⟩ | ⟨-, h | ⟨h, -⟩⟩ := deactivate_store (X := X) (E := E) { w with ticks := {} }
    · rw [h, savedStore]
      split
      · rw [storedSettings_buildBlob]
        exact .inl rfl
      · exact .inr (.inr rfl)
    · rw [h]
      exact .inr (.inl rfl)
    · rw [h]
      exact .inr (.inr rfl)

/-- No settings, or those that a reply to an earlier call carried. -/
def Backed (X : Site) (store : Bytes) (calls : List Call) (p : Settings) : Prop :=
  p = (none, none) ∨ ∃ before call after, calls = before ++ call :: after ∧
    call.1.configures = true ∧ Carried X (history X store before) call p

theorem Backed.append {X : Site} {store : Bytes} {calls : List Call} {p : Settings}
    (h : Backed X store calls p) (call : Call) : Backed X store (calls ++ [call]) p := by
  obtain h | ⟨before, first, after, rfl, hop, hcarried⟩ := h
  · exact .inl h
  · refine .inr ⟨before, first, after ++ [call], ?_, hop, hcarried⟩
    simp only [List.append_assoc, List.cons_append]

theorem history_snoc (X : Site) (store : Bytes) (calls : List Call) (call : Call) :
    history X store (calls ++ [call]) = perform X call (history X store calls) :=
  Runs.runAll_append calls [call] _

/-- One call keeps the settings backed. -/
theorem backed_step {X : Site} (hflag : X.cfg.requireSignedConfig = true) {store : Bytes}
    {calls : List Call} (call : Call)
    (hcached : Backed X store calls (settingsOf (history X store calls).core.cache))
    (hstored : Backed X store calls (storedSettings (history X store calls).store)) :
    Backed X store (calls ++ [call])
        (settingsOf (history X store (calls ++ [call])).core.cache) ∧
      Backed X store (calls ++ [call])
        (storedSettings (history X store (calls ++ [call])).store) := by
  obtain ⟨op, E⟩ := call
  rw [history_snoc]
  generalize hw : history X store calls = w at hcached hstored
  change Backed _ _ _ (settingsOf (op.exec X E w).core.cache) ∧
    Backed _ _ _ (storedSettings (op.exec X E w).store)
  by_cases hlaunch : op = .relaunch
  · subst hlaunch
    obtain ⟨h | h, hsame⟩ := relaunch_settings X E w
    · rw [h, hsame]
      exact ⟨.inl rfl, hstored.append _⟩
    · rw [h, hsame]
      exact ⟨hstored.append _, hstored.append _⟩
  · by_cases hdeactivate : op = .deactivate
    · subst hdeactivate
      obtain ⟨h, hstore⟩ := deactivate_settings X E w
      rw [h]
      refine ⟨hcached.append _, ?_⟩
      obtain h | h | h := hstore
      · rw [h]
        exact hcached.append _
      · exact .inl h
      · rw [h]
        exact hstored.append _
    · refine op.exec_within hflag (fun _ h => h) hlaunch hdeactivate (hcached.append _)
        (hstored.append _) fun hop p hcarried => ?_
      exact .inr ⟨calls, (op, E), [], rfl, hop, hw ▸ hcarried⟩

theorem backed_history {X : Site} (hflag : X.cfg.requireSignedConfig = true) {store : Bytes}
    (hstore : storedSettings store = (none, none)) (calls : List Call) :
    Backed X store calls (settingsOf (history X store calls).core.cache) ∧
      Backed X store calls (storedSettings (history X store calls).store) := by
  induction calls using List.reverseRecOn with
  | nil => exact ⟨.inl rfl, .inl hstore⟩
  | append_singleton calls call ih => exact backed_step hflag call ih.1 ih.2

open Client in
/-- Under `requireSignedConfig` the settings of every run, cached and stored, are absent or a
pair that one reply signed for this client and was current when it was applied. A body that is
not changes nothing where it is applied, and its call leaves the cached pair alone and stores
nothing else. -/
theorem signed_config (X : Site) (hflag : X.cfg.requireSignedConfig = true) (store : Bytes)
    (hstore : storedSettings store = (none, none)) (calls : List Call) :
    let w := history X store calls
    Backed X store calls (settingsOf w.client.cache) ∧
    Backed X store calls (storedSettings w.store) ∧
    (∀ (E : Env) (j : Json) (u : World),
      (∀ days free, ¬SignedConfig X j (E.now u.ticks.now) days free) →
      ((applyConfigFields X E j).run u).2.core = u.core ∧
        ((applyConfigFields X E j).run u).2.store = u.store) ∧
    ∀ call : Call, call.1.configures = true → (∀ p, ¬Carried X w call p) →
      settingsOf (perform X call w).client.cache = settingsOf w.client.cache ∧
        (storedSettings (perform X call w).store = storedSettings w.store ∨
          storedSettings (perform X call w).store = settingsOf w.client.cache) := by
  intro w
  obtain ⟨hcached, hstored⟩ := backed_history hflag hstore calls
  refine ⟨hcached, hstored, fun E j u h => applyConfigFields_rejected hflag h, ?_⟩
  rintro ⟨op, E⟩ hop hnone
  have hlaunch : op ≠ .relaunch := by
    rintro rfl
    cases hop
  have hdeactivate : op ≠ .deactivate := by
    rintro rfl
    cases hop
  exact op.exec_within (A := (· = settingsOf w.client.cache))
    (B := fun p => p = storedSettings w.store ∨ p = settingsOf w.client.cache) hflag
    (fun _ h => .inr h) hlaunch hdeactivate rfl (.inl rfl) fun _ p h => absurd h (hnone p)

def configKey : Bytes := ascii "PuKopyg8sv1yiUPaoSfvCeSD" ++ ascii "BxqLS8aZukUi8JsUz94="

def configSignature : Bytes :=
  ascii "OAhXFip/oKm06gPtCEKccWJ4hmnxMEU4" ++ ascii "NDLf47xzQ+Ip05L1ftgXIiowz2Np3h10" ++
    ascii "nABov2M6WqrXshHRxsTICQ=="

/-- Ed25519 on the one configuration whose signature is known. -/
def configCrypto : Crypto where
  ed25519Verify msg sig pub :=
    msg == ascii "cfg1|kcfg|testco|testapp|1781076246|1781680000|14|true" &&
      sig == b64DecodeFlexible configSignature && pub == b64DecodeFlexible configKey
  sha256Hex b := b

/-- A tenant that signs its configuration. -/
def configSite : Site where
  cfg :=
    { tenantId := ascii "testco"
      productId := ascii "testapp"
      trialDurationDays := 7
      trustedKeys := [(ascii "kcfg", configKey)]
      requireSignedConfig := true }
  crypto := configCrypto

def configBody : Bytes :=
  jsonObject [
    jsonMember (ascii "trial_duration_days") (ascii "14"),
    jsonMember (ascii "free_tier_enabled") (ascii "true"),
    jsonMember (ascii "issued_at") (ascii "1781076246"),
    jsonMember (ascii "expires_at") (ascii "1781680000"),
    jsonMember (ascii "kid") (jsonStr (ascii "kcfg")),
    jsonMember (ascii "signature") (jsonStr configSignature)]

def configCalls : List Call :=
  [(.relaunch, offlineAt 1781076256), (.fetchConfig, repliesAt 1781076256 ⟨200, configBody, []⟩)]

theorem configCalls_settings :
    settingsOf (history configSite [] configCalls).client.cache = (some 14, some true) := by
  decide +kernel

theorem signed_config_vector : Backed configSite [] configCalls (some 14, some true) := by
  rw [← configCalls_settings]
  exact (signed_config configSite rfl [] rfl configCalls).1

end Keylight
