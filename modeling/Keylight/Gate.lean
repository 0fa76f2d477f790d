import Keylight.Blob
import Keylight.Runs

/-!
# The feature gate and the paywall

`hasEntitlement` re-verifies the cached lease when it is asked, `state` answers
what the last resolution stored. `GateOk` is the condition on one call under
which the two verdicts stay together; `entitled_paid` says that they then agree
over every run.
-/
namespace Keylight
open Bytes Sections Runs

/-- One call and the inputs it is given. -/
abbrev Call := Op × Env

/-- The machine of calls. -/
def perform (X : Site) (call : Call) (w : World) : World := call.1.exec X call.2 w

/-- A history of calls over an installation whose store starts as `store`. -/
def history (X : Site) (store : Bytes) (calls : List Call) : World :=
  runAll (perform X) calls { store }

/-- The two states that unlock the application. -/
def State.paid : State → Bool
  | .licensed => true
  | .limited => true
  | _ => false

theorem State.paid_ne_invalid {s : State} (h : s.paid = true) : s ≠ .invalid := by
  rintro rfl
  cases h

/-- The lease grants some feature as long as it has not expired. -/
structure Grants (X : Site) (l : Lease) : Prop where
  trusted : X.trusts l = true
  status : l.status ≠ ascii "expired"
  entitlements : l.entitlements ≠ []

def expiredAt (X : Site) (l : Lease) (t : Int64) : Bool := (X.verify l t).expired

/-- The clock readings of a call. -/
def Env.reads (E : Env) (t : Int64) : Prop := ∃ i, E.now i = t

/-- A granting lease that is unexpired at all the given readings. -/
def Live (X : Site) (reads : Int64 → Prop) (l : Lease) : Prop :=
  Grants X l ∧ ∀ t, reads t → expiredAt X l t = false

theorem Live.mono {X : Site} {r s : Int64 → Prop} {l : Lease} (h : Live X s l)
    (hsub : ∀ t, r t → s t) : Live X r l := ⟨h.1, fun t ht => h.2 t (hsub t ht)⟩

/-- The statuses that stand for a paid state. -/
def PaidStatus (l : Lease) : Prop := l.status = ascii "active" ∨ l.status = ascii "fallback"

theorem leaseState_paid {X : Site} {l : Lease} {t : Int64} (htrust : X.trusts l = true)
    (hstatus : PaidStatus l) (hexp : expiredAt X l t = false) : (leaseState X l t).paid = true := by
  have he : (X.verify l t).expired = false := hexp
  simp only [leaseState, Client.deriveStateFromVerify, X.verify_isTrusted, htrust, he,
    Bool.not_true, Bool.false_eq_true, if_false]
  by_cases ha : l.status = ascii "active"
  · rw [if_pos ha]
    rfl
  · rw [if_neg ha, if_pos (hstatus.resolve_left ha)]
    rfl

namespace Client
variable (X : Site) (E : Env)

/-- A reply's lease neither strands a live cached lease nor puts a live one on an unpaid state. -/
def ReplyOk (c : Core) (l : Lease) : Prop :=
  if X.trusts l then Live X E.reads l → PaidStatus l
  else ∀ l', c.cache.lease = some l' → ¬Live X E.reads l'

/-- A stored live lease resolves to a paid state within the offline bound. -/
def LaunchOk (w : World) : Prop :=
  ∀ j l, loadedJson E w = some j → leaseOf j = some l → Live X E.reads l →
    PaidStatus l ∧ (X.cfg.maxOfflineDays > 0 →
      ∀ i, beyondOfflineBound X (loadCache j {}).lastValidatedOnline (E.now i) = false)

/-- A transient failure finds no live cached lease that the grace has run out on. -/
def GraceOk (c : Core) : Prop :=
  c.rawState = .licensed → ∀ l, c.cache.lease = some l → Live X E.reads l →
    ∀ i, ¬graceEnds X c.cache (E.now i) c.cache.lastValidatedOnline

def ValidationOk (c : Core) : Prop :=
  match validationVerdict E.reply with
  | .rejectedLease _ l => ReplyOk X E c l
  | .renewed _ l => ReplyOk X E c l
  | _ => True

/-- The condition on one call under which gate and paywall stay together. -/
def GateOk (w : World) (call : Call) : Prop :=
  match call.1 with
  | .relaunch => LaunchOk X call.2 { w with ticks := {} }
  | .activate _ =>
    match activationVerdict call.2.reply with
    | .leased _ l => ReplyOk X call.2 w.core l
    | _ => True
  | .validate => ValidationOk X call.2 w.core
  | .activeRevalidate => ValidationOk X call.2 w.core
  | .checkOnLaunch => ValidationOk X call.2 w.core ∧
    (¬Decodable (validationVerdict call.2.reply) → GraceOk X call.2 w.core)
  | .refreshIfNeeded => ValidationOk X call.2 w.core ∧
    (¬Decodable (validationVerdict call.2.reply) → GraceOk X call.2 w.core)
  | _ => True

end Client

namespace Client
variable (X : Site) (E : Env) {reads : Int64 → Prop}

/-- While the cached lease is live the raw state is paid. -/
def Held (X : Site) (reads : Int64 → Prop) (c : Core) : Prop :=
  ∀ l, c.cache.lease = some l → Live X reads l → c.rawState.paid = true

theorem Held.mono {X : Site} {r s : Int64 → Prop} {c : Core} (h : Held X r c)
    (hsub : ∀ t, r t → s t) : Held X s c := fun l hl hlive => h l hl (hlive.mono hsub)

theorem resolvedCurrent_lease {c : Cache} {l : Lease} (h : c.lease = some l) (s : State)
    (t : Int64) : resolvedCurrent X c s t = s := by
  simp [resolvedCurrent, hasPaidMaterial, h]

theorem resolvedAt_held {s : State} (c : Cache) (t : Int64) (h : s.paid = true) :
    (resolvedAt X c s t).paid = true := by
  rw [resolvedAt_paid X c (State.paid_ne_invalid h)]
  exact h

/-- An activation that meets the condition leaves a live lease only beside a paid state. -/
theorem activated_held {key : Bytes} {v : ActivationVerdict} {c c' : Core}
    (hok : match v with
      | .leased _ l => ReplyOk X E c l
      | _ => True)
    (hE : ∀ t, E.reads t → reads t) (hc : Held X reads c) (h : Activated X E key v c c') :
    Held X reads c' := by
  intro l hl hlive
  cases h with
  | refused => exact hc l hl hlive
  | bare => rfl
  | @leased _ j l' htrust i k =>
    cases hl
    simp only [ReplyOk, htrust, if_true] at hok
    exact leaseState_paid htrust (hok (hlive.mono hE)) (hlive.2 _ (hE _ ⟨i, rfl⟩))
  | @untrusted _ j l' htrust i =>
    simp only [ReplyOk, htrust, Bool.false_eq_true, if_false] at hok
    exact absurd (hlive.mono hE) (hok l hl)

/-- So does a settled validation. -/
theorem settled_held {v : Verdict} {c c' : Core}
    (hok : match v with
      | .rejectedLease _ l => ReplyOk X E c l
      | .renewed _ l => ReplyOk X E c l
      | _ => True)
    (hE : ∀ t, E.reads t → reads t) (hc : Held X reads c) (h : Settled X E v c c') :
    Held X reads c' := by
  have hconf : ∀ j t, (configured X j t c.cache).lease = c.cache.lease := by
    intro j t
    unfold configured
    split <;> rfl
  intro l hl hlive
  cases h with
  | denied => cases hl
  | @rejected _ j l' htrust i k =>
    cases hl
    simp only [ReplyOk, htrust, if_true] at hok
    exact leaseState_paid htrust (hok (hlive.mono hE)) (hlive.2 _ (hE _ ⟨i, rfl⟩))
  | @rejectedUntrusted _ j l' htrust i =>
    simp only [ReplyOk, htrust, Bool.false_eq_true, if_false] at hok
    exact absurd (hlive.mono hE) (hok l hl)
  | @renewed _ j l' htrust i k n =>
    cases hl
    simp only [ReplyOk, htrust, if_true] at hok
    exact leaseState_paid htrust (hok (hlive.mono hE)) (hlive.2 _ (hE _ ⟨i, rfl⟩))
  | @renewedUntrusted _ j l' htrust i n =>
    simp only [ReplyOk, htrust, Bool.false_eq_true, if_false] at hok
    rw [hconf] at hl
    exact absurd (hlive.mono hE) (hok l hl)
  | leaseless _ j i n =>
    rw [hconf] at hl
    exact resolvedAt_held X _ _ (hc l hl hlive)

/-- So does a local step. -/
theorem local_held {reply : Result HttpResponse} {c c' : Core} (hc : Held X reads c)
    (h : Local X E reply c c') : Held X reads c' := by
  have hconf : ∀ j t, (configured X j t c.cache).lease = c.cache.lease := by
    intro j t
    unfold configured
    split <;> rfl
  intro l hl hlive
  cases h with
  | kept h => exact hc l (h.lease.symm.trans hl) hlive
  | resolved h i =>
    rw [resolvedCurrent_lease X hl]
    exact hc l (h.lease.symm.trans hl) hlive
  | configured hreply hbody n i h =>
    rw [resolvedCurrent_lease X hl]
    exact hc l ((hconf _ _).symm.trans (h.lease.symm.trans hl)) hlive
  | stamped hnew n i h =>
    rw [resolvedCurrent_lease X hl]
    exact hc l (h.lease.symm.trans hl) hlive

/-- So does a launch. -/
theorem launched_held {w : World} (hok : LaunchOk X E w) (hE : ∀ t, E.reads t → reads t) {j : Json}
    (hj : loadedJson E w = some j) (i k n : Nat) :
    Held X reads (launchedCore X j (E.now i) (E.now k) (E.now n)) := by
  intro l hl hlive
  have hlease : leaseOf j = some l := by
    simpa [launchedCore, loadCache] using hl
  obtain ⟨hstatus, hbound⟩ := hok j l hj hlease (hlive.mono hE)
  have hpaid : (leaseState X l (E.now i)).paid = true :=
    leaseState_paid hlive.1.trusted hstatus (hlive.2 _ (hE _ ⟨i, rfl⟩))
  have hbounded : boundedAt X (storedPaid X (leaseOf j) (E.now i))
      (loadCache j {}).lastValidatedOnline (E.now k) = leaseState X l (E.now i) := by
    simp only [hlease, storedPaid, boundedAt]
    split
    · rename_i hd
      simp [hbound hd.2 k]
    · rfl
  change (resolvedAt X _ _ _).paid = true
  rw [hbounded]
  exact resolvedAt_held X _ _ hpaid

theorem held_near {c : Core} {cache : Cache} (hc : Held X reads c) (h : Near c.cache cache)
    (a : Int64) : Held X reads ⟨cache, c.rawState, a⟩ := by
  intro l hl hlive
  exact hc l (h.lease.symm.trans hl) hlive

theorem held_noted {w : World} (hc : Held X reads w.core) : Held X reads (notedCore E w) :=
  held_near X hc (near_withHardwareId _ _) _

/-- `ReplyOk` does not look at the device ids. -/
theorem replyOk_noted {w : World} {l : Lease} (h : ReplyOk X E w.core l) :
    ReplyOk X E (notedCore E w) l := by
  have hlease := (near_withHardwareId (E.hardwareId w.ticks.hardwareId) w.core.cache).lease
  simp only [ReplyOk, notedCore, hlease] at h ⊢
  exact h

/-- A newly noted hardware id does not touch the condition. -/
theorem validationOk_noted {w : World} (h : ValidationOk X E w.core) :
    ValidationOk X E (notedCore E w) := by
  simp only [ValidationOk] at h ⊢
  cases hv : validationVerdict E.reply with
  | transient => trivial
  | undecodable => trivial
  | denied => trivial
  | leaseless j => trivial
  | rejectedLease j l =>
    simp only [hv] at h
    exact replyOk_noted X E h
  | renewed j l =>
    simp only [hv] at h
    exact replyOk_noted X E h

/-- So does the offline grace. -/
theorem graced_held {w : World} (hok : GraceOk X E w.core) (hE : ∀ t, E.reads t → reads t)
    (hc : Held X reads w.core) (i : Nat) :
    Held X reads { notedCore E w with
      rawState := gracedState X (notedCore E w) (E.now i) w.core.cache.lastValidatedOnline } := by
  have hnear := near_withHardwareId (E.hardwareId w.ticks.hardwareId) w.core.cache
  have hends : graceEnds X (notedCore E w).cache (E.now i) w.core.cache.lastValidatedOnline ↔
      graceEnds X w.core.cache (E.now i) w.core.cache.lastValidatedOnline := by
    simp only [graceEnds, rawExpired, notedCore, hnear.lease]
  intro l hl hlive
  have hlease : w.core.cache.lease = some l := hnear.lease.symm.trans hl
  have hpaid := hc l hlease hlive
  change (gracedState X (notedCore E w) _ _).paid = true
  rw [gracedState, if_neg]
  · exact hpaid
  · rintro ⟨hraw, hg⟩
    exact hok hraw l hlease (hlive.mono hE) i (hends.1 hg)

/-- One call under `GateOk` keeps what it finds. -/
theorem outcome_held {w : World} {op : Op} {c : Core}
    (hok : GateOk X w (op, E)) (hE : ∀ t, E.reads t → reads t) (hc : Held X reads w.core)
    (h : Outcome X E { w with ticks := {} } op c) : Held X reads c := by
  have hc' : Held X reads (World.core { w with ticks := {} }) := hc
  cases h with
  | blank =>
    intro l hl
    cases hl
  | launched hj i k n => exact launched_held X E hok hE hj i k n
  | @activated key _ h =>
    refine activated_held X E ?_ hE (held_noted X E hc') h
    have hok : match activationVerdict E.reply with
      | .leased _ l => ReplyOk X E w.core l
      | _ => True := hok
    cases hv : activationVerdict E.reply with
    | refused => trivial
    | bare j => trivial
    | leased j l =>
      simp only [hv] at hok
      exact replyOk_noted X E (w := { w with ticks := {} }) hok
  | settled hop h =>
    have hv : ValidationOk X E w.core := by
      cases op with
      | validate => exact hok
      | activeRevalidate => exact hok
      | checkOnLaunch => exact hok.1
      | refreshIfNeeded => exact hok.1
      | _ => cases hop
    exact settled_held X E (validationOk_noted X E (w := { w with ticks := {} }) hv) hE
      (held_noted X E hc') h
  | graced hop hkey hv i =>
    have hg : GraceOk X E w.core := by
      cases op with
      | checkOnLaunch => exact hok.2 hv
      | refreshIfNeeded => exact hok.2 hv
      | _ => cases hop
    exact graced_held X E (w := { w with ticks := {} }) hg hE hc' i
  | kept h => exact held_near X hc' h _
  | reset h =>
    intro l hl
    obtain h | ⟨i, h⟩ := h
    · rw [h] at hl
      cases hl
    · rw [h] at hl
      cases hl
  | resolved hop hkey i =>
    intro l hl hlive
    change (resolvedCurrent X _ _ _).paid = true
    rw [resolvedCurrent_lease X hl]
    exact hc l hl hlive
  | keyless hop h => exact local_held X E hc' h

end Client

/-- The clock readings of some calls. -/
def readsOf (calls : List Call) (t : Int64) : Prop := ∃ call ∈ calls, call.2.reads t

open Client in
/-- Over every run whose calls meet the condition a live lease stands beside a paid state. -/
theorem held_history (X : Site) (store : Bytes) (calls : List Call)
    (hok : Along (perform X) (GateOk X) calls { store }) :
    Held X (readsOf calls) (history X store calls).core := by
  have hstart : Held X (readsOf []) (World.core { store }) := by
    intro l hl
    cases hl
  refine Along.keeps (I := fun seen w => Held X (readsOf seen) w.core) ?_ hok hstart
  · intro seen w call h hcall
    obtain ⟨op, E⟩ := call
    have hseen : Held X (readsOf (seen ++ [(op, E)])) w.core := by
      refine h.mono fun t ht => ?_
      obtain ⟨call, hmem, hread⟩ := ht
      exact ⟨call, by simp [hmem], hread⟩
    exact outcome_held X E hcall (fun t ht => ⟨(op, E), by simp, ht⟩) hseen
      (op.exec_outcome X E w)

open Client in
/-- The gate is open for the features of a live trusted lease while the clock is trusted. -/
theorem entitled_iff {X : Site} {c : Client} {feature : Bytes} {t : Int64} :
    c.entitledAt X feature t = true ↔ c.untrustedAt t = false ∧ ∃ l, c.cache.lease = some l ∧
      X.trusts l = true ∧ expiredAt X l t = false ∧ l.status ≠ ascii "expired" ∧
      feature ∈ l.entitlements := by
  unfold entitledAt
  cases hu : c.untrustedAt t with
  | true => simp
  | false =>
    cases hl : c.cache.lease with
    | none => simp
    | some l =>
      simp only [X.verify_isTrusted, expiredAt, Bool.false_eq_true, if_false]
      cases ht : X.trusts l <;> cases he : (X.verify l t).expired <;> simp [ht, he]

open Client in
/-- Over every run whose calls meet `GateOk`, a granted feature means a paid state, at every
reading that does not bring an expired cached lease back to life. -/
theorem entitled_paid (X : Site) (store : Bytes) (calls : List Call)
    (hok : Along (perform X) (GateOk X) calls { store }) (feature : Bytes) (t : Int64)
    (hclock : ∀ l, (history X store calls).client.cache.lease = some l →
      expiredAt X l t = false → ∀ s, readsOf calls s → expiredAt X l s = false)
    (h : entitledAt X (history X store calls).client feature t = true) :
    stateAt (history X store calls).client t = .licensed ∨
      stateAt (history X store calls).client t = .limited := by
  obtain ⟨hu, l, hl, htrust, hexp, hstatus, hmem⟩ := entitled_iff.1 h
  have hgrants : Grants X l := ⟨htrust, hstatus, List.ne_nil_of_mem hmem⟩
  have hpaid := held_history X store calls hok l hl ⟨hgrants, hclock l hl hexp⟩
  have hpaid' : (history X store calls).client.rawState.paid = true := hpaid
  simp only [stateAt, hu, Bool.false_eq_true, if_false]
  generalize (history X store calls).client.rawState = s at hpaid' ⊢
  cases s <;> simp_all [State.paid]

/-- The public key of the key id `k1`. -/
def vectorKey : Bytes := ascii "8QkyJGwaIqAuN0jdsCnBtv3D" ++ ascii "9fylv4PHqCVufx7xje0="

/-- A lease signed under `vectorKey`, good for a week. -/
def vectorLease : Lease where
  kid := ascii "k1"
  licenseKeyHash := List.replicate 64 97
  instanceId := ascii "00000000-0000-4000-8000-" ++ ascii "000000000001"
  issuedAt := 1781076246
  expiresAt := 1781681046
  status := ascii "active"
  signature := ascii "SUrg6IHJBkO4PB80hiwXhkCFgHTxp5Ao" ++
    ascii "6i9fRnajIH3ws3E+F444xYUQL9UyJYMz" ++ ascii "4cC+6f8YDMfwrxIv1mQeBw=="
  entitlements := [ascii "pro"]

/-- Ed25519 on the one message whose signature is known. -/
def vectorCrypto : Crypto where
  ed25519Verify msg sig pub := msg == vectorLease.canonicalPayload &&
    sig == b64DecodeFlexible vectorLease.signature && pub == b64DecodeFlexible vectorKey
  sha256Hex b := b

/-- A tenant that allows two days offline. -/
def vectorSite : Site where
  cfg :=
    { tenantId := ascii "tenant1"
      productId := ascii "prod1"
      maxOfflineDays := 2
      trustedKeys := [(ascii "k1", vectorKey)] }
  crypto := vectorCrypto

/-- No keys are configured, so no signature is ever checked. -/
def Client.plainSite : Site where
  cfg :=
    { tenantId := ascii "tenant1"
      productId := ascii "prod1" }
  crypto := ⟨fun _ _ _ => false, id⟩

/-- An installation last validated ten seconds after the lease was issued. -/
def vectorCache : Cache :=
  { lease := some vectorLease
    licenseKey := some (ascii "KEY1")
    lastValidatedOnline := 1781076256 }

def vectorStore : Bytes := buildBlob vectorCache

/-- A call with a constant clock and no network. -/
def offlineAt (t : Int64) : Env := { now := fun _ => t }

/-- Relaunched three days later, inside the lease and past the offline bound, the client is
expired and still grants the feature. -/
theorem entitled_unpaid : ¬∀ (X : Site) (store : Bytes) (calls : List Call) (feature : Bytes)
    (t : Int64), Client.entitledAt X (history X store calls).client feature t = true →
      Client.stateAt (history X store calls).client t = .licensed ∨
        Client.stateAt (history X store calls).client t = .limited := by
  intro h
  have hstate : Client.stateAt (history vectorSite vectorStore
      [(.relaunch, offlineAt 1781335456)]).client 1781335456 = .expired := by decide +kernel
  have hpaid := h vectorSite vectorStore [(.relaunch, offlineAt 1781335456)] (ascii "pro")
    1781335456 (by decide +kernel)
  rw [hstate] at hpaid
  simp at hpaid

theorem vectorLease_accepted : vectorLease.Accepted := by
  constructor
  · decide
  · decide

theorem vectorStore_lease : (decodeStore vectorStore).bind leaseOf = some vectorLease := by
  rw [vectorStore, decodeStore_buildBlob, Option.bind_some, leaseOf_blob]
  · rfl
  · intro l hl
    exact Option.some.inj hl ▸ vectorLease_accepted

theorem vectorStore_anchor : (decodeStore vectorStore).map
    (fun j => (loadCache j {}).lastValidatedOnline) = some 1781076256 := by
  rw [vectorStore, decodeStore_buildBlob, Option.map_some, loadCache_blobValue]
  rfl

/-- Relaunched within a minute the same client meets the condition. -/
theorem entitled_paid_vector :
    Client.stateAt (history vectorSite vectorStore
      [(.relaunch, offlineAt 1781076300)]).client 1781076300 = .licensed ∨
    Client.stateAt (history vectorSite vectorStore
      [(.relaunch, offlineAt 1781076300)]).client 1781076300 = .limited := by
  refine entitled_paid vectorSite vectorStore [(.relaunch, offlineAt 1781076300)] ⟨?_, trivial⟩
    (ascii "pro") 1781076300 ?_ (by decide +kernel)
  · intro j l hj hl hlive
    have hj : decodeStore vectorStore = some j := hj
    have hlease := vectorStore_lease
    have hanchor := vectorStore_anchor
    rw [hj] at hlease hanchor
    have hvector : l = vectorLease := by
      rw [Option.bind_some, hl] at hlease
      exact Option.some.inj hlease
    rw [Option.map_some] at hanchor
    refine ⟨.inl (by rw [hvector]; rfl), fun _ i => ?_⟩
    rw [Option.some.inj hanchor]
    change Client.beyondOfflineBound vectorSite 1781076256 1781076300 = false
    decide
  · intro l hl hexp s hs
    obtain ⟨call, hcall, i, rfl⟩ := hs
    rw [List.mem_singleton.1 hcall]
    exact hexp

end Keylight
