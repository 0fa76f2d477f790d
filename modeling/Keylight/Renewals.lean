import Keylight.Courses

/-!
# What a renewal says

A renewal is announced when a licensed state is set again and the cached expiry
moved past the one looked at last. A launch loads an expiry and looks at none,
so a call that next confirms the same licence announces a renewal.
-/
namespace Keylight
open Bytes Sections Runs Client

/-- The lifecycle events of one call. -/
def newlyAnnounced (w v : World) : List LifecycleEvent :=
  (announced v.log).drop (announced w.log).length

/-- A renewal announced by the call comes with a later expiry, or with the first one. -/
def RenewsLater (X : Site) (w : World) (call : Call) : Prop :=
  let v := perform X call w
  .renewed ∈ newlyAnnounced w v → ∃ e, v.client.cache.expiresAt = some e ∧
    ∀ c, w.client.cache.expiresAt = some c → c < e

theorem mem_newlyAnnounced {w v : World} {ev : LifecycleEvent} {evs : List LifecycleEvent}
    (hmem : ev ∈ newlyAnnounced w v) (h : announced v.log = announced w.log ++ evs) :
    ev ∈ evs := by
  rw [newlyAnnounced, h, List.drop_left] at hmem
  exact hmem

/-- The client is licensed until `c` and has not looked at that expiry, as after a launch. -/
def Unseen (w : World) (c : Int64) : Prop :=
  w.client.rawState = .licensed ∧ w.client.lastSeenExpiry = none ∧
    w.client.cache.expiresAt = some c

/-- The body has an expiry after `c`. -/
def Extends (j : Json) (c : Int64) : Prop :=
  ∃ e, intOf j (ascii "license_expires_at") = some e ∧ c < e

/-- The installation trusts the lease, and it licenses at a reading of the clock. -/
def Licenses (X : Site) (E : Env) (l : Lease) : Prop :=
  X.trusts l = true ∧ ∃ i, leaseState X l (E.now i) = .licensed

/-- The call resolves the licence to licensed again, and brings no expiry after `c`. -/
inductive Reconfirms (X : Site) (E : Env) (w : World) (c : Int64) : Op → Prop where
  | bare {key : Bytes} {j : Json} (hv : activationVerdict E.reply = .bare j) (hj : ¬Extends j c) :
    Reconfirms X E w c (.activate key)
  | leased {key : Bytes} {j : Json} {l : Lease} (hv : activationVerdict E.reply = .leased j l)
    (hl : Licenses X E l) (hj : ¬Extends j c) : Reconfirms X E w c (.activate key)
  | renewed {op : Op} {j : Json} {l : Lease} (hop : op.validates) (hdue : op.due E w)
    (hv : validationVerdict E.reply = .renewed j l ∨
      validationVerdict E.reply = .rejectedLease j l)
    (hl : Licenses X E l) (hj : ¬Extends j c) : Reconfirms X E w c op
  | leaseless {op : Op} {j : Json} (hop : op.validates) (hdue : op.due E w)
    (hv : validationVerdict E.reply = .leaseless j) : Reconfirms X E w c op
  | cached {op : Op} (hop : op.resolves w ∨ op.takesSettings X E w)
    (hpaid : hasPaidMaterial w.client.cache = true) : Reconfirms X E w c op

/-- The call does not confirm an expiry that the client has not looked at. -/
def Remembers (X : Site) (w : World) : Call → Prop
  | (op, E) => ∀ c, Unseen w c → ¬Reconfirms X E { w with ticks := {} } c op

/-- The expiry looked at last is the cached one, or one of them is missing. -/
def Followed (w : World) : Prop :=
  w.client.lastSeenExpiry = w.client.cache.expiresAt ∨ w.client.cache.expiresAt = none ∨
    w.client.lastSeenExpiry = none

/-- Nothing announced and nothing looked at. -/
structure Mute (w v : World) : Prop where
  announced : announced v.log = announced w.log
  lastSeenExpiry : v.client.lastSeenExpiry = w.client.lastSeenExpiry

theorem Mute.trans {u v w : World} (h₁ : Mute u v) (h₂ : Mute v w) : Mute u w :=
  ⟨h₂.announced.trans h₁.announced, h₂.lastSeenExpiry.trans h₁.lastSeenExpiry⟩

theorem Steady.mute {w v : World} (h : Steady w v) : Mute w v :=
  ⟨h.announced, congrArg Standing.lastSeenExpiry h.standing⟩

theorem Leads.mute {p : Code α} {k : α → Code β} (hp : Leads Mute p) (hk : ∀ a, Leads Mute (k a)) :
    Leads Mute (p >>= k) := hp.bind hk Mute.trans

/-- A renewal is announced over a cached expiry only. -/
def OverExpiry (w v : World) : Prop :=
  ∃ evs, announced v.log = announced w.log ++ evs ∧
    (.renewed ∈ evs → ∃ e, v.client.cache.expiresAt = some e)

theorem Mute.overExpiry {w v : World} (h : Mute w v) : OverExpiry w v := by
  refine ⟨[], h.announced.trans (List.append_nil _).symm, fun hmem => ?_⟩
  cases hmem

theorem OverExpiry.after {u v w : World} (h₁ : Mute u v) (h₂ : OverExpiry v w) :
    OverExpiry u w := by
  obtain ⟨evs, hlog, hrenewed⟩ := h₂
  exact ⟨evs, by rw [hlog, h₁.announced], hrenewed⟩

theorem Leads.overExpiry {p : Code α} {k : α → Code β} (hp : Leads Mute p)
    (hk : ∀ a, Leads OverExpiry (k a)) : Leads OverExpiry (p >>= k) := hp.bind hk OverExpiry.after

theorem movedLater_some {expiry last : Option Int64} (h : movedLater expiry last = true) :
    ∃ e, expiry = some e ∧ ∀ c, last = some c → c < e := by
  cases expiry with
  | none => cases h
  | some e =>
    refine ⟨e, rfl, ?_⟩
    rintro c rfl
    simpa [movedLater] using h

namespace Client
variable (X : Site) (E : Env)

theorem mutes {p : Code α} (h : Routinely p) : Leads Mute p := fun w => (h.run w).toSteady.mute

theorem mutes_refreshStateFromStore : Leads Mute (refreshStateFromStore X E) := by
  have hinit : ∀ s, Leads Mute (storeInitialState s) := fun s w => ⟨rfl, rfl⟩
  have hload : Leads Mute (storeLoad E) := fun w => ⟨rfl, rfl⟩
  refine hload.mute fun lr => ?_
  cases lr with
  | error e => exact hinit _
  | ok blob =>
    cases blob with
    | nil => exact hinit _
    | cons b bs =>
      dsimp only
      cases Json.parse (b :: bs) with
      | error e => exact hinit _
      | ok j =>
        have hblob : Leads Mute (loadBlob j) := fun w => ⟨rfl, rfl⟩
        have hpaid : Leads Mute (paidFromStore X E (leaseOf j)) := by
          cases leaseOf j with
          | none => exact mutes (.pure _)
          | some l => exact mutes (.bind (routinely_nowFn E) fun _ => .pure _)
        have hbound : ∀ s, Leads Mute (boundOffline X E s) := fun s =>
          mutes (.ite (.bind (.read _) fun _ => .bind (routinely_nowFn E) fun _ => .pure _)
            (.pure _))
        refine hblob.mute fun _ => hpaid.mute fun paid => (hbound paid).mute fun s => ?_
        exact (mutes (routinely_resolveWithTrial X E s)).mute hinit

/-- A launch announces nothing and looks at no expiry. -/
theorem construct_mute (w : World) :
    announced ((construct X E).run w).2.log = announced w.log ∧
      ((construct X E).run w).2.client.lastSeenExpiry = none := by
  have hlast : ∀ s : State, Leads Mute (.modify fun w => { w with client.lastReported := s }) :=
    fun s w => ⟨rfl, rfl⟩
  have hrest : Leads Mute (refreshStateFromStore X E >>= fun _ => state E >>= fun s =>
      Prog.modify fun w => { w with client.lastReported := s }) :=
    (mutes_refreshStateFromStore X E).mute fun _ => (mutes (routinely_state E)).mute hlast
  have hmute := hrest { w with
    client := {}, saveOwner := none, notifyOwner := none, log := w.log ++ [.launched] }
  refine ⟨hmute.announced.trans ?_, hmute.lastSeenExpiry⟩
  exact (announced_append _ _).trans (List.append_nil _)

theorem deactivate_expiresAt (w : World) :
    (Op.deactivate.exec X E w).client.cache.expiresAt = none := by
  have hrun : Op.deactivate.exec X E w = ((deactivate X E).run { w with ticks := {} }).2 :=
    run_ignored _ _
  have hcached : (Op.deactivate.exec X E w).client.cache.expiresAt =
      ((deactivate X E).run { w with ticks := {} }).2.core.cache.expiresAt := by
    rw [hrun]
    rfl
  rw [hcached]
  obtain hcore | ⟨i, hcore⟩ := deactivate_core X E { w with ticks := {} }
  · rw [hcore]
    rfl
  · rw [hcore]
    rfl

theorem overExpiry_deactivate : Leads OverExpiry (deactivate X E) := by
  have hset : ∀ s : State, Leads OverExpiry (setState E s) := by
    intro s v
    obtain ⟨evs, hlog, hrenewed⟩ := (turns_setState (E := E) (T := fun _ => False) s v).announced
    exact ⟨evs, hlog, fun h => (movedLater_some (hrenewed h).2.2).imp fun _ => And.left⟩
  have hreset : Leads Mute resetPaid := fun w =>
    ⟨(announced_append _ _).trans (List.append_nil _), rfl⟩
  have hrequest : ∀ key id, Leads Mute (requestDeactivate X E key id) := by
    intro key id
    unfold requestDeactivate
    split
    · exact mutes (.pure _)
    · refine (mutes (routinely_jsonHeaders X E)).mute fun headers => ?_
      refine Leads.mute (fun w => (steadily_requestWithRetry _ _ _ _ w).mute) fun hr => ?_
      cases hr with
      | error e => exact mutes (.pure _)
      | ok resp => exact mutes (.ite (.pure _) (.pure _))
  refine .overExpiry (mutes (.read _)) fun id => .overExpiry (mutes (.read _)) fun key =>
    (hrequest key id).overExpiry fun serverError => hreset.overExpiry fun keepTrial =>
      (mutes (routinely_updateStore E keepTrial)).overExpiry fun r => ?_
  cases r with
  | error e => exact fun w => (mutes (.pure _) w).overExpiry
  | ok _ =>
    refine (mutes (routinely_resolveWithTrial X E .invalid)).overExpiry fun s => ?_
    refine (hset s).bind (S := Eq) (fun _ w => ?_) ?_
    · cases serverError <;> rfl
    · rintro u v w h rfl
      exact h

end Client

namespace Course
variable {X : Site} {E : Env} {w v : World} {op : Op}

theorem turned (h : Course X E w op v) : Steady w v ∨ CallTurn E w v := by
  cases h with
  | steady h => exact .inl h
  | lapsed h _ => exact .inr h
  | activated _ _ h => exact .inr h
  | validated _ _ _ h => exact .inr h
  | resolved _ _ h => exact .inr h

/-- An expiry in the body is the one that is cached. -/
theorem not_extends {j : Json} {c e : Int64} {cached : Option Int64}
    (he : (intOf j (ascii "license_expires_at")).or cached = some e) (hce : ¬c < e) :
    ¬Extends j c := by
  rintro ⟨e', he', hlater⟩
  rw [he', Option.some_or] at he
  cases he
  exact hce hlater

theorem not_licensed {c : Cache} {t : Int64} (h : resolvedAt X c .invalid t = .licensed) :
    False := by
  have hunpaid := resolvedAt_unpaid X c t
  rw [h] at hunpaid
  cases hunpaid

/-- A call that ends licensed without an expiry after `c` was steady or reconfirmed. -/
theorem reconfirms {c e : Int64} (h : Course X E w op v) (hraw : v.core.rawState = .licensed)
    (he : v.core.cache.expiresAt = some e) (hce : ¬c < e) :
    Steady w v ∨ Reconfirms X E w c op := by
  cases h with
  | steady h => exact .inl h
  | lapsed _ hexpired =>
    have hexpired' : v.core.rawState = .expired := hexpired
    rw [hexpired'] at hraw
    cases hraw
  | activated hv hcore _ =>
    right
    generalize hr : activationVerdict E.reply = verdict at hv hcore
    generalize v.core = core at hraw he hcore
    cases hcore with
    | refused => exact absurd rfl hv
    | bare _ j => exact .bare hr (not_extends he hce)
    | leased _ htrust i _ => exact .leased hr ⟨htrust, i, hraw⟩ (not_extends he hce)
    | untrusted _ _ i => exact (not_licensed hraw).elim
  | validated hop hdue hcore _ =>
    right
    generalize hr : validationVerdict E.reply = verdict at hcore
    generalize v.core = core at hraw he hcore
    cases hcore with
    | denied => cases hraw
    | rejected _ htrust i _ =>
      exact .renewed hop hdue (.inr hr) ⟨htrust, i, hraw⟩ (not_extends he hce)
    | rejectedUntrusted _ _ i => exact (not_licensed hraw).elim
    | renewed _ htrust i _ _ =>
      exact .renewed hop hdue (.inl hr) ⟨htrust, i, hraw⟩ (not_extends he hce)
    | renewedUntrusted _ _ i _ => exact (not_licensed hraw).elim
    | leaseless _ j _ _ => exact .leaseless hop hdue hr
  | resolved hop hpaid _ => exact .inr (.cached hop (hpaid hraw))

end Course

theorem perform_followed (X : Site) (call : Call) {w : World} (hw : Followed w) :
    Followed (perform X call w) := by
  obtain ⟨op, E⟩ := call
  by_cases hlaunch : op = .relaunch
  · subst hlaunch
    exact .inr (.inr (construct_mute X E _).2)
  · by_cases hdeactivate : op = .deactivate
    · subst hdeactivate
      exact .inr (.inl (deactivate_expiresAt X E w))
    · obtain hsteady | hturn := (op.exec_course X E w hlaunch hdeactivate).turned
      · have hseen := congrArg Standing.lastSeenExpiry hsteady.standing
        have hcached := congrArg Standing.expiresAt hsteady.standing
        exact hw.imp (fun h => hseen.trans (h.trans hcached.symm))
          (Or.imp hcached.trans hseen.trans)
      · exact .inl hturn.seen

/-- A call renews later, unless it reconfirms an expiry that the client has not looked at. -/
theorem perform_renewsLater (X : Site) {call : Call} {w : World} (hw : Followed w)
    (hok : Remembers X w call) : RenewsLater X w call := by
  obtain ⟨op, E⟩ := call
  intro hrenewed
  by_cases hlaunch : op = .relaunch
  · subst hlaunch
    have hsilent : announced (perform X (.relaunch, E) w).log = announced w.log ++ [] :=
      (construct_mute X E { w with ticks := {} }).1.trans (List.append_nil _).symm
    cases mem_newlyAnnounced hrenewed hsilent
  · by_cases hdeactivate : op = .deactivate
    · subst hdeactivate
      have hnone : (perform X (.deactivate, E) w).client.cache.expiresAt = none :=
        deactivate_expiresAt X E w
      have hrun : perform X (.deactivate, E) w = ((deactivate X E).run { w with ticks := {} }).2 :=
        run_ignored _ _
      obtain ⟨evs, hlog, hover⟩ := overExpiry_deactivate X E { w with ticks := {} }
      rw [← hrun] at hlog hover
      obtain ⟨e, he⟩ := hover (mem_newlyAnnounced hrenewed hlog)
      rw [hnone] at he
      cases he
    · have hcourse := op.exec_course X E w hlaunch hdeactivate
      have hsteady : ¬Steady { w with ticks := {} } (op.exec X E w) := by
        intro hsteady
        cases mem_newlyAnnounced hrenewed (hsteady.announced.trans (List.append_nil _).symm)
      have hturn := hcourse.turned.resolve_left hsteady
      obtain ⟨evs, hlog, hover⟩ := hturn.announced
      obtain ⟨hbefore, hafter, hmoved⟩ := hover (mem_newlyAnnounced hrenewed hlog)
      obtain ⟨e, he, hlast⟩ := movedLater_some hmoved
      refine ⟨e, he, fun c hc => ?_⟩
      obtain hseen | hnone | hunseen := hw
      · exact hlast c (hseen.trans hc)
      · rw [hnone] at hc
        cases hc
      · by_contra hce
        exact hok c ⟨hbefore, hunseen, hc⟩
          ((hcourse.reconfirms hafter he hce).resolve_left hsteady)

/-- In a run where no call reconfirms an expiry that the client has not looked at, every renewal
comes with an expiry later than the cached one, or with the first one. -/
theorem renewals_later (X : Site) (store : Bytes) (calls : List Call)
    (hok : Along (perform X) (Remembers X) calls { store }) :
    Along (perform X) (RenewsLater X) calls { store } :=
  hok.imp (fun _ call hw => perform_followed X call hw)
    (fun _ _ hw h => perform_renewsLater X hw h) (.inl rfl)

/-- The stored licence of `vectorStore`, paid for some weeks longer than its lease. -/
def paidStore : Bytes := buildBlob { vectorCache with expiresAt := some 1783668246 }

def paidLaunch : World :=
  perform vectorSite (.relaunch, offlineAt 1781076300) { store := paidStore }

theorem paidLaunch_expiresAt : paidLaunch.client.cache.expiresAt = some 1783668246 := by
  decide +kernel

def extendingReply : HttpResponse :=
  ⟨200, ascii "\x7b\"activated\":true,\"license_expires_at\":1790000000\x7d", []⟩

/-- An activation that extends the licence. -/
def extendingCall : Call := (.activate (ascii "KEY1"), repliesAt 1781076300 extendingReply)

theorem extendingCall_remembers : Remembers vectorSite paidLaunch extendingCall := by
  rintro c ⟨-, -, hc⟩ hreconfirms
  have hbody : (match activationVerdict (.ok extendingReply) with
      | .bare j => intOf j (ascii "license_expires_at")
      | _ => none) = some 1790000000 := by decide +kernel
  cases paidLaunch_expiresAt.symm.trans hc
  cases hreconfirms with
  | bare hv hj =>
    rw [show activationVerdict (.ok extendingReply) = _ from hv] at hbody
    exact hj ⟨_, hbody, by decide⟩
  | leased hv hl hj =>
    rw [show activationVerdict (.ok extendingReply) = _ from hv] at hbody
    cases hbody
  | renewed hop hdue hv hl hj => cases hop
  | leaseless hop hdue hv => cases hop
  | cached hop hpaid =>
    obtain (hop | ⟨hop, -⟩) | hop := hop
    · cases hop
    · cases hop
    · exact hop

/-- The extension is announced as a renewal. -/
theorem renewals_later_extended :
    .renewed ∈ newlyAnnounced paidLaunch (perform vectorSite extendingCall paidLaunch) ∧
      Along (perform vectorSite) (RenewsLater vectorSite)
        [(.relaunch, offlineAt 1781076300), extendingCall] { store := paidStore } := by
  refine ⟨by decide +kernel, renewals_later vectorSite paidStore _
    ⟨?_, extendingCall_remembers, trivial⟩⟩
  rintro c ⟨hlicensed, -, -⟩
  cases hlicensed

/-- A validation that confirms the licence with the expiry it has. -/
def confirmingCall : Call := (.validate, repliesAt 1781076360
  ⟨200, ascii "\x7b\"valid\":true,\"license_expires_at\":1783668246\x7d", []⟩)

/-- After a launch the unchanged licence is announced as renewed. -/
theorem renewals_unchanged : ¬∀ (X : Site) (store : Bytes) (calls : List Call),
    Along (perform X) (RenewsLater X) calls { store } := by
  intro h
  obtain ⟨hafter, hrenewed⟩ :
      (perform vectorSite confirmingCall paidLaunch).client.cache.expiresAt = some 1783668246 ∧
        .renewed ∈ newlyAnnounced paidLaunch (perform vectorSite confirmingCall paidLaunch) := by
    decide +kernel
  have hcall : RenewsLater vectorSite paidLaunch confirmingCall :=
    (h vectorSite paidStore [(.relaunch, offlineAt 1781076300), confirmingCall]).2.1
  obtain ⟨e, he, hlater⟩ := hcall hrenewed
  cases he.symm.trans hafter
  exact Int64.lt_irrefl (hlater 1783668246 paidLaunch_expiresAt)

end Keylight
