import Mathlib.Data.List.DropRight
import Keylight.Replies

/-!
# Attempts of one request

The retry loop as a function of the transport's answers: how many it consumes,
which of them it returns, and how long it sleeps after each. The header parser
is characterised by the strings it accepts.
-/
namespace Keylight
open Bytes Sections

/-- Optional blanks around one run of digits. -/
def DelaySeconds (value : Bytes) (secs : Nat) : Prop :=
  ∃ before digits after, value = before ++ digits ++ after ∧
    (∀ c ∈ before, isBlank c) ∧ (∀ c ∈ after, isBlank c) ∧
    digits ≠ [] ∧ (∀ c ∈ digits, isDigit c) ∧ digitsValue digits = secs

theorem isBlank_of_isDigit {c : UInt8} (h : isDigit c) : isBlank c = false := by
  simp only [isDigit, Bool.and_eq_true, decide_eq_true_eq, UInt8.le_iff_toNat_le] at h
  simp only [isBlank, Bool.or_eq_false_iff, decide_eq_false_iff_not, UInt8.ext_iff]
  have h48 : (48 : UInt8).toNat = 48 := rfl
  have h32 : (32 : UInt8).toNat = 32 := rfl
  have h9 : (9 : UInt8).toNat = 9 := rfl
  omega

theorem digitValue_le {c : UInt8} (h : isDigit c) : digitValue c ≤ 9 := by
  simp only [isDigit, Bool.and_eq_true, decide_eq_true_eq, UInt8.le_iff_toNat_le] at h
  have h57 : (57 : UInt8).toNat = 57 := rfl
  unfold digitValue
  omega

theorem le_scan (v : Bytes) (out : Nat) :
    out ≤ v.foldl (fun n c => n * 10 + digitValue c) out := by
  induction v generalizing out with
  | nil => exact Nat.le_refl out
  | cons c v ih =>
    have hstep := ih (out * 10 + digitValue c)
    rw [List.foldl_cons]
    omega

/-- The guard before a digit is appended is the overflow test of the new value. -/
theorem overflows_iff {out d : Nat} (hd : d ≤ 9) :
    out > (uint64Max - d) / 10 ↔ uint64Max < out * 10 + d := by
  have hmax : 9 ≤ uint64Max := by decide
  omega

/-- The digits are read in full, or not at all when their value passes the maximum. -/
theorem retryAfterDigits_iff (v : Bytes) {out secs : Nat} (hout : out ≤ uint64Max) :
    retryAfterDigits out v = some secs ↔
      (∀ c ∈ v, isDigit c) ∧ v.foldl (fun n c => n * 10 + digitValue c) out = secs ∧
        secs ≤ uint64Max := by
  induction v generalizing out with
  | nil =>
    simp only [retryAfterDigits, Option.some.injEq, List.not_mem_nil, List.foldl_nil]
    constructor
    · rintro rfl
      exact ⟨fun _ hc => hc.elim, rfl, hout⟩
    · rintro ⟨-, hsecs, -⟩
      exact hsecs
  | cons c v ih =>
    simp only [retryAfterDigits, List.forall_mem_cons, List.foldl_cons]
    by_cases hc : isDigit c
    · by_cases hover : out > (uint64Max - digitValue c) / 10
      · -- the value only grows, so it stays past the maximum
        have hbig := (overflows_iff (digitValue_le hc)).mp hover
        have hle := le_scan v (out * 10 + digitValue c)
        simp only [hc, Bool.not_true, Bool.false_eq_true, if_false, if_pos hover]
        constructor
        · intro h
          cases h
        · rintro ⟨-, hsecs, hmax⟩
          omega
      · have hfits : out * 10 + digitValue c ≤ uint64Max := by
          rw [overflows_iff (digitValue_le hc)] at hover
          omega
        simp only [hc, Bool.not_true, Bool.false_eq_true, if_false, if_neg hover, ih hfits,
          true_and]
    · simp [hc]

/-- Trimming takes the blanks off a run that neither begins nor ends with one. -/
theorem trim_padded {p : UInt8 → Bool} {before core after : Bytes} (hbefore : ∀ c ∈ before, p c)
    (hafter : ∀ c ∈ after, p c) (hcore : ∀ c ∈ core, p c = false) (hne : core ≠ []) :
    (((before ++ core ++ after).dropWhile p).reverse.dropWhile p).reverse = core := by
  obtain ⟨c, rest, rfl⟩ := List.exists_cons_of_ne_nil hne
  have hleft : ((before ++ (c :: rest) ++ after).dropWhile p) = (c :: rest) ++ after := by
    rw [List.append_assoc, List.dropWhile_append_of_pos hbefore, List.cons_append,
      List.dropWhile_cons_of_neg]
    rw [hcore c (.head _)]
    exact Bool.false_ne_true
  have hlast : ∃ d front, (c :: rest).reverse = d :: front ∧ p d = false := by
    obtain ⟨d, front, hd⟩ := List.exists_cons_of_ne_nil
      (show (c :: rest).reverse ≠ [] from by simp)
    refine ⟨d, front, hd, hcore d ?_⟩
    rw [← List.mem_reverse, hd]
    exact .head _
  obtain ⟨d, front, hrev, hd⟩ := hlast
  rw [hleft, List.reverse_append, List.dropWhile_append_of_pos, hrev,
    List.dropWhile_cons_of_neg, ← hrev, List.reverse_reverse]
  · rw [hd]
    exact Bool.false_ne_true
  · intro x hx
    exact hafter x (List.mem_reverse.mp hx)

/-- What trimming leaves, with what it took away. -/
theorem trim_split (p : UInt8 → Bool) (value : Bytes) :
    ∃ before after, value = before ++ ((value.dropWhile p).reverse.dropWhile p).reverse ++ after ∧
      (∀ c ∈ before, p c) ∧ (∀ c ∈ after, p c) := by
  refine ⟨value.takeWhile p, ((value.dropWhile p).reverse.takeWhile p).reverse, ?_, ?_, ?_⟩
  · rw [List.append_assoc, ← List.reverse_append, List.takeWhile_append_dropWhile,
      List.reverse_reverse, List.takeWhile_append_dropWhile]
  · intro c hc
    exact List.mem_takeWhile_imp hc
  · intro c hc
    exact List.mem_takeWhile_imp (List.mem_reverse.mp hc)

/-- The parser accepts blanks around one run of digits, up to the largest 64-bit value. -/
theorem parseRetryAfter_iff (value : Bytes) (secs : Nat) :
    parseRetryAfter value = some secs ↔ DelaySeconds value secs ∧ secs ≤ uint64Max := by
  constructor
  · intro h
    simp only [parseRetryAfter] at h
    split at h
    · cases h
    · next hne =>
      obtain ⟨hdigits, hvalue, hmax⟩ := (retryAfterDigits_iff _ (Nat.zero_le _)).mp h
      obtain ⟨before, after, hsplit, hbefore, hafter⟩ := trim_split isBlank value
      exact ⟨⟨before, _, after, hsplit, hbefore, hafter, hne, hdigits, hvalue⟩, hmax⟩
  · rintro ⟨⟨before, digits, after, rfl, hbefore, hafter, hne, hdigits, hvalue⟩, hmax⟩
    have htrim := trim_padded hbefore hafter (fun c hc => isBlank_of_isDigit (hdigits c hc)) hne
    simp only [parseRetryAfter]
    rw [htrim, if_neg hne]
    exact (retryAfterDigits_iff digits (Nat.zero_le _)).mpr ⟨hdigits, hvalue, hmax⟩

/-- A reply whose status is not worth another try. -/
def definitive : Result HttpResponse → Bool
  | .ok resp => !statusRetryable resp.status
  | .error _ => false

/-- The seconds the server asked for, which only a 429 may. -/
def serverDelay : Result HttpResponse → Option Nat
  | .ok resp =>
    if resp.status = 429 then (resp.headers.lookup (ascii "retry-after")).bind parseRetryAfter
    else none
  | .error _ => none

/-- The pause after a result that is tried again. -/
def retryDelay (attempt : Nat) (r : Result HttpResponse) : Nat :=
  match serverDelay r with
  | some secs => min (1000 * secs) retryMaxSleepMs
  | none => min (retryBaseMs * 2 ^ (attempt - 1)) retryCapMs

theorem retryDelay_le (attempt : Nat) (r : Result HttpResponse) :
    retryDelay attempt r ≤ retryMaxSleepMs := by
  unfold retryDelay
  cases serverDelay r with
  | some secs => exact Nat.min_le_right _ _
  | none => exact (Nat.min_le_right _ _).trans (by decide)

namespace Client

theorem definitive_eq (r : Result HttpResponse) :
    definitive r = (isOk r && !statusRetryable (statusOf r)) := by
  cases r with
  | ok resp => rfl
  | error e => rfl

theorem retryable_of_not_definitive {r : Result HttpResponse} (h : definitive r = false) :
    statusRetryable (statusOf r) = true := by
  cases r with
  | ok resp => simpa [definitive, statusOf] using h
  | error e => rfl

theorem retryDecide_retry {attempt : Nat} {r : Result HttpResponse} (h : definitive r = false) :
    (retryDecide (statusOf r) attempt (retryAfterOf r)).retry = true ↔
      attempt < retryMaxAttempts := by
  unfold retryDecide
  rw [retryable_of_not_definitive h]
  by_cases hlast : retryMaxAttempts ≤ attempt
  · simp [hlast]
  · simp [hlast, Nat.lt_of_not_le hlast]

theorem clamped_eq (secs : Nat) :
    min (if secs > retryMaxSleepMs / 1000 then retryMaxSleepMs else secs * 1000)
      retryMaxSleepMs = min (1000 * secs) retryMaxSleepMs := by
  have hdiv : retryMaxSleepMs / 1000 = 3600 := rfl
  have hmax : retryMaxSleepMs = 3600000 := rfl
  split <;> omega

/-- The policy decides on the pause that `retryDelay` names. -/
theorem retryDecide_delay {attempt : Nat} {r : Result HttpResponse} (h : definitive r = false)
    (hfirst : 1 ≤ attempt) (hlast : attempt < retryMaxAttempts) :
    (retryDecide (statusOf r) attempt (retryAfterOf r)).delayMs = retryDelay attempt r := by
  have hbackoff : min (backoffMs attempt) retryMaxSleepMs =
      min (retryBaseMs * 2 ^ (attempt - 1)) retryCapMs := by
    have hmax : retryMaxAttempts = 3 := rfl
    obtain rfl | rfl : attempt = 1 ∨ attempt = 2 := by omega
    · rfl
    · rfl
  unfold retryDecide
  rw [retryable_of_not_definitive h]
  cases r with
  | error e => simp [Nat.not_le.mpr hlast, retryAfterOf, retryDelay, serverDelay, hbackoff]
  | ok resp =>
    by_cases h429 : resp.status = 429
    · cases hsecs : (resp.headers.lookup (ascii "retry-after")).bind parseRetryAfter with
      | none =>
        simp [Nat.not_le.mpr hlast, retryAfterOf, retryDelay, serverDelay, h429, hsecs, hbackoff]
      | some secs =>
        simp [Nat.not_le.mpr hlast, retryAfterOf, statusOf, retryDelay, serverDelay, h429, hsecs,
          clamped_eq]
    · cases hsecs : retryAfterOf (.ok resp) with
      | none => simp [Nat.not_le.mpr hlast, retryDelay, serverDelay, h429, hbackoff]
      | some secs =>
        simp [Nat.not_le.mpr hlast, statusOf, retryDelay, serverDelay, h429, hbackoff]

/-- A failed attempt and the pause after it; `attempt` numbers the first one. -/
def retriesLogged (request : Nat → Result HttpResponse) (req : HttpRequest) (t attempt n : Nat) :
    List Event :=
  (List.range n).flatMap fun i =>
    [.exchange req (request (t + i)), .slept (retryDelay (attempt + i) (request (t + i)))]

theorem retriesLogged_succ (request : Nat → Result HttpResponse) (req : HttpRequest)
    (t attempt n : Nat) : retriesLogged request req t attempt (n + 1) =
      [.exchange req (request t), .slept (retryDelay attempt (request t))] ++
        retriesLogged request req (t + 1) (attempt + 1) n := by
  simp only [retriesLogged, List.range_succ_eq_map, List.flatMap_cons, List.flatMap_map,
    Nat.add_zero, Nat.succ_eq_add_one, Nat.add_assoc, Nat.add_comm 1]

/-- By induction on the attempts left: those that fail are logged with their pauses, and the first
definitive answer, or the last one, is returned. -/
theorem requestLoop_attempts (E : Env) (req : HttpRequest) (left attempt : Nat)
    (last : Result HttpResponse) (w : World) (hfirst : 1 ≤ attempt)
    (hleft : attempt + left = retryMaxAttempts) :
    ∃ n ≤ left, (∀ i < n, definitive (E.request (w.ticks.request + i)) = false) ∧
      (definitive (E.request (w.ticks.request + n)) ∨ n = left) ∧
      ((requestLoop E req (left + 1) attempt last).run w).1 =
        E.request (w.ticks.request + n) ∧
      ((requestLoop E req (left + 1) attempt last).run w).2 =
        { w with
          ticks.request := w.ticks.request + n + 1
          log := w.log ++ retriesLogged E.request req w.ticks.request attempt n ++
            [.exchange req (E.request (w.ticks.request + n))] } := by
  induction left generalizing attempt last w with
  | zero =>
    refine ⟨0, Nat.le_refl 0, fun i hi => absurd hi (Nat.not_lt_zero i), .inr rfl, ?_⟩
    have hstop : attempt = retryMaxAttempts := hleft
    simp only [requestLoop, transportRequest, Prog.run_bind, Prog.run_atom, Prog.run_ite,
      Prog.run_pure, sleepFn, Prog.run_modify, retriesLogged, List.range_zero, List.flatMap_nil,
      List.append_nil, Nat.add_zero]
    split
    · exact ⟨rfl, rfl⟩
    · rw [if_pos]
      · exact ⟨rfl, rfl⟩
      · simp [retryDecide, hstop]
  | succ left ih =>
    rw [requestLoop]
    simp only [transportRequest, Prog.run_bind, Prog.run_atom, Prog.run_ite, Prog.run_pure,
      sleepFn, Prog.run_modify, ← definitive_eq]
    cases hdef : definitive (E.request w.ticks.request) with
    | true =>
      refine ⟨0, Nat.zero_le _, fun i hi => absurd hi (Nat.not_lt_zero i), .inl hdef, ?_⟩
      rw [if_pos rfl]
      simp [retriesLogged]
    | false =>
      have hmore : attempt < retryMaxAttempts := by omega
      rw [if_neg Bool.false_ne_true, if_neg (by simp [(retryDecide_retry hdef).mpr hmore]),
        retryDecide_delay hdef hfirst hmore]
      obtain ⟨n, hn, hretried, hstop, hresult, hworld⟩ :=
        ih (attempt + 1) (E.request w.ticks.request)
          { w with
            ticks.request := w.ticks.request + 1
            log := w.log ++ [.exchange req (E.request w.ticks.request)] ++
              [.slept (retryDelay attempt (E.request w.ticks.request))] }
          (by omega) (by omega)
      refine ⟨n + 1, by omega, ?_, ?_, ?_, ?_⟩
      · intro i hi
        cases i with
        | zero => exact hdef
        | succ i =>
          rw [Nat.add_comm i, ← Nat.add_assoc]
          exact hretried i (by omega)
      · rw [Nat.add_comm n, ← Nat.add_assoc]
        obtain hdef' | rfl := hstop
        · exact .inl hdef'
        · exact .inr (Nat.add_comm 1 n)
      · rw [Nat.add_comm n, ← Nat.add_assoc]
        exact hresult
      · rw [hworld, retriesLogged_succ, Nat.add_comm n, ← Nat.add_assoc]
        simp only [List.append_assoc]
        rfl

end Client

/-- The pauses among some events, in order. -/
def sleeps (events : List Event) : List Nat :=
  events.filterMap fun
    | .slept ms => some ms
    | _ => none

@[simp] theorem sleeps_append (xs ys : List Event) : sleeps (xs ++ ys) = sleeps xs ++ sleeps ys :=
  List.filterMap_append

@[simp] theorem sleeps_exchange (req : HttpRequest) (r : Result HttpResponse) :
    sleeps [.exchange req r] = [] := rfl

namespace Client

theorem sleeps_retriesLogged (request : Nat → Result HttpResponse) (req : HttpRequest)
    (t attempt n : Nat) : sleeps (retriesLogged request req t attempt n) =
      (List.range n).map fun i => retryDelay (attempt + i) (request (t + i)) := by
  induction n generalizing t attempt with
  | zero => rfl
  | succ n ih =>
    rw [retriesLogged_succ, sleeps_append, ih, List.range_succ_eq_map, List.map_cons,
      List.map_map]
    simp only [sleeps, List.filterMap_cons, List.filterMap_nil, List.cons_append,
      List.nil_append, Nat.add_zero, Function.comp_def, Nat.succ_eq_add_one, Nat.add_assoc,
      Nat.add_comm 1]

/-- The attempts made, the result returned and the pauses, for any answers of the transport;
and the header values that the pauses can come from. -/
theorem requestWithRetry_exact :
    (∀ (E : Env) (method url : Bytes) (headers : List (Bytes × Bytes)) (body : Bytes) (w : World),
      ∃ n, 1 ≤ n ∧ n ≤ 3 ∧
        (∀ i, 1 ≤ i → i < n → definitive (E.request (w.ticks.request + (i - 1))) = false) ∧
        (definitive (E.request (w.ticks.request + (n - 1))) = true ∨ n = 3) ∧
        ((requestWithRetry E method url headers body).run w).1 =
          E.request (w.ticks.request + (n - 1)) ∧
        ∃ events, ((requestWithRetry E method url headers body).run w).2 =
            { w with ticks.request := w.ticks.request + n, log := w.log ++ events } ∧
          events = retriesLogged E.request ⟨method, url, headers, body⟩ w.ticks.request 1 (n - 1) ++
            [.exchange ⟨method, url, headers, body⟩ (E.request (w.ticks.request + (n - 1)))] ∧
          sleeps events = (List.range (n - 1)).map
            fun i => retryDelay (1 + i) (E.request (w.ticks.request + i))) ∧
    (∀ attempt r, retryDelay attempt r ≤ 3600000) ∧
    ∀ value secs, parseRetryAfter value = some secs ↔
      DelaySeconds value secs ∧ secs ≤ 2 ^ 64 - 1 := by
  refine ⟨?_, retryDelay_le, parseRetryAfter_iff⟩
  intro E method url headers body w
  obtain ⟨n, hn, hretried, hstop, hresult, hworld⟩ := requestLoop_attempts E
    ⟨method, url, headers, body⟩ 2 1 (.error ⟨.network, ascii "no attempt made"⟩) w
    (Nat.le_refl 1) rfl
  refine ⟨n + 1, Nat.succ_pos n, Nat.succ_le_succ hn, ?_, ?_, hresult, _, ?_, rfl, ?_⟩
  · intro i hi hin
    exact hretried (i - 1) (by omega)
  · obtain hdef | rfl := hstop
    · exact .inl hdef
    · exact .inr rfl
  · rw [← List.append_assoc]
    exact hworld
  · rw [Nat.add_sub_cancel, sleeps_append, sleeps_retriesLogged, sleeps_exchange,
      List.append_nil]

end Client
end Keylight
