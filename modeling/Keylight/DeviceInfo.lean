import Mathlib.Data.List.DropRight
import Keylight.Bytes
import Keylight.Utf8

/-!
# Device telemetry

The two pure normalisers of what the machine reports: the version number inside
an operating system's description, and the name an activation is shown under.
-/
namespace Keylight
open Bytes JsonGrammar

/-- `OS_VERSION_MAX` -/
def osVersionMax : Nat := 32

/-- The loop over the components, on the text that is left. -/
def componentsFilled (v : Bytes) : Bool :=
  if v.takeWhile (· ≠ 46) = [] then false
  else
    match _hdrop : v.dropWhile (· ≠ 46) with
    | [] => true
    | _ :: rest => componentsFilled rest
termination_by v.length
decreasing_by
  have hsuffix := (List.dropWhile_suffix (l := v) (· ≠ 46)).length_le
  rw [_hdrop, List.length_cons] at hsuffix
  exact hsuffix

def inVersion (c : UInt8) : Bool := isDigit c || c = 46

def dottedNumeric (raw : Bytes) : Bytes :=
  let fromDigit := raw.dropWhile fun c => !isDigit c
  if fromDigit = [] then []
  else
    let v := (fromDigit.takeWhile inVersion).rdropWhile (· = 46)
    if v = [] ∨ osVersionMax < v.length then []
    else if componentsFilled v then v else []

/-- digits(.digits)* -/
inductive Dotted : Bytes → Prop
  | digits {ds : Bytes} : ds ≠ [] → (∀ c ∈ ds, isDigit c) → Dotted ds
  | dot {ds rest : Bytes} : ds ≠ [] → (∀ c ∈ ds, isDigit c) → Dotted rest →
      Dotted (ds ++ 46 :: rest)

/-- `v` is the maximal run of digits and dots from the first digit of `s` on, without the dots
that end it. -/
structure VersionRun (s v : Bytes) : Prop where
  run : ∃ before dots after, s = before ++ (v ++ dots) ++ after ∧
    (∀ c ∈ before, isDigit c = false) ∧ (∀ c ∈ dots, c = 46) ∧
    ∀ c, after.head? = some c → inVersion c = false
  first : ∃ d rest, v = d :: rest ∧ isDigit d
  chars : ∀ c ∈ v, inVersion c
  last : v.getLast? ≠ some 46

theorem ne_dot_of_isDigit {c : UInt8} (h : isDigit c) : c ≠ 46 := by
  rintro rfl
  cases h

theorem no_dot {ds : Bytes} (hds : ∀ c ∈ ds, isDigit c) : ∀ c ∈ ds, decide (c ≠ 46) = true := by
  intro c hc
  exact decide_eq_true (ne_dot_of_isDigit (hds c hc))

theorem isDigit_of_no_dot {c : UInt8} (h : inVersion c) (hc : decide (c ≠ 46) = true) :
    isDigit c := by
  simpa [inVersion, of_decide_eq_true hc] using h

namespace Dotted

theorem chars {v : Bytes} (h : Dotted v) : ∀ c ∈ v, inVersion c := by
  induction h with
  | digits _ hds =>
    intro c hc
    simp [inVersion, hds c hc]
  | dot _ hds _ ih =>
    intro c hc
    rw [List.mem_append, List.mem_cons] at hc
    obtain hc | rfl | hc := hc
    · simp [inVersion, hds c hc]
    · rfl
    · exact ih c hc

theorem first {v : Bytes} (h : Dotted v) : ∃ d rest, v = d :: rest ∧ isDigit d := by
  cases h with
  | digits hne hds =>
    obtain ⟨d, rest, rfl⟩ := List.exists_cons_of_ne_nil hne
    exact ⟨d, rest, rfl, hds d (.head _)⟩
  | dot hne hds _ =>
    obtain ⟨d, rest, rfl⟩ := List.exists_cons_of_ne_nil hne
    exact ⟨d, _, rfl, hds d (.head _)⟩

theorem last {v : Bytes} (h : Dotted v) : v.getLast? ≠ some 46 := by
  induction h with
  | digits _ hds =>
    intro hlast
    exact ne_dot_of_isDigit (hds 46 (List.mem_of_getLast? hlast)) rfl
  | @dot ds rest _ _ hrest ih =>
    obtain ⟨d, tail, rfl, -⟩ := hrest.first
    rw [List.getLast?_append_cons, List.getLast?_cons_cons]
    exact ih

/-- Such a text is its own run. -/
theorem run {v : Bytes} (h : Dotted v) : VersionRun v v :=
  ⟨⟨[], [], [], by simp, by simp, by simp, by simp⟩, h.first, h.chars, h.last⟩

end Dotted

theorem takeWhile_component {ds : Bytes} (hds : ∀ c ∈ ds, isDigit c) (rest : Bytes) :
    (ds ++ 46 :: rest).takeWhile (· ≠ 46) = ds ∧
      (ds ++ 46 :: rest).dropWhile (· ≠ 46) = 46 :: rest := by
  rw [List.takeWhile_append_of_pos (no_dot hds), List.dropWhile_append_of_pos (no_dot hds)]
  simp

/-- The loop accepts what has no empty component. -/
theorem componentsFilled_iff {v : Bytes} (hv : ∀ c ∈ v, inVersion c) :
    componentsFilled v ↔ Dotted v := by
  constructor
  · intro h
    induction v using componentsFilled.induct with
    | case1 v hnone =>
      rw [componentsFilled, if_pos hnone] at h
      cases h
    | case2 v hsome hend =>
      have hall : v.takeWhile (· ≠ 46) = v := by
        have hsplit := List.takeWhile_append_dropWhile (p := (· ≠ (46 : UInt8))) (l := v)
        rwa [hend, List.append_nil] at hsplit
      rw [hall] at hsome
      refine .digits hsome ?_
      intro c hc
      rw [← hall] at hc
      have hnodot : decide (c ≠ 46) = true := List.mem_takeWhile_imp (p := (· ≠ (46 : UInt8))) hc
      exact isDigit_of_no_dot (hv c (List.takeWhile_subset _ hc)) hnodot
    | case3 v hsome c rest hdot ih =>
      have hsplit := List.takeWhile_append_dropWhile (p := (· ≠ (46 : UInt8))) (l := v)
      have hc : c = 46 := by
        have hhead := List.head?_dropWhile_not (· ≠ (46 : UInt8)) v
        rw [hdot] at hhead
        simpa using hhead
      subst hc
      rw [hdot] at hsplit
      rw [componentsFilled, if_neg hsome] at h
      split at h
      · next hend =>
        rw [hdot] at hend
        cases hend
      · next _ rest' hdot' =>
        rw [hdot] at hdot'
        obtain ⟨-, rfl⟩ := List.cons.inj hdot'
        rw [← hsplit] at hv ⊢
        refine .dot hsome ?_ (ih ?_ h)
        · intro d hd
          have hnodot : decide (d ≠ 46) = true :=
            List.mem_takeWhile_imp (p := (· ≠ (46 : UInt8))) hd
          exact isDigit_of_no_dot (hv d (List.mem_append_left _ hd)) hnodot
        · intro d hd
          exact hv d (List.mem_append_right _ (.tail _ hd))
  · intro h
    induction h with
    | @digits ds hne hds =>
      rw [componentsFilled, List.takeWhile_eq_self_iff.mpr (no_dot hds), if_neg hne]
      split
      · rfl
      · next c rest hdrop =>
        rw [List.dropWhile_eq_nil_iff.mpr (no_dot hds)] at hdrop
        cases hdrop
    | @dot ds rest hne hds hrest ih =>
      obtain ⟨htake, hdrop⟩ := takeWhile_component hds rest
      rw [componentsFilled, htake, if_neg hne]
      split
      · rfl
      · next c rest' hcons =>
        rw [hdrop] at hcons
        obtain ⟨-, rfl⟩ := List.cons.inj hcons
        exact ih fun c hc => hv c (List.mem_append_right _ (.tail _ hc))

/-- The run is what the scan finds. -/
theorem VersionRun.scan {s v : Bytes} (h : VersionRun s v) :
    ∃ d rest, (s.dropWhile fun c => !isDigit c) = d :: rest ∧
      ((d :: rest).takeWhile inVersion).rdropWhile (· = 46) = v := by
  obtain ⟨⟨before, dots, after, rfl, hbefore, hdots, hafter⟩, ⟨d, rest, rfl, hd⟩, hchars,
    hlast⟩ := h
  have hskip : ∀ c ∈ before, (!isDigit c) = true := by
    intro c hc
    rw [hbefore c hc]
    rfl
  have hrun : ∀ c ∈ d :: rest ++ dots, inVersion c := by
    intro c hc
    obtain hc | hc := List.mem_append.mp hc
    · exact hchars c hc
    · rw [hdots c hc]
      rfl
  have hstop : after.takeWhile inVersion = [] := by
    cases after with
    | nil => rfl
    | cons c after => rw [List.takeWhile_cons_of_neg (by simp [hafter c rfl])]
  refine ⟨d, rest ++ dots ++ after, ?_, ?_⟩
  · rw [List.append_assoc, List.dropWhile_append_of_pos hskip, List.cons_append, List.cons_append,
      List.dropWhile_cons_of_neg (by simp [hd])]
  · rw [← List.cons_append, ← List.cons_append, List.takeWhile_append_of_pos hrun, hstop,
      List.append_nil, List.rdropWhile, List.reverse_append, List.dropWhile_append_of_pos]
    · change List.rdropWhile _ (d :: rest) = d :: rest
      rw [List.rdropWhile_eq_self_iff]
      intro hne hdot
      apply hlast
      rw [List.getLast?_eq_getLast_of_ne_nil hne, of_decide_eq_true hdot]
    · intro c hc
      exact decide_eq_true (hdots c (List.mem_reverse.mp hc))

/-- A text with a digit has a run. -/
theorem VersionRun.exists {s : Bytes} (h : ∃ c ∈ s, isDigit c) : ∃ v, VersionRun s v := by
  have hne : (s.dropWhile fun c => !isDigit c) ≠ [] := by
    intro hnil
    obtain ⟨c, hc, hdigit⟩ := h
    have hnot := List.dropWhile_eq_nil_iff.mp hnil c hc
    rw [hdigit] at hnot
    cases hnot
  obtain ⟨d, rest, hdrop⟩ := List.exists_cons_of_ne_nil hne
  have hd : isDigit d := by
    have hhead := List.head?_dropWhile_not (fun c => !isDigit c) s
    rw [hdrop] at hhead
    simpa using hhead
  have hin : inVersion d := by
    rw [inVersion, hd]
    rfl
  let run := (d :: rest).takeWhile inVersion
  have hsplit : run.rdropWhile (· = 46) ++ run.rtakeWhile (· = 46) = run :=
    List.rdropWhile_append_rtakeWhile
  refine ⟨run.rdropWhile (· = 46), ⟨?_, ?_, ?_, ?_⟩⟩
  · refine ⟨s.takeWhile fun c => !isDigit c, run.rtakeWhile (· = 46),
      (d :: rest).dropWhile inVersion, ?_, ?_, ?_, ?_⟩
    · rw [hsplit, List.append_assoc, List.takeWhile_append_dropWhile, ← hdrop,
        List.takeWhile_append_dropWhile]
    · intro c hc
      simpa using List.mem_takeWhile_imp (p := fun c => !isDigit c) hc
    · intro c hc
      exact of_decide_eq_true (List.mem_rtakeWhile_imp (p := (· = (46 : UInt8))) hc)
    · intro c hc
      have hhead := List.head?_dropWhile_not inVersion (d :: rest)
      rw [hc] at hhead
      exact hhead
  · -- the digit is not among the dots at the end
    have hrun : run = d :: rest.takeWhile inVersion := List.takeWhile_cons_of_pos hin
    cases hv : run.rdropWhile (· = 46) with
    | nil =>
      have hdot := List.rdropWhile_eq_nil_iff.mp hv d (by rw [hrun]; exact .head _)
      exact absurd (of_decide_eq_true hdot) (ne_dot_of_isDigit hd)
    | cons e tail =>
      rw [hv, hrun] at hsplit
      rw [(List.cons.inj hsplit).1]
      exact ⟨d, tail, rfl, hd⟩
  · intro c hc
    exact List.mem_takeWhile_imp ((List.rdropWhile_prefix _ _).subset hc)
  · intro hlast
    have hne' : run.rdropWhile (· = 46) ≠ [] := by
      intro hnil
      rw [hnil] at hlast
      cases hlast
    apply List.rdropWhile_last_not _ _ hne'
    rw [List.getLast?_eq_getLast_of_ne_nil hne'] at hlast
    exact decide_eq_true (Option.some.inj hlast)

/-- A version run is kept when it is dotted and short enough, and dropped otherwise. -/
theorem dottedNumeric_run {s v : Bytes} (h : VersionRun s v) :
    (Dotted v ∧ v.length ≤ osVersionMax → dottedNumeric s = v) ∧
      (¬(Dotted v ∧ v.length ≤ osVersionMax) → dottedNumeric s = []) := by
  obtain ⟨d, rest, hdrop, hv⟩ := h.scan
  obtain ⟨e, tail, hcons, -⟩ := h.first
  have hne : v ≠ [] := by
    rw [hcons]
    exact List.cons_ne_nil e tail
  simp only [dottedNumeric, hdrop, hv, if_neg (List.cons_ne_nil d rest), hne, false_or]
  constructor
  · rintro ⟨hdotted, hmax⟩
    rw [if_neg (Nat.not_lt.mpr hmax), if_pos ((componentsFilled_iff h.chars).mpr hdotted)]
  · intro hbad
    split
    · rfl
    · next hmax =>
      rw [if_neg]
      intro hfilled
      exact hbad ⟨(componentsFilled_iff h.chars).mp hfilled, Nat.not_lt.mp hmax⟩

theorem dottedNumeric_no_digit {s : Bytes} (h : ∀ c ∈ s, isDigit c = false) :
    dottedNumeric s = [] := by
  have hdrop : (s.dropWhile fun c => !isDigit c) = [] := by
    rw [List.dropWhile_eq_nil_iff]
    intro c hc
    rw [h c hc]
    rfl
  simp only [dottedNumeric, hdrop, if_true]

/-- What is sent is empty or a short dotted version. -/
theorem dottedNumeric_form (s : Bytes) : dottedNumeric s = [] ∨
    Dotted (dottedNumeric s) ∧ (dottedNumeric s).length ≤ osVersionMax := by
  simp only [dottedNumeric]
  split
  · exact .inl rfl
  · split
    · exact .inl rfl
    · next hmax =>
      split
      · next hfilled =>
        refine .inr ⟨(componentsFilled_iff ?_).mp hfilled, ?_⟩
        · intro c hc
          exact List.mem_takeWhile_imp ((List.rdropWhile_prefix _ _).subset hc)
        · exact Nat.not_lt.mp fun hlong => hmax (.inr hlong)
      · exact .inl rfl

/-- The version a description holds: the first run of digits and dots if that is well formed and
short enough, nothing otherwise, and a version is read back as itself. -/
theorem dottedNumeric_exact (s : Bytes) :
    (dottedNumeric s = [] ∨ Dotted (dottedNumeric s) ∧ (dottedNumeric s).length ≤ 32) ∧
    ((∀ c ∈ s, isDigit c = false) → dottedNumeric s = []) ∧
    ((∃ c ∈ s, isDigit c) → ∃ v, VersionRun s v) ∧
    (∀ v, VersionRun s v → (Dotted v ∧ v.length ≤ 32 → dottedNumeric s = v) ∧
      (¬(Dotted v ∧ v.length ≤ 32) → dottedNumeric s = [])) ∧
    dottedNumeric (dottedNumeric s) = dottedNumeric s := by
  refine ⟨dottedNumeric_form s, dottedNumeric_no_digit, VersionRun.exists,
    fun v => dottedNumeric_run, ?_⟩
  obtain hnone | hform := dottedNumeric_form s
  · rw [hnone]
    rfl
  · exact (dottedNumeric_run hform.1.run).1 hform

/-- `INSTANCE_NAME_MAX` -/
def instanceNameMax : Nat := 64

def printable (u : UInt8) : Bool := 0x20 ≤ u && u ≠ 0x7f

/-- Back from `cut` to a byte that continues no character. -/
def charBoundary (out : Bytes) : Nat → Nat
  | 0 => 0
  | cut + 1 => if isContinuation (out.getD (cut + 1) 0) then charBoundary out cut else cut + 1

/-- The name before the cap. -/
def cleanedName (s : Bytes) : Bytes := (s.filter printable).rdropWhile (· = 32)

def sanitizeInstanceName (s : Bytes) : Bytes :=
  let out := cleanedName s
  if instanceNameMax < out.length then out.take (charBoundary out instanceNameMax) else out

theorem charBoundary_le (out : Bytes) (cut : Nat) : charBoundary out cut ≤ cut := by
  induction cut with
  | zero => exact Nat.le_refl 0
  | succ cut ih =>
    rw [charBoundary]
    split
    · exact Nat.le_succ_of_le ih
    · exact Nat.le_refl _

theorem charBoundary_stop (out : Bytes) (cut : Nat) :
    charBoundary out cut = 0 ∨ isContinuation (out.getD (charBoundary out cut) 0) = false := by
  induction cut with
  | zero => exact .inl rfl
  | succ cut ih =>
    rw [charBoundary]
    split
    · exact ih
    · next hstop => exact .inr (Bool.eq_false_iff.mpr hstop)

theorem charBoundary_passed (out : Bytes) {cut j : Nat} (hlow : charBoundary out cut < j)
    (hhigh : j ≤ cut) : isContinuation (out.getD j 0) := by
  induction cut with
  | zero => omega
  | succ cut ih =>
    rw [charBoundary] at hlow
    split at hlow
    · next hcont =>
      obtain rfl | hj := Nat.eq_or_lt_of_le hhigh
      · exact hcont
      · exact ih hlow (Nat.le_of_lt_succ hj)
    · omega

/-- The boundary is the last position that is one. -/
theorem charBoundary_eq {out : Bytes} {cut k : Nat} (hk : k ≤ cut) (hpos : 0 < k)
    (hstop : isContinuation (out.getD k 0) = false)
    (hpassed : ∀ j, k < j → j ≤ cut → isContinuation (out.getD j 0)) :
    charBoundary out cut = k := by
  apply Nat.le_antisymm
  · apply Nat.le_of_not_lt
    intro hlt
    have hcont := hpassed _ hlt (charBoundary_le out cut)
    obtain hzero | hno := charBoundary_stop out cut
    · omega
    · rw [hno] at hcont
      cases hcont
  · apply Nat.le_of_not_lt
    intro hlt
    rw [charBoundary_passed out hlt hk] at hstop
    cases hstop

/-- `out` is the longest beginning of `t` that ends between characters and fits. -/
structure LongestWhole (t : Bytes) (max : Nat) (out : Bytes) : Prop where
  initial : out <+: t
  whole : IsUtf8 out
  fits : out.length ≤ max
  longest : ∀ p, p <+: t → IsUtf8 p → p.length ≤ max → p.length ≤ out.length

/-- A text can be cut at a position exactly when the byte there continues no character. -/
theorem isUtf8_take {t : Bytes} (h : IsUtf8 t) {k : Nat} (hk : k < t.length) :
    IsUtf8 (t.take k) ↔ isContinuation (t.getD k 0) = false := by
  have hsplit : t = t.take k ++ t[k] :: t.drop (k + 1) := by
    rw [← List.drop_eq_getElem_cons hk, List.take_append_drop]
  rw [hsplit] at h
  rw [h.take_iff, List.getD_eq_getElem?_getD, List.getElem?_eq_getElem hk, Option.getD_some]

/-- The cap keeps the longest prefix of whole characters. -/
theorem capped_longest {t : Bytes} (h : IsUtf8 t) :
    LongestWhole t instanceNameMax
      (if instanceNameMax < t.length then t.take (charBoundary t instanceNameMax) else t) := by
  by_cases hlong : instanceNameMax < t.length
  · rw [if_pos hlong]
    have hle := charBoundary_le t instanceNameMax
    have hlen : (t.take (charBoundary t instanceNameMax)).length =
        charBoundary t instanceNameMax := by
      rw [List.length_take]
      omega
    refine ⟨List.take_prefix _ _, ?_, by omega, ?_⟩
    · obtain hzero | hstop := charBoundary_stop t instanceNameMax
      · rw [hzero]
        exact .nil
      · exact (isUtf8_take h (by omega)).mpr hstop
    · intro p hp hwhole hfits
      rw [hlen]
      apply Nat.le_of_not_lt
      intro hlt
      rw [List.prefix_iff_eq_take.mp hp] at hwhole
      have hno := (isUtf8_take h (by omega)).mp hwhole
      rw [charBoundary_passed t hlt hfits] at hno
      cases hno
  · rw [if_neg hlong]
    exact ⟨List.prefix_refl t, h, Nat.not_lt.mp hlong, fun p hp _ _ => hp.length_le⟩

theorem printable_of_high (b : UInt8) (hb : 0x80 ≤ b.toNat) : printable b := by
  simp only [printable, Bool.and_eq_true, decide_eq_true_eq, UInt8.le_iff_toNat_le, Ne,
    UInt8.ext_iff]
  have h32 : (0x20 : UInt8).toNat = 32 := rfl
  have h127 : (0x7f : UInt8).toNat = 127 := rfl
  omega

/-- Cleaning a name leaves its characters whole. -/
theorem isUtf8_cleanedName {s : Bytes} (h : IsUtf8 s) : IsUtf8 (cleanedName s) := by
  have hfiltered := h.filter printable_of_high
  rw [← List.rdropWhile_append_rtakeWhile (p := (· = (32 : UInt8))) (l := s.filter printable)]
    at hfiltered
  cases htrail : (s.filter printable).rtakeWhile (· = 32) with
  | nil =>
    rw [htrail, List.append_nil] at hfiltered
    exact hfiltered
  | cons c trail =>
    have hc : c = 32 := by
      have hmem : c ∈ (s.filter printable).rtakeWhile (· = 32) := by
        rw [htrail]
        exact .head _
      exact of_decide_eq_true (List.mem_rtakeWhile_imp (p := (· = (32 : UInt8))) hmem)
    rw [htrail, hc] at hfiltered
    exact (hfiltered.cut (by decide)).1

theorem sanitizeInstanceName_initial (s : Bytes) : sanitizeInstanceName s <+: cleanedName s := by
  simp only [sanitizeInstanceName]
  split
  · exact List.take_prefix _ _
  · exact List.prefix_refl _

theorem sanitizeInstanceName_printable {s : Bytes} {c : UInt8}
    (hc : c ∈ sanitizeInstanceName s) : printable c := by
  have hcleaned := (sanitizeInstanceName_initial s).subset hc
  exact List.of_mem_filter ((List.rdropWhile_prefix _ _).subset hcleaned)

/-- A name that is UTF-8 stays UTF-8: the longest whole-character beginning that fits. -/
theorem sanitizeInstanceName_utf8 (s : Bytes) (h : IsUtf8 s) :
    IsUtf8 (sanitizeInstanceName s) ∧ (sanitizeInstanceName s).length ≤ 64 ∧
      (∀ c ∈ sanitizeInstanceName s, 0x20 ≤ c ∧ c ≠ 0x7f) ∧
      LongestWhole ((s.filter fun c => 0x20 ≤ c && c ≠ 0x7f).rdropWhile (· = 32)) 64
        (sanitizeInstanceName s) := by
  have hlongest := capped_longest (isUtf8_cleanedName h)
  refine ⟨hlongest.whole, hlongest.fits, ?_, hlongest⟩
  intro c hc
  have hprintable := sanitizeInstanceName_printable hc
  simp only [printable, Bool.and_eq_true, decide_eq_true_eq] at hprintable
  exact hprintable

/-- 21 characters of three bytes and one of two bytes across the cap. -/
def longName : List Char := List.replicate 21 '日' ++ ['é']

theorem sanitizeInstanceName_longName :
    IsUtf8 (sanitizeInstanceName (utf8 longName)) ∧
      (sanitizeInstanceName (utf8 longName)).length ≤ 64 ∧
      (∀ c ∈ sanitizeInstanceName (utf8 longName), 0x20 ≤ c ∧ c ≠ 0x7f) ∧
      LongestWhole (((utf8 longName).filter fun c => 0x20 ≤ c && c ≠ 0x7f).rdropWhile (· = 32)) 64
        (sanitizeInstanceName (utf8 longName)) :=
  sanitizeInstanceName_utf8 (utf8 longName) ⟨longName, rfl⟩

/-- The cap falls between a space and the character after it. -/
def SpaceAtCap (t : Bytes) : Prop :=
  instanceNameMax < t.length ∧ ∃ k < instanceNameMax, t[k]? = some 32 ∧
    isContinuation (t.getD (k + 1) 0) = false ∧
    ∀ j, k + 1 < j → j ≤ instanceNameMax → isContinuation (t.getD j 0)

theorem cleanedName_last (s : Bytes) : (cleanedName s).getLast? ≠ some 32 := by
  intro hlast
  have hne : cleanedName s ≠ [] := by
    intro hnil
    rw [hnil] at hlast
    cases hlast
  apply List.rdropWhile_last_not _ _ hne
  rw [List.getLast?_eq_getLast_of_ne_nil hne] at hlast
  exact decide_eq_true (Option.some.inj hlast)

/-- The name ends in a space exactly when the cap falls behind one. -/
theorem sanitizeInstanceName_last (s : Bytes) :
    (sanitizeInstanceName s).getLast? = some 32 ↔ SpaceAtCap (cleanedName s) := by
  by_cases hlong : instanceNameMax < (cleanedName s).length
  · simp only [sanitizeInstanceName, if_pos hlong]
    have hle := charBoundary_le (cleanedName s) instanceNameMax
    constructor
    · intro hlast
      obtain hzero | hstop := charBoundary_stop (cleanedName s) instanceNameMax
      · rw [hzero] at hlast
        cases hlast
      · cases hcut : charBoundary (cleanedName s) instanceNameMax with
        | zero =>
          rw [hcut] at hlast
          cases hlast
        | succ k =>
          rw [hcut] at hlast hstop hle
          refine ⟨hlong, k, hle, ?_, hstop, ?_⟩
          · rw [List.getLast?_eq_getElem?, List.length_take, Nat.min_eq_left (by omega),
              Nat.add_sub_cancel, List.getElem?_take_of_lt (Nat.lt_succ_self k)] at hlast
            exact hlast
          · intro j hj hmax
            exact charBoundary_passed (cleanedName s) (by omega) hmax
    · rintro ⟨-, k, hk, hspace, hstop, hpassed⟩
      rw [charBoundary_eq hk (Nat.succ_pos k) hstop hpassed, List.getLast?_eq_getElem?,
        List.length_take, Nat.min_eq_left (by omega), Nat.succ_sub_one,
        List.getElem?_take_of_lt (Nat.lt_succ_self k)]
      exact hspace
  · simp only [sanitizeInstanceName, if_neg hlong]
    constructor
    · intro hlast
      exact absurd hlast (cleanedName_last s)
    · rintro ⟨hlong', -⟩
      exact absurd hlong' hlong

theorem sanitizeInstanceName_length (s : Bytes) :
    (sanitizeInstanceName s).length ≤ instanceNameMax := by
  simp only [sanitizeInstanceName]
  split
  · exact (List.length_take_le _ _).trans (charBoundary_le _ _)
  · next hshort => exact Nat.not_lt.mp hshort

/-- A name that does not end in a space is its own normal form. -/
theorem sanitizeInstanceName_idem {s : Bytes}
    (h : (sanitizeInstanceName s).getLast? ≠ some 32) :
    sanitizeInstanceName (sanitizeInstanceName s) = sanitizeInstanceName s := by
  have hkeep : (sanitizeInstanceName s).filter printable = sanitizeInstanceName s :=
    List.filter_eq_self.mpr fun c hc => sanitizeInstanceName_printable hc
  have hcleaned : cleanedName (sanitizeInstanceName s) = sanitizeInstanceName s := by
    rw [cleanedName, hkeep, List.rdropWhile_eq_self_iff]
    intro hne hspace
    apply h
    rw [List.getLast?_eq_getLast_of_ne_nil hne, of_decide_eq_true hspace]
  rw [sanitizeInstanceName, hcleaned, if_neg (Nat.not_lt.mpr (sanitizeInstanceName_length s))]

/-- The normal form fails exactly where the cap leaves a space at the end. -/
theorem sanitizeInstanceName_normal_iff (s : Bytes) :
    ((sanitizeInstanceName s).getLast? ≠ some 32 ∧
      sanitizeInstanceName (sanitizeInstanceName s) = sanitizeInstanceName s) ↔
    ¬SpaceAtCap ((s.filter fun c => 0x20 ≤ c && c ≠ 0x7f).rdropWhile (· = 32)) := by
  constructor
  · rintro ⟨hlast, -⟩ hspace
    exact hlast ((sanitizeInstanceName_last s).mpr hspace)
  · intro hspace
    have hlast : (sanitizeInstanceName s).getLast? ≠ some 32 := by
      intro hlast
      exact hspace ((sanitizeInstanceName_last s).mp hlast)
    exact ⟨hlast, sanitizeInstanceName_idem hlast⟩

/-- 63 letters, a space and one more letter. -/
theorem sanitizeInstanceName_not_normal :
    ¬∀ s : Bytes, (sanitizeInstanceName s).getLast? ≠ some 32 ∧
      sanitizeInstanceName (sanitizeInstanceName s) = sanitizeInstanceName s := by
  intro h
  exact (h (List.replicate 63 97 ++ [32, 98])).1 (by decide +kernel)

end Keylight
