import Keylight.CrashPoints
import Keylight.StoreRegister

/-!
# The migration across crashes

The import writes the sealed copy beside the target, gives it the target's name,
and then unlinks the plaintext file. `Survives` holds at every point of a load:
the plaintext is still there, or the target is a complete copy of it.
-/
namespace Keylight
open Bytes Sections ChaCha20 Register Runs

namespace Fs
variable {P : (Bytes → Option Bytes) → Prop} {v : Volume}

/-- `P` holds of the files at every point. -/
abbrev Always (P : (Bytes → Option Bytes) → Prop) (p : Fs α) (v : Volume) : Prop :=
  Throughout (fun v => P v.files) p.run v

theorem always_call
    {f : Nat → (Bytes → Option Bytes) → Except Bytes α × (Bytes → Option Bytes)} (h : P v.files)
    (h' : P (f v.calls v.files).2) : Always P (call f) v :=
  Throughout.atom h h'

/-- A call that leaves the files alone. -/
theorem always_query
    {f : Nat → (Bytes → Option Bytes) → Except Bytes α × (Bytes → Option Bytes)}
    (hf : (f v.calls v.files).2 = v.files) (h : P v.files) : Always P (call f) v := by
  apply always_call h
  rw [hf]
  exact h

theorem always_bind {p : Fs α} {k : α → Fs β} (hp : Always P p v)
    (hk : ∀ a w, exec p v = (.ok a, w) → P w.files → Always P (k a) w) :
    Always P (p >>= k) v := by
  rw [Always, ExceptT.run_bind]
  apply hp.bind
  have hend := hp.finish
  cases hx : (p.run.run v).1 with
  | error what => exact hend
  | ok a => exact hk a _ (Prod.ext hx rfl) hend

theorem always_map {p : Fs α} (f : α → β) (hp : Always P p v) : Always P (f <$> p) v := by
  rw [Always, ExceptT.run_map]
  exact hp.map _

theorem always_exists (os : Os) (path : Bytes) (h : P v.files) : Always P (exists_ os path) v := by
  apply always_query _ h
  split <;> rfl

theorem always_readFile (os : Os) (path : Bytes) (h : P v.files) :
    Always P (readFile os path) v := always_query rfl h

end Fs

theorem throughout_catching {I : Volume → Prop} {v : Volume} {body : Fs (Result α)}
    (handler : Bytes → Result α) (h : Throughout I body.run v) :
    Throughout I (catching body handler) v := by
  apply h.bind
  have hend := h.finish
  cases (body.run.run v).1 with
  | error what => exact hend
  | ok r => exact hend

section
variable {os : Os} {store path blob : Bytes} {P : (Bytes → Option Bytes) → Prop}

/-- The replacement of a file keeps what every write beside the target keeps, and what the
finished file under the target's name keeps. -/
theorem always_writeFile (hflush : ∀ n, os.flushes n = true)
    (hbeside : ∀ files c, P files → P (put files (tmpPath path) c))
    (hdone : ∀ files, P files → P (put (put files path (some blob)) (tmpPath path) none))
    {v : Volume} (h : P v.files) : Fs.Always P (writeFile os store path blob) v := by
  apply Fs.always_bind
  · apply Fs.always_call h
    dsimp only
    split
    · exact hbeside _ _ h
    · exact h
  · intro created w _ hw
    cases created with
    | false => exact hw
    | true =>
      apply Fs.always_bind
      · exact Fs.always_call hw (hbeside _ _ hw)
      · intro written w₁ _ hw₁
        apply Fs.always_bind
        · exact Fs.always_call hw₁ (hbeside _ _ hw₁)
        · intro _ w₂ hclosed hw₂
          cases written with
          | false => exact hw₂
          | true =>
            apply Fs.always_map
            apply Fs.always_call hw₂
            -- the file that takes the target's name is the one just closed
            have hblob : w₂.files (tmpPath path) = some blob := by
              rw [Fs.close, Fs.exec_call] at hclosed
              obtain rfl := (Prod.ext_iff.mp hclosed).2
              simp [hflush]
            split
            · exact hw₂
            · rw [hblob]
              exact hdone _ hw₂

/-- A replacement keeps `P` at every crash point when the new content does. -/
theorem always_replaceFile {makeBlob : Fs Bytes} {B : Bytes → Prop}
    (hmake : ∀ v, P v.files → Fs.Always P makeBlob v)
    (hblob : ∀ v b w, Fs.exec makeBlob v = (.ok b, w) → B b) (hflush : ∀ n, os.flushes n = true)
    (hbeside : ∀ files c, P files → P (put files (tmpPath path) c))
    (hdone : ∀ b, B b → ∀ files, P files →
      P (put (put files path (some b)) (tmpPath path) none))
    {v : Volume} (h : P v.files) : Fs.Always P (replaceFile os store path makeBlob) v := by
  have hrest : ∀ u : Volume, P u.files → Fs.Always P (makeBlob >>= writeFile os store path) u := by
    intro u hu
    apply Fs.always_bind (hmake u hu)
    intro b w hb hw
    exact always_writeFile hflush hbeside (hdone b (hblob u b w hb)) hw
  rw [replaceFile]
  split
  · apply Fs.always_bind
    · apply Fs.always_query _ h
      split <;> rfl
    · intro _ w _ hw
      exact hrest w hw
  · exact hrest v h

end

namespace EncryptedFileStore
variable (s : EncryptedFileStore)

/-- A complete encrypted copy is in place. -/
def Sealed (content : Bytes) (files : Bytes → Option Bytes) : Prop :=
  ∃ nonce, files s.path = some (sealedImage s.key nonce content)

def Survives (content : Bytes) (files : Bytes → Option Bytes) : Prop :=
  (files s.path = none ∧ files s.legacyPath = some content) ∨ s.Sealed content files

variable {s} {os : Os} {content : Bytes} {files : Bytes → Option Bytes}

theorem Survives.beside (ht : s.legacyPath ≠ tmpPath s.path) (h : s.Survives content files)
    (c : Option Bytes) : s.Survives content (put files (tmpPath s.path) c) := by
  obtain ⟨hpath, hlegacy⟩ | ⟨nonce, hpath⟩ := h
  · left
    rw [put_other files c (tmpPath_ne s.path).symm, put_other files c ht]
    exact ⟨hpath, hlegacy⟩
  · right
    refine ⟨nonce, ?_⟩
    rw [put_other files c (tmpPath_ne s.path).symm, hpath]

theorem sealed_renamed (nonce : Nonce) :
    s.Sealed content
      (put (put files s.path (some (sealedImage s.key nonce content))) (tmpPath s.path) none) := by
  refine ⟨nonce, ?_⟩
  rw [put_other _ none (tmpPath_ne s.path).symm, put_self]

/-- What the next load answers. -/
theorem Survives.contents (hl : s.legacyPath ≠ []) (h : s.Survives content files) :
    s.contents files = content := by
  obtain ⟨hpath, hlegacy⟩ | ⟨nonce, hpath⟩ := h
  · rw [contents_absent hpath, importable, hpath, hlegacy, if_neg (by simp [hl])]
    rfl
  · rw [contents_present hpath, openImage_sealedImage]

/-- The plaintext to import is the content, and its file is not the target. -/
theorem Survives.importable (h : s.Survives content files) (hne : s.importable files ≠ []) :
    s.importable files = content ∧ s.legacyPath ≠ s.path := by
  obtain ⟨hpath, hlegacy⟩ | ⟨nonce, hpath⟩ := h
  · constructor
    · by_cases hl : s.legacyPath = []
      · rw [EncryptedFileStore.importable, if_pos (.inl hl)] at hne
        exact absurd rfl hne
      · rw [EncryptedFileStore.importable, hpath, hlegacy, if_neg (by simp [hl])]
        rfl
    · intro he
      rw [he, hpath] at hlegacy
      cases hlegacy
  · exact absurd (importable_present hpath) hne

/-- The text survives a save, wherever it is cut off. -/
theorem throughout_save (h : os.Faithful) (ht : s.legacyPath ≠ tmpPath s.path) {v : Volume}
    (hv : s.Survives content v.files) :
    Throughout (fun v => s.Survives content v.files) (s.save os content) v := by
  apply throughout_catching
  apply always_replaceFile (B := fun b => ∃ nonce, b = sealedImage s.key nonce content) _ _
    h.flushes _ _ hv
  · intro w hw
    exact Fs.always_map _ (Fs.always_query rfl hw)
  · intro w b u hb
    rw [bind_pure_comp, Fs.exec_map, Fs.drawNonce, Fs.exec_call] at hb
    exact ⟨_, (Except.ok.inj (Prod.ext_iff.mp hb).1).symm⟩
  · intro files c hfiles
    exact hfiles.beside ht c
  · rintro b ⟨nonce, rfl⟩ files _
    exact .inr (sealed_renamed nonce)

/-- Reading the old plaintext changes no file. -/
theorem always_legacyText {P : (Bytes → Option Bytes) → Prop} {v : Volume} (h : P v.files) :
    Fs.Always P (s.legacyText os) v := by
  rw [legacyText]
  split
  · exact h
  · apply Fs.always_bind (Fs.always_exists os s.path h)
    intro present w _ hw
    cases present with
    | true => exact hw
    | false =>
      apply Fs.always_bind (Fs.always_exists os s.legacyPath hw)
      intro found w _ hw
      cases found with
      | true => exact Fs.always_readFile os s.legacyPath hw
      | false => exact hw

/-- Nor does reading the image. -/
theorem always_loadImage {P : (Bytes → Option Bytes) → Prop} {v : Volume} (h : P v.files) :
    Fs.Always P (s.loadImage os) v := by
  rw [loadImage]
  apply Fs.always_bind (Fs.always_exists os s.path h)
  intro present w _ hw
  cases present with
  | false => exact hw
  | true =>
    apply Fs.always_bind (Fs.always_readFile os s.path hw)
    intro r w _ hw
    cases r with
    | none => exact hw
    | some blob => exact hw

/-- The text survives a load, with the import that it may make. -/
theorem throughout_load (h : os.Faithful) (ht : s.legacyPath ≠ tmpPath s.path) {v : Volume}
    (hv : s.Survives content v.files) :
    Throughout (fun v => s.Survives content v.files) (s.load os) v := by
  apply throughout_catching
  apply Fs.always_bind (always_legacyText hv)
  intro r w hr hw
  obtain ⟨r', n, hlegacy, hval⟩ := exec_legacyText_reads (s := s) h.reads v
  obtain ⟨rfl, rfl⟩ : r' = r ∧ (⟨v.files, n⟩ : Volume) = w := by
    rw [hlegacy] at hr
    exact ⟨Except.ok.inj (Prod.ext_iff.mp hr).1, (Prod.ext_iff.mp hr).2⟩
  cases r' with
  | none => exact always_loadImage hw
  | some legacy =>
    dsimp only
    split
    · next hne =>
      obtain rfl : legacy = s.importable v.files := hval
      obtain ⟨himport, hpath⟩ := hv.importable hne
      rw [himport]
      have hsave := throughout_save h ht hw
      apply Fs.always_bind
      · exact hsave.map _
      · intro saved u hu hsurvives
        cases hok : isOk saved with
        | false => exact hsurvives
        | true =>
          apply Fs.always_map
          apply Fs.always_call hsurvives
          -- the plaintext file goes after the save reported success
          obtain ⟨hreport, rfl⟩ : ((s.save os content).run ⟨v.files, n⟩).1 = saved ∧
              ((s.save os content).run ⟨v.files, n⟩).2 = u := by
            rw [Fs.exec, ExceptT.run_lift] at hu
            simp only [Prog.run_map] at hu
            exact ⟨Except.ok.inj (Prod.ext_iff.mp hu).1, (Prod.ext_iff.mp hu).2⟩
          obtain ⟨nonce, hdone⟩ := s.save_ok h.flushes content ⟨v.files, n⟩
            (hreport.trans (eq_ok_of_isOk hok))
          split
          · exact .inr ⟨nonce, (put_other _ none hpath.symm).trans hdone.target⟩
          · exact hsurvives
    · exact always_loadImage hw

variable (s)

/-- Loads that each stop after some number of file-system calls, or end. -/
def attempted (attempts : List (Os × Nat)) (v : Volume) : Volume :=
  runAll (fun a v => (s.load a.1).upTo a.2 v) attempts v

/-- However many loads have crashed on a machine that holds only the plaintext, the next one
answers it, and its file is gone only when a complete encrypted copy is in place. -/
def CrashSafe : Prop :=
  ∀ content, content ≠ [] → ∀ v : Volume, v.files s.path = none →
    v.files s.legacyPath = some content →
    ∀ attempts : List (Os × Nat), (∀ a ∈ attempts, a.1.Faithful) →
      (∀ os : Os, os.Reads → ((s.load os).run (s.attempted attempts v)).1 = .ok content) ∧
      ((s.attempted attempts v).files s.legacyPath = some content ∨
        s.Sealed content (s.attempted attempts v).files)

variable {s}

theorem survives_attempted (ht : s.legacyPath ≠ tmpPath s.path)
    {attempts : List (Os × Nat)} (h : ∀ a ∈ attempts, a.1.Faithful) {v : Volume}
    (hv : s.Survives content v.files) : s.Survives content (s.attempted attempts v).files := by
  apply runAll_keeps (I := fun v : Volume => s.Survives content v.files) _ hv
  intro a ha w hw
  exact (throughout_load (h a ha) ht hw).upTo a.2

/-- A disk on which every file can be made and none can be filled. -/
def fullDisk : Os := { writes := fun _ => false }

/-- The refused write has emptied the file beside the target. -/
theorem save_fullDisk (s : EncryptedFileStore) (data : Bytes) (v : Volume) :
    isOk ((s.save fullDisk data).run v).1 = false ∧
      ((s.save fullDisk data).run v).2.files (tmpPath s.path) = some [] ∧
      ((s.save fullDisk data).run v).2.files s.path = v.files s.path := by
  rw [save, run_catching, replaceFile]
  cases hasParentPath s.path <;>
    simp [Fs.exec_bind, Fs.exec_map, Except.map, Fs.createDirectories, Fs.drawNonce, writeFile,
      Fs.openTrunc, Fs.write, Fs.close, fullDisk, put_other _ _ (tmpPath_ne s.path).symm]

/-- A plaintext under the name of the file beside the target is lost to a write that fails. -/
theorem not_crashSafe (hl : s.legacyPath ≠ []) (ht : s.legacyPath = tmpPath s.path) :
    ¬s.CrashSafe := by
  intro hsafe
  let v : Volume := ⟨put (fun _ => none) s.legacyPath (some [0]), 0⟩
  have hpath : v.files s.path = none := by
    change put (fun _ => none) s.legacyPath (some [0]) s.path = none
    rw [ht, put_other _ _ (tmpPath_ne s.path).symm]
  have hlegacy : v.files s.legacyPath = some [0] := by
    simp only [v, put_self]
  have himport : s.importable v.files = [0] := by
    rw [importable, hpath, hlegacy, if_neg (by simp [hl])]
    rfl
  have hreads : fullDisk.Reads := fun _ => ⟨rfl, rfl⟩
  obtain ⟨n, hrun⟩ := load_imports (s := s) hreads (v := v) (by simp [himport])
  obtain ⟨hfail, htmp, hkept⟩ := save_fullDisk s (s.importable v.files) ⟨v.files, n⟩
  rw [hfail, if_neg Bool.false_ne_true] at hrun
  obtain ⟨k, hk⟩ := (s.load fullDisk).exists_upTo_run v
  have hend : s.attempted [(fullDisk, k)] v =
      ((s.save fullDisk (s.importable v.files)).run ⟨v.files, n⟩).2 := by
    rw [attempted, runAll, runAll, hk, hrun]
  obtain ⟨_, hlost⟩ := hsafe [0] (by simp) v hpath hlegacy [(fullDisk, k)] (by
    intro a ha
    obtain rfl := List.mem_singleton.mp ha
    exact ⟨hreads, fun _ => rfl⟩)
  rw [hend] at hlost
  obtain hlost | ⟨nonce, hlost⟩ := hlost
  · rw [ht, htmp] at hlost
    simp at hlost
  · rw [hkept, hpath] at hlost
    cases hlost

/-- The migration is safe at every crash point exactly when the old file is not the temporary
one. -/
theorem migration_survives (s : EncryptedFileStore) (hl : s.legacyPath ≠ []) :
    s.CrashSafe ↔ s.legacyPath ≠ tmpPath s.path := by
  constructor
  · intro hsafe ht
    exact not_crashSafe hl ht hsafe
  · intro ht content _ v hpath hlegacy attempts hattempts
    have hv := survives_attempted ht hattempts (v := v) (.inl ⟨hpath, hlegacy⟩)
    constructor
    · intro os hr
      rw [load_contents hr, hv.contents hl]
    · obtain ⟨_, hkept⟩ | hsealed := hv
      · exact .inl hkept
      · exact .inr hsealed

/-- An integrator's two paths, and a load that stops when the sealed copy is half written. -/
theorem migration_survives_vector :
    let s := forMachine (ascii "keylight.bin") (ascii "machine") (ascii "keylight.lease")
    let v : Volume := ⟨put (fun _ => none) (ascii "keylight.lease") (some (ascii "trial")), 0⟩
    s.CrashSafe ∧ ((s.load {}).run (s.attempted [({}, 6)] v)).1 = .ok (ascii "trial") := by
  intro s v
  have hsafe := (migration_survives s (by decide)).mpr (by decide)
  refine ⟨hsafe, ?_⟩
  apply (hsafe (ascii "trial") (by decide) v rfl rfl [({}, 6)] _).1 {} fun _ => ⟨rfl, rfl⟩
  intro a ha
  obtain rfl := List.mem_singleton.mp ha
  exact faithful_default

theorem migration_destroys :
    ¬(forMachine (ascii "keylight.bin") (ascii "machine") (ascii "keylight.bin.tmp")).CrashSafe :=
  not_crashSafe (by decide) (by decide)

end EncryptedFileStore

end Keylight
