import Keylight.EncryptedStore
import Keylight.Register

/-!
# The stores as registers

`contents` is what a load of the encrypted store answers, the legacy plaintext
included. Saves keep their promise. A `clear` looks at one file and at no error:
what it leaves behind, or leaves to be imported, a later load answers.
-/
namespace Keylight
open Bytes Sections ChaCha20 Register Runs

/-- Files can be read, and closing one loses nothing. -/
structure Os.Faithful (os : Os) : Prop where
  reads : os.Reads
  flushes : ∀ n, os.flushes n = true

namespace EncryptedFileStore
variable (s : EncryptedFileStore)

/-- The plaintext a load imports. -/
def importable (files : Bytes → Option Bytes) : Bytes :=
  if s.legacyPath = [] ∨ (files s.path).isSome then [] else (files s.legacyPath).getD []

/-- What the encrypted file opens to. -/
def stored (files : Bytes → Option Bytes) : Bytes :=
  match files s.path with
  | some blob => openImage s.key blob
  | none => []

def contents (files : Bytes → Option Bytes) : Bytes :=
  if s.importable files = [] then s.stored files else s.importable files

variable {s} {os : Os}

theorem importable_present {files : Bytes → Option Bytes} {blob : Bytes}
    (h : files s.path = some blob) : s.importable files = [] := by
  rw [importable, h, if_pos (.inr rfl)]

theorem contents_present {files : Bytes → Option Bytes} {blob : Bytes}
    (h : files s.path = some blob) : s.contents files = openImage s.key blob := by
  rw [contents, if_pos (importable_present h), stored, h]

/-- Without the encrypted file, the contents are the legacy file's. -/
theorem contents_absent {files : Bytes → Option Bytes} (h : files s.path = none) :
    s.contents files = s.importable files := by
  rw [contents, stored, h]
  split
  · exact Eq.symm ‹_›
  · rfl

/-- Where files can be read, the old plaintext is what would be imported. -/
theorem exec_legacyText_reads (hr : os.Reads) (v : Volume) :
    ∃ r n, Fs.exec (s.legacyText os) v = (.ok r, ⟨v.files, n⟩) ∧
      r.getD [] = s.importable v.files := by
  rw [legacyText, importable]
  by_cases hl : s.legacyPath = []
  · rw [if_pos hl, if_pos (.inl hl)]
    exact ⟨none, v.calls, by simp, rfl⟩
  · rw [if_neg hl]
    cases hp : v.files s.path with
    | some blob =>
      rw [if_pos (.inr rfl)]
      exact ⟨none, v.calls + 1, by simp [Fs.exec_bind, Fs.exists_, (hr _).1, hp], rfl⟩
    | none =>
      rw [if_neg (by simp [hl])]
      cases hf : v.files s.legacyPath with
      | some content =>
        exact ⟨some content, v.calls + 3,
          by simp [Fs.exec_bind, Fs.exists_, Fs.readFile, (hr _).1, (hr _).2, hp, hf], rfl⟩
      | none =>
        exact ⟨none, v.calls + 2, by simp [Fs.exec_bind, Fs.exists_, (hr _).1, hp, hf], rfl⟩

theorem exec_loadImage_reads (hr : os.Reads) (v : Volume) :
    ∃ n, Fs.exec (s.loadImage os) v = (.ok (.ok (s.stored v.files)), ⟨v.files, n⟩) := by
  rw [loadImage, stored]
  cases hp : v.files s.path with
  | some blob =>
    exact ⟨v.calls + 2,
      by simp [Fs.exec_bind, Fs.exists_, Fs.readFile, (hr _).1, (hr _).2, hp]⟩
  | none => exact ⟨v.calls + 1, by simp [Fs.exec_bind, Fs.exists_, (hr _).1, hp]⟩

/-- With nothing to import, a load only reads. -/
theorem load_reads (hr : os.Reads) {v : Volume} (h : s.importable v.files = []) :
    ∃ n, (s.load os).run v = (.ok (s.stored v.files), ⟨v.files, n⟩) := by
  obtain ⟨r, n, hlegacy, hval⟩ := exec_legacyText_reads (s := s) hr v
  obtain ⟨m, himage⟩ := exec_loadImage_reads (s := s) hr ⟨v.files, n⟩
  rw [h] at hval
  refine ⟨m, ?_⟩
  rw [load, run_catching, Fs.exec_bind_ok hlegacy]
  cases r with
  | none => simp only [himage]
  | some c =>
    obtain rfl : c = [] := hval
    simp only [ne_eq, not_true_eq_false, if_false, himage]

/-- The import, which answers whatever became of the save. -/
theorem load_imports (hr : os.Reads) {v : Volume} (h : s.importable v.files ≠ []) :
    ∃ n, (s.load os).run v =
      (.ok (s.importable v.files),
        if isOk ((s.save os (s.importable v.files)).run ⟨v.files, n⟩).1 then
          (Fs.exec (Fs.remove os s.legacyPath)
            ((s.save os (s.importable v.files)).run ⟨v.files, n⟩).2).2
        else ((s.save os (s.importable v.files)).run ⟨v.files, n⟩).2) := by
  obtain ⟨r, n, hlegacy, hval⟩ := exec_legacyText_reads (s := s) hr v
  refine ⟨n, ?_⟩
  cases r with
  | none => exact absurd hval.symm h
  | some c =>
    obtain rfl : c = s.importable v.files := hval
    have hlift : Fs.exec (ExceptT.lift (s.save os (s.importable v.files))) ⟨v.files, n⟩ =
        (.ok ((s.save os (s.importable v.files)).run ⟨v.files, n⟩).1,
          ((s.save os (s.importable v.files)).run ⟨v.files, n⟩).2) := by
      simp [Fs.exec, ExceptT.run_lift]
    rw [load, run_catching, Fs.exec_bind_ok hlegacy]
    simp only [if_pos h]
    rw [Fs.exec_bind_ok hlift]
    cases isOk ((s.save os (s.importable v.files)).run ⟨v.files, n⟩).1 with
    | false => simp
    | true => simp [Fs.exec_map, Except.map, Fs.remove]

theorem load_contents (hr : os.Reads) (v : Volume) :
    ((s.load os).run v).1 = .ok (s.contents v.files) := by
  rw [contents]
  split
  · obtain ⟨n, hrun⟩ := load_reads hr ‹_›
    rw [hrun]
  · obtain ⟨n, hrun⟩ := load_imports hr ‹_›
    rw [hrun]

/-- Removing a file that is not there changes nothing. -/
theorem put_none_absent {files : Bytes → Option Bytes} {path : Bytes} (h : files path = none) :
    put files path none = files := by
  funext p
  by_cases hp : p = path
  · rw [hp, put_self, h]
  · exact put_other files none hp

end EncryptedFileStore

/-- What the calls of a store report. -/
def storeDevice (load : Prog Volume (Result Bytes)) (save : Bytes → Prog Volume (Result Unit))
    (clear : Prog Volume (Result Unit)) : Device Volume Bytes where
  load v := ((load.run v).1.toOption, (load.run v).2)
  save d v := (isOk ((save d).run v).1, ((save d).run v).2)
  clear v := (isOk (clear.run v).1, (clear.run v).2)

theorem eq_ok_of_isOk {r : Result Unit} (h : isOk r = true) : r = .ok () := by
  cases r with
  | error e => exact nomatch h
  | ok a => rfl

namespace FileStore
variable (s : FileStore) (os : Os)

def contents (files : Bytes → Option Bytes) : Bytes := (files s.path).getD []

def device : Device Volume Bytes := storeDevice (s.load os) (s.save os) (s.clear os)

/-- A clear that leaves nothing to load: the removal works, or the file is absent or empty. -/
def Empties (v : Volume) : Prop := os.removes v.calls = true ∨ s.contents v.files = []

variable {s os}

theorem load_reads (hr : os.Reads) (v : Volume) :
    ∃ n, (s.load os).run v = (.ok (s.contents v.files), ⟨v.files, n⟩) := by
  rw [load, run_catching, contents]
  cases hp : v.files s.path with
  | none => exact ⟨v.calls + 1, by simp [Fs.exec_bind, Fs.exists_, (hr _).1, hp]⟩
  | some data =>
    exact ⟨v.calls + 2,
      by simp [Fs.exec_bind, Fs.exists_, Fs.readFile, (hr _).1, (hr _).2, hp]⟩

/-- A save that reports success has replaced the file. -/
theorem save_ok (hflush : ∀ n, os.flushes n = true) {data : Bytes} {v : Volume}
    (h : ((s.save os data).run v).1 = .ok ()) :
    Replaced s.path data v.files ((s.save os data).run v).2.files := by
  rw [save, run_catching] at h ⊢
  generalize hx : Fs.exec (replaceFile os (ascii "FileStore") s.path (pure data)) v = x at h ⊢
  obtain ⟨r, w⟩ := x
  cases r with
  | error what => exact nomatch h
  | ok r =>
    obtain rfl : r = .ok () := h
    have hblob : ∀ v, ∃ b w, Fs.exec (pure data : Fs Bytes) v = (.ok b, w) ∧
        w.files = v.files ∧ b = data := by
      intro v
      exact ⟨data, v, Fs.exec_pure data v, rfl, rfl⟩
    obtain ⟨b, rfl, hdone⟩ := replaceFile_ok hblob hflush hx
    exact hdone

theorem run_clear (v : Volume) :
    (s.clear os).run v =
      (.ok (), ⟨if os.removes v.calls then put v.files s.path none else v.files,
        v.calls + 1⟩) := by
  simp [clear, run_catching, Fs.exec_map, Except.map, Fs.remove]

/-- After a clear nothing is left exactly where it empties the store. -/
theorem contents_cleared (v : Volume) :
    s.contents ((s.clear os).run v).2.files = [] ↔ s.Empties os v := by
  rw [run_clear, Empties]
  cases os.removes v.calls with
  | false => simp
  | true => simp [contents]

theorem lawful (h : os.Faithful) :
    (s.device os).Lawful [] (fun v d => s.contents v.files = d) (s.Empties os) where
  load_value v d hd := by
    obtain ⟨n, hrun⟩ := s.load_reads h.reads v
    change ((s.load os).run v).1.toOption = _
    rw [hrun, ← hd]
    rfl
  load_keeps v d hd := by
    obtain ⟨n, hrun⟩ := s.load_reads h.reads v
    change s.contents ((s.load os).run v).2.files = d
    rw [hrun]
    exact hd
  save_holds v d hok := by
    have hdone := save_ok h.flushes (eq_ok_of_isOk hok)
    change s.contents ((s.save os d).run v).2.files = d
    rw [contents, hdone.target]
    rfl
  clear_holds v hv _ := (contents_cleared v).mpr hv
  clear_keeps v _ hfail := by
    change isOk ((s.clear os).run v).1 = false at hfail
    rw [run_clear] at hfail
    exact nomatch hfail

end FileStore

namespace EncryptedFileStore
variable (s : EncryptedFileStore) (os : Os)

def device : Device Volume Bytes := storeDevice (s.load os) (s.save os) (s.clear os)

/-- The plaintext a load would import if there were no encrypted file. -/
def leftover (files : Bytes → Option Bytes) : Bytes :=
  if s.legacyPath = [] ∨ s.legacyPath = s.path then [] else (files s.legacyPath).getD []

/-- A clear that leaves nothing to load: with the encrypted file gone there is no plaintext to
import, or the file stays and opens to nothing. -/
def Empties (v : Volume) : Prop :=
  if v.files s.path = none ∨ os.removes v.calls = true then s.leftover v.files = []
  else s.stored v.files = []

variable {s os}

theorem importable_removed (files : Bytes → Option Bytes) :
    s.importable (put files s.path none) = s.leftover files := by
  rw [importable, leftover, put_self]
  by_cases hl : s.legacyPath = s.path
  · rw [hl, put_self]
    simp
  · rw [put_other files none hl]
    simp [hl]

theorem contents_removed (files : Bytes → Option Bytes) :
    s.contents (put files s.path none) = s.leftover files := by
  rw [contents_absent (put_self _ _ _), importable_removed]

theorem run_clear (v : Volume) :
    (s.clear os).run v =
      (.ok (), ⟨if os.removes v.calls then put v.files s.path none else v.files,
        v.calls + 1⟩) := by
  rw [clear, Prog.run_map]
  change (_, (Fs.exec (Fs.remove os s.path) v).2) = _
  rw [Fs.remove, Fs.exec_call]

theorem contents_cleared (v : Volume) :
    s.contents ((s.clear os).run v).2.files = [] ↔ s.Empties os v := by
  rw [run_clear, Empties]
  cases hp : v.files s.path with
  | none =>
    have hfiles : (if os.removes v.calls = true then put v.files s.path none else v.files) =
        put v.files s.path none := by
      rw [put_none_absent hp, ite_self]
    rw [hfiles, contents_removed, if_pos (.inl rfl)]
  | some blob =>
    cases os.removes v.calls with
    | true =>
      rw [if_pos rfl, contents_removed, if_pos (.inr rfl)]
    | false =>
      rw [if_neg Bool.false_ne_true, contents_present hp, if_neg (by simp), stored, hp]

/-- Nothing is left to import, and the encrypted file opens to `d`. -/
def Holds (v : Volume) (d : Bytes) : Prop := s.importable v.files = [] ∧ s.stored v.files = d

theorem holds_of_contents {v : Volume} (h : s.contents v.files = []) :
    s.Holds v [] := by
  rw [contents] at h
  split at h
  · exact ⟨‹_›, h⟩
  · exact absurd h ‹_›

theorem lawful (h : os.Faithful) : (s.device os).Lawful [] s.Holds (s.Empties os) where
  load_value v d hd := by
    obtain ⟨n, hrun⟩ := load_reads h.reads hd.1
    change ((s.load os).run v).1.toOption = _
    rw [hrun, hd.2]
    rfl
  load_keeps v d hd := by
    obtain ⟨n, hrun⟩ := load_reads h.reads hd.1
    change s.Holds ((s.load os).run v).2 d
    rw [hrun]
    exact hd
  save_holds v d hok := by
    obtain ⟨nonce, hdone⟩ := s.save_ok h.flushes d v (eq_ok_of_isOk hok)
    change s.Holds ((s.save os d).run v).2 d
    constructor
    · exact importable_present hdone.target
    · rw [stored, hdone.target]
      exact openImage_sealedImage s.key nonce d
  clear_holds v hv _ := holds_of_contents ((contents_cleared v).mpr hv)
  clear_keeps v _ hfail := by
    change isOk ((s.clear os).run v).1 = false at hfail
    rw [run_clear] at hfail
    exact nomatch hfail

end EncryptedFileStore

/-- Both stores answer what was saved last, over every run whose clears empty them; and a clear
empties a store exactly under its condition. -/
theorem stores_register (os : Os) (h : os.Faithful) :
    (∀ (s : FileStore) (v : Volume) (calls : List (Call Bytes)),
      Along (s.device os).next (Device.Clearing (s.Empties os)) calls (v, .nothing) →
        (s.device os).Kept [] (runAll (s.device os).next calls (v, .nothing))) ∧
    (∀ (s : FileStore) (v : Volume),
      ((s.load os).run ((s.clear os).run v).2).1 = .ok [] ↔ s.Empties os v) ∧
    (∀ (s : EncryptedFileStore) (v : Volume) (calls : List (Call Bytes)),
      Along (s.device os).next (Device.Clearing (s.Empties os)) calls (v, .nothing) →
        (s.device os).Kept [] (runAll (s.device os).next calls (v, .nothing))) ∧
    (∀ (s : EncryptedFileStore) (v : Volume),
      ((s.load os).run ((s.clear os).run v).2).1 = .ok [] ↔ s.Empties os v) := by
  have hok : ∀ d : Bytes, (.ok d : Result Bytes) = .ok [] ↔ d = [] := by
    intro d
    exact ⟨Except.ok.inj, congrArg Except.ok⟩
  refine ⟨?_, ?_, ?_, ?_⟩
  · intro s v calls hcalls
    exact (FileStore.lawful h).kept hcalls
  · intro s v
    obtain ⟨n, hrun⟩ := s.load_reads h.reads ((s.clear os).run v).2
    rw [hrun, hok, FileStore.contents_cleared]
  · intro s v calls hcalls
    exact (EncryptedFileStore.lawful h).kept hcalls
  · intro s v
    rw [EncryptedFileStore.load_contents h.reads, hok, EncryptedFileStore.contents_cleared]

theorem faithful_default : ({} : Os).Faithful where
  reads _ := ⟨rfl, rfl⟩
  flushes _ := rfl

/-- A load, a save and a clear, on a disk with a plain store's file and the old plaintext that the
encrypted store imports first. -/
theorem stores_register_vector :
    let file : FileStore := ⟨ascii "keylight.lease"⟩
    let sealed := EncryptedFileStore.forMachine (ascii "store.bin") (ascii "machine")
      (ascii "old.lease")
    let v : Volume :=
      ⟨put (put (fun _ => none) (ascii "keylight.lease") (some (ascii "old")))
        (ascii "old.lease") (some (ascii "trial")), 0⟩
    let calls : List (Call Bytes) := [.load, .save (ascii "new"), .clear]
    (file.device {}).Kept [] (runAll (file.device {}).next calls (v, .nothing)) ∧
      ((file.load {}).run ((file.clear {}).run v).2).1 = .ok [] ∧
      (sealed.device {}).Kept [] (runAll (sealed.device {}).next calls (v, .nothing)) ∧
      ((sealed.load {}).run ((sealed.clear {}).run ((sealed.load {}).run v).2).2).1 = .ok [] := by
  intro file sealed v calls
  have h := stores_register {} faithful_default
  have hempties : ∀ w : Volume, sealed.leftover w.files = [] → sealed.Empties {} w := by
    intro w hw
    rwa [EncryptedFileStore.Empties, if_pos (.inr rfl)]
  refine ⟨h.1 file v calls ?_, (h.2.1 file v).mpr (.inl rfl), h.2.2.1 sealed v calls ?_,
    (h.2.2.2 sealed _).mpr (hempties _ (by decide +kernel))⟩
  · exact ⟨nofun, nofun, fun _ => .inl rfl, trivial⟩
  · exact ⟨nofun, nofun, fun _ => hempties _ (by decide +kernel), trivial⟩

/-- The upgraded store keeps its old plaintext file, which a load after the clear imports; and
a removal that fails leaves a plain store as it was. -/
theorem clear_leaves :
    let sealed := EncryptedFileStore.forMachine (ascii "store.bin") (ascii "machine")
      (ascii "old.lease")
    let file : FileStore := ⟨ascii "keylight.lease"⟩
    let stuck : Os := { removes := fun _ => false }
    ({} : Os).Faithful ∧ ¬(sealed.device {}).IsRegister [] ∧
      stuck.Faithful ∧ ¬(file.device stuck).IsRegister [] := by
  intro sealed file stuck
  refine ⟨faithful_default, ?_, ⟨fun _ => ⟨rfl, rfl⟩, fun _ => rfl⟩, ?_⟩
  · intro hreg
    let v : Volume :=
      ⟨put (put (fun _ => none) (ascii "store.bin") (some []))
        (ascii "old.lease") (some (ascii "trial")), 0⟩
    have hload : ((sealed.load {}).run ((sealed.clear {}).run v).2).1.toOption = some [] :=
      hreg v [.clear] [] rfl
    rw [EncryptedFileStore.load_contents faithful_default.reads] at hload
    have hempty := (EncryptedFileStore.contents_cleared v).mp (Option.some.inj hload)
    rw [EncryptedFileStore.Empties, if_pos (.inr rfl)] at hempty
    exact absurd hempty (by decide)
  · intro hreg
    let v : Volume := ⟨put (fun _ => none) (ascii "keylight.lease") (some (ascii "old")), 0⟩
    have hload : ((file.load stuck).run ((file.clear stuck).run v).2).1.toOption = some [] :=
      hreg v [.clear] [] rfl
    have hclosed : ((file.load stuck).run ((file.clear stuck).run v).2).1 = .ok (ascii "old") := rfl
    rw [hclosed] at hload
    exact absurd hload (by decide)

end Keylight
