import Keylight.Result
import Keylight.Sections
import Keylight.Sha256
import Keylight.ChaCha20Poly1305

/-!
# The on-disk stores

`FileStore` keeps the blob as it is, `EncryptedFileStore` as nonce, ciphertext
and tag under a key derived from the machine id. Every file-system call is one
section; a `filesystem_error` is the exception of `Fs`, carrying its text.
-/
namespace Keylight
open Bytes Sections ChaCha20

/-- The regular files by path; `calls` numbers the file-system calls. -/
structure Volume where
  files : Bytes → Option Bytes
  calls : Nat := 0

/-- How the operating system answers, by the number of the call. -/
structure Os where
  /-- what `exists` throws -/
  stat : Nat → Option Bytes := fun _ => none
  /-- whether an input stream opens -/
  opens : Nat → Bool := fun _ => true
  /-- what `create_directories` throws -/
  mkdir : Nat → Option Bytes := fun _ => none
  /-- whether an output stream opens -/
  creates : Nat → Bool := fun _ => true
  /-- whether a stream accepts what is written to it -/
  writes : Nat → Bool := fun _ => true
  /-- whether all that was accepted reaches the file when the stream closes -/
  flushes : Nat → Bool := fun _ => true
  /-- how many bytes have reached the file otherwise -/
  landed : Nat → Nat := fun _ => 0
  /-- what `rename` throws -/
  rename : Nat → Option Bytes := fun _ => none
  /-- whether `remove` succeeds; its error is not looked at -/
  removes : Nat → Bool := fun _ => true
  /-- the twelve bytes drawn from the generator -/
  nonce : Nat → Nonce := fun _ => Vector.replicate 12 0

abbrev Fs := ExceptT Bytes (Prog Volume)

/-- The files with `path` holding `content`. -/
def put (files : Bytes → Option Bytes) (path : Bytes) (content : Option Bytes) :
    Bytes → Option Bytes :=
  fun p => if p = path then content else files p

@[simp] theorem put_self (files : Bytes → Option Bytes) (path : Bytes) (c : Option Bytes) :
    put files path c path = c := if_pos rfl

theorem put_other (files : Bytes → Option Bytes) {path p : Bytes} (c : Option Bytes)
    (h : p ≠ path) : put files path c p = files p := if_neg h

namespace Fs

/-- One call: it sees its number and the files, and answers, throws or changes the files. -/
def call (f : Nat → (Bytes → Option Bytes) → Except Bytes α × (Bytes → Option Bytes)) : Fs α :=
  ExceptT.mk (.atom fun v => ((f v.calls v.files).1, ⟨(f v.calls v.files).2, v.calls + 1⟩))

variable (os : Os)

def exists_ (path : Bytes) : Fs Bool :=
  call fun n files =>
    match os.stat n with
    | some what => (.error what, files)
    | none => (.ok (files path).isSome, files)

/-- The whole content through an input stream; `none` when it does not open. -/
def readFile (path : Bytes) : Fs (Option Bytes) :=
  call fun n files => (.ok (if os.opens n then files path else none), files)

def createDirectories : Fs Unit :=
  call fun n files =>
    match os.mkdir n with
    | some what => (.error what, files)
    | none => (.ok (), files)

/-- An output stream that truncates. -/
def openTrunc (path : Bytes) : Fs Bool :=
  call fun n files => (.ok (os.creates n), if os.creates n then put files path (some []) else files)

/-- `write` on the stream, which may keep bytes in its buffer. -/
def write (path data : Bytes) : Fs Bool :=
  call fun n files => (.ok (os.writes n), put files path (some (data.take (os.landed n))))

/-- The stream's destructor, which reports nothing. -/
def close (path data : Bytes) (written : Bool) : Fs Unit :=
  call fun n files =>
    (.ok (), put files path
      (some (if written && os.flushes n then data else data.take (os.landed n))))

def rename (source target : Bytes) : Fs Unit :=
  call fun n files =>
    match os.rename n with
    | some what => (.error what, files)
    | none => (.ok (), put (put files target (files source)) source none)

def remove (path : Bytes) : Fs Unit :=
  call fun n files => (.ok (), if os.removes n then put files path none else files)

def drawNonce : Fs Nonce := call fun n files => (.ok (os.nonce n), files)

end Fs

/-- A path with a directory part. -/
def hasParentPath (path : Bytes) : Bool := path.contains 47

def tmpPath (path : Bytes) : Bytes := path ++ ascii ".tmp"

/-- The blob into a sibling file, which then takes the target's name. -/
def writeFile (os : Os) (store path blob : Bytes) : Fs (Result Unit) := do
  if ← Fs.openTrunc os (tmpPath path) then
    let written ← Fs.write os (tmpPath path) blob
    Fs.close os (tmpPath path) blob written
    if written then
      Fs.rename os (tmpPath path) path
      pure (.ok ())
    else pure (.error ⟨.io, store ++ ascii ": write failed for " ++ tmpPath path⟩)
  else pure (.error ⟨.io, store ++ ascii ": cannot write " ++ tmpPath path⟩)

/-- The `save` of both stores, which differ in the blob they write. -/
def replaceFile (os : Os) (store path : Bytes) (makeBlob : Fs Bytes) : Fs (Result Unit) := do
  if hasParentPath path then Fs.createDirectories os
  let blob ← makeBlob
  writeFile os store path blob

/-- `try … catch`: what a thrown `filesystem_error` answers. -/
def catching (body : Fs (Result α)) (handler : Bytes → Result α) : Prog Volume (Result α) := do
  match ← body.run with
  | .ok r => pure r
  | .error what => pure (handler what)

def ioError (what : Bytes) : Result α := .error ⟨.io, what⟩

structure FileStore where
  path : Bytes

namespace FileStore
variable (s : FileStore) (os : Os)

def load : Prog Volume (Result Bytes) :=
  catching (do
    if ← Fs.exists_ os s.path then
      match ← Fs.readFile os s.path with
      | some data => pure (.ok data)
      | none => pure (ioError (ascii "FileStore: cannot open " ++ s.path))
    else pure (.ok [])) ioError

def save (data : Bytes) : Prog Volume (Result Unit) :=
  catching (replaceFile os (ascii "FileStore") s.path (pure data)) ioError

def clear : Prog Volume (Result Unit) :=
  catching (do
    Fs.remove os s.path
    pure (.ok ())) ioError

end FileStore

def deriveStoreKey (machineId : Bytes) : Key :=
  Sha256.bytes (ascii "keylight-store-v1" ++ machineId)

/-- nonce(12) || ciphertext || tag(16) -/
def sealedImage (key : Key) (nonce : Nonce) (data : Bytes) : Bytes :=
  nonce.toList ++ (aeadSeal key nonce data).1 ++ (aeadSeal key nonce data).2.toList

/-- The `n` bytes at offset `p`. -/
def window (n : Nat) (blob : Bytes) (p : Nat) : Vector UInt8 n := .ofFn fun i => blob.getD (p + i) 0

/-- The text of a file's content; empty for whatever does not open. -/
def openImage (key : Key) (blob : Bytes) : Bytes :=
  if blob.length < 12 + 16 then []
  else
    let ctLen := blob.length - 12 - 16
    match aeadOpen key (window 12 blob 0) ((blob.drop 12).take ctLen)
      (window 16 blob (12 + ctLen)) with
    | some out => out
    | none => []

structure EncryptedFileStore where
  path : Bytes
  legacyPath : Bytes
  key : Key

namespace EncryptedFileStore

/-- The store bound to a machine. -/
def forMachine (path machineId legacyPath : Bytes) : EncryptedFileStore :=
  ⟨path, legacyPath, deriveStoreKey machineId⟩

variable (s : EncryptedFileStore) (os : Os)

def save (data : Bytes) : Prog Volume (Result Unit) :=
  catching (replaceFile os (ascii "EncryptedFileStore") s.path (do
    let nonce ← Fs.drawNonce os
    pure (sealedImage s.key nonce data))) ioError

/-- The plaintext to import: only when there is no encrypted file. -/
def legacyText : Fs (Option Bytes) := do
  if s.legacyPath = [] then pure none
  else if ← Fs.exists_ os s.path then pure none
  else if ← Fs.exists_ os s.legacyPath then Fs.readFile os s.legacyPath
  else pure none

def loadImage : Fs (Result Bytes) := do
  if ← Fs.exists_ os s.path then
    match ← Fs.readFile os s.path with
    | some blob => pure (.ok (openImage s.key blob))
    | none => pure (.ok [])
  else pure (.ok [])

def load : Prog Volume (Result Bytes) :=
  catching (do
    match ← s.legacyText os with
    | some legacy =>
      if legacy ≠ [] then
        let saved ← ExceptT.lift (s.save os legacy)
        if isOk saved then Fs.remove os s.legacyPath
        pure (.ok legacy)
      else s.loadImage os
    | none => s.loadImage os) fun _ => .ok []

/-- The outcome of the removal is not looked at. -/
def clear : Prog Volume (Result Unit) := (fun _ => .ok ()) <$> (Fs.remove os s.path).run

end EncryptedFileStore

namespace Fs

/-- The run of a program that may throw. -/
def exec (p : Fs α) (v : Volume) : Except Bytes α × Volume := (ExceptT.run p).run v

@[simp] theorem exec_pure (a : α) (v : Volume) : exec (pure a) v = (.ok a, v) := by
  simp [exec]

@[simp] theorem exec_call
    (f : Nat → (Bytes → Option Bytes) → Except Bytes α × (Bytes → Option Bytes)) (v : Volume) :
    exec (call f) v = ((f v.calls v.files).1, ⟨(f v.calls v.files).2, v.calls + 1⟩) := by
  simp [exec, call, ExceptT.run, ExceptT.mk]

theorem exec_bind (p : Fs α) (k : α → Fs β) (v : Volume) :
    exec (p >>= k) v =
      match (exec p v).1 with
      | .ok a => exec (k a) (exec p v).2
      | .error what => (.error what, (exec p v).2) := by
  simp only [exec, ExceptT.run_bind, Prog.run_bind]
  cases (ExceptT.run p).run v with
  | mk r w =>
    cases r with
    | error what => simp
    | ok a => rfl

theorem exec_map (f : α → β) (p : Fs α) (v : Volume) :
    exec (f <$> p) v = ((exec p v).1.map f, (exec p v).2) := by
  rw [← bind_pure_comp, exec_bind]
  cases exec p v with
  | mk r w =>
    cases r with
    | error what => rfl
    | ok a => simp [Except.map]

theorem exec_bind_ok {p : Fs α} {k : α → Fs β} {v w : Volume} {a : α}
    (h : exec p v = (.ok a, w)) : exec (p >>= k) v = exec (k a) w := by
  rw [exec_bind, h]

end Fs

theorem run_catching (body : Fs (Result α)) (handler : Bytes → Result α) (v : Volume) :
    (catching body handler).run v =
      match (Fs.exec body v).1 with
      | .ok r => (r, (Fs.exec body v).2)
      | .error what => (handler what, (Fs.exec body v).2) := by
  simp only [catching, Prog.run_bind]
  change Prog.run (match (Fs.exec body v).1 with
    | .ok r => pure r
    | .error what => pure (handler what)) (Fs.exec body v).2 = _
  split <;> simp

theorem tmpPath_ne (path : Bytes) : tmpPath path ≠ path := by
  intro h
  have hlen := congrArg List.length h
  simp [tmpPath, ascii] at hlen

/-- The volume after `path` has been replaced. -/
structure Replaced (path blob : Bytes) (files files' : Bytes → Option Bytes) : Prop where
  target : files' path = some blob
  rest : ∀ p, p ≠ path → p ≠ tmpPath path → files' p = files p

/-- A write that reports success has replaced the file. -/
theorem writeFile_ok {os : Os} {store path blob : Bytes} (hflush : ∀ n, os.flushes n = true)
    {v w : Volume} (h : Fs.exec (writeFile os store path blob) v = (.ok (.ok ()), w)) :
    Replaced path blob v.files w.files := by
  cases hc : os.creates v.calls with
  | false => simp [writeFile, Fs.exec_bind, Fs.openTrunc, hc] at h
  | true =>
    cases hw : os.writes (v.calls + 1) with
    | false =>
      simp [writeFile, Fs.exec_bind, Fs.exec_map, Except.map, Fs.openTrunc, Fs.write, Fs.close,
        hc, hw] at h
    | true =>
      cases hr : os.rename (v.calls + 3) with
      | some what =>
        simp [writeFile, Fs.exec_bind, Fs.exec_map, Except.map, Fs.openTrunc, Fs.write, Fs.close,
          Fs.rename, hc, hw, hr] at h
      | none =>
        simp [writeFile, Fs.exec_bind, Fs.exec_map, Except.map, Fs.openTrunc, Fs.write, Fs.close,
          Fs.rename, hc, hw, hr, hflush] at h
        subst h
        constructor
        · simp [put_other _ _ (tmpPath_ne path).symm]
        · intro p hp ht
          simp [put_other _ _ ht, put_other _ _ hp]

/-- A replacement that reports success, when closing the stream loses nothing. -/
theorem replaceFile_ok {os : Os} {store path : Bytes} {makeBlob : Fs Bytes} {B : Bytes → Prop}
    (hblob : ∀ v, ∃ b w, Fs.exec makeBlob v = (.ok b, w) ∧ w.files = v.files ∧ B b)
    (hflush : ∀ n, os.flushes n = true) {v w : Volume}
    (h : Fs.exec (replaceFile os store path makeBlob) v = (.ok (.ok ()), w)) :
    ∃ b, B b ∧ Replaced path b v.files w.files := by
  have hrest : ∀ u : Volume, u.files = v.files →
      Fs.exec (makeBlob >>= writeFile os store path) u = (.ok (.ok ()), w) →
      ∃ b, B b ∧ Replaced path b v.files w.files := by
    intro u hu hx
    obtain ⟨b, t, hb, ht, hB⟩ := hblob u
    rw [Fs.exec_bind_ok hb] at hx
    have hdone := writeFile_ok hflush hx
    rw [ht, hu] at hdone
    exact ⟨b, hB, hdone⟩
  rw [replaceFile] at h
  split at h
  · rw [Fs.exec_bind, Fs.createDirectories, Fs.exec_call] at h
    cases hm : os.mkdir v.calls with
    | some what => simp [hm] at h
    | none =>
      simp only [hm] at h
      exact hrest ⟨v.files, v.calls + 1⟩ rfl h
  · exact hrest v rfl (by simpa using h)

end Keylight
