import Keylight.FileStores

/-!
# The outcomes of a save

A save writes beside the target and renames. It looks at the stream after the
write and not after the close, so what the close loses is renamed over the
target all the same.
-/
namespace Keylight
open Bytes Sections ChaCha20

/-- The answer `ok` with the new content in place, or an error with the old one. -/
def AllOrNothing (path new : Bytes) (v : Volume) (r : Result Unit × Volume) : Prop :=
  (isOk r.1 = true → r.2.files path = some new) ∧
    (isOk r.1 = false → r.2.files path = v.files path)

namespace Os
variable (os : Os)

/-- From the `n`-th call on a file is opened, written, closed and renamed without an error that the
code sees. -/
def Replaces (n : Nat) : Prop :=
  os.creates n = true ∧ os.writes (n + 1) = true ∧ os.rename (n + 3) = none

instance (n : Nat) : Decidable (os.Replaces n) := inferInstanceAs (Decidable (_ ∧ _ ∧ _))

/-- What is in that file after the close. -/
def settled (n : Nat) (blob : Bytes) : Bytes :=
  if os.flushes (n + 2) then blob else blob.take (os.landed (n + 2))

/-- A file holds all that was written when its flush succeeds or nothing was left to flush. -/
theorem settled_eq (n : Nat) (blob : Bytes) :
    os.settled n blob = blob ↔ os.flushes (n + 2) = true ∨ blob.length ≤ os.landed (n + 2) := by
  rw [settled]
  cases os.flushes (n + 2) with
  | true => simp
  | false =>
    simp only [Bool.false_eq_true, if_false, false_or]
    constructor
    · intro h
      have hlen := congrArg List.length h
      rw [List.length_take] at hlen
      omega
    · exact List.take_of_length_le

end Os

/-- The file beside the target, then the target itself. -/
theorem exec_writeFile (os : Os) (store path blob : Bytes) (v : Volume) :
    (os.Replaces v.calls →
      (Fs.exec (writeFile os store path blob) v).1 = .ok (.ok ()) ∧
      (Fs.exec (writeFile os store path blob) v).2.files path =
        some (os.settled v.calls blob)) ∧
    (¬os.Replaces v.calls →
      (∀ u, (Fs.exec (writeFile os store path blob) v).1 ≠ .ok (.ok u)) ∧
      (Fs.exec (writeFile os store path blob) v).2.files path = v.files path) := by
  have hne := (tmpPath_ne path).symm
  cases hc : os.creates v.calls with
  | false =>
    simp [Os.Replaces, hc, writeFile, Fs.exec_bind, Fs.openTrunc]
  | true =>
    cases hw : os.writes (v.calls + 1) with
    | false =>
      simp [Os.Replaces, hc, hw, writeFile, Fs.exec_bind, Fs.exec_map, Except.map, Fs.openTrunc,
        Fs.write, Fs.close, put_other _ _ hne]
    | true =>
      cases hr : os.rename (v.calls + 3) with
      | some what =>
        simp [Os.Replaces, hc, hw, hr, writeFile, Fs.exec_bind, Fs.exec_map, Except.map,
          Fs.openTrunc, Fs.write, Fs.close, Fs.rename, put_other _ _ hne]
      | none =>
        simp [Os.Replaces, Os.settled, hc, hw, hr, writeFile, Fs.exec_bind, Fs.exec_map,
          Except.map, Fs.openTrunc, Fs.write, Fs.close, Fs.rename, put_other _ _ hne]

/-- The number of the call that opens the file, after `k` calls for the blob. -/
def openingCall (path : Bytes) (k : Nat) (v : Volume) : Nat :=
  v.calls + (if hasParentPath path then 1 else 0) + k

/-- Where a save is all or nothing: what is renamed over the target is what was to be written. -/
def Settles (os : Os) (path : Bytes) (k : Nat) (blob : Bytes) (v : Volume) : Prop :=
  (hasParentPath path = true → os.mkdir v.calls = none) →
    os.Replaces (openingCall path k v) →
    os.flushes (openingCall path k v + 2) = true ∨
      blob.length ≤ os.landed (openingCall path k v + 2)

/-- The rest of a save, once there is a directory. -/
theorem exec_makeAndWrite (os : Os) (store path : Bytes) {makeBlob : Fs Bytes} {b : Nat → Bytes}
    {k : Nat} (hblob : ∀ u, Fs.exec makeBlob u = (.ok (b u.calls), ⟨u.files, u.calls + k⟩))
    (u : Volume) :
    (os.Replaces (u.calls + k) →
      (Fs.exec (makeBlob >>= writeFile os store path) u).1 = .ok (.ok ()) ∧
      (Fs.exec (makeBlob >>= writeFile os store path) u).2.files path =
        some (os.settled (u.calls + k) (b u.calls))) ∧
    (¬os.Replaces (u.calls + k) →
      (∀ a, (Fs.exec (makeBlob >>= writeFile os store path) u).1 ≠ .ok (.ok a)) ∧
      (Fs.exec (makeBlob >>= writeFile os store path) u).2.files path = u.files path) := by
  rw [Fs.exec_bind_ok (hblob u)]
  exact exec_writeFile os store path (b u.calls) ⟨u.files, u.calls + k⟩

/-- A failing body is reported and leaves the old file. -/
theorem allOrNothing_catching {path new old : Bytes} {body : Fs (Result Unit)} {v : Volume}
    {P : Prop} [Decidable P]
    (hdone : P → (Fs.exec body v).1 = .ok (.ok ()) ∧ (Fs.exec body v).2.files path = some old)
    (hfail : ¬P → (∀ a, (Fs.exec body v).1 ≠ .ok (.ok a)) ∧
      (Fs.exec body v).2.files path = v.files path) :
    AllOrNothing path new v ((catching body ioError).run v) ↔ (P → old = new) := by
  rw [run_catching]
  by_cases hP : P
  · obtain ⟨hr, hfile⟩ := hdone hP
    simp [AllOrNothing, hr, hfile, hP, isOk]
  · obtain ⟨hr, hfile⟩ := hfail hP
    refine iff_of_true ?_ fun h => absurd h hP
    cases hx : (Fs.exec body v).1 with
    | error what => exact ⟨fun h => absurd h (by simp [ioError, isOk]), fun _ => hfile⟩
    | ok r =>
      cases r with
      | ok a => exact absurd hx (hr a)
      | error e => exact ⟨fun h => absurd h (by simp [isOk]), fun _ => hfile⟩

/-- A replacement, step by step. -/
theorem exec_replaceFile (os : Os) (store path : Bytes) (makeBlob : Fs Bytes) (v : Volume) :
    Fs.exec (replaceFile os store path makeBlob) v =
      if hasParentPath path then
        match os.mkdir v.calls with
        | some what => (.error what, ⟨v.files, v.calls + 1⟩)
        | none => Fs.exec (makeBlob >>= writeFile os store path) ⟨v.files, v.calls + 1⟩
      else Fs.exec (makeBlob >>= writeFile os store path) v := by
  rw [replaceFile]
  cases hasParentPath path with
  | false => simp
  | true =>
    simp only [if_true]
    rw [Fs.exec_bind, Fs.createDirectories, Fs.exec_call]
    cases os.mkdir v.calls <;> rfl

/-- The calls of a save by number: the directory, then `k` for the blob, then the file. -/
theorem replaceFile_allOrNothing {os : Os} {store path : Bytes} {makeBlob : Fs Bytes}
    {b : Nat → Bytes} {k : Nat}
    (hblob : ∀ u, Fs.exec makeBlob u = (.ok (b u.calls), ⟨u.files, u.calls + k⟩)) (v : Volume) :
    AllOrNothing path (b (openingCall path 0 v)) v
        ((catching (replaceFile os store path makeBlob) ioError).run v) ↔
      Settles os path k (b (openingCall path 0 v)) v := by
  have hrest := exec_makeAndWrite os store path hblob
  have hcalls : openingCall path k v = openingCall path 0 v + k := rfl
  rw [Settles, ← and_imp, ← Os.settled_eq]
  apply allOrNothing_catching
  · rintro ⟨hmkdir, hreplaces⟩
    rw [exec_replaceFile]
    cases hp : hasParentPath path with
    | false =>
      have hn : openingCall path 0 v = v.calls := by simp [openingCall, hp]
      rw [hcalls, hn] at hreplaces ⊢
      exact (hrest v).1 hreplaces
    | true =>
      have hn : openingCall path 0 v = v.calls + 1 := by simp [openingCall, hp]
      rw [hcalls, hn] at hreplaces ⊢
      simp only [if_true, hmkdir hp]
      exact (hrest ⟨v.files, v.calls + 1⟩).1 hreplaces
  · intro hnot
    rw [exec_replaceFile]
    cases hp : hasParentPath path with
    | false =>
      have hn : openingCall path 0 v = v.calls := by simp [openingCall, hp]
      rw [hcalls, hn] at hnot
      refine (hrest v).2 fun hreplaces => hnot ⟨fun h => ?_, hreplaces⟩
      exact absurd (hp.symm.trans h) (by decide)
    | true =>
      have hn : openingCall path 0 v = v.calls + 1 := by simp [openingCall, hp]
      rw [hcalls, hn] at hnot
      simp only [if_true]
      cases hm : os.mkdir v.calls with
      | some what => exact ⟨by simp, rfl⟩
      | none =>
        refine (hrest ⟨v.files, v.calls + 1⟩).2 fun hreplaces => hnot ⟨fun _ => hm, hreplaces⟩

theorem FileStore.save_allOrNothing (s : FileStore) (os : Os) (data : Bytes) (v : Volume) :
    AllOrNothing s.path data v ((s.save os data).run v) ↔ Settles os s.path 0 data v :=
  replaceFile_allOrNothing (b := fun _ => data) (k := 0) (fun _ => Fs.exec_pure _ _) v

/-- The bytes an encrypted save is to write: the nonce is drawn after the directory is made. -/
def EncryptedFileStore.image (s : EncryptedFileStore) (os : Os) (data : Bytes) (v : Volume) :
    Bytes := sealedImage s.key (os.nonce (openingCall s.path 0 v)) data

theorem EncryptedFileStore.save_allOrNothing (s : EncryptedFileStore) (os : Os) (data : Bytes)
    (v : Volume) : AllOrNothing s.path (s.image os data v) v ((s.save os data).run v) ↔
      Settles os s.path 1 (s.image os data v) v := by
  apply replaceFile_allOrNothing (b := fun n => sealedImage s.key (os.nonce n) data) (k := 1)
  intro u
  simp [Fs.exec_map, Fs.drawNonce, Except.map]

/-- A save of either store is all or nothing exactly where the close loses nothing of a file that
is then renamed. -/
theorem saves_allOrNothing (os : Os) (data : Bytes) (v : Volume) :
    (∀ s : FileStore,
      AllOrNothing s.path data v ((s.save os data).run v) ↔ Settles os s.path 0 data v) ∧
    ∀ s : EncryptedFileStore,
      AllOrNothing s.path (s.image os data v) v ((s.save os data).run v) ↔
        Settles os s.path 1 (s.image os data v) v :=
  ⟨fun s => s.save_allOrNothing os data v, fun s => s.save_allOrNothing os data v⟩

/-- A disk that is full when the buffer is flushed. -/
def fullAtClose : Os := { flushes := fun _ => false }

/-- A good file becomes an empty one, and the answer is `ok`. -/
theorem save_loses : ¬∀ (os : Os) (data : Bytes) (v : Volume),
    (∀ s : FileStore, AllOrNothing s.path data v ((s.save os data).run v)) ∧
    ∀ s : EncryptedFileStore,
      AllOrNothing s.path (s.image os data v) v ((s.save os data).run v) := by
  intro h
  let v : Volume := ⟨put (fun _ => none) (ascii "keylight") (some [1]), 0⟩
  have hsettles := ((⟨ascii "keylight"⟩ : FileStore).save_allOrNothing fullAtClose [2] v).mp
    ((h fullAtClose [2] v).1 _)
  have hfull : ¬Settles fullAtClose (ascii "keylight") 0 [2] v := by
    intro hk
    obtain hk | hk := hk (fun _ => rfl) ⟨rfl, rfl, rfl⟩
    · exact Bool.false_ne_true hk
    · exact absurd hk (by decide)
  exact hfull hsettles

end Keylight
