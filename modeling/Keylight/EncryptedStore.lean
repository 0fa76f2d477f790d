import Keylight.FileStores

/-!
# What the encrypted store reads

A file content opens to a text exactly when it is that text's sealed image under
the store's key; every other content reads as empty.
-/
namespace Keylight
open Bytes Sections ChaCha20

theorem toList_window (n : Nat) (blob : Bytes) (p : Nat) (h : p + n ≤ blob.length) :
    (window n blob p).toList = (blob.drop p).take n := by
  apply List.ext_getElem
  · rw [Vector.length_toList, List.length_take, List.length_drop]
    omega
  · intro i h₁ h₂
    have hi : p + i < blob.length := by
      rw [Vector.length_toList] at h₁
      omega
    simp [window, List.getD_eq_getElem?_getD, List.getElem?_eq_getElem hi]

theorem window_of_append {n : Nat} (front : Bytes) (v : Vector UInt8 n) (rest : Bytes) :
    window n (front ++ v.toList ++ rest) front.length = v := by
  apply Vector.toList_inj.mp
  rw [toList_window _ _ _ (by simp), List.append_assoc,
    List.drop_left' rfl, List.take_left' (by simp)]

/-- Nonce, ciphertext and tag put together again. -/
theorem parts_append (blob : Bytes) (h : 12 + 16 ≤ blob.length) :
    (window 12 blob 0).toList ++ (blob.drop 12).take (blob.length - 12 - 16) ++
      (window 16 blob (12 + (blob.length - 12 - 16))).toList = blob := by
  rw [toList_window _ _ _ (by omega), toList_window _ _ _ (by omega), List.drop_zero]
  have htag : (blob.drop (12 + (blob.length - 12 - 16))).take 16 =
      (blob.drop 12).drop (blob.length - 12 - 16) := by
    rw [List.drop_drop]
    exact List.take_of_length_le (by rw [List.length_drop]; omega)
  rw [htag, List.append_assoc, List.take_append_drop, List.take_append_drop]

theorem length_sealedImage (key : Key) (nonce : Nonce) (data : Bytes) :
    (sealedImage key nonce data).length = 12 + data.length + 16 := by
  simp [sealedImage, aeadSeal, chacha20Xor_guarded, length_chacha20Xor]
  omega

/-- Decoding undoes encoding. -/
theorem openImage_sealedImage (key : Key) (nonce : Nonce) (data : Bytes) :
    openImage key (sealedImage key nonce data) = data := by
  have hlen := length_sealedImage key nonce data
  have hct : (aeadSeal key nonce data).1.length = data.length := by
    simp [aeadSeal, chacha20Xor_guarded, length_chacha20Xor]
  have hnonce : window 12 (sealedImage key nonce data) 0 = nonce := by
    have h := window_of_append [] nonce
      ((aeadSeal key nonce data).1 ++ (aeadSeal key nonce data).2.toList)
    simpa [sealedImage] using h
  have htag : window 16 (sealedImage key nonce data) (12 + data.length) =
      (aeadSeal key nonce data).2 := by
    have h := window_of_append (nonce.toList ++ (aeadSeal key nonce data).1)
      (aeadSeal key nonce data).2 []
    simpa [sealedImage, hct] using h
  have hmid : ((sealedImage key nonce data).drop 12).take data.length =
      (aeadSeal key nonce data).1 := by
    rw [sealedImage, List.append_assoc, List.drop_left' (by simp), List.take_left' hct]
  have hctLen : (sealedImage key nonce data).length - 12 - 16 = data.length := by omega
  rw [openImage, if_neg (by omega)]
  simp only [hctLen, hnonce, htag, hmid, aeadOpen_aeadSeal]

/-- Decoding accepts nothing but images, under the nonce the content starts with. -/
theorem eq_sealedImage_of_openImage {key : Key} {blob : Bytes} (h : openImage key blob ≠ []) :
    blob = sealedImage key (window 12 blob 0) (openImage key blob) := by
  by_cases hlen : blob.length < 12 + 16
  · rw [openImage, if_pos hlen] at h
    exact absurd rfl h
  · cases ho : aeadOpen key (window 12 blob 0) ((blob.drop 12).take (blob.length - 12 - 16))
      (window 16 blob (12 + (blob.length - 12 - 16))) with
    | none =>
      simp only [openImage, if_neg hlen, ho] at h
      exact absurd rfl h
    | some out =>
      have hout : openImage key blob = out := by
        simp only [openImage, if_neg hlen, ho]
      have hseal := (aeadOpen_eq_some key _ _ _ out).mp ho
      rw [hout, sealedImage, hseal]
      exact (parts_append blob (by omega)).symm

/-- What a load depends on: `exists` does not throw and the file opens. -/
def Os.Reads (os : Os) : Prop := ∀ n, os.stat n = none ∧ os.opens n = true

namespace EncryptedFileStore
variable (s : EncryptedFileStore)

/-- A save that reports success leaves an image of its data, when closing the file loses nothing. -/
theorem save_ok {os : Os} (hflush : ∀ n, os.flushes n = true) (data : Bytes) (v : Volume)
    (h : ((s.save os data).run v).1 = .ok ()) :
    ∃ nonce, Replaced s.path (sealedImage s.key nonce data) v.files
      ((s.save os data).run v).2.files := by
  rw [save, run_catching] at h ⊢
  generalize hx : Fs.exec (replaceFile os (ascii "EncryptedFileStore") s.path (do
    let nonce ← Fs.drawNonce os
    pure (sealedImage s.key nonce data))) v = x at h ⊢
  obtain ⟨r, w⟩ := x
  cases r with
  | error what => simp [ioError] at h
  | ok r =>
    simp only at h ⊢
    subst h
    have hblob : ∀ v, ∃ b w, Fs.exec (do
        let nonce ← Fs.drawNonce os
        pure (sealedImage s.key nonce data)) v = (.ok b, w) ∧ w.files = v.files ∧
        ∃ nonce, b = sealedImage s.key nonce data := by
      intro v
      exact ⟨sealedImage s.key (os.nonce v.calls) data, ⟨v.files, v.calls + 1⟩,
        by simp [Fs.exec_map, Fs.drawNonce, Except.map], rfl, os.nonce v.calls, rfl⟩
    obtain ⟨b, ⟨nonce, rfl⟩, hdone⟩ := replaceFile_ok hblob hflush hx
    exact ⟨nonce, hdone⟩

/-- Where there is an encrypted file, nothing is imported. -/
theorem exec_legacyText (os : Os) {v : Volume} {content : Bytes}
    (h : v.files s.path = some content) :
    ∃ r w, Fs.exec (s.legacyText os) v = (r, w) ∧ w.files = v.files ∧
      (r = .ok none ∨ ∃ what, r = .error what ∧ ¬os.Reads) := by
  rw [legacyText]
  split
  · exact ⟨.ok none, v, by simp, rfl, .inl rfl⟩
  · rw [Fs.exec_bind, Fs.exists_, Fs.exec_call]
    cases hs : os.stat v.calls with
    | some what =>
      have hreads : ¬os.Reads := by
        intro hr
        simp [(hr v.calls).1] at hs
      exact ⟨.error what, _, rfl, rfl, .inr ⟨what, rfl, hreads⟩⟩
    | none => exact ⟨.ok none, ⟨v.files, v.calls + 1⟩, by simp [h], rfl, .inl rfl⟩

/-- A file that is there is opened, unless reading fails. -/
theorem exec_loadImage (os : Os) {v : Volume} {content : Bytes}
    (h : v.files s.path = some content) :
    (Fs.exec (s.loadImage os) v).1 = .ok (.ok (openImage s.key content)) ∨
      ¬os.Reads ∧ ((Fs.exec (s.loadImage os) v).1 = .ok (.ok []) ∨
        ∃ what, (Fs.exec (s.loadImage os) v).1 = .error what) := by
  rw [loadImage, Fs.exec_bind, Fs.exists_, Fs.exec_call]
  cases hs : os.stat v.calls with
  | some what =>
    right
    constructor
    · intro hr
      simp [(hr v.calls).1] at hs
    · exact .inr ⟨what, rfl⟩
  | none =>
    cases ho : os.opens (v.calls + 1) with
    | true =>
      left
      simp [h, Fs.exec_bind, Fs.readFile, ho]
    | false =>
      right
      constructor
      · intro hr
        simp [(hr (v.calls + 1)).2] at ho
      · left
        simp [h, Fs.exec_bind, Fs.readFile, ho]

/-- A load reads the file's content through `openImage`, or nothing where the system refuses. -/
theorem run_load (os : Os) {v : Volume} {content : Bytes} (h : v.files s.path = some content) :
    ((s.load os).run v).1 = .ok (openImage s.key content) ∨
      ¬os.Reads ∧ ((s.load os).run v).1 = .ok [] := by
  obtain ⟨r, w, hr, hw, hkind⟩ := s.exec_legacyText os h
  rw [load, run_catching, Fs.exec_bind, hr]
  obtain rfl | ⟨what, rfl, hno⟩ := hkind
  · rcases s.exec_loadImage os (hw ▸ h) with hread | ⟨hno, hempty | ⟨what, hthrown⟩⟩
    · left
      simp only [hread]
    · right
      simp only [hempty]
      exact ⟨hno, trivial⟩
    · right
      simp only [hthrown]
      exact ⟨hno, trivial⟩
  · exact .inr ⟨hno, rfl⟩

end EncryptedFileStore

/-- What a save left a load reads back. Of any other file a load answers a text that is not empty
only when the file is an image of it under the machine's key. -/
theorem encrypted_store (path machineId legacyPath : Bytes) :
    let s := EncryptedFileStore.forMachine path machineId legacyPath
    (∀ (os os' : Os) (v : Volume) (data : Bytes), (∀ n, os.flushes n = true) → os'.Reads →
      ((s.save os data).run v).1 = .ok () →
      ((s.load os').run ((s.save os data).run v).2).1 = .ok data) ∧
    (∀ (os : Os) (v : Volume) (content : Bytes), v.files path = some content →
      (∀ d, ((s.load os).run v).1 = .ok d → d ≠ [] →
        content = sealedImage (deriveStoreKey machineId) (window 12 content 0) d) ∧
      (os.Reads → ∀ nonce d, content = sealedImage (deriveStoreKey machineId) nonce d →
        ((s.load os).run v).1 = .ok d) ∧
      ((∀ nonce d, content ≠ sealedImage (deriveStoreKey machineId) nonce d) →
        ((s.load os).run v).1 = .ok [])) := by
  intro s
  constructor
  · intro os os' v data hflush hreads hsave
    obtain ⟨nonce, hdone⟩ := s.save_ok hflush data v hsave
    rcases s.run_load os' hdone.target with hload | ⟨hno, _⟩
    · rw [hload, openImage_sealedImage]
    · exact absurd hreads hno
  · intro os v content hcontent
    refine ⟨?_, ?_, ?_⟩
    · intro d hd hne
      rcases s.run_load os hcontent with hload | ⟨_, hload⟩
      · obtain rfl : openImage s.key content = d := by
          rw [hload] at hd
          exact Except.ok.inj hd
        exact eq_sealedImage_of_openImage hne
      · rw [hload] at hd
        exact absurd (Except.ok.inj hd).symm hne
    · intro hreads nonce d himage
      rcases s.run_load os hcontent with hload | ⟨hno, _⟩
      · rw [hload, himage]
        exact congrArg Except.ok (openImage_sealedImage _ nonce d)
      · exact absurd hreads hno
    · intro hforeign
      rcases s.run_load os hcontent with hload | ⟨_, hload⟩
      · by_cases hne : openImage s.key content = []
        · rw [hload, hne]
        · exact absurd (eq_sealedImage_of_openImage hne) (hforeign _ _)
      · exact hload

/-- A save on an empty disk, its image read back, and a truncated file. -/
theorem encrypted_store_vector :
    let s := EncryptedFileStore.forMachine (ascii "lease.bin") (ascii "machine") []
    let data := ascii "trialStart"
    let image := sealedImage (deriveStoreKey (ascii "machine")) (Vector.replicate 12 7) data
    let holding : Bytes → Volume := fun content => ⟨put (fun _ => none) s.path (some content), 0⟩
    ((s.load {}).run ((s.save {} data).run ⟨fun _ => none, 0⟩).2).1 = .ok data ∧
      ((s.load {}).run (holding image)).1 = .ok data ∧
      image = sealedImage (deriveStoreKey (ascii "machine")) (window 12 image 0) data ∧
      ((s.load {}).run (holding (image.take 20))).1 = .ok [] := by
  intro s data image holding
  have h := encrypted_store (ascii "lease.bin") (ascii "machine") []
  have hreads : ({} : Os).Reads := fun _ => ⟨rfl, rfl⟩
  have hholding : ∀ content, (holding content).files s.path = some content := by
    intro content
    simp only [holding, put_self]
  have hread := (h.2 {} (holding image) image (hholding image)).2.1 hreads (Vector.replicate 12 7)
    data rfl
  have hround := h.1 {} {} ⟨fun _ => none, 0⟩ data (fun _ => rfl) hreads rfl
  refine ⟨hround, hread, ?_, ?_⟩
  · exact (h.2 {} (holding image) image (hholding image)).1 data hread (by decide)
  · apply (h.2 {} (holding (image.take 20)) (image.take 20) (hholding _)).2.2
    intro nonce d hd
    have hlen := congrArg List.length hd
    rw [length_sealedImage, List.length_take] at hlen
    omega

end Keylight
