import Keylight.Reduction
import Mathlib.Algebra.BigOperators.Ring.Finset

/-!
# The authenticator against its polynomial

Read as a number, the tag of a message is the polynomial of its blocks at the
clamped `r`, modulo 2^130 - 5, plus `s`, modulo 2^128, however the message was
cut for `update`; and no word of the run wraps on the way.
-/
namespace Keylight.ChaCha20.Poly1305
open Bytes Words

def blocksLoopExact (r : Limbs) (hibit : UInt32) : Nat → Limbs → Bytes → Option Limbs
  | 0, h, _ => some h
  | n + 1, h, m => do
    let sum ← absorbExact h hibit m
    let h ← multiplyExact sum r
    blocksLoopExact r hibit n h (m.drop 16)

section Blocks
variable {r : Limbs} (hr : r.Below (2 ^ 26)) (hibit : UInt32)
  (hbit : hibit = 0 ∨ hibit = (1 : UInt32) <<< 24)
include hr hbit

/-- One block taken in. -/
theorem block_spec {h : Limbs} (hh : h.Carried) (m : Bytes) :
    absorbExact h hibit m = some (absorb h hibit m) ∧
      multiplyExact (absorb h hibit m) r = some (multiply (absorb h hibit m) r) ∧
      (multiply (absorb h hibit m) r).Carried ∧
      (multiply (absorb h hibit m) r).value ≡
        (h.value + (leValue (m.take 16) + 2 ^ 104 * hibit.toNat)) * r.value [MOD modulus] := by
  obtain ⟨habsorb, hbelow, hvalue⟩ := absorb_spec hh hbit m
  obtain ⟨hmultiply, hcarried, hmod⟩ := multiply_spec hbelow hr
  rw [hvalue, Nat.add_assoc] at hmod
  exact ⟨habsorb, hmultiply, hcarried, hmod⟩

theorem blocksLoop_exact (n : Nat) {h : Limbs} (hh : h.Carried) (m : Bytes) :
    blocksLoopExact r hibit n h m = some (blocksLoop r hibit n h m) ∧
      (blocksLoop r hibit n h m).Carried := by
  induction n generalizing h m with
  | zero => exact ⟨rfl, hh⟩
  | succ n ih =>
    obtain ⟨habsorb, hmultiply, hcarried, -⟩ := block_spec hr hibit hbit hh m
    obtain ⟨hrest, hlast⟩ := ih hcarried (m.drop 16)
    constructor
    · simp only [blocksLoopExact, habsorb, hmultiply, hrest, Option.bind_eq_bind,
        Option.bind_some, blocksLoop]
    · exact hlast

end Blocks

theorem blocksLoop_add (r : Limbs) (hibit : UInt32) (n k : Nat) (h : Limbs) (m : Bytes) :
    blocksLoop r hibit (n + k) h m =
      blocksLoop r hibit k (blocksLoop r hibit n h m) (m.drop (16 * n)) := by
  induction n generalizing h m with
  | zero => rw [Nat.zero_add, Nat.mul_zero, List.drop_zero, blocksLoop]
  | succ n ih =>
    have hdrop : (m.drop 16).drop (16 * n) = m.drop (16 * (n + 1)) := by
      rw [List.drop_drop, Nat.mul_succ, Nat.add_comm]
    rw [Nat.add_right_comm, blocksLoop, ih, blocksLoop, hdrop]

/-- A block is read from its sixteen bytes. -/
theorem absorb_append {m : Bytes} (hm : 16 ≤ m.length) (h : Limbs) (hibit : UInt32)
    (rest : Bytes) : absorb h hibit (m ++ rest) = absorb h hibit m := by
  have hload : ∀ p, p ≤ 12 → ccLoad32Le (m ++ rest) p = ccLoad32Le m p := by
    intro p hp
    have hbyte : ∀ i < 16, (m ++ rest).getD i 0 = m.getD i 0 := by
      intro i hi
      rw [List.getD_eq_getElem?_getD, List.getElem?_append_left (hi.trans_le hm),
        List.getD_eq_getElem?_getD]
    rw [ccLoad32Le, hbyte p (by omega), hbyte (p + 1) (by omega), hbyte (p + 2) (by omega),
      hbyte (p + 3) (by omega), ccLoad32Le]
  rw [absorb, hload 0 (by decide), hload 3 (by decide), hload 6 (by decide), hload 9 (by decide),
    hload 12 (by decide), absorb]

theorem blocksLoop_append (r : Limbs) (hibit : UInt32) {n : Nat} {m : Bytes}
    (hm : 16 * n ≤ m.length) (h : Limbs) (rest : Bytes) :
    blocksLoop r hibit n h (m ++ rest) = blocksLoop r hibit n h m := by
  induction n generalizing h m with
  | zero => rfl
  | succ n ih =>
    have hdrop : (m ++ rest).drop 16 = m.drop 16 ++ rest := List.drop_append_of_le_length (by omega)
    rw [blocksLoop, absorb_append (by omega), hdrop, ih (by rw [List.length_drop]; omega),
      blocksLoop]

/-- The state with `m` taken in: its whole blocks in `h`, the rest in the buffer. -/
def taken (p : Poly1305) (m : Bytes) : Poly1305 :=
  { p with
    h := blocksLoop p.r ((1 : UInt32) <<< 24) (m.length / 16) p.h m
    buffer := m.drop (16 * (m.length / 16)) }

theorem blocks_eq {p : Poly1305} (hp : p.final = false) (m : Bytes) :
    p.blocks m = { p with h := blocksLoop p.r ((1 : UInt32) <<< 24) (m.length / 16) p.h m } := by
  rw [blocks, hp]
  rfl

/-- Whole blocks at once are the blocks one by one. -/
theorem updateBlocks_eq {p : Poly1305} (hp : p.final = false) (m : Bytes) :
    p.updateBlocks m = p.taken m := by
  have hwant : m.length / 16 * 16 = 16 * (m.length / 16) := Nat.mul_comm _ _
  by_cases hm : 16 ≤ m.length
  · have hlen : (m.take (16 * (m.length / 16))).length = 16 * (m.length / 16) := by
      rw [List.length_take]
      omega
    have hcount : 16 * (m.length / 16) / 16 = m.length / 16 := Nat.mul_div_cancel_left _ (by decide)
    have hloop := blocksLoop_append p.r ((1 : UInt32) <<< 24) hlen.ge p.h
      (m.drop (16 * (m.length / 16)))
    rw [List.take_append_drop] at hloop
    simp only [updateBlocks, hwant, if_pos hm, blocks_eq hp, hlen, hcount, taken, hloop]
  · have hzero : m.length / 16 = 0 := by omega
    simp only [updateBlocks, if_neg hm, taken, hzero, blocksLoop]

/-- Whole blocks taken in leave nothing behind. -/
theorem taken_taken {m : Bytes} {n : Nat} (hm : m.length = 16 * n) (p : Poly1305) (rest : Bytes) :
    (p.taken m).taken rest = p.taken (m ++ rest) := by
  have hn : m.length / 16 = n := by omega
  have hcount : (m ++ rest).length / 16 = n + rest.length / 16 := by
    rw [List.length_append]
    omega
  have hdrop : (m ++ rest).drop (16 * (n + rest.length / 16)) =
      rest.drop (16 * (rest.length / 16)) := by
    rw [Nat.mul_add, ← hm, List.drop_length_add_append]
  have hloop : blocksLoop p.r ((1 : UInt32) <<< 24) (n + rest.length / 16) p.h (m ++ rest) =
      blocksLoop p.r ((1 : UInt32) <<< 24) (rest.length / 16)
        (blocksLoop p.r ((1 : UInt32) <<< 24) n p.h m) rest := by
    rw [blocksLoop_add, blocksLoop_append _ _ hm.ge, ← hm, List.drop_left]
  simp only [taken, hn, hcount, hdrop, hloop]

/-- What the buffer holds, filled up to a block. -/
theorem taken_filled {p : Poly1305} (hp : p.final = false) {m piece : Bytes}
    (hpiece : m.length % 16 + piece.length = 16) :
    { { p.taken m with buffer := (p.taken m).buffer ++ piece }.blocks
        ((p.taken m).buffer ++ piece) with buffer := [] } = p.taken (m ++ piece) := by
  have hfull : ((p.taken m).buffer ++ piece).length / 16 = 1 := by
    rw [List.length_append, taken, List.length_drop]
    omega
  have hblocks := blocks_eq (p := { p.taken m with buffer := (p.taken m).buffer ++ piece }) hp
    ((p.taken m).buffer ++ piece)
  have hcount : (m ++ piece).length / 16 = m.length / 16 + 1 := by
    rw [List.length_append]
    omega
  have hloop : blocksLoop p.r ((1 : UInt32) <<< 24) (m.length / 16 + 1) p.h (m ++ piece) =
      blocksLoop p.r ((1 : UInt32) <<< 24) 1
        (blocksLoop p.r ((1 : UInt32) <<< 24) (m.length / 16) p.h m)
        (m.drop (16 * (m.length / 16)) ++ piece) := by
    rw [blocksLoop_add, blocksLoop_append _ _ (by omega),
      List.drop_append_of_le_length (by omega)]
  have hempty : (m ++ piece).drop (16 * (m.length / 16 + 1)) = [] := by
    apply List.drop_of_length_le
    rw [List.length_append]
    omega
  rw [hblocks, hfull]
  simp only [taken, hcount, hloop, hempty]

/-- A piece too short to fill the buffer. -/
theorem taken_short {m piece : Bytes} (hpiece : m.length % 16 + piece.length < 16)
    (p : Poly1305) : { p.taken m with buffer := (p.taken m).buffer ++ piece } =
      p.taken (m ++ piece) := by
  have hcount : (m ++ piece).length / 16 = m.length / 16 := by
    rw [List.length_append]
    omega
  have hloop := blocksLoop_append p.r ((1 : UInt32) <<< 24)
    (show 16 * (m.length / 16) ≤ m.length by omega) p.h piece
  have hdrop : (m ++ piece).drop (16 * (m.length / 16)) =
      m.drop (16 * (m.length / 16)) ++ piece := List.drop_append_of_le_length (by omega)
  simp only [taken, hcount, hloop, hdrop]

/-- What is fed in pieces is fed as one text. -/
theorem update_taken {p : Poly1305} (hp : p.final = false) (m c : Bytes) :
    (p.taken m).update c = p.taken (m ++ c) := by
  have hbuffer : (p.taken m).buffer.length = m.length % 16 := by
    rw [taken, List.length_drop]
    omega
  have hfinal : (p.taken m).final = false := hp
  rw [update, hbuffer]
  by_cases hempty : m.length % 16 = 0
  · rw [if_neg (by simpa using hempty), updateBlocks_eq hfinal]
    exact taken_taken (n := m.length / 16) (by omega) p c
  · -- the buffer is filled first, as far as the piece goes
    rw [if_pos hempty]
    simp only [List.length_append, hbuffer, List.length_take]
    by_cases hshort : m.length % 16 + min (min (16 - m.length % 16) c.length) c.length < 16
    · have hwant : min (16 - m.length % 16) c.length = c.length := by omega
      rw [if_pos hshort, hwant, List.take_length]
      exact taken_short (by omega) p
    · have hwant : min (16 - m.length % 16) c.length = 16 - m.length % 16 := by omega
      have hpiece : m.length % 16 + (c.take (16 - m.length % 16)).length = 16 := by
        rw [List.length_take]
        omega
      have hwhole : (m ++ c.take (16 - m.length % 16)).length = 16 * (m.length / 16 + 1) := by
        rw [List.length_append]
        omega
      rw [if_neg hshort, hwant, taken_filled hp hpiece,
        updateBlocks_eq (p := p.taken (m ++ c.take (16 - m.length % 16))) hp, taken_taken hwhole,
        List.append_assoc, List.take_append_drop]

theorem foldl_update {p : Poly1305} (hp : p.final = false) (chunks : List Bytes) (m : Bytes) :
    chunks.foldl update (p.taken m) = p.taken (m ++ chunks.flatten) := by
  induction chunks generalizing m with
  | nil => rw [List.foldl_nil, List.flatten_nil, List.append_nil]
  | cons c chunks ih =>
    rw [List.foldl_cons, update_taken hp, ih, List.flatten_cons, List.append_assoc]

/-- The bounds that hold between two calls. -/
structure Sound (p : Poly1305) : Prop where
  r : p.r.Below (2 ^ 26)
  h : p.h.Carried

theorem carried_zero : Limbs.Carried ⟨0, 0, 0, 0, 0⟩ :=
  ⟨by decide, by decide, by decide, by decide, by decide⟩

theorem sound_init (key : Bytes) : (init key).Sound :=
  ⟨(init_r key).1, carried_zero⟩

def blocksExact (p : Poly1305) (m : Bytes) : Option Poly1305 := do
  let hibit : UInt32 := if p.final then 0 else (1 : UInt32) <<< 24
  let h ← blocksLoopExact p.r hibit (m.length / 16) p.h m
  return { p with h := h }

def updateBlocksExact (p : Poly1305) (m : Bytes) : Option Poly1305 := do
  let want := m.length / 16 * 16
  let p ← if 16 ≤ m.length then p.blocksExact (m.take want) else some p
  return { p with buffer := m.drop want }

def updateExact (p : Poly1305) (m : Bytes) : Option Poly1305 :=
  if p.buffer.length ≠ 0 then
    let want := min (16 - p.buffer.length) m.length
    let p := { p with buffer := p.buffer ++ m.take want }
    if p.buffer.length < 16 then some p
    else do
      let full ← p.blocksExact p.buffer
      updateBlocksExact { full with buffer := [] } (m.drop want)
  else updateBlocksExact p m

/-- The rest of the message with a one behind it, when there is any. -/
def lastBlock (p : Poly1305) : Poly1305 :=
  if p.buffer.length ≠ 0 then
    { p with final := true }.blocks
      (p.buffer ++ [1] ++ List.replicate (15 - p.buffer.length) 0)
  else p

def lastBlockExact (p : Poly1305) : Option Poly1305 :=
  if p.buffer.length ≠ 0 then
    { p with final := true }.blocksExact
      (p.buffer ++ [1] ++ List.replicate (15 - p.buffer.length) 0)
  else some p

def finishExact (p : Poly1305) : Option Tag := do
  let p ← p.lastBlockExact
  let h ← carryExact p.h
  let h ← reduceExact h
  addPadExact h p.pad

theorem blocks_exact {p : Poly1305} (hp : p.Sound) (m : Bytes) :
    p.blocksExact m = some (p.blocks m) ∧ (p.blocks m).Sound := by
  have hbit : (if p.final then (0 : UInt32) else (1 : UInt32) <<< 24) = 0 ∨
      (if p.final then (0 : UInt32) else (1 : UInt32) <<< 24) = (1 : UInt32) <<< 24 := by
    split
    · exact .inl rfl
    · exact .inr rfl
  obtain ⟨hloop, hcarried⟩ := blocksLoop_exact hp.r _ hbit (m.length / 16) hp.h m
  constructor
  · simp only [blocksExact, hloop, Option.bind_eq_bind, Option.bind_some]
    rfl
  · exact ⟨hp.r, hcarried⟩

theorem updateBlocks_exact {p : Poly1305} (hp : p.Sound) (m : Bytes) :
    p.updateBlocksExact m = some (p.updateBlocks m) ∧ (p.updateBlocks m).Sound := by
  by_cases hm : 16 ≤ m.length
  · obtain ⟨hblocks, hsound⟩ := blocks_exact hp (m.take (m.length / 16 * 16))
    simp only [updateBlocksExact, updateBlocks, if_pos hm, hblocks, Option.bind_eq_bind,
      Option.bind_some]
    exact ⟨rfl, hsound.r, hsound.h⟩
  · simp only [updateBlocksExact, updateBlocks, if_neg hm, Option.bind_eq_bind, Option.bind_some]
    exact ⟨rfl, hp.r, hp.h⟩

/-- No addition or product of an update wraps. -/
theorem update_exact {p : Poly1305} (hp : p.Sound) (m : Bytes) :
    p.updateExact m = some (p.update m) ∧ (p.update m).Sound := by
  by_cases hempty : p.buffer.length ≠ 0
  · simp only [updateExact, update, if_pos hempty]
    by_cases hshort : (p.buffer ++ m.take (min (16 - p.buffer.length) m.length)).length < 16
    · rw [if_pos hshort, if_pos hshort]
      exact ⟨rfl, hp.r, hp.h⟩
    · obtain ⟨hblocks, hfull⟩ := blocks_exact
        (p := { p with buffer := p.buffer ++ m.take (min (16 - p.buffer.length) m.length) })
        ⟨hp.r, hp.h⟩ (p.buffer ++ m.take (min (16 - p.buffer.length) m.length))
      rw [if_neg hshort, if_neg hshort, hblocks]
      generalize blocks { p with
        buffer := p.buffer ++ m.take (min (16 - p.buffer.length) m.length) } _ = full at hfull ⊢
      exact updateBlocks_exact (p := { full with buffer := [] }) ⟨hfull.r, hfull.h⟩ _
  · simp only [updateExact, update, if_neg hempty]
    exact updateBlocks_exact hp m

theorem foldl_exact {p : Poly1305} (hp : p.Sound) (chunks : List Bytes) :
    chunks.foldlM updateExact p = some (chunks.foldl update p) ∧
      (chunks.foldl update p).Sound := by
  induction chunks generalizing p with
  | nil => exact ⟨rfl, hp⟩
  | cons c chunks ih =>
    obtain ⟨hupdate, hsound⟩ := update_exact hp c
    rw [List.foldlM_cons, hupdate, Option.bind_eq_bind, Option.bind_some, List.foldl_cons]
    exact ih hsound

theorem lastBlock_exact {p : Poly1305} (hp : p.Sound) :
    p.lastBlockExact = some p.lastBlock ∧ p.lastBlock.Sound := by
  by_cases hempty : p.buffer.length ≠ 0
  · rw [lastBlockExact, if_pos hempty, lastBlock, if_pos hempty]
    exact blocks_exact (p := { p with final := true }) ⟨hp.r, hp.h⟩ _
  · rw [lastBlockExact, if_neg hempty, lastBlock, if_neg hempty]
    exact ⟨rfl, hp⟩

/-- The tag is the accumulator, reduced, plus the pad. -/
theorem finish_spec {p : Poly1305} (hp : p.Sound) : p.finishExact = some p.finish ∧
    leValue p.finish.toList =
      (p.lastBlock.h.value % modulus + padValue p.lastBlock.pad) % 2 ^ 128 := by
  obtain ⟨hlast, hsound⟩ := lastBlock_exact hp
  obtain ⟨hcarry, hbelow, k, hk⟩ := carry_spec hsound.h
  obtain ⟨hreduce, hsmall, hvalue⟩ := reduce_spec hbelow
  obtain ⟨hpad, htag⟩ := addPad_spec hsmall p.lastBlock.pad
  have hmod : (carry p.lastBlock.h).value % modulus = p.lastBlock.h.value % modulus := by
    rw [hk, Nat.add_mul_mod_self_left]
  have hfinish : p.finish = addPad (reduce (carry p.lastBlock.h)) p.lastBlock.pad := rfl
  constructor
  · rw [finishExact, hlast]
    simp only [Option.bind_eq_bind, Option.bind_some, hcarry, hreduce, hpad, hfinish]
  · rw [hfinish, htag, hvalue, hmod]

/-- Block `i` with a one behind its last byte. -/
def blockValue (m : Bytes) (i : Nat) : Nat :=
  let block := (m.drop (16 * i)).take 16
  leValue block + 256 ^ block.length

/-- The first `n` blocks at `r`, the first of them at its highest power. -/
def polynomial (r : Nat) (m : Bytes) (n : Nat) : Nat :=
  ∑ i ∈ Finset.range n, blockValue m i * r ^ (n - i)

theorem polynomial_succ (r : Nat) (m : Bytes) (n : Nat) :
    polynomial r m (n + 1) = (polynomial r m n + blockValue m n) * r := by
  have hshift : ∀ i ∈ Finset.range n,
      blockValue m i * r ^ (n + 1 - i) = blockValue m i * r ^ (n - i) * r := by
    intro i hi
    have hle : i ≤ n := (Finset.mem_range.mp hi).le
    rw [Nat.succ_sub hle, Nat.pow_succ, Nat.mul_assoc]
  rw [polynomial, Finset.sum_range_succ, Finset.sum_congr rfl hshift, ← Finset.sum_mul,
    Nat.add_sub_cancel_left, Nat.pow_one, ← Nat.add_mul, polynomial]

theorem blockValue_whole {m : Bytes} {n : Nat} (hm : 16 * (n + 1) ≤ m.length) :
    blockValue m n = leValue ((m.drop (16 * n)).take 16) + 2 ^ 104 * 2 ^ 24 := by
  have hlen : ((m.drop (16 * n)).take 16).length = 16 := by
    rw [List.length_take, List.length_drop]
    omega
  have hbit : 256 ^ 16 = 2 ^ 104 * 2 ^ 24 := by decide
  rw [blockValue, hlen, hbit]

/-- The loop is the Horner scheme of the polynomial over its blocks. -/
theorem blocksLoop_value {r : Limbs} (hr : r.Below (2 ^ 26)) {m : Bytes} {n : Nat}
    (hm : 16 * n ≤ m.length) :
    (blocksLoop r ((1 : UInt32) <<< 24) n ⟨0, 0, 0, 0, 0⟩ m).value ≡
      polynomial r.value m n [MOD modulus] := by
  induction n with
  | zero => rfl
  | succ n ih =>
    have hlast : blocksLoop r ((1 : UInt32) <<< 24) (n + 1) ⟨0, 0, 0, 0, 0⟩ m =
        multiply (absorb (blocksLoop r ((1 : UInt32) <<< 24) n ⟨0, 0, 0, 0, 0⟩ m)
          ((1 : UInt32) <<< 24) (m.drop (16 * n))) r := blocksLoop_add r _ n 1 _ m
    obtain ⟨-, hcarried⟩ :=
      blocksLoop_exact hr ((1 : UInt32) <<< 24) (.inr rfl) n carried_zero m
    obtain ⟨-, -, -, hmod⟩ := block_spec hr ((1 : UInt32) <<< 24) (.inr rfl) hcarried
      (m.drop (16 * n))
    have hbit : ((1 : UInt32) <<< 24).toNat = 2 ^ 24 := by decide
    rw [hbit, ← blockValue_whole hm] at hmod
    rw [hlast, polynomial_succ]
    exact hmod.trans ((Nat.ModEq.add_right _ (ih (by omega))).mul_right _)

theorem leValue_lastBlock (rest : Bytes) (k : Nat) :
    leValue (rest ++ [1] ++ List.replicate k 0) = leValue rest + 256 ^ rest.length := by
  have hone : leValue [1] = 1 := rfl
  rw [leValue_append, leValue_append, leValue_zeros, hone, Nat.mul_one, Nat.mul_zero, Nat.add_zero]

/-- The state with the whole message taken in and its last block closed. -/
theorem lastBlock_value (key m : Bytes) : ((init key).taken m).lastBlock.h.value ≡
    polynomial (init key).r.value m ((m.length + 15) / 16) [MOD modulus] := by
  obtain ⟨hr, -⟩ := init_r key
  have hwhole : ((init key).taken m).h.value ≡
      polynomial (init key).r.value m (m.length / 16) [MOD modulus] :=
    blocksLoop_value hr (by omega)
  have hbuffer : ((init key).taken m).buffer.length = m.length % 16 := by
    rw [taken, List.length_drop]
    omega
  by_cases hempty : m.length % 16 = 0
  · have hcount : (m.length + 15) / 16 = m.length / 16 := by omega
    rw [lastBlock, hbuffer, if_neg (by simpa using hempty), hcount]
    exact hwhole
  · have hcount : (m.length + 15) / 16 = m.length / 16 + 1 := by omega
    have hrest : (m.drop (16 * (m.length / 16))).take 16 = m.drop (16 * (m.length / 16)) := by
      apply List.take_of_length_le
      rw [List.length_drop]
      omega
    have hlen : (((init key).taken m).buffer ++ [1] ++
        List.replicate (15 - m.length % 16) 0).length = 16 := by
      rw [List.length_append, List.length_append, hbuffer, List.length_replicate]
      change m.length % 16 + 1 + (15 - m.length % 16) = 16
      omega
    have hlast : ((init key).taken m).lastBlock.h = multiply (absorb ((init key).taken m).h 0
        (((init key).taken m).buffer ++ [1] ++ List.replicate (15 - m.length % 16) 0))
        (init key).r := by
      rw [lastBlock, hbuffer, if_pos hempty]
      change blocksLoop _ 0 (List.length _ / 16) _ _ = _
      rw [hlen]
      rfl
    obtain ⟨-, hcarried⟩ := blocksLoop_exact hr ((1 : UInt32) <<< 24) (.inr rfl)
      (m.length / 16) carried_zero m
    obtain ⟨-, -, -, hmod⟩ := block_spec hr 0 (.inl rfl) hcarried
      (((init key).taken m).buffer ++ [1] ++ List.replicate (15 - m.length % 16) 0)
    have hzero : (0 : UInt32).toNat = 0 := rfl
    have hblock : leValue ((((init key).taken m).buffer ++ [1] ++
        List.replicate (15 - m.length % 16) 0).take 16) = blockValue m (m.length / 16) := by
      rw [List.take_of_length_le hlen.le, leValue_lastBlock, blockValue, hrest]
      rfl
    rw [hzero, Nat.mul_zero, Nat.add_zero, hblock] at hmod
    rw [hlast, hcount, polynomial_succ]
    exact hmod.trans ((Nat.ModEq.add_right _ hwhole).mul_right _)

/-- `init`, an `update` for each piece of the message, then `finish`. -/
def mac (key : Key) (chunks : List Bytes) : Tag :=
  (chunks.foldl update (init key.toList)).finish

def macExact (key : Key) (chunks : List Bytes) : Option Tag := do
  let p ← chunks.foldlM updateExact (init key.toList)
  p.finishExact

def clamp (r : Nat) : Nat := r &&& clampMask

theorem foldl_init (key : Bytes) (chunks : List Bytes) :
    chunks.foldl update (init key) = (init key).taken chunks.flatten :=
  foldl_update (p := init key) rfl chunks []

/-- The tag of a message, however it is cut, and no word wraps on the way to it. -/
theorem mac_polynomial (key : Key) (chunks : List Bytes) :
    macExact key chunks = some (mac key chunks) ∧
      leValue (mac key chunks).toList =
        (polynomial (clamp (leValue (key.toList.take 16))) chunks.flatten
            ((chunks.flatten.length + 15) / 16) % modulus +
          leValue (key.toList.drop 16)) % 2 ^ 128 := by
  obtain ⟨hfold, hsound⟩ := foldl_exact (sound_init key.toList) chunks
  obtain ⟨hfinish, htag⟩ := finish_spec hsound
  obtain ⟨-, hr⟩ := init_r key.toList
  have hclamp : clamp (leValue (key.toList.take 16)) = (init key.toList).r.value := by
    have hmask : clampMask < 2 ^ 128 := by decide
    have hpow : 256 ^ 16 = 2 ^ 128 := by decide
    rw [clamp, leValue_take, hpow, mod_and hmask, hr]
  have hpad : ((init key.toList).taken chunks.flatten).lastBlock.pad = (init key.toList).pad := by
    rw [lastBlock]
    split <;> rfl
  have hs : leValue (key.toList.drop 16) % 2 ^ 128 = leValue (key.toList.drop 16) := by
    apply Nat.mod_eq_of_lt
    have hlt := leValue_lt (key.toList.drop 16)
    rw [List.length_drop, Vector.length_toList] at hlt
    exact hlt.trans_eq (by decide)
  have hvalue : _ % modulus = _ % modulus := lastBlock_value key.toList chunks.flatten
  constructor
  · rw [macExact, hfold, Option.bind_eq_bind, Option.bind_some, hfinish, mac]
  · rw [mac, htag, foldl_init, hpad, init_pad, hs, hvalue, hclamp]

end Keylight.ChaCha20.Poly1305
