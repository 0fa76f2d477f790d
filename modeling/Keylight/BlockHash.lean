import Mathlib.Data.List.Induction

/-!
# Block hashes

A hash that cuts its input into blocks of one size and folds a compression
function over them. Input may come in pieces: what does not fill a block is
held until the next piece, and a feed of pieces folds over the same blocks as
the whole input.
-/
namespace BlockHash

variable {α σ : Type}

/-- The first `k` blocks of `n` symbols. -/
def blocks (n : Nat) : Nat → List α → List (List α)
  | 0, _ => []
  | k + 1, xs => xs.take n :: blocks n k (xs.drop n)

/-- The blocks an input fills. -/
def filled (n : Nat) (xs : List α) : List (List α) := blocks n (xs.length / n) xs

/-- The symbols after the last full block. -/
def rest (n : Nat) (xs : List α) : List α := xs.drop (n * (xs.length / n))

theorem blocks_flatten (n : Nat) (k : Nat) (xs : List α) :
    (blocks n k xs).flatten = xs.take (n * k) := by
  induction k generalizing xs with
  | zero => simp [blocks]
  | succ k ih =>
    rw [blocks, List.flatten_cons, ih, Nat.mul_succ, Nat.add_comm, List.take_add]

theorem filled_append_rest (n : Nat) (xs : List α) :
    (filled n xs).flatten ++ rest n xs = xs := by
  rw [filled, blocks_flatten, rest, List.take_append_drop]

@[simp] theorem filled_nil (n : Nat) : filled n ([] : List α) = [] := by
  rw [filled, List.length_nil, Nat.zero_div, blocks]

@[simp] theorem rest_nil (n : Nat) : rest n ([] : List α) = [] := List.drop_nil

theorem filled_of_lt {n : Nat} {xs : List α} (h : xs.length < n) : filled n xs = [] := by
  rw [filled, Nat.div_eq_of_lt h, blocks]

theorem rest_of_lt {n : Nat} {xs : List α} (h : xs.length < n) : rest n xs = xs := by
  rw [rest, Nat.div_eq_of_lt h, Nat.mul_zero, List.drop_zero]

theorem rest_length (n : Nat) (xs : List α) : (rest n xs).length = xs.length % n := by
  have hdiv := Nat.mod_add_div xs.length n
  rw [rest, List.length_drop]
  omega

theorem length_of_mem_blocks {n k : Nat} {xs : List α} (h : n * k ≤ xs.length) :
    ∀ b ∈ blocks n k xs, b.length = n := by
  induction k generalizing xs with
  | zero => simp [blocks]
  | succ k ih =>
    intro b hb
    rw [Nat.mul_succ] at h
    rcases List.mem_cons.mp hb with rfl | hb
    · rw [List.length_take]
      omega
    · exact ih (by rw [List.length_drop]; omega) b hb

theorem length_of_mem_filled {n : Nat} {xs : List α} {b : List α} (h : b ∈ filled n xs) :
    b.length = n :=
  length_of_mem_blocks (Nat.mul_div_le _ _) b h

/-- A block in front is the first one cut off. -/
theorem filled_block_append {n : Nat} (hn : 0 < n) {b : List α} (hb : b.length = n)
    (xs : List α) : filled n (b ++ xs) = b :: filled n xs := by
  have hdiv : (b ++ xs).length / n = xs.length / n + 1 := by
    rw [List.length_append, hb, Nat.add_comm, Nat.add_div_right _ hn]
  rw [filled, hdiv, blocks, ← hb, List.take_left, List.drop_left]
  rfl

theorem rest_block_append {n : Nat} (hn : 0 < n) {b : List α} (hb : b.length = n)
    (xs : List α) : rest n (b ++ xs) = rest n xs := by
  have hdiv : (b ++ xs).length / n = xs.length / n + 1 := by
    rw [List.length_append, hb, Nat.add_comm, Nat.add_div_right _ hn]
  rw [rest, hdiv, Nat.mul_succ, Nat.add_comm, ← List.drop_drop]
  congr 1
  rw [← hb, List.drop_left]

/-- Full blocks in front are cut off first. -/
theorem filled_blocks_append {n : Nat} (hn : 0 < n) {bs : List (List α)}
    (hb : ∀ b ∈ bs, b.length = n) (xs : List α) :
    filled n (bs.flatten ++ xs) = bs ++ filled n xs ∧ rest n (bs.flatten ++ xs) = rest n xs := by
  induction bs with
  | nil => exact ⟨rfl, rfl⟩
  | cons b bs ih =>
    obtain ⟨hfilled, hrest⟩ := ih fun c hc => hb c (List.mem_cons_of_mem _ hc)
    have hlen := hb b List.mem_cons_self
    rw [List.flatten_cons, List.append_assoc]
    constructor
    · rw [filled_block_append hn hlen, hfilled, List.cons_append]
    · rw [rest_block_append hn hlen, hrest]

/-- What follows an input is cut together with what the input left over. -/
theorem filled_append {n : Nat} (hn : 0 < n) (xs ys : List α) :
    filled n (xs ++ ys) = filled n xs ++ filled n (rest n xs ++ ys) ∧
      rest n (xs ++ ys) = rest n (rest n xs ++ ys) := by
  have hsplit : xs ++ ys = (filled n xs).flatten ++ (rest n xs ++ ys) := by
    rw [← List.append_assoc, filled_append_rest]
  rw [hsplit]
  exact filled_blocks_append hn (fun _ => length_of_mem_filled) _

/-- An input of whole blocks is cut into them and leaves nothing. -/
theorem flatten_filled {n : Nat} {xs : List α} (h : n ∣ xs.length) :
    (filled n xs).flatten = xs := by
  have hrest : rest n xs = [] := by
    rw [← List.length_eq_zero_iff, rest_length]
    exact Nat.mod_eq_zero_of_dvd h
  have hsplit := filled_append_rest n xs
  rwa [hrest, List.append_nil] at hsplit

/-- The chaining value so far and the symbols of the block begun, after `xs`. -/
structure Fed (f : σ → List α → σ) (n : Nat) (init : σ) (xs : List α) (chain : σ)
    (held : List α) : Prop where
  chain : chain = (filled n xs).foldl f init
  held : held = rest n xs

namespace Fed
variable {f : σ → List α → σ} {n : Nat} {init chain : σ} {xs ys held : List α}

theorem nil (f : σ → List α → σ) (n : Nat) (init : σ) : Fed f n init [] init [] := by
  constructor
  · rw [filled_nil, List.foldl_nil]
  · rw [rest_nil]

theorem held_lt (h : Fed f n init xs chain held) (hn : 0 < n) : held.length < n := by
  rw [h.held, rest_length]
  exact Nat.mod_lt _ hn

/-- A piece that does not fill the block is held. -/
theorem hold (h : Fed f n init xs chain held) (hlt : (held ++ ys).length < n) :
    Fed f n init (xs ++ ys) chain (held ++ ys) := by
  obtain ⟨hfilled, hrest⟩ := filled_append (Nat.zero_lt_of_lt hlt) xs ys
  rw [← h.held] at hfilled hrest
  constructor
  · rw [hfilled, filled_of_lt hlt, List.append_nil, h.chain]
  · rw [hrest, rest_of_lt hlt]

/-- A piece that fills the block is compressed with what was held. -/
theorem fill (h : Fed f n init xs chain held) (hn : 0 < n) (heq : (held ++ ys).length = n) :
    Fed f n init (xs ++ ys) (f chain (held ++ ys)) [] := by
  obtain ⟨hfilled, hrest⟩ := filled_append hn xs ys
  have hone := filled_block_append hn heq []
  have hnone := rest_block_append hn heq []
  rw [List.append_nil, filled_nil] at hone
  rw [List.append_nil, rest_nil] at hnone
  rw [← h.held] at hfilled hrest
  constructor
  · rw [hfilled, hone, List.foldl_append, ← h.chain, List.foldl_cons, List.foldl_nil]
  · rw [hrest, hnone]

end Fed

/-- Padding that ends a message with a marker, as few fillers as complete a block,
and its length in `width` symbols. -/
structure Padding (α : Type) where
  size : Nat
  width : Nat
  marker : α
  filler : α
  length : Nat → List α
  width_lt : width < size
  length_length : ∀ k, (length k).length = width

namespace Padding
variable (P : Padding α) {f : σ → List α → σ} {init chain : σ} {xs ys held : List α}

def fillers (len : Nat) : Nat := (P.size - (len + 1 + P.width) % P.size) % P.size

def pad (xs : List α) : List α :=
  xs ++ P.marker :: List.replicate (P.fillers xs.length) P.filler ++ P.length xs.length

theorem size_pos : 0 < P.size := Nat.zero_lt_of_lt P.width_lt

theorem pad_length (xs : List α) :
    (P.pad xs).length = xs.length + 1 + P.fillers xs.length + P.width := by
  simp only [pad, List.length_append, List.length_cons, List.length_replicate, P.length_length]
  omega

theorem size_dvd_pad (xs : List α) : P.size ∣ (P.pad xs).length := by
  have hdiv := Nat.mod_add_div (xs.length + 1 + P.width) P.size
  have hlt := Nat.mod_lt (xs.length + 1 + P.width) P.size_pos
  rw [pad_length, fillers]
  by_cases hzero : (xs.length + 1 + P.width) % P.size = 0
  · rw [hzero, Nat.sub_zero, Nat.mod_self, Nat.add_zero]
    exact Nat.dvd_of_mod_eq_zero hzero
  · rw [Nat.mod_eq_of_lt (by omega)]
    refine ⟨(xs.length + 1 + P.width) / P.size + 1, ?_⟩
    rw [Nat.mul_succ]
    omega

/-- The fillers of a message that leaves `held` symbols over. -/
theorem fillers_eq (len : Nat) :
    P.fillers len = if len % P.size + 1 + P.width ≤ P.size
      then P.size - P.width - (len % P.size + 1)
      else P.size - (len % P.size + 1) + (P.size - P.width) := by
  have hwidth := P.width_lt
  have hlt := Nat.mod_lt len P.size_pos
  have hmod : (len + 1 + P.width) % P.size = (len % P.size + 1 + P.width) % P.size := by
    rw [Nat.add_assoc, Nat.add_assoc, Nat.mod_add_mod]
  rw [fillers, hmod]
  generalize len % P.size = r at hlt
  by_cases hfit : r + 1 + P.width ≤ P.size
  · rw [if_pos hfit]
    rcases Nat.eq_or_lt_of_le hfit with heq | hless
    · rw [heq, Nat.mod_self, Nat.sub_zero, Nat.mod_self]
      omega
    · rw [Nat.mod_eq_of_lt hless, Nat.mod_eq_of_lt (by omega)]
      omega
  · have hwrap : (r + 1 + P.width) % P.size = r + 1 + P.width - P.size := by
      rw [Nat.mod_eq_sub_mod (by omega), Nat.mod_eq_of_lt (by omega)]
    rw [if_neg hfit, hwrap, Nat.mod_eq_of_lt (by omega)]
    omega

/-- The chaining value of the padded message. -/
def hash (f : σ → List α → σ) (init : σ) (xs : List α) : σ :=
  (filled P.size (P.pad xs)).foldl f init

variable {P} in
theorem hash_of_fed (h : Fed f P.size init (P.pad xs) chain held) :
    P.hash f init xs = chain := h.chain.symm

/-- The length fits beside what was held. -/
theorem hash_one_block (h : Fed f P.size init xs chain held)
    (hfit : held.length + 1 + P.width ≤ P.size) :
    P.hash f init xs = f chain (held ++ P.marker ::
      List.replicate (P.size - P.width - (held.length + 1)) P.filler ++ P.length xs.length) := by
  have hlen : held.length = xs.length % P.size := by rw [h.held, rest_length]
  have hfillers := P.fillers_eq xs.length
  rw [← hlen, if_pos hfit] at hfillers
  have hpad : P.pad xs = xs ++ (P.marker ::
      List.replicate (P.size - P.width - (held.length + 1)) P.filler ++ P.length xs.length) := by
    rw [pad, hfillers, List.append_assoc]
  apply hash_of_fed
  rw [hpad, List.append_assoc held]
  apply h.fill P.size_pos
  simp only [List.length_append, List.length_cons, List.length_replicate, P.length_length]
  omega

/-- The length goes in a block of its own. -/
theorem hash_two_blocks (h : Fed f P.size init xs chain held)
    (hfull : P.size < held.length + 1 + P.width) :
    P.hash f init xs =
      f (f chain (held ++ P.marker :: List.replicate (P.size - (held.length + 1)) P.filler))
        (List.replicate (P.size - P.width) P.filler ++ P.length xs.length) := by
  have hlen : held.length = xs.length % P.size := by rw [h.held, rest_length]
  have hheld := h.held_lt P.size_pos
  have hwidth := P.width_lt
  have hfillers := P.fillers_eq xs.length
  rw [← hlen, if_neg (by omega)] at hfillers
  have hpad : P.pad xs = xs ++
      P.marker :: List.replicate (P.size - (held.length + 1)) P.filler ++
      (List.replicate (P.size - P.width) P.filler ++ P.length xs.length) := by
    rw [pad, hfillers, ← List.replicate_append_replicate]
    simp only [List.append_assoc, List.cons_append]
  apply hash_of_fed
  rw [hpad]
  have hlength : (held ++ P.marker ::
      List.replicate (P.size - (held.length + 1)) P.filler).length = P.size := by
    simp only [List.length_append, List.length_cons, List.length_replicate]
    omega
  have hfirst := h.fill P.size_pos hlength
  apply hfirst.fill P.size_pos
  simp only [List.nil_append, List.length_append, List.length_replicate, P.length_length]
  omega

/-- Two padded messages neither of which is the end of the other, unless they are equal. -/
theorem eq_of_pad_suffix (h : P.pad xs <:+ P.pad ys)
    (hlength : P.length xs.length = P.length ys.length → xs.length = ys.length) : xs = ys := by
  have hend : ∀ zs, P.length zs.length <:+ P.pad zs := fun zs =>
    List.suffix_append _ _
  have hlen : xs.length = ys.length := by
    apply hlength
    have hsuffix := List.suffix_of_suffix_length_le ((hend xs).trans h) (hend ys)
      (Nat.le_of_eq (by rw [P.length_length, P.length_length]))
    exact hsuffix.eq_of_length (by rw [P.length_length, P.length_length])
  have hpad : P.pad xs = P.pad ys := by
    apply h.eq_of_length
    rw [P.pad_length, P.pad_length, hlen]
  rw [pad, pad, List.append_assoc, List.append_assoc] at hpad
  exact (List.append_inj hpad hlen).1

end Padding

/-- The two runs end in the same blocks, before which two different inputs of the
compression function gave one value. -/
def Merge (f : σ → List α → σ) (init : σ) (bs cs : List (List α)) : Prop :=
  ∃ bs' b cs' c common, bs = bs' ++ b :: common ∧ cs = cs' ++ c :: common ∧
    (bs'.foldl f init, b) ≠ (cs'.foldl f init, c) ∧
    f (bs'.foldl f init) b = f (cs'.foldl f init) c

theorem Merge.foldl_eq {f : σ → List α → σ} {init : σ} {bs cs : List (List α)}
    (h : Merge f init bs cs) : bs.foldl f init = cs.foldl f init := by
  obtain ⟨bs', b, cs', c, common, rfl, rfl, -, heq⟩ := h
  rw [List.foldl_append, List.foldl_append, List.foldl_cons, List.foldl_cons, heq]

theorem suffix_snoc {β : Type} {xs ys : List β} (h : xs <:+ ys) (b : β) :
    xs ++ [b] <:+ ys ++ [b] := by
  obtain ⟨t, rfl⟩ := h
  exact ⟨t, (List.append_assoc t xs [b]).symm⟩

/-- Two runs that end in one value merge, unless one is the end of the other. -/
theorem merge_of_foldl_eq {f : σ → List α → σ} {init : σ} {bs cs : List (List α)}
    (heq : bs.foldl f init = cs.foldl f init) (hb : ¬ bs <:+ cs) (hc : ¬ cs <:+ bs) :
    Merge f init bs cs := by
  induction bs using List.reverseRec generalizing cs with
  | nil => exact absurd List.nil_suffix hb
  | append_singleton bs b ih =>
    induction cs using List.reverseRecOn with
    | nil => exact absurd List.nil_suffix hc
    | append_singleton cs c _ =>
      rw [List.foldl_append, List.foldl_append, List.foldl_cons, List.foldl_nil, List.foldl_cons,
        List.foldl_nil] at heq
      by_cases hsame : (bs.foldl f init, b) = (cs.foldl f init, c)
      · obtain ⟨hchain, rfl⟩ := Prod.mk.inj hsame
        -- the last steps agree: the runs merge before them
        have hb' : ¬ bs <:+ cs := fun h => hb (suffix_snoc h b)
        have hc' : ¬ cs <:+ bs := fun h => hc (suffix_snoc h b)
        obtain ⟨bs', d, cs', e, common, rfl, rfl, hne, hf⟩ := ih hchain hb' hc'
        exact ⟨bs', d, cs', e, common ++ [b], by simp, by simp, hne, hf⟩
      · exact ⟨bs, b, cs, c, [], rfl, rfl, hsame, heq⟩

theorem filled_suffix {P : Padding α} {xs ys : List α}
    (h : filled P.size (P.pad xs) <:+ filled P.size (P.pad ys)) : P.pad xs <:+ P.pad ys := by
  obtain ⟨t, ht⟩ := h
  refine ⟨t.flatten, ?_⟩
  rw [← flatten_filled (P.size_dvd_pad xs), ← List.flatten_append, ht,
    flatten_filled (P.size_dvd_pad ys)]

/-- Two messages have one hash when they are equal or their runs merge, and not otherwise. -/
theorem Padding.hash_eq_iff (P : Padding α) (f : σ → List α → σ) (init : σ) {xs ys : List α}
    (hlength : P.length xs.length = P.length ys.length → xs.length = ys.length) :
    P.hash f init xs = P.hash f init ys ↔ xs = ys ∨
      Merge f init (filled P.size (P.pad xs)) (filled P.size (P.pad ys)) := by
  constructor
  · intro heq
    by_cases hxy : xs = ys
    · exact .inl hxy
    · refine .inr (merge_of_foldl_eq heq (fun h => hxy ?_) (fun h => hxy ?_))
      · exact P.eq_of_pad_suffix (filled_suffix h) hlength
      · exact (P.eq_of_pad_suffix (filled_suffix h) fun h => (hlength h.symm).symm).symm
  · rintro (rfl | hmerge)
    · rfl
    · exact hmerge.foldl_eq

end BlockHash
