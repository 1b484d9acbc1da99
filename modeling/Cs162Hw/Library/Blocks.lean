import Mathlib.Algebra.Order.Group.Nat
import Mathlib.Data.List.Basic
import Mathlib.Data.Nat.Notation

/-!
# A list in blocks

A list is cut into blocks of `n` elements; what does not fill a block is the rest. Something that is fed with a list
piece by piece, and goes on by a step for every block, keeps the rest until there is enough for one more block.

* `blocks_append`, `rest_append`: behind whole blocks the cutting starts again.
* **`Absorbed`**: what has been made of a list that came in pieces, with a rule for each way in which a piece may come:
  it does not fill the block (`Absorbed.hold`), it just fills it (`Absorbed.fill`), or it is itself made of blocks
  (`Absorbed.whole`).
-/

namespace Cs162Hw.Library

variable {α : Type*} {n : ℕ} {l m : List α}

/-- The first blocks, so many. -/
def firstBlocks (n : ℕ) : ℕ → List α → List (List α)
  | 0, _ => []
  | k + 1, l => l.take n :: firstBlocks n k (l.drop n)

/-- The blocks. -/
def blocks (n : ℕ) (l : List α) : List (List α) := firstBlocks n (l.length / n) l

/-- What is behind the blocks. -/
def rest (n : ℕ) (l : List α) : List α := l.drop (l.length / n * n)

/-- The first blocks are found in as much of the list. -/
theorem firstBlocks_take (k : ℕ) (l : List α) {c : ℕ} (hc : k * n ≤ c) : firstBlocks n k (l.take c) = firstBlocks n k l := by
  induction k generalizing l c with
  | zero => rfl
  | succ k ih =>
    have hn : n ≤ c := by
      rw [Nat.succ_mul] at hc
      omega
    have hrest : k * n ≤ c - n := by
      rw [Nat.succ_mul] at hc
      omega
    rw [firstBlocks, firstBlocks, List.take_take, Nat.min_eq_left hn, List.drop_take, ih _ hrest]

theorem length_rest (n : ℕ) (l : List α) : (rest n l).length = l.length % n := by
  rw [rest, List.length_drop, Nat.mod_eq_sub_div_mul]

theorem blocks_of_lt (h : l.length < n) : blocks n l = [] := by
  rw [blocks, Nat.div_eq_of_lt h]
  rfl

theorem rest_of_lt (h : l.length < n) : rest n l = l := by
  rw [rest, Nat.div_eq_of_lt h, Nat.zero_mul, List.drop_zero]

theorem div_block_append (hn : 0 < n) (hm : m.length = n) (l : List α) : (m ++ l).length / n = l.length / n + 1 := by
  rw [List.length_append, hm, Nat.add_div_left _ hn]

/-- A block in front is the first block. -/
theorem blocks_block_append (hn : 0 < n) (hm : m.length = n) (l : List α) : blocks n (m ++ l) = m :: blocks n l := by
  rw [blocks, div_block_append hn hm, firstBlocks, List.take_left' hm, List.drop_left' hm, blocks]

theorem rest_block_append (hn : 0 < n) (hm : m.length = n) (l : List α) : rest n (m ++ l) = rest n l := by
  rw [rest, div_block_append hn hm, Nat.succ_mul, Nat.add_comm, ← List.drop_drop, List.drop_left' hm, rest]

/-- A block is its own cutting. -/
theorem blocks_of_length_eq (hn : 0 < n) (h : l.length = n) : blocks n l = [l] ∧ rest n l = [] := by
  have happend := blocks_block_append hn h []
  have hrest := rest_block_append hn h []
  rw [List.append_nil] at happend hrest
  rw [happend, hrest, blocks_of_lt (l := []) hn, rest_of_lt (l := []) hn]
  exact ⟨rfl, rfl⟩

/-- Behind blocks the cutting starts again. -/
theorem blocks_append_and_rest (hn : 0 < n) {k : ℕ} (hl : l.length = k * n) (m : List α) :
    blocks n (l ++ m) = blocks n l ++ blocks n m ∧ rest n (l ++ m) = rest n m := by
  induction k generalizing l with
  | zero =>
    obtain rfl := List.length_eq_zero_iff.mp (hl.trans (Nat.zero_mul n))
    exact ⟨by rw [blocks_of_lt (l := []) hn, List.nil_append, List.nil_append], rfl⟩
  | succ k ih =>
    have hle : n ≤ l.length := by
      rw [hl, Nat.succ_mul]
      exact Nat.le_add_left n _
    have htake : (l.take n).length = n := List.length_take_of_le hle
    have hdrop : (l.drop n).length = k * n := by
      rw [List.length_drop, hl, Nat.succ_mul, Nat.add_sub_cancel]
    obtain ⟨hblocks, hrest⟩ := ih hdrop
    have hsplit : l ++ m = l.take n ++ (l.drop n ++ m) := by rw [← List.append_assoc, List.take_append_drop]
    have hl' : blocks n l = l.take n :: blocks n (l.drop n) := by
      rw [← blocks_block_append hn htake, List.take_append_drop]
    rw [hsplit, blocks_block_append hn htake, rest_block_append hn htake, hblocks, hrest, hl']
    exact ⟨rfl, rfl⟩

theorem blocks_append (hn : 0 < n) (hl : n ∣ l.length) (m : List α) : blocks n (l ++ m) = blocks n l ++ blocks n m := by
  obtain ⟨k, hk⟩ := hl
  exact (blocks_append_and_rest hn (hk.trans (Nat.mul_comm n k)) m).1

theorem rest_append (hn : 0 < n) (hl : n ∣ l.length) (m : List α) : rest n (l ++ m) = rest n m := by
  obtain ⟨k, hk⟩ := hl
  exact (blocks_append_and_rest hn (hk.trans (Nat.mul_comm n k)) m).2

/-- A list is its blocks and its rest. -/
theorem exists_whole (hn : 0 < n) (l : List α) :
    ∃ whole, l = whole ++ rest n l ∧ n ∣ whole.length ∧ blocks n whole = blocks n l := by
  have hlt : (rest n l).length < n := by
    rw [length_rest]
    exact Nat.mod_lt _ hn
  have hle : l.length / n * n ≤ l.length := Nat.div_mul_le_self _ _
  have hsplit : l = l.take (l.length / n * n) ++ rest n l := (List.take_append_drop _ l).symm
  have hdvd : n ∣ (l.take (l.length / n * n)).length := by
    rw [List.length_take_of_le hle]
    exact Nat.dvd_mul_left n _
  refine ⟨l.take (l.length / n * n), hsplit, hdvd, ?_⟩
  conv_rhs => rw [hsplit]
  rw [blocks_append hn hdvd, blocks_of_lt hlt, List.append_nil]

/-! ## In pieces -/

variable {σ : Type*} {f : σ → List α → σ} {s₀ s : σ} {held : List α}

/-- What has been made of the list `l` that began with `s₀`: a step for every block, and the rest is held. -/
structure Absorbed (n : ℕ) (f : σ → List α → σ) (s₀ : σ) (l : List α) (s : σ) (held : List α) : Prop where
  /-- The steps. -/
  state : s = (blocks n l).foldl f s₀
  /-- The rest. -/
  held : held = rest n l

theorem Absorbed.nil (f : σ → List α → σ) (s₀ : σ) (hn : 0 < n) : Absorbed n f s₀ [] s₀ [] := by
  refine ⟨?_, ?_⟩
  · rw [blocks_of_lt hn]
    rfl
  · rw [rest_of_lt hn]

theorem Absorbed.length_held (h : Absorbed n f s₀ l s held) : held.length = l.length % n := by
  rw [h.held, length_rest]

/-- Behind what is held it goes on as behind nothing. -/
theorem Absorbed.append (h : Absorbed n f s₀ l s held) (hn : 0 < n) (m : List α) :
    Absorbed n f s₀ (l ++ m) ((blocks n (held ++ m)).foldl f s) (rest n (held ++ m)) := by
  obtain ⟨whole, hl, hdvd, hblocks⟩ := exists_whole hn l
  rw [← h.held] at hl
  refine ⟨?_, ?_⟩
  · rw [hl, List.append_assoc, blocks_append hn hdvd, hblocks, List.foldl_append, h.state]
  · rw [hl, List.append_assoc, rest_append hn hdvd]

/-- A piece that does not fill the block is held, too. -/
theorem Absorbed.hold (h : Absorbed n f s₀ l s held) (hlt : held.length + m.length < n) :
    Absorbed n f s₀ (l ++ m) s (held ++ m) := by
  have hshort : (held ++ m).length < n := by rwa [List.length_append]
  have happend := h.append (Nat.zero_lt_of_lt hlt) m
  rwa [blocks_of_lt hshort, rest_of_lt hshort] at happend

/-- A piece that just fills the block makes a step. -/
theorem Absorbed.fill (h : Absorbed n f s₀ l s held) (hn : 0 < n) (heq : held.length + m.length = n) :
    Absorbed n f s₀ (l ++ m) (f s (held ++ m)) [] := by
  have hfull : (held ++ m).length = n := by rwa [List.length_append]
  obtain ⟨hblocks, hrest⟩ := blocks_of_length_eq hn hfull
  have happend := h.append hn m
  rwa [hblocks, hrest] at happend

/-- A piece made of blocks, where nothing is held, makes a step for each of them. -/
theorem Absorbed.whole (h : Absorbed n f s₀ l s []) (hn : 0 < n) (hdvd : n ∣ m.length) :
    Absorbed n f s₀ (l ++ m) ((blocks n m).foldl f s) [] := by
  have happend := h.append hn m
  have hrest : rest n m = [] := by
    rw [← List.append_nil m, rest_append hn hdvd, rest_of_lt hn]
  rwa [List.nil_append, hrest] at happend

end Cs162Hw.Library
