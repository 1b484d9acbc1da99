import Mathlib.Data.List.Cycle
import Mathlib.Data.List.Iterate
import Mathlib.Logic.Function.Basic

/-!
# Circular doubly linked lists

A heap of nodes, each with a successor and a predecessor (`Links`). The nodes of a list `l`
lie in a ring if each is linked to the one behind it, and the last to the first
(`Links.Circular`): a statement about the cycle `l`, so it does not matter with which node one
starts to read it (`Circular.rotate`).

* `Circular.splice` — the four assignments that put a new node before another;
* `Circular.iterate_next`, `Circular.next_length` — following the successors from a node reads the list from
  there, and comes back to it; `Circular.inverse` — the predecessors lead the other way.
-/

namespace Cs162Hw.Library

variable {ι : Type}

/-- The links of a heap of nodes. -/
@[ext]
structure Links (ι : Type) where
  /-- The successor of a node. -/
  next : ι → ι
  /-- Its predecessor. -/
  prev : ι → ι

namespace Links

/-- `b` is behind `a`. -/
def Behind (s : Links ι) (a b : ι) : Prop := s.next a = b ∧ s.prev b = a

/-- The nodes of `l` lie in a ring, in that order. -/
def Circular (s : Links ι) (l : List ι) : Prop := Cycle.Chain s.Behind (l : Cycle ι)

variable {s : Links ι}

theorem circular_nil : s.Circular [] := Cycle.Chain.nil _

theorem circular_cons {a : ι} {l : List ι} : s.Circular (a :: l) ↔ (a :: (l ++ [a])).IsChain s.Behind :=
  Cycle.chain_coe_cons ..

theorem circular_singleton {a : ι} (hnext : s.next a = a) (hprev : s.prev a = a) : s.Circular [a] :=
  (Cycle.chain_singleton ..).mpr ⟨hnext, hprev⟩

/-- A ring can be read from any of its nodes. -/
theorem Circular.rotate {l l' : List ι} (h : s.Circular l) (hr : l ~r l') : s.Circular l' := by
  unfold Circular
  rwa [← Cycle.coe_eq_coe.mpr hr]

/-- What only changes the links of other nodes leaves a ring alone. -/
theorem Circular.congr {t : Links ι} {l : List ι} (h : s.Circular l) (hnext : ∀ a ∈ l, t.next a = s.next a)
    (hprev : ∀ a ∈ l, t.prev a = s.prev a) : t.Circular l := by
  cases l with
  | nil => exact circular_nil
  | cons a l =>
    rw [circular_cons] at h ⊢
    refine h.imp_of_mem_imp fun b c hb hc hbehind => ?_
    have hmem : ∀ b ∈ a :: (l ++ [a]), b ∈ a :: l := by simp [or_comm]
    rw [Behind, hnext b (hmem b hb), hprev c (hmem c hc)]
    exact hbehind

/-- Inside the list the successor is the next element. -/
theorem Circular.next_inner {pre suf : List ι} {a b : ι} (h : s.Circular (pre ++ a :: b :: suf)) : s.next a = b := by
  have hr : (pre ++ a :: b :: suf) ~r a :: b :: (suf ++ pre) := by
    simpa using (List.isRotated_append : (pre ++ a :: b :: suf) ~r _)
  have := circular_cons.mp (h.rotate hr)
  rw [List.cons_append, List.isChain_cons_cons] at this
  exact this.1.1

/-- At its end it is the first. -/
theorem Circular.next_last {l : List ι} {a : ι} (h : s.Circular (l ++ [a])) : s.next a = (l ++ [a]).head (by simp) := by
  have hr : (l ++ [a]) ~r a :: l := by simpa using (List.isRotated_append : (l ++ [a]) ~r _)
  have := circular_cons.mp (h.rotate hr)
  cases l with
  | nil =>
    simp only [List.nil_append, List.isChain_pair] at this
    exact this.1
  | cons b l =>
    rw [List.cons_append, List.isChain_cons_cons] at this
    exact this.1.1

/-- Following the successors from a node reads the ring from there. -/
theorem Circular.iterate_next {a : ι} {l : List ι} (h : s.Circular (a :: l)) {n : ℕ} (hn : n ≤ (a :: l).length) :
    List.iterate s.next a n = (a :: l).take n := by
  rw [circular_cons] at h
  suffices hchain : ∀ (n : ℕ) (b : ι) (l : List ι), (b :: l).IsChain s.Behind → n ≤ (b :: l).length →
      List.iterate s.next b n = (b :: l).take n by
    rw [hchain n a (l ++ [a]) h (by simp at hn ⊢; omega), ← List.cons_append, List.take_append_of_le_length hn]
  intro n
  induction n with
  | zero => intros; rfl
  | succ n ih =>
    intro b l hb hlen
    rw [List.iterate, List.take_succ_cons]
    cases l with
    | nil =>
      obtain rfl : n = 0 := by simpa using hlen
      rfl
    | cons c l =>
      rw [List.isChain_cons_cons] at hb
      rw [hb.1.1, ih c l hb.2 (by simpa using hlen)]

/-- They come back to it after as many steps as the ring has nodes. -/
theorem Circular.next_length {a : ι} {l : List ι} (h : s.Circular (a :: l)) : s.next^[(a :: l).length] a = a := by
  rcases List.eq_nil_or_concat l with rfl | ⟨l, z, rfl⟩
  · exact h.next_last (l := [])
  · have hlast : s.next z = a := Circular.next_last (l := a :: l) (by simpa using h)
    have hz : s.next^[(a :: l).length] a = z := by
      have hread := congrArg (·[(a :: l).length]?) (h.iterate_next le_rfl)
      simp only [List.take_length] at hread
      rw [List.getElem?_iterate _ _ _ _ (by simp)] at hread
      simpa using hread
    rw [show (a :: l.concat z).length = (a :: l).length + 1 by simp, Function.iterate_succ_apply', hz, hlast]

/-- In a ring the two links are inverse to each other. -/
theorem Circular.inverse {a : ι} {l : List ι} (h : s.Circular l) (ha : a ∈ l) :
    s.prev (s.next a) = a ∧ s.next (s.prev a) = a := by
  obtain ⟨pre, suf, rfl⟩ := List.append_of_mem ha
  have hr : (pre ++ a :: suf) ~r a :: (suf ++ pre) := by
    simpa using (List.isRotated_append : (pre ++ a :: suf) ~r _)
  have hchain := circular_cons.mp (h.rotate hr)
  constructor
  · cases hrest : suf ++ pre with
    | nil =>
      rw [hrest, List.nil_append] at hchain
      obtain ⟨hnext, hprev⟩ := List.isChain_pair.mp hchain
      rw [hnext, hprev]
    | cons b rest =>
      rw [hrest, List.cons_append, List.isChain_cons_cons] at hchain
      rw [hchain.1.1, hchain.1.2]
  · obtain ⟨z, hz⟩ : ∃ z, z ∈ (a :: (suf ++ pre)).getLast? := ⟨_, List.getLast?_eq_some_getLast (by simp)⟩
    rw [← List.cons_append, List.isChain_append] at hchain
    obtain ⟨hnext, hprev⟩ := hchain.2.2 z hz a rfl
    rw [hprev, hnext]

variable [DecidableEq ι]

/-- Let `b` be the successor of `a`. -/
def setNext (s : Links ι) (a b : ι) : Links ι := { s with next := Function.update s.next a b }

/-- Let `b` be the predecessor of `a`. -/
def setPrev (s : Links ι) (a b : ι) : Links ι := { s with prev := Function.update s.prev a b }

/-- Puts the node `new` before the node `curr`. -/
def splice (s : Links ι) (new curr : ι) : Links ι :=
  let s := s.setNext new curr
  let s := s.setPrev new (s.prev curr)
  let s := s.setPrev curr new
  s.setNext (s.prev new) new

theorem next_splice {new curr : ι} (hne : new ≠ curr) (a : ι) :
    (s.splice new curr).next a = if a = s.prev curr then new else if a = new then curr else s.next a := by
  simp only [splice, setNext, setPrev, Function.update_apply]
  split_ifs <;> simp_all

theorem prev_splice {new curr : ι} (a : ι) :
    (s.splice new curr).prev a = if a = curr then new else if a = new then s.prev curr else s.prev a := by
  simp only [splice, setNext, setPrev, Function.update_apply]

/-- **A node put before the first of a ring** is the last one. -/
theorem Circular.splice {new curr : ι} {l : List ι} (h : s.Circular (curr :: l)) (hnd : (new :: curr :: l).Nodup) :
    (s.splice new curr).Circular (curr :: (l ++ [new])) := by
  obtain ⟨hnew, hnd⟩ := List.nodup_cons.mp hnd
  have hne : new ≠ curr := fun h => hnew (h ▸ List.mem_cons_self)
  rw [circular_cons, List.append_assoc, ← List.cons_append]
  rw [circular_cons, ← List.cons_append, List.isChain_append] at h
  obtain ⟨hchain, -, hlast⟩ := h
  have hprev : ∀ a ∈ (curr :: l).getLast?, s.next a = curr ∧ s.prev curr = a := fun a ha => hlast a ha curr rfl
  obtain ⟨hmem, hnext⟩ : s.prev curr ∈ curr :: l ∧ s.next (s.prev curr) = curr := by
    obtain ⟨hnext, hp⟩ := hprev _ (List.getLast?_eq_some_getLast (List.cons_ne_nil curr l))
    rw [hp]
    exact ⟨List.getLast_mem _, hnext⟩
  have hnp : new ≠ s.prev curr := fun h => hnew (h ▸ hmem)
  refine List.isChain_append.mpr ⟨hchain.imp_of_mem_tail_imp fun a b ha hb hbehind => ?_, ?_, fun a ha b hb => ?_⟩
  · have hbc : b ≠ curr := fun h => (List.nodup_cons.mp hnd).1 (h ▸ hb)
    have hbn : b ≠ new := fun h => hnew (h ▸ List.mem_cons_of_mem _ hb)
    have han : a ≠ new := fun h => hnew (h ▸ ha)
    have hap : a ≠ s.prev curr := fun h => hbc (by rw [← hbehind.1, h, hnext])
    exact ⟨by rw [next_splice hne, if_neg hap, if_neg han, hbehind.1],
      by rw [prev_splice, if_neg hbc, if_neg hbn, hbehind.2]⟩
  · refine List.isChain_pair.mpr ⟨?_, by rw [prev_splice, if_pos rfl]⟩
    rw [next_splice hne, if_neg hnp, if_pos rfl]
  · obtain rfl : new = b := by simpa using hb
    obtain ⟨-, hp⟩ := hprev a ha
    exact ⟨by rw [next_splice hne, if_pos hp.symm], by rw [prev_splice, if_neg hne, if_pos rfl, hp]⟩

end Links

end Cs162Hw.Library
