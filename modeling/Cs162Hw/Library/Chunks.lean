import Mathlib.Data.List.Forall2
import Mathlib.Data.List.Flatten
import Mathlib.Order.Nat

/-!
# Chunks that get through in part

Some chunks are passed on one after the other, each with any number of calls, and calls may fail. A call that fails ends the
chunk it is about; the next chunk is passed on all the same.

* `Through`: what arrives, if the calls `i`, …, `j - 1` are made for the chunks. `Through.failed` and `Through.piece`
  say what one call does, `Through.append` puts chunks together.
* `Through.eq_flatten_iff`: everything arrives exactly if no call fails.
-/

namespace Cs162Hw.Library

variable {α : Type} {fails : ℕ → Prop} {i j k : ℕ} {chunks chunks' parts : List (List α)} {sent sent' : List α}

/-- What arrives of the chunks: a beginning of each, and the whole of each if no call fails. -/
def Through (fails : ℕ → Prop) (i j : ℕ) (chunks : List (List α)) (sent : List α) : Prop :=
  ∃ parts, List.Forall₂ (· <+: ·) parts chunks ∧ sent = parts.flatten ∧ i ≤ j ∧
    (parts = chunks ↔ ∀ k, i ≤ k → k < j → ¬ fails k)

/-- Beginnings of chunks are the chunks if they are as long together. -/
theorem eq_of_flatten_length (h : List.Forall₂ (· <+: ·) parts chunks) (hlen : parts.flatten.length = chunks.flatten.length) :
    parts = chunks := by
  have hle : ∀ {parts chunks : List (List α)}, List.Forall₂ (· <+: ·) parts chunks →
      parts.flatten.length ≤ chunks.flatten.length := by
    intro parts chunks h
    induction h with
    | nil => exact le_rfl
    | cons hpart _ ih =>
      rw [List.flatten_cons, List.flatten_cons, List.length_append, List.length_append]
      exact Nat.add_le_add hpart.length_le ih
  induction h with
  | nil => rfl
  | @cons part chunk parts chunks hpart hparts ih =>
    have hone := hpart.length_le
    have hrest := hle hparts
    rw [List.flatten_cons, List.flatten_cons, List.length_append, List.length_append] at hlen
    rw [hpart.eq_of_length (by omega), ih (by omega)]

namespace Through

/-- Nothing has been passed on. -/
theorem nil : Through fails i i [] ([] : List α) :=
  ⟨[], .nil, rfl, le_rfl, iff_of_true rfl fun _ hle hlt => absurd hlt (not_lt.mpr hle)⟩

/-- A chunk of which nothing is left to be passed on. -/
theorem nil_singleton : Through fails i i [[]] ([] : List α) :=
  ⟨[[]], .cons List.nil_prefix .nil, rfl, le_rfl, iff_of_true rfl fun _ hle hlt => absurd hlt (not_lt.mpr hle)⟩

/-- A call that fails ends the chunk. -/
theorem failed {c : α} {chunk : List α} (h : fails i) : Through fails i (i + 1) [c :: chunk] ([] : List α) :=
  ⟨[[]], .cons List.nil_prefix .nil, rfl, Nat.le_succ i, iff_of_false (by simp) fun hall => hall i le_rfl (Nat.lt_succ_self i) h⟩

/-- A call that passes on a piece of the chunk. -/
theorem piece {front rest : List α} (hok : ¬ fails i) (h : Through fails (i + 1) j [rest] sent) :
    Through fails i j [front ++ rest] (front ++ sent) := by
  obtain ⟨parts, hparts, rfl, hij, hall⟩ := h
  cases hparts with
  | @cons part _ _ _ hpart hnil =>
    cases hnil
    refine ⟨[front ++ part], .cons ((List.prefix_append_right_inj front).mpr hpart) .nil, by simp, Nat.le_of_succ_le hij, ?_⟩
    have hwhole : [front ++ part] = [front ++ rest] ↔ [part] = [rest] := by simp
    rw [hwhole, hall]
    constructor
    · intro h k hle hlt
      rcases Nat.eq_or_lt_of_le hle with rfl | hlt'
      · exact hok
      · exact h k hlt' hlt
    · intro h k hle hlt
      exact h k (Nat.le_of_succ_le hle) hlt

/-- First these, then those. -/
theorem append (h : Through fails i j chunks sent) (h' : Through fails j k chunks' sent') :
    Through fails i k (chunks ++ chunks') (sent ++ sent') := by
  obtain ⟨parts, hparts, rfl, hij, hall⟩ := h
  obtain ⟨parts', hparts', rfl, hjk, hall'⟩ := h'
  refine ⟨parts ++ parts', List.rel_append hparts hparts', List.flatten_append.symm, hij.trans hjk, ?_⟩
  constructor
  · intro heq n hle hlt
    obtain ⟨hfirst, hlast⟩ := List.append_inj heq hparts.length_eq
    rw [hall] at hfirst
    rw [hall'] at hlast
    by_cases hn : n < j
    · exact hfirst n hle hn
    · exact hlast n (not_lt.mp hn) hlt
  · intro h
    rw [hall.mpr fun n hle hlt => h n hle (hlt.trans_le hjk), hall'.mpr fun n hle hlt => h n (hij.trans hle) hlt]

/-- **Everything arrives** exactly if no call fails. -/
theorem eq_flatten_iff (h : Through fails i j chunks sent) : sent = chunks.flatten ↔ ∀ k, i ≤ k → k < j → ¬ fails k := by
  obtain ⟨parts, hparts, rfl, -, hall⟩ := h
  rw [← hall]
  constructor
  · intro heq
    exact eq_of_flatten_length hparts (congrArg List.length heq)
  · rintro rfl
    rfl

end Through

end Cs162Hw.Library
