import Mathlib.Data.List.Basic
import Mathlib.Data.Nat.Notation
import Mathlib.Order.Nat

/-!
# The pieces of a list

A list is cut at its separators. What stands between two of them, if it is not empty, is a piece: a maximal run
of elements that are no separators.

* `pieces_cons`, `pieces_append_cons`, `pieces_eq_singleton`: the pieces are found one after another.
* **`starts_eq`**: they are counted by their first elements, which a scan finds that only remembers whether the element
  before was a separator.
-/

namespace Cs162Hw.Library

variable {α : Type*}

/-- The pieces between the separators. -/
def pieces (separator : α → Bool) (l : List α) : List (List α) := (l.splitOnP separator).filter (· ≠ [])

/-- The number of elements where a piece starts, `after` telling of the first whether it stands behind a separator. -/
def starts (separator : α → Bool) : Bool → List α → ℕ
  | _, [] => 0
  | after, c :: l => (if after && !separator c then 1 else 0) + starts separator (separator c) l

variable {separator : α → Bool} {c : α} {piece l : List α}

theorem pieces_nil : pieces separator [] = [] := rfl

/-- A separator in front adds no piece. -/
theorem pieces_cons (h : separator c) : pieces separator (c :: l) = pieces separator l := by
  rw [pieces, List.splitOnP_cons_eq_if_modifyHead, if_pos h, List.filter_cons_of_neg (by simp)]
  rfl

/-- The first piece ends at the first separator behind it. -/
theorem pieces_append_cons (hne : piece ≠ []) (hin : ∀ x ∈ piece, separator x = false) (h : separator c) :
    pieces separator (piece ++ c :: l) = piece :: pieces separator l := by
  rw [pieces, List.splitOnP_append_cons_of_forall_mem hin c h, List.filter_cons_of_pos (by simpa using hne)]
  rfl

/-- Without a separator there is one piece. -/
theorem pieces_eq_singleton (hne : piece ≠ []) (hin : ∀ x ∈ piece, separator x = false) :
    pieces separator piece = [piece] := by
  rw [pieces, List.splitOnP_eq_singleton hin, List.filter_cons_of_pos (by simpa using hne)]
  rfl

theorem starts_le_length (after : Bool) (l : List α) : starts separator after l ≤ l.length := by
  induction l generalizing after with
  | nil => exact le_rfl
  | cons c l ih =>
    have hle := ih (separator c)
    rw [starts, List.length_cons]
    split_ifs <;> omega

/-- Behind a separator all pieces start in the list; elsewhere the first part of it is not the start of one. -/
theorem starts_split (l : List α) :
    starts separator true l = (pieces separator l).length ∧
      starts separator false l = ((l.splitOnP separator).tail.filter (· ≠ [])).length := by
  induction l with
  | nil => exact ⟨rfl, rfl⟩
  | cons c l ih =>
    obtain ⟨htrue, hfalse⟩ := ih
    rw [starts, starts, pieces, List.splitOnP_cons_eq_if_modifyHead]
    cases hc : separator c with
    | true =>
      rw [htrue, if_pos rfl, List.filter_cons_of_neg (by simp)]
      exact ⟨Nat.zero_add _, Nat.zero_add _⟩
    | false =>
      rw [hfalse, if_neg Bool.false_ne_true]
      cases hsplit : l.splitOnP separator with
      | nil => exact absurd hsplit (List.splitOnP_ne_nil _ _)
      | cons piece rest =>
        rw [List.modifyHead_cons, List.filter_cons_of_pos (by simp)]
        exact ⟨Nat.add_comm _ _, Nat.zero_add _⟩

/-- **The pieces are counted by their starts.** -/
theorem starts_eq (separator : α → Bool) (l : List α) : starts separator true l = (pieces separator l).length :=
  (starts_split l).1

end Cs162Hw.Library
