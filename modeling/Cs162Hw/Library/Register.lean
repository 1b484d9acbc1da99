import Mathlib.Data.Set.Basic

/-!
# A register in copies

A register that holds a value or nothing, kept in `n` copies. A writer replaces the copies one after the other, from the
first on; a reader looks at them in the same order until it finds one that holds something. Any number of readers and one
writer do so at the same time.

A write of a value takes effect with the first copy, a write of nothing with the last (`Sweep.value`). Every reader then
returns what the register has held at some moment since it began. What carries the proof is `Scan`, about a reader that
has found nothing in the first `p` copies:

* `Scan.start`, `Scan.step` — it holds of a new reader, and is kept by the writer;
* `Scan.miss` — it is kept by a look at a copy that holds nothing;
* **`Scan.hit`**, **`Scan.absent`** — what the reader finds, be it something or nothing, was held.
-/

namespace Cs162Hw.Library

variable {α : Type}

/-- A write on its way through the copies: what the register held before, what it is to hold, and how many copies have
been replaced. -/
structure Sweep (α : Type) where
  /-- What it held. -/
  old : Option α
  /-- What it is to hold. -/
  new : Option α
  /-- How many copies have been replaced. -/
  written : ℕ

namespace Sweep

/-- What the copy `p` holds. -/
def copy (s : Sweep α) (p : ℕ) : Option α := if p < s.written then s.new else s.old

/-- What the register in `n` copies holds. -/
def value (n : ℕ) (s : Sweep α) : Option α :=
  match s.new with
  | some v => if 0 < s.written then some v else s.old
  | none => if s.written < n then s.old else none

variable {n p : ℕ} {s : Sweep α}

theorem copy_of_lt (h : p < s.written) : s.copy p = s.new := if_pos h

theorem copy_of_le (h : s.written ≤ p) : s.copy p = s.old := if_neg (Nat.not_lt.mpr h)

/-- Before the first copy is replaced. -/
theorem value_of_zero (h : s.written = 0) (hn : 0 < n) : s.value n = s.old := by
  unfold value
  cases s.new with
  | some v => simp only [h, Nat.lt_irrefl, if_false]
  | none => simp only [h, hn, if_true]

/-- When all are replaced. -/
theorem value_of_le (h : n ≤ s.written) (hn : 0 < n) : s.value n = s.new := by
  unfold value
  cases s.new with
  | some v => exact if_pos (by omega)
  | none => exact if_neg (by omega)

/-- Where no write is on its way, all copies are alike. -/
theorem copy_of_quiet (h : s.written = 0 ∨ n ≤ s.written) (hp : p < n) : s.copy p = s.value n := by
  rcases h with hzero | hle
  · rw [copy_of_le (by omega), value_of_zero hzero (by omega)]
  · rw [copy_of_lt (by omega), value_of_le hle (by omega)]

/-- What the writer can do. -/
inductive Step (n : ℕ) (s : Sweep α) : Sweep α → Prop where
  /-- Nothing. -/
  | stay : Step n s s
  /-- The next copy is replaced. -/
  | write : Step n s { s with written := s.written + 1 }
  /-- Where no write is on its way, another one begins. -/
  | next (quiet : s.written = 0 ∨ n ≤ s.written) (new : Option α) : Step n s ⟨s.value n, new, 0⟩

end Sweep

/-- What holds of a reader that has found nothing in the first `p` of `n` copies, and of what the register has held since it
began. -/
structure Scan (n : ℕ) (s : Sweep α) (p : ℕ) (held : Set (Option α)) : Prop where
  /-- It holds what it holds. -/
  current : s.value n ∈ held
  /-- A reader that has looked at a copy before the write was through began before it took effect. -/
  old : 0 < p → s.written < n → s.old ∈ held
  /-- There was nothing, or what the reader has looked at are copies in which a write of nothing has replaced something. -/
  missed : 0 < p → none ∈ held ∨ (s.new = none ∧ p ≤ s.written)

namespace Scan

variable {n p : ℕ} {s : Sweep α} {held held' : Set (Option α)}

/-- What was held is remembered. -/
theorem mono (h : Scan n s p held) (hsub : held ⊆ held') : Scan n s p held' :=
  ⟨hsub h.current, fun hp hw => hsub (h.old hp hw), fun hp => (h.missed hp).imp_left (@hsub none)⟩

/-- A reader begins. -/
theorem start (h : s.value n ∈ held) : Scan n s 0 held :=
  ⟨h, fun hp => absurd hp (Nat.lt_irrefl 0), fun hp => absurd hp (Nat.lt_irrefl 0)⟩

/-- **The writer goes on.** -/
theorem step (h : Scan n s p held) (hn : 0 < n) {s' : Sweep α} (hstep : s.Step n s') (hheld : s'.value n ∈ held) :
    Scan n s' p held := by
  cases hstep with
  | stay => exact h
  | write =>
    refine ⟨hheld, fun hp hw => h.old hp (Nat.lt_of_succ_lt hw), fun hp => ?_⟩
    exact (h.missed hp).imp_right fun hmissed => ⟨hmissed.1, Nat.le_succ_of_le hmissed.2⟩
  | next quiet new =>
    refine ⟨hheld, fun _ _ => h.current, fun hp => Or.inl ?_⟩
    rcases h.missed hp with hnone | ⟨hnew, hle⟩
    · exact hnone
    · have hcurrent := h.current
      rw [Sweep.value_of_le (by omega) hn, hnew] at hcurrent
      exact hcurrent

/-- Where the first copy holds nothing or is not replaced, a write that is not through has not taken effect. -/
theorem old_of_first (h : Scan n s p held) (hcopy : s.written = 0 ∨ s.new = none) (hw : s.written < n) : s.old ∈ held := by
  have hcurrent := h.current
  have hvalue : s.value n = s.old := by
    rcases hcopy with hzero | hnew
    · exact Sweep.value_of_zero hzero (by omega)
    · simp only [Sweep.value, hnew, if_pos hw]
  rwa [hvalue] at hcurrent

/-- What a reader does not find in a copy that is not replaced was held. -/
theorem old_of_le (h : Scan n s p held) (hle : s.written ≤ p) (hp : p < n) : s.old ∈ held := by
  rcases Nat.eq_zero_or_pos p with hzero | hpos
  · exact h.old_of_first (Or.inl (by omega)) (by omega)
  · exact h.old hpos (by omega)

/-- The next copy holds nothing. -/
theorem miss (h : Scan n s p held) (hp : p < n) (hcopy : s.copy p = none) : Scan n s (p + 1) held := by
  refine ⟨h.current, fun _ hw => ?_, fun _ => ?_⟩
  · rcases Nat.lt_or_ge p s.written with hlt | hle
    · rw [Sweep.copy_of_lt hlt] at hcopy
      exact h.old_of_first (Or.inr hcopy) hw
    · exact h.old_of_le hle hp
  · rcases Nat.lt_or_ge p s.written with hlt | hle
    · rw [Sweep.copy_of_lt hlt] at hcopy
      exact Or.inr ⟨hcopy, hlt⟩
    · rw [Sweep.copy_of_le hle] at hcopy
      exact Or.inl (hcopy ▸ h.old_of_le hle hp)

/-- **What a reader finds was held.** -/
theorem hit (h : Scan n s p held) (hp : p < n) {v : α} (hcopy : s.copy p = some v) : some v ∈ held := by
  rcases Nat.lt_or_ge p s.written with hlt | hle
  · have hcurrent := h.current
    rw [Sweep.copy_of_lt hlt] at hcopy
    simp only [Sweep.value, hcopy, if_pos (show 0 < s.written by omega)] at hcurrent
    exact hcurrent
  · rw [Sweep.copy_of_le hle] at hcopy
    exact hcopy ▸ h.old_of_le hle hp

/-- **If it finds nothing in any copy, there was nothing at some moment.** -/
theorem absent (h : Scan n s n held) (hn : 0 < n) : none ∈ held := by
  rcases h.missed hn with hnone | ⟨hnew, hle⟩
  · exact hnone
  · have hcurrent := h.current
    rwa [Sweep.value_of_le hle hn, hnew] at hcurrent

end Scan

end Cs162Hw.Library
