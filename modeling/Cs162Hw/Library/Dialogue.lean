import Mathlib.Data.Nat.Notation

/-!
# Dialogues

A caller that asks one question after the other and goes on as the answers tell it to: `asks` is the next
question of a caller that stands somewhere, `resume` is where it stands when it has the answer. `converse` is
the caller after so many answers, and **`converse_ends`** the rule for showing that it comes to an end.
-/

namespace Cs162Hw.Library

variable {C Q A : Type}

/-- The caller after `n` answers, each of which may depend on how many there were before. One that asks
nothing more stays where it is. -/
def converse (asks : C → Option Q) (resume : C → A → C) (answer : ℕ → Q → A) (c : C) : ℕ → C
  | 0 => c
  | n + 1 =>
    let c := converse asks resume answer c n
    match asks c with
    | none => c
    | some q => resume c (answer n q)

/-- A caller that asks nothing stays where it is. -/
theorem converse_of_silent {asks : C → Option Q} {c : C} (h : asks c = none) (resume : C → A → C) (answer : ℕ → Q → A) (n : ℕ) :
    converse asks resume answer c n = c := by
  induction n with
  | zero => rfl
  | succ n ih =>
    rw [converse, ih]
    simp only [h]

/-- **The rule of dialogues**: what every answer keeps is kept, and if there is a number that every answer makes
smaller, then so many answers are enough. -/
theorem converse_ends {asks : C → Option Q} {resume : C → A → C} {answer : ℕ → Q → A} (Inv : C → Prop) (left : C → ℕ)
    (hstep : ∀ c q, Inv c → asks c = some q → ∀ n, Inv (resume c (answer n q)) ∧ left (resume c (answer n q)) < left c)
    {c : C} (hc : Inv c) {n : ℕ} (hn : left c ≤ n) :
    Inv (converse asks resume answer c n) ∧ asks (converse asks resume answer c n) = none := by
  have hrun : ∀ n, Inv (converse asks resume answer c n) ∧
      (asks (converse asks resume answer c n) = none ∨ left (converse asks resume answer c n) + n ≤ left c) := by
    intro n
    induction n with
    | zero => exact ⟨hc, Or.inr (Nat.le_refl _)⟩
    | succ n ih =>
      obtain ⟨hinv, hleft⟩ := ih
      rw [converse]
      cases hasks : asks (converse asks resume answer c n) with
      | none => exact ⟨hinv, Or.inl hasks⟩
      | some q =>
        obtain ⟨hinv', hlt⟩ := hstep _ q hinv hasks n
        refine ⟨hinv', Or.inr ?_⟩
        rcases hleft with hnone | hleft
        · rw [hnone] at hasks
          cases hasks
        · simp only
          omega
  obtain ⟨hinv, hleft⟩ := hrun n
  refine ⟨hinv, hleft.elim id fun hleft => ?_⟩
  cases hasks : asks (converse asks resume answer c n) with
  | none => rfl
  | some q =>
    have := (hstep _ q hinv hasks n).2
    omega

end Cs162Hw.Library
