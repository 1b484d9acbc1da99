import Mathlib.Algebra.BigOperators.Group.List.Basic
import Mathlib.Algebra.Ring.Nat
import Mathlib.Data.List.Chain

/-!
# Pieces end to end

Pieces of given widths laid one after another from an address on, with neither gap nor
overlap. `stop` is where they end, `place` lists them with their addresses.

All is by cutting the list: what lies before, between and behind two cuts has the
addresses it would have on its own (`place_append`, `stop_append`), so that to change
the pieces between two cuts is to change nothing else as long as the widths between
them add up as before.
-/

namespace Cs162Hw.Library.Tiling

/-- What takes room. -/
class Piece (α : Type) where
  /-- How much. -/
  width : α → ℕ

export Piece (width)

variable {α : Type} [Piece α]

/-- Where the pieces end that begin at `a`. -/
def stop (a : ℕ) : List α → ℕ
  | [] => a
  | b :: bs => stop (a + width b) bs

/-- The pieces and where they begin. -/
def place (a : ℕ) : List α → List (ℕ × α)
  | [] => []
  | b :: bs => (a, b) :: place (a + width b) bs

variable {a : ℕ} {b : α} {bs cs : List α}

@[simp] theorem stop_nil : stop a ([] : List α) = a := rfl

@[simp] theorem stop_cons : stop a (b :: bs) = stop (a + width b) bs := rfl

@[simp] theorem place_nil : place a ([] : List α) = [] := rfl

@[simp] theorem place_cons : place a (b :: bs) = (a, b) :: place (a + width b) bs := rfl

@[simp] theorem stop_append : stop a (bs ++ cs) = stop (stop a bs) cs := by
  induction bs generalizing a with
  | nil => rfl
  | cons b bs ih => exact ih

@[simp] theorem place_append :
    place a (bs ++ cs) = place a bs ++ place (stop a bs) cs := by
  induction bs generalizing a with
  | nil => rfl
  | cons b bs ih => simp [ih]

/-- The pieces end where their widths add up to. -/
theorem stop_eq : stop a bs = a + (bs.map width).sum := by
  induction bs generalizing a with
  | nil => rfl
  | cons b bs ih => simp [ih, Nat.add_assoc]

theorem le_stop : a ≤ stop a bs := by
  rw [stop_eq]
  exact Nat.le_add_right ..

/-- Where a piece lies is where the pieces before it end. -/
theorem mem_place {x : ℕ} : (x, b) ∈ place a bs ↔ ∃ pre post, bs = pre ++ b :: post ∧ x = stop a pre := by
  constructor
  · intro h
    induction bs generalizing a with
    | nil => cases h
    | cons c bs ih =>
      rcases List.mem_cons.mp h with h | h
      · obtain ⟨rfl, rfl⟩ := Prod.mk.inj h
        exact ⟨[], bs, rfl, rfl⟩
      · obtain ⟨pre, post, rfl, rfl⟩ := ih h
        exact ⟨c :: pre, post, rfl, rfl⟩
  · rintro ⟨pre, post, rfl, rfl⟩
    simp

/-- Every piece lies between the ends. -/
theorem place_bounds {p : ℕ × α} (h : p ∈ place a bs) : a ≤ p.1 ∧ p.1 + width p.2 ≤ stop a bs := by
  obtain ⟨pre, post, rfl, hp⟩ := mem_place.mp h
  rw [stop_append, stop_cons, ← hp]
  exact ⟨hp ▸ le_stop, le_stop⟩

/-- **No two pieces overlap.** -/
theorem place_pairwise : (place a bs).Pairwise fun p q => p.1 + width p.2 ≤ q.1 := by
  induction bs generalizing a with
  | nil => exact .nil
  | cons b bs ih => exact .cons (fun q hq => (place_bounds hq).1) ih

/-- Two pieces are one, or one ends before the other begins. -/
theorem place_cases {p q : ℕ × α} (hp : p ∈ place a bs) (hq : q ∈ place a bs) :
    p = q ∨ p.1 + width p.2 ≤ q.1 ∨ q.1 + width q.2 ≤ p.1 := by
  by_cases h : p = q
  · exact .inl h
  · have hapart : (place a bs).Pairwise fun p q : ℕ × α =>
        p.1 + width p.2 ≤ q.1 ∨ q.1 + width q.2 ≤ p.1 := place_pairwise.imp fun h => Or.inl h
    have : Std.Symm fun p q : ℕ × α => p.1 + width p.2 ≤ q.1 ∨ q.1 + width q.2 ≤ p.1 := ⟨fun _ _ => Or.symm⟩
    exact .inr (hapart.forall hp hq h)

end Cs162Hw.Library.Tiling
