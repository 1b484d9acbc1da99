import Cs162Hw.Library.Tiling
import Mathlib.Data.List.Chain

/-!
# Pieces that are free

Of the pieces that lie end to end some are free, and the others are taken. A row is
*settled* if no two neighbours are free.

In a settled row the free pieces are the gaps that the taken ones leave, and they have no
more to tell: two settled rows with the same taken pieces in the same places, and the
same end, are one (`Settled.eq_of_occupied`). So whoever changes a row, and leaves it
settled, has only to say which pieces are taken then and where the row ends.

`coalesce` settles a row. It joins the neighbours that are free, and leaves the taken
pieces and the end where they are.
-/

namespace Cs162Hw.Library.Tiling

/-- Pieces some of which are free. -/
class Gaps (α : Type) [Piece α] where
  /-- Whether nobody has the piece. -/
  free : α → Bool
  /-- A piece for two. -/
  join : α → α → α
  /-- There is no piece without room. -/
  width_pos : ∀ b : α, 0 < width b
  /-- A free piece is known by its width. -/
  eq_of_width : ∀ {b c : α}, free b = true → free c = true → width b = width c → b = c
  /-- What is joined is free. -/
  free_join : ∀ b c : α, free (join b c) = true
  /-- It is as wide as the two. -/
  width_join : ∀ b c : α, width (join b c) = width b + width c

export Gaps (free join width_pos eq_of_width free_join width_join)

variable {α : Type} [Piece α] [Gaps α] {a : ℕ} {b : α} {bs cs : List α}

/-- No two neighbours are free. -/
def Settled (bs : List α) : Prop := bs.IsChain fun b c => ¬ (free b = true ∧ free c = true)

/-- The taken pieces and where they begin. -/
def occupied (a : ℕ) (bs : List α) : List (ℕ × α) := (place a bs).filter fun p => !free p.2

@[simp] theorem occupied_nil : occupied a ([] : List α) = [] := rfl

theorem occupied_cons_of_free (hb : free b = true) : occupied a (b :: bs) = occupied (a + width b) bs := by simp [occupied, hb]

theorem occupied_cons_of_taken (hb : free b = false) : occupied a (b :: bs) = (a, b) :: occupied (a + width b) bs := by
  simp [occupied, hb]

@[simp] theorem occupied_append : occupied a (bs ++ cs) = occupied a bs ++ occupied (stop a bs) cs := by simp [occupied]

theorem le_of_mem_occupied {p : ℕ × α} (hp : p ∈ occupied a bs) : a ≤ p.1 := (place_bounds (List.mem_filter.mp hp).1).1

theorem Settled.tail (h : Settled (b :: bs)) : Settled bs := (List.isChain_cons.mp h).2

/-- Behind a free piece there is a taken one, or nothing. -/
theorem Settled.behind_free (h : Settled (b :: bs)) (hb : free b = true) :
    bs = [] ∨ ∃ c cs, bs = c :: cs ∧ free c = false := by
  cases bs with
  | nil => exact .inl rfl
  | cons c cs =>
    refine .inr ⟨c, cs, rfl, ?_⟩
    have hbc := (List.isChain_cons.mp h).1 c rfl
    cases hc : free c with
    | false => rfl
    | true => exact absurd ⟨hb, hc⟩ hbc

/-- A free piece at the front is as wide as the taken pieces behind it and the end leave room for. -/
theorem Settled.width_front {c : α} (hb : Settled (b :: bs)) (hc : Settled (c :: cs)) (hfb : free b = true)
    (hfc : free c = true) (ht : occupied (a + width b) bs = occupied (a + width c) cs)
    (hs : stop (a + width b) bs = stop (a + width c) cs) : width b = width c := by
  rcases hb.behind_free hfb with rfl | ⟨d, bs, rfl, hd⟩
  · rcases hc.behind_free hfc with rfl | ⟨e, cs, rfl, he⟩
    · simp only [stop_nil] at hs
      omega
    · rw [occupied_cons_of_taken he] at ht
      cases ht
  · rcases hc.behind_free hfc with rfl | ⟨e, cs, rfl, he⟩
    · rw [occupied_cons_of_taken hd] at ht
      cases ht
    · rw [occupied_cons_of_taken hd, occupied_cons_of_taken he] at ht
      have hfst := (Prod.mk.inj (List.cons.inj ht).1).1
      omega

/-- **A settled row is known by its taken pieces and its end.** -/
theorem Settled.eq_of_occupied (hb : Settled bs) (hc : Settled cs) (ht : occupied a bs = occupied a cs)
    (hs : stop a bs = stop a cs) : bs = cs := by
  induction bs generalizing a cs with
  | nil =>
    cases cs with
    | nil => rfl
    | cons c cs =>
      have hpos := width_pos c
      have hle := @le_stop α _ (a + width c) cs
      rw [stop_nil, stop_cons] at hs
      omega
  | cons b bs ih =>
    cases cs with
    | nil =>
      have hpos := width_pos b
      have hle := @le_stop α _ (a + width b) bs
      rw [stop_nil, stop_cons] at hs
      omega
    | cons c cs =>
      rw [stop_cons, stop_cons] at hs
      suffices hbc : b = c by
        subst hbc
        refine congrArg _ (ih hb.tail hc.tail ?_ hs)
        cases hfree : free b with
        | true => rwa [occupied_cons_of_free hfree, occupied_cons_of_free hfree] at ht
        | false =>
          rw [occupied_cons_of_taken hfree, occupied_cons_of_taken hfree] at ht
          exact (List.cons.inj ht).2
      cases hfb : free b with
      | true =>
        rw [occupied_cons_of_free hfb] at ht
        cases hfc : free c with
        | true =>
          rw [occupied_cons_of_free hfc] at ht
          exact eq_of_width hfb hfc (hb.width_front hc hfb hfc ht hs)
        | false =>
          rw [occupied_cons_of_taken hfc] at ht
          have hle := le_of_mem_occupied (ht ▸ List.mem_cons_self : (a, c) ∈ occupied (a + width b) bs)
          have hpos := width_pos b
          simp only at hle
          omega
      | false =>
        rw [occupied_cons_of_taken hfb] at ht
        cases hfc : free c with
        | true =>
          rw [occupied_cons_of_free hfc] at ht
          have hle := le_of_mem_occupied (ht ▸ List.mem_cons_self : (a, b) ∈ occupied (a + width c) cs)
          have hpos := width_pos c
          simp only at hle
          omega
        | false =>
          rw [occupied_cons_of_taken hfc] at ht
          exact (Prod.mk.inj (List.cons.inj ht).1).2

/-! ## Settling a row -/

/-- A piece before a settled row, joined with the first if both are free. -/
def settleFront (b : α) : List α → List α
  | [] => [b]
  | c :: cs => if free b && free c then join b c :: cs else b :: c :: cs

/-- Neighbours that are free are joined. -/
def coalesce : List α → List α
  | [] => []
  | b :: bs => settleFront b (coalesce bs)

theorem occupied_settleFront : occupied a (settleFront b bs) = occupied a (b :: bs) := by
  cases bs with
  | nil => rfl
  | cons c cs =>
    rw [settleFront]
    split
    · rename_i hfree
      obtain ⟨hb, hc⟩ := Bool.and_eq_true_iff.mp hfree
      rw [occupied_cons_of_free (free_join b c), occupied_cons_of_free hb, occupied_cons_of_free hc, width_join, Nat.add_assoc]
    · rfl

theorem stop_settleFront : stop a (settleFront b bs) = stop a (b :: bs) := by
  cases bs with
  | nil => rfl
  | cons c cs =>
    rw [settleFront]
    split
    · simp only [stop_cons, width_join, Nat.add_assoc]
    · rfl

theorem Settled.settleFront (h : Settled bs) : Settled (settleFront b bs) := by
  cases bs with
  | nil => exact .singleton b
  | cons c cs =>
    rw [Tiling.settleFront]
    split
    · rename_i hfree
      rcases h.behind_free (Bool.and_eq_true_iff.mp hfree).2 with rfl | ⟨d, ds, rfl, hd⟩
      · exact .singleton _
      · exact List.isChain_cons.mpr ⟨by simp [hd], h.tail⟩
    · rename_i hfree
      exact List.isChain_cons.mpr ⟨by simpa using hfree, h⟩

/-- No taken piece is moved. -/
@[simp] theorem occupied_coalesce : occupied a (coalesce bs) = occupied a bs := by
  induction bs generalizing a with
  | nil => rfl
  | cons b bs ih =>
    rw [coalesce, occupied_settleFront]
    cases hb : free b with
    | true => rw [occupied_cons_of_free hb, occupied_cons_of_free hb, ih]
    | false => rw [occupied_cons_of_taken hb, occupied_cons_of_taken hb, ih]

/-- Nor is the end. -/
@[simp] theorem stop_coalesce : stop a (coalesce bs) = stop a bs := by
  induction bs generalizing a with
  | nil => rfl
  | cons b bs ih => rw [coalesce, stop_settleFront, stop_cons, stop_cons, ih]

/-- **What it leaves is settled.** -/
theorem settled_coalesce (bs : List α) : Settled (coalesce bs) := by
  induction bs with
  | nil => exact .nil
  | cons b bs ih => exact ih.settleFront

/-- What holds of the pieces, and of what is joined of pieces it holds of, holds of what it leaves. -/
theorem forall_coalesce {P : α → Prop} (hjoin : ∀ b c, P b → P c → P (join b c)) (h : ∀ b ∈ bs, P b) :
    ∀ b ∈ coalesce bs, P b := by
  induction bs with
  | nil => exact h
  | cons b bs ih =>
    obtain ⟨hb, hbs⟩ := List.forall_mem_cons.mp h
    have hall := ih hbs
    rw [coalesce]
    generalize coalesce bs = cs at hall
    cases cs with
    | nil => exact List.forall_mem_cons.mpr ⟨hb, hall⟩
    | cons c cs =>
      obtain ⟨hc, hcs⟩ := List.forall_mem_cons.mp hall
      rw [settleFront]
      split
      · exact List.forall_mem_cons.mpr ⟨hjoin b c hb hc, hcs⟩
      · exact List.forall_mem_cons.mpr ⟨hb, hall⟩

/-- **It is the only settled row** with these taken pieces and this end. -/
theorem Settled.eq_coalesce (hc : Settled cs) (ht : occupied a cs = occupied a bs) (hs : stop a cs = stop a bs) :
    cs = coalesce bs :=
  hc.eq_of_occupied (settled_coalesce bs) (ht.trans occupied_coalesce.symm) (hs.trans stop_coalesce.symm)

end Cs162Hw.Library.Tiling
