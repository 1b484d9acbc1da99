import Mathlib.Data.Finset.Card
import Mathlib.Data.Finset.Range
import Mathlib.Data.Nat.Notation
import Mathlib.Logic.Function.Basic

/-!
# File descriptors

The table in which a process keeps what it has open. There are so many descriptors; what is opened, or duplicated, gets the
lowest that is free, and fails where none is. A call that fails returns `-1`, here `none`, and to use that as a
descriptor changes nothing.

* `opened`, `dup`, `dup2` and `close` are the calls.
* `count`: how many descriptors have a file of a kind under them; `count_set` — how that changes.
* `free` are the descriptors that can still be given out. `opened_spec` and `dup_spec` say what happens while there is one.
* **`restore_redirect`**: a descriptor is pointed at something else, its old meaning kept under another, and pointed back.
-/

namespace Cs162Hw.Library

variable {F : Type*}

/-- What a process has open. -/
@[ext]
structure Descriptors (F : Type*) where
  /-- How many descriptors there are. -/
  limit : ℕ
  /-- What is open under a descriptor. -/
  file : ℕ → Option F

namespace Descriptors

variable (t : Descriptors F)

/-- Something else is under the descriptor, or nothing. -/
def set (fd : ℕ) (f : Option F) : Descriptors F := { t with file := Function.update t.file fd f }

/-- The lowest descriptor that is free. -/
def lowest : Option ℕ := (List.range t.limit).find? fun fd => (t.file fd).isNone

/-- Something is opened, or cannot be. -/
def opened : Option F → Option ℕ × Descriptors F
  | none => (none, t)
  | some f =>
    match t.lowest with
    | none => (none, t)
    | some fd => (some fd, t.set fd (some f))

/-- `dup`. -/
def dup (fd : ℕ) : Option ℕ × Descriptors F := t.opened (t.file fd)

/-- `dup2`. -/
def dup2 (old : Option ℕ) (new : ℕ) : Descriptors F :=
  match old.bind t.file with
  | none => t
  | some f => t.set new (some f)

/-- `close`. -/
def close : Option ℕ → Descriptors F
  | none => t
  | some fd => t.set fd none

/-- The descriptors that can still be given out. -/
def free : Finset ℕ := (Finset.range t.limit).filter fun fd => (t.file fd).isNone

variable {t}

@[simp] theorem set_file_self (fd : ℕ) (f : Option F) : (t.set fd f).file fd = f := Function.update_self ..

theorem set_file_of_ne {fd fd' : ℕ} (h : fd' ≠ fd) (f : Option F) : (t.set fd f).file fd' = t.file fd' :=
  Function.update_of_ne h ..

@[simp] theorem set_limit (fd : ℕ) (f : Option F) : (t.set fd f).limit = t.limit := rfl

theorem set_comm {fd fd' : ℕ} (h : fd ≠ fd') (f f' : Option F) : (t.set fd f).set fd' f' = (t.set fd' f').set fd f :=
  congrArg (Descriptors.mk t.limit) (Function.update_comm h ..)

theorem set_set (fd : ℕ) (f f' : Option F) : (t.set fd f).set fd f' = t.set fd f' :=
  congrArg (Descriptors.mk t.limit) (Function.update_idem ..)

theorem set_eq_self {fd : ℕ} {f : Option F} (h : t.file fd = f) : t.set fd f = t :=
  congrArg (Descriptors.mk t.limit) (h ▸ Function.update_eq_self fd t.file)

theorem mem_free {fd : ℕ} : fd ∈ t.free ↔ fd < t.limit ∧ t.file fd = none := by
  rw [free, Finset.mem_filter, Finset.mem_range, Option.isNone_iff_eq_none]

/-- What is given out is not free any more. -/
theorem free_set_some (fd : ℕ) (f : F) : (t.set fd (some f)).free = t.free.erase fd := by
  ext fd'
  rw [Finset.mem_erase, mem_free, mem_free, set_limit]
  by_cases h : fd' = fd
  · subst h
    rw [set_file_self]
    exact ⟨fun h => absurd h.2 (Option.some_ne_none f), fun h => absurd rfl h.1⟩
  · rw [set_file_of_ne h]
    exact ⟨fun hfree => ⟨h, hfree⟩, fun hfree => hfree.2⟩

theorem card_free_set_some_add_one {fd : ℕ} (h : fd ∈ t.free) (f : F) : (t.set fd (some f)).free.card + 1 = t.free.card := by
  rw [free_set_some, Finset.card_erase_add_one h]

/-- The lowest is a free one, and there is one as long as any is free. -/
theorem lowest_mem {fd : ℕ} (h : t.lowest = some fd) : fd ∈ t.free := by
  have hnone := List.find?_some h
  exact mem_free.mpr ⟨List.mem_range.mp (List.mem_of_find?_eq_some h), Option.isNone_iff_eq_none.mp hnone⟩

theorem lowest_eq_none_iff : t.lowest = none ↔ t.free.card = 0 := by
  rw [lowest, List.find?_eq_none, Finset.card_eq_zero, Finset.eq_empty_iff_forall_notMem]
  constructor
  · intro h fd hfd
    rw [mem_free] at hfd
    exact h fd (List.mem_range.mpr hfd.1) (Option.isNone_iff_eq_none.mpr hfd.2)
  · intro h fd hfd hnone
    exact h fd (mem_free.mpr ⟨List.mem_range.mp hfd, Option.isNone_iff_eq_none.mp hnone⟩)

theorem exists_lowest (h : 0 < t.free.card) : ∃ fd ∈ t.free, t.lowest = some fd := by
  cases hlow : t.lowest with
  | none =>
    rw [lowest_eq_none_iff.mp hlow] at h
    exact absurd h (Nat.lt_irrefl 0)
  | some fd => exact ⟨fd, lowest_mem hlow, rfl⟩

/-- Something is opened while there is a descriptor for it. -/
theorem opened_spec (h : 0 < t.free.card) (f : F) : ∃ fd ∈ t.free, t.opened (some f) = (some fd, t.set fd (some f)) := by
  obtain ⟨fd, hfd, hlow⟩ := exists_lowest h
  exact ⟨fd, hfd, by rw [opened, hlow]⟩

theorem dup_spec (h : 0 < t.free.card) {fd : ℕ} {f : F} (hf : t.file fd = some f) :
    ∃ fd' ∈ t.free, t.dup fd = (some fd', t.set fd' (some f)) := by
  rw [dup, hf]
  exact opened_spec h f

/-- Nothing can be opened, or anything, and then under the same descriptor. -/
theorem opened_cases (t : Descriptors F) : (t.free.card = 0 ∧ ∀ f, t.opened (some f) = (none, t)) ∨
    ∃ fd ∈ t.free, ∀ f, t.opened (some f) = (some fd, t.set fd (some f)) := by
  cases hlow : t.lowest with
  | none => exact Or.inl ⟨lowest_eq_none_iff.mp hlow, fun f => by rw [opened, hlow]⟩
  | some fd => exact Or.inr ⟨fd, lowest_mem hlow, fun f => by rw [opened, hlow]⟩

/-- Only files below the limit are open. -/
def Bounded (t : Descriptors F) : Prop := ∀ fd, t.file fd ≠ none → fd < t.limit

theorem Bounded.set {fd : ℕ} (h : t.Bounded) (hfd : fd < t.limit) (f : Option F) : (t.set fd f).Bounded := by
  intro fd' hfd'
  by_cases heq : fd' = fd
  · exact heq ▸ hfd
  · rw [set_file_of_ne heq] at hfd'
    exact h fd' hfd'

/-- How many descriptors have under them what `p` says. -/
def count (t : Descriptors F) (p : Option F → Bool) : ℕ := ((Finset.range t.limit).filter fun fd => p (t.file fd)).card

theorem count_isNone : t.count Option.isNone = t.free.card := rfl

/-- Something else is under one of them. -/
theorem count_set {fd : ℕ} (h : fd < t.limit) (f : Option F) (p : Option F → Bool) :
    (t.set fd f).count p + (p (t.file fd)).toNat = t.count p + (p f).toNat := by
  have hmem : fd ∈ Finset.range t.limit := Finset.mem_range.mpr h
  have hsplit : ∀ q : ℕ → Bool, ((Finset.range t.limit).filter fun fd' => q fd').card =
      (((Finset.range t.limit).erase fd).filter fun fd' => q fd').card + (q fd).toNat := by
    intro q
    rw [Finset.filter_erase]
    cases hq : q fd with
    | true => rw [Bool.toNat_true, Finset.card_erase_add_one (Finset.mem_filter.mpr ⟨hmem, hq⟩)]
    | false =>
      have hnot : fd ∉ (Finset.range t.limit).filter fun fd' => q fd' := fun hc =>
        Bool.false_ne_true (hq.symm.trans (Finset.mem_filter.mp hc).2)
      rw [Finset.erase_eq_of_notMem hnot]
      rfl
  have hsame : (((Finset.range t.limit).erase fd).filter fun fd' => p ((t.set fd f).file fd')) =
      ((Finset.range t.limit).erase fd).filter fun fd' => p (t.file fd') := by
    refine Finset.filter_congr fun fd' hfd' => ?_
    rw [set_file_of_ne (Finset.ne_of_mem_erase hfd')]
  have hnew := hsplit fun fd' => p ((t.set fd f).file fd')
  have hold := hsplit fun fd' => p (t.file fd')
  simp only [set_file_self, hsame] at hnew
  simp only [count, set_limit]
  omega

/-! ## Redirection -/

/-- `std` is pointed at what is opened, and what it was is kept. -/
def redirect (t : Descriptors F) (std : ℕ) (f : Option F) : Option ℕ × Descriptors F :=
  let (out, t) := t.opened f
  let (save, t) := t.dup std
  let t := t.dup2 out std
  (save, t.close out)

/-- It is pointed back. -/
def restore (t : Descriptors F) (std : ℕ) (save : Option ℕ) : Descriptors F :=
  (t.dup2 save std).close save

/-- With two descriptors to spare: what was under `std` is under a free one, and under `std` is what has been opened, or,
if it could not be opened, what was there. -/
theorem redirect_spec {std : ℕ} {f₀ : F} (hstd : t.file std = some f₀) (h : 2 ≤ t.free.card) (f : Option F) :
    ∃ save ∈ t.free, t.redirect std f = (some save, (t.set save (some f₀)).set std (some (f.getD f₀))) := by
  have hne : ∀ fd ∈ t.free, std ≠ fd := by
    rintro fd hfd rfl
    rw [mem_free, hstd] at hfd
    cases hfd.2
  cases f with
  | none =>
    obtain ⟨save, hsave, hdup⟩ := dup_spec (Nat.lt_of_lt_of_le Nat.zero_lt_two h) hstd
    refine ⟨save, hsave, ?_⟩
    have hself : (t.set save (some f₀)).set std (some f₀) = t.set save (some f₀) := by
      rw [set_comm (hne save hsave).symm, set_eq_self hstd]
    simp only [redirect, opened, hdup, dup2, close, Option.bind_none, Option.getD_none, hself]
  | some f =>
    obtain ⟨out, hout, hopened⟩ := opened_spec (Nat.lt_of_lt_of_le Nat.zero_lt_two h) f
    have hcard := card_free_set_some_add_one hout f
    have hstd' : (t.set out (some f)).file std = some f₀ := by rw [set_file_of_ne (hne out hout), hstd]
    obtain ⟨save, hsave, hdup⟩ := dup_spec (t := t.set out (some f)) (by omega) hstd'
    rw [free_set_some, Finset.mem_erase] at hsave
    refine ⟨save, hsave.2, ?_⟩
    have hfile : ((t.set out (some f)).set save (some f₀)).file out = some f := by
      rw [set_file_of_ne hsave.1.symm, set_file_self]
    have hnone : t.set out none = t := set_eq_self (mem_free.mp hout).2
    have hclose : (((t.set out (some f)).set save (some f₀)).set std (some f)).set out none =
        (t.set save (some f₀)).set std (some f) := by
      rw [set_comm (hne out hout), set_comm hsave.1, set_set, hnone]
    simp only [redirect, hopened, hdup, dup2, close, Option.bind_some, hfile, Option.getD_some, hclose]

/-- **Pointed at something and back**, a descriptor is what it was, and so is everything else. -/
theorem restore_redirect {std save : ℕ} {f₀ f : F} (hstd : t.file std = some f₀) (hsave : save ∈ t.free) :
    ((t.set save (some f₀)).set std (some f)).restore std (some save) = t := by
  have hne : std ≠ save := by
    rintro rfl
    rw [mem_free, hstd] at hsave
    cases hsave.2
  have hfile : ((t.set save (some f₀)).set std (some f)).file save = some f₀ := by
    rw [set_file_of_ne hne.symm, set_file_self]
  simp only [restore, dup2, close, Option.bind_some, hfile]
  rw [set_set, set_comm hne, set_set, set_eq_self (mem_free.mp hsave).2, set_eq_self hstd]

/-- What else is changed meanwhile stays. -/
theorem restore_set {std save fd : ℕ} (hstd : fd ≠ std) (hsave : fd ≠ save) (f : Option F) :
    (t.set fd f).restore std (some save) = (t.restore std (some save)).set fd f := by
  simp only [restore, dup2, close, Option.bind_some, set_file_of_ne hsave.symm]
  cases t.file save with
  | none => exact set_comm hsave f none
  | some g =>
    change ((t.set fd f).set std (some g)).set save none = ((t.set std (some g)).set save none).set fd f
    rw [set_comm hstd, set_comm hsave]

/-- Two descriptors are pointed at something, the second after the first, and pointed back in the same order. -/
theorem restore_both {std std' save save' : ℕ} {f₀ f f₀' f' : F} (hne : std ≠ std') (hstd : t.file std = some f₀)
    (hstd' : t.file std' = some f₀') (hsave : save ∈ t.free)
    (hsave' : save' ∈ ((t.set save (some f₀)).set std (some f)).free) :
    (((((t.set save (some f₀)).set std (some f)).set save' (some f₀')).set std' (some f')).restore std (some save)).restore std'
      (some save') = t := by
  have hone : std' ≠ save := by
    rintro rfl
    rw [mem_free, hstd'] at hsave
    cases hsave.2
  rw [free_set_some, Finset.mem_erase, free_set_some, Finset.mem_erase] at hsave'
  rw [restore_set hne.symm hone, restore_set hsave'.1 hsave'.2.1, restore_redirect hstd hsave]
  exact restore_redirect hstd' hsave'.2.2

end Descriptors

end Cs162Hw.Library
