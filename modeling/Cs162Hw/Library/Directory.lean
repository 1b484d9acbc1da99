import Mathlib.Data.Finset.Card

/-!
# Directories

A directory as a program sees it through `stat`, `open`, `remove` and `rename`:
a finite map from names to file contents. The finite support is part of the
structure, so a loop that tests `name 0`, `name 1`, … until `stat` fails stops,
and the position where it stops (`firstFree`) is computed with the number of
files as its bound.

Nothing here knows what the files are for. `Fills name m` says that the names
`name 0`, …, `name (m-1)` and no others of that family are taken — the shape both
a gapless log and a gapless chain of files have — and the lemmas say how writing
the next file, removing the last one and replacing one change it.
-/

namespace Cs162Hw.Library

/-- A directory: which names hold a file, and what the file holds. -/
structure Directory (N F : Type) where
  /-- The contents of the file of that name, if there is one. -/
  file : N → Option F
  /-- The names in use. -/
  names : Finset N
  /-- `names` lists exactly the files there are. -/
  mem_names : ∀ n, n ∈ names ↔ (file n).isSome

namespace Directory

variable {N F : Type}

/-- Two directories with the same files are the same. -/
@[ext]
theorem ext {d e : Directory N F} (h : ∀ n, d.file n = e.file n) : d = e := by
  obtain ⟨f, s, hs⟩ := d
  obtain ⟨g, t, ht⟩ := e
  obtain rfl : f = g := funext h
  obtain rfl : s = t := Finset.ext fun n => (hs n).trans (ht n).symm
  rfl

/-- `stat`: is there a file of that name? -/
def stat (d : Directory N F) (n : N) : Bool := (d.file n).isSome

theorem mem_names_iff_stat (d : Directory N F) (n : N) : n ∈ d.names ↔ d.stat n = true := d.mem_names n

/-- The empty directory. -/
def empty : Directory N F := ⟨fun _ => none, ∅, by simp⟩

@[simp] theorem file_empty (n : N) : (empty : Directory N F).file n = none := rfl

@[simp] theorem stat_empty (n : N) : (empty : Directory N F).stat n = false := rfl

variable [DecidableEq N]

/-- Create the file, or replace it. -/
def write (d : Directory N F) (n : N) (f : F) : Directory N F where
  file := Function.update d.file n (some f)
  names := insert n d.names
  mem_names m := by
    by_cases h : m = n
    · subst h; simp
    · simp [h, d.mem_names]

/-- Delete the file, if it is there. -/
def remove (d : Directory N F) (n : N) : Directory N F where
  file := Function.update d.file n none
  names := d.names.erase n
  mem_names m := by
    by_cases h : m = n
    · subst h; simp
    · simp [h, d.mem_names]

/-- Move the file `a` to the name `b`, over whatever was there. -/
def rename (d : Directory N F) (a b : N) : Directory N F :=
  match d.file a with
  | none => d
  | some f => (d.remove a).write b f

@[simp] theorem file_write_self (d : Directory N F) (n : N) (f : F) : (d.write n f).file n = some f := by
  simp [write]

theorem file_write (d : Directory N F) (n m : N) (f : F) :
    (d.write n f).file m = if m = n then some f else d.file m := by
  simp [write, Function.update_apply]

@[simp] theorem file_write_of_ne {d : Directory N F} {n m : N} {f : F} (h : m ≠ n) :
    (d.write n f).file m = d.file m := by simp [file_write, h]

@[simp] theorem file_remove_self (d : Directory N F) (n : N) : (d.remove n).file n = none := by
  simp [remove]

theorem file_remove (d : Directory N F) (n m : N) :
    (d.remove n).file m = if m = n then none else d.file m := by
  simp [remove, Function.update_apply]

@[simp] theorem file_remove_of_ne {d : Directory N F} {n m : N} (h : m ≠ n) :
    (d.remove n).file m = d.file m := by simp [file_remove, h]

theorem file_rename {d : Directory N F} {a b : N} {f : F} (h : d.file a = some f) (m : N) :
    (d.rename a b).file m = if m = b then some f else if m = a then none else d.file m := by
  simp [rename, h, file_write, file_remove]

@[simp] theorem write_write (d : Directory N F) (n : N) (f g : F) : (d.write n f).write n g = d.write n g := by
  ext m : 1
  simp only [file_write]
  split_ifs <;> rfl

/-! ### The first free position of a family of names -/

/-- Step from `i` while `p` holds, at most `fuel` times. -/
def scan (p : ℕ → Bool) : ℕ → ℕ → ℕ
  | 0, i => i
  | fuel + 1, i => if p i then scan p fuel (i + 1) else i

/-- Where the loop `while (stat(name i) != -1) i++;` stops when it starts at `i`. -/
def firstFree (d : Directory N F) (name : ℕ → N) (i : ℕ) : ℕ :=
  scan (fun j => d.stat (name j)) d.names.card i

omit [DecidableEq N] in
/-- A scan passes only positions where the test holds; unless it used all its
fuel, the test fails where it stops. -/
theorem scan_spec (p : ℕ → Bool) (fuel i : ℕ) :
    i ≤ scan p fuel i ∧ scan p fuel i ≤ i + fuel ∧ (∀ j, i ≤ j → j < scan p fuel i → p j = true) ∧
      (scan p fuel i < i + fuel → p (scan p fuel i) = false) := by
  induction fuel generalizing i with
  | zero => simp only [scan]; refine ⟨le_rfl, le_rfl, fun j h₁ h₂ => by omega, fun h => by omega⟩
  | succ n ih =>
    by_cases hp : p i = true
    · obtain ⟨h₁, h₂, h₃, h₄⟩ := ih (i + 1)
      simp only [scan, hp, if_true]
      refine ⟨by omega, by omega, fun j hj hlt => ?_, fun h => h₄ (by omega)⟩
      rcases Nat.eq_or_lt_of_le hj with rfl | hj
      · exact hp
      · exact h₃ j hj hlt
    · have hstop : scan p (n + 1) i = i := by rw [scan, if_neg hp]
      rw [hstop]
      exact ⟨le_rfl, by omega, fun j h₁ h₂ => by omega, fun _ => by simpa using hp⟩

/-- The names `name i`, …, `name (i + k - 1)`, all taken and all different, are at
most as many as there are files. -/
theorem le_card_of_taken {d : Directory N F} {name : ℕ → N} (hn : Function.Injective name) {i k : ℕ}
    (h : ∀ j, i ≤ j → j < i + k → d.stat (name j) = true) : k ≤ d.names.card := by
  have hsub : ((Finset.range k).image fun j => name (i + j)) ⊆ d.names := by
    intro n hmem
    obtain ⟨j, hj, rfl⟩ := Finset.mem_image.mp hmem
    exact (d.mem_names_iff_stat _).mpr (h _ (by omega) (by have := Finset.mem_range.mp hj; omega))
  have hcard : ((Finset.range k).image fun j => name (i + j)).card = k := by
    rw [Finset.card_image_of_injective, Finset.card_range]
    intro a b hab
    have := hn hab
    omega
  rw [← hcard]
  exact Finset.card_le_card hsub

/-- The loop stops at a free position, having passed only taken ones. -/
theorem firstFree_spec (d : Directory N F) {name : ℕ → N} (hn : Function.Injective name) (i : ℕ) :
    i ≤ d.firstFree name i ∧ (∀ j, i ≤ j → j < d.firstFree name i → d.stat (name j) = true) ∧
      d.stat (name (d.firstFree name i)) = false := by
  obtain ⟨h₁, h₂, h₃, h₄⟩ := scan_spec (fun j => d.stat (name j)) d.names.card i
  refine ⟨h₁, h₃, ?_⟩
  rcases Nat.lt_or_ge (d.firstFree name i) (i + d.names.card) with hlt | hge
  · exact h₄ hlt
  · -- all the fuel was used: one more taken name would be one too many
    by_contra hne
    have htaken : ∀ j, i ≤ j → j < i + (d.names.card + 1) → d.stat (name j) = true := by
      intro j hij hj
      rcases Nat.lt_or_ge j (d.firstFree name i) with hlt | hge'
      · exact h₃ j hij hlt
      · have : j = d.firstFree name i := by unfold firstFree at *; omega
        subst this
        simpa using hne
    have := le_card_of_taken hn htaken
    omega

omit [DecidableEq N] in
/-- From a free position the loop goes nowhere. -/
theorem firstFree_of_vacant {d : Directory N F} {name : ℕ → N} {i : ℕ} (h : d.stat (name i) = false) :
    d.firstFree name i = i := by
  unfold firstFree
  cases d.names.card with
  | zero => rfl
  | succ n => simp only [scan, h, Bool.false_eq_true, if_false]

/-- The family `name` is filled up to `m`: `name 0`, …, `name (m-1)` are taken and
no other. -/
def Fills (d : Directory N F) (name : ℕ → N) (m : ℕ) : Prop := ∀ i, d.stat (name i) = true ↔ i < m

omit [DecidableEq N] in
theorem fills_empty (name : ℕ → N) : (empty : Directory N F).Fills name 0 := by
  intro i
  simp

/-- From inside a filled family the loop stops at its end. -/
theorem Fills.firstFree_eq {d : Directory N F} {name : ℕ → N} (hn : Function.Injective name) {m i : ℕ}
    (h : d.Fills name m) (hi : i ≤ m) : d.firstFree name i = m := by
  obtain ⟨h₁, h₂, h₃⟩ := d.firstFree_spec hn i
  rcases lt_trichotomy (d.firstFree name i) m with hlt | heq | hgt
  · rw [(h _).mpr hlt] at h₃
    cases h₃
  · exact heq
  · exact absurd ((h m).mp (h₂ m hi hgt)) (lt_irrefl m)

/-- Writing the next file extends a filled family. -/
theorem Fills.write_next {d : Directory N F} {name : ℕ → N} (hn : Function.Injective name) {m : ℕ} {f : F}
    (h : d.Fills name m) : (d.write (name m) f).Fills name (m + 1) := by
  intro i
  have hi := h i
  simp only [stat, file_write] at hi ⊢
  by_cases him : i = m
  · subst him; simp
  · rw [if_neg (fun e => him (hn e)), hi]
    omega

/-- Writing over a file of a filled family, or outside the family, leaves it filled. -/
theorem Fills.write_of_stat {d : Directory N F} {name : ℕ → N} {m : ℕ} {n : N} {f : F}
    (h : d.Fills name m) (hn : d.stat n = true ∨ ∀ i, name i ≠ n) : (d.write n f).Fills name m := by
  intro i
  have hi := h i
  simp only [stat, file_write] at hi hn ⊢
  by_cases hin : name i = n
  · subst hin
    rcases hn with hn | hn
    · simpa [hn] using hi
    · exact absurd rfl (hn i)
  · rw [if_neg hin, hi]

/-! ### The same files, read in another way -/

section Map

variable {G : Type} (f : F → G) (d : Directory N F)

omit [DecidableEq N] in
/-- Every file holds `f` of what it held. -/
def map : Directory N G where
  file n := (d.file n).map f
  names := d.names
  mem_names n := by rw [d.mem_names, Option.isSome_map]

omit [DecidableEq N] in
@[simp] theorem file_map (n : N) : (d.map f).file n = (d.file n).map f := rfl

omit [DecidableEq N] in
@[simp] theorem stat_map (n : N) : (d.map f).stat n = d.stat n := Option.isSome_map

theorem map_write (n : N) (x : F) : (d.write n x).map f = (d.map f).write n (f x) := by
  ext m : 1
  rw [file_map, file_write, file_write, file_map]
  split_ifs <;> rfl

theorem map_remove (n : N) : (d.remove n).map f = (d.map f).remove n := by
  ext m : 1
  rw [file_map, file_remove, file_remove, file_map]
  split_ifs <;> rfl

theorem map_rename (a b : N) : (d.rename a b).map f = (d.map f).rename a b := by
  rw [rename, rename, file_map]
  cases d.file a with
  | none => rfl
  | some x => exact (map_write f _ b x).trans (by rw [map_remove]; rfl)

omit [DecidableEq N] in
theorem firstFree_map (name : ℕ → N) (i : ℕ) : (d.map f).firstFree name i = d.firstFree name i := by
  simp only [firstFree, stat_map]
  rfl

end Map

/-! ### Numbered files -/

/-- The directory whose files are numbered `0`, `1`, …, with the contents `l`. -/
def ofList (l : List F) : Directory ℕ F where
  file i := l[i]?
  names := Finset.range l.length
  mem_names i := by simp

omit [DecidableEq N] in
@[simp] theorem file_ofList (l : List F) (i : ℕ) : (ofList l).file i = l[i]? := rfl

omit [DecidableEq N] in
@[simp] theorem card_names_ofList (l : List F) : (ofList l).names.card = l.length := Finset.card_range _

omit [DecidableEq N] in
@[simp] theorem stat_ofList (l : List F) (i : ℕ) : (ofList l).stat i = decide (i < l.length) := by
  simp only [stat, file_ofList]
  by_cases h : i < l.length <;> simp [h]

omit [DecidableEq N] in
theorem ofList_nil : (ofList [] : Directory ℕ F) = empty := by
  ext i : 1
  simp

omit [DecidableEq N] in
theorem fills_ofList (l : List F) : (ofList l).Fills (fun i => i) l.length := by
  intro i
  simp

/-- The next number extends the list. -/
theorem write_ofList (l : List F) (f : F) : (ofList l).write l.length f = ofList (l ++ [f]) := by
  ext i : 1
  rw [file_write, file_ofList, file_ofList]
  rcases lt_trichotomy i l.length with hlt | rfl | hgt
  · rw [if_neg (by omega), List.getElem?_append_left hlt]
  · simp
  · rw [if_neg (by omega), List.getElem?_eq_none (by omega), List.getElem?_eq_none (by simp; omega)]

theorem firstFree_ofList (l : List F) {i : ℕ} (hi : i ≤ l.length) :
    (ofList l).firstFree (fun j => j) i = l.length :=
  (fills_ofList l).firstFree_eq (fun _ _ h => h) hi

end Directory

end Cs162Hw.Library
