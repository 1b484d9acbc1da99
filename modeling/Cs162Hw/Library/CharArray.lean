import Mathlib.Data.List.Basic
import Mathlib.Order.Nat

/-!
# Arrays of characters

An array that strings are put into, cell by cell. To write behind its end is a fault, and so is to read a cell that has not
been written to, or to look for a terminator that is not there.

* `Holds`: a string and its terminator at the beginning of the array.
* `write_eq`: bytes one behind the other, if there is room for them.
* `strcpy_holds`, `Holds.strcat`, `Holds.write`: what the array holds afterwards.
-/

namespace Cs162Hw.Library

/-- An array of characters. A cell that has not been written to holds none. -/
structure CharArray where
  /-- Its cells. -/
  cells : List (Option UInt8)

namespace CharArray

/-- `sizeof`. -/
def size (a : CharArray) : ℕ := a.cells.length

/-- An array to which nothing has been written. -/
def uninit (n : ℕ) : CharArray := ⟨.replicate n none⟩

/-- An array after `memset(a, '\0', sizeof(a))`. -/
def zeroed (n : ℕ) : CharArray := ⟨.replicate n (some 0)⟩

/-- `a[i] = c`. -/
def set (a : CharArray) (i : ℕ) (c : UInt8) : Option CharArray :=
  if i < a.size then some ⟨a.cells.set i (some c)⟩ else none

/-- Bytes one behind the other, from `a[i]` on. -/
def write (a : CharArray) (i : ℕ) : List UInt8 → Option CharArray
  | [] => some a
  | c :: s => do
    let a ← a.set i c
    a.write (i + 1) s

/-- The string that starts some cells. -/
def textOf : List (Option UInt8) → Option (List UInt8)
  | [] => none
  | none :: _ => none
  | some c :: cells => if c = 0 then some [] else (textOf cells).map (c :: ·)

/-- The string in the array. -/
def text (a : CharArray) : Option (List UInt8) := textOf a.cells

/-- `strlen(a)`. -/
def strlen (a : CharArray) : Option ℕ := a.text.map List.length

/-- `strcpy(a, s)`; `sprintf(a, …)`, `s` being what is printed. -/
def strcpy (a : CharArray) (s : List UInt8) : Option CharArray := a.write 0 (s ++ [0])

/-- `strcat(a, s)`. -/
def strcat (a : CharArray) (s : List UInt8) : Option CharArray := do
  let i ← a.strlen
  a.write i (s ++ [0])

/-- The array holds the string. -/
def Holds (a : CharArray) (s : List UInt8) : Prop := ∃ rest, a.cells = s.map some ++ some 0 :: rest

@[simp] theorem size_uninit (n : ℕ) : (uninit n).size = n := List.length_replicate

@[simp] theorem size_zeroed (n : ℕ) : (zeroed n).size = n := List.length_replicate

variable {a a' : CharArray} {i : ℕ} {s t : List UInt8}

/-- What is written if there is room. -/
theorem write_eq (h : i + s.length ≤ a.size) :
    a.write i s = some ⟨a.cells.take i ++ (s.map some ++ a.cells.drop (i + s.length))⟩ := by
  induction s generalizing a i with
  | nil => rw [write, List.map_nil, List.nil_append, List.length_nil, Nat.add_zero, List.take_append_drop]
  | cons c s ih =>
    rw [List.length_cons] at h
    have hi : i < a.cells.length := by
      rw [size] at h
      omega
    have hset : a.set i c = some ⟨a.cells.set i (some c)⟩ := if_pos hi
    have hroom : i + 1 + s.length ≤ (⟨a.cells.set i (some c)⟩ : CharArray).size := by
      rw [size, List.length_set]
      rw [size] at h
      omega
    rw [write, hset, Option.bind_eq_bind, Option.bind_some, ih hroom]
    have htake : (a.cells.set i (some c)).take (i + 1) = a.cells.take i ++ [some c] := by
      rw [List.take_succ_eq_append_getElem (by rwa [List.length_set]), List.getElem_set_self, List.take_set_of_le le_rfl]
    have hdrop : (a.cells.set i (some c)).drop (i + 1 + s.length) = a.cells.drop (i + (s.length + 1)) := by
      rw [List.drop_set_of_lt (by omega), Nat.add_right_comm, Nat.add_assoc]
    rw [htake, hdrop, List.append_assoc, List.length_cons, List.map_cons]
    rfl

/-- It is as large as before. -/
theorem size_write (h : a.write i s = some a') : a'.size = a.size := by
  induction s generalizing a i with
  | nil => rw [← Option.some.inj h]
  | cons c s ih =>
    rw [write, Option.bind_eq_bind, set] at h
    split_ifs at h
    · rw [Option.bind_some] at h
      rw [ih h, size, List.length_set, size]
    · cases h

theorem textOf_append (hs : 0 ∉ s) (cells : List (Option UInt8)) : textOf (s.map some ++ some 0 :: cells) = some s := by
  induction s with
  | nil => rfl
  | cons c s ih =>
    rw [List.mem_cons, not_or] at hs
    rw [List.map_cons, List.cons_append, textOf, if_neg (Ne.symm hs.1), ih hs.2, Option.map_some]

theorem Holds.text (h : a.Holds s) (hs : 0 ∉ s) : a.text = some s := by
  obtain ⟨rest, hcells⟩ := h
  rw [CharArray.text, hcells, textOf_append hs]

theorem Holds.strlen (h : a.Holds s) (hs : 0 ∉ s) : a.strlen = some s.length := by
  rw [CharArray.strlen, h.text hs, Option.map_some]

/-- A string that is written over the terminator of another. -/
theorem Holds.write (h : a.Holds s) (hroom : s.length + t.length + 1 ≤ a.size) :
    ∃ a', a.write s.length (t ++ [0]) = some a' ∧ a'.Holds (s ++ t) ∧ a'.size = a.size := by
  have hlen : s.length + (t ++ [0]).length ≤ a.size := by
    rw [List.length_append, List.length_singleton]
    omega
  refine ⟨_, write_eq hlen, ?_, size_write (write_eq hlen)⟩
  obtain ⟨rest, hcells⟩ := h
  have htake : a.cells.take s.length = s.map some := by
    rw [hcells, List.take_left' (List.length_map ..)]
  refine ⟨a.cells.drop (s.length + (t ++ [0]).length), ?_⟩
  rw [htake, List.map_append, List.map_append, List.append_assoc, List.append_assoc]
  rfl

theorem Holds.strcat (h : a.Holds s) (hs : 0 ∉ s) (hroom : s.length + t.length + 1 ≤ a.size) :
    ∃ a', a.strcat t = some a' ∧ a'.Holds (s ++ t) ∧ a'.size = a.size := by
  rw [CharArray.strcat, h.strlen hs]
  exact h.write hroom

/-- A string with a terminator needs a cell more than it has characters. -/
theorem strcpy_holds (h : s.length + 1 ≤ a.size) : ∃ a', a.strcpy s = some a' ∧ a'.Holds s ∧ a'.size = a.size := by
  have hlen : 0 + (s ++ [0]).length ≤ a.size := by
    rw [List.length_append, List.length_singleton]
    omega
  refine ⟨_, write_eq hlen, ⟨a.cells.drop (0 + (s ++ [0]).length), ?_⟩, size_write (write_eq hlen)⟩
  rw [List.take_zero, List.nil_append, List.map_append, List.append_assoc]
  rfl

end CharArray

end Cs162Hw.Library
