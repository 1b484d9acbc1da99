import Mathlib.Data.Nat.Notation

/-!
# The heap of the allocator

Memory as `hw3/mm_alloc.c` sees it: cells up to the program break, of which each holds a
byte or one byte of the representation of a `slot`. To write a `slot` is to write all of its
cells, and to read one takes all of them: bytes written over a part of a header
destroy it, and a header written over data destroys that. What the source would do
through a pointer to anything else, or beyond the break, has no result here.

`sbrk` moves the break up or fails; what lies beyond the break beforehand is arbitrary.
-/

namespace Cs162Hw.Alloc

/-- `slot`. -/
structure Slot where
  /-- The slot before this one. -/
  prev : Option ℕ
  /-- The slot behind it. -/
  next : Option ℕ
  /-- Whether nobody uses it. -/
  isFree : Bool
  /-- The number of bytes behind the header. -/
  size : ℕ
  deriving DecidableEq

/-- `sizeof(slot)`. -/
def sizeofSlot : ℕ := 32

/-- What one address holds. -/
inductive Cell where
  /-- A byte. -/
  | byte (b : UInt8)
  /-- The `i`th byte of a slot. -/
  | header (s : Slot) (i : ℕ)
  deriving DecidableEq

/-- The heap and the variables of the allocator. -/
structure Heap where
  /-- Memory. -/
  mem : ℕ → Cell
  /-- The program break. -/
  brk : ℕ
  /-- `isInit`. -/
  isInit : Bool
  /-- `head`. -/
  head : Option ℕ
  /-- `tail`. -/
  tail : Option ℕ

namespace Heap

/-- The slot at an address. -/
def slot (h : Heap) (a : ℕ) : Option Slot :=
  match h.mem a with
  | .byte _ => none
  | .header s _ =>
    if a + sizeofSlot ≤ h.brk ∧ ∀ i < sizeofSlot, h.mem (a + i) = .header s i then some s else none

/-- Write a slot. -/
def putSlot (h : Heap) (a : ℕ) (s : Slot) : Option Heap :=
  if a + sizeofSlot ≤ h.brk then
    some { h with mem := fun x => if a ≤ x ∧ x < a + sizeofSlot then .header s (x - a) else h.mem x }
  else none

/-- Assign to fields of the slot at an address. -/
def update (h : Heap) (a : ℕ) (f : Slot → Slot) : Option Heap := do
  let s ← h.slot a
  h.putSlot a (f s)

/-- `memset(a, 0, n)`. -/
def memset (h : Heap) (a n : ℕ) : Option Heap :=
  if a + n ≤ h.brk then
    some { h with mem := fun x => if a ≤ x ∧ x < a + n then .byte 0 else h.mem x }
  else none

/-- `memcpy`. -/
def memcpy (h : Heap) (dst src n : ℕ) : Option Heap :=
  if dst + n ≤ h.brk ∧ src + n ≤ h.brk then
    some { h with mem := fun x => if dst ≤ x ∧ x < dst + n then h.mem (src + (x - dst)) else h.mem x }
  else none

/-- `sbrk`, which succeeds if `grow`: the break as it was, or `-1`. -/
def sbrk (h : Heap) (grow : Bool) (n : ℕ) : Option ℕ × Heap :=
  if grow then (some h.brk, { h with brk := h.brk + n }) else (none, h)

/-! ## What the operations change -/

/-- `h'` is `h` but for the cells from `lo` up to `hi`. -/
structure Alters (h h' : Heap) (lo hi : ℕ) : Prop where
  /-- The other cells. -/
  mem : ∀ x, x < lo ∨ hi ≤ x → h'.mem x = h.mem x
  /-- The break. -/
  brk : h'.brk = h.brk
  /-- `isInit`. -/
  isInit : h'.isInit = h.isInit
  /-- `head`. -/
  head : h'.head = h.head
  /-- `tail`. -/
  tail : h'.tail = h.tail

variable {h h' h'' : Heap} {a lo hi lo' hi' : ℕ} {s : Slot}

theorem Alters.refl (h : Heap) (lo hi : ℕ) : Alters h h lo hi := ⟨fun _ _ => rfl, rfl, rfl, rfl, rfl⟩

theorem Alters.mono (ha : Alters h h' lo hi) (hlo : lo' ≤ lo) (hhi : hi ≤ hi') : Alters h h' lo' hi' :=
  ⟨fun x hx => ha.mem x (by omega), ha.brk, ha.isInit, ha.head, ha.tail⟩

theorem Alters.trans (ha : Alters h h' lo hi) (hb : Alters h' h'' lo hi) : Alters h h'' lo hi :=
  ⟨fun x hx => (hb.mem x hx).trans (ha.mem x hx), hb.brk.trans ha.brk, hb.isInit.trans ha.isInit,
    hb.head.trans ha.head, hb.tail.trans ha.tail⟩

theorem slot_eq_some_iff :
    h.slot a = some s ↔ a + sizeofSlot ≤ h.brk ∧ ∀ i < sizeofSlot, h.mem (a + i) = .header s i := by
  constructor
  · intro hs
    rw [slot] at hs
    split at hs
    · cases hs
    · split at hs
      · next hall => exact Option.some.inj hs ▸ hall
      · cases hs
  · rintro ⟨hb, hall⟩
    have h0 : h.mem a = .header s 0 := hall 0 (by decide)
    simp only [slot, h0]
    exact if_pos ⟨hb, hall⟩

/-- A slot whose cells stay is still there. -/
theorem slot_congr (hs : h.slot a = some s) (hb : h.brk ≤ h'.brk)
    (hm : ∀ x, a ≤ x → x < a + sizeofSlot → h'.mem x = h.mem x) : h'.slot a = some s := by
  obtain ⟨hbrk, hall⟩ := slot_eq_some_iff.mp hs
  exact slot_eq_some_iff.mpr ⟨Nat.le_trans hbrk hb, fun i hi => (hm (a + i) (by omega) (by omega)).trans (hall i hi)⟩

/-- A slot out of the way of a change is still there. -/
theorem Alters.slot (ha : Alters h h' lo hi) (hs : h.slot a = some s) (hout : a + sizeofSlot ≤ lo ∨ hi ≤ a) :
    h'.slot a = some s :=
  slot_congr hs (Nat.le_of_eq ha.brk.symm) fun x h₁ h₂ => ha.mem x (by omega)

/-- A slot lies below the break. -/
theorem slot_lt_brk (hs : h.slot a = some s) : a + sizeofSlot ≤ h.brk := (slot_eq_some_iff.mp hs).1

theorem putSlot_spec (s : Slot) (hb : a + sizeofSlot ≤ h.brk) :
    ∃ h', h.putSlot a s = some h' ∧ h'.slot a = some s ∧ Alters h h' a (a + sizeofSlot) := by
  refine ⟨_, if_pos hb, slot_eq_some_iff.mpr ⟨hb, fun i hi => ?_⟩, ?_, rfl, rfl, rfl, rfl⟩
  · show (if a ≤ a + i ∧ a + i < a + sizeofSlot then _ else _) = _
    rw [if_pos (by omega), Nat.add_sub_cancel_left]
  · exact fun x hx => if_neg (by omega)

theorem update_spec (f : Slot → Slot) (hs : h.slot a = some s) :
    ∃ h', h.update a f = some h' ∧ h'.slot a = some (f s) ∧ Alters h h' a (a + sizeofSlot) := by
  obtain ⟨h', hput, hslot, ha⟩ := putSlot_spec (f s) (slot_lt_brk hs)
  exact ⟨h', by rw [update, hs]; exact hput, hslot, ha⟩

theorem memset_spec {n : ℕ} (hb : a + n ≤ h.brk) :
    ∃ h', h.memset a n = some h' ∧ Alters h h' a (a + n) ∧ ∀ x, a ≤ x → x < a + n → h'.mem x = .byte 0 :=
  ⟨_, if_pos hb, ⟨fun _ _ => if_neg (by omega), rfl, rfl, rfl, rfl⟩, fun _ _ _ => if_pos (by omega)⟩

theorem memcpy_spec {dst src n : ℕ} (hd : dst + n ≤ h.brk) (hsrc : src + n ≤ h.brk) :
    ∃ h', h.memcpy dst src n = some h' ∧ Alters h h' dst (dst + n) ∧
      ∀ i < n, h'.mem (dst + i) = h.mem (src + i) := by
  refine ⟨_, if_pos ⟨hd, hsrc⟩, ⟨fun _ _ => if_neg (by omega), rfl, rfl, rfl, rfl⟩, fun i hi => ?_⟩
  show (if dst ≤ dst + i ∧ dst + i < dst + n then _ else _) = _
  rw [if_pos (by omega), Nat.add_sub_cancel_left]

end Heap

end Cs162Hw.Alloc
