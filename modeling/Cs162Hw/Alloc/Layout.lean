import Cs162Hw.Library.Tiling
import Cs162Hw.Alloc.MmAlloc

/-!
# The list of slots

What a heap is a representation of: a list of blocks, free and used, laid end to end
(`Library.Tiling`) from where `head` is up to the break, each behind its header.
`headers` are the slots that stand for such a list, with their links, and `Rep` says that
they are what memory holds.

`Rep.replace` is the one step of all that follows: blocks in the middle may be replaced by
others of the same total width, if their headers are written, and those of the
neighbours keep their links.
-/

namespace Cs162Hw.Alloc

open Library Library.Tiling

/-- A block behind a header. -/
structure Block where
  /-- Whether nobody uses it. -/
  isFree : Bool
  /-- The number of its bytes. -/
  size : ℕ
  deriving DecidableEq

/-- It takes its header and its bytes. -/
instance : Piece Block := ⟨fun b => sizeofSlot + b.size⟩

theorem width_eq (b : Block) : width b = sizeofSlot + b.size := rfl

/-- Where the first of them is, `next` being what comes behind them. -/
def first (a : ℕ) (next : Option ℕ) : List Block → Option ℕ
  | [] => next
  | _ :: _ => some a

/-- Where the last of them is, `prev` being what comes before them. -/
def last (prev : Option ℕ) (a : ℕ) : List Block → Option ℕ
  | [] => prev
  | b :: bs => last (some a) (a + width b) bs

/-- Their headers. -/
def headers (prev : Option ℕ) (a : ℕ) (next : Option ℕ) : List Block → List (ℕ × Slot)
  | [] => []
  | b :: bs =>
    (a, ⟨prev, first (a + width b) next bs, b.isFree, b.size⟩) :: headers (some a) (a + width b) next bs

section

variable {prev next : Option ℕ} {a : ℕ} {b : Block} {bs cs : List Block}

@[simp] theorem first_nil : first a next [] = next := rfl

@[simp] theorem first_cons : first a next (b :: bs) = some a := rfl

@[simp] theorem last_nil : last prev a [] = prev := rfl

@[simp] theorem last_cons : last prev a (b :: bs) = last (some a) (a + width b) bs := rfl

@[simp] theorem headers_nil : headers prev a next [] = [] := rfl

@[simp] theorem headers_cons :
    headers prev a next (b :: bs) =
      (a, ⟨prev, first (a + width b) next bs, b.isFree, b.size⟩) :: headers (some a) (a + width b) next bs := rfl

@[simp] theorem first_append : first a next (bs ++ cs) = first a (first (stop a bs) next cs) bs := by
  cases bs <;> rfl

@[simp] theorem last_append : last prev a (bs ++ cs) = last (last prev a bs) (stop a bs) cs := by
  induction bs generalizing prev a with
  | nil => rfl
  | cons b bs ih => exact ih

@[simp] theorem headers_append :
    headers prev a next (bs ++ cs) =
      headers prev a (first (stop a bs) next cs) bs ++ headers (last prev a bs) (stop a bs) next cs := by
  induction bs generalizing prev a with
  | nil => rfl
  | cons b bs ih => simp [ih]

/-- A header is that of a block. -/
theorem mem_headers {x : ℕ} {s : Slot} (h : (x, s) ∈ headers prev a next bs) :
    ∃ pre b post, bs = pre ++ b :: post ∧ x = stop a pre ∧ s.isFree = b.isFree ∧ s.size = b.size := by
  induction bs generalizing prev a with
  | nil => cases h
  | cons b bs ih =>
    rcases List.mem_cons.mp h with h | h
    · obtain ⟨rfl, rfl⟩ := Prod.mk.inj h
      exact ⟨[], b, bs, rfl, rfl, rfl, rfl⟩
    · obtain ⟨pre, c, post, rfl, hx⟩ := ih h
      exact ⟨b :: pre, c, post, rfl, hx⟩

/-- Headers lie between the ends of the blocks. -/
theorem headers_bounds {p : ℕ × Slot} (h : p ∈ headers prev a next bs) :
    a ≤ p.1 ∧ p.1 + sizeofSlot + p.2.size ≤ stop a bs := by
  obtain ⟨pre, b, post, rfl, hx, -, hsize⟩ := mem_headers h
  rw [hx, hsize, Nat.add_assoc]
  exact ⟨le_stop, by rw [stop_append, stop_cons]; exact le_stop⟩

/-- Each block takes a header at least. -/
theorem length_le_stop : a + bs.length * sizeofSlot ≤ stop a bs := by
  induction bs generalizing a with
  | nil => simp
  | cons b bs ih =>
    have := @ih (a + width b)
    rw [List.length_cons, stop_cons, Nat.succ_mul]
    rw [width_eq] at this ⊢
    omega

end

namespace Heap

/-- Memory holds these slots. -/
def Holds (h : Heap) (l : List (ℕ × Slot)) : Prop := ∀ p ∈ l, h.slot p.1 = some p.2

variable {h h' : Heap} {l m : List (ℕ × Slot)} {lo hi base a : ℕ} {prev next : Option ℕ}
  {pre mid mid' post bs : List Block} {b : Block}

@[simp] theorem holds_nil : h.Holds [] := fun _ hp => absurd hp List.not_mem_nil

@[simp] theorem holds_cons {p : ℕ × Slot} : h.Holds (p :: l) ↔ h.slot p.1 = some p.2 ∧ h.Holds l := List.forall_mem_cons

@[simp] theorem holds_append : h.Holds (l ++ m) ↔ h.Holds l ∧ h.Holds m := List.forall_mem_append

/-- Blocks before a change keep their headers. -/
theorem Holds.before (hs : h.Holds (headers prev a next bs)) (ha : Alters h h' lo hi) (hlo : stop a bs ≤ lo) :
    h'.Holds (headers prev a next bs) := fun p hp =>
  ha.slot (hs p hp) (.inl (by have := (headers_bounds hp).2; omega))

/-- So do blocks behind it. -/
theorem Holds.behind (hs : h.Holds (headers prev a next bs)) (ha : Alters h h' lo hi) (hhi : hi ≤ a) :
    h'.Holds (headers prev a next bs) := fun p hp =>
  ha.slot (hs p hp) (.inr (by have := (headers_bounds hp).1; omega))

/-- The heap consists of these blocks, from `base` up to the break. -/
structure Rep (h : Heap) (base : ℕ) (bs : List Block) : Prop where
  /-- There has been a call. -/
  isInit : h.isInit = true
  /-- Where the first block is. -/
  head : h.head = some base
  /-- Where the last is. -/
  tail : h.tail = last none base bs
  /-- Where it ends. -/
  brk : stop base bs = h.brk
  /-- The headers. -/
  slots : h.Holds (headers none base none bs)

/-- The same heap with another last slot. -/
abbrev setTail (h : Heap) (tail : Option ℕ) : Heap := { h with tail := tail }

theorem Alters.setTail (ha : Alters h h' lo hi) (t : Option ℕ) : Alters (h.setTail t) (h'.setTail t) lo hi :=
  ⟨ha.mem, ha.brk, ha.isInit, ha.head, rfl⟩

/-- **Replacing blocks** in the middle: their own headers and the links of what comes behind them are written, and
nothing else. -/
theorem Rep.replace (hr : h.Rep base (pre ++ mid ++ post)) (hne : mid ≠ []) (hne' : mid' ≠ [])
    (hstop : stop (stop base pre) mid' = stop (stop base pre) mid)
    (ha : Alters (h.setTail (last none base (pre ++ mid' ++ post))) h' (stop base pre)
      (stop (stop base pre) mid + sizeofSlot))
    (hmid : h'.Holds (headers (last none base pre) (stop base pre) (first (stop (stop base pre) mid) none post) mid'))
    (hpost : h'.Holds (headers (last (last none base pre) (stop base pre) mid') (stop (stop base pre) mid) none post)) :
    h'.Rep base (pre ++ mid' ++ post) where
  isInit := ha.isInit.trans hr.isInit
  head := ha.head.trans hr.head
  tail := ha.tail
  brk := by
    have hbrk := hr.brk
    rw [stop_append, stop_append] at hbrk ⊢
    rw [hstop, hbrk]
    exact ha.brk.symm
  slots := by
    have hslots := hr.slots
    simp only [headers_append, holds_append, stop_append, last_append] at hslots ⊢
    have hfirst : ∀ n, first (stop base pre) n mid' = first (stop base pre) n mid := by
      intro n
      cases mid with
      | nil => exact absurd rfl hne
      | cons c mid =>
        cases mid' with
        | nil => exact absurd rfl hne'
        | cons c' mid' => rfl
    rw [hstop]
    refine ⟨⟨?_, hmid⟩, hpost⟩
    rw [hfirst]
    have hpre : (h.setTail (last none base (pre ++ mid' ++ post))).Holds
        (headers none base (first (stop base pre) (first (stop (stop base pre) mid) none post) mid) pre) := hslots.1.1
    exact hpre.before ha le_rfl

/-- What a heap is around one of its blocks. -/
theorem Rep.around (hr : h.Rep base (pre ++ [b] ++ post)) :
    h.slot (stop base pre) =
        some ⟨last none base pre, first (stop base pre + width b) none post, b.isFree, b.size⟩ ∧
      h.Holds (headers (some (stop base pre)) (stop base pre + width b) none post) ∧
      h.tail = last (some (stop base pre)) (stop base pre + width b) post ∧
      stop base pre + width b ≤ h.brk := by
  have hslots := hr.slots
  have htail := hr.tail
  have hbrk := hr.brk
  simp only [headers_append, headers_cons, headers_nil, holds_append, holds_cons, stop_append, stop_cons, stop_nil,
    last_append, last_cons, last_nil, first_nil] at hslots htail hbrk
  exact ⟨hslots.1.2.1, hslots.2, htail, hbrk ▸ le_stop⟩

/-- A block's bytes are nobody else's business. -/
theorem Rep.data (hr : h.Rep base (pre ++ [b] ++ post)) (ha : Alters h h' lo hi)
    (hlo : stop base pre + sizeofSlot ≤ lo) (hhi : hi ≤ stop base pre + width b) :
    h'.Rep base (pre ++ [b] ++ post) := by
  obtain ⟨hb, hpost, ht, -⟩ := hr.around
  refine hr.replace (by simp) (by simp) rfl ?_ ?_ (hpost.behind ha hhi)
  · rw [← hr.tail, stop_cons, stop_nil]
    exact ha.mono (by omega) (by omega)
  · rw [headers_cons, headers_nil, holds_cons]
    exact ⟨ha.slot hb (.inl hlo), holds_nil⟩

/-- **`relink`**: what comes behind gets another slot before it. -/
theorem relink_spec (hs : h.Holds (headers prev a none post)) (ht : h.tail = last prev a post) (x : ℕ) :
    ∃ h', h.relink (first a none post) x = some h' ∧ h'.Holds (headers (some x) a none post) ∧
      Alters (h.setTail (last (some x) a post)) h' a (a + sizeofSlot) := by
  cases post with
  | nil => exact ⟨_, rfl, holds_nil, Alters.refl ..⟩
  | cons q post =>
    rw [headers_cons, holds_cons] at hs
    obtain ⟨h', hupd, hslot, ha⟩ := update_spec (fun s => { s with prev := some x }) hs.1
    refine ⟨h', hupd, ?_, ?_⟩
    · rw [headers_cons, holds_cons]
      exact ⟨hslot, hs.2.behind ha (by simp only [width_eq]; omega)⟩
    · have htail : h.setTail (last (some x) a (q :: post)) = h := by
        rw [last_cons, ← last_cons, ← ht]
      rwa [htail]

end Heap

end Cs162Hw.Alloc
