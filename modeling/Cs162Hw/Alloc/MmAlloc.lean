import Cs162Hw.Alloc.Memory

/-!
# The allocator

`hw3/mm_alloc.c`. The heap is a doubly linked list of slots, each in front of its bytes.
`mm_malloc` takes the first free slot that is large enough and splits it if enough is
left, or else makes the heap longer: by a larger last slot if the last slot is free,
by another slot if it is not. `mm_free` joins the slot with its free neighbours, and
`mm_realloc` takes a new slot, copies, and frees the old one.

A function has no result where the source would follow `NULL` or a pointer to what is not a
slot, or touch memory beyond the break. The loops along the list are given fuel for as
many slots as fit below the break. Sizes are natural numbers; each call is told whether
`sbrk` succeeds in it (`grow`), except that it does in `init_malloc`.
-/

namespace Cs162Hw.Alloc

/-- `min_new_size`. -/
def minNewSize : ℕ := sizeofSlot + 4

namespace Heap

/-- No list of slots is longer. -/
def fuel (h : Heap) : ℕ := h.brk / sizeofSlot + 1

/-- `init_malloc`. -/
def initMalloc (h : Heap) : Option Heap :=
  let head := h.brk
  { h with brk := h.brk + sizeofSlot, isInit := true, head := some head, tail := some head }.putSlot head
    ⟨none, none, false, 0⟩

/-- The loop of `find_list_elem` and `find_list_elem_data_location`: the first slot from `iter` on that passes a test. -/
def findSlot (h : Heap) (test : ℕ → Slot → Bool) : ℕ → Option ℕ → Option (Option ℕ)
  | 0, _ => none
  | _ + 1, none => some none
  | fuel + 1, some iter => do
    let s ← h.slot iter
    if test iter s then some (some iter) else findSlot h test fuel s.next

/-- `find_list_elem`. -/
def findListElem (h : Heap) (size : ℕ) : Option (Option ℕ) :=
  h.findSlot (fun _ s => s.isFree && size ≤ s.size) h.fuel h.head

/-- `find_list_elem_data_location`. -/
def findListElemDataLocation (h : Heap) (dataPnt : ℕ) : Option (Option ℕ) :=
  h.findSlot (fun iter _ => iter + sizeofSlot == dataPnt) h.fuel h.head

/-- What `split_slot` and, twice, `merge_free_space` do with a slot that has come to stand before `next`:
`if (next != NULL) next->prev = a; else tail = a;`. -/
def relink (h : Heap) (next : Option ℕ) (a : ℕ) : Option Heap :=
  match next with
  | some n => h.update n fun s => { s with prev := some a }
  | none => some { h with tail := some a }

/-- `split_slot`. -/
def splitSlot (h : Heap) (oldSlot size : ℕ) : Option Heap := do
  let old ← h.slot oldSlot
  let h ←
    if old.size ≥ size + minNewSize then do
      let newSlot := oldSlot + sizeofSlot + size
      let new : Slot := ⟨some oldSlot, old.next, true, old.size - size - sizeofSlot⟩
      let h ← h.putSlot newSlot new
      let h ← h.update oldSlot fun s => { s with next := some newSlot }
      let h ← h.relink new.next newSlot
      let h ← h.update oldSlot fun s => { s with size := size }
      h.memset (newSlot + sizeofSlot) new.size
    else some h
  let old ← h.slot oldSlot
  h.memset (oldSlot + sizeofSlot) old.size

/-- The first loop of `merge_free_space`; it leaves `last`. -/
def mergeNext (slotPnt : ℕ) : ℕ → Heap → Option ℕ → ℕ → Option (Heap × ℕ)
  | 0, _, _, _ => none
  | _ + 1, h, none, last => some (h, last)
  | fuel + 1, h, some iter, last => do
    let s ← h.slot iter
    if s.isFree then
      let h ← h.update slotPnt fun t => { t with size := t.size + (s.size + sizeofSlot) }
      let s ← h.slot iter
      mergeNext slotPnt fuel h s.next iter
    else some (h, last)

/-- `merge_free_space` between its first loop and the first `memset`: the list goes on behind `last`. -/
def bypass (h : Heap) (slotPnt last : ℕ) : Option Heap :=
  if last ≠ slotPnt then do
    let l ← h.slot last
    let h ← h.update slotPnt fun t => { t with next := l.next }
    h.relink l.next slotPnt
  else some h

/-- `merge_free_space` up to the first `memset`: the slot and the free ones behind it. -/
def mergeFollowing (h : Heap) (slotPnt : ℕ) : Option Heap := do
  let s ← h.slot slotPnt
  let (h, last) ← mergeNext slotPnt h.fuel h s.next slotPnt
  let h ← h.bypass slotPnt last
  let s ← h.slot slotPnt
  h.memset (slotPnt + sizeofSlot) s.size

/-- The second loop of `merge_free_space`; it leaves `tmp_head`. -/
def mergePrev : ℕ → Heap → Option ℕ → ℕ → Option (Heap × ℕ)
  | 0, _, _, _ => none
  | fuel + 1, h, iter, tmpHead =>
    if iter = h.head then some (h, tmpHead)
    else do
      let a ← iter
      let s ← h.slot a
      if s.isFree then
        let next ← s.next
        let t ← h.slot next
        let h ← h.update a fun s => { s with size := s.size + (t.size + sizeofSlot) }
        let s ← h.slot a
        mergePrev fuel h s.prev a
      else some (h, tmpHead)

/-- The rest of `merge_free_space`: the slot and the free ones before it. -/
def mergeBefore (h : Heap) (slotPnt : ℕ) : Option Heap := do
  let s ← h.slot slotPnt
  let (h, tmpHead) ← mergePrev h.fuel h s.prev slotPnt
  if tmpHead ≠ slotPnt then do
    let s ← h.slot slotPnt
    let h ← h.update tmpHead fun t => { t with next := s.next }
    let h ← h.relink s.next tmpHead
    let t ← h.slot tmpHead
    h.memset (tmpHead + sizeofSlot) t.size
  else some h

/-- `merge_free_space`. -/
def mergeFreeSpace (h : Heap) (slotPnt : ℕ) : Option Heap := do
  let h ← h.mergeFollowing slotPnt
  h.mergeBefore slotPnt

/-- What `mm_malloc` does first. -/
def ensureInit (h : Heap) : Option Heap := if h.isInit then some h else h.initMalloc

/-- `mm_malloc`, on a heap that is initialised. -/
def mallocSlot (h : Heap) (grow : Bool) (size : ℕ) : Option (Option ℕ × Heap) := do
  match ← h.findListElem size with
  | some possibleSlot =>
    let h ← h.splitSlot possibleSlot size
    let h ← h.update possibleSlot fun s => { s with isFree := false }
    some (some (possibleSlot + sizeofSlot), h)
  | none =>
    let tail ← h.tail
    let t ← h.slot tail
    if t.isFree then
      match h.sbrk grow (size - t.size) with
      | (none, h) => some (none, h)
      | (some _, h) =>
        let h ← h.memset (tail + sizeofSlot) size
        let h ← h.update tail fun s => { s with size := size, isFree := false }
        some (some (tail + sizeofSlot), h)
    else
      match h.sbrk grow (sizeofSlot + size) with
      | (none, h) => some (none, h)
      | (some newSlot, h) =>
        let h ← h.memset newSlot (sizeofSlot + size)
        let h ← h.putSlot newSlot ⟨some tail, none, false, size⟩
        let h ← h.update tail fun s => { s with next := some newSlot }
        some (some (newSlot + sizeofSlot), { h with tail := some newSlot })

/-- `mm_malloc`. -/
def mmMalloc (h : Heap) (grow : Bool) (size : ℕ) : Option (Option ℕ × Heap) := do
  let h ← h.ensureInit
  if size = 0 then some (none, h) else h.mallocSlot grow size

/-- `mm_free`. -/
def mmFree (h : Heap) (ptr : Option ℕ) : Option Heap :=
  match ptr with
  | none => some h
  | some ptr => do
    let slotPnt ← ← h.findListElemDataLocation ptr
    let s ← h.slot slotPnt
    let h ← h.memset ptr s.size
    let h ← h.update slotPnt fun s => { s with isFree := true }
    h.mergeFreeSpace slotPnt

/-- `mm_realloc`. -/
def mmRealloc (h : Heap) (grow : Bool) (ptr : Option ℕ) (size : ℕ) : Option (Option ℕ × Heap) :=
  if size = 0 then do
    let h ← h.mmFree ptr
    some (none, h)
  else
    match ptr with
    | none => h.mmMalloc grow size
    | some ptr => do
      let curSlot ← h.findListElemDataLocation ptr
      let (newPtr, h) ← h.mmMalloc grow size
      match newPtr with
      | none => some (none, h)
      | some newPtr =>
        let cur ← h.slot (← curSlot)
        let h ← h.memcpy newPtr ptr (if size ≥ cur.size then cur.size else size)
        let h ← h.mmFree (some ptr)
        some (some newPtr, h)

end Heap

end Cs162Hw.Alloc
