import Cs162Hw.Alloc.Client

/-!
# The heap at any time

What holds after any calls and writes of a client: the list of slots tiles the heap
(`heap_tiled`), and the client's blocks are its own (`blocks_isolated`).
-/

namespace Cs162Hw.Alloc

open Library.Tiling Heap

/-! ## The list of slots -/

namespace Heap

/-- The loop of `debug_print_list`: the slots from `iter` on. -/
def walk (h : Heap) : ℕ → Option ℕ → Option (List (ℕ × Slot))
  | 0, _ => none
  | _ + 1, none => some []
  | fuel + 1, some iter => do
    let s ← h.slot iter
    let rest ← h.walk fuel s.next
    some ((iter, s) :: rest)

/-- All slots, in the order of `next` from `head` on. -/
def slots (h : Heap) : Option (List (ℕ × Slot)) := h.walk h.fuel h.head

variable {h : Heap} {base a : ℕ} {prev next : Option ℕ} {bs : List Block}

theorem walk_eq (hs : h.Holds (headers prev a none bs)) {fuel : ℕ} (hf : bs.length < fuel) :
    h.walk fuel (first a none bs) = some (headers prev a none bs) := by
  induction bs generalizing prev a fuel with
  | nil =>
    obtain ⟨fuel, rfl⟩ := Nat.exists_eq_add_of_lt hf
    rfl
  | cons b bs ih =>
    obtain ⟨fuel, rfl⟩ := Nat.exists_eq_succ_of_ne_zero (Nat.ne_of_gt (Nat.zero_lt_of_lt hf))
    rw [headers_cons, holds_cons] at hs
    rw [first_cons, walk, hs.1]
    simp only [Option.bind_eq_bind, Option.bind_some, ih hs.2 (Nat.lt_of_succ_lt_succ hf), headers_cons]

/-- The slots of a heap are the headers of its blocks. -/
theorem Rep.slots_eq {b : Block} (hr : h.Rep base (b :: bs)) : h.slots = some (headers none base none (b :: bs)) := by
  rw [Heap.slots, hr.head]
  exact walk_eq hr.slots hr.length_lt_fuel

/-- A list of slots that tiles a heap from `base` to the break, its used slots but the first being those of the live
blocks. -/
structure Tiled (h : Heap) (base : ℕ) (live : List ℕ) (slots : List (ℕ × Slot)) : Prop where
  /-- The first slot is never free. -/
  head : ∃ s, slots.head? = some (base, s) ∧ h.head = some base ∧ s.prev = none ∧ s.isFree = false
  /-- Each slot begins where the one before it ends, each has the other's address, and they are not both free. -/
  neighbours : slots.IsChain fun p q => q.1 = p.1 + sizeofSlot + p.2.size ∧ p.2.next = some q.1 ∧
    q.2.prev = some p.1 ∧ ¬ (p.2.isFree = true ∧ q.2.isFree = true)
  /-- The last ends at the break. -/
  last : ∃ p, slots.getLast? = some p ∧ p.2.next = none ∧ p.1 + sizeofSlot + p.2.size = h.brk ∧ h.tail = some p.1
  /-- The live blocks. -/
  live : live.Perm ((slots.tail.filter fun p => !p.2.isFree).map fun p => p.1 + sizeofSlot)

/-- Neighbours among headers. -/
theorem headers_isChain (hc : Coalesced bs) :
    (headers prev a next bs).IsChain fun p q => q.1 = p.1 + sizeofSlot + p.2.size ∧ p.2.next = some q.1 ∧
      q.2.prev = some p.1 ∧ ¬ (p.2.isFree = true ∧ q.2.isFree = true) := by
  induction bs generalizing prev a with
  | nil => exact .nil
  | cons b bs ih =>
    cases bs with
    | nil => exact .singleton _
    | cons c bs =>
      refine List.isChain_cons_cons.mpr ⟨⟨?_, rfl, rfl, (List.isChain_cons_cons.mp hc).1⟩, ih hc.tail⟩
      show a + width b = a + sizeofSlot + b.size
      rw [width_eq]
      omega

/-- The last header. -/
theorem headers_getLast (hne : bs ≠ []) :
    ∃ p, (headers prev a next bs).getLast? = some p ∧ p.2.next = next ∧ p.1 + sizeofSlot + p.2.size = stop a bs ∧
      last prev a bs = some p.1 := by
  obtain ⟨bs, b, rfl⟩ := (List.eq_nil_or_concat' bs).resolve_left hne
  rw [headers_append, stop_append, last_append]
  refine ⟨_, by rw [List.getLast?_append]; rfl, rfl, ?_, rfl⟩
  rw [stop_cons, stop_nil, width_eq]
  show stop a bs + sizeofSlot + b.size = _
  omega

/-- The used blocks are those whose headers say so. -/
theorem filter_headers :
    ((headers prev a next bs).filter fun p => !p.2.isFree).map (fun p => p.1 + sizeofSlot) = (used a bs).map Prod.fst := by
  induction bs generalizing prev a with
  | nil => rfl
  | cons b bs ih =>
    cases hb : b.isFree with
    | true =>
      rw [used_cons_of_free hb, headers_cons, List.filter_cons_of_neg (by simp [hb]), ih]
    | false =>
      rw [used_cons_of_used hb, headers_cons, List.filter_cons_of_pos (by simp [hb]), List.map_cons, List.map_cons, ih]

theorem Tiles.tiled (ht : h.Tiles base bs) {live : List ℕ} (hl : live.Perm ((inUse base bs).map Prod.fst)) :
    h.Tiled base live (headers none base none (sentinel :: bs)) where
  head := ⟨_, rfl, ht.head, rfl, rfl⟩
  neighbours := headers_isChain ht.coalesced
  last := by
    obtain ⟨p, hp, hnext, hstop, hlast⟩ := @headers_getLast base none none (sentinel :: bs) (by simp)
    exact ⟨p, hp, hnext, hstop.trans ht.brk, ht.tail.trans hlast⟩
  live := by
    rw [headers_cons, List.tail_cons, filter_headers]
    exact hl

end Heap

namespace Client

variable {c : Client} {base : ℕ} {bs : List Block} {heap : Heap} {grow : Bool} {size : ℕ}

/-- `mm_malloc` fails if `sbrk` does, and then changes nothing. -/
theorem Inv.malloc_null (hi : Inv base bs c) (hsize : size ≠ 0) (hnull : c.heap.mmMalloc grow size = some (none, heap)) :
    grow = false ∧ c.heap.ensureInit = some heap := by
  obtain ⟨h₀, r, h', e₀, -, -, e, hcase⟩ := mmMalloc_spec hi.ready grow size
  obtain ⟨rfl, rfl⟩ := Prod.mk.inj (Option.some.inj (e.symm.trans hnull))
  rcases hcase with ⟨-, rfl, hgrow⟩ | ⟨p, hp, -⟩
  · exact ⟨hgrow.resolve_left hsize, e₀⟩
  · cases hp

/-- So does `mm_realloc`. -/
theorem Inv.realloc_null (hi : Inv base bs c) {ptr : Option ℕ} (hptr : ∀ p ∈ ptr, ∃ b ∈ c.live, b.ptr = p)
    (hsize : size ≠ 0) (hnull : c.heap.mmRealloc grow ptr size = some (none, heap)) :
    grow = false ∧ c.heap.ensureInit = some heap := by
  cases ptr with
  | none =>
    rw [Heap.mmRealloc, if_neg hsize] at hnull
    exact hi.malloc_null hsize hnull
  | some p =>
    obtain ⟨b, hb, rfl⟩ := hptr p rfl
    obtain ⟨n, hn, -⟩ := hi.sits b hb
    have ht := hi.tiles hb
    obtain ⟨r, h', e, hcase⟩ := mmRealloc_spec ht hn grow hsize
    obtain ⟨rfl, rfl⟩ := Prod.mk.inj (Option.some.inj (e.symm.trans hnull))
    rcases hcase with ⟨hgrow, -, rfl⟩ | ⟨q, m, bs', l, hq, -⟩
    · exact ⟨hgrow, by rw [Heap.ensureInit, ht.isInit]; rfl⟩
    · cases hq

/-- **The heap is tiled.** After any calls with pointers that are `NULL` or live, and any writes inside live blocks,
wherever `sbrk` has failed: nothing has gone wrong on the way; the slots from `head` on tile the heap (unless there is
none yet); and if now `mm_malloc` or `mm_realloc` of a positive size returns `NULL`, then `sbrk` has failed and the heap
is as it was, but for its initialisation. -/
theorem heap_tiled (mem : ℕ → Cell) (brk : ℕ) (events : List ClientEvent)
    (h : (start mem brk).Respects events) :
    ∃ c, (start mem brk).run events = some c ∧
      ((c.heap.isInit = false ∧ c.heap.brk = brk ∧ c.live = []) ∨
        ∃ slots, c.heap.slots = some slots ∧ c.heap.Tiled brk (c.live.map LiveBlock.ptr) slots) ∧
      ∀ (grow : Bool) (size : ℕ) (ptr : Option ℕ) (heap : Heap), size ≠ 0 → (∀ p ∈ ptr, ∃ b ∈ c.live, b.ptr = p) →
        c.heap.mmMalloc grow size = some (none, heap) ∨ c.heap.mmRealloc grow ptr size = some (none, heap) →
        grow = false ∧ c.heap.ensureInit = some heap ∧ (c.heap.isInit = true → heap = c.heap) := by
  obtain ⟨c, bs, e, hi⟩ := (Inv.start mem brk).run h
  refine ⟨c, e, ?_, fun grow size ptr heap hsize hptr hnull => ?_⟩
  · rcases hi.ready with ⟨hinit, -, hbrk, rfl⟩ | ht
    · exact .inl ⟨hinit, hbrk, List.map_eq_nil_iff.mp (List.perm_nil.mp hi.live)⟩
    · exact .inr ⟨_, ht.toRep.slots_eq, ht.tiled hi.live⟩
  · obtain ⟨hgrow, hinit⟩ : grow = false ∧ c.heap.ensureInit = some heap := by
      rcases hnull with hnull | hnull
      · exact hi.malloc_null hsize hnull
      · exact hi.realloc_null hptr hsize hnull
    refine ⟨hgrow, hinit, fun hi => ?_⟩
    rw [Heap.ensureInit, if_pos hi] at hinit
    exact (Option.some.inj hinit).symm

/-- Some calls and writes: one failure, and a block that moves into the place of another. -/
def threeBlocks : List ClientEvent :=
  [.malloc 10 true, .malloc 20 true, .write 1064 3 7, .malloc 40 false, .malloc 8 true, .free (some 1106),
    .realloc (some 1064) 16 true, .write 1106 15 9, .free none]

/-- `heap_tiled` for them. -/
theorem heap_tiled_threeBlocks :
    ∃ c, (start (fun _ => .byte 1) 1000).run threeBlocks = some c ∧
      ((c.heap.isInit = false ∧ c.heap.brk = 1000 ∧ c.live = []) ∨
        ∃ slots, c.heap.slots = some slots ∧ c.heap.Tiled 1000 (c.live.map LiveBlock.ptr) slots) ∧
      ∀ (grow : Bool) (size : ℕ) (ptr : Option ℕ) (heap : Heap), size ≠ 0 → (∀ p ∈ ptr, ∃ b ∈ c.live, b.ptr = p) →
        c.heap.mmMalloc grow size = some (none, heap) ∨ c.heap.mmRealloc grow ptr size = some (none, heap) →
        grow = false ∧ c.heap.ensureInit = some heap ∧ (c.heap.isInit = true → heap = c.heap) :=
  heap_tiled (fun _ => .byte 1) 1000 threeBlocks (by decide +kernel)

/-! ## The client's blocks -/

/-- The live blocks are the client's own. -/
structure Isolated (base : ℕ) (c : Client) : Prop where
  /-- They lie inside the heap. -/
  inside : ∀ b ∈ c.live, base ≤ b.ptr ∧ b.ptr + b.size ≤ c.heap.brk
  /-- No two overlap. -/
  apart : c.live.Pairwise fun b b' => b.ptr + b.size ≤ b'.ptr ∨ b'.ptr + b'.size ≤ b.ptr
  /-- None overlaps a header. -/
  headers : ∀ slots, c.heap.slots = some slots → ∀ p ∈ slots, ∀ b ∈ c.live,
    p.1 + sizeofSlot ≤ b.ptr ∨ b.ptr + b.size ≤ p.1
  /-- They hold what was last written to them. -/
  data : ∀ b ∈ c.live, ∀ i v, b.data i = some v → i < b.size ∧ c.heap.mem (b.ptr + i) = .byte v

/-- No header lies in a used block. -/
theorem header_apart {p : ℕ × Slot} {q n : ℕ} (hp : p ∈ headers none base none (sentinel :: bs))
    (hq : (q, n) ∈ inUse base bs) : p.1 + sizeofSlot ≤ q ∨ q + n ≤ p.1 := by
  obtain ⟨pre, b, post, hb, hx, -, -⟩ := mem_headers hp
  obtain ⟨pre', b', post', rfl, -, hqn⟩ := mem_inUse.mp hq
  obtain ⟨rfl, rfl⟩ := Prod.mk.inj hqn
  have hpb : (p.1, b) ∈ place base (sentinel :: (pre' ++ [b'] ++ post')) := mem_place.mpr ⟨pre, post, hb, hx⟩
  have hqb : (stop base (sentinel :: pre'), b') ∈ place base (sentinel :: (pre' ++ [b'] ++ post')) :=
    mem_place.mpr ⟨sentinel :: pre', post', by simp, rfl⟩
  rcases place_cases hpb hqb with he | hle | hle
  · exact .inl (by rw [(Prod.mk.inj he).1])
  · simp only [width_eq] at hle
    exact .inl (by omega)
  · simp only [width_eq] at hle
    exact .inr (by omega)

theorem Inv.isolated (hi : Inv base bs c) : Isolated base c where
  inside := by
    intro b hb
    obtain ⟨n, hn, hs⟩ := hi.sits b hb
    have hbounds := used_bounds hn
    have hbrk : stop (base + sizeofSlot) bs = c.heap.brk := (hi.tiles hb).brk
    have hsize := hs.size
    simp only at hbounds
    omega
  apart := by
    have hne : c.live.Pairwise fun b b' => b.ptr ≠ b'.ptr :=
      List.pairwise_map.mp (hi.live.nodup_iff.mpr nodup_inUse)
    refine hne.imp_of_mem fun {b b'} hb hb' hptr => ?_
    obtain ⟨n, hn, hs⟩ := hi.sits b hb
    obtain ⟨n', hn', hs'⟩ := hi.sits b' hb'
    have hl := List.perm_cons_erase hn
    have hapart := (List.pairwise_cons.mp (inUse_pairwise.perm hl fun h => h.symm)).1 _
      (mem_others hl hn' fun he => hptr (Option.some.inj he))
    have hsize := hs.size
    have hsize' := hs'.size
    simp only [Apart] at hapart
    omega
  headers := by
    intro slots hslots p hp b hb
    obtain rfl := Option.some.inj (hslots.symm.trans (hi.tiles hb).toRep.slots_eq)
    obtain ⟨n, hn, hs⟩ := hi.sits b hb
    have hsize := hs.size
    have := header_apart hp hn
    omega
  data b hb i v hv := by
    obtain ⟨n, hn, hs⟩ := hi.sits b hb
    exact hs.data i v hv

/-- **Live blocks are isolated.** After any calls with pointers that are `NULL` or live, and any writes inside live
blocks: the ranges of the live blocks lie inside the heap, overlap neither each other nor a header, and hold what was
last written to them; and whatever comes next leaves every byte of every live block alone that it is not about. -/
theorem blocks_isolated (mem : ℕ → Cell) (brk : ℕ) (events : List ClientEvent)
    (h : (start mem brk).Respects events) :
    ∃ c, (start mem brk).run events = some c ∧ c.Isolated brk ∧
      ∀ e, c.Allowed e → ∃ c', c.step e = some c' ∧
        ∀ b ∈ c.live, e.ptr ≠ some b.ptr → ∀ i < b.size, c'.heap.mem (b.ptr + i) = c.heap.mem (b.ptr + i) := by
  obtain ⟨c, bs, e, hi⟩ := (Inv.start mem brk).run h
  refine ⟨c, e, hi.isolated, fun e ha => ?_⟩
  obtain ⟨c', e', -, huntouched⟩ := hi.step ha
  exact ⟨c', e', huntouched⟩

/-- `blocks_isolated` for the calls and writes above. -/
theorem blocks_isolated_threeBlocks :
    ∃ c, (start (fun _ => .byte 1) 1000).run threeBlocks = some c ∧ c.Isolated 1000 ∧
      ∀ e, c.Allowed e → ∃ c', c.step e = some c' ∧
        ∀ b ∈ c.live, e.ptr ≠ some b.ptr → ∀ i < b.size, c'.heap.mem (b.ptr + i) = c.heap.mem (b.ptr + i) :=
  blocks_isolated (fun _ => .byte 1) 1000 threeBlocks (by decide +kernel)

end Client

end Cs162Hw.Alloc
