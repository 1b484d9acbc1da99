import Cs162Hw.Alloc.FirstFit

/-!
# How much space the allocator takes

What lies between the sentinel and the break is live, or free, or neither, and of the last
there is little (`overhead_bounded`). A block is granted 35 bytes at most that it did not ask for,
as more would have been cut off, and there are no two free blocks without a used one in between;
so that it is 99 bytes for each live block.

A client that asks for one size only loses nothing else (`one_size_break`): the break is
where it has to be for the most blocks that were ever live at one time. What is joined and
cut again keeps to a grid of cells of that size.
-/

namespace Cs162Hw.Alloc

open Library Library.Tiling Heap

variable {a p k n size : ℕ} {b : Block} {bs cs : List Block}

/-! ## Free blocks -/

/-- The free blocks. -/
def freeBlocks (bs : List Block) : List Block := bs.filter Block.isFree

theorem freeBlocks_cons_of_free (hb : b.isFree = true) : freeBlocks (b :: bs) = b :: freeBlocks bs := List.filter_cons_of_pos hb

theorem freeBlocks_cons_of_used (hb : b.isFree = false) : freeBlocks (b :: bs) = freeBlocks bs :=
  List.filter_cons_of_neg (by simp [hb])

/-- There is a used block between any two free ones. -/
theorem Coalesced.length_freeBlocks (hc : Coalesced bs) : (freeBlocks bs).length ≤ (used a bs).length + 1 := by
  suffices h : ∀ (bs : List Block) (a : ℕ), Coalesced bs → (freeBlocks bs).length ≤ (used a bs).length + 1 ∧
      ((∀ c ∈ bs.head?, c.isFree = false) → (freeBlocks bs).length ≤ (used a bs).length) from (h bs a hc).1
  intro bs
  induction bs with
  | nil => exact fun a _ => ⟨Nat.zero_le _, fun _ => le_rfl⟩
  | cons b bs ih =>
    intro a hc
    obtain ⟨hle, hspare⟩ := ih (a + width b) (List.isChain_cons.mp hc).2
    cases hb : b.isFree with
    | true =>
      have hbehind := hspare (hc.head_used hb)
      rw [freeBlocks_cons_of_free hb, used_cons_of_free hb, List.length_cons]
      refine ⟨by omega, fun hhead => ?_⟩
      rw [hhead b rfl] at hb
      cases hb
    | false =>
      rw [freeBlocks_cons_of_used hb, used_cons_of_used hb, List.length_cons]
      exact ⟨by omega, fun _ => hle⟩

/-- Where a row ends: all its headers, its used bytes and its free bytes. -/
theorem stop_eq_sum : stop a bs = a + sizeofSlot * ((used a bs).length + (freeBlocks bs).length) +
    ((used a bs).map Prod.snd).sum + ((freeBlocks bs).map Block.size).sum := by
  induction bs generalizing a with
  | nil => simp [freeBlocks]
  | cons b bs ih =>
    rw [stop_cons, ih, width_eq]
    cases hb : b.isFree with
    | true =>
      rw [freeBlocks_cons_of_free hb, used_cons_of_free hb, width_eq]
      simp only [List.length_cons, List.map_cons, List.sum_cons, Nat.mul_add, Nat.mul_one]
      omega
    | false =>
      rw [freeBlocks_cons_of_used hb, used_cons_of_used hb, width_eq]
      simp only [List.length_cons, List.map_cons, List.sum_cons, Nat.mul_add, Nat.mul_one]
      omega

/-! ## Slack -/

/-- No live block has been granted as much as would have made a block of what it did not ask for. -/
def Tight (used live : List (ℕ × ℕ)) : Prop := ∀ p k n, (p, k) ∈ live → (p, n) ∈ used → n < k + minNewSize

section

variable {u u' l l' : List (ℕ × ℕ)}

theorem Tight.mono (h : Tight u l) (hu : u' ⊆ u) (hl : l' ⊆ l) : Tight u' l' :=
  fun p k n hk hn => h p k n (hl hk) (hu hn)

/-- One more block. -/
theorem Tight.cons (h : Tight u l) (hu : u'.Perm ((p, n) :: u)) (hnodup : (u'.map Prod.fst).Nodup)
    (hl : ∀ q ∈ l.map Prod.fst, q ∈ u.map Prod.fst) (hn : n < size + minNewSize) : Tight u' ((p, size) :: l) := by
  have hnew : p ∉ u.map Prod.fst := (List.nodup_cons.mp ((hu.map Prod.fst).nodup_iff.mp hnodup)).1
  intro q k m hk hm
  rcases List.mem_cons.mp hk with hk | hk
  · obtain ⟨rfl, rfl⟩ := Prod.mk.inj hk
    rcases List.mem_cons.mp (hu.subset hm) with hm | hm
    · exact (Prod.mk.inj hm).2 ▸ hn
    · exact absurd (List.mem_map_of_mem (f := Prod.fst) hm) hnew
  · rcases List.mem_cons.mp (hu.subset hm) with hm | hm
    · exact absurd ((Prod.mk.inj hm).1 ▸ hl q (List.mem_map_of_mem (f := Prod.fst) hk)) hnew
    · exact h q k m hk hm

end

namespace Arena

variable {s s' : Arena} {grow : Bool} {ptr : Option ℕ} {e : ClientEvent} {c : Client}

theorem malloc_none (hm : s.malloc grow size = (none, s')) : s'.blocks = s.blocks := by
  rw [malloc] at hm
  split_ifs at hm
  · exact (Prod.mk.inj hm).2 ▸ rfl
  · split at hm
    · exact (Prod.mk.inj hm).2 ▸ rfl
    · cases hm

/-- Nothing comes into use by being given back. -/
theorem free_used (hf : s.free ptr = some s') : inUse s'.base s'.blocks ⊆ inUse s.base s.blocks := by
  cases ptr with
  | none => exact Option.some.inj hf ▸ List.Subset.refl _
  | some p =>
    rcases release_cases p s.first s.blocks with ⟨hnone, -⟩ | ⟨pre, b, post, hbs, -, hsome⟩
    · rw [free, hnone] at hf
      cases hf
    · rw [free, hsome] at hf
      obtain rfl := Option.some.inj hf
      show inUse s.base (coalesce _) ⊆ inUse s.base s.blocks
      rw [inUse_coalesce, hbs, inUse_around, inUse_around, used_cons_of_free rfl, used_nil, List.append_nil]
      exact fun q hq => List.mem_append.mpr ((List.mem_append.mp hq).imp (List.mem_append_left _) id)

/-- No live block of the arena has more slack than it must. -/
def IsTight (s : Arena) : Prop := Tight (inUse s.base s.blocks) s.live

theorem coalesced_of_mirrors (hm : Mirrors c s) : Coalesced (sentinel :: s.blocks) := by
  rcases hm.ready with ⟨-, -, -, hnil⟩ | ht
  · rw [hnil]
    exact .singleton _
  · exact ht.coalesced

theorem live_used (hm : Mirrors c s) : ∀ q ∈ s.live.map Prod.fst, q ∈ (inUse s.base s.blocks).map Prod.fst := by
  intro q hq
  rw [← hm.asked, List.map_map] at hq
  exact hm.live.subset hq

theorem IsTight.malloc (h : s.IsTight) (hm : Mirrors c s) (he : s.malloc grow size = (some p, s')) :
    Tight (inUse s.base s'.blocks) ((p, size) :: s.live) := by
  obtain ⟨n, e, -, hn, hmore⟩ := malloc_more (coalesced_of_mirrors hm) he
  exact Tight.cons h hmore.used Client.nodup_inUse (live_used hm) hn

theorem IsTight.free (h : s.IsTight) (hf : s.free ptr = some s') : s'.IsTight :=
  Tight.mono h (free_used hf) ((free_frame hf).2.2 ▸ List.Subset.refl _)

theorem IsTight.without (h : s.IsTight) (ptr : Option ℕ) : (s.without ptr).IsTight :=
  Tight.mono h (List.Subset.refl _) (List.filter_subset_self _)

/-- **Blocks stay tight.** -/
theorem IsTight.step (h : s.IsTight) (hm : Mirrors c s) (hs : s.step e = some s') : s'.IsTight := by
  cases e with
  | malloc size grow =>
    simp only [Arena.step] at hs
    cases he : s.malloc grow size with
    | mk r s₁ =>
      obtain ⟨hbase, -, hlive⟩ : s₁.base = s.base ∧ _ ∧ s₁.live = s.live := by simpa only [he] using s.malloc_frame grow size
      rw [he] at hs
      cases r with
      | none =>
        obtain rfl := Option.some.inj hs
        rw [IsTight, hbase, hlive, malloc_none he]
        exact h
      | some p =>
        obtain rfl := Option.some.inj hs
        show Tight (inUse s₁.base s₁.blocks) ((p, size) :: s₁.live)
        rw [hbase, hlive]
        exact h.malloc hm he
  | realloc ptr size grow =>
    obtain ⟨⟨r, s₂⟩, hr, rfl⟩ := Option.map_eq_some_iff.mp hs
    by_cases hsize : size = 0
    · rw [realloc, if_pos hsize] at hr
      obtain ⟨s₁, hf, he⟩ := Option.map_eq_some_iff.mp hr
      obtain ⟨rfl, rfl⟩ := Prod.mk.inj he
      simp only [if_pos hsize]
      exact (h.free hf).without ptr
    · rw [realloc, if_neg hsize] at hr
      cases he : s.malloc grow size with
      | mk q s₁ =>
        obtain ⟨hbase, -, hlive⟩ : s₁.base = s.base ∧ _ ∧ s₁.live = s.live := by simpa only [he] using s.malloc_frame grow size
        rw [he] at hr
        cases q with
        | none =>
          obtain ⟨rfl, rfl⟩ := Prod.mk.inj (Option.some.inj hr)
          simp only [if_neg hsize]
          rw [IsTight, hbase, hlive, malloc_none he]
          exact h
        | some p =>
          obtain ⟨s₃, hf, he'⟩ := Option.map_eq_some_iff.mp hr
          obtain ⟨rfl, rfl⟩ := Prod.mk.inj he'
          have hmore : Tight (inUse s₁.base s₁.blocks) ((p, size) :: s₁.live) := by
            rw [hbase, hlive]
            exact h.malloc hm he
          have hused := free_used hf
          have hsame := (free_frame hf).2.2
          show Tight (inUse s₃.base s₃.blocks) ((p, size) :: s₃.live.filter _)
          rw [hsame]
          exact Tight.mono hmore hused (List.cons_subset_cons _ (List.filter_subset_self _))
  | free ptr =>
    obtain ⟨s₁, hf, rfl⟩ := Option.map_eq_some_iff.mp hs
    exact (h.free hf).without ptr
  | write ptr offset value => exact Option.some.inj hs ▸ h

end Arena

/-! ## Overhead -/

/-- Two lists of sizes by pointer: where no size of the one is above that of the other by more than `m`. -/
theorem sum_le_of_tight {u l : List (ℕ × ℕ)} {m : ℕ} (hp : (l.map Prod.fst).Perm (u.map Prod.fst))
    (h : ∀ p k n, (p, k) ∈ l → (p, n) ∈ u → n ≤ k + m) : (u.map Prod.snd).sum ≤ (l.map Prod.snd).sum + m * l.length := by
  induction l generalizing u with
  | nil =>
    obtain rfl : u = [] := List.map_eq_nil_iff.mp hp.nil_eq.symm
    simp
  | cons q l ih =>
    obtain ⟨p, k⟩ := q
    obtain ⟨⟨p', n⟩, hn, rfl⟩ := List.mem_map.mp (hp.subset List.mem_cons_self)
    have hu := List.perm_cons_erase hn
    have hrest := ih (hp.trans (hu.map Prod.fst)).cons_inv fun p k n hk hn =>
      h p k n (List.mem_cons_of_mem _ hk) (List.mem_of_mem_erase hn)
    have hfirst := h p' k n List.mem_cons_self hn
    rw [(hu.map Prod.snd).sum_eq]
    simp only [List.map_cons, List.sum_cons, List.length_cons, Nat.mul_add, Nat.mul_one]
    omega

/-- The free slots of a heap. -/
def freeSlots (slots : List (ℕ × Slot)) : List (ℕ × Slot) := slots.filter fun p => p.2.isFree

theorem freeSlots_headers {prev next : Option ℕ} :
    (freeSlots (headers prev a next bs)).map (fun p => p.2.size) = (freeBlocks bs).map Block.size := by
  have hblocks : freeBlocks bs = (freeSlots (headers prev a next bs)).map fun p => ⟨p.2.isFree, p.2.size⟩ := by
    rw [freeBlocks, ← @headers_blocks a prev next bs, List.filter_map, headers_blocks]
    rfl
  rw [hblocks, List.map_map]
  rfl

/-- The slot of a live block. -/
theorem Mirrors.slot_of_live {c : Client} {s : Arena} (hm : Mirrors c s) (htight : s.IsTight) {b : LiveBlock} (hb : b ∈ c.live) :
    ∃ p ∈ headers none s.base none (sentinel :: s.blocks), p.1 + sizeofSlot = b.ptr ∧ p.2.isFree = false ∧ b.size ≤ p.2.size ∧
      p.2.size < b.size + minNewSize := by
  obtain ⟨n, hn, hsits⟩ := hm.sits b hb
  have hasked : (b.ptr, b.size) ∈ s.live := hm.asked ▸ List.mem_map_of_mem hb
  obtain ⟨pre, d, post, hbs, hused, hp⟩ := mem_inUse.mp hn
  obtain ⟨hptr, rfl⟩ := Prod.mk.inj hp
  have hbs : sentinel :: s.blocks = (sentinel :: pre) ++ d :: post := by rw [hbs]; simp
  obtain ⟨prev, next, hmem⟩ : ∃ prev next, (stop s.base (sentinel :: pre), (⟨prev, next, d.isFree, d.size⟩ : Slot)) ∈
      headers none s.base none (sentinel :: s.blocks) := by
    rw [hbs, headers_append, headers_cons]
    exact ⟨_, _, List.mem_append_right _ List.mem_cons_self⟩
  exact ⟨_, hmem, hptr.symm, hused, hsits.size, htight _ _ _ hasked hn⟩

/-- **Overhead is bounded.** After any calls, with any `size_t` and whatever the system allows, anything being passed to
`mm_free`, and any writes inside live blocks: every live block has a slot with 35 bytes at most that were not asked for. The
bytes from the first slot up to the break are those asked for, those in free slots, and 99 bytes for each live block and 64
besides at most. There is one free slot more than there are live blocks at most. -/
theorem overhead_bounded (mem : ℕ → Cell) (brk : ℕ) (hbrk : brk < 2 ^ 64 - 1) (events : List Machine.Event)
    (h : Steps.Along Machine.step Machine.Tolerated (.start mem brk) events) :
    ∀ c ∈ Steps.run Machine.step (.start mem brk) events, ∃ slots, c.heap.slots = some slots ∧
      (∀ b ∈ c.live, ∃ p ∈ slots, p.1 + sizeofSlot = b.ptr ∧ p.2.isFree = false ∧ b.size ≤ p.2.size ∧
        p.2.size < b.size + minNewSize) ∧
      (freeSlots slots).length ≤ c.live.length + 1 ∧
      c.heap.brk ≤ brk + (c.live.map LiveBlock.size).sum + ((freeSlots slots).map fun p => p.2.size).sum +
        99 * c.live.length + 64 := by
  have hrel : Option.Rel (fun c s => ((Mirrors c s ∧ c.heap.brk < 2 ^ 64 - 1) ∧ s.base = brk) ∧ s.IsTight)
      (Steps.run Machine.step (.start mem brk) events) (Steps.run Arena.step64 (.start brk) events) := by
    refine h.simulates ⟨⟨⟨Mirrors.start mem brk, hbrk⟩, rfl⟩, fun p k n hk => absurd hk List.not_mem_nil⟩ fun hm ht => ?_
    exact Steps.rel_and (Mirrors.step64_at hm.1 ht) fun _ _ _ hs _ => hm.2.step hm.1.1.1 (Arena.step64_eq_some hs)
  intro c hc
  obtain ⟨r', hr'⟩ : ∃ r', Steps.run Arena.step64 (.start brk) events = r' := ⟨_, rfl⟩
  rw [Option.mem_def.mp hc, hr'] at hrel
  cases hrel with
  | @some _ s hm =>
    obtain ⟨⟨⟨hm, -⟩, rfl⟩, htight⟩ := hm
    rcases hm.ready with ⟨-, hhead, hbrk, hnil⟩ | ht
    · have hslots : c.heap.slots = some [] := by rw [Heap.slots, hhead]; rfl
      refine ⟨[], hslots, fun b hb => ?_, Nat.zero_le _, ?_⟩
      · obtain ⟨n, hn, -⟩ := hm.sits b hb
        rw [hnil] at hn
        exact absurd hn List.not_mem_nil
      · rw [hbrk]
        omega
    · have hfree := @freeSlots_headers s.base (sentinel :: s.blocks) none none
      have hlen := congrArg List.length hfree
      have hused : (s.live.map Prod.fst).Perm ((inUse s.base s.blocks).map Prod.fst) := by
        rw [← hm.asked, List.map_map]
        exact hm.live
      have hcount : (inUse s.base s.blocks).length = c.live.length := by simpa using hm.live.length_eq.symm
      have hlive : s.live.length = c.live.length := by rw [← hm.asked, List.length_map]
      have hasked : (s.live.map Prod.snd).sum = (c.live.map LiveBlock.size).sum := by rw [← hm.asked, List.map_map]; rfl
      have hsum := sum_le_of_tight (m := 35) hused fun p k n hk hn => Nat.le_of_lt_succ (htight p k n hk hn)
      have hgaps : (freeBlocks s.blocks).length ≤ (inUse s.base s.blocks).length + 1 :=
        Coalesced.length_freeBlocks (List.isChain_cons.mp ht.coalesced).2
      have hbrk : stop (s.base + sizeofSlot) s.blocks = c.heap.brk := ht.brk
      have hstop : stop (s.base + sizeofSlot) s.blocks = s.base + sizeofSlot +
          sizeofSlot * ((inUse s.base s.blocks).length + (freeBlocks s.blocks).length) +
          ((inUse s.base s.blocks).map Prod.snd).sum + ((freeBlocks s.blocks).map Block.size).sum := stop_eq_sum
      rw [freeBlocks_cons_of_used rfl] at hfree hlen
      rw [List.length_map, List.length_map] at hlen
      refine ⟨_, ht.toRep.slots_eq, fun b hb => hm.slot_of_live htight hb, by omega, ?_⟩
      rw [hfree]
      simp only [sizeofSlot] at hstop hbrk
      omega

/-- `overhead_bounded` for two blocks one of which is given back twice. -/
theorem overhead_bounded_freedTwice :
    (Steps.run Machine.step (.start (fun _ => .byte 1) 1000) freedTwice).isSome = true ∧
      ∀ c ∈ Steps.run Machine.step (.start (fun _ => .byte 1) 1000) freedTwice, ∃ slots, c.heap.slots = some slots ∧
        (∀ b ∈ c.live, ∃ p ∈ slots, p.1 + sizeofSlot = b.ptr ∧ p.2.isFree = false ∧ b.size ≤ p.2.size ∧
          p.2.size < b.size + minNewSize) ∧
        (freeSlots slots).length ≤ c.live.length + 1 ∧
        c.heap.brk ≤ 1000 + (c.live.map LiveBlock.size).sum + ((freeSlots slots).map fun p => p.2.size).sum +
          99 * c.live.length + 64 :=
  ⟨by decide +kernel, overhead_bounded (fun _ => .byte 1) 1000 (by decide) freedTwice (by decide +kernel)⟩

/-! ## One size -/

/-- No size but this one is asked for. -/
def Machine.Event.OfSize (size : UInt64) : Machine.Event → Prop
  | .malloc n _ => n = size
  | .realloc _ _ _ => False
  | _ => True

instance (size : UInt64) : (e : Machine.Event) → Decidable (e.OfSize size)
  | .malloc n _ => inferInstanceAs (Decidable (n = size))
  | .realloc _ _ _ => inferInstanceAs (Decidable False)
  | .free _ => inferInstanceAs (Decidable True)
  | .write _ _ _ => inferInstanceAs (Decidable True)

/-- The most blocks that are live at one time. -/
def Machine.mostLive (c : Client) : List Machine.Event → ℕ
  | [] => c.live.length
  | e :: events => max c.live.length (match Machine.step c e with
    | some c => mostLive c events
    | none => 0)

theorem Machine.length_le_mostLive (c : Client) (events : List Machine.Event) : c.live.length ≤ mostLive c events := by
  cases events with
  | nil => exact le_rfl
  | cons e events => exact Nat.le_max_left ..

namespace Arena

/-- The blocks keep to a grid of `m` cells, each for one block of `size` bytes and its header. -/
structure Grid (size m : ℕ) (s : Arena) : Prop where
  /-- A used block takes a cell, and a free one several. -/
  cells : ∀ b ∈ s.blocks, (b.isFree = false → b.size = size) ∧ sizeofSlot + size ∣ width b
  /-- How many there are. -/
  ends : stop s.first s.blocks = s.first + (sizeofSlot + size) * m

variable {s s' : Arena} {m : ℕ} {grow : Bool} {ptr : Option ℕ} {c c' : Client}

/-- A block that is on the grid and not larger than a cell, or by too little to be cut. -/
theorem size_eq_of_small (h4 : 4 ≤ size) (hd : sizeofSlot + size ∣ width b) (hb : b.size < size + minNewSize) : b.size = size := by
  obtain ⟨k, hk⟩ := hd
  rw [width_eq] at hk
  simp only [sizeofSlot, minNewSize] at hk hb
  have hk2 : k < 2 := by
    by_contra hle
    have hmul := Nat.mul_le_mul_left (32 + size) (Nat.le_of_not_lt hle)
    omega
  obtain rfl | rfl : k = 0 ∨ k = 1 := by omega
  · omega
  · omega

/-- The cells taken, and what there is of others. -/
theorem Grid.count (h : s.Grid size m) :
    (sizeofSlot + size) * (inUse s.base s.blocks).length + sizeofSlot * (freeBlocks s.blocks).length +
      ((freeBlocks s.blocks).map Block.size).sum = (sizeofSlot + size) * m := by
  have hsum : ((inUse s.base s.blocks).map Prod.snd).sum = (inUse s.base s.blocks).length * size := by
    refine (List.sum_eq_card_nsmul _ size fun n hn => ?_).trans (by rw [List.length_map]; rfl)
    obtain ⟨q, hq, rfl⟩ := List.mem_map.mp hn
    obtain ⟨pre, b, post, hbs, hused, rfl⟩ := mem_inUse.mp hq
    exact (h.cells b (hbs ▸ by simp)).1 hused
  have hstop := h.ends
  have heq : stop s.first s.blocks = s.first + sizeofSlot * ((inUse s.base s.blocks).length + (freeBlocks s.blocks).length) +
      ((inUse s.base s.blocks).map Prod.snd).sum + ((freeBlocks s.blocks).map Block.size).sum := stop_eq_sum
  rw [hsum] at heq
  have hmul := Nat.add_mul sizeofSlot size (inUse s.base s.blocks).length
  have hmul' := Nat.mul_add sizeofSlot (inUse s.base s.blocks).length (freeBlocks s.blocks).length
  have hcomm := Nat.mul_comm size (inUse s.base s.blocks).length
  omega

/-- There are no more live blocks than cells. -/
theorem Grid.live_le (h : s.Grid size m) (hm : Mirrors c s) : c.live.length ≤ m := by
  have hcount := h.count
  have hlen : (inUse s.base s.blocks).length = c.live.length := by simpa using hm.live.length_eq.symm
  rw [hlen] at hcount
  have hpos : 0 < sizeofSlot + size := by
    have hslot : 0 < sizeofSlot := by decide
    omega
  exact Nat.le_of_mul_le_mul_left (by omega) hpos

/-- Where no free block is large enough there is none, and so there are as many live blocks as cells. -/
theorem Grid.full (h : s.Grid size m) (hm : Mirrors c s) (hsmall : ∀ b ∈ s.blocks, b.isFree = true → b.size < size) :
    (∀ b ∈ s.blocks, b.isFree = false) ∧ c.live.length = m := by
  have hused : ∀ b ∈ s.blocks, b.isFree = false := by
    intro b hb
    by_contra hfree
    have hlt := hsmall b hb (by simpa using hfree)
    have hle := Nat.le_of_dvd (width_pos b) (h.cells b hb).2
    rw [width_eq] at hle
    omega
  have hnil : freeBlocks s.blocks = [] := List.filter_eq_nil_iff.mpr fun b hb => by simp [hused b hb]
  have hcount := h.count
  have hlen : (inUse s.base s.blocks).length = c.live.length := by simpa using hm.live.length_eq.symm
  rw [hlen, hnil] at hcount
  have hpos : 0 < sizeofSlot + size := by
    have hslot : 0 < sizeofSlot := by decide
    omega
  exact ⟨hused, Nat.eq_of_mul_eq_mul_left hpos (by simpa using hcount)⟩

/-- A free block cut for one more. -/
theorem cells_split (h4 : 4 ≤ size) (hd : sizeofSlot + size ∣ width b) (hb : size ≤ b.size) :
    ∀ c ∈ split ⟨false, b.size⟩ size, (c.isFree = false → c.size = size) ∧ sizeofSlot + size ∣ width c := by
  intro c hc
  rw [split] at hc
  split_ifs at hc with hbig
  · rcases List.mem_cons.mp hc with rfl | hc
    · exact ⟨fun _ => rfl, dvd_of_eq rfl⟩
    · obtain rfl := List.mem_singleton.mp hc
      refine ⟨fun h => (by cases h), ?_⟩
      have hrest : width (⟨true, b.size - size - sizeofSlot⟩ : Block) = width b - (sizeofSlot + size) := by
        simp only [width_eq, minNewSize] at hbig ⊢
        omega
      rw [hrest]
      exact Nat.dvd_sub hd (dvd_refl _)
  · obtain rfl := List.mem_singleton.mp hc
    have hsmall : b.size < size + minNewSize := Nat.lt_of_not_le hbig
    exact ⟨fun _ => size_eq_of_small h4 hd hsmall, hd⟩

/-- **`malloc` keeps the grid**, and makes it larger only where all cells are taken. -/
theorem Grid.malloc (h : s.Grid size m) (h4 : 4 ≤ size) (hm : Mirrors c s) {r : Option ℕ} (he : s.malloc grow size = (r, s')) :
    s'.Grid size m ∨ ∃ p, r = some p ∧ c.live.length = m ∧ s'.Grid size (m + 1) := by
  rw [Arena.malloc, if_neg (by omega)] at he
  have hg := grant_granted size s.first grow s.blocks
  obtain ⟨g, hgr⟩ : ∃ g, grant size s.first grow s.blocks = g := ⟨_, rfl⟩
  rw [hgr] at he hg
  cases hg with
  | refused hsmall hgrow =>
    obtain ⟨-, rfl⟩ := Prod.mk.inj he
    exact .inl ⟨h.cells, h.ends⟩
  | @fit pre post b hbs hfree hsize hsmall =>
    obtain ⟨-, rfl⟩ := Prod.mk.inj he
    have hc := coalesced_of_mirrors hm
    have hcells := h.cells
    rw [hbs] at hc hcells
    refine .inl ⟨fun d hd => ?_, ?_⟩
    · rcases List.mem_append.mp hd with hd | hd
      · rcases List.mem_append.mp hd with hd | hd
        · exact hcells d (by simp [hd])
        · exact cells_split h4 (hcells b (by simp)).2 hsize d hd
      · exact hcells d (by simp [hd])
    · have hstop := (@more_fit s.first size b pre post hc hfree).stop
      rw [← hbs] at hstop
      exact hstop.trans h.ends
  | @extend pre b hbs hfree hsmall hgrow =>
    have hused := (h.full hm hsmall).1 b (hbs ▸ by simp)
    rw [hfree] at hused
    cases hused
  | append hlast hsmall hgrow =>
    obtain ⟨rfl, rfl⟩ := Prod.mk.inj he
    refine .inr ⟨_, rfl, (h.full hm hsmall).2, fun d hd => ?_, ?_⟩
    · rcases List.mem_append.mp hd with hd | hd
      · exact h.cells d hd
      · obtain rfl := List.mem_singleton.mp hd
        exact ⟨fun _ => rfl, dvd_of_eq rfl⟩
    · have hstop := (@more_append s.first size s.blocks (coalesced_of_mirrors hm)).stop
      show stop s.first (s.blocks ++ [⟨false, size⟩]) = s.first + _
      rw [hstop, h.ends, Nat.mul_succ, Nat.add_assoc]

/-- **`free` keeps the grid.** -/
theorem Grid.free (h : s.Grid size m) (hf : s.free ptr = some s') : s'.Grid size m := by
  have hends : stop s'.first s'.blocks = stop s.first s.blocks := free_ends hf
  have hfirst : s'.first = s.first := congrArg (· + sizeofSlot) (free_frame hf).1
  refine ⟨?_, by rw [hends, hfirst]; exact h.ends⟩
  cases ptr with
  | none => exact Option.some.inj hf ▸ h.cells
  | some p =>
    rcases release_cases p s.first s.blocks with ⟨hnone, -⟩ | ⟨pre, b, post, hbs, -, hsome⟩
    · rw [Arena.free, hnone] at hf
      cases hf
    · rw [Arena.free, hsome] at hf
      obtain rfl := Option.some.inj hf
      have hcells := h.cells
      rw [hbs] at hcells
      refine forall_coalesce (fun d e hd he => ⟨fun hfree => (by cases hfree), ?_⟩) fun d hd => ?_
      · rw [width_join]
        exact Nat.dvd_add hd.2 he.2
      · rcases List.mem_append.mp hd with hd | hd
        · rcases List.mem_append.mp hd with hd | hd
          · exact hcells d (by simp [hd])
          · obtain rfl := List.mem_singleton.mp hd
            exact ⟨fun hfree => (by cases hfree), (hcells b (by simp)).2⟩
        · exact hcells d (by simp [hd])

variable {u : UInt64} {e : Machine.Event}

/-- **One call of a client that asks for one size**: if there are more live blocks after it than there were cells, it has
put one cell more at the end. -/
theorem Grid.step (h : s.Grid u.toNat m) (h4 : 4 ≤ u.toNat) (hm : Mirrors c s) (he : e.OfSize u) (hs : s.step64 e = some s')
    (hm' : Mirrors c' s') : s'.Grid u.toNat (max m c'.live.length) := by
  have hkeep : s'.Grid u.toNat m → s'.Grid u.toNat (max m c'.live.length) := by
    intro h'
    rw [Nat.max_eq_left (h'.live_le hm')]
    exact h'
  have hs := step64_eq_some hs
  cases e with
  | malloc n os =>
    obtain rfl : n = u := he
    simp only [Arena.plain, Arena.step] at hs
    cases hmal : s.malloc (s.grows os n.toNat) n.toNat with
    | mk r s₁ =>
      have hlive : s₁.live = s.live := by simpa only [hmal] using (s.malloc_frame (s.grows os n.toNat) n.toNat).2.2
      rw [hmal] at hs
      rcases h.malloc h4 hm hmal with h₁ | ⟨p, rfl, hfull, h₁⟩
      · cases r with
        | none =>
          obtain rfl := Option.some.inj hs
          exact hkeep h₁
        | some p =>
          obtain rfl := Option.some.inj hs
          exact hkeep ⟨h₁.cells, h₁.ends⟩
      · obtain rfl := Option.some.inj hs
        have hlen : c'.live.length = m + 1 := by
          have hc := congrArg List.length hm.asked
          have hc' := congrArg List.length hm'.asked
          rw [holding, hlive] at hc'
          simp only [List.length_map, List.length_cons] at hc hc'
          omega
        rw [hlen, Nat.max_eq_right (Nat.le_succ m)]
        exact ⟨h₁.cells, h₁.ends⟩
  | realloc ptr n os => exact he.elim
  | free ptr =>
    obtain ⟨s₁, hf, rfl⟩ := Option.map_eq_some_iff.mp hs
    have h₁ := h.free hf
    exact hkeep ⟨h₁.cells, h₁.ends⟩
  | write ptr offset value =>
    obtain rfl := Option.some.inj hs
    exact hkeep h

/-- **A run of such a client**: there are as many cells as there were, or as blocks were live at one time. -/
theorem Grid.run {events : List Machine.Event} (h : s.Grid u.toNat m) (h4 : 4 ≤ u.toNat) (hm : Mirrors c s)
    (hbrk : c.heap.brk < 2 ^ 64 - 1) (ht : Steps.Along Machine.step Machine.Tolerated c events) (he : ∀ e ∈ events, e.OfSize u)
    (hrun : Steps.run Machine.step c events = some c') :
    ∃ s', Mirrors c' s' ∧ s'.base = s.base ∧ s'.Grid u.toNat (max m (Machine.mostLive c events)) := by
  induction events generalizing c s m with
  | nil =>
    obtain rfl := Option.some.inj hrun
    exact ⟨s, hm, rfl, by rw [Machine.mostLive, Nat.max_eq_left (h.live_le hm)]; exact h⟩
  | cons e events ih =>
    obtain ⟨c₁, hc₁, hrest⟩ := Steps.run_cons_iff.mp hrun
    have hone := hm.step64 hbrk ht.1
    obtain ⟨r, hr⟩ : ∃ r, s.step64 e = r := ⟨_, rfl⟩
    rw [hc₁, hr] at hone
    cases hone with
    | @some _ s₁ hm₁ =>
      have h₁ := h.step h4 hm (he e List.mem_cons_self) hr hm₁.1
      obtain ⟨s', hm', hbase, h'⟩ := ih h₁ hm₁.1 hm₁.2 (ht.2 c₁ hc₁) (fun e' he' => he e' (List.mem_cons_of_mem _ he')) hrest
      refine ⟨s', hm', hbase.trans (step_base (step64_eq_some hr)), ?_⟩
      have hmax : max (max m c₁.live.length) (Machine.mostLive c₁ events) = max m (Machine.mostLive c (e :: events)) := by
        have hle := Machine.length_le_mostLive c₁ events
        have hle' := h.live_le hm
        simp only [Machine.mostLive, hc₁]
        omega
      rw [← hmax]
      exact h'

end Arena

/-- **One size, no fragments.** For a client that asks for blocks of one size only, of four bytes at least, whatever the system
allows, and whatever is passed to `mm_free` and in whatever order: once there has been a call of `mm_malloc`, the break is as
far from the first slot as the most blocks that were live at one time take. -/
theorem one_size_break (mem : ℕ → Cell) (brk : ℕ) (hbrk : brk < 2 ^ 64 - 1) (size : UInt64) (events : List Machine.Event)
    (h4 : 4 ≤ size.toNat) (hsize : ∀ e ∈ events, e.OfSize size)
    (h : Steps.Along Machine.step Machine.Tolerated (.start mem brk) events) :
    ∀ c ∈ Steps.run Machine.step (.start mem brk) events, c.heap.isInit = true →
      c.heap.brk = brk + sizeofSlot + (sizeofSlot + size.toNat) * Machine.mostLive (.start mem brk) events := by
  intro c hc hinit
  have hstart : (Arena.start brk).Grid size.toNat 0 := ⟨fun b hb => absurd hb List.not_mem_nil, rfl⟩
  obtain ⟨s, hm, hbase, hgrid⟩ := hstart.run h4 (Mirrors.start mem brk) hbrk h hsize hc
  have hbase : s.base = brk := hbase
  have hends : s.ends = s.base + sizeofSlot + _ := hgrid.ends
  rw [hm.brk_eq (hm.begun.symm.trans hinit), hends, hbase, Nat.max_eq_right (Nat.zero_le _)]

/-- Three blocks of one size, of which two are given back, and two more. -/
def threeOfOneSize : List Machine.Event :=
  [.malloc 8 fun _ _ => true, .malloc 8 fun _ _ => true, .malloc 8 fun _ _ => true, .free (some 1064), .free (some 1104),
    .malloc 8 fun _ _ => true, .malloc 8 fun _ _ => true]

/-- `one_size_break` for these. -/
theorem one_size_break_threeOfOneSize :
    (Steps.run Machine.step (.start (fun _ => .byte 1) 1000) threeOfOneSize).isSome = true ∧
      ∀ c ∈ Steps.run Machine.step (.start (fun _ => .byte 1) 1000) threeOfOneSize, c.heap.isInit = true →
        c.heap.brk = 1000 + sizeofSlot +
          (sizeofSlot + (8 : UInt64).toNat) * Machine.mostLive (.start (fun _ => .byte 1) 1000) threeOfOneSize :=
  ⟨by decide +kernel,
    one_size_break (fun _ => .byte 1) 1000 (by decide) 8 threeOfOneSize (by decide) (by decide) (by decide +kernel)⟩

end Cs162Hw.Alloc
