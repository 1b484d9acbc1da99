import Cs162Hw.Alloc.Arena
import Cs162Hw.Alloc.Machine

/-!
# The allocator is first fit

`mm_malloc`, `mm_realloc` and `mm_free` do on memory what `Arena` does without any. So
where blocks are placed depends on the sizes asked for and on what is given back, and not
on what memory held before or on what the client writes.

The client may pass anything to `mm_free`. A pointer that is not live is a free block, and
then nothing comes of it; or no block begins there, and then the process dies, on the slot
that was not found or, for the sentinel, on the slot before it.

What ties heap and row together is that a heap is of one row only (`Heap.Tiles.unique`), and
that a row is known by its used blocks and its end: what the calls are known to do to the
used blocks is all there is to know.

`Mirrors.step` is about sizes that are natural numbers. With the sizes of `Machine` the arena can tell
which increments of the break are refused, and which calls cannot be (`Arena.step64`): **`first_fit`**.
-/

namespace Cs162Hw.Alloc

open Library Library.Tiling Heap

namespace Heap

variable {h h' : Heap} {base a p n e : ℕ} {prev next : Option ℕ} {pre post bs cs : List Block} {b : Block} {grow : Bool} {size : ℕ}

/-! ## One row -/

theorem headers_blocks : (headers prev a next bs).map (fun p => (⟨p.2.isFree, p.2.size⟩ : Block)) = bs := by
  induction bs generalizing prev a with
  | nil => rfl
  | cons b bs ih => rw [headers_cons, List.map_cons, ih]

/-- **A heap is of one row of blocks.** -/
theorem Tiles.unique (ht : h.Tiles base bs) (ht' : h.Tiles base cs) : bs = cs := by
  have hslots := Option.some.inj (ht.toRep.slots_eq.symm.trans ht'.toRep.slots_eq)
  have hblocks := congrArg (List.map fun p : ℕ × Slot => (⟨p.2.isFree, p.2.size⟩ : Block)) hslots
  rw [headers_blocks, headers_blocks] at hblocks
  exact (List.cons.inj hblocks).2

/-- A heap that is known to be of some row is of any with the same used blocks and the same end. -/
theorem Tiles.of_used (ht : h.Tiles base bs) (hc : Coalesced (sentinel :: cs)) (hu : (inUse base bs).Perm (inUse base cs))
    (hs : stop (base + sizeofSlot) cs = h.brk) : h.Tiles base cs := by
  have hbrk : stop (base + sizeofSlot) bs = h.brk := ht.brk
  have hcb := (List.isChain_cons.mp ht.coalesced).2
  have hcc := (List.isChain_cons.mp hc).2
  exact Coalesced.eq_of_used hcb hcc hu (hbrk.trans hs.symm) ▸ ht

theorem Tiles.more (ht : h.Tiles base bs) (hg : GrantsAt h h' base bs p n (h.brk + e)) (hm : More (base + sizeofSlot) bs cs p n e) :
    h'.Tiles base cs := by
  obtain ⟨hbrk', bs', ht', hperm, -, -⟩ := hg
  have hbrk : stop (base + sizeofSlot) bs = h.brk := ht.brk
  exact ht'.of_used hm.coalesced (hperm.trans hm.used.symm) (by rw [hm.stop, hbrk, hbrk'])

/-! ## `mm_malloc` -/

theorem find_headers :
    ((headers prev a next bs).find? fun p => p.2.isFree && size ≤ p.2.size).map Prod.fst =
      (firstFit size a bs).map fun p => p.1 - sizeofSlot := by
  induction bs generalizing prev a with
  | nil => rfl
  | cons b bs ih =>
    rw [headers_cons, firstFit]
    by_cases hfit : b.isFree && decide (size ≤ b.size)
    · rw [List.find?_cons_of_pos (by exact hfit), if_pos hfit]
      simp
    · rw [List.find?_cons_of_neg (by exact hfit), if_neg hfit, ih, Option.map_map]
      rfl

/-- `find_list_elem` looks for the first fit. -/
theorem Tiles.findListElem_eq (ht : h.Tiles base bs) (size : ℕ) :
    h.findListElem size = some ((firstFit size (base + sizeofSlot) bs).map fun p => p.1 - sizeofSlot) := by
  rw [findListElem, ht.toRep.findSlot_eq (by simp), find_headers, firstFit, if_neg (by simp [sentinel])]
  simp only [Option.map_map]
  rfl

/-- The last slot. -/
theorem Tiles.tail_slot (ht : h.Tiles base bs) (hpre : sentinel :: bs = pre ++ [b]) :
    h.tail = some (stop base pre) ∧ h.slot (stop base pre) = some ⟨last none base pre, none, b.isFree, b.size⟩ := by
  have hr := ht.toRep
  rw [hpre, ← List.append_nil (pre ++ [b])] at hr
  obtain ⟨hb, -, htail, -⟩ := hr.around
  exact ⟨htail, hb⟩

/-- **`mm_malloc`**, on a heap that is initialised. -/
theorem mallocSlot_grant (ht : h.Tiles base bs) (grow : Bool) (size : ℕ) :
    ∃ h', h.mallocSlot grow size = some ((grant size (base + sizeofSlot) grow bs).map Prod.fst, h') ∧
      h'.Tiles base (((grant size (base + sizeofSlot) grow bs).map Prod.snd).getD bs) := by
  have hfind := ht.findListElem_eq size
  obtain ⟨r, hr⟩ : ∃ r, grant size (base + sizeofSlot) grow bs = r := ⟨_, rfl⟩
  have hg := grant_granted size (base + sizeofSlot) grow bs
  rw [hr] at hg ⊢
  cases hg with
  | refused hsmall hgrow =>
    obtain ⟨pre, b, hpre⟩ := (List.eq_nil_or_concat' (sentinel :: bs)).resolve_left (by simp)
    obtain ⟨htail, hslot⟩ := ht.tail_slot hpre
    rw [firstFit_none hsmall] at hfind
    refine ⟨h, ?_, ht⟩
    simp only [mallocSlot, hfind, Option.map_none, htail, hslot, hgrow, sbrk_false, Option.bind_eq_bind, Option.bind_some, ite_self]
  | @fit pre post b hbs hfree hsize hsmall =>
    subst hbs
    obtain ⟨h₁, h₂, e₁, e₂, hg⟩ := mallocSlot_free ht hfree
    rw [firstFit_fit hsmall hfree hsize] at hfind
    have hstop : stop (base + sizeofSlot) pre = stop base (sentinel :: pre) := rfl
    refine ⟨h₂, ?_, ht.more hg (more_fit ht.coalesced hfree)⟩
    simp only [mallocSlot, hfind, Option.map_some, hstop, Nat.add_sub_cancel, Option.bind_eq_bind, Option.bind_some, e₁, e₂]
  | @extend pre b hbs hfree hsmall hgrow =>
    subst hbs
    have hsize := hsmall b (by simp) hfree
    have hpre : sentinel :: (pre ++ [b]) = (sentinel :: pre) ++ [b] := rfl
    obtain ⟨htail, hslot⟩ := ht.tail_slot hpre
    have hcoal := ht.coalesced
    rw [firstFit_none hsmall] at hfind
    rw [← List.append_nil (pre ++ [b])] at ht
    obtain ⟨h₁, h₂, e₁, e₂, hg⟩ := mallocSlot_extend ht hfree hsize
    rw [List.append_nil] at ht hg
    have hstop : stop (base + sizeofSlot) pre = stop base (sentinel :: pre) := rfl
    refine ⟨h₂, ?_, ht.more hg (more_extend hcoal hfree (Nat.le_of_lt hsize))⟩
    simp only [mallocSlot, hfind, Option.map_none, Option.map_some, hstop, htail, hslot, hfree, hgrow, sbrk_true,
      Option.bind_eq_bind, Option.bind_some, if_true, e₁, e₂]
  | append hlast hsmall hgrow =>
    obtain ⟨pre, b, hpre⟩ := (List.eq_nil_or_concat' (sentinel :: bs)).resolve_left (by simp)
    obtain ⟨htail, hslot⟩ := ht.tail_slot hpre
    have hused : b.isFree = false := by
      have hgetLast := congrArg List.getLast? hpre
      rw [List.getLast?_concat, List.getLast?_cons] at hgetLast
      cases hl : bs.getLast? with
      | none => rw [hl] at hgetLast; exact Option.some.inj hgetLast ▸ rfl
      | some c => rw [hl] at hgetLast; exact Option.some.inj hgetLast ▸ hlast c hl
    rw [firstFit_none hsmall] at hfind
    obtain ⟨h₁, h₂, h₃, e₁, e₂, e₃, hg⟩ := mallocSlot_append ht hpre
    have hbrk : stop (base + sizeofSlot) bs = h.brk := ht.brk
    have hm := @more_append (base + sizeofSlot) size bs ht.coalesced
    rw [hbrk] at hm
    refine ⟨_, ?_, ht.more hg hm⟩
    simp only [mallocSlot, hfind, Option.map_none, Option.map_some, hbrk, htail, hslot, hused, hgrow, sbrk_true,
      Option.bind_eq_bind, Option.bind_some, Bool.false_eq_true, if_false, e₁, e₂, e₃]

/-- **`mm_malloc`.** -/
theorem mmMalloc_arena {s : Arena} (hr : h.Ready s.base s.blocks) (grow : Bool) (size : ℕ) :
    ∃ h', h.mmMalloc grow size = some ((s.malloc grow size).1, h') ∧ h'.Tiles s.base (s.malloc grow size).2.blocks := by
  obtain ⟨h₀, e₀, ht, -⟩ := hr.ensureInit
  by_cases hsize : size = 0
  · refine ⟨h₀, ?_, ?_⟩
    · simp only [mmMalloc, e₀, Arena.malloc, if_pos hsize, Option.bind_eq_bind, Option.bind_some]
    · simpa only [Arena.malloc, if_pos hsize] using ht
  · obtain ⟨h', e, ht'⟩ := mallocSlot_grant ht grow size
    refine ⟨h', ?_, ?_⟩
    · simp only [mmMalloc, e₀, Arena.malloc, Arena.first, if_neg hsize, Option.bind_eq_bind, Option.bind_some, e]
      cases grant size (s.base + sizeofSlot) grow s.blocks <;> rfl
    · simp only [Arena.malloc, Arena.first, if_neg hsize]
      cases hg : grant size (s.base + sizeofSlot) grow s.blocks with
      | none => simpa [hg] using ht'
      | some r => simpa [hg] using ht'

/-! ## `mm_free` -/

/-- No slot has its bytes there. -/
theorem Tiles.findListElemDataLocation_none (ht : h.Tiles base bs) (hbase : base + sizeofSlot ≠ p)
    (hout : ∀ pre b post, bs = pre ++ [b] ++ post → stop (base + sizeofSlot) pre + sizeofSlot ≠ p) :
    h.findListElemDataLocation p = some none := by
  rw [Heap.findListElemDataLocation, ht.toRep.findSlot_eq (by simp) fun iter _ => iter + sizeofSlot == p]
  have hfind : (headers none base none (sentinel :: bs)).find? (fun q => q.1 + sizeofSlot == p) = none := by
    refine List.find?_eq_none.mpr fun q hq => ?_
    obtain ⟨pre, b, post, hbs, hx, -, -⟩ := mem_headers hq
    cases pre with
    | nil =>
      rw [stop_nil] at hx
      simpa [hx] using hbase
    | cons c pre =>
      obtain ⟨rfl, rfl⟩ := List.cons.inj hbs
      have hne := hout pre b post (by simp)
      have hstop : stop base (sentinel :: pre) = stop (base + sizeofSlot) pre := rfl
      rw [hstop] at hx
      simpa [hx] using hne
  rw [hfind]
  rfl

/-- `mm_free` of the sentinel: the process dies on what stands before it. -/
theorem Tiles.mmFree_sentinel (ht : h.Tiles base bs) : h.mmFree (some (base + sizeofSlot)) = none := by
  have hr : h.Rep base ([] ++ [sentinel] ++ bs) := ht.toRep
  have hat : h.Rep base ([] ++ sentinel :: bs) := ht.toRep
  have hfind : h.findListElemDataLocation (base + sizeofSlot) = some (some base) :=
    findListElemDataLocation_spec hat
  obtain ⟨hb, -, -, hbrk⟩ := hr.around
  obtain ⟨h₁, e₁, a₁, -⟩ := @memset_spec h (base + sizeofSlot) 0 (by rw [width_eq] at hbrk; exact hbrk)
  have r₁ := hr.data a₁ le_rfl (by rw [width_eq]; exact le_rfl)
  obtain ⟨h₂, e₂, r₂, -⟩ := r₁.setFree true
  obtain ⟨h₃, gs, rest, n, -, -, -, e₃, r₃, -, -⟩ := mergeFollowing_spec r₂
  obtain ⟨hs, -, -, -⟩ := r₃.around
  simp only [stop_nil, last_nil] at hb hs e₁ e₂ e₃
  have hsize : sentinel.size = 0 := rfl
  simp only [mmFree, hfind, hb, hsize, e₁, e₂, mergeFreeSpace, e₃, mergeBefore, hs, Heap.fuel, mergePrev, r₃.head,
    Option.bind_eq_bind, Option.bind_some, reduceCtorEq, if_false, Option.bind_none]

theorem inUse_coalesce : inUse base (coalesce bs) = inUse base bs :=
  congrArg (List.map fun p : ℕ × Block => (p.1 + sizeofSlot, p.2.size)) occupied_coalesce

/-- **`mm_free`** of any pointer but `NULL`. -/
theorem mmFree_release (ht : h.Tiles base bs) (p : ℕ) :
    (release p (base + sizeofSlot) bs = none ∧ h.mmFree (some p) = none) ∨
      ∃ cs h', release p (base + sizeofSlot) bs = some cs ∧ h.mmFree (some p) = some h' ∧ h'.Tiles base (coalesce cs) ∧
        Keeps h h' (inUse base cs) := by
  rcases release_cases p (base + sizeofSlot) bs with ⟨hnone, hout⟩ | ⟨pre, b, post, rfl, rfl, hsome⟩
  · refine .inl ⟨hnone, ?_⟩
    by_cases hbase : base + sizeofSlot = p
    · exact hbase ▸ ht.mmFree_sentinel
    · simp only [mmFree, ht.findListElemDataLocation_none hbase hout, Option.bind_eq_bind, Option.bind_some, Option.bind_none]
  · obtain ⟨h', bs', e, ht', hin, hk, hbrk'⟩ := mmFree_merges ht
    refine .inr ⟨_, h', hsome, e, ?_, hin ▸ hk⟩
    have hstop : stop (base + sizeofSlot) (pre ++ [⟨true, b.size⟩] ++ post) = h.brk := by
      rw [← ht.brk, stop_cons, stop_append, stop_append, stop_append, stop_append]
      rfl
    refine ht'.of_used (List.isChain_cons.mpr ⟨fun c _ h => (by cases h.1), settled_coalesce _⟩) ?_ ?_
    · rw [hin, inUse_coalesce]
    · rw [stop_coalesce, hstop, hbrk']

/-! ## `mm_realloc` -/

/-- **`mm_realloc`** of a block in use. -/
theorem mmRealloc_arena {s : Arena} (ht : h.Tiles s.base s.blocks) (hp : (p, n) ∈ inUse s.base s.blocks) (grow : Bool)
    (hsize : size ≠ 0) :
    ∃ s' h', s.realloc grow (some p) size = some ((s.malloc grow size).1, s') ∧
      h.mmRealloc grow (some p) size = some ((s.malloc grow size).1, h') ∧ h'.Tiles s.base s'.blocks := by
  obtain ⟨h₁, e₁, ht₁⟩ := mmMalloc_arena (.inr ht) grow size
  cases hm : s.malloc grow size with
  | mk r s₁ =>
    have hbase : s₁.base = s.base := by simpa only [hm] using (s.malloc_frame grow size).1
    rw [hm] at e₁ ht₁
    cases r with
    | none => exact ⟨s₁, h₁, by rw [Arena.realloc, if_neg hsize, hm], mmRealloc_null ht hp hsize e₁, ht₁⟩
    | some q =>
      obtain ⟨m, e, hle, -, hmore⟩ := Arena.malloc_more ht.coalesced hm
      have hperm₁ : (inUse s.base s₁.blocks).Perm ((q, m) :: inUse s.base s.blocks) := hmore.used
      obtain ⟨h₂, h₃, bs', er, -, -, ht₃, hperm₃, -, hbrk₃⟩ := mmRealloc_moves ht hp hsize e₁ hle ht₁ hperm₁
      obtain ⟨pre, b, post, hbs, hused, hpn⟩ := mem_inUse.mp (hperm₁.symm.subset (List.mem_cons_of_mem _ hp))
      obtain ⟨rfl, rfl⟩ := Prod.mk.inj hpn
      have hrel : release (stop s.base (sentinel :: pre) + sizeofSlot) s₁.first s₁.blocks =
          some (pre ++ [⟨true, b.size⟩] ++ post) := by
        rw [hbs, Arena.first, hbase]
        exact @release_at (s.base + sizeofSlot) b pre post
      refine ⟨{ s₁ with blocks := coalesce (pre ++ [⟨true, b.size⟩] ++ post) }, h₃, ?_, er, ?_⟩
      · rw [Arena.realloc, if_neg hsize, hm]
        simp only [Arena.free, hrel, Option.map_some]
      · refine ht₃.of_used (List.isChain_cons.mpr ⟨fun c _ h => (by cases h.1), settled_coalesce _⟩) ?_ ?_
        · rw [inUse_coalesce]
          rw [hbs, inUse_around, used_cons_of_used hused, used_nil] at hperm₃
          rw [inUse_around, used_cons_of_free rfl, used_nil, List.append_nil]
          exact (List.Perm.cons_inv (hperm₃.symm.trans (by rw [List.append_assoc]; exact List.perm_middle)))
        · have hbrk₁ : stop (s.base + sizeofSlot) s₁.blocks = h₁.brk := ht₁.brk
          rw [stop_coalesce, hbrk₃, ← hbrk₁, hbs, stop_append, stop_append, stop_append, stop_append]
          rfl

end Heap

/-! ## Runs -/

namespace Client

/-- As `Allowed`, but anything may be passed to `mm_free`. -/
def Tolerated (c : Client) : ClientEvent → Prop
  | .free _ => True
  | e => c.Allowed e

instance (c : Client) : (e : ClientEvent) → Decidable (c.Tolerated e)
  | .malloc size grow => inferInstanceAs (Decidable (c.Allowed (.malloc size grow)))
  | .realloc ptr size grow => inferInstanceAs (Decidable (c.Allowed (.realloc ptr size grow)))
  | .free _ => inferInstanceAs (Decidable True)
  | .write ptr offset value => inferInstanceAs (Decidable (c.Allowed (.write ptr offset value)))

end Client

/-- Where everything is. -/
structure Placement where
  /-- The break. -/
  brk : ℕ
  /-- The slots. -/
  slots : Option (List (ℕ × Slot))
  /-- What is live: where it is, and the size last requested. -/
  live : List (ℕ × ℕ)
  deriving DecidableEq

/-- Where everything is in the client's heap. -/
def Client.placement (c : Client) : Placement := ⟨c.heap.brk, c.heap.slots, c.live.map fun b => (b.ptr, b.size)⟩

/-- Where everything would be: the sentinel and the blocks, linked. -/
def Arena.placement (s : Arena) : Placement :=
  if s.begun then ⟨stop s.first s.blocks, some (headers none s.base none (sentinel :: s.blocks)), s.live⟩
  else ⟨s.base, some [], s.live⟩

/-- The heap is laid out as the arena is. -/
structure Mirrors (c : Client) (s : Arena) : Prop extends Client.Inv s.base s.blocks c where
  /-- Whether there has been a call. -/
  begun : c.heap.isInit = s.begun
  /-- What is live. -/
  asked : c.live.map (fun b => (b.ptr, b.size)) = s.live

namespace Mirrors

variable {c c' : Client} {s s' : Arena} {base p size : ℕ} {bs : List Block} {e : ClientEvent}

theorem start (mem : ℕ → Cell) (brk : ℕ) : Mirrors (.start mem brk) (.start brk) := ⟨.start mem brk, rfl, rfl⟩

/-- What the calls are known to keep, they keep of the row that is known to be there. -/
theorem of_tiles (hi : Client.Inv base bs c) (hbase : s.base = base) (ht : c.heap.Tiles base s.blocks) (hbegun : s.begun = true)
    (hasked : c.live.map (fun b => (b.ptr, b.size)) = s.live) : Mirrors c s := by
  subst hbase
  have ht' : c.heap.Tiles s.base bs := by
    rcases hi.ready with ⟨hinit, -⟩ | ht'
    · exact absurd (hinit.symm.trans ht.isInit) (by decide)
    · exact ht'
  obtain rfl := ht'.unique ht
  exact ⟨hi, ht.isInit.trans hbegun.symm, hasked⟩

theorem placement (hm : Mirrors c s) : c.placement = s.placement := by
  rw [Client.placement, Arena.placement, hm.asked]
  rcases hm.ready with ⟨hinit, hhead, hbrk, -⟩ | ht
  · have hslots : c.heap.slots = some [] := by rw [Heap.slots, hhead]; rfl
    rw [← hm.begun, hinit, if_neg Bool.false_ne_true, hbrk, hslots]
  · have hbrk : stop s.first s.blocks = c.heap.brk := ht.brk
    rw [← hm.begun, ht.isInit, if_pos rfl, hbrk, ht.toRep.slots_eq]

/-- What is live but at a pointer. -/
theorem asked_without (hm : Mirrors c s) (ptr : Option ℕ) :
    (c.without ptr).map (fun b => (b.ptr, b.size)) = s.live.filter fun b => some b.1 ≠ ptr := by
  rw [← hm.asked, Client.without, List.filter_map]
  rfl

/-- A pointer that is not live is not that of a used block. -/
theorem not_live (hm : Mirrors c s) (hp : ¬ ∃ b ∈ c.live, b.ptr = p) {n : ℕ} : (p, n) ∉ inUse s.base s.blocks := by
  intro hin
  obtain ⟨b, hb, hptr⟩ := List.mem_map.mp (hm.live.symm.subset (List.mem_map_of_mem (f := Prod.fst) hin))
  exact hp ⟨b, hb, hptr⟩

/-- **`mm_free`** of any pointer. -/
theorem free (hm : Mirrors c s) (ptr : Option ℕ) : Option.Rel Mirrors (c.step (.free ptr)) (s.step (.free ptr)) := by
  cases ptr with
  | none =>
    refine .some ⟨?_, hm.begun, ?_⟩
    · rw [Client.without_none]
      exact hm.toInv
    · exact hm.asked_without none
  | some p =>
    rcases hm.ready with ⟨hinit, hhead, -, hnil⟩ | ht
    · -- there is no slot at all
      have hfree : c.heap.mmFree (some p) = none := by
        simp only [mmFree, findListElemDataLocation, hhead, Heap.fuel, findSlot, Option.bind_eq_bind, Option.bind_some,
          Option.bind_none]
      simp only [Client.step, Arena.step, Arena.free, hfree, hnil, release, Option.bind_eq_bind, Option.bind_none, Option.map_none]
      exact .none
    · rcases mmFree_release ht p with ⟨hrel, e⟩ | ⟨cs, h', hrel, e, ht', hk⟩
      · simp only [Client.step, Arena.step, Arena.free, Arena.first, hrel, e, Option.bind_eq_bind, Option.bind_none,
          Option.map_none]
        exact .none
      · have hbegun : s.begun = true := hm.begun.symm.trans ht.isInit
        simp only [Client.step, Arena.step, Arena.free, Arena.first, hrel, e, Option.bind_eq_bind, Option.bind_some,
          Option.map_some]
        refine .some ?_
        by_cases hlive : ∃ b ∈ c.live, b.ptr = p
        · obtain ⟨h₁, e₁, ⟨bs', hi'⟩, -⟩ := @Client.Inv.free _ _ _ hm.toInv (some p) fun q hq => Option.some.inj hq ▸ hlive
          obtain rfl := Option.some.inj (e.symm.trans e₁)
          exact of_tiles hi' rfl ht' hbegun (hm.asked_without _)
        · -- a free block, marked once more
          have hcs : coalesce cs = s.blocks ∧ cs = s.blocks := by
            rcases release_cases p (s.base + sizeofSlot) s.blocks with ⟨hnone, -⟩ | ⟨pre, b, post, hbs, rfl, hsome⟩
            · rw [hnone] at hrel
              cases hrel
            · obtain rfl := Option.some.inj (hsome.symm.trans hrel)
              have hfree : b.isFree = true := by
                by_contra hused
                exact hm.not_live hlive (mem_inUse.mpr ⟨pre, b, post, hbs, by simpa using hused, rfl⟩)
              have hb : (⟨true, b.size⟩ : Block) = b := by rw [← hfree]
              rw [hb, ← hbs]
              exact ⟨(Settled.eq_coalesce (a := 0) (List.isChain_cons.mp ht.coalesced).2 rfl rfl).symm, rfl⟩
          have hwithout : c.without (some p) = c.live :=
            List.filter_eq_self.mpr fun b hb => by simpa using fun hptr => hlive ⟨b, hb, hptr⟩
          rw [hcs.1] at ht'
          rw [hcs.2] at hk
          have hi' : Client.Inv s.base s.blocks ⟨h', [] ++ c.live⟩ :=
            hm.toInv.change ht' (List.Subset.refl _) (List.Subset.refl _) hk (List.Subset.refl _) hm.live hm.live
              fun b hb => absurd hb List.not_mem_nil
          have hkept : Client.Inv s.base s.blocks ⟨h', c.without (some p)⟩ := by
            rw [hwithout]
            exact hi'
          have htiles : h'.Tiles s.base (coalesce cs) := by
            rw [hcs.1]
            exact ht'
          exact of_tiles hkept rfl htiles hbegun (hm.asked_without _)

/-- `mm_malloc`, its block being what the client takes it for. -/
theorem malloc (hm : Mirrors c s) (grow : Bool) (size : ℕ) :
    Option.Rel Mirrors (c.step (.malloc size grow)) (s.step (.malloc size grow)) := by
  obtain ⟨r, h', e, ⟨bs', hi'⟩, -⟩ := hm.toInv.malloc grow size none
  obtain ⟨h₁, e₁, ht'⟩ := mmMalloc_arena hm.ready grow size
  obtain ⟨hr, rfl⟩ := Prod.mk.inj (Option.some.inj (e.symm.trans e₁))
  obtain ⟨hbase, hbegun, hlive⟩ := s.malloc_frame grow size
  simp only [Client.step, e, Option.bind_eq_bind, Option.bind_some, Arena.step]
  cases hmal : s.malloc grow size with
  | mk q s₁ =>
    rw [hmal] at hr ht' hbase hbegun hlive
    obtain rfl : r = q := hr
    cases r with
    | none => exact .some (of_tiles hi' hbase ht' hbegun (hm.asked.trans hlive.symm))
    | some p =>
      refine .some (of_tiles hi' hbase ht' hbegun ?_)
      rw [List.map_cons, hm.asked, ← hlive]
      rfl

/-- `mm_realloc` of `NULL` or a live block. -/
theorem realloc (hm : Mirrors c s) (grow : Bool) {ptr : Option ℕ} (size : ℕ) (ha : ∀ p ∈ ptr, ∃ b ∈ c.live, b.ptr = p) :
    Option.Rel Mirrors (c.step (.realloc ptr size grow)) (s.step (.realloc ptr size grow)) := by
  by_cases hsize : size = 0
  · -- it is `mm_free`
    have hstep : c.step (.realloc ptr size grow) = c.step (.free ptr) := by
      simp only [Client.step, mmRealloc, if_pos hsize]
      cases c.heap.mmFree ptr <;> rfl
    have hstep' : s.step (.realloc ptr size grow) = s.step (.free ptr) := by
      simp only [Arena.step, Arena.realloc, if_pos hsize, Option.map_map]
      rfl
    rw [hstep, hstep']
    exact hm.free ptr
  · cases ptr with
    | none =>
      -- it is `mm_malloc`
      have hmoved : ∀ p, c.moved none p size = ⟨p, size, fun _ => none⟩ := by
        intro p
        simp only [Client.moved, Client.written_none, ite_self]
      have hstep : c.step (.realloc none size grow) = c.step (.malloc size grow) := by
        simp only [Client.step, mmRealloc, if_neg hsize, hmoved, Client.without_none]
      have hwithout : ∀ s : Arena, s.without none = s := fun s => by simp [Arena.without]
      have hstep' : s.step (.realloc none size grow) = s.step (.malloc size grow) := by
        simp only [Arena.step, Arena.realloc, if_neg hsize, Arena.free, Option.map_some, hwithout]
        rcases s.malloc grow size with ⟨_ | p, s₁⟩ <;> rfl
      rw [hstep, hstep']
      exact hm.malloc grow size
    | some p =>
      obtain ⟨b, hb, rfl⟩ := ha p rfl
      obtain ⟨n, hn, -⟩ := hm.sits b hb
      obtain ⟨r, h', e, ⟨bs', hi'⟩, -⟩ := hm.toInv.realloc grow size ha
      obtain ⟨s', h₁, e₂, e₁, ht'⟩ := mmRealloc_arena (hm.toInv.tiles hb) hn grow hsize
      obtain ⟨hr, rfl⟩ := Prod.mk.inj (Option.some.inj (e.symm.trans e₁))
      obtain ⟨hbase, hbegun, hlive⟩ := Arena.realloc_frame hsize e₂
      simp only [Client.step, e, Option.bind_eq_bind, Option.bind_some, Arena.step, e₂, Option.map_some, if_neg hsize, ← hr]
      cases r with
      | none =>
        rw [if_neg hsize] at hi'
        exact .some (of_tiles hi' hbase ht' hbegun (hm.asked.trans hlive.symm))
      | some q =>
        refine .some (of_tiles hi' hbase ht' hbegun ?_)
        rw [List.map_cons, hm.asked_without, ← hlive]
        rfl

/-- **Heap and arena go together** through any call or write. -/
theorem step (hm : Mirrors c s) (ht : c.Tolerated e) : Option.Rel Mirrors (c.step e) (s.step e) := by
  cases e with
  | malloc size grow => exact hm.malloc grow size
  | realloc ptr size grow => exact hm.realloc grow size ht
  | free ptr => exact hm.free ptr
  | write ptr offset value =>
    obtain ⟨b, hb, rfl, ho⟩ := ht
    obtain ⟨⟨bs', hi'⟩, -⟩ := hm.toInv.write hb ho value
    obtain ⟨n, hn, hsits⟩ := hm.sits b hb
    have ht := hm.toInv.tiles hb
    have hsize := hsits.size
    have ht' := ht.data hn (Client.alters_update c.heap (b.ptr + offset) (.byte value)) (by omega) (by omega)
    refine .some (of_tiles hi' rfl ht' (hm.begun.symm.trans ht.isInit) ?_)
    rw [← hm.asked, List.map_map]
    refine List.map_congr_left fun b' _ => ?_
    simp only [Function.comp_apply]
    split_ifs <;> rfl

end Mirrors

/-! ## In 64 bits -/

/-- The break is at `brk`, and `sbrk` refuses these bits. -/
def Refused (brk : ℕ) (os : ℕ → ℤ → Bool) (n : ℕ) : Prop :=
  let increment := (UInt64.ofNat n).toInt64.toInt
  ¬ (os brk increment = true ∧ 0 ≤ brk + increment ∧ brk + increment < 2 ^ 64 - 1)

instance (brk : ℕ) (os : ℕ → ℤ → Bool) (n : ℕ) : Decidable (Refused brk os n) := inferInstanceAs (Decidable (¬ _))

namespace Arena

/-- Where the row ends. -/
def ends (s : Arena) : ℕ := stop s.first s.blocks

/-- By how much it has to be longer for a block of `size` bytes, if no free block is large enough. -/
def wants (s : Arena) (size : ℕ) : Option ℕ :=
  match firstFit size s.first s.blocks with
  | some _ => none
  | none => some (match s.blocks.getLast? with
    | some b => if b.isFree then size - b.size else sizeofSlot + size
    | none => sizeofSlot + size)

/-- The sentinel is not refused, and neither is a longer row wanted by `2 ^ 63` bytes or more, unless that is refused. -/
structure Fits (s : Arena) (os : ℕ → ℤ → Bool) (size : UInt64) : Prop where
  /-- The sentinel. -/
  init : s.begun = false → ¬ Refused s.base os sizeofSlot
  /-- The row. -/
  increment : size ≠ 0 → ∀ n ∈ s.wants size.toNat, n < 2 ^ 63 ∨ Refused s.ends os n

/-- Whether the row becomes longer if it has to. -/
def grows (s : Arena) (os : ℕ → ℤ → Bool) (size : ℕ) : Bool :=
  match s.wants size with
  | none => false
  | some n => !decide (Refused s.ends os n)

/-- A call that can be made. -/
def Takes (s : Arena) : Machine.Event → Prop
  | .malloc size os => s.Fits os size
  | .realloc _ size os => size ≠ 0 → s.Fits os size
  | .free _ => True
  | .write _ _ _ => True

instance (s : Arena) (os : ℕ → ℤ → Bool) (size : UInt64) : Decidable (s.Fits os size) :=
  decidable_of_iff ((s.begun = false → ¬ Refused s.base os sizeofSlot) ∧
      (size ≠ 0 → ∀ n ∈ s.wants size.toNat, n < 2 ^ 63 ∨ Refused s.ends os n))
    ⟨fun h => ⟨h.1, h.2⟩, fun h => ⟨h.init, h.increment⟩⟩

instance (s : Arena) : (e : Machine.Event) → Decidable (s.Takes e)
  | .malloc size os => inferInstanceAs (Decidable (s.Fits os size))
  | .realloc _ size os => inferInstanceAs (Decidable (size ≠ 0 → s.Fits os size))
  | .free _ => inferInstanceAs (Decidable True)
  | .write _ _ _ => inferInstanceAs (Decidable True)

/-- The call, with what the system allows. -/
def plain (s : Arena) : Machine.Event → ClientEvent
  | .malloc size os => .malloc size.toNat (s.grows os size.toNat)
  | .realloc ptr size os => .realloc ptr size.toNat (s.grows os size.toNat)
  | .free ptr => .free ptr
  | .write ptr offset value => .write ptr offset value

/-- One call, if it can be made. -/
def step64 (s : Arena) (e : Machine.Event) : Option Arena := if s.Takes e then s.step (s.plain e) else none

theorem step64_eq_some {s s' : Arena} {e : Machine.Event} (hs : s.step64 e = some s') : s.step (s.plain e) = some s' := by
  unfold step64 at hs
  split_ifs at hs
  exact hs

/-- Giving back does not move the end. -/
theorem free_ends {s s' : Arena} {ptr : Option ℕ} (hf : s.free ptr = some s') : s'.ends = s.ends := by
  cases ptr with
  | none => exact Option.some.inj hf ▸ rfl
  | some p =>
    rcases release_cases p s.first s.blocks with ⟨hnone, -⟩ | ⟨pre, b, post, hbs, -, hsome⟩
    · rw [free, hnone] at hf
      cases hf
    · rw [free, hsome] at hf
      obtain rfl := Option.some.inj hf
      show stop s.first (coalesce _) = stop s.first s.blocks
      rw [stop_coalesce, hbs, stop_append, stop_append, stop_append, stop_append]
      rfl

end Arena

namespace Machine

/-- As `Allowed`, but anything may be passed to `mm_free`. -/
def Tolerated (c : Client) (e : Event) : Prop := c.Tolerated (e.plain c.heap)

instance (c : Client) (e : Event) : Decidable (Tolerated c e) := inferInstanceAs (Decidable (c.Tolerated _))

theorem refuses_iff {h : Heap} {os : ℕ → ℤ → Bool} {n : ℕ} : Refuses h os n ↔ Refused h.brk os n := by
  simp only [Refuses, sbrk, Refused]
  split_ifs with hacc
  · exact iff_of_false id (not_not.mpr hacc)
  · exact iff_of_true rfl hacc

/-- By how much the break is to move is seen from the row. -/
theorem increment_eq {h : Heap} {s : Arena} (ht : h.Tiles s.base s.blocks) (size : ℕ) : increment h size = s.wants size := by
  have hfind : h.findListElem size = some ((firstFit size s.first s.blocks).map fun p => p.1 - sizeofSlot) :=
    ht.findListElem_eq size
  rw [increment, hfind, Arena.wants]
  cases firstFit size s.first s.blocks with
  | some p => rfl
  | none =>
    obtain ⟨pre, b, hpre⟩ := (List.eq_nil_or_concat' (sentinel :: s.blocks)).resolve_left (by simp)
    obtain ⟨htail, hslot⟩ := ht.tail_slot hpre
    have hlast : s.blocks.getLast?.getD sentinel = b := by
      have hgetLast := congrArg List.getLast? hpre
      rw [List.getLast?_concat, List.getLast?_cons] at hgetLast
      exact Option.some.inj hgetLast
    simp only [Option.map_none, Option.bind_eq_bind, Option.bind_some, htail, hslot]
    cases hl : s.blocks.getLast? with
    | none =>
      rw [hl] at hlast
      obtain rfl : sentinel = b := hlast
      rfl
    | some c =>
      rw [hl] at hlast
      obtain rfl : c = b := hlast
      rfl

end Machine

namespace Mirrors

variable {c c' : Client} {s s' : Arena} {os : ℕ → ℤ → Bool} {e : Machine.Event}

theorem fits_iff (hm : Mirrors c s) (size : UInt64) : Machine.Fits c.heap os size ↔ s.Fits os size := by
  obtain ⟨h₀, e₀, ht, -⟩ := hm.ready.ensureInit
  have hbrk : h₀.brk = s.ends := ht.brk.symm
  have hinit : (c.heap.isInit = false → ¬ Machine.Refuses c.heap os sizeofSlot) ↔
      (s.begun = false → ¬ Refused s.base os sizeofSlot) := by
    rw [hm.begun, Machine.refuses_iff]
    refine imp_congr_right fun hbegun => ?_
    rcases hm.ready with ⟨-, -, hbase, -⟩ | ht'
    · rw [hbase]
    · exact absurd (ht'.isInit.symm.trans (hm.begun.trans hbegun)) (by decide)
  have hinc : (size ≠ 0 → ∀ h₀ ∈ c.heap.ensureInit, ∀ n ∈ Machine.increment h₀ size.toNat, n < 2 ^ 63 ∨ Machine.Refuses h₀ os n) ↔
      (size ≠ 0 → ∀ n ∈ s.wants size.toNat, n < 2 ^ 63 ∨ Refused s.ends os n) := by
    refine imp_congr_right fun _ => ?_
    simp only [e₀, Option.mem_def, Option.some.injEq, forall_eq', Machine.increment_eq ht, Machine.refuses_iff, hbrk]
  exact ⟨fun h => ⟨hinit.mp h.init, hinc.mp h.increment⟩, fun h => ⟨hinit.mpr h.init, hinc.mpr h.increment⟩⟩

theorem grows_eq (hm : Mirrors c s) (size : ℕ) : Machine.grows c.heap os size = s.grows os size := by
  obtain ⟨h₀, e₀, ht, -⟩ := hm.ready.ensureInit
  have hbrk : h₀.brk = s.ends := ht.brk.symm
  simp only [Machine.grows, e₀, Machine.increment_eq ht, Arena.grows]
  cases s.wants size with
  | none => rfl
  | some n => exact congrArg (!·) (decide_eq_decide.mpr (hbrk ▸ Machine.refuses_iff))

/-- The break is where the row ends. -/
theorem brk_eq (hm : Mirrors c s) (hbegun : s.begun = true) : c.heap.brk = s.ends := by
  rcases hm.ready with ⟨hinit, -⟩ | ht
  · exact absurd (hinit.symm.trans (hm.begun.trans hbegun)) (by decide)
  · exact ht.brk.symm

/-- Giving back does not move the break, whatever is given back. -/
theorem free_brk (hm : Mirrors c s) {ptr : Option ℕ} (hm' : Mirrors c' s') (hs : s.step (.free ptr) = some s') :
    c'.heap.brk = c.heap.brk := by
  obtain ⟨s₁, hf, rfl⟩ := Option.map_eq_some_iff.mp hs
  obtain ⟨hbase, hbegun, -⟩ := Arena.free_frame hf
  have hends : s₁.ends = s.ends := Arena.free_ends hf
  have hbegun' : (s₁.without ptr).begun = s.begun := hbegun
  cases hb : s.begun with
  | true =>
    rw [hm.brk_eq hb, hm'.brk_eq (hbegun'.trans hb)]
    exact hends
  | false =>
    have hstill : ∀ {c : Client} {s : Arena}, Mirrors c s → s.begun = false → c.heap.brk = s.base := by
      intro c s hm hb
      rcases hm.ready with ⟨-, -, hbase, -⟩ | ht
      · exact hbase
      · exact absurd (ht.isInit.symm.trans (hm.begun.trans hb)) (by decide)
    rw [hstill hm hb, hstill hm' (hbegun'.trans hb)]
    exact hbase

/-- **Heap and arena go together in 64 bits**: they make the same calls, and the break stays in memory. -/
theorem step64 (hm : Mirrors c s) (hbrk : c.heap.brk < 2 ^ 64 - 1) (ht : Machine.Tolerated c e) :
    Option.Rel (fun c s => Mirrors c s ∧ c.heap.brk < 2 ^ 64 - 1) (Machine.step c e) (s.step64 e) := by
  have htakes : e.Fits c.heap ↔ s.Takes e := by
    cases e with
    | malloc size os => exact hm.fits_iff size
    | realloc ptr size os => exact imp_congr_right fun _ => hm.fits_iff size
    | free ptr => exact Iff.rfl
    | write ptr offset value => exact Iff.rfl
  have hplain : e.plain c.heap = s.plain e := by
    cases e with
    | malloc size os => simp only [Machine.Event.plain, Arena.plain, hm.grows_eq]
    | realloc ptr size os => simp only [Machine.Event.plain, Arena.plain, hm.grows_eq]
    | free ptr => rfl
    | write ptr offset value => rfl
  have hstep := fun c' => @Machine.step_eq_some_iff _ _ c c' e hm.toInv hbrk
  rw [Arena.step64]
  by_cases hfits : e.Fits c.heap
  swap
  · rw [if_neg (mt htakes.mpr hfits), Option.eq_none_iff_forall_ne_some.mpr fun c' hc => hfits ((hstep c').mp hc).1]
    exact .none
  have heq : Machine.step c e = c.step (e.plain c.heap) := Option.ext fun c' => (hstep c').trans (and_iff_right hfits)
  have hrel := hm.step ht
  rw [if_pos (htakes.mp hfits), heq, ← hplain]
  obtain ⟨r, hr⟩ : ∃ r, c.step (e.plain c.heap) = r := ⟨_, rfl⟩
  obtain ⟨r', hr'⟩ : ∃ r', s.step (e.plain c.heap) = r' := ⟨_, rfl⟩
  rw [hr, hr'] at hrel ⊢
  cases hrel with
  | none => exact .none
  | @some c' s' hm' =>
    refine .some ⟨hm', ?_⟩
    rw [hr] at heq
    cases e with
    | malloc size os =>
      obtain ⟨⟨r, h'⟩, em, he⟩ := Option.bind_eq_some_iff.mp heq
      rw [← Option.some.inj he]
      exact (Machine.mmMalloc_brk hm.ready hbrk hfits em).2
    | realloc ptr size os =>
      obtain ⟨⟨r, h'⟩, em, he⟩ := Option.bind_eq_some_iff.mp heq
      rw [← Option.some.inj he]
      exact Machine.mmRealloc_brk hm.toInv hbrk ht hfits em
    | free ptr => rw [hm.free_brk hm' hr']; exact hbrk
    | write ptr offset value =>
      rw [← Option.some.inj hr]
      exact hbrk

/-- The same, and the sentinel stays. -/
theorem step64_at {brk : ℕ} (hm : (Mirrors c s ∧ c.heap.brk < 2 ^ 64 - 1) ∧ s.base = brk) (ht : Machine.Tolerated c e) :
    Option.Rel (fun c s => (Mirrors c s ∧ c.heap.brk < 2 ^ 64 - 1) ∧ s.base = brk) (Machine.step c e) (s.step64 e) :=
  Steps.rel_and (Q := fun s => s.base = brk) (hm.1.1.step64 hm.1.2 ht) fun _ _ _ hs _ =>
    (Arena.step_base (Arena.step64_eq_some hs)).trans hm.2

end Mirrors

/-- **The allocator is first fit**, with neighbours that are free joined. After any calls, with any `size_t` and whatever the
system allows, anything being passed to `mm_free`, and any writes inside live blocks, everything is where the arena has it,
whatever memory held. The process has died if and only if the arena could not make a call: it had nothing to give back, or the
sentinel was refused, or a longer row was wanted by `2 ^ 63` bytes or more and not refused. The live blocks are the client's own
all the same. -/
theorem first_fit (mem : ℕ → Cell) (brk : ℕ) (hbrk : brk < 2 ^ 64 - 1) (events : List Machine.Event)
    (h : Steps.Along Machine.step Machine.Tolerated (.start mem brk) events) :
    (Steps.run Machine.step (.start mem brk) events).map Client.placement =
        (Steps.run Arena.step64 (.start brk) events).map Arena.placement ∧
      ∀ c ∈ Steps.run Machine.step (.start mem brk) events, c.Isolated brk := by
  have hrel := h.simulates (R := fun c s => (Mirrors c s ∧ c.heap.brk < 2 ^ 64 - 1) ∧ s.base = brk)
    ⟨⟨Mirrors.start mem brk, hbrk⟩, rfl⟩ Mirrors.step64_at
  obtain ⟨r, hr⟩ : ∃ r, Steps.run Machine.step (.start mem brk) events = r := ⟨_, rfl⟩
  obtain ⟨r', hr'⟩ : ∃ r', Steps.run Arena.step64 (.start brk) events = r' := ⟨_, rfl⟩
  rw [hr, hr'] at hrel
  rw [hr, hr']
  cases hrel with
  | none => exact ⟨rfl, fun c hc => by cases hc⟩
  | some hm =>
    refine ⟨congrArg some hm.1.1.placement, fun c hc => ?_⟩
    obtain rfl := Option.some.inj hc
    exact hm.2 ▸ hm.1.1.toInv.isolated

/-- Two blocks, the first of which is given back twice, and then another one in its place, for which the heap could not grow. -/
def freedTwice : List Machine.Event :=
  [.malloc 100 fun _ _ => true, .malloc 50 fun _ _ => true, .free (some 1064), .free (some 1064), .malloc 40 fun _ _ => false,
    .write 1064 39 7]

/-- `first_fit` for these. -/
theorem first_fit_freedTwice :
    (Steps.run Machine.step (.start (fun _ => .byte 1) 1000) freedTwice).map Client.placement =
        (Steps.run Arena.step64 (.start 1000) freedTwice).map Arena.placement ∧
      ∀ c ∈ Steps.run Machine.step (.start (fun _ => .byte 1) 1000) freedTwice, c.Isolated 1000 :=
  first_fit (fun _ => .byte 1) 1000 (by decide) freedTwice (by decide +kernel)

end Cs162Hw.Alloc
