import Cs162Hw.Alloc.Functions

/-!
# The calls

What `mm_malloc`, `mm_free` and `mm_realloc` do to the used blocks of a heap that is a tiling
without two free neighbours (`Tiles`).

* **`mallocSlot_outcome`** — another used block, cleared, and where it is (`Outcome`), or a failure that changes
  nothing.
* **`mmFree_spec`** — one used block less.
* **`mmRealloc_spec`** — the new block for the old one, with the bytes that fit.

Each leaves the bytes of every other used block alone (`Keeps`). A client needs to know no more
of the heap than `used`: where the used blocks are, and that no two overlap.
-/

namespace Cs162Hw.Alloc

open Library.Tiling

/-! ## Blocks in use -/

/-- The used blocks among these: where their bytes begin, and how many they are. -/
def used (a : ℕ) (bs : List Block) : List (ℕ × ℕ) :=
  ((place a bs).filter fun p => !p.2.isFree).map fun p => (p.1 + sizeofSlot, p.2.size)

section

variable {a : ℕ} {b : Block} {bs cs : List Block}

@[simp] theorem used_nil : used a [] = [] := rfl

@[simp] theorem used_append : used a (bs ++ cs) = used a bs ++ used (stop a bs) cs := by simp [used]

theorem used_cons_of_used (h : b.isFree = false) :
    used a (b :: bs) = (a + sizeofSlot, b.size) :: used (a + width b) bs := by simp [used, h]

theorem used_cons_of_free (h : b.isFree = true) : used a (b :: bs) = used (a + width b) bs := by simp [used, h]

theorem used_of_free (h : ∀ b ∈ bs, b.isFree = true) : used a bs = [] := by
  induction bs generalizing a with
  | nil => rfl
  | cons b bs ih => rw [used_cons_of_free (h b List.mem_cons_self), ih fun c hc => h c (List.mem_cons_of_mem _ hc)]

/-- A used block is one of the blocks. -/
theorem mem_used {p : ℕ × ℕ} :
    p ∈ used a bs ↔ ∃ pre b post, bs = pre ++ b :: post ∧ b.isFree = false ∧ p = (stop a pre + sizeofSlot, b.size) := by
  simp only [used, List.mem_map, List.mem_filter, Bool.not_eq_true', Prod.exists, mem_place]
  constructor
  · rintro ⟨x, b, ⟨⟨pre, post, rfl, rfl⟩, hb⟩, rfl⟩
    exact ⟨pre, b, post, rfl, hb, rfl⟩
  · rintro ⟨pre, b, post, rfl, hb, rfl⟩
    exact ⟨_, b, ⟨⟨pre, post, rfl, rfl⟩, hb⟩, rfl⟩

/-- It lies between the ends, behind its header. -/
theorem used_bounds {p : ℕ × ℕ} (h : p ∈ used a bs) : a + sizeofSlot ≤ p.1 ∧ p.1 + p.2 ≤ stop a bs := by
  obtain ⟨pre, b, post, rfl, -, rfl⟩ := mem_used.mp h
  have hle := @le_stop Block _ a pre
  have hge := @le_stop Block _ (stop a pre + width b) post
  rw [stop_append, stop_cons]
  rw [width_eq] at hge ⊢
  exact ⟨by omega, by simp only; omega⟩

/-- Two used blocks are apart, with a header between them. -/
theorem used_pairwise : (used a bs).Pairwise fun p q => p.1 + p.2 + sizeofSlot ≤ q.1 := by
  refine List.pairwise_map.mpr ((place_pairwise.sublist List.filter_sublist).imp fun {p q} h => ?_)
  rw [width_eq] at h
  simp only
  omega

end

/-! ## The heap -/

/-- The slot of `init_malloc`. -/
def sentinel : Block := ⟨false, 0⟩

/-- No two neighbours are both free. -/
def Coalesced (bs : List Block) : Prop := bs.IsChain fun b c => ¬ (b.isFree = true ∧ c.isFree = true)

/-- A block may be put between others if it is used or they are. -/
theorem Coalesced.insert {pre post : List Block} {b : Block} (hpre : Coalesced pre) (hpost : Coalesced post)
    (hb : b.isFree = true → (∀ g ∈ pre.getLast?, g.isFree = false) ∧ ∀ g ∈ post.head?, g.isFree = false) :
    Coalesced (pre ++ [b] ++ post) := by
  rw [List.append_assoc]
  refine List.isChain_append.mpr ⟨hpre, List.isChain_cons.mpr ⟨?_, hpost⟩, ?_⟩
  · rintro y hy ⟨hfree, hyfree⟩
    rw [(hb hfree).2 y hy] at hyfree
    cases hyfree
  · rintro x hx y hy ⟨hxfree, hfree⟩
    obtain rfl : b = y := by simpa using hy
    rw [(hb hfree).1 x hx] at hxfree
    cases hxfree

theorem Coalesced.head_used {b : Block} {post : List Block} (h : Coalesced (b :: post)) (hb : b.isFree = true) :
    ∀ g ∈ post.head?, g.isFree = false := by
  intro g hg
  have := (List.isChain_cons.mp h).1 g hg
  simpa [hb] using this

namespace Heap

/-- A heap that consists of the sentinel and these blocks, no two free neighbours among them. -/
structure Tiles (h : Heap) (base : ℕ) (bs : List Block) : Prop extends Rep h base (sentinel :: bs) where
  /-- Neighbours. -/
  coalesced : Coalesced (sentinel :: bs)

/-- The used blocks of a heap of these blocks. -/
def inUse (base : ℕ) (bs : List Block) : List (ℕ × ℕ) := used (base + sizeofSlot) bs

/-- Ranges of bytes that stay as they are. -/
def Keeps (h h' : Heap) (l : List (ℕ × ℕ)) : Prop := ∀ p ∈ l, ∀ i < p.2, h'.mem (p.1 + i) = h.mem (p.1 + i)

variable {h h' h'' : Heap} {base a : ℕ} {pre post bs : List Block} {b : Block} {l m : List (ℕ × ℕ)}

/-- The sentinel counts as one of the blocks before a block. -/
theorem tiles_iff :
    h.Tiles base (pre ++ [b] ++ post) ↔
      h.Rep base ((sentinel :: pre) ++ [b] ++ post) ∧ Coalesced ((sentinel :: pre) ++ [b] ++ post) :=
  ⟨fun ht => ⟨ht.toRep, ht.coalesced⟩, fun ⟨hr, hc⟩ => ⟨hr, hc⟩⟩

/-- The used blocks around a block. -/
theorem inUse_around :
    inUse base (pre ++ [b] ++ post) = inUse base pre ++ used (stop base (sentinel :: pre)) [b] ++
      used (stop base (sentinel :: pre) + width b) post := by
  simp only [inUse, used_append, stop_append, stop_cons, stop_nil, width_eq, sentinel, Nat.add_zero]

theorem Keeps.trans (h₁ : Keeps h h' l) (h₂ : Keeps h' h'' l) : Keeps h h'' l :=
  fun p hp i hi => (h₂ p hp i hi).trans (h₁ p hp i hi)

theorem Keeps.mono (hk : Keeps h h' l) (hm : m ⊆ l) : Keeps h h' m := fun p hp => hk p (hm hp)

/-- A change between two cuts leaves the used blocks on either side alone. -/
theorem keeps_of_outside {x y : ℕ} (hmem : ∀ z, z < x ∨ y + sizeofSlot ≤ z → h'.mem z = h.mem z)
    (hx : stop base (sentinel :: pre) = x) :
    Keeps h h' (inUse base pre ++ used y post) := by
  intro p hp i hi
  rcases List.mem_append.mp hp with hp | hp
  · have hp2 := (used_bounds hp).2
    have hx' : stop (base + sizeofSlot) pre = x := hx
    exact hmem _ (.inl (by omega))
  · have := (used_bounds hp).1
    exact hmem _ (.inr (by omega))

/-- `isFree` of one block. -/
theorem Rep.setFree (hr : h.Rep base (pre ++ [b] ++ post)) (free : Bool) :
    ∃ h', h.update (stop base pre) (fun s => { s with isFree := free }) = some h' ∧
      h'.Rep base (pre ++ [⟨free, b.size⟩] ++ post) ∧ Alters h h' (stop base pre) (stop base pre + sizeofSlot) := by
  obtain ⟨hb, hpost, ht, -⟩ := hr.around
  obtain ⟨h', e, b', a'⟩ := update_spec (fun s => { s with isFree := free }) hb
  have hwidth : width (⟨free, b.size⟩ : Block) = width b := rfl
  have hlast : last none base (pre ++ [⟨free, b.size⟩] ++ post) = last none base (pre ++ [b] ++ post) := by
    simp only [last_append, last_cons, last_nil, stop_append, stop_cons, stop_nil, hwidth]
  refine ⟨h', e, hr.replace (by simp) (by simp) rfl ?_ ?_ (hpost.behind a' (by rw [width_eq]; omega)), a'⟩
  · rw [hlast, ← hr.tail, stop_cons, stop_nil, width_eq]
    exact a'.mono le_rfl (by omega)
  · rw [headers_cons, headers_nil, holds_cons]
    exact ⟨b', holds_nil⟩

/-! ## `mm_malloc` -/

/-- What a call that succeeds leaves: one more used block, cleared, of `size` bytes at least. -/
def Grants (h h' : Heap) (base : ℕ) (bs : List Block) (size p : ℕ) : Prop :=
  ∃ n bs', size ≤ n ∧ h'.Tiles base bs' ∧ (inUse base bs').Perm ((p, n) :: inUse base bs) ∧
    Keeps h h' (inUse base bs) ∧ ∀ i < n, h'.mem (p + i) = .byte 0

/-- The same of `n` bytes, and where the break is then. -/
def GrantsAt (h h' : Heap) (base : ℕ) (bs : List Block) (p n brk : ℕ) : Prop :=
  h'.brk = brk ∧ ∃ bs', h'.Tiles base bs' ∧ (inUse base bs').Perm ((p, n) :: inUse base bs) ∧
    Keeps h h' (inUse base bs) ∧ ∀ i < n, h'.mem (p + i) = .byte 0

theorem GrantsAt.grants {p n brk size : ℕ} (hg : GrantsAt h h' base bs p n brk) (hn : size ≤ n) :
    Grants h h' base bs size p := by
  obtain ⟨-, bs', hg⟩ := hg
  exact ⟨n, bs', hn, hg⟩

/-- How many bytes of a free block are granted. -/
def taken (b : Block) (size : ℕ) : ℕ := if b.size ≥ size + minNewSize then size else b.size

theorem le_taken {size : ℕ} (hsize : size ≤ b.size) : size ≤ taken b size := by
  rw [taken]
  split_ifs
  · exact le_rfl
  · exact hsize

/-- The blocks that `split_slot` makes. -/
theorem split_eq (b : Block) (size : ℕ) :
    ∃ extra, split b size = ⟨b.isFree, taken b size⟩ :: extra ∧ (extra = [] ∨ ∃ k, extra = [⟨true, k⟩]) ∧
      ∀ x, stop (x + (sizeofSlot + taken b size)) extra = x + width b := by
  by_cases hbig : b.size ≥ size + minNewSize
  · rw [split, taken, if_pos hbig, if_pos hbig]
    refine ⟨_, rfl, .inr ⟨_, rfl⟩, fun x => ?_⟩
    simp only [minNewSize] at hbig
    show x + (sizeofSlot + size) + (sizeofSlot + (b.size - size - sizeofSlot)) = x + (sizeofSlot + b.size)
    omega
  · rw [split, taken, if_neg hbig, if_neg hbig]
    exact ⟨[], rfl, .inl rfl, fun x => rfl⟩

/-- `mm_malloc` in a free block. -/
theorem mallocSlot_free {size : ℕ} (ht : h.Tiles base (pre ++ [b] ++ post)) (hfree : b.isFree = true) :
    ∃ h₁ h₂, h.splitSlot (stop base (sentinel :: pre)) size = some h₁ ∧
      h₁.update (stop base (sentinel :: pre)) (fun s => { s with isFree := false }) = some h₂ ∧
      GrantsAt h h₂ base (pre ++ [b] ++ post) (stop base (sentinel :: pre) + sizeofSlot) (taken b size) h.brk := by
  obtain ⟨hr, hcoal⟩ := tiles_iff.mp ht
  obtain ⟨h₁, e₁, r₁, keep₁, zero₁⟩ := splitSlot_spec hr size
  obtain ⟨extra, hsplit, hextra, hstop⟩ := split_eq b size
  obtain ⟨n, hn⟩ : ∃ n, taken b size = n := ⟨_, rfl⟩
  rw [hn] at hsplit hstop ⊢
  rw [hsplit, show ∀ c : Block, (sentinel :: pre) ++ (c :: extra) ++ post = (sentinel :: pre) ++ [c] ++ (extra ++ post) from
    fun c => by simp] at r₁
  obtain ⟨h₂, e₂, r₂, a₂⟩ := r₁.setFree false
  have hpost : Coalesced (b :: post) := by
    rw [List.append_assoc] at hcoal
    exact (List.isChain_append.mp hcoal).2.1
  have hrest : Coalesced (extra ++ post) := by
    rcases hextra with rfl | ⟨k, rfl⟩
    · exact hpost.tail
    · exact List.isChain_cons.mpr ⟨fun g hg hboth => by simp [hpost.head_used hfree g hg] at hboth, hpost.tail⟩
  have hfreeExtra : ∀ c ∈ extra, c.isFree = true := by
    rcases hextra with rfl | ⟨k, rfl⟩
    · simp
    · simp
  have hpre : Coalesced (sentinel :: pre) := by
    rw [List.append_assoc] at hcoal
    exact (List.isChain_append.mp hcoal).1
  obtain ⟨x, hx⟩ : ∃ x, stop base (sentinel :: pre) = x := ⟨_, rfl⟩
  have hold : inUse base (pre ++ [b] ++ post) = inUse base pre ++ used (x + width b) post := by
    rw [inUse_around, hx, used_cons_of_free hfree, used_nil, List.append_nil]
  have hnew : inUse base (pre ++ [⟨false, n⟩] ++ (extra ++ post)) =
      inUse base pre ++ (x + sizeofSlot, n) :: used (x + width b) post := by
    rw [inUse_around, hx, used_cons_of_used rfl, used_nil, used_append, used_of_free hfreeExtra, width_eq, hstop,
      List.append_assoc]
    rfl
  rw [hx] at keep₁ zero₁ a₂ e₁ e₂ ⊢
  have hb0 : width b = sizeofSlot + b.size := rfl
  have hbrk : h₂.brk = h.brk := by
    rw [← r₂.brk, ← hr.brk]
    simp only [stop_append, stop_cons, stop_nil, width_eq, sentinel, hstop]
  refine ⟨h₁, h₂, e₁, e₂, hbrk, pre ++ [⟨false, n⟩] ++ (extra ++ post), tiles_iff.mpr ⟨r₂, ?_⟩, ?_, ?_, fun i hi => ?_⟩
  · exact hpre.insert hrest fun hused => absurd hused (by simp)
  · rw [hnew, hold]
    exact List.perm_middle
  · rw [hold]
    refine keeps_of_outside (fun z hz => ?_) hx
    exact (a₂.mem z (by omega)).trans (keep₁ z hz)
  · exact (a₂.mem _ (by omega)).trans (zero₁ _ (by rw [hsplit, List.head?_cons]; rfl) i hi)

/-- The heap after `sbrk(n)`. -/
def extend (h : Heap) (n : ℕ) : Heap := { h with brk := h.brk + n }

theorem sbrk_true (h : Heap) (n : ℕ) : h.sbrk true n = (some h.brk, h.extend n) := rfl

theorem sbrk_false (h : Heap) (n : ℕ) : h.sbrk false n = (none, h) := rfl

theorem Holds.extend {l : List (ℕ × Slot)} (hs : h.Holds l) (n : ℕ) : (h.extend n).Holds l :=
  fun p hp => slot_congr (hs p hp) (Nat.le_add_right ..) fun _ _ _ => rfl

/-- `mm_malloc` in a last slot that is free and too small. -/
theorem mallocSlot_extend {size : ℕ} (ht : h.Tiles base (pre ++ [b] ++ [])) (hfree : b.isFree = true)
    (hsize : b.size < size) :
    ∃ h₁ h₂, (h.extend (size - b.size)).memset (stop base (sentinel :: pre) + sizeofSlot) size = some h₁ ∧
      h₁.update (stop base (sentinel :: pre)) (fun s => { s with size := size, isFree := false }) = some h₂ ∧
      GrantsAt h h₂ base (pre ++ [b] ++ []) (stop base (sentinel :: pre) + sizeofSlot) size
        (h.brk + (size - b.size)) := by
  obtain ⟨hr, hcoal⟩ := tiles_iff.mp ht
  obtain ⟨hb, -, htail, -⟩ := hr.around
  have hslots := hr.slots
  have hbrk := hr.brk
  obtain ⟨x, hx⟩ : ∃ x, stop base (sentinel :: pre) = x := ⟨_, rfl⟩
  simp only [headers_append, List.append_nil, holds_append, stop_append, @stop_cons _ _ _ b, stop_nil, hx,
    width_eq b] at hb htail hslots hbrk
  rw [hx]
  obtain ⟨h₁, e₁, a₁, zero₁⟩ := @memset_spec (h.extend (size - b.size)) (x + sizeofSlot) size
    (by show _ ≤ h.brk + _; omega)
  have hb₀ : (h.extend (size - b.size)).slot x = _ := slot_congr hb (Nat.le_add_right ..) fun _ _ _ => rfl
  obtain ⟨h₂, e₂, b₂, a₂⟩ := update_spec (fun s => { s with size := size, isFree := false })
    (a₁.slot hb₀ (.inl le_rfl))
  have hpre₂ := ((hslots.1.extend (size - b.size)).before a₁ (by rw [hx]; omega)).before a₂ hx.le
  have hpre : Coalesced (sentinel :: pre) := by
    rw [List.append_assoc] at hcoal
    exact (List.isChain_append.mp hcoal).1
  have hold : inUse base (pre ++ [b] ++ []) = inUse base pre := by
    rw [inUse_around, used_cons_of_free hfree, used_nil, List.append_nil, List.append_nil]
  have hnew : inUse base (pre ++ [⟨false, size⟩] ++ []) = inUse base pre ++ [(x + sizeofSlot, size)] := by
    rw [inUse_around, hx, used_cons_of_used rfl, used_nil, List.append_nil]
  have hrep : h₂.Rep base ((sentinel :: pre) ++ [⟨false, size⟩] ++ []) := by
    refine ⟨a₂.isInit.trans (a₁.isInit.trans hr.isInit), a₂.head.trans (a₁.head.trans hr.head), ?_, ?_, ?_⟩
    · rw [a₂.tail, a₁.tail]
      simp only [List.append_nil, last_append, last_cons, last_nil, hx] at htail ⊢
      exact htail
    · rw [a₂.brk, a₁.brk, List.append_nil, stop_append, hx]
      show x + (sizeofSlot + size) = h.brk + (size - b.size)
      omega
    · rw [List.append_nil, headers_append, holds_append, hx]
      exact ⟨hpre₂, holds_cons.mpr ⟨b₂, holds_nil⟩⟩
  refine ⟨h₁, h₂, e₁, e₂, a₂.brk.trans a₁.brk, pre ++ [⟨false, size⟩] ++ [], tiles_iff.mpr ⟨hrep, ?_⟩, ?_, ?_, fun i hi => ?_⟩
  · exact hpre.insert .nil fun hused => absurd hused (by simp)
  · rw [hold, hnew]
    exact List.perm_append_singleton ..
  · rw [hold]
    intro p hp i hi
    have hp₂ : p.1 + p.2 ≤ x := hx ▸ (used_bounds hp).2
    exact (a₂.mem _ (by omega)).trans (a₁.mem _ (by omega))
  · exact (a₂.mem _ (by omega)).trans (zero₁ _ (by omega) (by omega))

/-- `mm_malloc` in another slot, behind the last. -/
theorem mallocSlot_append {size : ℕ} (ht : h.Tiles base bs) (hpre : sentinel :: bs = pre ++ [b]) :
    ∃ h₁ h₂ h₃, (h.extend (sizeofSlot + size)).memset h.brk (sizeofSlot + size) = some h₁ ∧
      h₁.putSlot h.brk ⟨some (stop base pre), none, false, size⟩ = some h₂ ∧
      h₂.update (stop base pre) (fun s => { s with next := some h.brk }) = some h₃ ∧
      GrantsAt h (h₃.setTail (some h.brk)) base bs (h.brk + sizeofSlot) size (h.brk + (sizeofSlot + size)) := by
  have hr := ht.toRep
  have hcoal := ht.coalesced
  rw [hpre, ← List.append_nil (pre ++ [b])] at hr hcoal
  obtain ⟨hb, -, htail, -⟩ := hr.around
  have hslots := hr.slots
  have hbrk := hr.brk
  obtain ⟨x, hx⟩ : ∃ x, stop base pre = x := ⟨_, rfl⟩
  simp only [headers_append, List.append_nil, holds_append, stop_append, @stop_cons _ _ _ b, stop_nil, hx,
    width_eq b] at hb htail hslots hbrk
  rw [hx]
  obtain ⟨h₁, e₁, a₁, zero₁⟩ := @memset_spec (h.extend (sizeofSlot + size)) h.brk (sizeofSlot + size) le_rfl
  obtain ⟨h₂, e₂, n₂, a₂⟩ := @putSlot_spec h₁ h.brk ⟨some x, none, false, size⟩ (by rw [a₁.brk]; show _ ≤ h.brk + _; omega)
  have hb₀ : (h.extend (sizeofSlot + size)).slot x = _ := slot_congr hb (Nat.le_add_right ..) fun _ _ _ => rfl
  obtain ⟨h₃, e₃, b₃, a₃⟩ := update_spec (fun s => { s with next := some h.brk })
    (a₂.slot (a₁.slot hb₀ (.inl (by omega))) (.inl (by omega)))
  have n₃ := a₃.slot n₂ (.inr (by omega))
  have hpre₃ := (((hslots.1.extend (sizeofSlot + size)).before a₁ (by omega)).before a₂ (by omega)).before a₃ hx.le
  have hwhole : sentinel :: (bs ++ [⟨false, size⟩]) = pre ++ [b] ++ [⟨false, size⟩] := by rw [← List.cons_append, hpre]
  have hrep : (h₃.setTail (some h.brk)).Rep base (sentinel :: (bs ++ [⟨false, size⟩])) := by
    rw [hwhole]
    refine ⟨a₃.isInit.trans (a₂.isInit.trans (a₁.isInit.trans hr.isInit)),
      a₃.head.trans (a₂.head.trans (a₁.head.trans hr.head)), ?_, ?_, ?_⟩
    · simp only [last_append, last_cons, last_nil, stop_append, stop_cons, stop_nil, hx, width_eq b, hbrk]
    · rw [stop_append, stop_append, hx]
      show x + (sizeofSlot + b.size) + (sizeofSlot + size) = h₃.brk
      rw [hbrk, a₃.brk, a₂.brk, a₁.brk]
      rfl
    · simp only [headers_append, holds_append, headers_cons, headers_nil, holds_cons, last_append, last_cons, last_nil,
        stop_append, stop_cons, stop_nil, first_cons, first_nil, hx, width_eq b, hbrk]
      exact ⟨⟨hpre₃, b₃, holds_nil⟩, n₃, holds_nil⟩
  have hstop : stop (base + sizeofSlot) bs = h.brk := ht.brk
  have hnew : inUse base (bs ++ [⟨false, size⟩]) = inUse base bs ++ [(h.brk + sizeofSlot, size)] := by
    rw [inUse, used_append, used_cons_of_used rfl, used_nil, hstop]
    rfl
  have hsub : ∀ p ∈ inUse base bs, p ∈ used base pre ++ used x [b] := by
    intro p hp
    rw [← hx, ← used_append, ← hpre, used_cons_of_used rfl]
    exact List.mem_cons_of_mem _ hp
  refine ⟨h₁, h₂, h₃, e₁, e₂, e₃, a₃.brk.trans (a₂.brk.trans a₁.brk), bs ++ [⟨false, size⟩], ⟨hrep, ?_⟩, ?_, ?_,
    fun i hi => ?_⟩
  · rw [hwhole, ← List.append_nil (pre ++ [b] ++ _)]
    rw [List.append_nil] at hcoal
    exact hcoal.insert .nil fun hused => absurd hused (by simp)
  · rw [hnew]
    exact List.perm_append_singleton ..
  · intro p hp i hi
    have hend : p.1 + p.2 ≤ h.brk := hstop ▸ (used_bounds hp).2
    have hout : p.1 + p.2 ≤ x ∨ x + sizeofSlot ≤ p.1 := by
      rcases List.mem_append.mp (hsub p hp) with hp | hp
      · exact .inl (hx ▸ (used_bounds hp).2)
      · exact .inr (used_bounds hp).1
    exact (a₃.mem _ (by omega)).trans ((a₂.mem _ (by omega)).trans (a₁.mem _ (by omega)))
  · exact (a₃.mem _ (by omega)).trans ((a₂.mem _ (by omega)).trans (zero₁ _ (by omega) (by omega)))

/-- **Where `mm_malloc` finds room**: in a free block that is large enough, or at the end, in or behind the last block. -/
theorem room_cases (ht : h.Tiles base bs) (size : ℕ) :
    (∃ pre b post, bs = pre ++ [b] ++ post ∧ b.isFree = true ∧ size ≤ b.size ∧
        h.findListElem size = some (some (stop base (sentinel :: pre)))) ∨
      h.findListElem size = some none ∧ ∃ pre b, sentinel :: bs = pre ++ [b] ∧ h.tail = some (stop base pre) ∧
        h.slot (stop base pre) = some ⟨last none base pre, none, b.isFree, b.size⟩ ∧
        (b.isFree = true → b.size < size ∧ ∃ pre', pre = sentinel :: pre' ∧ bs = pre' ++ [b] ++ []) := by
  rcases findListElem_spec ht.toRep (by simp) size with ⟨efind, hsmall⟩ | ⟨pre, b, post, hbs, hfree, hsize, efind⟩
  · refine .inr ⟨efind, ?_⟩
    obtain ⟨pre, b, hpre⟩ := (List.eq_nil_or_concat' (sentinel :: bs)).resolve_left (by simp)
    have hr := ht.toRep
    rw [hpre, ← List.append_nil (pre ++ [b])] at hr
    obtain ⟨hb, -, htail, -⟩ := hr.around
    refine ⟨pre, b, hpre, htail, hb, fun hfree => ⟨hsmall b (hpre ▸ by simp) hfree, ?_⟩⟩
    cases pre with
    | nil =>
      obtain ⟨rfl, -⟩ := List.cons.inj hpre
      cases hfree
    | cons c pre =>
      obtain ⟨rfl, rfl⟩ := List.cons.inj hpre
      exact ⟨pre, rfl, (List.append_nil _).symm⟩
  · refine .inl ?_
    cases pre with
    | nil =>
      obtain ⟨rfl, -⟩ := List.cons.inj hbs
      cases hfree
    | cons c pre =>
      obtain ⟨rfl, rfl⟩ := List.cons.inj hbs
      exact ⟨pre, b, post, List.append_cons .., hfree, hsize, efind⟩

/-- What `mm_malloc` on a heap that is initialised comes to: its result, and the heap then. -/
inductive Outcome (h : Heap) (base : ℕ) (bs : List Block) (grow : Bool) (size : ℕ) : Option ℕ → Heap → Prop
  /-- `sbrk` fails. -/
  | refused (hfind : h.findListElem size = some none) (hgrow : grow = false) : Outcome h base bs grow size none h
  /-- A free block. -/
  | fit {pre post : List Block} {b : Block} {h' : Heap} (hbs : bs = pre ++ [b] ++ post) (hfree : b.isFree = true)
    (hsize : size ≤ b.size)
      (hfind : h.findListElem size = some (some (stop base (sentinel :: pre))))
      (hg : GrantsAt h h' base bs (stop base (sentinel :: pre) + sizeofSlot) (taken b size) h.brk) :
      Outcome h base bs grow size (some (stop base (sentinel :: pre) + sizeofSlot)) h'
  /-- The last block, made larger. -/
  | extend {pre : List Block} {b : Block} {h' : Heap} (hbs : bs = pre ++ [b] ++ []) (hfree : b.isFree = true)
    (hsize : b.size < size)
      (hfind : h.findListElem size = some none) (htail : h.tail = some (stop base (sentinel :: pre))) (hgrow : grow = true)
      (hg : GrantsAt h h' base bs (stop base (sentinel :: pre) + sizeofSlot) size (h.brk + (size - b.size))) :
      Outcome h base bs grow size (some (stop base (sentinel :: pre) + sizeofSlot)) h'
  /-- A block behind the last, which is used. -/
  | append {tail : ℕ} {s : Slot} {h' : Heap} (hfind : h.findListElem size = some none) (htail : h.tail = some tail)
    (hslot : h.slot tail = some s)
      (hused : s.isFree = false) (hgrow : grow = true)
      (hg : GrantsAt h h' base bs (h.brk + sizeofSlot) size (h.brk + (sizeofSlot + size))) :
      Outcome h base bs grow size (some (h.brk + sizeofSlot)) h'

/-- **`mm_malloc`** on a heap that is initialised. -/
theorem mallocSlot_outcome (ht : h.Tiles base bs) (grow : Bool) (size : ℕ) :
    ∃ r h', h.mallocSlot grow size = some (r, h') ∧ Outcome h base bs grow size r h' := by
  rcases room_cases ht size with ⟨pre, b, post, rfl, hfree, hsize, efind⟩ | ⟨efind, pre, b, hpre, htail, hb, hlast⟩
  · obtain ⟨h₁, h₂, e₁, e₂, hg⟩ := mallocSlot_free ht hfree
    refine ⟨_, h₂, ?_, .fit rfl hfree hsize efind hg⟩
    simp only [mallocSlot, efind, Option.bind_eq_bind, Option.bind_some, e₁, e₂]
  · cases grow with
    | false =>
      refine ⟨none, h, ?_, .refused efind rfl⟩
      simp only [mallocSlot, efind, htail, hb, sbrk_false, Option.bind_eq_bind, Option.bind_some, ite_self]
    | true =>
      cases hfree : b.isFree with
      | true =>
        obtain ⟨hsize, pre, rfl, rfl⟩ := hlast hfree
        obtain ⟨h₁, h₂, e₁, e₂, hg⟩ := mallocSlot_extend ht hfree hsize
        refine ⟨_, h₂, ?_, .extend rfl hfree hsize efind htail rfl hg⟩
        simp only [mallocSlot, efind, htail, hb, hfree, sbrk_true, Option.bind_eq_bind, Option.bind_some, if_true, e₁, e₂]
      | false =>
        obtain ⟨h₁, h₂, h₃, e₁, e₂, e₃, hg⟩ := mallocSlot_append ht hpre
        refine ⟨_, _, ?_, .append efind htail hb hfree rfl hg⟩
        simp only [mallocSlot, efind, htail, hb, hfree, sbrk_true, Option.bind_eq_bind, Option.bind_some,
          Bool.false_eq_true, if_false, e₁, e₂, e₃]

/-- It is another used block, or nothing at all. -/
theorem mallocSlot_spec (ht : h.Tiles base bs) (grow : Bool) (size : ℕ) :
    ∃ r h', h.mallocSlot grow size = some (r, h') ∧
      ((grow = false ∧ r = none ∧ h' = h) ∨ ∃ p, r = some p ∧ Grants h h' base bs size p) := by
  obtain ⟨r, h', e, ho⟩ := mallocSlot_outcome ht grow size
  refine ⟨r, h', e, ?_⟩
  cases ho with
  | refused _ hgrow => exact .inl ⟨hgrow, rfl, rfl⟩
  | fit _ _ hsize _ hg => exact .inr ⟨_, rfl, hg.grants (le_taken hsize)⟩
  | extend _ _ _ _ _ _ hg => exact .inr ⟨_, rfl, hg.grants le_rfl⟩
  | append _ _ _ _ _ hg => exact .inr ⟨_, rfl, hg.grants le_rfl⟩

/-- A heap before its first call, or one that is initialised. -/
def Ready (h : Heap) (base : ℕ) (bs : List Block) : Prop :=
  (h.isInit = false ∧ h.head = none ∧ h.brk = base ∧ bs = []) ∨ h.Tiles base bs

theorem initMalloc_spec (h : Heap) : ∃ h', h.initMalloc = some h' ∧ h'.Tiles h.brk [] := by
  obtain ⟨h', e, s, a⟩ := @putSlot_spec
    { h with brk := h.brk + sizeofSlot, isInit := true, head := some h.brk, tail := some h.brk } h.brk
    ⟨none, none, false, 0⟩ le_rfl
  refine ⟨h', e, ⟨a.isInit, a.head, a.tail, ?_, ?_⟩, .singleton _⟩
  · rw [a.brk]
    rfl
  · exact holds_cons.mpr ⟨s, holds_nil⟩

/-- What `mm_malloc` does first. -/
theorem Ready.ensureInit (hr : h.Ready base bs) :
    ∃ h', h.ensureInit = some h' ∧ h'.Tiles base bs ∧ Keeps h h' (inUse base bs) := by
  rcases hr with ⟨hinit, -, rfl, rfl⟩ | ht
  · obtain ⟨h', e, ht⟩ := h.initMalloc_spec
    exact ⟨h', by rw [Heap.ensureInit, hinit]; exact e, ht, fun p hp => absurd hp List.not_mem_nil⟩
  · exact ⟨h, by rw [Heap.ensureInit, ht.isInit]; rfl, ht, fun p hp i hi => rfl⟩

/-- **`mm_malloc`.** -/
theorem mmMalloc_spec (hr : h.Ready base bs) (grow : Bool) (size : ℕ) :
    ∃ h₀ r h', h.ensureInit = some h₀ ∧ h₀.Tiles base bs ∧ Keeps h h₀ (inUse base bs) ∧
      h.mmMalloc grow size = some (r, h') ∧
      ((r = none ∧ h' = h₀ ∧ (size = 0 ∨ grow = false)) ∨ ∃ p, r = some p ∧ size ≠ 0 ∧ Grants h h' base bs size p) := by
  obtain ⟨h₀, e₀, ht, hk⟩ := hr.ensureInit
  by_cases hsize : size = 0
  · refine ⟨h₀, none, h₀, e₀, ht, hk, ?_, .inl ⟨rfl, rfl, .inl hsize⟩⟩
    simp only [mmMalloc, e₀, Option.bind_eq_bind, Option.bind_some, if_pos hsize]
  · obtain ⟨r, h', e, hcase⟩ := mallocSlot_spec ht grow size
    refine ⟨h₀, r, h', e₀, ht, hk, ?_, ?_⟩
    · simp only [mmMalloc, e₀, Option.bind_eq_bind, Option.bind_some, if_neg hsize, e]
    · rcases hcase with ⟨hgrow, rfl, rfl⟩ | ⟨p, rfl, n, bs', hn, ht', hperm, hk', hzero⟩
      · exact .inl ⟨rfl, rfl, .inr hgrow⟩
      · exact .inr ⟨p, rfl, hsize, n, bs', hn, ht', hperm, hk.trans hk', hzero⟩

/-! ## `mm_free` -/

/-- A used block of a heap. -/
theorem mem_inUse {p : ℕ × ℕ} :
    p ∈ inUse base bs ↔ ∃ pre b post, bs = pre ++ [b] ++ post ∧ b.isFree = false ∧
      p = (stop base (sentinel :: pre) + sizeofSlot, b.size) := by
  rw [inUse, mem_used]
  simp only [List.append_assoc, List.singleton_append]
  rfl

/-- The slot of a block in use is found. -/
theorem Tiles.findListElemDataLocation (ht : h.Tiles base bs) {p n : ℕ} (hp : (p, n) ∈ inUse base bs) :
    ∃ pre b post, bs = pre ++ [b] ++ post ∧ b.isFree = false ∧ p = stop base (sentinel :: pre) + sizeofSlot ∧ n = b.size ∧
      h.findListElemDataLocation p = some (some (stop base (sentinel :: pre))) := by
  obtain ⟨pre, b, post, rfl, hused, hpn⟩ := mem_inUse.mp hp
  obtain ⟨rfl, rfl⟩ := Prod.mk.inj hpn
  have hr : h.Rep base ((sentinel :: pre) ++ b :: post) := by simpa using (tiles_iff.mp ht).1
  exact ⟨pre, b, post, rfl, hused, rfl, rfl, findListElemDataLocation_spec hr⟩

/-- `mm_free` of any block: the used blocks are those there would be if it were only marked. -/
theorem mmFree_merges (ht : h.Tiles base (pre ++ [b] ++ post)) :
    ∃ h' bs', h.mmFree (some (stop base (sentinel :: pre) + sizeofSlot)) = some h' ∧ h'.Tiles base bs' ∧
      inUse base bs' = inUse base (pre ++ [⟨true, b.size⟩] ++ post) ∧ Keeps h h' (inUse base bs') ∧ h'.brk = h.brk := by
  obtain ⟨hr, hcoal⟩ := tiles_iff.mp ht
  have hfind : h.findListElemDataLocation (stop base (sentinel :: pre) + sizeofSlot) = some (some (stop base (sentinel :: pre))) :=
    findListElemDataLocation_spec (by simpa using hr)
  obtain ⟨hb, -, -, hbrk⟩ := hr.around
  obtain ⟨h₁, e₁, a₁, -⟩ := @memset_spec h (stop base (sentinel :: pre) + sizeofSlot) b.size
    (by rw [width_eq] at hbrk; omega)
  have r₁ := hr.data a₁ le_rfl (by rw [width_eq]; omega)
  obtain ⟨h₂, e₂, r₂, a₂⟩ := r₁.setFree true
  obtain ⟨h₃, gs, rest, n₃, rfl, hgs, hrest, e₃, r₃, hstop₃, mem₃⟩ := mergeFollowing_spec r₂
  obtain ⟨h₄, pre', fs, n₄, rfl, hfs, hlast, e₄, r₄, hstop₄, mem₄⟩ := mergeBefore_spec r₃ rfl
  obtain ⟨x, hx⟩ : ∃ x, stop base (sentinel :: (pre' ++ fs)) = x := ⟨_, rfl⟩
  obtain ⟨t, ht'⟩ : ∃ t, stop base (sentinel :: pre') = t := ⟨_, rfl⟩
  obtain ⟨z, hz⟩ : ∃ z, stop (x + width b) gs = z := ⟨_, rfl⟩
  have htx : t ≤ x := by
    rw [← hx, ← List.cons_append, stop_append, ht']
    exact le_stop
  have hxz : x + width b ≤ z := hz ▸ le_stop
  have hstop : stop base (sentinel :: (pre' ++ fs) ++ [⟨true, b.size⟩] ++ gs) = z := by
    rw [stop_append, stop_append, hx]
    exact hz
  have hzwidth : stop (x + width (⟨true, b.size⟩ : Block)) gs = z := hz
  rw [hstop] at hstop₃ mem₃
  simp only [hx, ht', width_eq] at hstop₃ hstop₄ mem₃ mem₄ hxz hb a₁ a₂ e₁ e₂ e₃ e₄ hfind ⊢
  have hold : inUse base (pre' ++ fs ++ [⟨true, b.size⟩] ++ (gs ++ rest)) = inUse base pre' ++ used z rest := by
    rw [inUse_around, hx, used_cons_of_free rfl, used_nil, used_append, used_of_free hgs, hzwidth, inUse, inUse,
      used_append, used_of_free hfs]
    simp only [List.append_nil, List.nil_append]
  have hnew : inUse base (pre' ++ [⟨true, n₄⟩] ++ rest) = inUse base pre' ++ used z rest := by
    rw [inUse_around, ht', used_cons_of_free rfl, used_nil, List.append_nil, width_eq, hstop₄, hstop₃]
  refine ⟨h₄, pre' ++ [⟨true, n₄⟩] ++ rest, ?_, tiles_iff.mpr ⟨r₄, ?_⟩, hnew.trans hold.symm, ?_, ?_⟩
  · simp only [mmFree, hfind, Option.bind_eq_bind, Option.bind_some, hb, e₁, e₂, mergeFreeSpace, e₃, e₄]
  · refine Coalesced.insert ?_ ?_ fun _ => ⟨?_, hrest⟩
    · rw [← List.cons_append, List.append_assoc, List.append_assoc] at hcoal
      exact (List.isChain_append.mp hcoal).1
    · rw [← List.append_assoc] at hcoal
      exact (List.isChain_append.mp hcoal).2.1
    rcases List.eq_nil_or_concat' pre' with rfl | ⟨pre'', c, rfl⟩
    · simp [sentinel]
    · simpa [List.getLast?_cons] using hlast
  · rw [hnew]
    refine keeps_of_outside (fun w hw => ?_) ht'
    exact (mem₄ w (by omega)).trans ((mem₃ w (by omega)).trans ((a₂.mem w (by omega)).trans (a₁.mem w (by omega))))
  · have hbrk : stop z rest = h.brk := by
      rw [← hr.brk, stop_append, stop_append, stop_append, hx]
      rw [← hz]
      rfl
    have hbrk' := r₄.brk
    rw [stop_append, stop_append, ht', stop_cons, stop_nil, width_eq, hstop₄, hstop₃] at hbrk'
    exact hbrk'.symm.trans hbrk

/-- **`mm_free`**: one used block less. -/
theorem mmFree_spec (ht : h.Tiles base bs) {p n : ℕ} (hp : (p, n) ∈ inUse base bs) :
    ∃ h' bs', h.mmFree (some p) = some h' ∧ h'.Tiles base bs' ∧ (inUse base bs).Perm ((p, n) :: inUse base bs') ∧
      Keeps h h' (inUse base bs') ∧ h'.brk = h.brk := by
  obtain ⟨pre, b, post, rfl, hused, hpn⟩ := mem_inUse.mp hp
  obtain ⟨rfl, rfl⟩ := Prod.mk.inj hpn
  obtain ⟨h', bs', e, ht', hin, hk, hbrk⟩ := mmFree_merges ht
  refine ⟨h', bs', e, ht', ?_, hk, hbrk⟩
  rw [hin, inUse_around, inUse_around, used_cons_of_used hused, used_cons_of_free rfl, used_nil, used_nil, List.append_nil]
  exact (List.append_assoc ..).symm ▸ List.perm_middle

/-! ## `mm_realloc` -/

/-- Two ranges do not overlap. -/
def Apart (p q : ℕ × ℕ) : Prop := p.1 + p.2 ≤ q.1 ∨ q.1 + q.2 ≤ p.1

theorem inUse_pairwise : (inUse base bs).Pairwise Apart := used_pairwise.imp fun h => .inl (by omega)

/-- What can be written in a used block without touching a header. -/
theorem Tiles.data (ht : h.Tiles base bs) {p n lo hi : ℕ} (hp : (p, n) ∈ inUse base bs) (ha : Alters h h' lo hi)
    (hlo : p ≤ lo) (hhi : hi ≤ p + n) : h'.Tiles base bs := by
  obtain ⟨pre, b, post, rfl, -, hpn⟩ := mem_inUse.mp hp
  obtain ⟨rfl, rfl⟩ := Prod.mk.inj hpn
  obtain ⟨hr, hcoal⟩ := tiles_iff.mp ht
  exact tiles_iff.mpr ⟨hr.data ha hlo (by rw [width_eq]; omega), hcoal⟩

/-- `mm_realloc` once `mm_malloc` has found a block: it copies, and frees the old one. -/
theorem mmRealloc_moves (ht : h.Tiles base bs) {p n : ℕ} (hp : (p, n) ∈ inUse base bs) {grow : Bool} {size q m : ℕ}
    (hsize : size ≠ 0) {h₁ : Heap} {bs₁ : List Block} (e₁ : h.mmMalloc grow size = some (some q, h₁)) (hm : size ≤ m)
    (ht₁ : h₁.Tiles base bs₁) (hperm₁ : (inUse base bs₁).Perm ((q, m) :: inUse base bs)) :
    ∃ h₂ h₃ bs', h.mmRealloc grow (some p) size = some (some q, h₃) ∧ Alters h₁ h₂ q (q + min n size) ∧
      (∀ i < min n size, h₂.mem (q + i) = h₁.mem (p + i)) ∧ h₃.Tiles base bs' ∧
      (inUse base bs₁).Perm ((p, n) :: inUse base bs') ∧ Keeps h₂ h₃ (inUse base bs') ∧ h₃.brk = h₁.brk := by
  obtain ⟨pre, b, post, rfl, hused, hstop, hn, hfind⟩ := ht.findListElemDataLocation hp
  have hp₁ : (p, n) ∈ inUse base bs₁ := hperm₁.symm.subset (List.mem_cons_of_mem _ hp)
  have hq₁ : (q, m) ∈ inUse base bs₁ := hperm₁.symm.subset List.mem_cons_self
  have hcur : ∃ s, h₁.slot (stop base (sentinel :: pre)) = some s ∧ s.size = n := by
    obtain ⟨pre₁, b₁, post₁, rfl, -, hpn₁⟩ := mem_inUse.mp hp₁
    have hx : stop base (sentinel :: pre) = stop base (sentinel :: pre₁) := by
      have := hstop.symm.trans (Prod.mk.inj hpn₁).1
      omega
    exact ⟨_, hx ▸ (tiles_iff.mp ht₁).1.around.1, (Prod.mk.inj hpn₁).2.symm⟩
  obtain ⟨cur, ecur, rfl⟩ := hcur
  have hk : (if size ≥ cur.size then cur.size else size) = min cur.size size := by
    split_ifs <;> omega
  have hbrk : stop (base + sizeofSlot) bs₁ = h₁.brk := ht₁.brk
  have hpb : p + cur.size ≤ h₁.brk := hbrk ▸ (used_bounds hp₁).2
  have hqb : q + m ≤ h₁.brk := hbrk ▸ (used_bounds hq₁).2
  obtain ⟨h₂, e₂, a₂, copy₂⟩ := @memcpy_spec h₁ q p (min cur.size size) (by omega) (by omega)
  have ht₂ := ht₁.data hq₁ a₂ le_rfl (by omega)
  obtain ⟨h₃, bs', e₃, ht₃, hperm₃, hk₃, hbrk₃⟩ := mmFree_spec ht₂ hp₁
  refine ⟨h₂, h₃, bs', ?_, a₂, copy₂, ht₃, hperm₃, hk₃, hbrk₃.trans a₂.brk⟩
  simp only [mmRealloc, if_neg hsize, hfind, Option.bind_eq_bind, Option.bind_some, e₁, ecur, hk, e₂, e₃]

/-- It has no other result than `mm_malloc`. -/
theorem mmRealloc_null (ht : h.Tiles base bs) {p n : ℕ} (hp : (p, n) ∈ inUse base bs) {grow : Bool} {size : ℕ}
    (hsize : size ≠ 0) {h₁ : Heap} (e₁ : h.mmMalloc grow size = some (none, h₁)) :
    h.mmRealloc grow (some p) size = some (none, h₁) := by
  obtain ⟨pre, b, post, -, -, -, -, hfind⟩ := ht.findListElemDataLocation hp
  simp only [mmRealloc, if_neg hsize, hfind, Option.bind_eq_bind, Option.bind_some, e₁]

/-- On a heap that is initialised `mm_malloc` has nothing to do first. -/
theorem Tiles.ensureInit (ht : h.Tiles base bs) : h.ensureInit = some h := by
  rw [Heap.ensureInit, ht.isInit]
  rfl

/-- **`mm_realloc`**: the new block for the old one, which is as it was if there is no new one. -/
theorem mmRealloc_spec (ht : h.Tiles base bs) {p n : ℕ} (hp : (p, n) ∈ inUse base bs) (grow : Bool) {size : ℕ}
    (hsize : size ≠ 0) :
    ∃ r h', h.mmRealloc grow (some p) size = some (r, h') ∧
      ((grow = false ∧ r = none ∧ h' = h) ∨
        ∃ q m bs' l, r = some q ∧ size ≤ m ∧ h'.Tiles base bs' ∧ (inUse base bs).Perm ((p, n) :: l) ∧
          (inUse base bs').Perm ((q, m) :: l) ∧ Keeps h h' l ∧ (∀ i < min n size, h'.mem (q + i) = h.mem (p + i)) ∧
          ∀ i < m, min n size ≤ i → h'.mem (q + i) = .byte 0) := by
  obtain ⟨h₀, r, h₁, e₀, -, -, e₁, hcase⟩ := mmMalloc_spec (.inr ht) grow size
  obtain rfl := Option.some.inj (e₀.symm.trans ht.ensureInit)
  rcases hcase with ⟨rfl, rfl, hgrow⟩ | ⟨q, rfl, -, m, bs₁, hm, ht₁, hperm₁, hk₁, hzero₁⟩
  · exact ⟨none, h₁, mmRealloc_null ht hp hsize e₁, .inl ⟨hgrow.resolve_left hsize, rfl, rfl⟩⟩
  · obtain ⟨h₂, h₃, bs', e, a₂, copy₂, ht₃, hperm₃, hk₃, -⟩ := mmRealloc_moves ht hp hsize e₁ hm ht₁ hperm₁
    have hl := List.perm_cons_erase hp
    obtain ⟨l, hl'⟩ : ∃ l, (inUse base bs).erase (p, n) = l := ⟨_, rfl⟩
    rw [hl'] at hl
    have hall : (inUse base bs₁).Perm ((q, m) :: (p, n) :: l) := hperm₁.trans (hl.cons _)
    have hperm : (inUse base bs').Perm ((q, m) :: l) :=
      (hperm₃.symm.trans (hall.trans (.swap ..))).cons_inv
    have hapart : ∀ r ∈ l, Apart (q, m) r := by
      have hpw := inUse_pairwise.perm hall fun h => h.symm
      exact fun r hr => (List.pairwise_cons.mp hpw).1 r (List.mem_cons_of_mem _ hr)
    refine ⟨some q, h₃, e, .inr ⟨q, m, bs', l, rfl, hm, ht₃, hl, hperm, ?_, fun i hi => ?_, fun i hi hni => ?_⟩⟩
    · refine (hk₁.mono fun r hr => hl.symm.subset (List.mem_cons_of_mem _ hr)).trans (Keeps.trans ?_
        (hk₃.mono fun r hr => hperm.symm.subset (List.mem_cons_of_mem _ hr)))
      intro r hr i hi
      have hr' := hapart r hr
      simp only [Apart] at hr'
      exact a₂.mem _ (by omega)
    · calc h₃.mem (q + i) = h₂.mem (q + i) := hk₃ (q, m) (hperm.symm.subset List.mem_cons_self) i (by omega)
        _ = h₁.mem (p + i) := copy₂ i (by omega)
        _ = h₀.mem (p + i) := hk₁ (p, n) hp i (by omega)
    · calc h₃.mem (q + i) = h₂.mem (q + i) := hk₃ (q, m) (hperm.symm.subset List.mem_cons_self) i (by omega)
        _ = h₁.mem (q + i) := a₂.mem _ (by omega)
        _ = .byte 0 := hzero₁ i hi

end Heap

end Cs162Hw.Alloc
