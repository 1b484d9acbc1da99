import Mathlib.Data.List.Nodup
import Cs162Hw.Alloc.Calls

/-!
# A client of the allocator

Runs of `mm_malloc`, `mm_realloc` and `mm_free` with pointers that are `NULL` or live, and of
writes inside live blocks, from a heap that does not exist yet. `sbrk` fails in any
calls; memory beyond the break holds anything.

* **`heap_tiled`** — at any time the list of slots tiles the heap, and its used slots are
  the live blocks.
* **`blocks_isolated`** — at any time the live blocks are apart from each other and from all
  headers, hold what was last written to them, and are left alone by calls about
  other blocks.

Both are read off one invariant (`Client.Inv`): every live block sits on a used block of a
heap that is tiled. What each call does to it is one rule, `Inv.change`.
-/

namespace Cs162Hw.Alloc

open Library.Tiling Heap

/-- A block that the client has and may use. -/
structure LiveBlock where
  /-- Where its bytes begin. -/
  ptr : ℕ
  /-- The size last requested. -/
  size : ℕ
  /-- What the client has last written at an offset, if it has. -/
  data : ℕ → Option UInt8

/-- What a client does. -/
inductive ClientEvent where
  /-- `mm_malloc`; `sbrk` succeeds if `grow`. -/
  | malloc (size : ℕ) (grow : Bool)
  /-- `mm_realloc`. -/
  | realloc (ptr : Option ℕ) (size : ℕ) (grow : Bool)
  /-- `mm_free`. -/
  | free (ptr : Option ℕ)
  /-- Write a byte. -/
  | write (ptr offset : ℕ) (value : UInt8)

/-- The pointer that is passed. -/
def ClientEvent.ptr : ClientEvent → Option ℕ
  | .malloc _ _ => none
  | .realloc ptr _ _ => ptr
  | .free ptr => ptr
  | .write ptr _ _ => some ptr

/-- A heap and what the client has of it. -/
structure Client where
  /-- The heap. -/
  heap : Heap
  /-- The live blocks. -/
  live : List LiveBlock

namespace Client

/-- Before the first call. -/
def start (mem : ℕ → Cell) (brk : ℕ) : Client := ⟨⟨mem, brk, false, none, none⟩, []⟩

/-- The blocks other than that at `ptr`. -/
def without (c : Client) (ptr : Option ℕ) : List LiveBlock := c.live.filter fun b => some b.ptr ≠ ptr

/-- What the client has written in the block at `ptr`. -/
def written (c : Client) (ptr : Option ℕ) : ℕ → Option UInt8 :=
  match c.live.find? fun b => some b.ptr = ptr with
  | some b => b.data
  | none => fun _ => none

/-- The block that `mm_realloc` returns: what was written in the old one, as far as it goes. -/
def moved (c : Client) (ptr : Option ℕ) (newPtr size : ℕ) : LiveBlock :=
  ⟨newPtr, size, fun i => if i < size then c.written ptr i else none⟩

/-- One call or write. -/
def step (c : Client) : ClientEvent → Option Client
  | .malloc size grow => do
    let (r, heap) ← c.heap.mmMalloc grow size
    some ⟨heap, match r with
      | none => c.live
      | some p => ⟨p, size, fun _ => none⟩ :: c.live⟩
  | .realloc ptr size grow => do
    let (r, heap) ← c.heap.mmRealloc grow ptr size
    some ⟨heap, match r with
      | none => if size = 0 then c.without ptr else c.live
      | some p => c.moved ptr p size :: c.without ptr⟩
  | .free ptr => do
    let heap ← c.heap.mmFree ptr
    some ⟨heap, c.without ptr⟩
  | .write ptr offset value =>
    some ⟨{ c.heap with mem := Function.update c.heap.mem (ptr + offset) (.byte value) },
      c.live.map fun b => if b.ptr = ptr then { b with data := Function.update b.data offset (some value) } else b⟩

/-- Calls and writes in a row. -/
def run (c : Client) : List ClientEvent → Option Client
  | [] => some c
  | e :: events => do
    let c ← c.step e
    c.run events

/-- The pointer is `NULL` or live, and a write is inside a block. -/
def Allowed (c : Client) : ClientEvent → Prop
  | .malloc _ _ => True
  | .realloc ptr _ _ => ∀ p ∈ ptr, ∃ b ∈ c.live, b.ptr = p
  | .free ptr => ∀ p ∈ ptr, ∃ b ∈ c.live, b.ptr = p
  | .write ptr offset _ => ∃ b ∈ c.live, b.ptr = ptr ∧ offset < b.size

/-- Every call and write is allowed when it is made. -/
def Respects (c : Client) : List ClientEvent → Prop
  | [] => True
  | e :: events => c.Allowed e ∧ ∀ c' ∈ c.step e, c'.Respects events

instance (c : Client) : (e : ClientEvent) → Decidable (c.Allowed e)
  | .malloc _ _ => inferInstanceAs (Decidable True)
  | .realloc ptr _ _ => inferInstanceAs (Decidable (∀ p ∈ ptr, ∃ b ∈ c.live, b.ptr = p))
  | .free ptr => inferInstanceAs (Decidable (∀ p ∈ ptr, ∃ b ∈ c.live, b.ptr = p))
  | .write ptr offset _ => inferInstanceAs (Decidable (∃ b ∈ c.live, b.ptr = ptr ∧ offset < b.size))

instance respectsDecidable (c : Client) : (events : List ClientEvent) → Decidable (c.Respects events)
  | [] => inferInstanceAs (Decidable True)
  | e :: events =>
    have (c' : Client) : Decidable (c'.Respects events) := respectsDecidable c' events
    inferInstanceAs (Decidable (c.Allowed e ∧ ∀ c' ∈ c.step e, c'.Respects events))

end Client

/-! ## The invariant -/

/-- A live block sits on a used block of `n` bytes: it has what was written to it, and the bytes it did not ask for are
clear. -/
structure LiveBlock.Sits (h : Heap) (n : ℕ) (b : LiveBlock) : Prop where
  /-- There is room for it. -/
  size : b.size ≤ n
  /-- What was written. -/
  data : ∀ i v, b.data i = some v → i < b.size ∧ h.mem (b.ptr + i) = .byte v
  /-- The other bytes. -/
  slack : ∀ i, b.size ≤ i → i < n → h.mem (b.ptr + i) = .byte 0

theorem LiveBlock.Sits.keeps {h h' : Heap} {b : LiveBlock} {n : ℕ} {l : List (ℕ × ℕ)} (hs : b.Sits h n)
    (hb : (b.ptr, n) ∈ l) (hk : Keeps h h' l) : b.Sits h' n where
  size := hs.size
  data i v hv := by
    obtain ⟨hi, hm⟩ := hs.data i v hv
    exact ⟨hi, (hk _ hb i (Nat.lt_of_lt_of_le hi hs.size)).trans hm⟩
  slack i h₁ h₂ := (hk _ hb i h₂).trans (hs.slack i h₁ h₂)

namespace Client

/-- The live blocks are the used blocks. -/
structure Inv (base : ℕ) (bs : List Block) (c : Client) : Prop where
  /-- The heap. -/
  ready : c.heap.Ready base bs
  /-- Where the live blocks are. -/
  live : (c.live.map LiveBlock.ptr).Perm ((inUse base bs).map Prod.fst)
  /-- What they are. -/
  sits : ∀ b ∈ c.live, ∃ n, (b.ptr, n) ∈ inUse base bs ∧ b.Sits c.heap n

theorem Inv.start (mem : ℕ → Cell) (brk : ℕ) : Inv brk [] (start mem brk) where
  ready := .inl ⟨rfl, rfl, rfl, rfl⟩
  live := .nil
  sits _ h := absurd h List.not_mem_nil

variable {c : Client} {base : ℕ} {bs bs' : List Block} {h' : Heap} {l : List (ℕ × ℕ)}

theorem nodup_inUse : ((inUse base bs).map Prod.fst).Nodup :=
  List.pairwise_map.mpr (used_pairwise.imp fun h => by
    have h0 : 0 < sizeofSlot := by decide
    omega)

/-- A used block is known by where it is. -/
theorem inUse_inj {p n m : ℕ} (hn : (p, n) ∈ inUse base bs) (hm : (p, m) ∈ inUse base bs) : n = m :=
  (Prod.mk.inj (List.inj_on_of_nodup_map nodup_inUse hn hm rfl)).2

/-- So is a live block. -/
theorem Inv.live_inj (hi : Inv base bs c) {b b' : LiveBlock} (hb : b ∈ c.live) (hb' : b' ∈ c.live) (h : b.ptr = b'.ptr) :
    b = b' :=
  List.inj_on_of_nodup_map (hi.live.nodup_iff.mpr nodup_inUse) hb hb' h

/-- The blocks other than one are the used blocks other than the one it sits on. -/
theorem Inv.without (hi : Inv base bs c) {p n : ℕ} (hl : (inUse base bs).Perm ((p, n) :: l)) :
    ((c.without (some p)).map LiveBlock.ptr).Perm (l.map Prod.fst) := by
  have hnodup : (((p, n) :: l).map Prod.fst).Nodup := (hl.map _).nodup_iff.mp nodup_inUse
  have hout : ∀ q ∈ l.map Prod.fst, decide (some q ≠ some p) = true := by
    rintro q hq
    have hne : q ≠ p := fun he => (List.nodup_cons.mp hnodup).1 (he ▸ hq)
    simpa using hne
  have hfilter : (c.without (some p)).map LiveBlock.ptr =
      (c.live.map LiveBlock.ptr).filter fun q => decide (some q ≠ some p) := by
    rw [List.filter_map]
    rfl
  rw [hfilter]
  refine ((hi.live.trans (hl.map _)).filter _).trans ?_
  rw [List.map_cons, List.filter_cons_of_neg (by simp), List.filter_eq_self.mpr hout]

/-- **What a call does**: some used blocks are kept, with their bytes and the blocks on them, and there are new ones. -/
theorem Inv.change (hi : Inv base bs c) (ht : h'.Tiles base bs') (hl : l ⊆ inUse base bs) (hl' : l ⊆ inUse base bs')
    (hk : Keeps c.heap h' l) {new keep : List LiveBlock} (hsub : keep ⊆ c.live)
    (hkeep : (keep.map LiveBlock.ptr).Perm (l.map Prod.fst))
    (hlive : ((new ++ keep).map LiveBlock.ptr).Perm ((inUse base bs').map Prod.fst))
    (hnew : ∀ b ∈ new, ∃ n, (b.ptr, n) ∈ inUse base bs' ∧ b.Sits h' n) : Inv base bs' ⟨h', new ++ keep⟩ where
  ready := .inr ht
  live := hlive
  sits := by
    intro b hb
    rcases List.mem_append.mp hb with hb | hb
    · exact hnew b hb
    · obtain ⟨⟨q, m⟩, hqm, rfl⟩ := List.mem_map.mp (hkeep.subset (List.mem_map_of_mem hb))
      obtain ⟨n, hn, hs⟩ := hi.sits b (hsub hb)
      obtain rfl : n = m := inUse_inj hn (hl hqm)
      exact ⟨n, hl' hqm, hs.keeps hqm hk⟩

/-- What the calls leave alone. -/
theorem Inv.untouched (hi : Inv base bs c) (hk : Keeps c.heap h' l) {p : Option ℕ}
    (hl : ∀ q n, (q, n) ∈ inUse base bs → p ≠ some q → (q, n) ∈ l) {b : LiveBlock} (hb : b ∈ c.live)
    (hp : p ≠ some b.ptr) {i : ℕ} (hib : i < b.size) : h'.mem (b.ptr + i) = c.heap.mem (b.ptr + i) := by
  obtain ⟨n, hn, hs⟩ := hi.sits b hb
  exact hk _ (hl _ _ hn hp) i (Nat.lt_of_lt_of_le hib hs.size)

/-- A step keeps the invariant, and the bytes of the blocks it is not about. -/
def Safe (base : ℕ) (c : Client) (ptr : Option ℕ) (c' : Client) : Prop :=
  (∃ bs, Inv base bs c') ∧
    ∀ b ∈ c.live, ptr ≠ some b.ptr → ∀ i < b.size, c'.heap.mem (b.ptr + i) = c.heap.mem (b.ptr + i)

theorem written_none : c.written none = fun _ => none := by
  have hfind : c.live.find? (fun b => some b.ptr = none) = none := List.find?_eq_none.mpr (by simp)
  rw [written, hfind]

theorem Inv.written (hi : Inv base bs c) {b : LiveBlock} (hb : b ∈ c.live) : c.written (some b.ptr) = b.data := by
  rw [Client.written]
  cases hfind : c.live.find? fun b' => some b'.ptr = some b.ptr with
  | none =>
    have := List.find?_eq_none.mp hfind b hb
    simp at this
  | some b' =>
    have hptr : b'.ptr = b.ptr := by simpa using List.find?_some hfind
    rw [hi.live_inj (List.mem_of_find?_eq_some hfind) hb hptr]

theorem without_none : c.without none = c.live := by simp [Client.without]

/-- A call of `mm_malloc`, with what the client takes its block for. -/
theorem Inv.malloc (hi : Inv base bs c) (grow : Bool) (size : ℕ) (ptr : Option ℕ) :
    ∃ r h', c.heap.mmMalloc grow size = some (r, h') ∧
      Safe base c ptr ⟨h', match r with
        | none => c.live
        | some p => ⟨p, size, fun _ => none⟩ :: c.live⟩ := by
  obtain ⟨h₀, r, h', -, ht, hk, e, hcase⟩ := mmMalloc_spec hi.ready grow size
  refine ⟨r, h', e, ?_⟩
  rcases hcase with ⟨rfl, rfl, -⟩ | ⟨p, rfl, -, n, bs', hn, ht', hperm, hk', hzero⟩
  · refine ⟨⟨bs, ?_⟩, fun b hb hp i hib => hi.untouched hk (fun _ _ h _ => h) hb hp hib⟩
    show Inv base bs ⟨h', [] ++ c.live⟩
    exact hi.change ht (List.Subset.refl _) (List.Subset.refl _) hk (List.Subset.refl _) hi.live hi.live
      fun b hb => absurd hb List.not_mem_nil
  · refine ⟨⟨bs', ?_⟩, fun b hb hp i hib => hi.untouched hk' (fun _ _ h _ => h) hb hp hib⟩
    show Inv base bs' ⟨h', [⟨p, size, fun _ => none⟩] ++ c.live⟩
    refine hi.change ht' (List.Subset.refl _) (fun q hq => hperm.symm.subset (List.mem_cons_of_mem _ hq)) hk'
      (List.Subset.refl _) hi.live ?_ fun b hb => ?_
    · exact (hi.live.cons p).trans (hperm.map Prod.fst).symm
    · obtain rfl := List.mem_singleton.mp hb
      exact ⟨n, hperm.symm.subset List.mem_cons_self, hn, fun i v hv => by simp at hv, fun i _ hin => hzero i hin⟩

/-- A block is live on a heap that is there. -/
theorem Inv.tiles (hi : Inv base bs c) {b : LiveBlock} (hb : b ∈ c.live) : c.heap.Tiles base bs := by
  rcases hi.ready with ⟨-, -, -, rfl⟩ | ht
  · obtain ⟨n, hn, -⟩ := hi.sits b hb
    exact absurd hn List.not_mem_nil
  · exact ht

/-- A used block that is not the one passed to a call is one of the others. -/
theorem mem_others {p n q m : ℕ} (hl : (inUse base bs).Perm ((p, n) :: l)) (hq : (q, m) ∈ inUse base bs)
    (hne : some p ≠ some q) : (q, m) ∈ l := by
  rcases List.mem_cons.mp (hl.subset hq) with he | hq
  · exact absurd (congrArg some (Prod.mk.inj he).1.symm) hne
  · exact hq

/-- A call of `mm_free`. -/
theorem Inv.free (hi : Inv base bs c) {ptr : Option ℕ} (ha : ∀ p ∈ ptr, ∃ b ∈ c.live, b.ptr = p) :
    ∃ h', c.heap.mmFree ptr = some h' ∧ Safe base c ptr ⟨h', c.without ptr⟩ := by
  cases ptr with
  | none => exact ⟨c.heap, rfl, ⟨bs, by rw [without_none]; exact hi⟩, fun _ _ _ _ _ => rfl⟩
  | some p =>
    obtain ⟨b, hb, rfl⟩ := ha p rfl
    obtain ⟨n, hn, -⟩ := hi.sits b hb
    obtain ⟨h', bs', e, ht', hperm, hk, -⟩ := mmFree_spec (hi.tiles hb) hn
    refine ⟨h', e, ⟨bs', ?_⟩, fun b' hb' hp i hib => hi.untouched hk (fun q m hq => mem_others hperm hq) hb' hp hib⟩
    show Inv base bs' ⟨h', [] ++ c.without (some b.ptr)⟩
    exact hi.change ht' (fun q hq => hperm.symm.subset (List.mem_cons_of_mem _ hq)) (List.Subset.refl _) hk
      (List.filter_subset_self _) (hi.without hperm) (hi.without hperm) fun b hb => absurd hb List.not_mem_nil

/-- A call of `mm_realloc`. -/
theorem Inv.realloc (hi : Inv base bs c) (grow : Bool) {ptr : Option ℕ} (size : ℕ)
    (ha : ∀ p ∈ ptr, ∃ b ∈ c.live, b.ptr = p) :
    ∃ r h', c.heap.mmRealloc grow ptr size = some (r, h') ∧
      Safe base c ptr ⟨h', match r with
        | none => if size = 0 then c.without ptr else c.live
        | some p => c.moved ptr p size :: c.without ptr⟩ := by
  by_cases hsize : size = 0
  · obtain ⟨h', e, hs⟩ := hi.free ha
    refine ⟨none, h', ?_, ?_⟩
    · simp only [mmRealloc, if_pos hsize, e, Option.bind_eq_bind, Option.bind_some]
    · simpa only [if_pos hsize] using hs
  · cases ptr with
    | none =>
      obtain ⟨r, h', e, hs⟩ := hi.malloc grow size none
      refine ⟨r, h', by rw [mmRealloc, if_neg hsize]; exact e, ?_⟩
      have hmoved : ∀ p, c.moved none p size = ⟨p, size, fun _ => none⟩ := by
        intro p
        simp only [moved, written_none, ite_self]
      cases r with
      | none => simpa only [if_neg hsize] using hs
      | some p => simpa only [hmoved, without_none] using hs
    | some p =>
      obtain ⟨b, hb, rfl⟩ := ha p rfl
      obtain ⟨n, hn, hsits⟩ := hi.sits b hb
      obtain ⟨r, h', e, hcase⟩ := mmRealloc_spec (hi.tiles hb) hn grow hsize
      refine ⟨r, h', e, ?_⟩
      rcases hcase with ⟨-, rfl, rfl⟩ | ⟨q, m, bs', l, rfl, hm, ht', hl, hl', hk, hcopy, hzero⟩
      · exact ⟨⟨bs, by simpa only [if_neg hsize] using hi⟩, fun _ _ _ _ _ => rfl⟩
      · refine ⟨⟨bs', ?_⟩, fun b' hb' hp i hib => hi.untouched hk (fun q m hq => mem_others hl hq) hb' hp hib⟩
        show Inv base bs' ⟨h', [c.moved (some b.ptr) q size] ++ c.without (some b.ptr)⟩
        refine hi.change ht' (fun q hq => hl.symm.subset (List.mem_cons_of_mem _ hq))
          (fun q hq => hl'.symm.subset (List.mem_cons_of_mem _ hq)) hk (List.filter_subset_self _) (hi.without hl)
          (((hi.without hl).cons q).trans (hl'.map Prod.fst).symm) fun b' hb' => ?_
        obtain rfl := List.mem_singleton.mp hb'
        refine ⟨m, hl'.symm.subset List.mem_cons_self, hm, fun i v hv => ?_, fun i hsi him => hzero i him ?_⟩
        · simp only [moved, hi.written hb] at hv ⊢
          split_ifs at hv with his
          obtain ⟨hib, hmem⟩ := hsits.data i v hv
          exact ⟨his, (hcopy i (by have := hsits.size; omega)).trans hmem⟩
        · simp only [moved] at hsi
          omega

theorem alters_update (h : Heap) (x : ℕ) (v : Cell) : Alters h { h with mem := Function.update h.mem x v } x (x + 1) := by
  refine ⟨fun y hy => ?_, rfl, rfl, rfl, rfl⟩
  exact Function.update_of_ne (by omega) ..

/-- A write. -/
theorem Inv.write (hi : Inv base bs c) {b : LiveBlock} (hb : b ∈ c.live) {offset : ℕ} (ho : offset < b.size)
    (value : UInt8) :
    Safe base c (some b.ptr) ⟨{ c.heap with mem := Function.update c.heap.mem (b.ptr + offset) (.byte value) },
      c.live.map fun b' =>
        if b'.ptr = b.ptr then { b' with data := Function.update b'.data offset (some value) } else b'⟩ := by
  obtain ⟨n, hn, hsits⟩ := hi.sits b hb
  have hsize := hsits.size
  have halters := alters_update c.heap (b.ptr + offset) (.byte value)
  have hothers : ∀ q m, (q, m) ∈ inUse base bs → q ≠ b.ptr → ∀ i < m,
      Function.update c.heap.mem (b.ptr + offset) (.byte value) (q + i) = c.heap.mem (q + i) := by
    intro q m hq hne i him
    refine halters.mem _ ?_
    have hl := List.perm_cons_erase hn
    have hqm := mem_others hl hq fun he => hne (Option.some.inj he).symm
    have hapart := (List.pairwise_cons.mp (inUse_pairwise.perm hl fun h => h.symm)).1 _ hqm
    simp only [Apart] at hapart
    omega
  refine ⟨⟨bs, ?_, ?_, ?_⟩, fun b' hb' hp i hib => ?_⟩
  · exact .inr ((hi.tiles hb).data hn halters (by omega) (by omega))
  · have hptrs : ∀ b' ∈ c.live, (LiveBlock.ptr ∘ fun b' : LiveBlock =>
        if b'.ptr = b.ptr then { b' with data := Function.update b'.data offset (some value) } else b') b' = b'.ptr := by
      intro b' _
      simp only [Function.comp]
      split_ifs <;> rfl
    rw [List.map_map, List.map_congr_left hptrs]
    exact hi.live
  · intro b'' hb''
    obtain ⟨b', hb', rfl⟩ := List.mem_map.mp hb''
    by_cases hptr : b'.ptr = b.ptr
    · obtain rfl := hi.live_inj hb' hb hptr
      rw [if_pos rfl]
      refine ⟨n, hn, hsize, fun i v hv => ?_, fun i h₁ h₂ => ?_⟩
      · by_cases hio : i = offset
        · subst hio
          simp only [Function.update_self, Option.some.injEq] at hv ⊢
          exact ⟨ho, by rw [hv]⟩
        · simp only [Function.update_of_ne hio] at hv
          obtain ⟨hib, hmem⟩ := hsits.data i v hv
          exact ⟨hib, (halters.mem (b'.ptr + i) (by omega)).trans hmem⟩
      · have hsi : b'.size ≤ i := h₁
        exact (halters.mem (b'.ptr + i) (by omega)).trans (hsits.slack i h₁ h₂)
    · rw [if_neg hptr]
      obtain ⟨m, hm, hsits'⟩ := hi.sits b' hb'
      exact ⟨m, hm, hsits'.size, fun i v hv => ⟨(hsits'.data i v hv).1, (hothers _ m hm hptr i
        (Nat.lt_of_lt_of_le (hsits'.data i v hv).1 hsits'.size)).trans (hsits'.data i v hv).2⟩,
        fun i h₁ h₂ => (hothers _ m hm hptr i h₂).trans (hsits'.slack i h₁ h₂)⟩
  · obtain ⟨m, hm, hsits'⟩ := hi.sits b' hb'
    exact hothers _ m hm (fun he => hp (congrArg some he.symm)) i (Nat.lt_of_lt_of_le hib hsits'.size)

/-- **One call or write.** -/
theorem Inv.step (hi : Inv base bs c) {e : ClientEvent} (ha : c.Allowed e) :
    ∃ c', c.step e = some c' ∧ Safe base c e.ptr c' := by
  cases e with
  | malloc size grow =>
    obtain ⟨r, h', e, hs⟩ := hi.malloc grow size none
    exact ⟨_, by simp only [Client.step, e, Option.bind_eq_bind, Option.bind_some], hs⟩
  | realloc ptr size grow =>
    obtain ⟨r, h', e, hs⟩ := hi.realloc grow size ha
    exact ⟨_, by simp only [Client.step, e, Option.bind_eq_bind, Option.bind_some], hs⟩
  | free ptr =>
    obtain ⟨h', e, hs⟩ := hi.free ha
    exact ⟨_, by simp only [Client.step, e, Option.bind_eq_bind, Option.bind_some], hs⟩
  | write ptr offset value =>
    obtain ⟨b, hb, rfl, ho⟩ := ha
    exact ⟨_, rfl, hi.write hb ho value⟩

/-- Calls and writes in a row. -/
theorem Inv.run (hi : Inv base bs c) {events : List ClientEvent} (hr : c.Respects events) :
    ∃ c' bs', c.run events = some c' ∧ Inv base bs' c' := by
  induction events generalizing c bs with
  | nil => exact ⟨c, bs, rfl, hi⟩
  | cons e events ih =>
    obtain ⟨c₁, e₁, ⟨bs₁, hi₁⟩, -⟩ := hi.step hr.1
    obtain ⟨c', bs', e', hi'⟩ := ih hi₁ (hr.2 c₁ e₁)
    exact ⟨c', bs', by rw [Client.run, e₁]; exact e', hi'⟩

end Client

end Cs162Hw.Alloc
