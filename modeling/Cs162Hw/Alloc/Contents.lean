import Cs162Hw.Alloc.Runs

/-!
# What a new block holds

After any calls and writes of a client (`Client`), `mm_malloc` returns cleared bytes, and
`mm_realloc` the bytes of the old block as far as both sizes go, the others cleared
(`realloc_contents`). The source copies as many bytes as the old slot has, which may be
more than the old size: what makes up the difference is clear, an invariant of all calls
and writes (`LiveBlock.Sits.slack`).
-/

namespace Cs162Hw.Alloc.Client

open Library.Tiling Heap

/-- The `size` bytes at `q` after `mm_realloc` are those of the live block `b` before it, and clear where there were
none. -/
structure Carries (h : Heap) (b : LiveBlock) (h' : Heap) (q size : ℕ) : Prop where
  /-- What there was. -/
  old : ∀ i < min b.size size, h'.mem (q + i) = h.mem (b.ptr + i)
  /-- What is new. -/
  new : ∀ i, b.size ≤ i → i < size → h'.mem (q + i) = .byte 0

variable {c : Client} {base : ℕ} {bs : List Block}

/-- `mm_realloc` of a live block, which stays as it is if there is no other. -/
theorem Inv.realloc_carries (hi : Inv base bs c) {b : LiveBlock} (hb : b ∈ c.live) {size : ℕ} (hsize : size ≠ 0)
    (grow : Bool) :
    ∃ r h', c.heap.mmRealloc grow (some b.ptr) size = some (r, h') ∧
      (∀ q ∈ r, Carries c.heap b h' q size) ∧
      (r = none → grow = false ∧ c.step (.realloc (some b.ptr) size grow) = some c) := by
  obtain ⟨n, hn, hsits⟩ := hi.sits b hb
  obtain ⟨r, h', e, hcase⟩ := mmRealloc_spec (hi.tiles hb) hn grow hsize
  refine ⟨r, h', e, ?_, ?_⟩
  · rintro q rfl
    obtain ⟨hgrow, hnone, -⟩ | ⟨q', m, bs', l, hq, hm, -, -, -, -, hcopy, hzero⟩ := hcase
    · cases hnone
    · obtain rfl := Option.some.inj hq
      have hbn := hsits.size
      refine ⟨fun i hi => hcopy i (by omega), fun i hbi hi => ?_⟩
      by_cases hin : i < n
      · rw [hcopy i (by omega)]
        exact hsits.slack i hbi hin
      · exact hzero i (by omega) (by omega)
  · rintro rfl
    obtain ⟨hgrow, -, rfl⟩ | ⟨q, m, bs', l, hq, -⟩ := hcase
    · refine ⟨hgrow, ?_⟩
      simp only [Client.step, e, Option.bind_eq_bind, Option.bind_some, if_neg hsize]
    · cases hq

/-- The bytes of `mm_malloc`. -/
theorem Inv.malloc_clear (hi : Inv base bs c) (size : ℕ) (grow : Bool) :
    ∃ r h', c.heap.mmMalloc grow size = some (r, h') ∧ ∀ q ∈ r, ∀ i < size, h'.mem (q + i) = .byte 0 := by
  obtain ⟨h₀, r, h', -, -, -, e, hcase⟩ := mmMalloc_spec hi.ready grow size
  refine ⟨r, h', e, ?_⟩
  rintro q rfl
  obtain ⟨hnone, -⟩ | ⟨p, hp, -, n, bs', hn, -, -, -, hzero⟩ := hcase
  · cases hnone
  · obtain rfl := Option.some.inj hp
    exact fun i hi => hzero i (Nat.lt_of_lt_of_le hi hn)

/-- **`mm_realloc` keeps data and clears growth.** After any calls with pointers that are `NULL` or live, and any writes
inside live blocks: `mm_realloc` of a live block to a positive size has a result. If that is a pointer, the bytes
there are those of the old block up to the smaller of the two sizes, and clear from the old size on; if it is `NULL`,
then `sbrk` has failed, and the block is live as before with the bytes it had. `mm_malloc` returns cleared bytes. -/
theorem realloc_contents (mem : ℕ → Cell) (brk : ℕ) (events : List ClientEvent)
    (h : (start mem brk).Respects events) :
    ∃ c, (start mem brk).run events = some c ∧
      (∀ b ∈ c.live, ∀ (size : ℕ) (grow : Bool), size ≠ 0 →
        ∃ r h', c.heap.mmRealloc grow (some b.ptr) size = some (r, h') ∧
          (∀ q ∈ r, Carries c.heap b h' q size) ∧
          (r = none → grow = false ∧ c.step (.realloc (some b.ptr) size grow) = some c)) ∧
      ∀ (size : ℕ) (grow : Bool), ∃ r h', c.heap.mmMalloc grow size = some (r, h') ∧
        ∀ q ∈ r, ∀ i < size, h'.mem (q + i) = .byte 0 := by
  obtain ⟨c, bs, e, hi⟩ := (Inv.start mem brk).run h
  refine ⟨c, e, ?_, hi.malloc_clear⟩
  intro b hb size grow hsize
  exact hi.realloc_carries hb hsize grow

/-- `realloc_contents` for the calls and writes of `threeBlocks`. -/
theorem realloc_contents_threeBlocks :
    ∃ c, (start (fun _ => .byte 1) 1000).run threeBlocks = some c ∧
      (∀ b ∈ c.live, ∀ (size : ℕ) (grow : Bool), size ≠ 0 →
        ∃ r h', c.heap.mmRealloc grow (some b.ptr) size = some (r, h') ∧
          (∀ q ∈ r, Carries c.heap b h' q size) ∧
          (r = none → grow = false ∧ c.step (.realloc (some b.ptr) size grow) = some c)) ∧
      ∀ (size : ℕ) (grow : Bool), ∃ r h', c.heap.mmMalloc grow size = some (r, h') ∧
        ∀ q ∈ r, ∀ i < size, h'.mem (q + i) = .byte 0 :=
  realloc_contents (fun _ => .byte 1) 1000 threeBlocks (by decide +kernel)

end Cs162Hw.Alloc.Client
