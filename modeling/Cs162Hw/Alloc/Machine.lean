import Cs162Hw.Library.Steps
import Cs162Hw.Alloc.Runs

/-!
# The allocator in 64 bits

`mm_malloc` and what calls it, as `hw3/mm_alloc.c` computes them on `size_t`: sums and differences of
sizes wrap around, and `sbrk` takes their bits for a signed increment. The system may refuse any
increment, and does if the break would leave memory; memory ends below the address
`(void *) -1`, which `sbrk` returns when it fails.

Where no increment is too large (`Fits`), a call is the one of `MmAlloc` (`mmMalloc_eq`), whose sizes
are natural numbers. Where one is, the call writes beyond the break (`mmMalloc_none`): the
sum has wrapped around to less than a header, or the break has moved down.

* **`malloc_served_iff`** — on any heap that calls can lead to, `mm_malloc` does what it should exactly if its
  size fits.

`merge_free_space` adds up the sizes of slots that lie end to end below the break, which cannot wrap, so that
`mm_free` is that of `MmAlloc`.
-/

namespace Cs162Hw.Alloc.Machine

open Library.Tiling Library.Steps Heap

/-! ## The calls -/

/-- `sbrk` of the bits of `n`, with what the system allows: given the break and an increment. -/
def sbrk (h : Heap) (os : ℕ → ℤ → Bool) (n : UInt64) : Option ℕ × Heap :=
  let increment := n.toInt64.toInt
  if os h.brk increment ∧ 0 ≤ h.brk + increment ∧ h.brk + increment < 2 ^ 64 - 1 then
    (some h.brk, { h with brk := (h.brk + increment).toNat })
  else (none, h)

/-- `init_malloc`. It does not look at what `sbrk` returns, and there is no slot at `-1`. -/
def initMalloc (h : Heap) (os : ℕ → ℤ → Bool) : Option Heap :=
  match sbrk h os 32 with
  | (none, _) => none
  | (some head, h) =>
    { h with isInit := true, head := some head, tail := some head }.putSlot head ⟨none, none, false, 0⟩

/-- `split_slot`. -/
def splitSlot (h : Heap) (oldSlot : ℕ) (size : UInt64) : Option Heap := do
  let old ← h.slot oldSlot
  let h ←
    if UInt64.ofNat old.size ≥ size + 36 then do
      let newSlot := oldSlot + sizeofSlot + size.toNat
      let new : Slot := ⟨some oldSlot, old.next, true, (UInt64.ofNat old.size - size - 32).toNat⟩
      let h ← h.putSlot newSlot new
      let h ← h.update oldSlot fun s => { s with next := some newSlot }
      let h ← h.relink new.next newSlot
      let h ← h.update oldSlot fun s => { s with size := size.toNat }
      h.memset (newSlot + sizeofSlot) new.size
    else some h
  let old ← h.slot oldSlot
  h.memset (oldSlot + sizeofSlot) old.size

/-- What `mm_malloc` does first. -/
def ensureInit (h : Heap) (os : ℕ → ℤ → Bool) : Option Heap := if h.isInit then some h else initMalloc h os

/-- `mm_malloc`, on a heap that is initialised. -/
def mallocSlot (h : Heap) (os : ℕ → ℤ → Bool) (size : UInt64) : Option (Option ℕ × Heap) := do
  match ← h.findListElem size.toNat with
  | some possibleSlot =>
    let h ← splitSlot h possibleSlot size
    let h ← h.update possibleSlot fun s => { s with isFree := false }
    some (some (possibleSlot + sizeofSlot), h)
  | none =>
    let tail ← h.tail
    let t ← h.slot tail
    if t.isFree then
      match sbrk h os (size - UInt64.ofNat t.size) with
      | (none, h) => some (none, h)
      | (some _, h) =>
        let h ← h.memset (tail + sizeofSlot) size.toNat
        let h ← h.update tail fun s => { s with size := size.toNat, isFree := false }
        some (some (tail + sizeofSlot), h)
    else
      match sbrk h os (32 + size) with
      | (none, h) => some (none, h)
      | (some newSlot, h) =>
        let h ← h.memset newSlot (32 + size).toNat
        let h ← h.putSlot newSlot ⟨some tail, none, false, size.toNat⟩
        let h ← h.update tail fun s => { s with next := some newSlot }
        some (some (newSlot + sizeofSlot), { h with tail := some newSlot })

/-- `mm_malloc`. -/
def mmMalloc (h : Heap) (os : ℕ → ℤ → Bool) (size : UInt64) : Option (Option ℕ × Heap) := do
  let h ← ensureInit h os
  if size = 0 then some (none, h) else mallocSlot h os size

/-- `mm_realloc`. -/
def mmRealloc (h : Heap) (os : ℕ → ℤ → Bool) (ptr : Option ℕ) (size : UInt64) : Option (Option ℕ × Heap) :=
  if size = 0 then do
    let h ← h.mmFree ptr
    some (none, h)
  else
    match ptr with
    | none => mmMalloc h os size
    | some ptr => do
      let curSlot ← h.findListElemDataLocation ptr
      let (newPtr, h) ← mmMalloc h os size
      match newPtr with
      | none => some (none, h)
      | some newPtr =>
        let cur ← h.slot (← curSlot)
        let h ← h.memcpy newPtr ptr (if size.toNat ≥ cur.size then cur.size else size.toNat)
        let h ← h.mmFree (some ptr)
        some (some newPtr, h)

/-! ## The condition -/

/-- By how much `mm_malloc` would have the break move, without wrapping around: not at all if a free slot is large
enough, else up to the end of a longer last slot, or of another slot behind it. -/
def increment (h : Heap) (size : ℕ) : Option ℕ := do
  match ← h.findListElem size with
  | some _ => none
  | none =>
    let t ← h.slot (← h.tail)
    some (if t.isFree then size - t.size else sizeofSlot + size)

/-- `sbrk` refuses these bits. -/
def Refuses (h : Heap) (os : ℕ → ℤ → Bool) (n : ℕ) : Prop := (sbrk h os (UInt64.ofNat n)).1 = none

instance (h : Heap) (os : ℕ → ℤ → Bool) (n : ℕ) : Decidable (Refuses h os n) := inferInstanceAs (Decidable (_ = none))

/-- `mm_malloc` of `size` bytes gets the first slot if there is none yet, and needs no increment of `2 ^ 63` or more that
the system would not refuse. -/
structure Fits (h : Heap) (os : ℕ → ℤ → Bool) (size : UInt64) : Prop where
  /-- The first slot. -/
  init : h.isInit = false → ¬ Refuses h os sizeofSlot
  /-- The increment. -/
  increment : size ≠ 0 → ∀ h₀ ∈ h.ensureInit, ∀ n ∈ increment h₀ size.toNat, n < 2 ^ 63 ∨ Refuses h₀ os n

/-- Whether `sbrk` succeeds if the call needs it. -/
def grows (h : Heap) (os : ℕ → ℤ → Bool) (size : ℕ) : Bool :=
  match h.ensureInit with
  | none => false
  | some h =>
    match increment h size with
    | none => false
    | some n => !decide (Refuses h os n)

/-! ## Calls that fit -/

variable {h : Heap} {base : ℕ} {bs : List Block} {os : ℕ → ℤ → Bool} {size : UInt64} {n : ℕ}

/-- The bits of a number below `2 ^ 63` are the number, those of a greater one are negative. -/
theorem signed_ofNat (hn : n < 2 ^ 64) :
    (UInt64.ofNat n).toInt64.toInt = if n < 2 ^ 63 then (n : ℤ) else n - 2 ^ 64 := by
  show BitVec.toInt (BitVec.ofNat 64 n) = _
  rw [BitVec.toInt_eq_toNat_cond, BitVec.toNat_ofNat, Nat.mod_eq_of_lt hn]
  split_ifs <;> omega

theorem sbrk_refused (hr : Refuses h os n) : sbrk h os (UInt64.ofNat n) = (none, h) := by
  rw [Refuses, sbrk] at hr
  split_ifs at hr with hacc
  exact if_neg hacc

/-- A small increment, or one that is refused: `sbrk` moves the break up or fails. -/
theorem sbrk_fits (hn : n < 2 ^ 63 ∨ Refuses h os n) :
    sbrk h os (UInt64.ofNat n) = h.sbrk (!decide (Refuses h os n)) n := by
  by_cases hr : Refuses h os n
  · rw [sbrk_refused hr, decide_eq_true hr]
    rfl
  · have hinc : (UInt64.ofNat n).toInt64.toInt = (n : ℤ) := by
      have hlt := hn.resolve_right hr
      rw [signed_ofNat (by omega), if_pos hlt]
    rw [decide_eq_false hr]
    rw [Refuses, sbrk, hinc] at hr
    rw [sbrk, hinc]
    split_ifs at hr ⊢
    · rfl
    · exact absurd rfl hr

/-- A large one that is not refused: the break moves down, or by less than a header. -/
theorem sbrk_large (hn : 2 ^ 63 ≤ n) (hn' : n < 2 ^ 64 + sizeofSlot) (hr : ¬ Refuses h os n) :
    ∃ b, sbrk h os (UInt64.ofNat n) = (some h.brk, { h with brk := b }) ∧ b < h.brk + sizeofSlot ∧
      (n < 2 ^ 64 → b < h.brk) := by
  obtain ⟨k, hk⟩ : ∃ k, (UInt64.ofNat n).toInt64.toInt = k := ⟨_, rfl⟩
  have hlt : k < sizeofSlot ∧ (n < 2 ^ 64 → k < 0) := by
    rw [← hk]
    by_cases hwrap : n < 2 ^ 64
    · rw [signed_ofNat hwrap, if_neg (by omega)]
      simp only [sizeofSlot]
      omega
    · have hmod : UInt64.ofNat n = UInt64.ofNat (n - 2 ^ 64) := by
        refine UInt64.toNat_inj.mp ?_
        rw [UInt64.toNat_ofNat', UInt64.toNat_ofNat']
        omega
      simp only [sizeofSlot] at hn' ⊢
      rw [hmod, signed_ofNat (by omega), if_pos (by omega)]
      omega
  rw [Refuses, sbrk, hk] at hr
  rw [sbrk, hk]
  by_cases hacc : os h.brk k = true ∧ 0 ≤ (h.brk : ℤ) + k ∧ (h.brk : ℤ) + k < 2 ^ 64 - 1
  · refine ⟨_, if_pos hacc, ?_, fun hwrap => ?_⟩
    · omega
    · have := hlt.2 hwrap
      omega
  · exact absurd (by rw [if_neg hacc]) hr

theorem initMalloc_eq (hr : ¬ Refuses h os sizeofSlot) : initMalloc h os = h.initMalloc := by
  have hsbrk : sbrk h os 32 = h.sbrk true 32 := by
    refine (sbrk_fits (.inl (by decide))).trans ?_
    rw [show decide (Refuses h os 32) = false from decide_eq_false hr]
    rfl
  rw [initMalloc, hsbrk]
  rfl

theorem initMalloc_none (hr : Refuses h os sizeofSlot) : initMalloc h os = none := by
  have hsbrk : (sbrk h os 32).1 = none := hr
  rw [initMalloc]
  split
  · rfl
  · next heq => rw [heq] at hsbrk; cases hsbrk

/-- `split_slot` of a slot below the end of memory: its test does not wrap around. -/
theorem splitSlot_eq {x : ℕ} {old : Slot} (hold : h.slot x = some old) (hsize : size.toNat ≤ old.size)
    (hlt : old.size + minNewSize < 2 ^ 64) : splitSlot h x size = h.splitSlot x size.toNat := by
  simp only [minNewSize, sizeofSlot] at hlt
  have hadd : (size + 36).toNat = size.toNat + 36 := by
    rw [UInt64.toNat_add]
    exact Nat.mod_eq_of_lt (by simp only [UInt64.reduceToNat]; omega)
  have hof : (UInt64.ofNat old.size).toNat = old.size := UInt64.toNat_ofNat_of_lt' (by simp only [UInt64.size]; omega)
  have htest : UInt64.ofNat old.size ≥ size + 36 ↔ old.size ≥ size.toNat + minNewSize := by
    rw [ge_iff_le, UInt64.le_iff_toNat_le, hadd, hof]
    rfl
  rw [splitSlot, Heap.splitSlot, hold]
  simp only [Option.bind_eq_bind, Option.bind_some]
  by_cases hbig : old.size ≥ size.toNat + minNewSize
  · have hrest : (UInt64.ofNat old.size - size - 32).toNat = old.size - size.toNat - sizeofSlot := by
      simp only [minNewSize, sizeofSlot] at hbig ⊢
      rw [UInt64.toNat_sub, UInt64.toNat_sub, hof]
      simp only [UInt64.reduceToNat]
      omega
    rw [if_pos (htest.mpr hbig), if_pos hbig, hrest]
  · rw [if_neg (mt htest.mp hbig), if_neg hbig]

/-- What the two sums that are passed to `sbrk` are without wrapping around. -/
theorem ofNat_append : UInt64.ofNat (sizeofSlot + size.toNat) = 32 + size := by
  refine UInt64.toNat_inj.mp ?_
  rw [UInt64.toNat_ofNat', UInt64.toNat_add]
  rfl

theorem ofNat_extend {t : ℕ} (ht : t ≤ size.toNat) : UInt64.ofNat (size.toNat - t) = size - UInt64.ofNat t := by
  refine UInt64.toNat_inj.mp ?_
  have hlt := size.toNat_lt
  rw [UInt64.toNat_ofNat', UInt64.toNat_sub, UInt64.toNat_ofNat']
  omega

/-- **A call that fits** is the call on natural numbers. -/
theorem mallocSlot_eq (ht : h.Tiles base bs) (hbrk : h.brk < 2 ^ 64)
    (hfits : ∀ n ∈ increment h size.toNat, n < 2 ^ 63 ∨ Refuses h os n) :
    mallocSlot h os size = h.mallocSlot (grows h os size.toNat) size.toNat := by
  have hgrows : ∀ n, increment h size.toNat = some n → grows h os size.toNat = !decide (Refuses h os n) := by
    intro n hn
    simp only [grows, ht.ensureInit, hn]
  rcases room_cases ht size.toNat with ⟨pre, b, post, rfl, hfree, hsize, efind⟩ | ⟨efind, pre, b, hpre, htail, hb, hlast⟩
  · -- a free slot lies behind the first and below the break
    obtain ⟨hr, -⟩ := tiles_iff.mp ht
    obtain ⟨hb, -, -, hend⟩ := hr.around
    have hle : sizeofSlot ≤ stop base (sentinel :: pre) := by
      have : base + width sentinel ≤ stop base (sentinel :: pre) := le_stop
      simp only [width_eq] at this
      omega
    have hsplit := @splitSlot_eq h size (stop base (sentinel :: pre)) _ hb hsize (by
      simp only [width_eq, minNewSize, sizeofSlot] at hend hle ⊢
      omega)
    rw [mallocSlot, Heap.mallocSlot, efind]
    simp only [Option.bind_eq_bind, Option.bind_some, hsplit]
  · have hinc : increment h size.toNat = some (if b.isFree then size.toNat - b.size else sizeofSlot + size.toNat) := by
      simp only [increment, efind, htail, hb, Option.bind_eq_bind, Option.bind_some]
    rw [mallocSlot, Heap.mallocSlot, efind]
    simp only [Option.bind_eq_bind, Option.bind_some, htail, hb]
    rw [hgrows _ hinc]
    have hsbrk := sbrk_fits (hfits _ hinc)
    cases hfree : b.isFree with
    | true =>
      rw [hfree, if_pos rfl, ofNat_extend (hlast hfree).1.le] at hsbrk
      rewrite [if_pos rfl, if_pos rfl, hsbrk]
      rfl
    | false =>
      have hfits := hfits _ hinc
      rw [hfree, if_neg Bool.false_ne_true] at hsbrk hfits
      rw [ofNat_append] at hsbrk
      simp only [Bool.false_eq_true, if_false, hsbrk]
      by_cases hr : Refuses h os (sizeofSlot + size.toNat)
      · rw [decide_eq_true hr]
        rfl
      · have hlen : (32 + size).toNat = sizeofSlot + size.toNat := by
          have hlt := hfits.resolve_right hr
          rw [UInt64.toNat_add]
          exact Nat.mod_eq_of_lt (by simp only [sizeofSlot, UInt64.reduceToNat] at hlt ⊢; omega)
        rewrite [hlen]
        rfl

/-- A small increment that is not refused leaves the break in memory. -/
theorem brk_lt (hn : n < 2 ^ 63) (hr : ¬ Refuses h os n) : h.brk + n < 2 ^ 64 - 1 := by
  rw [Refuses, sbrk, signed_ofNat (by omega), if_pos hn] at hr
  split_ifs at hr with hacc
  · omega
  · exact absurd rfl hr

/-- What `mm_malloc` does first. -/
theorem ensureInit_eq (hr : h.Ready base bs) (hinit : h.isInit = false → ¬ Refuses h os sizeofSlot)
    (hbrk : h.brk < 2 ^ 64 - 1) :
    ∃ h₀, ensureInit h os = some h₀ ∧ h.ensureInit = some h₀ ∧ h₀.Tiles base bs ∧ h.brk ≤ h₀.brk ∧
      h₀.brk < 2 ^ 64 - 1 := by
  obtain ⟨h₀, e₀, ht, -⟩ := hr.ensureInit
  cases hi : h.isInit with
  | true =>
    rw [Heap.ensureInit, if_pos hi] at e₀
    obtain rfl := Option.some.inj e₀
    exact ⟨h, by rw [ensureInit, if_pos hi], ht.ensureInit, ht, le_rfl, hbrk⟩
  | false =>
    refine ⟨h₀, ?_, e₀, ht, ?_⟩
    · rw [ensureInit, hi, initMalloc_eq (hinit hi), ← e₀, Heap.ensureInit, hi]
    · obtain ⟨-, -, rfl, rfl⟩ := hr.resolve_right fun ht => by
        rw [ht.isInit] at hi
        cases hi
      have hstop : h.brk + sizeofSlot = h₀.brk := ht.brk
      have hlt := brk_lt (by decide) (hinit hi)
      omega

theorem grows_eq {h₀ : Heap} (e₀ : h.ensureInit = some h₀) (ht : h₀.Tiles base bs) :
    grows h os n = grows h₀ os n := by
  rw [grows, grows, e₀, ht.ensureInit]

/-- **`mm_malloc`** of what fits. -/
theorem mmMalloc_eq (hr : h.Ready base bs) (hbrk : h.brk < 2 ^ 64 - 1) (hf : Fits h os size) :
    mmMalloc h os size = h.mmMalloc (grows h os size.toNat) size.toNat := by
  obtain ⟨h₀, e, e₀, ht, -, hbrk₀⟩ := ensureInit_eq hr hf.init hbrk
  rw [mmMalloc, Heap.mmMalloc, e, e₀]
  simp only [Option.bind_eq_bind, Option.bind_some]
  by_cases hsize : size = 0
  · rw [if_pos hsize, if_pos (by rw [hsize]; rfl)]
  · have hne : size.toNat ≠ 0 := fun h0 => hsize (UInt64.toNat_inj.mp h0)
    rw [if_neg hsize, if_neg hne, grows_eq e₀ ht]
    exact mallocSlot_eq ht (by omega) (hf.increment hsize h₀ e₀)

/-- A call with too large an increment writes beyond the break. -/
theorem mallocSlot_none (ht : h.Tiles base bs) (hn : n ∈ increment h size.toNat) (hlarge : 2 ^ 63 ≤ n)
    (hr : ¬ Refuses h os n) : mallocSlot h os size = none := by
  have hlt := size.toNat_lt
  rcases room_cases ht size.toNat with ⟨pre, b, post, -, -, -, efind⟩ | ⟨efind, pre, b, hpre, htail, hb, hlast⟩
  · simp only [increment, efind, Option.bind_eq_bind, Option.bind_some, Option.mem_def, reduceCtorEq] at hn
  · simp only [increment, efind, htail, hb, Option.bind_eq_bind, Option.bind_some, Option.mem_def,
      Option.some.injEq] at hn
    rw [mallocSlot, efind]
    simp only [Option.bind_eq_bind, Option.bind_some, htail, hb]
    cases hfree : b.isFree with
    | true =>
      rw [hfree, if_pos rfl] at hn
      obtain ⟨hsize, pre, rfl, rfl⟩ := hlast hfree
      have hend : stop base (sentinel :: pre) + width b = h.brk := by
        have := ht.brk
        rwa [List.append_nil, ← List.cons_append, stop_append] at this
      obtain ⟨b', hsbrk, -, hb'⟩ := sbrk_large hlarge (by omega) hr
      rw [← hn, ofNat_extend hsize.le] at hsbrk
      have hdown := hb' (by omega)
      have hout : ¬ stop base (sentinel :: pre) + sizeofSlot + size.toNat ≤ b' := by
        rw [width_eq] at hend
        omega
      simp only [if_true, hsbrk, memset, if_neg hout, Option.bind_none]
    | false =>
      -- there is no room for another header
      rw [hfree, if_neg Bool.false_ne_true] at hn
      obtain ⟨b', hsbrk, hb', -⟩ := sbrk_large hlarge (by simp only [sizeofSlot] at hn ⊢; omega) hr
      rw [← hn, ofNat_append] at hsbrk
      simp only [Bool.false_eq_true, if_false, hsbrk, memset]
      split_ifs
      · simp only [Option.bind_some, putSlot, if_neg (Nat.not_le.mpr hb'), Option.bind_none]
      · rfl

/-- **`mm_malloc`** of what does not fit. -/
theorem mmMalloc_none (hr : h.Ready base bs) (hbrk : h.brk < 2 ^ 64 - 1) (hf : ¬ Fits h os size) :
    mmMalloc h os size = none := by
  by_cases hinit : h.isInit = false → ¬ Refuses h os sizeofSlot
  · obtain ⟨h₀, e, e₀, ht, -, -⟩ := ensureInit_eq hr hinit hbrk
    have hbig : ¬ (size ≠ 0 → ∀ h₀ ∈ h.ensureInit, ∀ n ∈ increment h₀ size.toNat, n < 2 ^ 63 ∨ Refuses h₀ os n) :=
      fun hinc => hf ⟨hinit, hinc⟩
    push Not at hbig
    obtain ⟨hsize, h₀', e₀', n, hn, hlarge, hr⟩ := hbig
    obtain rfl := Option.some.inj (e₀.symm.trans e₀')
    rw [mmMalloc, e]
    simp only [Option.bind_eq_bind, Option.bind_some, if_neg hsize]
    exact mallocSlot_none ht hn hlarge hr
  · push Not at hinit
    rw [mmMalloc, ensureInit, hinit.1, if_neg Bool.false_ne_true, initMalloc_none hinit.2]
    rfl

/-! ## A client -/

/-- What a client does, and in a call what the system allows. -/
inductive Event where
  /-- `mm_malloc`. -/
  | malloc (size : UInt64) (os : ℕ → ℤ → Bool)
  /-- `mm_realloc`. -/
  | realloc (ptr : Option ℕ) (size : UInt64) (os : ℕ → ℤ → Bool)
  /-- `mm_free`. -/
  | free (ptr : Option ℕ)
  /-- Write a byte. -/
  | write (ptr offset : ℕ) (value : UInt8)

/-- The same on natural numbers. -/
def Event.plain (h : Heap) : Event → ClientEvent
  | .malloc size os => .malloc size.toNat (grows h os size.toNat)
  | .realloc ptr size os => .realloc ptr size.toNat (grows h os size.toNat)
  | .free ptr => .free ptr
  | .write ptr offset value => .write ptr offset value

/-- The sizes fit. -/
def Event.Fits (h : Heap) : Event → Prop
  | .malloc size os => Machine.Fits h os size
  | .realloc _ size os => size ≠ 0 → Machine.Fits h os size
  | .free _ => True
  | .write _ _ _ => True

/-- One call or write. -/
def step (c : Client) : Event → Option Client
  | .malloc size os => do
    let (r, heap) ← mmMalloc c.heap os size
    some ⟨heap, match r with
      | none => c.live
      | some p => ⟨p, size.toNat, fun _ => none⟩ :: c.live⟩
  | .realloc ptr size os => do
    let (r, heap) ← mmRealloc c.heap os ptr size
    some ⟨heap, match r with
      | none => if size = 0 then c.without ptr else c.live
      | some p => c.moved ptr p size.toNat :: c.without ptr⟩
  | .free ptr => do
    let heap ← c.heap.mmFree ptr
    some ⟨heap, c.without ptr⟩
  | .write ptr offset value => c.step (.write ptr offset value)

/-- The pointer is `NULL` or live, and a write is inside a block. -/
def Allowed (c : Client) (e : Event) : Prop := c.Allowed (e.plain c.heap)

instance (c : Client) (e : Event) : Decidable (Allowed c e) := inferInstanceAs (Decidable (c.Allowed _))

/-- Every call and write is allowed when it is made. -/
abbrev Respects : Client → List Event → Prop := Along step Allowed

variable {c c' : Client} {e : Event}

/-- `mm_realloc` of what fits. -/
theorem mmRealloc_eq (hr : h.Ready base bs) (hbrk : h.brk < 2 ^ 64 - 1) (ptr : Option ℕ)
    (hf : size ≠ 0 → Fits h os size) :
    mmRealloc h os ptr size = h.mmRealloc (grows h os size.toNat) ptr size.toNat := by
  rw [mmRealloc.eq_def, Heap.mmRealloc.eq_def]
  by_cases hsize : size = 0
  · rw [if_pos hsize, if_pos (by rw [hsize]; rfl)]
  · have hne : size.toNat ≠ 0 := fun h0 => hsize (UInt64.toNat_inj.mp h0)
    rewrite [if_neg hsize, if_neg hne, mmMalloc_eq hr hbrk (hf hsize)]
    rfl

/-- `mm_realloc` of what does not. -/
theorem mmRealloc_none (hr : h.Ready base bs) (hbrk : h.brk < 2 ^ 64 - 1) (ptr : Option ℕ) (hsize : size ≠ 0)
    (hf : ¬ Fits h os size) : mmRealloc h os ptr size = none := by
  rw [mmRealloc.eq_def, if_neg hsize]
  cases ptr with
  | none => exact mmMalloc_none hr hbrk hf
  | some p =>
    simp only [mmMalloc_none hr hbrk hf, Option.bind_eq_bind, Option.bind_none]
    exact Option.bind_fun_none _

/-- **A step that fits** is the step on natural numbers, and there is no other. -/
theorem step_eq_some_iff (hi : Client.Inv base bs c) (hbrk : c.heap.brk < 2 ^ 64 - 1) :
    step c e = some c' ↔ e.Fits c.heap ∧ c.step (e.plain c.heap) = some c' := by
  have hzero : ∀ {size : UInt64}, size.toNat = 0 ↔ size = 0 := UInt64.toNat_inj (b := 0)
  cases e with
  | malloc size os =>
    by_cases hf : Fits c.heap os size
    · rw [step, mmMalloc_eq hi.ready hbrk hf]
      exact (and_iff_right hf).symm
    · rw [step, mmMalloc_none hi.ready hbrk hf]
      exact iff_of_false (Option.some_ne_none _).symm fun h => hf h.1
  | realloc ptr size os =>
    by_cases hf : size ≠ 0 → Fits c.heap os size
    · rw [step, mmRealloc_eq hi.ready hbrk ptr hf]
      refine Iff.trans ?_ (and_iff_right hf).symm
      refine Iff.of_eq (congrArg (· = some c') (Option.bind_congr ?_))
      rintro ⟨_ | p, h⟩ -
      · simp only [hzero]
      · rfl
    · have hnot : size ≠ 0 ∧ ¬ Fits c.heap os size := by
        push Not at hf
        exact hf
      rw [step, mmRealloc_none hi.ready hbrk ptr hnot.1 hnot.2]
      exact iff_of_false (Option.some_ne_none _).symm fun h => hf h.1
  | free ptr => exact (and_iff_right trivial).symm
  | write ptr offset value => exact (and_iff_right trivial).symm

/-! ## The break -/

theorem mmMalloc_brk {r : Option ℕ} {h' : Heap} (hr : h.Ready base bs) (hbrk : h.brk < 2 ^ 64 - 1)
    (hf : Fits h os size) (e : mmMalloc h os size = some (r, h')) : h.brk ≤ h'.brk ∧ h'.brk < 2 ^ 64 - 1 := by
  obtain ⟨h₀, -, e₀, ht, hle, hbrk₀⟩ := ensureInit_eq hr hf.init hbrk
  rw [mmMalloc_eq hr hbrk hf, Heap.mmMalloc, e₀, grows_eq e₀ ht] at e
  simp only [Option.bind_eq_bind, Option.bind_some] at e
  split_ifs at e with hzero
  · obtain ⟨-, rfl⟩ := Prod.mk.inj (Option.some.inj e)
    exact ⟨hle, hbrk₀⟩
  · have hsize : size ≠ 0 := fun h0 => hzero (by rw [h0]; rfl)
    have hgrown : ∀ n, increment h₀ size.toNat = some n → grows h₀ os size.toNat = true → h₀.brk + n < 2 ^ 64 - 1 := by
      intro n hn hgrow
      simp only [grows, ht.ensureInit, hn, Bool.not_eq_true', decide_eq_false_iff_not] at hgrow
      exact brk_lt ((hf.increment hsize h₀ e₀ n hn).resolve_right hgrow) hgrow
    obtain ⟨r', h'', e', ho⟩ := mallocSlot_outcome ht (grows h₀ os size.toNat) size.toNat
    obtain ⟨rfl, rfl⟩ := Prod.mk.inj (Option.some.inj (e'.symm.trans e))
    cases ho with
    | refused => exact ⟨hle, hbrk₀⟩
    | fit _ _ _ _ hg => exact ⟨by rw [hg.1]; exact hle, by rw [hg.1]; exact hbrk₀⟩
    | extend hbs hfree hsize' hfind htail hgrow hg =>
      rw [hg.1]
      refine ⟨by omega, hgrown _ ?_ hgrow⟩
      obtain ⟨hr, -⟩ := tiles_iff.mp (hbs ▸ ht)
      simp only [increment, hfind, htail, hr.around.1, hfree, Option.bind_eq_bind, Option.bind_some, if_true]
    | append hfind htail hslot hused hgrow hg =>
      rw [hg.1]
      refine ⟨by omega, hgrown _ ?_ hgrow⟩
      simp only [increment, hfind, htail, hslot, hused, Option.bind_eq_bind, Option.bind_some, Bool.false_eq_true,
        if_false]

theorem mmFree_brk (hi : Client.Inv base bs c) {ptr : Option ℕ} (ha : ∀ p ∈ ptr, ∃ b ∈ c.live, b.ptr = p) {h' : Heap}
    (e : c.heap.mmFree ptr = some h') : h'.brk = c.heap.brk := by
  cases ptr with
  | none =>
    obtain rfl := Option.some.inj e
    rfl
  | some p =>
    obtain ⟨b, hb, rfl⟩ := ha p rfl
    obtain ⟨n, hn, -⟩ := hi.sits b hb
    obtain ⟨h'', bs', e', -, -, -, hbrk⟩ := mmFree_spec (hi.tiles hb) hn
    obtain rfl := Option.some.inj (e'.symm.trans e)
    exact hbrk

theorem mmRealloc_brk (hi : Client.Inv base bs c) (hbrk : c.heap.brk < 2 ^ 64 - 1) {ptr r : Option ℕ}
    (ha : ∀ p ∈ ptr, ∃ b ∈ c.live, b.ptr = p) (hf : size ≠ 0 → Fits c.heap os size) {h' : Heap}
    (e : mmRealloc c.heap os ptr size = some (r, h')) : h'.brk < 2 ^ 64 - 1 := by
  by_cases hsize : size = 0
  · rw [mmRealloc.eq_def, if_pos hsize] at e
    obtain ⟨h'', e', he⟩ := Option.bind_eq_some_iff.mp e
    obtain ⟨-, rfl⟩ := Prod.mk.inj (Option.some.inj he)
    rw [mmFree_brk hi ha e']
    exact hbrk
  · have hne : size.toNat ≠ 0 := fun h0 => hsize (UInt64.toNat_inj.mp h0)
    have hf := hf hsize
    cases ptr with
    | none =>
      rw [mmRealloc.eq_def, if_neg hsize] at e
      exact (mmMalloc_brk hi.ready hbrk hf e).2
    | some p =>
      obtain ⟨b, hb, rfl⟩ := ha p rfl
      obtain ⟨n, hn, -⟩ := hi.sits b hb
      rw [mmRealloc_eq hi.ready hbrk _ fun _ => hf] at e
      obtain ⟨h₀, r₁, h₁, -, -, -, e₁, hcase⟩ := mmMalloc_spec hi.ready (grows c.heap os size.toNat) size.toNat
      have hbrk₁ := (mmMalloc_brk hi.ready hbrk hf ((mmMalloc_eq hi.ready hbrk hf).trans e₁)).2
      rcases hcase with ⟨rfl, -, -⟩ | ⟨q, rfl, -, m, bs₁, hm, ht₁, hperm₁, -, -⟩
      · obtain ⟨-, rfl⟩ := Prod.mk.inj (Option.some.inj ((mmRealloc_null (hi.tiles hb) hn hne e₁).symm.trans e))
        exact hbrk₁
      · obtain ⟨h₂, h₃, bs', e₃, -, -, -, -, -, hbrk₃⟩ := mmRealloc_moves (hi.tiles hb) hn hne e₁ hm ht₁ hperm₁
        obtain ⟨-, rfl⟩ := Prod.mk.inj (Option.some.inj (e₃.symm.trans e))
        rw [hbrk₃]
        exact hbrk₁

/-! ## Runs -/

/-- What holds on the machine at any time. -/
structure Inv (base : ℕ) (bs : List Block) (c : Client) : Prop extends Client.Inv base bs c where
  /-- The break is in memory. -/
  brk : c.heap.brk < 2 ^ 64 - 1

/-- **One call or write** that has a result. -/
theorem Inv.step (hi : Inv base bs c) (ha : Allowed c e) (hs : step c e = some c') :
    e.Fits c.heap ∧ c.step (e.plain c.heap) = some c' ∧ ∃ bs', Inv base bs' c' := by
  obtain ⟨hf, hs'⟩ := (step_eq_some_iff hi.toInv hi.brk).mp hs
  obtain ⟨c'', e', ⟨bs', hi'⟩, -⟩ := hi.toInv.step ha
  obtain rfl := Option.some.inj (e'.symm.trans hs')
  refine ⟨hf, hs', bs', hi', ?_⟩
  cases e with
  | malloc size os =>
    obtain ⟨⟨r, h'⟩, em, he⟩ := Option.bind_eq_some_iff.mp hs
    rw [← Option.some.inj he]
    exact (mmMalloc_brk hi.ready hi.brk hf em).2
  | realloc ptr size os =>
    obtain ⟨⟨r, h'⟩, em, he⟩ := Option.bind_eq_some_iff.mp hs
    rw [← Option.some.inj he]
    exact mmRealloc_brk hi.toInv hi.brk ha hf em
  | free ptr =>
    obtain ⟨h', em, he⟩ := Option.bind_eq_some_iff.mp hs
    rw [← Option.some.inj he, mmFree_brk hi.toInv ha em]
    exact hi.brk
  | write ptr offset value =>
    rw [← Option.some.inj hs']
    exact hi.brk

/-- Calls and writes in a row. -/
theorem Inv.run {events : List Event} (hi : Inv base bs c) (hr : Respects c events)
    (hrun : Library.Steps.run Machine.step c events = some c') : ∃ bs', Inv base bs' c' := by
  refine hr.run_invariant (I := fun c => ∃ bs, Inv base bs c) ⟨bs, hi⟩ ?_ hrun
  rintro c e c' ⟨bs, hi⟩ ha hs
  exact (hi.step ha hs).2.2

theorem Inv.start (mem : ℕ → Cell) {brk : ℕ} (hbrk : brk < 2 ^ 64 - 1) : Inv brk [] (Client.start mem brk) :=
  ⟨Client.Inv.start mem brk, hbrk⟩

/-! ## What `mm_malloc` should do -/

/-- `mm_malloc` has returned `NULL` and left the heap as it was, but for its initialisation, or a block of `size` bytes at
least inside a heap that is tiled. -/
structure Served (base : ℕ) (c : Client) (size : ℕ) (r : Option ℕ) (h' : Heap) : Prop where
  /-- The slots tile the heap, and the block is one more. -/
  tiled : ∃ slots, h'.slots = some slots ∧ h'.Tiled base (r.toList ++ c.live.map LiveBlock.ptr) slots
  /-- `NULL`. -/
  null : r = none → c.heap.ensureInit = some h' ∧ (c.heap.isInit = true → h' = c.heap)
  /-- A block. -/
  block : ∀ p ∈ r, ∃ x s, p = x + sizeofSlot ∧ h'.slot x = some s ∧ size ≤ s.size ∧ base ≤ x ∧ p + s.size ≤ h'.brk
  /-- The break has not moved down, and is in memory. -/
  brk : c.heap.brk ≤ h'.brk ∧ h'.brk < 2 ^ 64 - 1

theorem Inv.served (hi : Inv base bs c) (hf : Fits c.heap os size) :
    ∃ r h', mmMalloc c.heap os size = some (r, h') ∧ Served base c size.toNat r h' := by
  obtain ⟨h₀, r, h', e₀, ht₀, -, e, hcase⟩ := mmMalloc_spec hi.ready (grows c.heap os size.toNat) size.toNat
  rw [← mmMalloc_eq hi.ready hi.brk hf] at e
  refine ⟨r, h', e, ?_, ?_, ?_, mmMalloc_brk hi.ready hi.brk hf e⟩
  · rcases hcase with ⟨rfl, rfl, -⟩ | ⟨p, rfl, -, n, bs', hn, ht', hperm, -, -⟩
    · exact ⟨_, ht₀.toRep.slots_eq, ht₀.tiled hi.live⟩
    · refine ⟨_, ht'.toRep.slots_eq, ht'.tiled ?_⟩
      exact (hi.live.cons p).trans (hperm.map Prod.fst).symm
  · rintro rfl
    rcases hcase with ⟨-, rfl, -⟩ | ⟨p, hp, -⟩
    · refine ⟨e₀, fun hinit => ?_⟩
      rw [Heap.ensureInit, if_pos hinit] at e₀
      exact (Option.some.inj e₀).symm
    · cases hp
  · rintro p rfl
    rcases hcase with ⟨hp, -⟩ | ⟨q, hq, -, n, bs', hn, ht', hperm, -, -⟩
    · cases hp
    · obtain rfl := Option.some.inj hq
      obtain ⟨pre, b, post, rfl, -, hpn⟩ := mem_inUse.mp (hperm.symm.subset List.mem_cons_self)
      obtain ⟨rfl, rfl⟩ := Prod.mk.inj hpn
      obtain ⟨hb, -, -, hend⟩ := (tiles_iff.mp ht').1.around
      refine ⟨_, _, rfl, hb, hn, le_stop, ?_⟩
      show stop base (sentinel :: pre) + sizeofSlot + b.size ≤ h'.brk
      rw [width_eq] at hend
      omega

/-- **When `mm_malloc` does what it should.** On any heap that calls with pointers that are `NULL` or live, and writes inside
live blocks, have led to, whatever the system has allowed: `mm_malloc` of any `size_t` returns `NULL` and changes
nothing, or a block of that size inside a longer heap that is tiled, exactly if its size fits. -/
theorem malloc_served_iff (mem : ℕ → Cell) (brk : ℕ) (events : List Event) (c : Client) (hbrk : brk < 2 ^ 64 - 1)
    (h : Respects (Client.start mem brk) events) (hrun : run step (Client.start mem brk) events = some c)
    (os : ℕ → ℤ → Bool) (size : UInt64) :
    (∃ r h', mmMalloc c.heap os size = some (r, h') ∧ Served brk c size.toNat r h') ↔ Fits c.heap os size := by
  obtain ⟨bs, hi⟩ := (Inv.start mem hbrk).run h hrun
  constructor
  · rintro ⟨r, h', e, -⟩
    by_contra hf
    rw [mmMalloc_none hi.ready hi.brk hf] at e
    cases e
  · exact hi.served

/-- Two blocks, the first of them freed. -/
def freedBlock : List Event :=
  [.malloc 40 fun _ _ => true, .malloc 8 fun _ _ => true, .free (some 1064)]

theorem freedBlock_run : (run step (Client.start (fun _ => .byte 1) 1000) freedBlock).isSome = true := by decide +kernel

/-- `malloc_served_iff` behind them. -/
theorem malloc_served_iff_freedBlock :
    ∃ c, run step (Client.start (fun _ => .byte 1) 1000) freedBlock = some c ∧
      ((∃ r h', mmMalloc c.heap (fun _ _ => true) 16 = some (r, h') ∧ Served 1000 c (16 : UInt64).toNat r h') ↔
        Fits c.heap (fun _ _ => true) 16) :=
  ⟨_, (Option.some_get freedBlock_run).symm, malloc_served_iff (fun _ => .byte 1) 1000 freedBlock _ (by decide)
    (by decide +kernel) (Option.some_get freedBlock_run).symm (fun _ _ => true) 16⟩

/-- `mm_malloc(2^64 - 32)` behind them: `sbrk(0)` succeeds, and the header of the block lies beyond the break. -/
theorem malloc_wraps :
    Respects (Client.start (fun _ => .byte 1) 1000) freedBlock ∧
      ∃ c, run step (Client.start (fun _ => .byte 1) 1000) freedBlock = some c ∧
        ¬ ∃ r h', mmMalloc c.heap (fun _ _ => true) 18446744073709551584 = some (r, h') ∧
          Served 1000 c (18446744073709551584 : UInt64).toNat r h' := by
  refine ⟨by decide +kernel, _, (Option.some_get freedBlock_run).symm, ?_⟩
  rintro ⟨r, h', e, -⟩
  have hnone : ((run step (Client.start (fun _ => .byte 1) 1000) freedBlock).bind fun c =>
      mmMalloc c.heap (fun _ _ => true) 18446744073709551584) = none := by decide +kernel
  rw [← Option.some_get freedBlock_run, Option.bind_some, e] at hnone
  cases hnone

end Cs162Hw.Alloc.Machine
