import Cs162Hw.Alloc.Machine

/-!
# Alignment

The allocator is a clone of `malloc`, but it puts blocks wherever the last one ends: a block whose size is not a
multiple of 8 leaves what comes behind it unaligned. That happens in two places only (`Round`): where `split_slot`
cuts a slot in two, and where `mm_malloc` has the heap end with a used slot and puts another behind it.

* **`blocks_aligned_iff`** — in a run of calls from an aligned break all slots and blocks are aligned at any time exactly
  if each call avoids that.

In a heap without two free neighbours, the headers are known from the used blocks and the break: each is before a used
block or behind one (`alignedSlots_iff`).
-/

namespace Cs162Hw.Alloc

open Library.Tiling Library.Steps

namespace Heap

/-- All slots begin at multiples of 8. -/
def AlignedSlots (h : Heap) : Prop := ∀ slots, h.slots = some slots → ∀ p ∈ slots, 8 ∣ p.1

/-- A used block and what comes behind it begin at multiples of 8. -/
def AlignedTo (brk : ℕ) (p : ℕ × ℕ) : Prop := 8 ∣ p.1 ∧ (p.1 + p.2 < brk → 8 ∣ p.1 + p.2)

/-- `mm_malloc` of `size` bytes on a heap that is initialised puts no slot where it is not aligned. -/
structure Round (h : Heap) (grow : Bool) (size : ℕ) : Prop where
  /-- A slot that is split. -/
  split : ∀ x s, h.findListElem size = some (some x) → h.slot x = some s → size + minNewSize ≤ s.size → 8 ∣ size
  /-- A slot behind the last. -/
  append : ∀ tail s, h.findListElem size = some none → h.tail = some tail → h.slot tail = some s → s.isFree = false →
    grow = true → 8 ∣ h.brk

variable {h h' : Heap} {base size : ℕ} {grow : Bool} {bs pre post : List Block} {b : Block}

/-- Where the blocks of a heap begin. -/
theorem alignedSlots_iff_place (ht : h.Tiles base bs) :
    h.AlignedSlots ↔ ∀ pre b post, sentinel :: bs = pre ++ b :: post → 8 ∣ stop base pre := by
  constructor
  · intro ha pre b post hbs
    obtain ⟨s, hs⟩ : ∃ s, (stop base pre, s) ∈ headers none base none (sentinel :: bs) := by
      rw [hbs, headers_append, headers_cons]
      exact ⟨_, List.mem_append_right _ List.mem_cons_self⟩
    exact ha _ ht.toRep.slots_eq _ hs
  · rintro ha slots hslots ⟨x, s⟩ hp
    obtain rfl := Option.some.inj (hslots.symm.trans ht.toRep.slots_eq)
    obtain ⟨pre, b, post, hbs, rfl, -, -⟩ := mem_headers hp
    exact ha pre b post hbs

/-- Then every block has what comes behind it aligned. -/
theorem alignedTo_of_place (hr : h.Rep base (sentinel :: (pre ++ [b] ++ post)))
    (ha : ∀ pre' b' post', sentinel :: (pre ++ [b] ++ post) = pre' ++ b' :: post' → 8 ∣ stop base pre') :
    AlignedTo h.brk (stop base (sentinel :: pre) + sizeofSlot, b.size) := by
  refine ⟨Nat.dvd_add (ha (sentinel :: pre) b post (by simp)) (by decide), fun hlt => ?_⟩
  cases post with
  | nil =>
    have hbrk := hr.brk
    rw [List.append_nil, ← List.cons_append, stop_append, stop_cons, stop_nil, width_eq] at hbrk
    simp only at hlt
    omega
  | cons c post =>
    have hnext := ha (sentinel :: pre ++ [b]) c post (by simp)
    rwa [stop_append, stop_cons, stop_nil, width_eq, ← Nat.add_assoc] at hnext

/-- **The used blocks are enough.** -/
theorem alignedSlots_iff (ht : h.Tiles base bs) (h8 : 8 ∣ base) :
    h.AlignedSlots ↔ ∀ p ∈ inUse base bs, AlignedTo h.brk p := by
  have h32 : 8 ∣ sizeofSlot := by decide
  rw [alignedSlots_iff_place ht]
  constructor
  · intro ha p hp
    obtain ⟨pre, b, post, rfl, -, rfl⟩ := mem_inUse.mp hp
    exact alignedTo_of_place ht.toRep ha
  · intro ha pre b post hbs
    rcases List.eq_nil_or_concat' pre with rfl | ⟨pre, c, rfl⟩
    · exact h8
    · -- the block or the one before it is used
      have hcoal := ht.coalesced
      rw [hbs, List.append_assoc] at hcoal
      have hpair := (List.isChain_cons_cons.mp (List.isChain_append.mp hcoal).2.1).1
      have hmem : ∀ pre' b' post', sentinel :: bs = pre' ++ b' :: post' → pre' ≠ [] → b'.isFree = false →
          (stop base pre' + sizeofSlot, b'.size) ∈ inUse base bs := by
        intro pre' b' post' hbs' hne hused
        cases pre' with
        | nil => exact absurd rfl hne
        | cons s pre' =>
          obtain ⟨rfl, rfl⟩ := List.cons.inj hbs'
          exact mem_inUse.mpr ⟨pre', b', post', by simp, hused, rfl⟩
      cases hb : b.isFree with
      | false =>
        have := (ha _ (hmem _ b post hbs (by simp) hb)).1
        exact (Nat.dvd_add_left h32).mp this
      | true =>
        have hc : c.isFree = false := by
          cases hc : c.isFree with
          | false => rfl
          | true => exact absurd ⟨hc, hb⟩ hpair
        rw [stop_append, stop_cons, stop_nil, width_eq, ← Nat.add_assoc]
        rcases List.eq_nil_or_concat' pre with rfl | ⟨pre, d, rfl⟩
        · obtain ⟨rfl, -⟩ := List.cons.inj hbs
          show 8 ∣ base + sizeofSlot
          exact Nat.dvd_add h8 h32
        · refine (ha _ (hmem (pre ++ [d]) c (b :: post) (by rw [hbs]; simp) (by simp) hc)).2 ?_
          have hbrk := ht.brk
          rw [hbs, stop_append, stop_append, stop_cons, stop_cons, stop_nil, width_eq, width_eq] at hbrk
          have hle := @le_stop Block _ (stop base (pre ++ [d]) + (sizeofSlot + c.size) + (sizeofSlot + b.size)) post
          have h0 : 0 < sizeofSlot := by decide
          simp only
          omega

/-- **`mm_malloc`**: the new block is aligned exactly if the call is round, and then so are the others. -/
theorem Outcome.aligned {p : ℕ} (ht : h.Tiles base bs) (h8 : 8 ∣ base) (ha : h.AlignedSlots)
    (ho : Outcome h base bs grow size (some p) h') :
    ∃ n bs', size ≤ n ∧ h'.Tiles base bs' ∧ (inUse base bs').Perm ((p, n) :: inUse base bs) ∧
      (AlignedTo h'.brk (p, n) ↔ h.Round grow size) ∧ (h.Round grow size → ∀ q ∈ inUse base bs, AlignedTo h'.brk q) := by
  have h32 : 8 ∣ sizeofSlot := by decide
  have hplace := (alignedSlots_iff_place ht).mp ha
  have hold := (alignedSlots_iff ht h8).mp ha
  have hbounds : ∀ q ∈ inUse base bs, q.1 + q.2 ≤ h.brk := by
    intro q hq
    have hstop : stop (base + sizeofSlot) bs = h.brk := ht.brk
    exact hstop ▸ (used_bounds hq).2
  cases ho with
  | @fit pre post b _ hbs hfree hsize hfind hg =>
    obtain ⟨hbrk, bs', ht', hperm, -, -⟩ := hg
    subst hbs
    obtain ⟨hb, -, -, hend⟩ := (tiles_iff.mp ht).1.around
    have hx : 8 ∣ stop base (sentinel :: pre) := hplace (sentinel :: pre) b post (by simp)
    refine ⟨_, bs', le_taken hsize, ht', hperm, ?_, fun _ => by rw [hbrk]; exact hold⟩
    rw [width_eq] at hend
    by_cases hbig : size + minNewSize ≤ b.size
    · -- the slot is split behind the block
      have htaken : taken b size = size := if_pos hbig
      have hlt : stop base (sentinel :: pre) + sizeofSlot + size < h.brk := by
        simp only [minNewSize] at hbig
        omega
      rw [htaken, hbrk]
      constructor
      · intro hal
        have hsize8 := (Nat.dvd_add_right (Nat.dvd_add hx h32)).mp (hal.2 hlt)
        exact ⟨fun _ _ _ _ _ => hsize8, fun _ _ hnone => by rw [hfind] at hnone; cases hnone⟩
      · intro hround
        have hsize8 := hround.split _ _ hfind hb hbig
        exact ⟨Nat.dvd_add hx h32, fun _ => Nat.dvd_add (Nat.dvd_add hx h32) hsize8⟩
    · have htaken : taken b size = b.size := if_neg hbig
      rw [htaken, hbrk]
      refine iff_of_true (alignedTo_of_place ht.toRep hplace) ⟨fun x s hx hs hle => ?_, fun _ _ hnone => ?_⟩
      · obtain rfl := Option.some.inj (Option.some.inj (hx.symm.trans hfind))
        obtain rfl := Option.some.inj (hs.symm.trans hb)
        exact absurd hle hbig
      · rw [hfind] at hnone
        cases hnone
  | @extend pre b _ hbs hfree hsize hfind htail hgrow hg =>
    obtain ⟨hbrk, bs', ht', hperm, -, -⟩ := hg
    subst hbs
    obtain ⟨hb, -, -, -⟩ := (tiles_iff.mp ht).1.around
    have hx : 8 ∣ stop base (sentinel :: pre) := hplace (sentinel :: pre) b [] (by simp)
    have hend : stop base (sentinel :: pre) + (sizeofSlot + b.size) = h.brk := by
      have hstop := ht.brk
      rwa [List.append_nil, ← List.cons_append, stop_append, stop_cons, stop_nil, width_eq] at hstop
    refine ⟨size, bs', le_rfl, ht', hperm, iff_of_true ⟨Nat.dvd_add hx h32, fun hlt => ?_⟩
      ⟨fun x s hsome => ?_, fun tail s _ ht hs hused _ => ?_⟩, fun _ q hq => ⟨(hold q hq).1, fun _ => (hold q hq).2 ?_⟩⟩
    · -- the block ends at the break
      simp only at hlt
      omega
    · rw [hfind] at hsome
      cases hsome
    · obtain rfl := Option.some.inj (ht.symm.trans htail)
      obtain rfl := Option.some.inj (hs.symm.trans hb)
      rw [hfree] at hused
      cases hused
    · -- the last slot was free, and so no other used block ended at the break
      have h0 : 0 < sizeofSlot := by decide
      rw [inUse_around, used_cons_of_free hfree, used_nil, List.append_nil, List.append_nil] at hq
      have hle : q.1 + q.2 ≤ stop base (sentinel :: pre) := (used_bounds hq).2
      omega
  | @append tail s _ hfind htail hslot hused hgrow hg =>
    obtain ⟨hbrk, bs', ht', hperm, -, -⟩ := hg
    have hround : h.Round grow size ↔ 8 ∣ h.brk := by
      refine ⟨fun hround => hround.append tail s hfind htail hslot hused hgrow, fun h8 => ⟨fun x s hsome => ?_, ?_⟩⟩
      · rw [hfind] at hsome
        cases hsome
      · exact fun _ _ _ _ _ _ _ => h8
    refine ⟨size, bs', le_rfl, ht', hperm, ?_, fun hr q hq => ⟨(hold q hq).1, fun _ => ?_⟩⟩
    · rw [hround]
      refine ⟨fun hal => (Nat.dvd_add_left h32).mp hal.1, fun h8 => ⟨Nat.dvd_add h8 h32, fun hlt => ?_⟩⟩
      simp only at hlt
      omega
    · rcases Nat.lt_or_eq_of_le (hbounds q hq) with hlt | heq
      · exact (hold q hq).2 hlt
      · rw [heq]
        exact hround.mp hr

/-! ## The calls -/

/-- `mm_malloc`. -/
theorem mmMalloc_aligned (hr : h.Ready base bs) (h8 : 8 ∣ base) (ha : h.AlignedSlots) {r : Option ℕ}
    (e : h.mmMalloc grow size = some (r, h')) :
    h'.AlignedSlots ↔ (size ≠ 0 → ∀ h₀ ∈ h.ensureInit, h₀.Round grow size) := by
  obtain ⟨h₀, e₀, ht, -⟩ := hr.ensureInit
  have ha₀ : h₀.AlignedSlots := by
    rcases hr with ⟨-, -, -, rfl⟩ | ht'
    · exact (alignedSlots_iff ht h8).mpr fun p hp => absurd hp List.not_mem_nil
    · obtain rfl := Option.some.inj (e₀.symm.trans ht'.ensureInit)
      exact ha
  have hall : (∀ h₀' ∈ h.ensureInit, h₀'.Round grow size) ↔ h₀.Round grow size := by
    rw [e₀]
    exact ⟨fun hall => hall h₀ rfl, fun hround h₀' he => Option.some.inj he ▸ hround⟩
  rw [hall]
  rw [mmMalloc, e₀, Option.bind_eq_bind, Option.bind_some] at e
  split_ifs at e with hsize
  · obtain ⟨-, rfl⟩ := Prod.mk.inj (Option.some.inj e)
    exact iff_of_true ha₀ fun hne => absurd hsize hne
  · obtain ⟨r', h'', e', ho⟩ := mallocSlot_outcome ht grow size
    obtain ⟨rfl, rfl⟩ := Prod.mk.inj (Option.some.inj (e'.symm.trans e))
    rw [imp_iff_right hsize]
    cases hr' : r' with
    | none =>
      subst hr'
      cases ho with
      | refused hfind hgrow =>
        refine iff_of_true ha₀ ⟨fun x s hsome => ?_, fun _ _ _ _ _ _ hg => ?_⟩
        · rw [hfind] at hsome
          cases hsome
        · rw [hgrow] at hg
          cases hg
    | some p =>
      subst hr'
      obtain ⟨n, bs', -, ht', hperm, hnew, hothers⟩ := ho.aligned ht h8 ha₀
      rw [alignedSlots_iff ht' h8, ← hnew]
      constructor
      · exact fun hall => hall _ (hperm.symm.subset List.mem_cons_self)
      · intro hp q hq
        rcases List.mem_cons.mp (hperm.subset hq) with rfl | hq
        · exact hp
        · exact hothers (hnew.mp hp) q hq

/-- `mm_free` aligns nothing and makes nothing unaligned. -/
theorem mmFree_aligned (ht : h.Tiles base bs) (h8 : 8 ∣ base) (ha : h.AlignedSlots) {p n : ℕ}
    (hp : (p, n) ∈ inUse base bs) (e : h.mmFree (some p) = some h') : h'.AlignedSlots := by
  obtain ⟨h'', bs', e', ht', hperm, -, hbrk⟩ := mmFree_spec ht hp
  obtain rfl := Option.some.inj (e'.symm.trans e)
  rw [alignedSlots_iff ht' h8, hbrk]
  exact fun q hq => (alignedSlots_iff ht h8).mp ha q (hperm.symm.subset (List.mem_cons_of_mem _ hq))

/-- `mm_realloc` of a block: what `mm_malloc` has put in the heap, is still there when the block is freed. -/
theorem mmRealloc_aligned (ht : h.Tiles base bs) (h8 : 8 ∣ base) (ha : h.AlignedSlots) {p n : ℕ}
    (hp : (p, n) ∈ inUse base bs) (hsize : size ≠ 0) {r : Option ℕ} (e : h.mmRealloc grow (some p) size = some (r, h')) :
    h'.AlignedSlots ↔ h.Round grow size := by
  obtain ⟨r₁, h₁, e₁, ho⟩ := mallocSlot_outcome ht grow size
  have em : h.mmMalloc grow size = some (r₁, h₁) := by
    simp only [mmMalloc, ht.ensureInit, Option.bind_eq_bind, Option.bind_some, if_neg hsize, e₁]
  have hround := mmMalloc_aligned (.inr ht) h8 ha em
  rw [imp_iff_right hsize, ht.ensureInit] at hround
  have hround : h₁.AlignedSlots ↔ h.Round grow size :=
    hround.trans ⟨fun hall => hall h rfl, fun hr h₀ he => Option.some.inj he ▸ hr⟩
  cases hr₁ : r₁ with
  | none =>
    subst hr₁
    obtain ⟨-, rfl⟩ := Prod.mk.inj (Option.some.inj ((mmRealloc_null ht hp hsize em).symm.trans e))
    exact hround
  | some q =>
    subst hr₁
    obtain ⟨m, bs₁, hm, ht₁, hperm₁, hnew, -⟩ := ho.aligned ht h8 ha
    obtain ⟨h₂, h₃, bs', e₃, -, -, ht₃, hperm₃, -, hbrk₃⟩ := mmRealloc_moves ht hp hsize em hm ht₁ hperm₁
    obtain ⟨-, rfl⟩ := Prod.mk.inj (Option.some.inj (e₃.symm.trans e))
    constructor
    · intro ha₃
      have hne : (q, m) ≠ (p, n) := by
        intro he
        rw [he] at hperm₁
        have hnodup := (hperm₁.map Prod.fst).nodup_iff.mp Client.nodup_inUse
        exact (List.nodup_cons.mp hnodup).1 (List.mem_map_of_mem hp)
      have hq : (q, m) ∈ inUse base bs' :=
        (List.mem_cons.mp (hperm₃.subset (hperm₁.symm.subset List.mem_cons_self))).resolve_left hne
      have hal := (alignedSlots_iff ht₃ h8).mp ha₃ _ hq
      rw [hbrk₃] at hal
      exact hnew.mp hal
    · intro hr
      rw [alignedSlots_iff ht₃ h8, hbrk₃]
      exact fun q hq => (alignedSlots_iff ht₁ h8).mp (hround.mpr hr) q (hperm₃.symm.subset (List.mem_cons_of_mem _ hq))

end Heap

/-! ## Runs -/

/-- A call puts no slot where it is not aligned. -/
def ClientEvent.Round (h : Heap) : ClientEvent → Prop
  | .malloc size grow => size ≠ 0 → ∀ h₀ ∈ h.ensureInit, h₀.Round grow size
  | .realloc _ size grow => size ≠ 0 → ∀ h₀ ∈ h.ensureInit, h₀.Round grow size
  | .free _ => True
  | .write _ _ _ => True

namespace Client

open Heap

variable {c c' : Client} {base : ℕ} {bs : List Block}

theorem Inv.free_aligned (hi : Inv base bs c) (h8 : 8 ∣ base) (ha : c.heap.AlignedSlots) {ptr : Option ℕ}
    (hp : ∀ p ∈ ptr, ∃ b ∈ c.live, b.ptr = p) {h' : Heap} (e : c.heap.mmFree ptr = some h') : h'.AlignedSlots := by
  cases ptr with
  | none =>
    obtain rfl := Option.some.inj e
    exact ha
  | some p =>
    obtain ⟨b, hb, rfl⟩ := hp p rfl
    obtain ⟨n, hn, -⟩ := hi.sits b hb
    exact mmFree_aligned (hi.tiles hb) h8 ha hn e

/-- **One call or write** keeps the slots aligned exactly if it is round. -/
theorem Inv.aligned_step (hi : Inv base bs c) (h8 : 8 ∣ base) (ha : c.heap.AlignedSlots) {e : ClientEvent}
    (hall : c.Allowed e) (hs : c.step e = some c') : c'.heap.AlignedSlots ↔ e.Round c.heap := by
  cases e with
  | malloc size grow =>
    obtain ⟨⟨r, h'⟩, em, he⟩ := Option.bind_eq_some_iff.mp hs
    rw [← Option.some.inj he]
    exact mmMalloc_aligned hi.ready h8 ha em
  | realloc ptr size grow =>
    obtain ⟨⟨r, h'⟩, em, he⟩ := Option.bind_eq_some_iff.mp hs
    rw [← Option.some.inj he]
    by_cases hsize : size = 0
    · rw [mmRealloc.eq_def, if_pos hsize] at em
      obtain ⟨h'', ef, he⟩ := Option.bind_eq_some_iff.mp em
      obtain ⟨-, rfl⟩ := Prod.mk.inj (Option.some.inj he)
      exact iff_of_true (hi.free_aligned h8 ha hall ef) fun hne => absurd hsize hne
    · cases ptr with
      | none =>
        rw [mmRealloc.eq_def, if_neg hsize] at em
        exact mmMalloc_aligned hi.ready h8 ha em
      | some p =>
        obtain ⟨b, hb, rfl⟩ := hall p rfl
        obtain ⟨n, hn, -⟩ := hi.sits b hb
        refine (mmRealloc_aligned (hi.tiles hb) h8 ha hn hsize em).trans ?_
        rw [ClientEvent.Round, imp_iff_right hsize, (hi.tiles hb).ensureInit]
        exact ⟨fun hr h₀ he => Option.some.inj he ▸ hr, fun hround => hround c.heap rfl⟩
  | free ptr =>
    obtain ⟨h', em, he⟩ := Option.bind_eq_some_iff.mp hs
    rw [← Option.some.inj he]
    exact iff_of_true (hi.free_aligned h8 ha hall em) trivial
  | write ptr offset value =>
    obtain ⟨b, hb, rfl, ho⟩ := hall
    obtain ⟨n, hn, hsits⟩ := hi.sits b hb
    have hsize := hsits.size
    have halters := alters_update c.heap (b.ptr + offset) (.byte value)
    rw [← Option.some.inj hs]
    refine iff_of_true ?_ trivial
    rw [alignedSlots_iff ((hi.tiles hb).data hn halters (by omega) (by omega)) h8]
    exact (alignedSlots_iff (hi.tiles hb) h8).mp ha

/-- All slots and all live blocks begin at multiples of 8. -/
structure Aligned (c : Client) : Prop where
  /-- The slots. -/
  slots : c.heap.AlignedSlots
  /-- The blocks that have been returned. -/
  live : ∀ b ∈ c.live, 8 ∣ b.ptr

theorem Inv.aligned_iff (hi : Inv base bs c) (h8 : 8 ∣ base) : c.Aligned ↔ c.heap.AlignedSlots := by
  refine ⟨fun ha => ha.slots, fun ha => ⟨ha, fun b hb => ?_⟩⟩
  obtain ⟨n, hn, -⟩ := hi.sits b hb
  exact ((alignedSlots_iff (hi.tiles hb) h8).mp ha _ hn).1

end Client

namespace Machine

/-- In 64 bits: a call of what fits puts no slot where it is not aligned. -/
def Event.Round (c : Client) (e : Event) : Prop := e.Fits c.heap → (e.plain c.heap).Round c.heap

/-- **When all is aligned.** Calls with pointers that are `NULL` or live, and writes inside live blocks, from a break that
is a multiple of 8: at any time all slots and all blocks that have been returned begin at multiples of 8, exactly if
no call of what fits splits a free slot by a size that is not a multiple of 8, and none puts a slot behind a used
one that does not end at a multiple of 8. -/
theorem blocks_aligned_iff (mem : ℕ → Cell) (brk : ℕ) (events : List Event) (h8 : 8 ∣ brk) (hbrk : brk < 2 ^ 64 - 1)
    (h : Respects (Client.start mem brk) events) :
    (∀ pre c, pre <+: events → run step (Client.start mem brk) pre = some c → c.Aligned) ↔
      Along step Event.Round (Client.start mem brk) events := by
  have hstart : (Client.start mem brk).Aligned := by
    refine ⟨fun slots hslots p hp => ?_, fun b hb => absurd hb List.not_mem_nil⟩
    obtain rfl := Option.some.inj (hslots : some [] = some slots)
    exact absurd hp List.not_mem_nil
  refine always_iff_along (I := fun c => ∃ bs, Inv brk bs c) h ⟨[], Inv.start mem hbrk⟩ hstart ?_ ?_ ?_
  · rintro c e c' ⟨bs, hi⟩ ha hs
    exact (hi.step ha hs).2.2
  · rintro c e c' ⟨bs, hi⟩ hal ha hround hs
    obtain ⟨hf, hs', bs', hi'⟩ := hi.step ha hs
    exact (hi'.toInv.aligned_iff h8).mpr ((hi.toInv.aligned_step h8 hal.slots ha hs').mpr (hround hf))
  · rintro c e ⟨bs, hi⟩ hal ha hround
    obtain ⟨hf, hnot⟩ := Classical.not_imp.mp hround
    obtain ⟨c', hs', -⟩ := hi.toInv.step ha
    refine ⟨c', (step_eq_some_iff hi.toInv hi.brk).mpr ⟨hf, hs'⟩, fun hal' => ?_⟩
    exact hnot ((hi.toInv.aligned_step h8 hal.slots ha hs').mp hal'.slots)

/-- `blocks_aligned_iff` for some calls. -/
theorem blocks_aligned_iff_freedBlock :
    (∀ pre c, pre <+: freedBlock → run step (Client.start (fun _ => .byte 1) 1000) pre = some c → c.Aligned) ↔
      Along step Event.Round (Client.start (fun _ => .byte 1) 1000) freedBlock :=
  blocks_aligned_iff (fun _ => .byte 1) 1000 freedBlock (by decide) (by decide) (by decide +kernel)

/-- Five bytes, and a block behind them. -/
def oddBlock : List Event := [.malloc 5 fun _ _ => true, .malloc 8 fun _ _ => true]

/-- The second block begins at 1101. -/
theorem oddBlock_unaligned :
    Respects (Client.start (fun _ => .byte 1) 1000) oddBlock ∧
      ∃ c, run step (Client.start (fun _ => .byte 1) 1000) oddBlock = some c ∧ ¬ c.Aligned := by
  have hlive : (run step (Client.start (fun _ => .byte 1) 1000) oddBlock).map (fun c => c.live.map LiveBlock.ptr) =
      some [1101, 1064] := by decide +kernel
  refine ⟨by decide +kernel, ?_⟩
  obtain ⟨c, hc, hptr⟩ := Option.map_eq_some_iff.mp hlive
  refine ⟨c, hc, fun ha => ?_⟩
  obtain ⟨b, hb, he⟩ := List.mem_map.mp (hptr ▸ List.mem_cons_self : 1101 ∈ c.live.map LiveBlock.ptr)
  have h8 := ha.live b hb
  rw [he] at h8
  exact absurd h8 (by decide)

end Machine

end Cs162Hw.Alloc
