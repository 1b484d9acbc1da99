import Cs162Hw.Alloc.Layout

/-!
# What the functions make of the list

For each function of `hw3/mm_alloc.c` that works on the list of slots, one theorem: on a heap that
represents a list of blocks it has a result, and the result represents a list that the
theorem names.

* `findSlot_eq` — the loops that look for a slot find the first block that passes the test.
* `splitSlot_spec` — `split_slot` leaves one block or two where it found one.
* `mergeFollowing_spec`, `mergeBefore_spec` — the halves of `merge_free_space`: all the
  free blocks behind the block, and all before it up to the first, go into it. Both are
  inductions along the list, backwards the second time: the loops read headers that
  their earlier rounds have changed.
-/

namespace Cs162Hw.Alloc

open Library.Tiling

namespace Heap

variable {h h' : Heap} {base a : ℕ} {prev next : Option ℕ} {pre post bs : List Block} {b : Block}

/-! ## Looking for a slot -/

/-- The list is not longer than the fuel. -/
theorem Rep.length_lt_fuel (hr : h.Rep base bs) : bs.length < h.fuel := by
  have hlen := hr.brk ▸ @length_le_stop base bs
  exact Nat.lt_succ_of_le ((Nat.le_div_iff_mul_le (by decide)).mpr (by omega))

/-- **Looking for a slot** finds the first that passes the test. -/
theorem findSlot_eq (test : ℕ → Slot → Bool) (hs : h.Holds (headers prev a none bs)) {fuel : ℕ}
    (hf : bs.length < fuel) :
    h.findSlot test fuel (first a none bs) =
      some (((headers prev a none bs).find? fun p => test p.1 p.2).map Prod.fst) := by
  induction bs generalizing prev a fuel with
  | nil =>
    obtain ⟨fuel, rfl⟩ := Nat.exists_eq_add_of_lt hf
    rfl
  | cons b bs ih =>
    obtain ⟨fuel, rfl⟩ := Nat.exists_eq_succ_of_ne_zero (Nat.ne_of_gt (Nat.zero_lt_of_lt hf))
    rw [headers_cons, holds_cons] at hs
    rw [first_cons, findSlot, hs.1]
    by_cases ht : test a ⟨prev, first (a + width b) none bs, b.isFree, b.size⟩ = true
    · simp [ht]
    · simp [ht, ih hs.2 (by simpa using hf)]

/-- The same from the head on. -/
theorem Rep.findSlot_eq (hr : h.Rep base bs) (hne : bs ≠ []) (test : ℕ → Slot → Bool) :
    h.findSlot test h.fuel h.head =
      some (((headers none base none bs).find? fun p => test p.1 p.2).map Prod.fst) := by
  have hfirst : first base none bs = some base := by
    cases bs with
    | nil => exact absurd rfl hne
    | cons b bs => rfl
  rw [hr.head, ← hfirst]
  exact Heap.findSlot_eq test hr.slots hr.length_lt_fuel

/-- `find_list_elem` finds a free block that is large enough, or there is none. -/
theorem findListElem_spec (hr : h.Rep base bs) (hne : bs ≠ []) (size : ℕ) :
    (h.findListElem size = some none ∧ ∀ b ∈ bs, b.isFree = true → b.size < size) ∨
      ∃ pre b post, bs = pre ++ b :: post ∧ b.isFree = true ∧ size ≤ b.size ∧
        h.findListElem size = some (some (stop base pre)) := by
  have heq := hr.findSlot_eq hne fun _ s => s.isFree && size ≤ s.size
  cases hfind : (headers none base none bs).find? fun p => p.2.isFree && size ≤ p.2.size with
  | none =>
    rw [hfind] at heq
    refine .inl ⟨heq, fun b hb hfree => ?_⟩
    obtain ⟨pre, post, rfl⟩ := List.append_of_mem hb
    have := List.find?_eq_none.mp hfind _ (by
      rw [headers_append, headers_cons]
      exact List.mem_append_right _ List.mem_cons_self)
    simpa [hfree] using this
  | some p =>
    rw [hfind] at heq
    obtain ⟨pre, b, post, rfl, hx, hfree, hsize⟩ := mem_headers (List.mem_of_find?_eq_some hfind)
    have htest := List.find?_some hfind
    simp only [hfree, hsize, Bool.and_eq_true, decide_eq_true_eq] at htest
    exact .inr ⟨pre, b, post, rfl, htest.1, htest.2, heq.trans (by rw [← hx]; rfl)⟩

/-- `find_list_elem_data_location` finds the block with these bytes. -/
theorem findListElemDataLocation_spec (hr : h.Rep base (pre ++ b :: post)) :
    h.findListElemDataLocation (stop base pre + sizeofSlot) = some (some (stop base pre)) := by
  have heq := hr.findSlot_eq (by simp) fun iter _ => iter + sizeofSlot == stop base pre + sizeofSlot
  rw [findListElemDataLocation, heq]
  cases hfind : (headers none base none (pre ++ b :: post)).find?
      fun p => p.1 + sizeofSlot == stop base pre + sizeofSlot with
  | none =>
    have := List.find?_eq_none.mp hfind _ (by
      rw [headers_append, headers_cons]
      exact List.mem_append_right _ List.mem_cons_self)
    simp at this
  | some p =>
    have htest := List.find?_some hfind
    simp only [beq_iff_eq, Nat.add_right_cancel_iff] at htest
    simp [htest]

/-! ## `split_slot` -/

/-- What `split_slot` makes of a block. -/
def split (b : Block) (size : ℕ) : List Block :=
  if b.size ≥ size + minNewSize then [⟨b.isFree, size⟩, ⟨true, b.size - size - sizeofSlot⟩] else [b]

/-- **`split_slot`** leaves one block or two, the first of them cleared. -/
theorem splitSlot_spec (hr : h.Rep base (pre ++ [b] ++ post)) (size : ℕ) :
    ∃ h', h.splitSlot (stop base pre) size = some h' ∧ h'.Rep base (pre ++ split b size ++ post) ∧
      (∀ x, x < stop base pre ∨ stop base pre + width b + sizeofSlot ≤ x → h'.mem x = h.mem x) ∧
      ∀ c ∈ (split b size).head?, ∀ i < c.size, h'.mem (stop base pre + sizeofSlot + i) = .byte 0 := by
  obtain ⟨hb, hpost, ht, hbrk⟩ := hr.around
  have hrep := fun h' mid' => @Rep.replace h h' base pre [b] mid' post hr (by simp)
  obtain ⟨x, hx⟩ : ∃ x, stop base pre = x := ⟨_, rfl⟩
  simp only [stop_append, last_append, stop_cons, stop_nil, hx, width_eq] at hb hpost ht hbrk hrep ⊢
  by_cases hbig : b.size ≥ size + minNewSize
  · have hsplit : split b size = [⟨b.isFree, size⟩, ⟨true, b.size - size - sizeofSlot⟩] := if_pos hbig
    simp only [minNewSize] at hbig
    obtain ⟨h₁, e₁, new₁, a₁⟩ := @putSlot_spec h (x + sizeofSlot + size)
      ⟨some x, first (x + (sizeofSlot + b.size)) none post, true, b.size - size - sizeofSlot⟩ (by omega)
    obtain ⟨h₂, e₂, old₂, a₂⟩ := update_spec (fun s => { s with next := some (x + sizeofSlot + size) })
      (a₁.slot hb (.inl (by omega)))
    have new₂ := a₂.slot new₁ (.inr (by omega))
    have a₁₂ : Alters h h₂ x (x + (sizeofSlot + b.size)) :=
      (a₁.mono (by omega) (by omega)).trans (a₂.mono le_rfl (by omega))
    obtain ⟨h₃, e₃, post₃, a₃⟩ := relink_spec (hpost.behind a₁₂ le_rfl) (a₁₂.tail.trans ht) (x + sizeofSlot + size)
    have old₃ := @Alters.slot _ _ _ _ _ _ a₃ old₂ (.inl (by omega))
    have new₃ := @Alters.slot _ _ _ _ _ _ a₃ new₂ (.inl (by omega))
    obtain ⟨h₄, e₄, old₄, a₄⟩ := update_spec (fun s => { s with size := size }) old₃
    have new₄ := a₄.slot new₃ (.inr (by omega))
    have brk₄ : h₄.brk = h.brk := a₄.brk.trans (a₃.brk.trans a₁₂.brk)
    obtain ⟨h₅, e₅, a₅, -⟩ := @memset_spec h₄ (x + sizeofSlot + size + sizeofSlot) (b.size - size - sizeofSlot) (by omega)
    have old₅ := a₅.slot old₄ (.inl (by omega))
    have new₅ := a₅.slot new₄ (.inl (by omega))
    obtain ⟨h₆, e₆, a₆, zero₆⟩ := @memset_spec h₅ (x + sizeofSlot) size (by rw [a₅.brk]; omega)
    have old₆ := a₆.slot old₅ (.inl (by omega))
    have new₆ := a₆.slot new₅ (.inr (by omega))
    have a₄₆ : Alters h₃ h₆ x (x + (sizeofSlot + b.size)) :=
      ((a₄.mono (by omega) (by omega)).trans (a₅.mono (by omega) (by omega))).trans (a₆.mono (by omega) (by omega))
    have post₆ := post₃.behind a₄₆ le_rfl
    have ha : Alters (h.setTail (last (some (x + sizeofSlot + size)) (x + (sizeofSlot + b.size)) post)) h₆ x
        (x + (sizeofSlot + b.size) + sizeofSlot) :=
      (((a₁₂.setTail _).mono le_rfl (by omega)).trans (a₃.mono (by omega) le_rfl)).trans (a₄₆.mono le_rfl (by omega))
    refine ⟨h₆, ?_, ?_, fun z hz => ha.mem z hz, fun c hc i hi => ?_⟩
    · have hcond : b.size ≥ size + minNewSize := by simp only [minNewSize]; omega
      simp only [splitSlot, hb, Option.bind_eq_bind, Option.bind_some, if_pos hcond, e₁, e₂, e₃, e₄, e₅, old₅, e₆]
    · rw [hsplit]
      have hend : x + sizeofSlot + size + (sizeofSlot + (b.size - size - sizeofSlot)) = x + (sizeofSlot + b.size) := by
        omega
      have hrep' := hrep h₆ [⟨b.isFree, size⟩, ⟨true, b.size - size - sizeofSlot⟩]
      simp only [stop_cons, stop_nil, last_cons, last_nil, headers_cons, headers_nil, first_cons, first_nil, holds_cons,
        holds_nil, width_eq, ← Nat.add_assoc] at hrep' hend ha new₆ old₆ post₆ ⊢
      rw [hend] at hrep'
      exact hrep' (by simp) rfl ha ⟨old₆, new₆, trivial⟩ post₆
    · rw [hsplit, List.head?_cons] at hc
      obtain rfl := Option.some.inj hc
      exact zero₆ _ (by omega) (by simp only at hi; omega)
  · have hsplit : split b size = [b] := if_neg hbig
    obtain ⟨h₁, e₁, a₁, zero₁⟩ := @memset_spec h (x + sizeofSlot) b.size (by omega)
    refine ⟨h₁, ?_, ?_, fun z hz => a₁.mem z (by omega), fun c hc i hi => ?_⟩
    · simp only [splitSlot, hb, Option.bind_eq_bind, Option.bind_some, if_neg hbig, e₁]
    · rw [hsplit]
      exact hr.data a₁ (by rw [hx]) (by rw [hx, width_eq]; omega)
    · rw [hsplit, List.head?_cons] at hc
      obtain rfl := Option.some.inj hc
      exact zero₁ _ (by omega) (by omega)

/-! ## `merge_free_space` -/

/-- The first loop of `merge_free_space` takes the free blocks behind into the slot's size. -/
theorem mergeNext_spec {x y l : ℕ} {s : Slot} (hpost : h.Holds (headers prev y none post)) (hs : h.slot x = some s)
    (hxy : x + sizeofSlot ≤ y) {fuel : ℕ} (hf : post.length < fuel) :
    ∃ h' gs rest l', post = gs ++ rest ∧ (∀ g ∈ gs, g.isFree = true) ∧ (∀ g ∈ rest.head?, g.isFree = false) ∧
      mergeNext x fuel h (first y none post) l = some (h', l') ∧ last (some l) y gs = some l' ∧
      Alters h h' x (x + sizeofSlot) ∧ h'.slot x = some { s with size := s.size + (stop y gs - y) } := by
  induction post generalizing h prev y l s fuel with
  | nil =>
    obtain ⟨fuel, rfl⟩ := Nat.exists_eq_succ_of_ne_zero (Nat.ne_of_gt (Nat.zero_lt_of_lt hf))
    exact ⟨h, [], [], l, rfl, by simp, by simp, rfl, rfl, Alters.refl .., by simpa using hs⟩
  | cons q post ih =>
    obtain ⟨fuel, rfl⟩ := Nat.exists_eq_succ_of_ne_zero (Nat.ne_of_gt (Nat.zero_lt_of_lt hf))
    rw [headers_cons, holds_cons] at hpost
    have hq := hpost.1
    by_cases hfree : q.isFree = true
    · obtain ⟨h₁, e₁, s₁, a₁⟩ := update_spec (fun t => { t with size := t.size + (q.size + sizeofSlot) }) hs
      have hq₁ := a₁.slot hq (.inr hxy)
      obtain ⟨h', gs, rest, l', rfl, hgs, hrest, e', hl', a', s'⟩ :=
        @ih h₁ (some y) (y + width q) y _ (hpost.2.behind a₁ (by rw [width_eq]; omega)) s₁ (by rw [width_eq]; omega)
          fuel (by simpa using hf)
      refine ⟨h', q :: gs, rest, l', rfl, ?_, hrest, ?_, hl', a₁.trans a', ?_⟩
      · exact List.forall_mem_cons.mpr ⟨hfree, hgs⟩
      · simp only [first_cons, mergeNext, hq, Option.bind_eq_bind, Option.bind_some, hfree, if_true, e₁, hq₁, e']
      · have hle := @le_stop Block _ (y + width q) gs
        rw [s', stop_cons]
        rw [width_eq] at hle ⊢
        simp only [Option.some.injEq, Slot.mk.injEq, true_and]
        omega
    · refine ⟨h, [], q :: post, l, rfl, by simp, by simpa using hfree, ?_, rfl, Alters.refl .., by simpa using hs⟩
      simp only [first_cons, mergeNext, hq, Option.bind_eq_bind, Option.bind_some, hfree, Bool.false_eq_true, if_false]

/-- The last of some blocks, and its header. -/
theorem last_header {l l' y : ℕ} {gs rest : List Block} (hl : last (some l) y gs = some l') (hne : gs ≠ [])
    (hs : h.Holds (headers prev y none (gs ++ rest))) :
    y ≤ l' ∧ l' + sizeofSlot ≤ stop y gs ∧ ∃ t, h.slot l' = some t ∧ t.next = first (stop y gs) none rest := by
  obtain ⟨gs, g, rfl⟩ := (List.eq_nil_or_concat' gs).resolve_left hne
  simp only [last_append, last_cons, last_nil, Option.some.injEq, stop_append, stop_cons, stop_nil, headers_append,
    headers_cons, headers_nil, holds_append, holds_cons, first_nil] at hl hs ⊢
  subst hl
  exact ⟨le_stop, by rw [width_eq]; omega, _, hs.1.2.1, rfl⟩

/-- **`merge_free_space`, forwards**: the free blocks behind the block go into it. -/
theorem mergeFollowing_spec (hr : h.Rep base (pre ++ [b] ++ post)) :
    ∃ h' gs rest n, post = gs ++ rest ∧ (∀ g ∈ gs, g.isFree = true) ∧ (∀ g ∈ rest.head?, g.isFree = false) ∧
      h.mergeFollowing (stop base pre) = some h' ∧ h'.Rep base (pre ++ [⟨b.isFree, n⟩] ++ rest) ∧
      stop base pre + (sizeofSlot + n) = stop base (pre ++ [b] ++ gs) ∧
      ∀ x, x < stop base pre ∨ stop base (pre ++ [b] ++ gs) + sizeofSlot ≤ x → h'.mem x = h.mem x := by
  obtain ⟨hb, hpost, ht, hbrk⟩ := hr.around
  have hlen : post.length < h.fuel := lt_of_le_of_lt (by simp; omega) hr.length_lt_fuel
  obtain ⟨x, hx⟩ : ∃ x, stop base pre = x := ⟨_, rfl⟩
  simp only [stop_append, stop_cons, stop_nil, hx, width_eq] at hb hpost ht hbrk ⊢
  obtain ⟨h₁, gs, rest, l, rfl, hgs, hrest, e₁, hl, a₁, b₁⟩ :=
    mergeNext_spec (l := x) hpost hb (by omega) hlen
  have hend : x + (sizeofSlot + b.size) ≤ stop (x + (sizeofSlot + b.size)) gs := le_stop
  have hstop : stop (stop (x + (sizeofSlot + b.size)) gs) rest = h.brk := by
    have := hr.brk
    simpa only [stop_append, stop_cons, stop_nil, hx, width_eq] using this
  have hle : stop (x + (sizeofSlot + b.size)) gs ≤ h.brk := hstop ▸ le_stop
  obtain ⟨y, hy⟩ : ∃ y, stop (x + (sizeofSlot + b.size)) gs = y := ⟨_, rfl⟩
  rw [hy] at hend hle hstop b₁
  have hlinks : ∃ h₃, h₁.bypass x l = some h₃ ∧
      h₃.slot x = some ⟨last none base pre, first y none rest, b.isFree, b.size + (y - (x + (sizeofSlot + b.size)))⟩ ∧
      h₃.Holds (headers (some x) y none rest) ∧
      Alters (h.setTail (last (some x) y rest)) h₃ x (y + sizeofSlot) := by
    rw [last_append, hl, hy] at ht
    have hpost₁ := hpost.behind a₁ (by omega)
    by_cases hne : gs = []
    · subst hne
      obtain rfl : x = l := by simpa using hl
      obtain rfl : x + (sizeofSlot + b.size) = y := hy
      refine ⟨h₁, if_neg (by simp), b₁, hpost₁, ?_⟩
      rw [← ht]
      exact a₁.mono le_rfl (by omega)
    · obtain ⟨hyl, hly, t, hlt, hnext⟩ := last_header hl hne hpost
      rw [hy] at hly hnext
      obtain ⟨h₂, e₂, b₂, a₂⟩ := update_spec (fun s => { s with next := t.next }) b₁
      have hrest₂ := hpost₁.behind a₂ (by omega)
      rw [headers_append, holds_append, hy] at hrest₂
      obtain ⟨h₃, e₃, rest₃, a₃⟩ := relink_spec hrest₂.2
        (by rw [a₂.tail, a₁.tail, ht, hl]) x
      have hx0 : 0 < sizeofSlot := by decide
      rw [bypass, if_pos (by omega), a₁.slot hlt (.inr (by omega))]
      simp only [Option.bind_eq_bind, Option.bind_some, e₂]
      rw [hnext] at b₂ ⊢
      refine ⟨h₃, e₃, @Alters.slot _ _ _ _ _ _ a₃ b₂ (.inl (by omega)), rest₃, ?_⟩
      exact (((a₁.trans a₂).setTail _).mono le_rfl (by omega)).trans (a₃.mono (by omega) le_rfl)
  obtain ⟨h₃, e₃, b₃, rest₃, a₃⟩ := hlinks
  obtain ⟨h', e', a', -⟩ := @memset_spec h₃ (x + sizeofSlot) (b.size + (y - (x + (sizeofSlot + b.size))))
    (by rw [show h₃.brk = h.brk from a₃.brk]; omega)
  have ha := a₃.trans (a'.mono (by omega) (by omega))
  have hwhole : stop x ([b] ++ gs) = y := hy
  refine ⟨h', gs, rest, b.size + (y - (x + (sizeofSlot + b.size))), rfl, hgs, hrest, ?_, ?_, by rw [hy]; omega, ?_⟩
  · simp only [mergeFollowing, hb, Option.bind_eq_bind, Option.bind_some, e₁, e₃, b₃, e']
  · have hrep := @Rep.replace h h' base pre ([b] ++ gs) [⟨b.isFree, b.size + (y - (x + (sizeofSlot + b.size)))⟩] rest
      (by simpa using hr) (by simp) (by simp)
    simp only [hx, hwhole, last_append, stop_append, stop_cons, stop_nil, last_cons, last_nil, headers_cons,
      headers_nil, first_nil, holds_cons, holds_nil, width_eq] at hrep
    have hend' : x + (sizeofSlot + (b.size + (y - (x + (sizeofSlot + b.size))))) = y := by omega
    rw [hend'] at hrep
    exact hrep rfl ha ⟨a'.slot b₃ (.inl le_rfl), trivial⟩ (rest₃.behind a' (by omega))
  · rw [hy]
    exact fun z hz => ha.mem z hz

/-- The second loop of `merge_free_space` goes back over the free blocks, each of which takes in the next. -/
theorem mergePrev_spec {c : Block} (hhead : h.head = some base) {cur : ℕ} {s : Slot}
    (hpre : h.Holds (headers none base (some cur) (c :: pre))) (hcur : cur = stop base (c :: pre))
    (hs : h.slot cur = some s) (hprev : s.prev = last none base (c :: pre)) (hfree : s.isFree = true) {fuel : ℕ}
    (hf : pre.length < fuel) :
    ∃ h' pre' fs s', pre = pre' ++ fs ∧ (∀ f ∈ fs, f.isFree = true) ∧ (∀ g ∈ pre'.getLast?, g.isFree = false) ∧
      mergePrev fuel h s.prev cur = some (h', stop base (c :: pre')) ∧ Alters h h' (stop base (c :: pre')) cur ∧
      h'.slot (stop base (c :: pre')) = some s' ∧ s'.prev = last none base (c :: pre') ∧ s'.isFree = true ∧
      stop base (c :: pre') + s'.size = cur + s.size := by
  induction pre using List.reverseRecOn generalizing h cur s fuel with
  | nil =>
    obtain ⟨fuel, rfl⟩ := Nat.exists_eq_succ_of_ne_zero (Nat.ne_of_gt (Nat.zero_lt_of_lt hf))
    refine ⟨h, [], [], s, rfl, by simp, by simp, ?_, Alters.refl .., hcur ▸ hs, hprev, hfree, by rw [hcur]⟩
    rw [mergePrev, if_pos (by rw [hprev, hhead]; rfl), hcur]
  | append_singleton pre f ih =>
    obtain ⟨fuel, rfl⟩ := Nat.exists_eq_succ_of_ne_zero (Nat.ne_of_gt (Nat.zero_lt_of_lt hf))
    rw [← List.cons_append] at hpre hcur hprev
    rw [headers_append, holds_append] at hpre
    rw [last_append, last_cons, last_nil] at hprev
    rw [stop_append, stop_cons, stop_nil] at hcur
    obtain ⟨z, hz⟩ : ∃ z, stop base (c :: pre) = z := ⟨_, rfl⟩
    rw [hz] at hpre hprev hcur
    have hbase : base < z := by
      have hle : base + width c ≤ z := hz ▸ le_stop
      have h0 : 0 < sizeofSlot := by decide
      rw [width_eq] at hle
      omega
    have hne : some z ≠ h.head := by
      rw [hhead]
      exact fun he => absurd (Option.some.inj he) (Nat.ne_of_gt hbase)
    obtain ⟨hpre, hlastf⟩ := hpre
    have hf' : h.slot z = some ⟨last none base (c :: pre), some cur, f.isFree, f.size⟩ := (holds_cons.mp hlastf).1
    rw [width_eq] at hcur
    by_cases hff : f.isFree = true
    · obtain ⟨h₁, e₁, f₁, a₁⟩ := update_spec (fun t => { t with size := t.size + (s.size + sizeofSlot) }) hf'
      obtain ⟨h', pre', fs, s', rfl, hfs, hlast, e', a', hs', hprev', hfree', hsize⟩ :=
        ih (a₁.head.trans hhead) (hpre.before a₁ hz.le) hz.symm f₁ rfl hff (Nat.lt_of_succ_lt_succ (by simpa using hf))
      have hle : stop base (c :: pre') ≤ z := hz ▸ (by rw [← List.cons_append, stop_append]; exact le_stop)
      refine ⟨h', pre', fs ++ [f], s', by simp, ?_, hlast, ?_, (a₁.mono hle (by omega)).trans (a'.mono le_rfl (by omega)),
        hs', hprev', hfree', ?_⟩
      · intro g hg
        rcases List.mem_append.mp hg with hg | hg
        · exact hfs g hg
        · rwa [List.mem_singleton.mp hg]
      · rw [hprev, mergePrev, if_neg hne]
        simp only [Option.bind_eq_bind, Option.bind_some, hf', hff, if_true, hs, e₁, f₁]
        exact e'
      · rw [hsize]
        simp only
        omega
    · have hwhole : stop base (c :: (pre ++ [f])) = cur := by
        rw [← List.cons_append, stop_append, hz, stop_cons, stop_nil, width_eq, hcur]
      have hlastz : last none base (c :: (pre ++ [f])) = some z := by
        rw [← List.cons_append, last_append, hz, last_cons, last_nil]
      refine ⟨h, pre ++ [f], [], s, by simp, by simp, by simpa using hff, ?_, ?_⟩
      · rw [hprev, mergePrev, if_neg hne]
        simp only [Option.bind_eq_bind, Option.bind_some, hf', hff, Bool.false_eq_true, if_false, hwhole]
      · rw [hwhole, hlastz]
        exact ⟨Alters.refl .., hs, hprev, hfree, rfl⟩

/-- **`merge_free_space`, backwards**: the block goes into the first of the free blocks before it. -/
theorem mergeBefore_spec {c : Block} (hr : h.Rep base ((c :: pre) ++ [b] ++ post)) (hfree : b.isFree = true) :
    ∃ h' pre' fs n, pre = pre' ++ fs ∧ (∀ f ∈ fs, f.isFree = true) ∧ (∀ g ∈ pre'.getLast?, g.isFree = false) ∧
      h.mergeBefore (stop base (c :: pre)) = some h' ∧ h'.Rep base ((c :: pre') ++ [⟨true, n⟩] ++ post) ∧
      stop base (c :: pre') + (sizeofSlot + n) = stop base (c :: pre) + width b ∧
      ∀ x, x < stop base (c :: pre') ∨ stop base (c :: pre) + width b + sizeofSlot ≤ x → h'.mem x = h.mem x := by
  obtain ⟨hb, hpost, ht, hbrk⟩ := hr.around
  have hpre : h.Holds (headers none base (some (stop base (c :: pre))) (c :: pre)) := by
    have hslots := hr.slots
    rw [headers_append, headers_append, holds_append, holds_append] at hslots
    exact hslots.1.1
  have hlen : pre.length < h.fuel := lt_of_le_of_lt (by simp; omega) hr.length_lt_fuel
  obtain ⟨x, hx⟩ : ∃ x, stop base (c :: pre) = x := ⟨_, rfl⟩
  rw [hx, width_eq] at hb hpost ht hbrk ⊢
  rw [hx] at hpre
  obtain ⟨h₁, pre', fs, s, rfl, hfs, hlast, e₁, a₁, hs, hprev, hsfree, hsize⟩ :=
    mergePrev_spec hr.head hpre hx.symm hb rfl hfree hlen
  obtain ⟨t, htmp⟩ : ∃ t, stop base (c :: pre') = t := ⟨_, rfl⟩
  obtain ⟨y, hy⟩ : ∃ y, x + (sizeofSlot + b.size) = y := ⟨_, rfl⟩
  have htx : t ≤ x := by
    rw [← hx, ← List.cons_append, stop_append, htmp]
    exact le_stop
  rw [htmp] at e₁ a₁ hs hsize
  rw [hy] at hb hpost ht hbrk
  have hend : t + (sizeofSlot + s.size) = y := by
    simp only at hsize
    omega
  have hb₁ := a₁.slot hb (.inr le_rfl)
  have hpost₁ := hpost.behind a₁ (by omega)
  have hlinks : ∃ h', h.mergeBefore x = some h' ∧
      h'.slot t = some ⟨last none base (c :: pre'), first y none post, true, s.size⟩ ∧
      h'.Holds (headers (some t) y none post) ∧ Alters (h.setTail (last (some t) y post)) h' t (y + sizeofSlot) := by
    by_cases hne : t = x
    · subst hne
      obtain rfl := Option.some.inj (hs.symm.trans hb₁)
      simp only at hprev
      refine ⟨h₁, ?_, hs.trans (by rw [hprev, hfree]), hpost₁, ?_⟩
      · simp only [mergeBefore, hb, Option.bind_eq_bind, Option.bind_some, e₁, ne_eq, not_true, if_false]
      · rw [← ht]
        exact a₁.mono le_rfl (by omega)
    · obtain ⟨h₂, e₂, s₂, a₂⟩ := update_spec (fun s => { s with next := first y none post }) hs
      have hpost₂ := hpost₁.behind a₂ (by omega)
      obtain ⟨h₃, e₃, post₃, a₃⟩ := relink_spec hpost₂ (a₂.tail.trans (a₁.tail.trans ht)) t
      have s₃ := @Alters.slot _ _ _ _ _ _ a₃ s₂ (.inl (by omega))
      have hwide : Alters h h₁ _ y := a₁.mono le_rfl (by omega)
      have ha₃ := ((hwide.trans (a₂.mono le_rfl (by omega))).setTail
        (last (some t) y post)).mono le_rfl (Nat.le_add_right y sizeofSlot) |>.trans (a₃.mono (by omega) le_rfl)
      obtain ⟨h₄, e₄, a₄, -⟩ := @memset_spec h₃ (t + sizeofSlot) s.size
        (by rw [show h₃.brk = h.brk from ha₃.brk]; omega)
      refine ⟨h₄, ?_, (a₄.slot s₃ (.inl le_rfl)).trans (by rw [hprev, hsfree]), post₃.behind a₄ (by omega),
        ha₃.trans (a₄.mono (by omega) (by omega))⟩
      simp only [mergeBefore, hb, Option.bind_eq_bind, Option.bind_some, e₁, ne_eq, hne, not_false_iff, if_true, hb₁,
        e₂, e₃, s₃, e₄]
  obtain ⟨h', e', s', post', a'⟩ := hlinks
  refine ⟨h', pre', fs, s.size, rfl, hfs, hlast, e', ?_, by rw [htmp, hend, hy], ?_⟩
  · have hwhole : stop t (fs ++ [b]) = y := by
      rw [stop_append, stop_cons, stop_nil, ← htmp, ← stop_append, List.cons_append, hx, width_eq, hy]
    have hrep := @Rep.replace h h' base (c :: pre') (fs ++ [b]) [⟨true, s.size⟩] post
      (by simpa using hr) (by simp) (by simp)
    simp only [htmp, hwhole, last_append, stop_append, stop_cons, stop_nil, last_cons, last_nil, headers_cons,
      headers_nil, first_nil, holds_cons, holds_nil, width_eq, hend] at hrep
    exact hrep trivial a' ⟨s', trivial⟩ post'
  · rw [htmp, hy]
    exact fun z hz => a'.mem z hz

end Heap

end Cs162Hw.Alloc
