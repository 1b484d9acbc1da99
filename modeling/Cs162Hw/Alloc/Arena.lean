import Cs162Hw.Alloc.Client
import Cs162Hw.Library.Gaps

/-!
# First fit

What the allocator is for, without its memory: a row of blocks behind the sentinel.

* `grant` takes the first free block that is large enough, and cuts off what is left of it
  if that makes a block. If there is none it makes the last block larger, provided that it
  is free, or else puts another behind it.
* `release` marks a block as free, and `Arena.free` then joins all neighbours that are free,
  wherever they are.

Nothing here has an address but the start of the row: a block is known by the widths of
those before it.
-/

namespace Cs162Hw.Alloc

open Library.Tiling Heap

/-! ## Rows of blocks -/

instance : Gaps Block where
  free := Block.isFree
  join b c := ⟨true, b.size + width c⟩
  width_pos b := by
    have hpos : 0 < sizeofSlot := by decide
    rw [width_eq]
    omega
  eq_of_width := by
    rintro ⟨f, n⟩ ⟨g, m⟩ hf hg hw
    simp only [width_eq, Nat.add_left_cancel_iff] at hf hg hw
    rw [hf, hg, hw]
  free_join _ _ := rfl
  width_join b c := by simp only [width_eq, Nat.add_assoc]

variable {a base size : ℕ} {b : Block} {bs cs pre post : List Block}

/-- The bytes of a used block tell where its header is. -/
theorem occupied_eq : occupied a bs = (used a bs).map fun p => (p.1 - sizeofSlot, ⟨false, p.2⟩) := by
  have hmap : used a bs = (occupied a bs).map fun p => (p.1 + sizeofSlot, p.2.size) := rfl
  rw [hmap, List.map_map]
  refine (List.map_id _).symm.trans (List.map_congr_left fun p hp => ?_)
  have hfree : free p.2 = false := by simpa using (List.mem_filter.mp hp).2
  have hused : p.2.isFree = false := hfree
  simp only [id, Function.comp_apply, Nat.add_sub_cancel, ← hused]

/-- Rows without free neighbours that have the same used blocks, and the same end, are one. -/
theorem Coalesced.eq_of_used (hb : Coalesced bs) (hc : Coalesced cs) (hu : (used a bs).Perm (used a cs))
    (hs : stop a bs = stop a cs) : bs = cs := by
  have hlt : ∀ {p q : ℕ × ℕ}, p.1 + p.2 + sizeofSlot ≤ q.1 → ¬ q.1 + q.2 + sizeofSlot ≤ p.1 := by
    intro p q h h'
    have hpos : 0 < sizeofSlot := by decide
    omega
  have hused : used a bs = used a cs :=
    hu.eq_of_pairwise (fun p q _ _ h h' => absurd h' (hlt h)) used_pairwise used_pairwise
  refine Settled.eq_of_occupied hb hc ?_ hs
  rw [occupied_eq, occupied_eq, hused]

/-! ## Finding room -/

/-- The first free block that is large enough: where its bytes begin, and the row once they are taken. -/
def firstFit (size a : ℕ) : List Block → Option (ℕ × List Block)
  | [] => none
  | b :: bs =>
    if b.isFree && size ≤ b.size then some (a + sizeofSlot, split ⟨false, b.size⟩ size ++ bs)
    else (firstFit size (a + width b) bs).map fun p => (p.1, b :: p.2)

/-- The last block made larger if it is free, or another one behind it. -/
def atEnd (size a : ℕ) : List Block → ℕ × List Block
  | [] => (a + sizeofSlot, [⟨false, size⟩])
  | b :: bs =>
    if b.isFree ∧ bs = [] then (a + sizeofSlot, [⟨false, size⟩])
    else ((atEnd size (a + width b) bs).1, b :: (atEnd size (a + width b) bs).2)

/-- Room for `size` bytes, the row being able to grow or not. -/
def grant (size a : ℕ) (grow : Bool) (bs : List Block) : Option (ℕ × List Block) :=
  match firstFit size a bs with
  | some p => some p
  | none => if grow then some (atEnd size a bs) else none

/-- The block whose bytes begin at `p` is marked. -/
def release (p a : ℕ) : List Block → Option (List Block)
  | [] => none
  | b :: bs =>
    if a + sizeofSlot = p then some (⟨true, b.size⟩ :: bs) else (release p (a + width b) bs).map (b :: ·)

theorem firstFit_of_small (h : ∀ c ∈ pre, c.isFree = true → c.size < size) :
    firstFit size a (pre ++ bs) = (firstFit size (stop a pre) bs).map fun p => (p.1, pre ++ p.2) := by
  induction pre generalizing a with
  | nil => simp
  | cons c pre ih =>
    have hc : (c.isFree && decide (size ≤ c.size)) = false := by
      cases hfree : c.isFree with
      | false => rfl
      | true => simpa using h c List.mem_cons_self hfree
    rw [List.cons_append, firstFit, hc, if_neg Bool.false_ne_true, ih fun d hd => h d (List.mem_cons_of_mem _ hd),
      Option.map_map]
    rfl

theorem firstFit_none (h : ∀ c ∈ bs, c.isFree = true → c.size < size) : firstFit size a bs = none := by
  simpa [firstFit] using @firstFit_of_small a size [] bs h

theorem firstFit_fit (hpre : ∀ c ∈ pre, c.isFree = true → c.size < size) (hfree : b.isFree = true) (hsize : size ≤ b.size) :
    firstFit size a (pre ++ [b] ++ post) = some (stop a pre + sizeofSlot, pre ++ split ⟨false, b.size⟩ size ++ post) := by
  rw [List.append_assoc, firstFit_of_small hpre]
  simp [firstFit, hfree, hsize]

theorem atEnd_append (hne : bs ≠ []) :
    atEnd size a (pre ++ bs) = ((atEnd size (stop a pre) bs).1, pre ++ (atEnd size (stop a pre) bs).2) := by
  induction pre generalizing a with
  | nil => rfl
  | cons c pre ih =>
    have hnil : ¬ (c.isFree = true ∧ pre ++ bs = []) := fun h => hne (List.append_eq_nil_iff.mp h.2).2
    rw [List.cons_append, atEnd, if_neg hnil, ih, List.cons_append]
    rfl

/-- **How room is found.** -/
inductive Granted (size a : ℕ) (grow : Bool) (bs : List Block) : Option (ℕ × List Block) → Prop
  /-- No free block is large enough, and the row cannot grow. -/
  | refused (hsmall : ∀ c ∈ bs, c.isFree = true → c.size < size) (hgrow : grow = false) : Granted size a grow bs none
  /-- The first free block that is large enough. -/
  | fit {pre post : List Block} {b : Block} (hbs : bs = pre ++ [b] ++ post) (hfree : b.isFree = true) (hsize : size ≤ b.size)
      (hsmall : ∀ c ∈ pre, c.isFree = true → c.size < size) :
      Granted size a grow bs (some (stop a pre + sizeofSlot, pre ++ split ⟨false, b.size⟩ size ++ post))
  /-- The last block, made larger. -/
  | extend {pre : List Block} {b : Block} (hbs : bs = pre ++ [b]) (hfree : b.isFree = true)
      (hsmall : ∀ c ∈ bs, c.isFree = true → c.size < size) (hgrow : grow = true) :
      Granted size a grow bs (some (stop a pre + sizeofSlot, pre ++ [⟨false, size⟩]))
  /-- A block behind the last. -/
  | append (hlast : ∀ c ∈ bs.getLast?, c.isFree = false) (hsmall : ∀ c ∈ bs, c.isFree = true → c.size < size)
      (hgrow : grow = true) : Granted size a grow bs (some (stop a bs + sizeofSlot, bs ++ [⟨false, size⟩]))

/-- A free block that is large enough is among the blocks, or is not. -/
theorem fit_cases (size : ℕ) (bs : List Block) :
    (∀ c ∈ bs, c.isFree = true → c.size < size) ∨
      ∃ pre b post, bs = pre ++ [b] ++ post ∧ b.isFree = true ∧ size ≤ b.size ∧
        ∀ c ∈ pre, c.isFree = true → c.size < size := by
  induction bs with
  | nil => exact .inl fun c hc => absurd hc List.not_mem_nil
  | cons b bs ih =>
    by_cases hfit : b.isFree = true ∧ size ≤ b.size
    · exact .inr ⟨[], b, bs, rfl, hfit.1, hfit.2, fun c hc => absurd hc List.not_mem_nil⟩
    · have hb : b.isFree = true → b.size < size := fun hfree => Nat.lt_of_not_le fun hle => hfit ⟨hfree, hle⟩
      rcases ih with hall | ⟨pre, c, post, rfl, hfree, hsize, hpre⟩
      · exact .inl (List.forall_mem_cons.mpr ⟨hb, hall⟩)
      · exact .inr ⟨b :: pre, c, post, rfl, hfree, hsize, List.forall_mem_cons.mpr ⟨hb, hpre⟩⟩

theorem grant_granted (size a : ℕ) (grow : Bool) (bs : List Block) : Granted size a grow bs (grant size a grow bs) := by
  rcases fit_cases size bs with hsmall | ⟨pre, b, post, rfl, hfree, hsize, hpre⟩
  · rw [grant, firstFit_none hsmall]
    cases grow with
    | false => exact .refused hsmall rfl
    | true =>
      rcases List.eq_nil_or_concat' bs with rfl | ⟨pre, b, rfl⟩
      · exact .append (fun c hc => by cases hc) hsmall rfl
      · simp only [if_true]
        rw [atEnd_append (List.cons_ne_nil b [])]
        cases hfree : b.isFree with
        | true =>
          simp only [atEnd, hfree, and_self, if_true]
          exact .extend rfl hfree hsmall rfl
        | false =>
          simp only [atEnd, hfree, Bool.false_eq_true, false_and, if_false]
          have happ := @Granted.append size a true (pre ++ [b]) (by simpa using hfree) hsmall rfl
          simpa using happ
  · rw [grant, firstFit_fit hpre hfree hsize]
    exact .fit rfl hfree hsize hpre

/-! ## What the row is then -/

/-- The row `bs'` is the row `bs` with one more used block, of `n` bytes at `p`, and ends `e` further on. -/
structure More (a : ℕ) (bs bs' : List Block) (p n e : ℕ) : Prop where
  /-- Free neighbours would have been joined. -/
  coalesced : Coalesced (sentinel :: bs')
  /-- The used blocks. -/
  used : (used a bs').Perm ((p, n) :: used a bs)
  /-- The end. -/
  stop : stop a bs' = stop a bs + e

theorem taken_lt : taken b size < size + minNewSize := by
  have hpos : 0 < minNewSize := by decide
  rw [taken]
  split_ifs with hbig
  · omega
  · omega

/-- What a block is cut into has one used block, and takes as much room. -/
theorem used_split : used a (split ⟨false, b.size⟩ size) = [(a + sizeofSlot, taken b size)] ∧
    stop a (split ⟨false, b.size⟩ size) = a + width b := by
  obtain ⟨extra, hsplit, hextra, hstop⟩ := split_eq ⟨false, b.size⟩ size
  have hfree : ∀ c ∈ extra, c.isFree = true := by
    rcases hextra with rfl | ⟨k, rfl⟩
    · exact fun c hc => absurd hc List.not_mem_nil
    · exact fun c hc => List.mem_singleton.mp hc ▸ rfl
  rw [hsplit]
  exact ⟨by rw [used_cons_of_used rfl, used_of_free hfree]; rfl, hstop a⟩

/-- A block cut off in the middle. -/
theorem more_fit (hc : Coalesced (sentinel :: (pre ++ [b] ++ post))) (hfree : b.isFree = true) :
    More a (pre ++ [b] ++ post) (pre ++ split ⟨false, b.size⟩ size ++ post) (stop a pre + sizeofSlot) (taken b size) 0 where
  coalesced := by
    have hbefore : Coalesced (sentinel :: pre) := by
      rw [List.append_assoc, ← List.cons_append] at hc
      exact (List.isChain_append.mp hc).1
    have hbehind : Coalesced (b :: post) := by
      rw [List.append_assoc, ← List.cons_append] at hc
      exact (List.isChain_append.mp hc).2.1
    obtain ⟨extra, hsplit, hextra, -⟩ := split_eq ⟨false, b.size⟩ size
    have hpost : Coalesced post := (List.isChain_cons.mp hbehind).2
    rw [hsplit, ← List.cons_append, ← List.cons_append]
    rcases hextra with rfl | ⟨k, rfl⟩
    · exact hbefore.insert hpost fun h => by cases h
    · -- what is left stands where `b` stood, and behind what is used
      obtain ⟨c, hc⟩ : ∃ c : Block, ⟨false, taken ⟨false, b.size⟩ size⟩ = c := ⟨_, rfl⟩
      have hused : Coalesced (sentinel :: pre ++ [c]) := by
        simpa using hbefore.insert .nil fun h => by simp [← hc] at h
      have hlast : ∀ g ∈ (sentinel :: pre ++ [c]).getLast?, g.isFree = false := by
        rw [List.getLast?_concat]
        rintro g hg
        rw [← Option.some.inj hg, ← hc]
      rw [hc]
      simpa using @Coalesced.insert _ _ (⟨true, k⟩ : Block) hused hpost fun _ => ⟨hlast, hbehind.head_used hfree⟩
  used := by
    rw [used_append, used_append, used_append, used_append, used_split.1, used_cons_of_free hfree, stop_append, stop_append,
      used_split.2, used_nil, List.append_nil, stop_cons, stop_nil]
    simp
  stop := by rw [stop_append, stop_append, stop_append, stop_append, used_split.2]; rfl

/-- The last block made larger. -/
theorem more_extend (hc : Coalesced (sentinel :: (pre ++ [b]))) (hfree : b.isFree = true) (hsize : b.size ≤ size) :
    More a (pre ++ [b]) (pre ++ [⟨false, size⟩]) (stop a pre + sizeofSlot) size (size - b.size) where
  coalesced := by
    rw [← List.cons_append] at hc ⊢
    simpa using Coalesced.insert (List.isChain_append.mp hc).1 .nil fun h => by cases h
  used := by
    rw [used_append, used_append, used_cons_of_used rfl, used_cons_of_free hfree, used_nil, used_nil, List.append_nil]
    exact List.perm_append_comm
  stop := by
    simp only [stop_append, stop_cons, stop_nil, width_eq]
    omega

/-- Another block behind the last. -/
theorem more_append (hc : Coalesced (sentinel :: bs)) :
    More a bs (bs ++ [⟨false, size⟩]) (stop a bs + sizeofSlot) size (sizeofSlot + size) where
  coalesced := by
    simpa using Coalesced.insert hc .nil fun h => by cases h
  used := by
    rw [used_append, used_cons_of_used rfl, used_nil]
    exact List.perm_append_comm
  stop := by rw [stop_append, stop_cons, stop_nil, width_eq]

/-- **What is granted** is one more block, a little larger than it need be at most. -/
theorem Granted.more {grow : Bool} {p : ℕ} (hg : Granted size a grow bs (some (p, cs))) (hc : Coalesced (sentinel :: bs)) :
    ∃ n e, size ≤ n ∧ n < size + minNewSize ∧ More a bs cs p n e := by
  have hpos : 0 < minNewSize := by decide
  cases hg with
  | fit hbs hfree hsize hsmall =>
    subst hbs
    exact ⟨_, _, le_taken hsize, taken_lt, more_fit hc hfree⟩
  | extend hbs hfree hsmall hgrow =>
    subst hbs
    exact ⟨_, _, le_rfl, by omega, more_extend hc hfree (Nat.le_of_lt (hsmall _ (by simp) hfree))⟩
  | append hlast hsmall hgrow => exact ⟨_, _, le_rfl, by omega, more_append hc⟩

/-- The block is found, or there is none whose bytes begin there. -/
theorem release_cases (p a : ℕ) (bs : List Block) :
    (release p a bs = none ∧ ∀ pre b post, bs = pre ++ [b] ++ post → stop a pre + sizeofSlot ≠ p) ∨
      ∃ pre b post, bs = pre ++ [b] ++ post ∧ stop a pre + sizeofSlot = p ∧
        release p a bs = some (pre ++ [⟨true, b.size⟩] ++ post) := by
  induction bs generalizing a with
  | nil => exact .inl ⟨rfl, fun pre b post h => by simp at h⟩
  | cons b bs ih =>
    by_cases hp : a + sizeofSlot = p
    · exact .inr ⟨[], b, bs, rfl, hp, by rw [release, if_pos hp]; rfl⟩
    · rcases ih (a + width b) with ⟨hnone, hout⟩ | ⟨pre, c, post, rfl, hc, hsome⟩
      · refine .inl ⟨by rw [release, if_neg hp, hnone]; rfl, fun pre c post h => ?_⟩
        cases pre with
        | nil =>
          obtain ⟨rfl, -⟩ := List.cons.inj h
          exact hp
        | cons d pre =>
          obtain ⟨rfl, rfl⟩ := List.cons.inj h
          exact hout pre c post rfl
      · exact .inr ⟨b :: pre, c, post, rfl, hc, by rw [release, if_neg hp, hsome]; rfl⟩

theorem release_at : release (stop a pre + sizeofSlot) a (pre ++ [b] ++ post) = some (pre ++ [⟨true, b.size⟩] ++ post) := by
  induction pre generalizing a with
  | nil => rw [stop_nil, List.nil_append, List.singleton_append, release, if_pos rfl]; rfl
  | cons c pre ih =>
    have hle := @le_stop Block _ (a + width c) pre
    have hpos := width_pos c
    rw [List.cons_append, List.cons_append, release, if_neg (by rw [stop_cons]; omega), stop_cons, ih]
    rfl

/-! ## The allocator -/

/-- An allocator that has no memory. -/
structure Arena where
  /-- Where the sentinel is, or will be. -/
  base : ℕ
  /-- Whether there has been a call of `malloc`. -/
  begun : Bool
  /-- The blocks behind the sentinel. -/
  blocks : List Block
  /-- What is live: where it is, and the size last requested. -/
  live : List (ℕ × ℕ)

namespace Arena

/-- Where the blocks begin. -/
def first (s : Arena) : ℕ := s.base + sizeofSlot

/-- Room for `size` bytes. -/
def malloc (s : Arena) (grow : Bool) (size : ℕ) : Option ℕ × Arena :=
  if size = 0 then (none, { s with begun := true })
  else match grant size s.first grow s.blocks with
    | none => (none, { s with begun := true })
    | some (p, bs) => (some p, { s with begun := true, blocks := bs })

/-- The block at `p`, whoever may have it, is given back; there has to be one. -/
def free (s : Arena) : Option ℕ → Option Arena
  | none => some s
  | some p => (release p s.first s.blocks).map fun bs => { s with blocks := coalesce bs }

/-- Another block, and the old one given back. -/
def realloc (s : Arena) (grow : Bool) (ptr : Option ℕ) (size : ℕ) : Option (Option ℕ × Arena) :=
  if size = 0 then (s.free ptr).map fun s => (none, s)
  else match s.malloc grow size with
    | (none, s) => some (none, s)
    | (some p, s) => (s.free ptr).map fun s => (some p, s)

/-- What is live but at `ptr`. -/
def without (s : Arena) (ptr : Option ℕ) : Arena := { s with live := s.live.filter fun b => some b.1 ≠ ptr }

/-- `p` is live. -/
def holding (s : Arena) (p size : ℕ) : Arena := { s with live := (p, size) :: s.live }

/-- One call. What is written does not matter. -/
def step (s : Arena) : ClientEvent → Option Arena
  | .malloc size grow =>
    match s.malloc grow size with
    | (none, s) => some s
    | (some p, s) => some (s.holding p size)
  | .realloc ptr size grow => (s.realloc grow ptr size).map fun
    | (none, s) => if size = 0 then s.without ptr else s
    | (some p, s) => (s.without ptr).holding p size
  | .free ptr => (s.free ptr).map fun s => s.without ptr
  | .write _ _ _ => some s

/-- Before the first call. -/
def start (brk : ℕ) : Arena := ⟨brk, false, [], []⟩

variable {s s' : Arena} {grow : Bool} {p : ℕ}

/-- A call of `malloc` is about the row. -/
theorem malloc_frame (s : Arena) (grow : Bool) (size : ℕ) :
    (s.malloc grow size).2.base = s.base ∧ (s.malloc grow size).2.begun = true ∧ (s.malloc grow size).2.live = s.live := by
  rw [malloc]
  split_ifs
  · exact ⟨rfl, rfl, rfl⟩
  · split <;> exact ⟨rfl, rfl, rfl⟩

/-- So is one of `free`. -/
theorem free_frame {ptr : Option ℕ} (hf : s.free ptr = some s') : s'.base = s.base ∧ s'.begun = s.begun ∧ s'.live = s.live := by
  cases ptr with
  | none => exact Option.some.inj hf ▸ ⟨rfl, rfl, rfl⟩
  | some p =>
    obtain ⟨bs, -, rfl⟩ := Option.map_eq_some_iff.mp hf
    exact ⟨rfl, rfl, rfl⟩

/-- And one of `realloc`. -/
theorem realloc_frame {ptr r : Option ℕ} (hsize : size ≠ 0) (hr : s.realloc grow ptr size = some (r, s')) :
    s'.base = s.base ∧ s'.begun = true ∧ s'.live = s.live := by
  obtain ⟨hbase, hbegun, hlive⟩ := s.malloc_frame grow size
  rw [realloc, if_neg hsize] at hr
  cases hm : s.malloc grow size with
  | mk q s₁ =>
    rw [hm] at hr hbase hbegun hlive
    cases q with
    | none =>
      obtain ⟨-, rfl⟩ := Prod.mk.inj (Option.some.inj hr)
      exact ⟨hbase, hbegun, hlive⟩
    | some p =>
      obtain ⟨s₂, hf, he⟩ := Option.map_eq_some_iff.mp hr
      obtain ⟨-, rfl⟩ := Prod.mk.inj he
      obtain ⟨hbase₂, hbegun₂, hlive₂⟩ := free_frame hf
      exact ⟨hbase₂.trans hbase, hbegun₂.trans hbegun, hlive₂.trans hlive⟩

/-- The sentinel stays where it is. -/
theorem step_base {e : ClientEvent} (hs : s.step e = some s') : s'.base = s.base := by
  cases e with
  | malloc size grow =>
    have hbase := (s.malloc_frame grow size).1
    simp only [step] at hs
    split at hs
    all_goals
      rename_i hm
      rw [hm] at hbase
      exact Option.some.inj hs ▸ hbase
  | realloc ptr size grow =>
    obtain ⟨⟨r, s₁⟩, hr, rfl⟩ := Option.map_eq_some_iff.mp hs
    have hbase : s₁.base = s.base := by
      by_cases hsize : size = 0
      · rw [realloc, if_pos hsize] at hr
        obtain ⟨s₂, hf, he⟩ := Option.map_eq_some_iff.mp hr
        obtain ⟨-, rfl⟩ := Prod.mk.inj he
        exact (free_frame hf).1
      · exact (realloc_frame hsize hr).1
    cases r with
    | none =>
      simp only
      split_ifs
      · exact hbase
      · exact hbase
    | some p => exact hbase
  | free ptr =>
    obtain ⟨s₁, hf, rfl⟩ := Option.map_eq_some_iff.mp hs
    exact (free_frame hf).1
  | write ptr offset value => exact Option.some.inj hs ▸ rfl

/-- **What `malloc` returns** is one more block in the row. -/
theorem malloc_more (hc : Coalesced (sentinel :: s.blocks)) (hm : s.malloc grow size = (some p, s')) :
    ∃ n e, size ≤ n ∧ n < size + minNewSize ∧ More s.first s.blocks s'.blocks p n e := by
  rw [malloc] at hm
  split_ifs at hm with hsize
  · cases hm
  · have hg := grant_granted size s.first grow s.blocks
    split at hm
    · cases hm
    · rename_i q bs hsome
      obtain ⟨hq, rfl⟩ := Prod.mk.inj hm
      obtain rfl := Option.some.inj hq
      rw [hsome] at hg
      exact hg.more hc

end Arena

end Cs162Hw.Alloc
