import Mathlib.Algebra.Group.Nat.Defs
import Mathlib.Algebra.Group.Int.Defs
import Mathlib.Logic.Function.Basic
import Mathlib.Data.List.Nodup
import Mathlib.Data.Nat.Notation
import Cs162Hw.Library.Steps

/-!
# The work queue

`hw4/src/wq.c`: the queue between the thread that accepts connections and the workers. Its items are a
doubly linked list of `utlist.h`, in which the first item has the last one for its `prev`; `size` is kept beside
it.

What a thread does between locking and unlocking the mutex is one step. `wq_pop` may wait in between, and then the others go
on; a thread returns from `pthread_cond_wait` at any time, as it may, be it for a broadcast or not, and tests again.
It frees its item after it has unlocked the mutex.

* `dlAppend_spec`, `dlDeleteHead_spec`: what the macros of `utlist.h` make of a list, be it empty, of one item or of more.
* **`wq_fifo`**: whatever the threads do and in which order, what has been popped and what is linked are what has been
  pushed, in its order.
-/

namespace Cs162Hw.Kv.WorkQueue

open Cs162Hw.Library.Steps

variable {α : Type}

/-! ## The queue -/

/-- `wq_item_t`. -/
structure WqItem (α : Type) where
  /-- The item. -/
  item : α
  /-- The next item in the queue. -/
  next : Option ℕ
  /-- The previous item in the queue. -/
  prev : Option ℕ

/-- `wq_t`, and the memory it is in. -/
structure Wq (α : Type) where
  /-- What `calloc` has returned and `free` has not taken back. -/
  nodes : ℕ → Option (WqItem α)
  /-- The number of items. -/
  size : Int32
  /-- The first item. -/
  head : Option ℕ

namespace Wq

/-- `wq_init`. -/
def init : Wq α := ⟨fun _ => none, 0, none⟩

/-- Assign to fields of an item. There is none at an address that is not allocated. -/
def update (q : Wq α) (a : ℕ) (f : WqItem α → WqItem α) : Option (Wq α) := do
  let n ← q.nodes a
  some { q with nodes := Function.update q.nodes a (some (f n)) }

/-- `DL_APPEND(wq->head, add)`. -/
def dlAppend (q : Wq α) (add : ℕ) : Option (Wq α) :=
  match q.head with
  | some head => do
    let h ← q.nodes head
    let q ← q.update add fun n => { n with prev := h.prev }
    let h ← q.nodes head
    let q ← q.update (← h.prev) fun n => { n with next := some add }
    let q ← q.update head fun n => { n with prev := some add }
    q.update add fun n => { n with next := none }
  | none => do
    let q ← { q with head := some add }.update add fun n => { n with prev := some add }
    q.update add fun n => { n with next := none }

/-- `DL_DELETE(wq->head, wq->head)`: of the three cases of the macro, that in which the item is neither alone nor the first
does not arise. -/
def dlDeleteHead (q : Wq α) : Option (Wq α) := do
  let del ← q.head
  let d ← q.nodes del
  if (← d.prev) = del then some { q with head := none }
  else do
    let q ← q.update (← d.next) fun n => { n with prev := d.prev }
    let d ← q.nodes del
    some { q with head := d.next }

/-- `wq_push`, `node` being what `calloc` returns. -/
def push (q : Wq α) (item : α) (node : ℕ) : Option (Wq α) := do
  let q ← { q with nodes := Function.update q.nodes node (some ⟨item, none, none⟩) }.dlAppend node
  some { q with size := q.size + 1 }

/-- `wq_pop` between its loop and `pthread_mutex_unlock`: `wq_item` and `job`. -/
def take (q : Wq α) : Option (ℕ × α × Wq α) := do
  let wqItem ← q.head
  let head ← q.nodes wqItem
  let q ← { q with size := q.size - 1 }.dlDeleteHead
  some (wqItem, head.item, q)

/-- `free`. -/
def free (q : Wq α) (node : ℕ) : Wq α := { q with nodes := Function.update q.nodes node none }

end Wq

/-! ## What the list is -/

/-- The first of some items, `next` being what comes behind them. -/
def first (next : Option ℕ) : List (ℕ × α) → Option ℕ
  | [] => next
  | p :: _ => some p.1

/-- The last of them, `prev` being what comes before them. -/
def last (prev : Option ℕ) : List (ℕ × α) → Option ℕ
  | [] => prev
  | p :: l => last (some p.1) l

/-- What their nodes hold. -/
def links (prev next : Option ℕ) : List (ℕ × α) → List (ℕ × WqItem α)
  | [] => []
  | p :: l => (p.1, ⟨p.2, first next l, prev⟩) :: links (some p.1) next l

section

variable {prev next : Option ℕ} {p : ℕ × α} {l m : List (ℕ × α)} {a : ℕ} {x : α}

@[simp] theorem first_nil : first next ([] : List (ℕ × α)) = next := rfl

@[simp] theorem first_cons : first next (p :: l) = some p.1 := rfl

@[simp] theorem last_nil : last prev ([] : List (ℕ × α)) = prev := rfl

@[simp] theorem last_cons : last prev (p :: l) = last (some p.1) l := rfl

@[simp] theorem links_nil : links prev next ([] : List (ℕ × α)) = [] := rfl

@[simp] theorem links_cons : links prev next (p :: l) = (p.1, ⟨p.2, first next l, prev⟩) :: links (some p.1) next l := rfl

@[simp] theorem first_append : first next (l ++ m) = first (first next m) l := by
  cases l <;> rfl

@[simp] theorem last_append : last prev (l ++ m) = last (last prev l) m := by
  induction l generalizing prev with
  | nil => rfl
  | cons p l ih => exact ih

@[simp] theorem links_append : links prev next (l ++ m) = links prev (first next m) l ++ links (last prev l) next m := by
  induction l generalizing prev with
  | nil => rfl
  | cons p l ih => simp [ih]

theorem links_fst : (links prev next l).map Prod.fst = l.map Prod.fst := by
  induction l generalizing prev with
  | nil => rfl
  | cons p l ih => simp [ih]

theorem links_fst_mem {p : ℕ × WqItem α} (hp : p ∈ links prev next l) : p.1 ∈ l.map Prod.fst := by
  rw [← links_fst]
  exact List.mem_map_of_mem hp

theorem last_mem {z : ℕ} (h : last prev l = some z) : prev = some z ∨ z ∈ l.map Prod.fst := by
  induction l generalizing prev with
  | nil => exact .inl h
  | cons p l ih =>
    right
    rcases ih h with hp | hz
    · exact List.mem_cons.mpr (.inl (Option.some.inj hp).symm)
    · exact List.mem_cons_of_mem _ hz

end

/-- The queue is a list of these items, each at its address: the first has the last for its `prev`, the last has no
`next`. -/
structure Linked (q : Wq α) (l : List (ℕ × α)) : Prop where
  /-- The addresses differ. -/
  nodup : (l.map Prod.fst).Nodup
  /-- The first item. -/
  head : q.head = first none l
  /-- The items. -/
  nodes : ∀ p ∈ links (last none l) none l, q.nodes p.1 = some p.2

/-! ## The macros -/

section

variable {q : Wq α} {l : List (ℕ × α)} {a : ℕ} {x : α} {n : WqItem α}

/-- `q'` is `q` with `m` at `a`. -/
structure Writes (q q' : Wq α) (a : ℕ) (m : WqItem α) : Prop where
  /-- The node. -/
  node : q'.nodes a = some m
  /-- The others. -/
  others : ∀ b, b ≠ a → q'.nodes b = q.nodes b
  /-- `size`. -/
  size : q'.size = q.size
  /-- `head`. -/
  head : q'.head = q.head

theorem Wq.update_spec (h : q.nodes a = some n) (f : WqItem α → WqItem α) :
    ∃ q', q.update a f = some q' ∧ Writes q q' a (f n) := by
  refine ⟨{ q with nodes := Function.update q.nodes a (some (f n)) }, by rw [Wq.update, h]; rfl, ?_, ?_, rfl, rfl⟩
  · exact Function.update_self ..
  · exact fun b hb => Function.update_of_ne hb ..

/-- `DL_APPEND` where there is a first item: what it writes to the new node, to the first item and to the last, which may be
the first. -/
theorem dlAppend_writes {head z : ℕ} {h w : WqItem α} (hhead : q.head = some head) (hh : q.nodes head = some h)
    (hprev : h.prev = some z) (hz : q.nodes z = some w) (hn : q.nodes a = some n) (hah : a ≠ head) (haz : a ≠ z) :
    ∃ q', q.dlAppend a = some q' ∧ q'.size = q.size ∧ q'.head = some head ∧
      q'.nodes a = some { n with next := none, prev := some z } ∧
      q'.nodes head = some { h with next := if head = z then some a else h.next, prev := some a } ∧
      (head ≠ z → q'.nodes z = some { w with next := some a }) ∧
      ∀ b, b ≠ a → b ≠ head → b ≠ z → q'.nodes b = q.nodes b := by
  obtain ⟨q₁, e₁, w₁⟩ := Wq.update_spec hn fun n => { n with prev := some z }
  have h₁ := (w₁.others head hah.symm).trans hh
  obtain ⟨q₂, e₂, w₂⟩ := Wq.update_spec ((w₁.others z haz.symm).trans hz) fun n => { n with next := some a }
  have h₂ : q₂.nodes head = some { h with next := if head = z then some a else h.next } := by
    by_cases hne : head = z
    · subst hne
      obtain rfl : h = w := Option.some.inj (hh.symm.trans hz)
      rw [w₂.node, if_pos rfl]
    · rw [w₂.others head hne, h₁, if_neg hne]
  obtain ⟨q₃, e₃, w₃⟩ := Wq.update_spec h₂ fun n => { n with prev := some a }
  have a₃ := (w₃.others a hah).trans ((w₂.others a haz).trans w₁.node)
  obtain ⟨q₄, e₄, w₄⟩ := Wq.update_spec a₃ fun n => { n with next := none }
  refine ⟨q₄, ?_, ?_, ?_, ?_, ?_, fun hne => ?_, fun b hba hbh hbz => ?_⟩
  · simp only [Wq.dlAppend, hhead, hh, Option.bind_eq_bind, Option.bind_some, e₁, h₁, hprev, e₂, e₃, e₄]
  · exact w₄.size.trans (w₃.size.trans (w₂.size.trans w₁.size))
  · exact w₄.head.trans (w₃.head.trans (w₂.head.trans (w₁.head.trans hhead)))
  · exact w₄.node
  · exact (w₄.others head hah.symm).trans w₃.node
  · exact (w₄.others z haz.symm).trans ((w₃.others z hne.symm).trans w₂.node)
  · exact (w₄.others b hba).trans ((w₃.others b hbh).trans ((w₂.others b hbz).trans (w₁.others b hba)))

/-- **`DL_APPEND`** of a node that is not in the list. -/
theorem dlAppend_spec (hl : Linked q l) (hout : a ∉ l.map Prod.fst) (hn : q.nodes a = some ⟨x, none, none⟩) :
    ∃ q', q.dlAppend a = some q' ∧ Linked q' (l ++ [(a, x)]) ∧ q'.size = q.size ∧
      ∀ b, b ≠ a → b ∉ l.map Prod.fst → q'.nodes b = q.nodes b := by
  have hnodup : ((l ++ [(a, x)]).map Prod.fst).Nodup := by
    rw [List.map_append]
    refine List.nodup_append.mpr ⟨hl.nodup, List.nodup_singleton a, fun b hb c hc => ?_⟩
    rw [List.mem_singleton.mp hc]
    rintro rfl
    exact hout hb
  cases l with
  | nil =>
    have hhead : q.head = none := hl.head
    obtain ⟨q₁, e₁, w₁⟩ := @Wq.update_spec _ { q with head := some a } a _ hn fun n => { n with prev := some a }
    obtain ⟨q₂, e₂, w₂⟩ := Wq.update_spec w₁.node fun n => { n with next := none }
    refine ⟨q₂, ?_, ⟨hnodup, w₂.head.trans w₁.head, ?_⟩, w₂.size.trans w₁.size, fun b hb _ => ?_⟩
    · simp only [Wq.dlAppend, hhead, e₁, Option.bind_eq_bind, Option.bind_some, e₂]
    · rintro p hp
      obtain rfl := List.mem_singleton.mp hp
      exact w₂.node
    · exact (w₂.others b hb).trans (w₁.others b hb)
  | cons p l =>
    obtain ⟨h, y⟩ := p
    have hhead : q.head = some h := hl.head
    have hah : a ≠ h := fun he => hout (he ▸ List.mem_cons_self)
    rcases List.eq_nil_or_concat' l with rfl | ⟨l, ⟨z, w⟩, rfl⟩
    · -- the first item is the last one, too
      have hh : q.nodes h = some ⟨y, none, some h⟩ := hl.nodes _ List.mem_cons_self
      obtain ⟨q', e, hsize, hhead', hnode, hfirst, -, hothers⟩ := dlAppend_writes hhead hh rfl hh hn hah hah
      refine ⟨q', e, ⟨hnodup, hhead', ?_⟩, hsize, fun b hb hbl => ?_⟩
      · rintro p hp
        rcases List.mem_cons.mp hp with rfl | hp
        · rw [hfirst, if_pos rfl]
          rfl
        · obtain rfl := List.mem_singleton.mp hp
          exact hnode
      · have hbh : b ≠ h := fun he => hbl (he ▸ List.mem_cons_self)
        exact hothers b hb hbh hbh
    · have hlast : last none ((h, y) :: (l ++ [(z, w)])) = some z := by simp
      have hnodes := hl.nodes
      rw [hlast] at hnodes
      simp only [links_cons, links_append, links_nil, first_append, first_cons, first_nil] at hnodes
      have hh : q.nodes h = some ⟨y, first (some z) l, some z⟩ := hnodes _ List.mem_cons_self
      have hz : q.nodes z = some ⟨w, none, last (some h) l⟩ :=
        hnodes _ (List.mem_cons_of_mem _ (List.mem_append_right _ List.mem_cons_self))
      have hnd := hl.nodup
      simp only [List.map_cons, List.map_append, List.map_nil, List.nodup_cons, List.mem_append, List.mem_singleton,
        not_or] at hnd
      obtain ⟨⟨hhl, hhz⟩, hnd⟩ := hnd
      have hzl : z ∉ l.map Prod.fst := fun hz => (List.nodup_append.mp hnd).2.2 z hz z (List.mem_singleton_self z) rfl
      simp only [List.map_cons, List.map_append, List.map_nil, List.mem_cons, List.mem_append, List.not_mem_nil, or_false,
        not_or] at hout
      obtain ⟨-, hal, haz⟩ := hout
      obtain ⟨q', e, hsize, hhead', hnode, hfirst, hlast', hothers⟩ := dlAppend_writes hhead hh rfl hz hn hah haz
      refine ⟨q', e, ⟨hnodup, hhead', ?_⟩, hsize, fun b hb hbl => ?_⟩
      · have hnew : last none ((h, y) :: (l ++ [(z, w)]) ++ [(a, x)]) = some a := by simp
        rw [hnew]
        simp only [List.cons_append, List.append_assoc, List.nil_append, links_cons, links_append, links_nil, first_append,
          first_cons, first_nil]
        rintro p hp
        rcases List.mem_cons.mp hp with rfl | hp
        · rw [hfirst, if_neg hhz]
        rcases List.mem_append.mp hp with hp | hp
        · -- an item in between
          have hpl : p.1 ∈ l.map Prod.fst := links_fst_mem hp
          rw [hothers p.1 (fun he => hal (he ▸ hpl)) (fun he => hhl (he ▸ hpl)) fun he => hzl (he ▸ hpl)]
          exact hnodes p (List.mem_cons_of_mem _ (List.mem_append_left _ hp))
        · rcases List.mem_cons.mp hp with rfl | hp
          · exact hlast' hhz
          · obtain rfl := List.mem_singleton.mp hp
            exact hnode
      · simp only [List.map_cons, List.map_append, List.map_nil, List.mem_cons, List.mem_append, List.not_mem_nil,
          or_false, not_or] at hbl
        exact hothers b hb hbl.1 hbl.2.2

/-- **`DL_DELETE`** of the first item. -/
theorem dlDeleteHead_spec {h : ℕ} {y : α} (hl : Linked q ((h, y) :: l)) :
    ∃ q', q.dlDeleteHead = some q' ∧ Linked q' l ∧ q'.size = q.size ∧ ∀ b, b ∉ l.map Prod.fst → q'.nodes b = q.nodes b := by
  have hhead : q.head = some h := hl.head
  cases l with
  | nil =>
    have hh : q.nodes h = some ⟨y, none, some h⟩ := hl.nodes _ List.mem_cons_self
    refine ⟨{ q with head := none }, ?_, ⟨List.nodup_nil, rfl, fun p hp => absurd hp List.not_mem_nil⟩, rfl, fun b _ => rfl⟩
    simp only [Wq.dlDeleteHead, hhead, hh, Option.bind_eq_bind, Option.bind_some, if_true]
  | cons p l =>
    obtain ⟨n, v⟩ := p
    obtain ⟨z, hlast⟩ : ∃ z, last (some n) l = some z := by
      rcases List.eq_nil_or_concat' l with rfl | ⟨l, r, rfl⟩
      · exact ⟨n, rfl⟩
      · exact ⟨r.1, by simp⟩
    have hnodes := hl.nodes
    simp only [last_cons, hlast, links_cons, first_cons] at hnodes
    have hh : q.nodes h = some ⟨y, some n, some z⟩ := hnodes _ List.mem_cons_self
    have hn : q.nodes n = some ⟨v, first none l, some h⟩ := hnodes _ (List.mem_cons_of_mem _ List.mem_cons_self)
    obtain ⟨hhl, hnodup⟩ := List.nodup_cons.mp hl.nodup
    have hnl := (List.nodup_cons.mp hnodup).1
    have hhn : h ≠ n := fun he => hhl (he ▸ List.mem_cons_self)
    have hzh : z ≠ h := by
      rintro rfl
      rcases last_mem hlast with he | hz
      · exact hhn (Option.some.inj he).symm
      · exact hhl (List.mem_cons_of_mem _ hz)
    obtain ⟨q₁, e₁, w₁⟩ := Wq.update_spec hn fun m => { m with prev := some z }
    have h₁ := (w₁.others h hhn).trans hh
    refine ⟨{ q₁ with head := some n }, ?_, ⟨hnodup, rfl, ?_⟩, w₁.size, fun b hb => ?_⟩
    · simp only [Wq.dlDeleteHead, hhead, hh, Option.bind_eq_bind, Option.bind_some, if_neg hzh, e₁, h₁]
    · -- the last item is the one it was
      rw [last_cons, hlast, links_cons]
      rintro p hp
      rcases List.mem_cons.mp hp with rfl | hp
      · exact w₁.node
      · have hpl : p.1 ∈ l.map Prod.fst := links_fst_mem hp
        refine (w₁.others p.1 fun he => hnl (he ▸ hpl)).trans ?_
        exact hnodes p (List.mem_cons_of_mem _ (List.mem_cons_of_mem _ hp))
    · exact w₁.others b fun he => hb (he ▸ List.mem_cons_self)

/-! ## `wq_push` and `wq_pop` -/

theorem Linked.not_mem_of_free (hl : Linked q l) (hfree : q.nodes a = none) : a ∉ l.map Prod.fst := by
  intro ha
  rw [← @links_fst _ (last none l) none] at ha
  obtain ⟨p, hp, rfl⟩ := List.mem_map.mp ha
  rw [hl.nodes p hp] at hfree
  cases hfree

/-- `wq_push`, with memory that was free. -/
theorem push_spec (hl : Linked q l) (hfree : q.nodes a = none) (x : α) :
    ∃ q', q.push x a = some q' ∧ Linked q' (l ++ [(a, x)]) ∧ q'.size = q.size + 1 ∧
      ∀ b, b ≠ a → b ∉ l.map Prod.fst → q'.nodes b = q.nodes b := by
  have hout := hl.not_mem_of_free hfree
  obtain ⟨q₀, hq₀⟩ : ∃ q₀ : Wq α, { q with nodes := Function.update q.nodes a (some ⟨x, none, none⟩) } = q₀ := ⟨_, rfl⟩
  have hothers : ∀ b, b ≠ a → q₀.nodes b = q.nodes b := by
    intro b hb
    rw [← hq₀]
    exact Function.update_of_ne hb ..
  have hl₀ : Linked q₀ l := by
    refine ⟨hl.nodup, by rw [← hq₀]; exact hl.head, fun p hp => ?_⟩
    have hpl : p.1 ∈ l.map Prod.fst := links_fst_mem hp
    exact (hothers p.1 fun he => hout (he ▸ hpl)).trans (hl.nodes p hp)
  have hn : q₀.nodes a = some ⟨x, none, none⟩ := by
    rw [← hq₀]
    exact Function.update_self ..
  obtain ⟨q₁, e₁, hl₁, hsize, hrest⟩ := dlAppend_spec hl₀ hout hn
  refine ⟨{ q₁ with size := q₁.size + 1 }, ?_, ⟨hl₁.nodup, hl₁.head, hl₁.nodes⟩, ?_, fun b hb hbl => ?_⟩
  · rw [Wq.push, hq₀, e₁]
    rfl
  · show q₁.size + 1 = _
    rw [hsize, ← hq₀]
  · exact (hrest b hb hbl).trans (hothers b hb)

/-- `wq_pop`, once it has not got to wait. -/
theorem take_spec {h : ℕ} {y : α} (hl : Linked q ((h, y) :: l)) :
    ∃ q', q.take = some (h, y, q') ∧ Linked q' l ∧ q'.size = q.size - 1 ∧
      ∀ b, b ∉ l.map Prod.fst → q'.nodes b = q.nodes b := by
  have hhead : q.head = some h := hl.head
  have hh := hl.nodes _ List.mem_cons_self
  obtain ⟨q', e, hl', hsize, hrest⟩ := @dlDeleteHead_spec _ { q with size := q.size - 1 } l h y ⟨hl.nodup, hl.head, hl.nodes⟩
  refine ⟨q', ?_, hl', hsize, hrest⟩
  rw [hhead] at e
  simp only [Wq.take, hhead, hh, Option.bind_eq_bind, Option.bind_some, e]

end

/-! ## Threads -/

/-- Where a thread is. -/
inductive Thread (α : Type) where
  /-- In none of the functions of the queue. -/
  | outside
  /-- In `pthread_cond_wait`. -/
  | waiting
  /-- In `wq_pop` behind `pthread_mutex_unlock`. -/
  | popped (wqItem : ℕ) (job : α)
  deriving DecidableEq

/-- The item that it is about to free. -/
def Thread.wqItem : Thread α → Option ℕ
  | .popped wqItem _ => some wqItem
  | _ => none

theorem Thread.wqItem_ne_none (t : Thread α) : t.wqItem ≠ none ↔ ∃ wqItem job, t = .popped wqItem job := by
  cases t <;> simp [Thread.wqItem]

/-- The queue and its threads, with all that has been pushed and all that has been popped, in the order of the mutex. -/
structure WqState (α : Type) where
  /-- The queue. -/
  wq : Wq α
  /-- The threads. -/
  threads : ℕ → Thread α
  /-- What has been pushed. -/
  pushed : List α
  /-- What has been popped. -/
  taken : List α

/-- What a thread does. -/
inductive WqEvent (α : Type) where
  /-- `wq_push`, and what `calloc` returns. -/
  | push (thread : ℕ) (item : α) (node : ℕ)
  /-- It calls `wq_pop`, and gets to wait or to the end of the critical section. -/
  | pop (thread : ℕ)
  /-- It returns from `pthread_cond_wait`, and gets to wait again or to the end of the critical section. -/
  | wake (thread : ℕ)
  /-- It frees the item it has popped and returns. -/
  | finish (thread : ℕ)

namespace WqState

/-- After `wq_init`. -/
def start : WqState α := ⟨.init, fun _ => .outside, [], []⟩

/-- `wq_pop` from the test of its loop on. -/
def test (s : WqState α) (thread : ℕ) : Option (WqState α) :=
  if s.wq.size = 0 then some { s with threads := Function.update s.threads thread .waiting }
  else do
    let (wqItem, job, wq) ← s.wq.take
    some { s with
      wq := wq
      threads := Function.update s.threads thread (.popped wqItem job)
      taken := s.taken ++ [job] }

/-- One step of a thread. -/
def step (s : WqState α) : WqEvent α → Option (WqState α)
  | .push _ item node => do
    let wq ← s.wq.push item node
    some { s with wq := wq, pushed := s.pushed ++ [item] }
  | .pop thread => s.test thread
  | .wake thread => s.test thread
  | .finish thread =>
    match s.threads thread with
    | .popped wqItem _ => some { s with wq := s.wq.free wqItem, threads := Function.update s.threads thread .outside }
    | _ => none

/-- The thread is where it does this, and memory that `calloc` returns was free. -/
def Allowed (s : WqState α) : WqEvent α → Prop
  | .push thread _ node => s.threads thread = .outside ∧ s.wq.nodes node = none
  | .pop thread => s.threads thread = .outside
  | .wake thread => s.threads thread = .waiting
  | .finish thread => ∃ wqItem job, s.threads thread = .popped wqItem job

/-- Whether a step is allowed can be computed. -/
instance decidableAllowed [DecidableEq α] (s : WqState α) : (e : WqEvent α) → Decidable (s.Allowed e)
  | .push _ _ _ => inferInstanceAs (Decidable (_ ∧ _))
  | .pop _ => inferInstanceAs (Decidable (_ = _))
  | .wake _ => inferInstanceAs (Decidable (_ = _))
  | .finish thread => decidable_of_iff ((s.threads thread).wqItem ≠ none) (s.threads thread).wqItem_ne_none

/-- What threads are about to free, is allocated and not linked, and none is freed by two of them. -/
structure Owned (nodes : ℕ → Option (WqItem α)) (l : List (ℕ × α)) (threads : ℕ → Thread α) : Prop where
  /-- It is allocated and not linked. -/
  popped : ∀ t a, (threads t).wqItem = some a → nodes a ≠ none ∧ a ∉ l.map Prod.fst
  /-- It is freed by one thread. -/
  once : ∀ t t' a, (threads t).wqItem = some a → (threads t').wqItem = some a → t = t'

/-- What has been popped and what is linked are what has been pushed, in its order; the number of items is kept modulo
`2 ^ 32`. -/
structure Inv (s : WqState α) (l : List (ℕ × α)) : Prop where
  /-- The list. -/
  linked : Linked s.wq l
  /-- Its length. -/
  size : s.wq.size = .ofNat l.length
  /-- First in, first out. -/
  fifo : s.taken ++ l.map Prod.snd = s.pushed
  /-- What is popped. -/
  owned : Owned s.wq.nodes l s.threads

theorem Inv.start : Inv (start : WqState α) [] where
  linked := ⟨List.nodup_nil, rfl, fun _ hp => absurd hp List.not_mem_nil⟩
  size := rfl
  fifo := rfl
  owned := ⟨fun _ _ h => (by cases h), fun _ _ _ h => (by cases h)⟩

variable {s : WqState α} {l : List (ℕ × α)} {threads : ℕ → Thread α}

theorem wqItem_update (t t' : ℕ) (v : Thread α) :
    (Function.update threads t v t').wqItem = if t' = t then v.wqItem else (threads t').wqItem := by
  rw [Function.update_apply]
  split_ifs
  · rfl
  · rfl

/-- `wq_pop` from its test on: it waits, or takes the first item, and there is one. -/
theorem Inv.test (hi : Inv s l) (t : ℕ) : ∃ s', s.test t = some s' ∧ ∃ l', Inv s' l' := by
  by_cases hsize : s.wq.size = 0
  · refine ⟨_, if_pos hsize, l, hi.linked, hi.size, hi.fifo, fun t' a h => ?_, fun t₁ t₂ a h₁ h₂ => ?_⟩
    · rw [wqItem_update] at h
      split_ifs at h
      · cases h
      · exact hi.owned.popped t' a h
    · rw [wqItem_update] at h₁ h₂
      split_ifs at h₁ h₂
      · cases h₁
      · cases h₁
      · cases h₂
      · exact hi.owned.once t₁ t₂ a h₁ h₂
  · cases l with
    | nil => exact absurd hi.size hsize
    | cons p l =>
      obtain ⟨h, y⟩ := p
      obtain ⟨q', e, hl', hsize', hrest⟩ := take_spec hi.linked
      obtain ⟨hhl, -⟩ := List.nodup_cons.mp hi.linked.nodup
      have hh : s.wq.nodes h ≠ none := by
        rw [hi.linked.nodes _ List.mem_cons_self]
        exact Option.some_ne_none _
      have hne : ∀ t', (s.threads t').wqItem ≠ some h := fun t' ht' => (hi.owned.popped t' h ht').2 List.mem_cons_self
      refine ⟨⟨q', Function.update s.threads t (.popped h y), s.pushed, s.taken ++ [y]⟩, ?_, l, hl', ?_, ?_, ?_, ?_⟩
      · rw [WqState.test, if_neg hsize, e]
        rfl
      · show q'.size = _
        rw [hsize', hi.size, List.length_cons, Int32.ofNat_add]
        exact Int32.add_sub_cancel _ _
      · show s.taken ++ [y] ++ l.map Prod.snd = s.pushed
        rw [← hi.fifo, List.append_assoc]
        rfl
      · intro t' a ht'
        show q'.nodes a ≠ none ∧ a ∉ l.map Prod.fst
        rw [wqItem_update] at ht'
        split_ifs at ht'
        · cases ht'
          exact ⟨by rw [hrest h hhl]; exact hh, hhl⟩
        · obtain ⟨ha, hal⟩ := hi.owned.popped t' a ht'
          have hal : a ∉ l.map Prod.fst := fun hmem => hal (List.mem_cons_of_mem _ hmem)
          exact ⟨by rw [hrest a hal]; exact ha, hal⟩
      · intro t₁ t₂ a h₁ h₂
        rw [wqItem_update] at h₁ h₂
        split_ifs at h₁ h₂ with ht₁ ht₂ ht₂
        · rw [ht₁, ht₂]
        · cases h₁
          exact absurd h₂ (hne t₂)
        · cases h₂
          exact absurd h₁ (hne t₁)
        · exact hi.owned.once t₁ t₂ a h₁ h₂

/-- What a thread has when it is through with the critical section of `wq_pop`, or waits. -/
theorem test_cases {s s' : WqState α} {t : ℕ} (h : s.test t = some s') :
    s' = { s with threads := Function.update s.threads t .waiting } ∨
      ∃ wqItem job wq, s' = { s with
        wq := wq
        threads := Function.update s.threads t (.popped wqItem job)
        taken := s.taken ++ [job] } := by
  rw [WqState.test] at h
  split_ifs at h
  · exact Or.inl (Option.some.inj h).symm
  · obtain ⟨⟨wqItem, job, wq⟩, -, h⟩ := Option.bind_eq_some_iff.mp h
    exact Or.inr ⟨wqItem, job, wq, (Option.some.inj h).symm⟩

/-- `wq_push` appends to what is linked. What was free stays free, but for the memory it has got from `calloc`. -/
theorem Inv.push (hi : Inv s l) (t : ℕ) (item : α) {node : ℕ} (hfree : s.wq.nodes node = none) :
    ∃ s', s.step (.push t item node) = some s' ∧ Inv s' (l ++ [(node, item)]) ∧ s'.threads = s.threads ∧
      ∀ b, b ≠ node → s.wq.nodes b = none → s'.wq.nodes b = none := by
  obtain ⟨q', e, hl', hsize', hrest⟩ := push_spec hi.linked hfree item
  refine ⟨{ s with wq := q', pushed := s.pushed ++ [item] }, ?_,
    ⟨hl', ?_, ?_, fun t' a ht' => ?_, hi.owned.once⟩, rfl, fun b hb hbfree => ?_⟩
  · rw [WqState.step, e]
    rfl
  · show q'.size = _
    rw [hsize', hi.size, List.length_append, Int32.ofNat_add]
    rfl
  · show s.taken ++ (l ++ [(node, item)]).map Prod.snd = s.pushed ++ [item]
    rw [← hi.fifo, List.map_append, List.append_assoc]
    rfl
  · show q'.nodes a ≠ none ∧ a ∉ (l ++ [(node, item)]).map Prod.fst
    obtain ⟨hnodes, hal⟩ := hi.owned.popped t' a ht'
    have han : a ≠ node := fun he => hnodes (he ▸ hfree)
    refine ⟨by rw [hrest a han hal]; exact hnodes, fun hmem => ?_⟩
    rw [List.map_append, List.mem_append] at hmem
    exact hmem.elim hal fun hmem => han (List.mem_singleton.mp hmem)
  · exact (hrest b hb (hi.linked.not_mem_of_free hbfree)).trans hbfree

/-- **One step of a thread** has a result, and keeps the invariant. -/
theorem Inv.step (hi : Inv s l) {e : WqEvent α} (ha : s.Allowed e) : ∃ s', s.step e = some s' ∧ ∃ l', Inv s' l' := by
  cases e with
  | push t item node =>
    obtain ⟨s', e, hi', -, -⟩ := hi.push t item ha.2
    exact ⟨s', e, _, hi'⟩
  | pop t => exact hi.test t
  | wake t => exact hi.test t
  | finish t =>
    obtain ⟨a, x, ht⟩ := ha
    have hta : (s.threads t).wqItem = some a := by
      rw [ht]
      rfl
    have hal := (hi.owned.popped t a hta).2
    refine ⟨{ s with wq := s.wq.free a, threads := Function.update s.threads t .outside }, by simp only [WqState.step, ht], l,
      ⟨hi.linked.nodup, hi.linked.head, fun p hp => ?_⟩, hi.size, hi.fifo, fun t' b ht' => ?_, fun t₁ t₂ b h₁ h₂ => ?_⟩
    · have hpl : p.1 ∈ l.map Prod.fst := links_fst_mem hp
      have hpa : p.1 ≠ a := fun he => hal (he ▸ hpl)
      show Function.update s.wq.nodes a none p.1 = _
      rw [Function.update_of_ne hpa]
      exact hi.linked.nodes p hp
    · rw [wqItem_update] at ht'
      split_ifs at ht' with heq
      · cases ht'
      · obtain ⟨hb, hbl⟩ := hi.owned.popped t' b ht'
        refine ⟨?_, hbl⟩
        have hba : b ≠ a := fun he => heq (hi.owned.once t' t a (he ▸ ht') hta)
        show Function.update s.wq.nodes a none b ≠ none
        rw [Function.update_of_ne hba]
        exact hb
    · rw [wqItem_update] at h₁ h₂
      split_ifs at h₁ h₂
      · cases h₁
      · cases h₁
      · cases h₂
      · exact hi.owned.once t₁ t₂ b h₁ h₂

end WqState

/-! ## Every interleaving -/

section

variable {s : WqState α} {l : List (ℕ × α)} {events : List (WqEvent α)}

/-- **First in, first out**: whatever the threads do and in which order, none of them finds a list that is broken or empty
where it takes an item; what has been popped is the first part of what has been pushed, what is linked is the rest of it,
and `size` is their number as long as an `int` holds it. -/
theorem wq_fifo (h : Along WqState.step WqState.Allowed (WqState.start : WqState α) events) :
    ∃ s l, run WqState.step WqState.start events = some s ∧ Linked s.wq l ∧ s.taken ++ l.map Prod.snd = s.pushed ∧
      s.wq.size = .ofNat l.length ∧ (l.length < 2 ^ 31 → s.wq.size.toInt = l.length) := by
  obtain ⟨s, hrun, l, hi⟩ := h.run_total (I := fun s => ∃ l, WqState.Inv s l) ⟨[], WqState.Inv.start⟩
    fun ⟨_, hi⟩ ha => hi.step ha
  refine ⟨s, l, hrun, hi.linked, hi.fifo, hi.size, fun hl => ?_⟩
  rw [hi.size, Int32.toInt_ofNat_of_lt hl]

/-- Two threads wait, both are woken by the first of two items, and one of them waits again. -/
theorem wq_fifo_twoWaiters : ∃ s l,
    run WqState.step WqState.start
        [.pop 1, .pop 2, .push 0 'a' 10, .wake 2, .wake 1, .push 0 'b' 11, .finish 2, .wake 1] = some s ∧
      Linked s.wq l ∧ s.taken ++ l.map Prod.snd = s.pushed ∧ s.wq.size = .ofNat l.length ∧
      (l.length < 2 ^ 31 → s.wq.size.toInt = l.length) := by
  refine wq_fifo ?_
  decide

/-! ## More items than an `int` counts -/

/-- The thread that accepts connections pushes `n` items, and no worker pops any; `calloc` returns `node` first. -/
def pushes (item : α) (node : ℕ) : ℕ → List (WqEvent α)
  | 0 => []
  | n + 1 => .push 0 item node :: pushes item (node + 1) n

theorem pushes_spec (item : α) {node : ℕ} (n : ℕ) (hi : WqState.Inv s l) (hout : s.threads 0 = .outside)
    (hfree : ∀ b, node ≤ b → s.wq.nodes b = none) :
    Along WqState.step WqState.Allowed s (pushes item node n) ∧
      ∃ s' l', run WqState.step s (pushes item node n) = some s' ∧ WqState.Inv s' l' ∧ l'.length = l.length + n := by
  induction n generalizing s l node with
  | zero => exact ⟨trivial, s, l, rfl, hi, rfl⟩
  | succ n ih =>
    obtain ⟨s₁, e, hi₁, hthreads, hrest⟩ := hi.push 0 item (hfree node le_rfl)
    have hfree₁ : ∀ b, node + 1 ≤ b → s₁.wq.nodes b = none := fun b hb =>
      hrest b (Nat.ne_of_gt hb) (hfree b (Nat.le_of_succ_le hb))
    obtain ⟨halong, s', l', hrun, hi', hlen⟩ := ih hi₁ (hthreads ▸ hout) hfree₁
    refine ⟨⟨⟨hout, hfree node le_rfl⟩, fun s₂ e₂ => ?_⟩, s', l', run_cons_iff.mpr ⟨s₁, e, hrun⟩, hi', ?_⟩
    · obtain rfl := Option.some.inj (e.symm.trans e₂)
      exact halong
    · rw [hlen, List.length_append, List.length_singleton]
      omega

/-- Of `2 ^ 31` items that are linked, `size` makes a negative number. -/
theorem wq_size_negative : ∃ s l,
    Along WqState.step WqState.Allowed (WqState.start : WqState ℕ) (pushes 4 0 (2 ^ 31)) ∧
      run WqState.step WqState.start (pushes 4 0 (2 ^ 31)) = some s ∧ Linked s.wq l ∧ l.length = 2 ^ 31 ∧
      s.wq.size.toInt = -2 ^ 31 := by
  obtain ⟨halong, s, l, hrun, hi, hlen⟩ := pushes_spec 4 (2 ^ 31) (WqState.Inv.start (α := ℕ)) rfl fun _ _ => rfl
  rw [List.length_nil, Nat.zero_add] at hlen
  refine ⟨s, l, halong, hrun, hi.linked, hlen, ?_⟩
  rw [hi.size, hlen]
  decide

end

end Cs162Hw.Kv.WorkQueue
