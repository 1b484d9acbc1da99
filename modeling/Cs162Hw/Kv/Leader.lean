import Cs162Hw.Library.Ring
import Cs162Hw.Kv.Numerals

/-!
# The leader and its followers

`hw4/src/tpcleader.c`: `tpcleader_init`, `tpcleader_register`, `tpcleader_get_primary` and
`tpcleader_get_successor`. The leader keeps its followers in a circular list in the order of
their ids, and knows the node with the least id.

Pointers to nodes are natural numbers, in the order in which the nodes were allocated; nodes
are never freed. The array in which `tpcleader_register` puts `PORT:HOST` together has room for
it here, and the counters, `unsigned int` in the source, are natural numbers.

* `Ring leader l`: the nodes of `l` are the followers of `leader`. Registering keeps it
  (`Ring.register`).
* `Ring.getPrimary_eq` — the primary of a key; `TpcLeader.replicas` are the addresses the
  leader's loops go through from there.
-/

namespace Cs162Hw.Kv

open Library

/-! ## The list of followers -/

/-- Where a follower can be reached: a host, and the 16 bits of a port that `htons` keeps. -/
abbrev Address := CString × UInt16

/-- `tpcfollower_t`. -/
structure TpcFollower where
  /-- The unique id of the follower. -/
  id : UInt64
  /-- The host where it can be reached. -/
  host : CString
  /-- The port where it can be reached. -/
  port : UInt32
  /-- The next follower in the list. -/
  next : ℕ
  /-- The previous one. -/
  prev : ℕ

/-- Where `connect_to` looks for the follower. -/
def TpcFollower.address (follower : TpcFollower) : Address := (follower.host, follower.port.toUInt16)

/-- `tpcleader_t`, and the memory in which its list lies. -/
structure TpcLeader where
  /-- The number of followers this leader will use. -/
  followerCapacity : ℕ
  /-- The number of followers it is aware of. -/
  followerCount : ℕ
  /-- The number of followers a value is stored on. -/
  redundancy : ℕ
  /-- The head of the list, or `NULL`. -/
  followersHead : Option ℕ
  /-- The nodes. -/
  nodes : ℕ → TpcFollower
  /-- How many were allocated. -/
  allocated : ℕ

/-- `tpcleader_init`. -/
def tpcleaderInit (followerCapacity redundancy : ℕ) : TpcLeader where
  followerCapacity := followerCapacity
  followerCount := 0
  redundancy := if redundancy > followerCapacity then followerCapacity else redundancy
  followersHead := none
  nodes _ := ⟨0, .empty, 0, 0, 0⟩
  allocated := 0

/-- `i->next = j`. -/
def setNext (nodes : ℕ → TpcFollower) (i j : ℕ) : ℕ → TpcFollower :=
  Function.update nodes i { nodes i with next := j }

/-- `i->prev = j`. -/
def setPrev (nodes : ℕ → TpcFollower) (i j : ℕ) : ℕ → TpcFollower :=
  Function.update nodes i { nodes i with prev := j }

/-- Puts the node `new` before the node `curr`. -/
def splice (nodes : ℕ → TpcFollower) (new curr : ℕ) : ℕ → TpcFollower :=
  let nodes := setNext nodes new curr
  let nodes := setPrev nodes new (nodes curr).prev
  let nodes := setPrev nodes curr new
  setNext nodes (nodes new).prev new

/-- The loop of `tpcleader_register`, from the node `curr` on, and what follows it. The list has
fewer nodes than were allocated. -/
def registerFrom (leader : TpcLeader) (new first : ℕ) : ℕ → ℕ → TpcLeader
  | 0, _ => leader
  | fuel + 1, curr =>
    if (leader.nodes curr).id > (leader.nodes new).id then
      { leader with
        nodes := splice leader.nodes new curr
        followersHead := if curr = first then some new else leader.followersHead
        followerCount := leader.followerCount + 1 }
    else if (leader.nodes curr).id = (leader.nodes new).id then leader
    else if (leader.nodes curr).next ≠ first then registerFrom leader new first fuel (leader.nodes curr).next
    else
      -- the new follower has the highest id
      { leader with
        nodes := splice leader.nodes new first
        followerCount := leader.followerCount + 1 }

section

variable [StrHash]

/-- The id of the follower that registers with this host and this port. -/
def followerId (host port : CString) : UInt64 := strhash64 (colon port host)

/-- `tpcleader_register` before it takes the lock: the new node is the last one allocated, and linked to itself. -/
def allocFollower (leader : TpcLeader) (key val : CString) : TpcLeader :=
  let new := leader.allocated
  { leader with
    nodes := Function.update leader.nodes new ⟨followerId key val, key, .ofInt (atoi val), new, new⟩
    allocated := new + 1 }

omit [StrHash] in
/-- `tpcleader_register` under the lock: the node `new` goes into the list. -/
def insertFollower (leader : TpcLeader) (new : ℕ) : TpcLeader :=
  match leader.followersHead with
  | none => { leader with followersHead := some new, followerCount := leader.followerCount + 1 }
  | some first => registerFrom leader new first leader.allocated first

/-- `tpcleader_register`; no response if the process dies, on a `NULL` string. -/
def tpcleaderRegister (leader : TpcLeader) (req : KvRequest) : Option KvResponse × TpcLeader :=
  if leader.followerCount = leader.followerCapacity then (some ⟨.error, some errmsgFollowerCapacity⟩, leader)
  else
    match req.key, req.val with
    | some key, some val => (some ⟨.success, none⟩, insertFollower (allocFollower leader key val) leader.allocated)
    | _, _ => (none, leader)

end

/-- The loop of `tpcleader_get_primary`, from the node `curr` on. -/
def getPrimaryFrom (leader : TpcLeader) (hash : UInt64) (head : ℕ) : ℕ → ℕ → ℕ
  | 0, _ => head
  | fuel + 1, curr =>
    if (leader.nodes curr).id > hash then curr
    else if (leader.nodes curr).next ≠ head then getPrimaryFrom leader hash head fuel (leader.nodes curr).next
    else head

/-- `tpcleader_get_primary`; `some none` is `NULL`, and `none` that the process dies, the list of a
leader without followers being read. -/
def tpcleaderGetPrimary [StrHash] (leader : TpcLeader) (key : CString) : Option (Option ℕ) :=
  if leader.followerCount < leader.followerCapacity then some none
  else
    match leader.followersHead with
    | none => none
    | some head => some (some (getPrimaryFrom leader (strhash64 key) head leader.allocated head))

/-- `tpcleader_get_successor`. -/
def tpcleaderGetSuccessor (leader : TpcLeader) (predecessor : ℕ) : ℕ := (leader.nodes predecessor).next

/-! ## The ring -/

/-- The links of the list. -/
def linksOf (nodes : ℕ → TpcFollower) : Links ℕ := ⟨fun i => (nodes i).next, fun i => (nodes i).prev⟩

/-- What a node says of its follower. -/
def TpcFollower.label (follower : TpcFollower) : UInt64 × CString × UInt32 := (follower.id, follower.host, follower.port)

theorem links_setNext (nodes : ℕ → TpcFollower) (i j : ℕ) : linksOf (setNext nodes i j) = (linksOf nodes).setNext i j := by
  ext k <;> simp only [linksOf, setNext, Links.setNext, Function.update_apply] <;> split_ifs with h
  · rfl
  · rfl
  · rw [h]
  · rfl

theorem links_setPrev (nodes : ℕ → TpcFollower) (i j : ℕ) : linksOf (setPrev nodes i j) = (linksOf nodes).setPrev i j := by
  ext k <;> simp only [linksOf, setPrev, Links.setPrev, Function.update_apply] <;> split_ifs with h
  · rw [h]
  · rfl
  · rfl
  · rfl

theorem links_splice (nodes : ℕ → TpcFollower) (new curr : ℕ) :
    linksOf (splice nodes new curr) = (linksOf nodes).splice new curr := by
  have hprev : ∀ (nodes : ℕ → TpcFollower) (i : ℕ), (nodes i).prev = (linksOf nodes).prev i := fun _ _ => rfl
  simp only [splice, Links.splice, hprev, links_setNext, links_setPrev]

theorem label_setNext (nodes : ℕ → TpcFollower) (i j k : ℕ) : (setNext nodes i j k).label = (nodes k).label := by
  rw [setNext, Function.update_apply]
  split_ifs with h
  · rw [h]; rfl
  · rfl

theorem label_setPrev (nodes : ℕ → TpcFollower) (i j k : ℕ) : (setPrev nodes i j k).label = (nodes k).label := by
  rw [setPrev, Function.update_apply]
  split_ifs with h
  · rw [h]; rfl
  · rfl

/-- The labels stay as they are. -/
theorem label_splice (nodes : ℕ → TpcFollower) (new curr i : ℕ) : (splice nodes new curr i).label = (nodes i).label := by
  simp only [splice, label_setNext, label_setPrev]

/-- The nodes of `l` are the followers of `leader`. -/
structure Ring (leader : TpcLeader) (l : List ℕ) : Prop where
  /-- The first of them is the head. -/
  head : leader.followersHead = l.head?
  /-- They are linked to a ring. -/
  circular : (linksOf leader.nodes).Circular l
  /-- Their ids increase. -/
  sorted : l.Pairwise fun i j => (leader.nodes i).id < (leader.nodes j).id
  count : leader.followerCount = l.length
  allocated : ∀ i ∈ l, i < leader.allocated

variable {leader : TpcLeader} {l : List ℕ}

theorem Ring.nodup (h : Ring leader l) : l.Nodup :=
  h.sorted.imp fun {a b} hlt => show a ≠ b from fun heq => UInt64.lt_irrefl _ (heq ▸ hlt)

theorem Ring.length_le (h : Ring leader l) : l.length ≤ leader.allocated := by
  have hsub : l.toFinset ⊆ Finset.range leader.allocated := fun i hi =>
    Finset.mem_range.mpr (h.allocated i (List.mem_toFinset.mp hi))
  simpa [List.toFinset_card_of_nodup h.nodup] using Finset.card_le_card hsub

/-- A node put between those with smaller and those with greater ids. -/
theorem Ring.insert {pre suf : List ℕ} (h : Ring leader (pre ++ suf)) {new curr : ℕ}
    (hcurr : (suf ++ pre).head? = some curr) (hnew : new ∉ pre ++ suf) (halloc : new < leader.allocated)
    (hpre : ∀ i ∈ pre, (leader.nodes i).id < (leader.nodes new).id)
    (hsuf : ∀ i ∈ suf, (leader.nodes new).id < (leader.nodes i).id) :
    Ring { leader with
      nodes := splice leader.nodes new curr
      followersHead := if pre = [] then some new else leader.followersHead
      followerCount := leader.followerCount + 1 } (pre ++ new :: suf) := by
  have hid : ∀ i, (splice leader.nodes new curr i).id = (leader.nodes i).id := fun i =>
    congrArg Prod.fst (label_splice leader.nodes new curr i)
  refine ⟨?_, ?_, ?_, ?_, fun i hi => ?_⟩
  · cases pre with
    | nil => simp
    | cons a pre => simpa using h.head
  · obtain ⟨t, ht⟩ : ∃ t, suf ++ pre = curr :: t := by
      cases hl : suf ++ pre with
      | nil => rw [hl] at hcurr; cases hcurr
      | cons a t => rw [hl] at hcurr; exact ⟨t, by rw [Option.some.inj hcurr]⟩
    have hring : (linksOf leader.nodes).Circular (curr :: t) := ht ▸ h.circular.rotate List.isRotated_append
    have hnd : (new :: curr :: t).Nodup := by
      rw [← ht, List.nodup_cons]
      exact ⟨by simpa [or_comm] using hnew, (List.isRotated_append.nodup_iff).mp h.nodup⟩
    have := hring.splice hnd
    rw [← List.cons_append, ← ht] at this
    rw [links_splice]
    refine this.rotate ?_
    simpa using (List.isRotated_append : (suf ++ (pre ++ [new])) ~r _)
  · simp only [hid]
    obtain ⟨hp, hs, hps⟩ := List.pairwise_append.mp h.sorted
    refine List.pairwise_append.mpr ⟨hp, List.pairwise_cons.mpr ⟨hsuf, hs⟩, fun i hi j hj => ?_⟩
    rcases List.mem_cons.mp hj with rfl | hj
    · exact hpre i hi
    · exact hps i hi j hj
  · simp only [h.count, List.length_append, List.length_cons]
    omega
  · rcases List.mem_append.mp hi with hi | hi
    · exact h.allocated i (List.mem_append_left _ hi)
    · rcases List.mem_cons.mp hi with rfl | hi
      · exact halloc
      · exact h.allocated i (List.mem_append_right _ hi)

/-- What the insertion of the node `new` makes of the leader and its ring. -/
structure Inserted (leader leader' : TpcLeader) (new : ℕ) (l : List ℕ) : Prop where
  followerCapacity : leader'.followerCapacity = leader.followerCapacity
  redundancy : leader'.redundancy = leader.redundancy
  label : ∀ i, (leader'.nodes i).label = (leader.nodes i).label
  ring : ∃ l', Ring leader' l' ∧ l'.Perm (new :: l)

/-- Where the node goes that the loop has come to, if not before. -/
theorem Ring.inserted {pre suf : List ℕ} (h : Ring leader (pre ++ suf)) {new curr : ℕ} {head : Option ℕ}
    (hcurr : (suf ++ pre).head? = some curr) (hnew : new ∉ pre ++ suf) (halloc : new < leader.allocated)
    (hpre : ∀ i ∈ pre, (leader.nodes i).id < (leader.nodes new).id)
    (hsuf : ∀ i ∈ suf, (leader.nodes new).id < (leader.nodes i).id)
    (hhead : head = if pre = [] then some new else leader.followersHead) :
    Inserted leader { leader with
      nodes := splice leader.nodes new curr
      followersHead := head
      followerCount := leader.followerCount + 1 } new (pre ++ suf) :=
  ⟨rfl, rfl, label_splice leader.nodes new curr, pre ++ new :: suf,
    hhead ▸ h.insert hcurr hnew halloc hpre hsuf, List.perm_middle⟩

/-- A node is the first one exactly when there is none before it. -/
theorem eq_head_iff {first curr : ℕ} {t pre suf : List ℕ} (hnd : (first :: t).Nodup) (hl : first :: t = pre ++ curr :: suf) :
    curr = first ↔ pre = [] := by
  cases pre with
  | nil => exact iff_of_true (List.cons.inj hl).1.symm rfl
  | cons a pre =>
    obtain ⟨rfl, rfl⟩ := List.cons.inj hl
    refine iff_of_false ?_ (List.cons_ne_nil _ _)
    rintro rfl
    exact (List.nodup_cons.mp hnd).1 (by simp)

/-- The loop of `tpcleader_register` finds the new follower's id in the ring, or puts the new
node in. -/
theorem Ring.registerFrom {first : ℕ} {t : List ℕ} (h : Ring leader (first :: t)) {new : ℕ} (hnew : new ∉ first :: t)
    (halloc : new < leader.allocated) {fuel curr : ℕ} {pre suf : List ℕ} (hl : first :: t = pre ++ curr :: suf)
    (hpre : ∀ i ∈ pre, (leader.nodes i).id < (leader.nodes new).id) (hfuel : suf.length < fuel) :
    ((∃ i ∈ first :: t, (leader.nodes i).id = (leader.nodes new).id) ∧ registerFrom leader new first fuel curr = leader) ∨
      ((∀ i ∈ first :: t, (leader.nodes i).id ≠ (leader.nodes new).id) ∧
        Inserted leader (registerFrom leader new first fuel curr) new (first :: t)) := by
  have hnd := h.nodup
  have hsorted := h.sorted
  induction fuel generalizing pre curr suf with
  | zero => omega
  | succ fuel ih =>
    have hmem : curr ∈ first :: t := hl ▸ by simp
    rw [Kv.registerFrom]
    by_cases hgt : (leader.nodes curr).id > (leader.nodes new).id
    · -- before `curr`
      have hsuf : ∀ i ∈ curr :: suf, (leader.nodes new).id < (leader.nodes i).id := by
        rw [hl] at hsorted
        obtain ⟨hcs, -⟩ := List.pairwise_cons.mp (List.pairwise_append.mp hsorted).2.1
        intro i hi
        rcases List.mem_cons.mp hi with rfl | hi
        · exact hgt
        · exact UInt64.lt_trans hgt (hcs i hi)
      refine Or.inr ⟨fun i hi heq => ?_, ?_⟩
      · rw [hl] at hi
        rcases List.mem_append.mp hi with hi | hi
        · exact UInt64.lt_irrefl _ (heq ▸ hpre i hi)
        · exact UInt64.lt_irrefl _ (heq ▸ hsuf i hi)
      · rw [if_pos hgt, hl]
        rw [hl] at h hnew
        refine h.inserted rfl hnew halloc hpre hsuf ?_
        simp only [eq_head_iff hnd hl]
    · rw [if_neg hgt]
      by_cases heq : (leader.nodes curr).id = (leader.nodes new).id
      · rw [if_pos heq]
        exact Or.inl ⟨⟨curr, hmem, heq⟩, rfl⟩
      · rw [if_neg heq]
        have hlt : (leader.nodes curr).id < (leader.nodes new).id := UInt64.lt_of_le_of_ne (UInt64.not_lt.mp hgt) heq
        have hpre' : ∀ i ∈ pre ++ [curr], (leader.nodes i).id < (leader.nodes new).id := by
          intro i hi
          rcases List.mem_append.mp hi with hi | hi
          · exact hpre i hi
          · exact List.mem_singleton.mp hi ▸ hlt
        cases suf with
        | nil =>
          -- behind the last
          have hnext : (leader.nodes curr).next = first := by
            have := Links.Circular.next_last (hl ▸ h.circular)
            simp only [← hl, List.head_cons] at this
            exact this
          rw [if_neg (by simpa using hnext)]
          refine Or.inr ⟨fun i hi heq => UInt64.lt_irrefl _ (heq ▸ hpre' i (hl ▸ hi)), ?_⟩
          have hfull : first :: t = (first :: t) ++ [] := by simp
          rw [hfull]
          exact Ring.inserted (hfull ▸ h) rfl (by simpa using hnew) halloc (fun i hi => hpre' i (hl ▸ hi)) (by simp) rfl
        | cons b suf =>
          have hnext : (leader.nodes curr).next = b := Links.Circular.next_inner (hl ▸ h.circular)
          have hl' : first :: t = (pre ++ [curr]) ++ b :: suf := by simpa using hl
          have hne : b ≠ first := fun hb => by simpa using (eq_head_iff hnd hl').mp hb
          rw [if_pos (by rw [hnext]; exact hne), hnext]
          exact ih hl' hpre' (by simp at hfuel; omega)

/-! ## Registrations -/

section

variable [StrHash]

/-- The label of the node that a registration makes. -/
def registeredLabel (key val : CString) : UInt64 × CString × UInt32 := (followerId key val, key, .ofInt (atoi val))

/-- The labels of the followers. -/
def labels (leader : TpcLeader) (l : List ℕ) : List (UInt64 × CString × UInt32) := l.map fun i => (leader.nodes i).label

omit [StrHash] in
theorem ring_init (followerCapacity redundancy : ℕ) : Ring (tpcleaderInit followerCapacity redundancy) [] :=
  ⟨rfl, Links.circular_nil, .nil, rfl, by simp⟩

variable {key val : CString}

omit [StrHash] in
theorem Ring.notMem_allocated (h : Ring leader l) : leader.allocated ∉ l := fun hmem =>
  lt_irrefl _ (h.allocated _ hmem)

/-- The new node holds what was registered. -/
theorem label_allocFollower_self :
    ((allocFollower leader key val).nodes leader.allocated).label = registeredLabel key val := by
  simp only [allocFollower, Function.update_self]
  rfl

/-- The nodes of the list are not touched by the allocation. -/
theorem Ring.allocFollower_of_mem (h : Ring leader l) {i : ℕ} (hi : i ∈ l) :
    (allocFollower leader key val).nodes i = leader.nodes i := by
  have hne : i ≠ leader.allocated := by
    rintro rfl
    exact h.notMem_allocated hi
  exact Function.update_of_ne hne ..

theorem Ring.alloc (h : Ring leader l) : Ring (allocFollower leader key val) l := by
  refine ⟨h.head, h.circular.congr ?_ ?_, ?_, h.count, fun i hi => Nat.lt_succ_of_lt (h.allocated i hi)⟩
  · intro i hi
    simp only [linksOf, h.allocFollower_of_mem hi]
  · intro i hi
    simp only [linksOf, h.allocFollower_of_mem hi]
  · refine h.sorted.imp_of_mem fun hi hj hlt => ?_
    simpa only [h.allocFollower_of_mem hi, h.allocFollower_of_mem hj] using hlt

/-- What becomes of the new node under the lock: its id is known, and it is left out, or it goes into the ring. -/
theorem Ring.insertFollower_cases (h : Ring leader l) :
    ((∃ i ∈ l, (leader.nodes i).id = followerId key val) ∧
        insertFollower (allocFollower leader key val) leader.allocated = allocFollower leader key val) ∨
      ((∀ i ∈ l, (leader.nodes i).id ≠ followerId key val) ∧
        Inserted (allocFollower leader key val) (insertFollower (allocFollower leader key val) leader.allocated)
          leader.allocated l) := by
  have hring : Ring (allocFollower leader key val) l := h.alloc
  have hid : ((allocFollower leader key val).nodes leader.allocated).id = followerId key val :=
    congrArg Prod.fst label_allocFollower_self
  cases l with
  | nil =>
    refine Or.inr ⟨by simp, ?_⟩
    rw [Kv.insertFollower, show (allocFollower leader key val).followersHead = none from h.head]
    refine ⟨rfl, rfl, fun _ => rfl, [leader.allocated], ⟨rfl, ?_, List.pairwise_singleton _ _, ?_, ?_⟩, .refl _⟩
    · refine Links.circular_singleton ?_ ?_ <;> simp [linksOf, allocFollower]
    · simp [hring.count]
    · simp [allocFollower]
  | cons first t =>
    have hlen : t.length < leader.allocated + 1 := by
      have := h.length_le
      simp only [List.length_cons] at this
      omega
    rw [Kv.insertFollower, show (allocFollower leader key val).followersHead = some first from h.head]
    rcases hring.registerFrom h.notMem_allocated (Nat.lt_succ_self _)
        (show first :: t = [] ++ first :: t from rfl) (by simp) hlen with ⟨⟨i, hi, heq⟩, hsame⟩ | ⟨hne, hins⟩
    · rw [hid, h.allocFollower_of_mem hi] at heq
      exact Or.inl ⟨⟨i, hi, heq⟩, hsame⟩
    · refine Or.inr ⟨fun i hi => ?_, hins⟩
      have := hne i hi
      rwa [hid, h.allocFollower_of_mem hi] at this

/-- What a registration comes to, when there is room: the follower's id is known, and the followers are the
same, or it is new, and there is one more. -/
theorem Ring.insertFollower (h : Ring leader l) :
    let leader' := insertFollower (allocFollower leader key val) leader.allocated
    leader'.followerCapacity = leader.followerCapacity ∧ leader'.redundancy = leader.redundancy ∧
      ∃ l', Ring leader' l' ∧
        (((∃ i ∈ l, (leader.nodes i).id = followerId key val) ∧ labels leader' l' = labels leader l) ∨
          ((∀ i ∈ l, (leader.nodes i).id ≠ followerId key val) ∧
            (labels leader' l').Perm (registeredLabel key val :: labels leader l))) := by
  intro leader'
  have hlabels : labels (allocFollower leader key val) l = labels leader l :=
    List.map_congr_left fun i hi => by rw [h.allocFollower_of_mem hi]
  have hself : ((allocFollower leader key val).nodes leader.allocated).label = registeredLabel key val :=
    label_allocFollower_self
  rcases @Ring.insertFollower_cases leader l _ key val h with ⟨hknown, hsame⟩ | ⟨hne, hins⟩
  · have hdef : leader' = allocFollower leader key val := hsame
    rw [hdef]
    exact ⟨rfl, rfl, l, h.alloc, Or.inl ⟨hknown, hlabels⟩⟩
  · obtain ⟨l', hring', hperm⟩ := hins.ring
    refine ⟨hins.followerCapacity, hins.redundancy, l', hring', Or.inr ⟨hne, ?_⟩⟩
    rw [← hlabels, ← hself]
    simp only [leader', labels, hins.label]
    exact hperm.map _

/-- A registration keeps the ring. -/
theorem Ring.register (h : Ring leader l) (req : KvRequest) :
    (tpcleaderRegister leader req).2.followerCapacity = leader.followerCapacity ∧
      (tpcleaderRegister leader req).2.redundancy = leader.redundancy ∧
      ∃ l', Ring (tpcleaderRegister leader req).2 l' := by
  unfold tpcleaderRegister
  split_ifs
  · exact ⟨rfl, rfl, l, h⟩
  · split
    · obtain ⟨hcap, hred, l', hring, -⟩ := h.insertFollower
      exact ⟨hcap, hred, l', hring⟩
    · exact ⟨rfl, rfl, l, h⟩

/-- The leader after a sequence of registrations. -/
def TpcLeader.registered (leader : TpcLeader) (reqs : List KvRequest) : TpcLeader :=
  reqs.foldl (fun leader req => (tpcleaderRegister leader req).2) leader

/-- So do any number of them. -/
theorem Ring.registered (h : Ring leader l) (reqs : List KvRequest) :
    (leader.registered reqs).followerCapacity = leader.followerCapacity ∧
      (leader.registered reqs).redundancy = leader.redundancy ∧ ∃ l', Ring (leader.registered reqs) l' := by
  induction reqs generalizing leader l with
  | nil => exact ⟨rfl, rfl, l, h⟩
  | cons req reqs ih =>
    obtain ⟨hcap, hred, l', hring⟩ := h.register req
    obtain ⟨hcap', hred', hrest⟩ := ih hring
    exact ⟨hcap'.trans hcap, hred'.trans hred, hrest⟩

/-! ## The replicas of a key -/

omit [StrHash] in
/-- The loop of `tpcleader_get_primary` looks for the first node with a greater id. -/
theorem Ring.getPrimaryFrom_eq {head : ℕ} {t : List ℕ} (h : Ring leader (head :: t)) (hash : UInt64) {fuel curr : ℕ}
    {pre suf : List ℕ} (hl : head :: t = pre ++ curr :: suf) (hfuel : suf.length < fuel) :
    getPrimaryFrom leader hash head fuel curr =
      ((curr :: suf).find? fun i => decide ((leader.nodes i).id > hash)).getD head := by
  induction fuel generalizing pre curr suf with
  | zero => omega
  | succ fuel ih =>
    rw [getPrimaryFrom, List.find?_cons]
    by_cases hgt : (leader.nodes curr).id > hash
    · simp [hgt]
    · rw [if_neg hgt, decide_eq_false hgt]
      cases suf with
      | nil =>
        have hnext : (leader.nodes curr).next = head := by
          have := Links.Circular.next_last (hl ▸ h.circular)
          simp only [← hl, List.head_cons] at this
          exact this
        rw [if_neg (by simpa using hnext)]
        rfl
      | cons b suf =>
        have hnext : (leader.nodes curr).next = b := Links.Circular.next_inner (hl ▸ h.circular)
        have hl' : head :: t = (pre ++ [curr]) ++ b :: suf := by simpa using hl
        have hne : b ≠ head := fun hb => by simpa using (eq_head_iff h.nodup hl').mp hb
        rw [if_pos (by rw [hnext]; exact hne), hnext]
        exact ih hl' (by simp at hfuel; omega)

/-- **The primary of a key** is the follower with the least id greater than the key's hash, or that with the
least id. -/
theorem Ring.getPrimary_eq {head : ℕ} {t : List ℕ} (h : Ring leader (head :: t))
    (hfull : leader.followerCount = leader.followerCapacity) (key : CString) :
    tpcleaderGetPrimary leader key =
      some (some (((head :: t).find? fun i => decide ((leader.nodes i).id > strhash64 key)).getD head)) := by
  have hhead : leader.followersHead = some head := h.head
  simp only [tpcleaderGetPrimary, if_neg (show ¬ leader.followerCount < leader.followerCapacity by omega), hhead]
  have hlen := h.length_le
  simp only [List.length_cons] at hlen
  rw [h.getPrimaryFrom_eq (strhash64 key) (show head :: t = [] ++ head :: t from rfl) (by omega)]

/-- Where the leader's loops find the replicas of a key: `redundancy` nodes from the primary on. -/
def TpcLeader.replicas (leader : TpcLeader) (key : CString) : List ℕ :=
  match tpcleaderGetPrimary leader key with
  | some (some pri) => List.iterate (tpcleaderGetSuccessor leader) pri leader.redundancy
  | _ => []

/-- Whether a node is one that the search for the primary of a key passes by. -/
def TpcLeader.passes (leader : TpcLeader) (key : CString) (i : ℕ) : Bool := !decide ((leader.nodes i).id > strhash64 key)

/-- The nodes that a search passes by come to stand behind the others. -/
theorem isRotated_passes (leader : TpcLeader) (key : CString) (l : List ℕ) :
    l ~r l.dropWhile (leader.passes key) ++ l.takeWhile (leader.passes key) := by
  conv_lhs => rw [← List.takeWhile_append_dropWhile (p := leader.passes key) (l := l)]
  exact List.isRotated_append

/-- The search stops at the primary, or, if it has passed by all, at the head. -/
theorem Ring.fromPrimary (h : Ring leader l) (hne : l ≠ []) (hfull : leader.followerCount = leader.followerCapacity)
    (key : CString) : ∃ pri t, tpcleaderGetPrimary leader key = some (some pri) ∧
      l.dropWhile (leader.passes key) ++ l.takeWhile (leader.passes key) = pri :: t := by
  obtain ⟨head, t, rfl⟩ := List.exists_cons_of_ne_nil hne
  have hpri : tpcleaderGetPrimary leader key = some (some (((head :: t).dropWhile (leader.passes key)).head?.getD head)) := by
    rw [h.getPrimary_eq hfull key, List.find?_eq_head?_dropWhile_not]
    rfl
  cases hdrop : (head :: t).dropWhile (leader.passes key) with
  | nil =>
    refine ⟨head, t, by rw [hpri, hdrop]; rfl, ?_⟩
    have hall := List.takeWhile_append_dropWhile (p := leader.passes key) (l := head :: t)
    rwa [hdrop, List.append_nil] at hall
  | cons pri suf => exact ⟨pri, _, by rw [hpri, hdrop]; rfl, rfl⟩

/-- The replicas of a key are told by the ids. -/
theorem Ring.replicas_eq (h : Ring leader l) (hne : l ≠ []) (hfull : leader.followerCount = leader.followerCapacity)
    (hred : leader.redundancy ≤ l.length) (key : CString) :
    leader.replicas key =
      (l.dropWhile (leader.passes key) ++ l.takeWhile (leader.passes key)).take leader.redundancy := by
  obtain ⟨pri, t, hpri, heq⟩ := h.fromPrimary hne hfull key
  have hrot : l ~r pri :: t := heq ▸ isRotated_passes leader key l
  rw [TpcLeader.replicas, hpri, heq]
  exact (h.circular.rotate hrot).iterate_next (by rw [← hrot.perm.length_eq]; exact hred)

/-- They are the nodes of the ring from the primary on. -/
theorem Ring.replicas (h : Ring leader l) (hne : l ≠ []) (hfull : leader.followerCount = leader.followerCapacity)
    (hred : leader.redundancy ≤ l.length) (key : CString) :
    ∃ pri t, tpcleaderGetPrimary leader key = some (some pri) ∧ l ~r pri :: t ∧
      leader.replicas key = (pri :: t).take leader.redundancy := by
  obtain ⟨pri, t, hpri, heq⟩ := h.fromPrimary hne hfull key
  exact ⟨pri, t, hpri, heq ▸ isRotated_passes leader key l, heq ▸ h.replicas_eq hne hfull hred key⟩

/-- A full leader: its list is a ring of as many followers as it can have, at least one, and a value
is stored on at least one of them. -/
structure Full (leader : TpcLeader) : Prop where
  ring : ∃ l, Ring leader l
  count : leader.followerCount = leader.followerCapacity
  capacity : 1 ≤ leader.followerCapacity
  redundancy : 1 ≤ leader.redundancy
  redundancy_le : leader.redundancy ≤ leader.followerCapacity

/-- Filled by any registrations, a leader is full. -/
theorem full_registered {followerCapacity redundancy : ℕ} (hcap : 1 ≤ followerCapacity) (hred : 1 ≤ redundancy)
    {reqs : List KvRequest}
    (hcount : ((tpcleaderInit followerCapacity redundancy).registered reqs).followerCount = followerCapacity) :
    Full ((tpcleaderInit followerCapacity redundancy).registered reqs) := by
  obtain ⟨h₁, h₂, l, hl⟩ := (ring_init followerCapacity redundancy).registered reqs
  have hclamp : (tpcleaderInit followerCapacity redundancy).redundancy = min redundancy followerCapacity := by
    simp only [tpcleaderInit]
    split_ifs <;> omega
  refine ⟨⟨l, hl⟩, by rw [hcount, h₁]; rfl, by rw [h₁]; exact hcap, ?_, ?_⟩
  · rw [h₂, hclamp]
    omega
  · rw [h₂, h₁, hclamp]
    exact min_le_right _ _

/-- They are `redundancy` of its followers. -/
theorem Full.replicas (h : Full leader) (key : CString) :
    ∃ pri t l, tpcleaderGetPrimary leader key = some (some pri) ∧ Ring leader l ∧ l ~r pri :: t ∧
      leader.replicas key = (pri :: t).take leader.redundancy ∧ leader.redundancy ≤ (pri :: t).length := by
  obtain ⟨l, hl⟩ := h.ring
  have hlen : leader.redundancy ≤ l.length := by
    rw [← hl.count, h.count]
    exact h.redundancy_le
  have hne : l ≠ [] := by
    rintro rfl
    have := h.redundancy
    simp at hlen
    omega
  obtain ⟨pri, t, hpri, hrot, heq⟩ := hl.replicas hne h.count hlen key
  exact ⟨pri, t, l, hpri, hl, hrot, heq, by rw [← hrot.perm.length_eq]; exact hlen⟩

section

variable (h : Full leader) (key : CString)
include h

/-- They are found by following the successors of the primary. -/
theorem Full.primary : ∃ pri, tpcleaderGetPrimary leader key = some (some pri) ∧
    leader.replicas key = List.iterate (tpcleaderGetSuccessor leader) pri leader.redundancy := by
  obtain ⟨pri, t, l, hpri, -⟩ := h.replicas key
  exact ⟨pri, hpri, by rw [TpcLeader.replicas, hpri]⟩

theorem Full.replicas_length : (leader.replicas key).length = leader.redundancy := by
  obtain ⟨pri, -, heq⟩ := h.primary key
  rw [heq, List.length_iterate]

/-- No follower is a replica twice. -/
theorem Full.replicas_nodup : (leader.replicas key).Nodup := by
  obtain ⟨pri, t, l, -, hring, hrot, heq, -⟩ := h.replicas key
  rw [heq]
  exact ((hrot.nodup_iff).mp hring.nodup).sublist (List.take_sublist _ _)

variable {key}

theorem Full.replicas_zero {pri : ℕ} (hpri : tpcleaderGetPrimary leader key = some (some pri)) :
    (leader.replicas key)[0]? = some pri := by
  rw [TpcLeader.replicas, hpri]
  exact List.getElem?_iterate _ _ _ _ h.redundancy

theorem Full.replicas_succ {i n : ℕ} (hn : (leader.replicas key)[i]? = some n) (hi : i + 1 < leader.redundancy) :
    (leader.replicas key)[i + 1]? = some (tpcleaderGetSuccessor leader n) := by
  obtain ⟨pri, -, heq⟩ := h.primary key
  rw [heq, List.getElem?_iterate _ _ _ _ (by omega)] at hn
  rw [heq, List.getElem?_iterate _ _ _ _ hi, Function.iterate_succ_apply', Option.some.inj hn]

end

end

/-! ## A small ring -/

section

attribute [local instance] md5Sample

/-- A leader whose followers are at these ports of its own host, every one a replica of every key. -/
def localLeader (ports : List String) : TpcLeader :=
  (tpcleaderInit ports.length ports.length).registered
    (ports.map fun port => ⟨.register, some (.ofString "localhost"), some (.ofString port)⟩)

theorem full_localLeader : Full (localLeader ["8001"]) :=
  full_registered (by decide) (by decide) (by decide +kernel)

end

end Cs162Hw.Kv
