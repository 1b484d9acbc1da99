import Cs162Hw.Kv.LeaderCalls

/-!
# Registered followers, and where the leader looks for a key

What the registrations make of a leader, and what its handlers make of that.

* **`registered_ring`** — after any registrations the followers lie in a ring, in the order of their
  ids, and they are the first to have come with their ids, as many as the leader can have.
* **`walks_agree`** — the primary of a key is the follower with the least id above the key's hash, or the
  least of all; the replicas are different followers; and all loops of the leader's handlers go
  through them in the same order.
* **`get_fails_over`** — exactly when `tpcleader_handle_get` comes to an end with the first value
  that a replica has; `get_stuck` — where it does not.
-/

namespace Cs162Hw.Kv

open Library
open Library.TwoPhase (Reply Phase)

/-! ## Registrations -/

/-- What a follower registers with. -/
structure Offer where
  /-- Its host. -/
  host : CString
  /-- Its port, as text. -/
  port : CString

/-- The request it sends. -/
def Offer.request (offer : Offer) : KvRequest := ⟨.register, some offer.host, some offer.port⟩

/-- The elements of a list in the order in which they occur first. -/
def distinct {α : Type} [DecidableEq α] (l : List α) : List α :=
  l.foldl (fun seen a => if a ∈ seen then seen else seen ++ [a]) []

section

variable [StrHash]

/-- Its id. -/
def Offer.id (offer : Offer) : UInt64 := followerId offer.host offer.port

/-- The offers that a leader with room for `capacity` followers takes. -/
def accepted (capacity : ℕ) (offers : List Offer) : List Offer :=
  offers.foldl (fun seen offer =>
    if seen.length = capacity ∨ offer.id ∈ seen.map Offer.id then seen else seen ++ [offer]) []

theorem accepted_concat (capacity : ℕ) (offers : List Offer) (offer : Offer) :
    accepted capacity (offers ++ [offer]) =
      if (accepted capacity offers).length = capacity ∨ offer.id ∈ (accepted capacity offers).map Offer.id then
        accepted capacity offers
      else accepted capacity offers ++ [offer] := by
  simp [accepted, List.foldl_append]

omit [StrHash] in
theorem distinct_concat {α : Type} [DecidableEq α] (l : List α) (a : α) :
    distinct (l ++ [a]) = if a ∈ distinct l then distinct l else distinct l ++ [a] :=
  List.foldl_append ..

omit [StrHash] in
theorem mem_distinct {α : Type} [DecidableEq α] {l : List α} {a : α} : a ∈ distinct l ↔ a ∈ l := by
  induction l using List.reverseRecOn with
  | nil => exact Iff.rfl
  | append_singleton l b ih =>
    rw [distinct_concat, List.mem_append, List.mem_singleton, ← ih]
    split_ifs with hb
    · exact ⟨Or.inl, fun h => h.elim id (· ▸ hb)⟩
    · rw [List.mem_append, List.mem_singleton]

omit [StrHash] in
theorem nodup_distinct {α : Type} [DecidableEq α] (l : List α) : (distinct l).Nodup := by
  induction l using List.reverseRecOn with
  | nil => exact List.nodup_nil
  | append_singleton l b ih =>
    rw [distinct_concat]
    split_ifs with hb
    · exact ih
    · exact ih.append (List.nodup_singleton b) (List.disjoint_singleton.mpr hb)

/-- These are the first with their ids, as long as there is room. -/
theorem accepted_ids (capacity : ℕ) (offers : List Offer) :
    (accepted capacity offers).map Offer.id = (distinct (offers.map Offer.id)).take capacity := by
  induction offers using List.reverseRecOn with
  | nil => simp [accepted, distinct]
  | append_singleton offers offer ih =>
    rw [accepted_concat, List.map_append, List.map_singleton, distinct_concat]
    have hlen : (accepted capacity offers).length = min capacity (distinct (offers.map Offer.id)).length := by
      rw [← List.length_map (f := Offer.id), ih, List.length_take]
    rcases Nat.lt_or_ge (distinct (offers.map Offer.id)).length capacity with hroom | hfull
    · -- there is room: nothing has been cut off
      have hall : (distinct (offers.map Offer.id)).take capacity = distinct (offers.map Offer.id) :=
        List.take_of_length_le hroom.le
      rw [hall] at ih
      rw [ih]
      split_ifs with h₁ h₂ h₂
      · rw [ih, hall]
      · rcases h₁ with h₁ | h₁
        · omega
        · exact absurd h₁ h₂
      · exact absurd (Or.inr h₂) h₁
      · rw [List.map_append, ih, List.take_of_length_le (by simp; omega)]
        rfl
    · rw [if_pos (Or.inl (by omega)), ih]
      split_ifs
      · rfl
      · rw [List.take_append_of_le_length hfull]

/-- What a node says of a follower that has made this offer. -/
def Offer.label (offer : Offer) : UInt64 × CString × UInt32 := registeredLabel offer.host offer.port

/-- The followers of a leader are those whose offers it took. -/
theorem ring_registered (followerCapacity redundancy : ℕ) (offers : List Offer) :
    let leader := (tpcleaderInit followerCapacity redundancy).registered (offers.map Offer.request)
    leader.followerCapacity = followerCapacity ∧ leader.redundancy = min redundancy followerCapacity ∧
      ∃ l, Ring leader l ∧ (labels leader l).Perm ((accepted followerCapacity offers).map Offer.label) := by
  induction offers using List.reverseRecOn with
  | nil =>
    refine ⟨rfl, ?_, [], ring_init _ _, ?_⟩
    · show (tpcleaderInit followerCapacity redundancy).redundancy = _
      unfold tpcleaderInit
      split_ifs <;> simp only <;> omega
    · simp [labels, accepted]
  | append_singleton offers offer ih =>
    intro leader'
    obtain ⟨hcap, hred, l, hring, hperm⟩ := ih
    set leader := (tpcleaderInit followerCapacity redundancy).registered (offers.map Offer.request) with hleader
    have hstep : leader' = (tpcleaderRegister leader offer.request).2 := by
      simp [leader', hleader, TpcLeader.registered, List.foldl_append]
    have hlen : leader.followerCount = (accepted followerCapacity offers).length := by
      have := hperm.length_eq
      simp only [labels, List.length_map] at this
      rw [hring.count, this]
    have hknown : (∃ i ∈ l, (leader.nodes i).id = offer.id) ↔ offer.id ∈ (accepted followerCapacity offers).map Offer.id := by
      have hids := (hperm.map Prod.fst).mem_iff (a := offer.id)
      simp only [labels, List.map_map, List.mem_map, Function.comp] at hids
      rw [List.mem_map]
      exact hids
    rw [hstep, accepted_concat]
    unfold tpcleaderRegister
    rw [hcap]
    by_cases hfull : leader.followerCount = followerCapacity
    · rw [if_pos hfull, if_pos (Or.inl (hlen ▸ hfull))]
      exact ⟨hcap, hred, l, hring, hperm⟩
    · rw [if_neg hfull]
      simp only [Offer.request]
      obtain ⟨hcap', hred', l', hring', hcases⟩ := @Ring.insertFollower leader l _ offer.host offer.port hring
      refine ⟨hcap'.trans hcap, hred'.trans hred, l', hring', ?_⟩
      rcases hcases with ⟨hold, hsame⟩ | ⟨hnew, hlabels⟩
      · rw [if_pos (Or.inr (hknown.mp hold)), hsame]
        exact hperm
      · rw [if_neg ?_, List.map_append]
        · refine hlabels.trans ((hperm.cons _).trans ?_)
          exact (List.perm_append_singleton _ _).symm
        · rintro (h | h)
          · exact hfull (hlen.trans h)
          · obtain ⟨i, hi, heq⟩ := hknown.mpr h
            exact hnew i hi heq

omit [StrHash] in
/-- The followers, as one meets them from the head of the list on. -/
def TpcLeader.walk (leader : TpcLeader) : List ℕ :=
  match leader.followersHead with
  | none => []
  | some head => List.iterate (tpcleaderGetSuccessor leader) head leader.followerCount

omit [StrHash] in
/-- They are the ring. -/
theorem Ring.walk_eq {leader : TpcLeader} {l : List ℕ} (h : Ring leader l) : leader.walk = l := by
  unfold TpcLeader.walk
  rw [h.head]
  cases l with
  | nil => rfl
  | cons head t =>
    have hread := h.circular.iterate_next le_rfl
    rw [List.take_length] at hread
    simp only [List.head?_cons, h.count]
    exact hread

/-- **The ring of followers.** After any registrations, followed from its head the list comes back to it after
as many followers as are counted; their ids increase; the links are inverse to each other; and the ids are those that
came first, as many as there is room for. -/
theorem registered_ring (followerCapacity redundancy : ℕ) (offers : List Offer) :
    let leader := (tpcleaderInit followerCapacity redundancy).registered (offers.map Offer.request)
    leader.walk.length = leader.followerCount ∧ leader.walk.Nodup ∧
      (∀ head ∈ leader.followersHead, (tpcleaderGetSuccessor leader)^[leader.followerCount] head = head) ∧
      leader.walk.Pairwise (fun i j => (leader.nodes i).id < (leader.nodes j).id) ∧
      (∀ i ∈ leader.walk, (leader.nodes (leader.nodes i).next).prev = i ∧ (leader.nodes (leader.nodes i).prev).next = i) ∧
      leader.followerCount ≤ leader.followerCapacity ∧ leader.followerCapacity = followerCapacity ∧
      ∀ id, (∃ i ∈ leader.walk, (leader.nodes i).id = id) ↔ id ∈ (distinct (offers.map Offer.id)).take followerCapacity := by
  intro leader
  obtain ⟨hcap, -, l, hring, hperm⟩ := ring_registered followerCapacity redundancy offers
  have hids : (l.map fun i => (leader.nodes i).id).Perm ((distinct (offers.map Offer.id)).take followerCapacity) := by
    rw [← accepted_ids]
    have := hperm.map Prod.fst
    simp only [labels, List.map_map] at this
    exact this
  rw [hring.walk_eq]
  refine ⟨hring.count.symm, hring.nodup, fun head hhead => ?_, hring.sorted, fun i hi => hring.circular.inverse hi, ?_, hcap,
    fun id => ?_⟩
  · rw [hring.head] at hhead
    obtain ⟨t, rfl⟩ : ∃ t, l = head :: t := by
      cases l with
      | nil => cases hhead
      | cons a t => exact ⟨t, by rw [Option.some.inj hhead]⟩
    rw [hring.count]
    exact hring.circular.next_length
  · rw [hring.count, hcap, ← List.length_map, hids.length_eq, List.length_take]
    exact min_le_left _ _
  · rw [← hids.mem_iff, List.mem_map]

/-! ## The primary and its successors -/

/-- The follower has the least id above the hash of the key, or, if there is none above it, the least of all. -/
def IsPrimary (leader : TpcLeader) (key : CString) (i : ℕ) : Prop :=
  i ∈ leader.walk ∧
    ((strhash64 key < (leader.nodes i).id ∧
        ∀ j ∈ leader.walk, strhash64 key < (leader.nodes j).id → (leader.nodes i).id ≤ (leader.nodes j).id) ∨
      ((∀ j ∈ leader.walk, (leader.nodes j).id ≤ strhash64 key) ∧
        ∀ j ∈ leader.walk, (leader.nodes i).id ≤ (leader.nodes j).id))

section

variable {leader : TpcLeader} {l : List ℕ} {key : CString}

omit [StrHash] in
/-- In a ring the first follower has the least id. -/
theorem Ring.id_le_of_cons {a : ℕ} {t : List ℕ} (h : List.Pairwise (fun i j => (leader.nodes i).id < (leader.nodes j).id) (a :: t))
    {j : ℕ} (hj : j ∈ a :: t) : (leader.nodes a).id ≤ (leader.nodes j).id := by
  rcases List.mem_cons.mp hj with rfl | hj
  · exact UInt64.le_refl _
  · exact UInt64.le_of_lt ((List.pairwise_cons.mp h).1 j hj)

/-- What `tpcleader_get_primary` finds. -/
theorem Ring.isPrimary (h : Ring leader l) (hne : l ≠ []) (hfull : leader.followerCount = leader.followerCapacity) :
    ∃ pri, tpcleaderGetPrimary leader key = some (some pri) ∧ IsPrimary leader key pri := by
  obtain ⟨head, t, rfl⟩ := List.exists_cons_of_ne_nil hne
  refine ⟨_, h.getPrimary_eq hfull key, ?_⟩
  unfold IsPrimary
  rw [h.walk_eq]
  cases hfind : (head :: t).find? fun i => decide ((leader.nodes i).id > strhash64 key) with
  | none =>
    refine ⟨List.mem_cons_self, Or.inr ⟨fun j hj => ?_, fun j hj => id_le_of_cons h.sorted hj⟩⟩
    have := List.find?_eq_none.mp hfind j hj
    exact UInt64.not_lt.mp (by simpa using this)
  | some i =>
    obtain ⟨hi, pre, suf, hsplit, hpre⟩ := List.find?_eq_some_iff_append.mp hfind
    have hsorted := h.sorted
    rw [hsplit] at hsorted
    refine ⟨hsplit ▸ List.mem_append_right _ List.mem_cons_self, Or.inl ⟨by simpa using hi, fun j hj hgt => ?_⟩⟩
    rw [hsplit] at hj
    rcases List.mem_append.mp hj with hj | hj
    · exact absurd hgt (by simpa using hpre j hj)
    · exact id_le_of_cons (List.pairwise_append.mp hsorted).2.1 hj

omit [StrHash] in
/-- Two followers of the ring with the same id are one. -/
theorem Ring.eq_of_id (h : Ring leader l) {i j : ℕ} (hi : i ∈ l) (hj : j ∈ l) (hid : (leader.nodes i).id = (leader.nodes j).id) :
    i = j := by
  have hnodup : (l.map fun i => (leader.nodes i).id).Nodup :=
    List.pairwise_map.mpr (h.sorted.imp fun {a b} hlt => show (leader.nodes a).id ≠ (leader.nodes b).id from
      fun heq => UInt64.lt_irrefl _ (heq ▸ hlt))
  exact List.inj_on_of_nodup_map hnodup hi hj hid

/-- There is one primary. -/
theorem Ring.isPrimary_unique (h : Ring leader l) {i j : ℕ} (hi : IsPrimary leader key i) (hj : IsPrimary leader key j) :
    i = j := by
  unfold IsPrimary at hi hj
  rw [h.walk_eq] at hi hj
  obtain ⟨hmi, hi⟩ := hi
  obtain ⟨hmj, hj⟩ := hj
  refine h.eq_of_id hmi hmj ?_
  rcases hi with ⟨hgi, hi⟩ | ⟨hlei, hi⟩ <;> rcases hj with ⟨hgj, hj⟩ | ⟨hlej, hj⟩
  · exact UInt64.le_antisymm (hi j hmj hgj) (hj i hmi hgi)
  · exact absurd hgi (UInt64.not_lt.mpr (hlej i hmi))
  · exact absurd hgj (UInt64.not_lt.mpr (hlei j hmj))
  · exact UInt64.le_antisymm (hi j hmj) (hj i hmi)

end

/-! ## The walks of the handlers -/

omit [StrHash] in
/-- The exchange at which `tpcleader_handle_tpc` stands: whether it is in its second loop, the value of
`visited_node`, and the node. -/
def TpcCall.contact : TpcCall → Option (Bool × ℕ × ℕ)
  | .poll pri visitedNode _ => some (false, visitedNode, pri)
  | .decide _ pri visitedNode _ => some (true, visitedNode, pri)
  | _ => none

/-- Its exchanges, if they go as `replies` say. -/
def TpcCall.contacts (leader : TpcLeader) (req : KvRequest) : TpcCall → List (Reply KvResponse) → List (Bool × ℕ × ℕ)
  | _, [] => []
  | call, reply :: replies =>
    match call.contact with
    | none => []
    | some x => x :: contacts leader req (call.resume leader req reply) replies

omit [StrHash] in
/-- The exchanges of `tpcleader_handle_get`: the value of `visited_node`, and the node. -/
def GetCall.contacts (leader : TpcLeader) : GetCall → List (Reply KvResponse) → List (ℕ × ℕ)
  | _, [] => []
  | call, reply :: replies =>
    match call with
    | .ask pri visitedNode => (visitedNode, pri) :: contacts leader (call.resume leader reply) replies
    | _ => []

omit [StrHash] in
/-- A loop through all replicas: the exchanges of `tpcleader_handle_tpc` with each of them, in order. -/
def turns (secondLoop : Bool) (replicas : List ℕ) : List (Bool × ℕ × ℕ) := replicas.mapIdx fun i n => (secondLoop, i, n)

omit [StrHash] in
/-- Whether a reply is an acknowledgement. -/
def acks (reply : Reply KvResponse) : Bool := (reply.map KvResponse.isAck).yes

omit [StrHash] in
/-- The exchanges of the second loop of `tpcleader_handle_tpc` with the replicas, if they go as the replies say. It consists of
passes. As long as no follower refuses the connection, a pass goes on through all replicas. -/
inductive Passes (replicas : List ℕ) : List (Reply KvResponse) → List (Bool × ℕ × ℕ) → Prop
  /-- A pass which is not over yet. -/
  | underway {replies : List (Reply KvResponse)} : Reply.refused ∉ replies → replies.length < replicas.length →
    Passes replicas replies ((turns true replicas).take replies.length)
  /-- A follower refuses the connection: there is another pass. -/
  | broken {before after : List (Reply KvResponse)} {contacts : List (Bool × ℕ × ℕ)} : Reply.refused ∉ before →
    before.length < replicas.length → Passes replicas after contacts →
    Passes replicas (before ++ .refused :: after) ((turns true replicas).take (before.length + 1) ++ contacts)
  /-- All replicas have been gone through, and one has not acknowledged: there is another pass. -/
  | again {before after : List (Reply KvResponse)} {contacts : List (Bool × ℕ × ℕ)} : Reply.refused ∉ before →
    before.length = replicas.length → before.all acks = false → Passes replicas after contacts →
    Passes replicas (before ++ after) (turns true replicas ++ contacts)
  /-- All have acknowledged. -/
  | completed {before after : List (Reply KvResponse)} : before.length = replicas.length → before.all acks = true →
    Passes replicas (before ++ after) (turns true replicas)

omit [StrHash] in
/-- The exchanges of `tpcleader_handle_tpc` with the replicas, if they go as the replies say: the first loop is one with each of
them whatever is replied, and the rest of the replies are for the second. -/
def TpcWalk (replicas : List ℕ) (replies : List (Reply KvResponse)) (contacts : List (Bool × ℕ × ℕ)) : Prop :=
  ∃ passes, Passes replicas (replies.drop replicas.length) passes ∧
    contacts = (turns false replicas).take replies.length ++ passes

omit [StrHash] in
/-- The exchanges of `tpcleader_handle_get` with the replicas that are left, each with its number, if they go as the replies
say: it goes on until there is a value, or all replicas have answered that they have none. -/
inductive GetWalk : List (ℕ × ℕ) → List (Reply KvResponse) → List (ℕ × ℕ) → Prop
  /-- None is left. -/
  | missed {replies : List (Reply KvResponse)} : GetWalk [] replies []
  | underway {left : List (ℕ × ℕ)} : GetWalk left [] []
  /-- A follower that refuses the connection is tried again. -/
  | refused {x : ℕ × ℕ} {left contacts : List (ℕ × ℕ)} {replies : List (Reply KvResponse)} :
    GetWalk (x :: left) replies contacts → GetWalk (x :: left) (.refused :: replies) (x :: contacts)
  /-- If there is no response, the process dies. -/
  | silent {x : ℕ × ℕ} {left : List (ℕ × ℕ)} {replies : List (Reply KvResponse)} : GetWalk (x :: left) (.silent :: replies) [x]
  | found {x : ℕ × ℕ} {left : List (ℕ × ℕ)} {replies : List (Reply KvResponse)} {res : KvResponse} : res.type = .getResp →
    GetWalk (x :: left) (.answered res :: replies) [x]
  /-- An answer without a value: the next is asked. -/
  | next {x : ℕ × ℕ} {left contacts : List (ℕ × ℕ)} {replies : List (Reply KvResponse)} {res : KvResponse} : res.type ≠ .getResp →
    GetWalk left replies contacts → GetWalk (x :: left) (.answered res :: replies) (x :: contacts)

section

variable {leader : TpcLeader} {req : KvRequest} {key : CString} {replicas : List ℕ}

omit [StrHash] in
theorem mem_turns {secondLoop : Bool} {x : Bool × ℕ × ℕ} (h : x ∈ turns secondLoop replicas) :
    replicas[x.2.1]? = some x.2.2 := by
  obtain ⟨i, hi, rfl⟩ := List.mem_mapIdx.mp h
  exact List.getElem?_eq_getElem hi

omit [StrHash] in
theorem Passes.mem {replies : List (Reply KvResponse)} {contacts : List (Bool × ℕ × ℕ)} (h : Passes replicas replies contacts)
    {x : Bool × ℕ × ℕ} (hx : x ∈ contacts) : replicas[x.2.1]? = some x.2.2 := by
  induction h with
  | underway _ _ => exact mem_turns (List.mem_of_mem_take hx)
  | broken _ _ _ ih => exact (List.mem_append.mp hx).elim (fun h => mem_turns (List.mem_of_mem_take h)) ih
  | again _ _ _ _ ih => exact (List.mem_append.mp hx).elim mem_turns ih
  | completed _ _ => exact mem_turns hx

omit [StrHash] in
/-- The exchanges of a `PUT` or `DELETE` are with the replicas. -/
theorem TpcWalk.mem {replies : List (Reply KvResponse)} {contacts : List (Bool × ℕ × ℕ)} (h : TpcWalk replicas replies contacts)
    {x : Bool × ℕ × ℕ} (hx : x ∈ contacts) : replicas[x.2.1]? = some x.2.2 := by
  obtain ⟨passes, hpasses, rfl⟩ := h
  exact (List.mem_append.mp hx).elim (fun h => mem_turns (List.mem_of_mem_take h)) hpasses.mem

omit [StrHash] in
/-- The exchanges of a `GET` are with the replicas that were left. -/
theorem GetWalk.mem {left contacts : List (ℕ × ℕ)} {replies : List (Reply KvResponse)} (h : GetWalk left replies contacts)
    {x : ℕ × ℕ} (hx : x ∈ contacts) : x ∈ left := by
  induction h with
  | missed => exact hx
  | underway => exact absurd hx List.not_mem_nil
  | refused _ ih =>
    rcases List.mem_cons.mp hx with rfl | hx
    · exact List.mem_cons_self
    · exact ih hx
  | silent => exact List.mem_singleton.mp hx ▸ List.mem_cons_self
  | found _ => exact List.mem_singleton.mp hx ▸ List.mem_cons_self
  | next _ _ ih =>
    rcases List.mem_cons.mp hx with rfl | hx
    · exact List.mem_cons_self
    · exact List.mem_cons_of_mem _ (ih hx)

omit [StrHash] in
/-- What is left of a loop begins with the follower whose number it is. -/
theorem drop_turns (secondLoop : Bool) (pri : ℕ) {i : ℕ} (hi : i < leader.redundancy) :
    (turns secondLoop (List.iterate (tpcleaderGetSuccessor leader) pri leader.redundancy)).drop i =
      (secondLoop, i, (tpcleaderGetSuccessor leader)^[i] pri) ::
        (turns secondLoop (List.iterate (tpcleaderGetSuccessor leader) pri leader.redundancy)).drop (i + 1) := by
  rw [List.drop_eq_getElem_cons (by simpa [turns] using hi)]
  simp [turns, List.getElem_iterate]

variable (leader req) in
/-- The first loop, as far as so many replies go. -/
theorem TpcCall.contacts_pollFrom (pri : ℕ) (votes rest : List (Reply KvResponse)) {i : ℕ}
    (hi : i + votes.length ≤ leader.redundancy) (ok : Bool) :
    ∃ ok',
      (pollFrom leader req ((tpcleaderGetSuccessor leader)^[i] pri) i ok).contacts leader req (votes ++ rest) =
        ((turns false (List.iterate (tpcleaderGetSuccessor leader) pri leader.redundancy)).drop i).take votes.length ++
          (pollFrom leader req ((tpcleaderGetSuccessor leader)^[i + votes.length] pri) (i + votes.length) ok').contacts
            leader req rest := by
  induction votes generalizing i ok with
  | nil => exact ⟨ok, rfl⟩
  | cons vote votes ih =>
    simp only [List.length_cons] at hi
    obtain ⟨ok', hvotes⟩ := ih (i := i + 1) (by omega) (ok && (vote.map KvResponse.isCommit).yes)
    refine ⟨ok', ?_⟩
    rw [drop_turns false pri (by omega), List.length_cons, List.take_succ_cons, List.cons_append, List.cons_append,
      show i + (votes.length + 1) = i + 1 + votes.length by omega, ← hvotes]
    conv_lhs => rw [pollFrom, if_pos (show i < leader.redundancy by omega)]
    rw [Function.iterate_succ_apply']
    rfl

variable (leader req) in
/-- A pass of the second loop, as long as no follower refuses the connection. -/
theorem TpcCall.contacts_decideFrom (isCommit : Bool) (pri : ℕ) (replies rest : List (Reply KvResponse)) {i : ℕ}
    (hi : i + replies.length ≤ leader.redundancy) (hreplies : .refused ∉ replies) (acked : Bool) :
    (decideFrom leader req isCommit ((tpcleaderGetSuccessor leader)^[i] pri) i acked).contacts leader req (replies ++ rest) =
      ((turns true (List.iterate (tpcleaderGetSuccessor leader) pri leader.redundancy)).drop i).take replies.length ++
        (decideFrom leader req isCommit ((tpcleaderGetSuccessor leader)^[i + replies.length] pri) (i + replies.length)
          (acked && replies.all acks)).contacts leader req rest := by
  induction replies generalizing i acked with
  | nil => simp
  | cons reply replies ih =>
    simp only [List.length_cons] at hi
    obtain ⟨hreply, hreplies⟩ := List.ne_and_not_mem_of_not_mem_cons hreplies
    have hresume : (TpcCall.decide isCommit ((tpcleaderGetSuccessor leader)^[i] pri) i acked).resume leader req reply =
        decideFrom leader req isCommit ((tpcleaderGetSuccessor leader)^[i + 1] pri) (i + 1) (acked && acks reply) := by
      rw [Function.iterate_succ_apply']
      cases reply with
      | refused => exact absurd rfl hreply
      | silent => rfl
      | answered res => rfl
    rw [drop_turns true pri (by omega), List.length_cons, List.take_succ_cons, List.cons_append, List.cons_append,
      show i + (replies.length + 1) = i + 1 + replies.length by omega, List.all_cons, ← Bool.and_assoc,
      ← ih (by omega) hreplies, ← hresume]
    conv_lhs => rw [decideFrom, if_pos (show i < leader.redundancy by omega)]
    rfl

/-- A handler that has returned or died has no more exchanges. -/
theorem TpcCall.contacts_of_contact {call : TpcCall} (h : call.contact = none) (replies : List (Reply KvResponse)) :
    call.contacts leader req replies = [] := by
  cases replies with
  | nil => rfl
  | cons reply replies =>
    unfold contacts
    rw [h]

theorem primaryOf_eq {pri : ℕ} (hkey : req.key = some key) (hpri : tpcleaderGetPrimary leader key = some (some pri)) :
    primaryOf leader req = some (some pri) := by
  rw [primaryOf, hkey]
  exact hpri

/-- The second loop. -/
theorem TpcCall.contacts_pass {pri : ℕ} (hpri : primaryOf leader req = some (some pri)) (isCommit : Bool)
    (replies : List (Reply KvResponse)) :
    Passes (List.iterate (tpcleaderGetSuccessor leader) pri leader.redundancy) replies
      ((pass leader req isCommit).contacts leader req replies) := by
  set replicas := List.iterate (tpcleaderGetSuccessor leader) pri leader.redundancy with hreplicas
  have hlen : replicas.length = leader.redundancy := List.length_iterate ..
  have hturns : (turns true replicas).length = leader.redundancy := by rw [turns, List.length_mapIdx, hlen]
  have hpass : pass leader req isCommit = decideFrom leader req isCommit pri 0 true := by
    simp only [pass, decideFrom, hpri, if_true]
  have hwalk : ∀ before rest : List (Reply KvResponse), before.length ≤ leader.redundancy → .refused ∉ before →
      (pass leader req isCommit).contacts leader req (before ++ rest) = (turns true replicas).take before.length ++
        (decideFrom leader req isCommit ((tpcleaderGetSuccessor leader)^[before.length] pri) before.length
          (before.all acks)).contacts leader req rest := by
    intro before rest hle hbefore
    have := contacts_decideFrom leader req isCommit pri before rest ((Nat.zero_add _).trans_le hle) hbefore true
    rwa [Nat.zero_add, Bool.true_and, List.drop_zero, Function.iterate_zero, id_eq, ← hpass] at this
  induction hn : replies.length using Nat.strong_induction_on generalizing replies with
  | _ n ih =>
    by_cases hrefused : .refused ∈ replies.take leader.redundancy
    · obtain ⟨before, after, hsplit, hbefore⟩ := List.eq_append_cons_of_mem hrefused
      have hlt : before.length < leader.redundancy := by
        have := congrArg List.length hsplit
        simp only [List.length_take, List.length_append, List.length_cons] at this
        omega
      have hall : replies = before ++ .refused :: (after ++ replies.drop leader.redundancy) := by
        conv_lhs => rw [← List.take_append_drop leader.redundancy replies, hsplit]
        simp
      rw [hall, hwalk before _ hlt.le hbefore, decideFrom, if_pos hlt]
      have hshort : (after ++ replies.drop leader.redundancy).length < n := by
        rw [← hn]
        conv_rhs => rw [hall]
        simp only [List.length_append, List.length_cons]
        omega
      have hnext := ih _ hshort _ rfl
      have hturn : (turns true replicas).take (before.length + 1) =
          (turns true replicas).take before.length ++
            [(true, before.length, (tpcleaderGetSuccessor leader)^[before.length] pri)] := by
        rw [List.take_add_one, ← List.head?_drop, drop_turns true pri hlt]
        rfl
      have hbroken := Passes.broken hbefore (hlen.symm ▸ hlt) hnext
      rw [hturn, List.append_assoc] at hbroken
      exact hbroken
    · rcases Nat.lt_or_ge replies.length leader.redundancy with hlt | hge
      · rw [List.take_of_length_le hlt.le] at hrefused
        have := hwalk replies [] hlt.le hrefused
        rw [List.append_nil, contacts, List.append_nil] at this
        rw [this]
        exact .underway hrefused (hlen.symm ▸ hlt)
      · have hbefore : (replies.take leader.redundancy).length = leader.redundancy := List.length_take_of_le hge
        have := hwalk (replies.take leader.redundancy) (replies.drop leader.redundancy) hbefore.le hrefused
        rw [hbefore, List.take_of_length_le hturns.le, List.take_append_drop, decideFrom, if_neg (lt_irrefl _)] at this
        rw [this]
        conv => arg 2; rw [← List.take_append_drop leader.redundancy replies]
        cases hacks : (replies.take leader.redundancy).all acks with
        | true =>
          rw [if_pos rfl, contacts_of_contact rfl, List.append_nil]
          exact .completed (hbefore.trans hlen.symm) hacks
        | false =>
          rw [if_neg Bool.false_ne_true]
          refine .again hrefused (hbefore.trans hlen.symm) hacks (ih _ ?_ _ rfl)
          have hpos : 0 < leader.redundancy := by
            by_contra hzero
            rw [Nat.eq_zero_of_not_pos hzero, List.take_zero, List.all_nil] at hacks
            cases hacks
          rw [List.length_drop]
          omega

/-- A `PUT` or `DELETE` goes through the replicas. -/
theorem TpcCall.contacts_walk {pri : ℕ} (hfull : leader.followerCount = leader.followerCapacity)
    (hpri : primaryOf leader req = some (some pri)) (htype : req.type = .putReq ∨ req.type = .delReq)
    (replies : List (Reply KvResponse)) :
    TpcWalk (List.iterate (tpcleaderGetSuccessor leader) pri leader.redundancy) replies
      ((TpcCall.start leader req).contacts leader req replies) := by
  set replicas := List.iterate (tpcleaderGetSuccessor leader) pri leader.redundancy with hreplicas
  have hlen : replicas.length = leader.redundancy := List.length_iterate ..
  have hstart : TpcCall.start leader req = pollFrom leader req pri 0 true := by
    simp only [start, if_neg (not_not.mpr hfull), if_pos htype, hpri]
  have hle : (replies.take leader.redundancy).length ≤ leader.redundancy := List.length_take_le ..
  obtain ⟨ok, hvotes⟩ := contacts_pollFrom leader req pri (replies.take leader.redundancy) (replies.drop leader.redundancy)
    ((Nat.zero_add _).trans_le hle) true
  rw [List.take_append_drop, Nat.zero_add, List.drop_zero, Function.iterate_zero, id_eq, ← hstart, ← hreplicas] at hvotes
  have htake : (turns false replicas).take (replies.take leader.redundancy).length =
      (turns false replicas).take replies.length := by
    rw [List.length_take, ← List.take_take, List.take_of_length_le]
    rw [List.length_take, turns, List.length_mapIdx, hlen]
    omega
  rw [htake] at hvotes
  refine ⟨_, ?_, hvotes⟩
  rw [hlen]
  rcases Nat.lt_or_ge replies.length leader.redundancy with hlt | hge
  · rw [List.drop_eq_nil_of_le hlt.le]
    exact Passes.underway List.not_mem_nil (hlen.symm ▸ Nat.zero_lt_of_lt hlt)
  · rw [List.length_take_of_le hge, pollFrom, if_neg (lt_irrefl _)]
    exact contacts_pass hpri ok _

omit [StrHash] in
theorem GetCall.contacts_of_asks {call : GetCall} (h : call.asks = none) (replies : List (Reply KvResponse)) :
    call.contacts leader replies = [] := by
  cases replies with
  | nil => cases call <;> rfl
  | cons reply replies =>
    cases call with
    | ask pri i => cases h
    | returned res => rfl
    | faulted => rfl

variable (leader) in
omit [StrHash] in
/-- And so does a `GET`. -/
theorem GetCall.contacts_walk (pri : ℕ) (replies : List (Reply KvResponse)) (i : ℕ) :
    GetWalk (((List.iterate (tpcleaderGetSuccessor leader) pri leader.redundancy).mapIdx Prod.mk).drop i) replies
      ((askFrom leader ((tpcleaderGetSuccessor leader)^[i] pri) i).contacts leader replies) := by
  induction replies generalizing i with
  | nil =>
    rw [show GetCall.contacts leader _ [] = [] by cases askFrom leader ((tpcleaderGetSuccessor leader)^[i] pri) i <;> rfl]
    exact .underway
  | cons reply replies ih =>
    rcases Nat.lt_or_ge i leader.redundancy with hlt | hge
    · have hask : askFrom leader ((tpcleaderGetSuccessor leader)^[i] pri) i =
          .ask ((tpcleaderGetSuccessor leader)^[i] pri) i := if_pos hlt
      have hleft : ((List.iterate (tpcleaderGetSuccessor leader) pri leader.redundancy).mapIdx Prod.mk).drop i =
          (i, (tpcleaderGetSuccessor leader)^[i] pri) ::
            ((List.iterate (tpcleaderGetSuccessor leader) pri leader.redundancy).mapIdx Prod.mk).drop (i + 1) := by
        rw [List.drop_eq_getElem_cons (by simpa using hlt)]
        simp [List.getElem_iterate]
      rw [hleft, hask, contacts]
      cases reply with
      | refused =>
        have := ih i
        rw [hleft, hask] at this
        exact .refused this
      | silent =>
        rw [resume, contacts_of_asks rfl]
        exact .silent
      | answered res =>
        rw [resume]
        split_ifs with hres
        · rw [contacts_of_asks rfl]
          exact .found hres
        · have := ih (i + 1)
          rw [Function.iterate_succ_apply'] at this
          exact .next hres this
    · rw [askFrom, if_neg (by omega), contacts_of_asks rfl, List.drop_eq_nil_of_le (by simpa using hge)]
      exact .missed

end

/-- **The walks agree.** For every key there is one primary, the follower with the least id above the key's hash, or with
the least of all if there is none; `tpcleader_get_primary` finds it. Its successors are different followers,
in the order of the ring; and these are the followers that both loops of `tpcleader_handle_tpc` and the loop of
`tpcleader_handle_get` go through, whatever comes back: the first loop and every pass of the second that no refused connection
breaks off through all of them, the `GET` until there is a value. -/
theorem walks_agree (followerCapacity redundancy : ℕ) (hcap : 1 ≤ followerCapacity) (offers : List Offer)
    (hcount : ((tpcleaderInit followerCapacity redundancy).registered (offers.map Offer.request)).followerCount = followerCapacity)
    (key : CString) :
    let leader := (tpcleaderInit followerCapacity redundancy).registered (offers.map Offer.request)
    leader.redundancy = min redundancy leader.followerCount ∧
    ∃ pri, tpcleaderGetPrimary leader key = some (some pri) ∧ IsPrimary leader key pri ∧ (∀ i, IsPrimary leader key i → i = pri) ∧
      let replicas := List.iterate (tpcleaderGetSuccessor leader) pri leader.redundancy
      replicas.Nodup ∧ (∃ t, leader.walk ~r t ∧ replicas <+: t) ∧
      (∀ req : KvRequest, req.key = some key → req.type = .putReq ∨ req.type = .delReq → ∀ replies,
        let contacts := (TpcCall.start leader req).contacts leader req replies
        (∀ x ∈ contacts, replicas[x.2.1]? = some x.2.2) ∧ TpcWalk replicas replies contacts) ∧
      (∀ req : KvRequest, req.key = some key → ∀ replies,
        let contacts := (GetCall.start leader req).contacts leader replies
        (∀ x ∈ contacts, replicas[x.1]? = some x.2) ∧ GetWalk (replicas.mapIdx Prod.mk) replies contacts) := by
  intro leader
  obtain ⟨hcap', hred, l, hring, -⟩ := ring_registered followerCapacity redundancy offers
  have hfull : leader.followerCount = leader.followerCapacity := hcount.trans hcap'.symm
  have hlen : l.length = followerCapacity := hring.count.symm.trans hcount
  have hne : l ≠ [] := by
    rintro rfl
    simp at hlen
    omega
  have hle : leader.redundancy ≤ l.length := by
    rw [hlen]
    exact hred.le.trans (min_le_right _ _)
  obtain ⟨pri, hpri, hprimary⟩ : ∃ pri, tpcleaderGetPrimary leader key = some (some pri) ∧ IsPrimary leader key pri :=
    hring.isPrimary hne hfull
  obtain ⟨pri', t, hpri', hrot, hreplicas⟩ := hring.replicas hne hfull hle key
  obtain rfl : pri = pri' := Option.some.inj (Option.some.inj (hpri.symm.trans hpri'))
  have heq : leader.replicas key = List.iterate (tpcleaderGetSuccessor leader) pri leader.redundancy := by
    rw [TpcLeader.replicas, hpri]
  have hcounts : leader.redundancy = min redundancy leader.followerCount := by
    rw [hcount]
    exact hred
  refine ⟨hcounts, pri, hpri, hprimary, fun i hi => hring.isPrimary_unique hi hprimary, ?_⟩
  rw [← heq]
  refine ⟨?_, ⟨pri :: t, ?_, ?_⟩, ?_, ?_⟩
  · show (leader.replicas key).Nodup
    rw [hreplicas]
    exact ((hrot.nodup_iff).mp hring.nodup).sublist (List.take_sublist _ _)
  · rw [hring.walk_eq]
    exact hrot
  · show leader.replicas key <+: pri :: t
    rw [hreplicas]
    exact List.take_prefix _ _
  · intro req hkey htype replies
    have hwalk := TpcCall.contacts_walk hfull (primaryOf_eq hkey hpri) htype replies
    rw [← heq] at hwalk
    exact ⟨fun x hx => hwalk.mem hx, hwalk⟩
  · intro req hkey replies
    have hstart : GetCall.start leader req = GetCall.askFrom leader pri 0 := by
      simp only [GetCall.start, primaryOf_eq hkey hpri]
    have hwalk := GetCall.contacts_walk leader pri replies 0
    rw [List.drop_zero, Function.iterate_zero, id_eq, ← hstart, ← heq] at hwalk
    refine ⟨fun x hx => ?_, hwalk⟩
    obtain ⟨i, hi, rfl⟩ := List.mem_mapIdx.mp (hwalk.mem hx)
    exact List.getElem?_eq_getElem hi

/-! ## Failing over -/

omit [StrHash] in
/-- `tpcleader_handle_get` after so many exchanges, each of which goes as `outcome` says of the follower it is with, and the
followers it has been with. -/
def GetCall.against (leader : TpcLeader) (outcome : ℕ → Reply KvResponse) : ℕ → GetCall → GetCall × List ℕ
  | 0, call => (call, [])
  | fuel + 1, call =>
    match call.asks with
    | none => (call, [])
    | some pri =>
      let (last, contacts) := against leader outcome fuel (call.resume leader (outcome pri))
      (last, pri :: contacts)

omit [StrHash] in
/-- The value in a response, if that is what it is. -/
def valueOf : Reply KvResponse → Option (Option CString)
  | .answered res => if res.type = .getResp then some res.body else none
  | _ => none

omit [StrHash] in
/-- What a client is to be answered, if the followers `l` are asked in turn: the first value there is. -/
def firstValue (outcome : ℕ → Reply KvResponse) (l : List ℕ) : KvResponse :=
  match l.findSome? fun n => valueOf (outcome n) with
  | some body => ⟨.getResp, body⟩
  | none => ⟨.error, some errmsgNoKey⟩

omit [StrHash] in
/-- Each follower of the list responds, up to the first that has a value. -/
def Respond (outcome : ℕ → Reply KvResponse) : List ℕ → Prop
  | [] => True
  | n :: rest => ∃ res, outcome n = .answered res ∧ (res.type = .getResp ∨ Respond outcome rest)

section

variable {leader : TpcLeader} {key : CString} {outcome : ℕ → Reply KvResponse}

omit [StrHash] in
/-- A handler that has returned or died has come to its end. -/
theorem GetCall.against_of_asks {call : GetCall} (h : call.asks = none) (fuel : ℕ) :
    call.against leader outcome fuel = (call, []) := by
  cases fuel with
  | zero => rfl
  | succ fuel => rw [against, h]

/-- The test of the loop, `rest` being the replicas not yet asked. -/
theorem GetCall.askFrom_eq (hfull : Full leader) {n i : ℕ} {rest : List ℕ} (h : (leader.replicas key).drop i = n :: rest) :
    (leader.replicas key).drop (i + 1) = rest ∧ askFrom leader (tpcleaderGetSuccessor leader n) (i + 1) =
      match rest with
      | [] => .returned ⟨.error, some errmsgNoKey⟩
      | n :: _ => .ask n (i + 1) := by
  have hn : (leader.replicas key)[i]? = some n := by rw [← List.head?_drop, h]; rfl
  have hrest : (leader.replicas key).drop (i + 1) = rest := by rw [← List.tail_drop, h]; rfl
  refine ⟨hrest, ?_⟩
  have hlen := congrArg List.length hrest
  rw [List.length_drop, hfull.replicas_length] at hlen
  unfold askFrom
  cases rest with
  | nil => rw [if_neg (by simp at hlen; omega)]
  | cons m rest =>
    have hlt : i + 1 < leader.redundancy := by simp at hlen; omega
    have hm : (leader.replicas key)[i + 1]? = some m := by rw [← List.head?_drop, hrest]; rfl
    rw [if_pos hlt, Option.some.inj ((hfull.replicas_succ hn hlt).symm.trans hm)]

/-- If they respond, the first value is found. -/
theorem GetCall.against_of_respond (hfull : Full leader) {n i : ℕ} {rest : List ℕ} (h : (leader.replicas key).drop i = n :: rest)
    (hrespond : Respond outcome (n :: rest)) : ∃ fuel contacts,
      (GetCall.ask n i).against leader outcome fuel = (.returned (firstValue outcome (n :: rest)), contacts) ∧
        contacts <+: n :: rest := by
  induction rest generalizing n i with
  | nil =>
    obtain ⟨res, hres, -⟩ := hrespond
    refine ⟨1, [n], ?_, List.prefix_rfl⟩
    simp only [against, asks, resume, hres, (askFrom_eq hfull h).2, firstValue, List.findSome?, valueOf]
    split_ifs <;> rfl
  | cons m rest ih =>
    obtain ⟨res, hres, hrest⟩ := hrespond
    obtain ⟨hdrop, hask⟩ := askFrom_eq hfull h
    by_cases hvalue : res.type = .getResp
    · refine ⟨1, [n], ?_, ⟨m :: rest, rfl⟩⟩
      simp only [against, asks, resume, hres, if_pos hvalue, firstValue, List.findSome?, valueOf]
    · obtain ⟨fuel, contacts, hrun, hprefix⟩ := ih hdrop (hrest.resolve_left hvalue)
      refine ⟨fuel + 1, n :: contacts, ?_, List.cons_prefix_cons.mpr ⟨rfl, hprefix⟩⟩
      simp only [against, asks, resume, hres, if_neg hvalue, hask, hrun]
      simp only [firstValue, List.findSome?, valueOf, hres, if_neg hvalue]

/-- If one does not, the handler does not return. -/
theorem GetCall.not_returned (hfull : Full leader) {n i : ℕ} {rest : List ℕ} (h : (leader.replicas key).drop i = n :: rest)
    (hrespond : ¬ Respond outcome (n :: rest)) (fuel : ℕ) (res : KvResponse) :
    ((GetCall.ask n i).against leader outcome fuel).1 ≠ .returned res := by
  induction fuel generalizing n i rest with
  | zero => exact nofun
  | succ fuel ih =>
    simp only [against, asks]
    cases hreply : outcome n with
    | refused => exact ih h hrespond
    | silent =>
      rw [resume, against_of_asks rfl]
      exact nofun
    | answered res' =>
      obtain ⟨hvalue, hrest⟩ : res'.type ≠ .getResp ∧ ¬ Respond outcome rest :=
        ⟨fun hv => hrespond ⟨res', hreply, Or.inl hv⟩, fun hr => hrespond ⟨res', hreply, Or.inr hr⟩⟩
      obtain ⟨hdrop, hask⟩ := askFrom_eq hfull h
      simp only [resume, if_neg hvalue, hask]
      cases rest with
      | nil => exact absurd trivial hrest
      | cons m rest => exact ih hdrop hrest

end

/-- **Failing over.** `tpcleader_handle_get` comes to an end, having been with replicas of the key in their order, at most
once with each, and with the first value that one of them has, exactly if all replicas before this one respond: it
does not get over one that cannot be reached or does not answer. -/
theorem get_fails_over {leader : TpcLeader} (hfull : Full leader) {req : KvRequest} {key : CString} (hkey : req.key = some key)
    (outcome : ℕ → Reply KvResponse) :
    (∃ fuel contacts, (GetCall.start leader req).against leader outcome fuel =
        (.returned (firstValue outcome (leader.replicas key)), contacts) ∧
      contacts <+: leader.replicas key ∧ contacts.Nodup) ↔ Respond outcome (leader.replicas key) := by
  obtain ⟨pri, hpri, -⟩ := hfull.primary key
  have hstart : GetCall.start leader req = .ask pri 0 := by
    simp only [GetCall.start, primaryOf, hkey, hpri, GetCall.askFrom, if_pos (show 0 < leader.redundancy from hfull.redundancy)]
  obtain ⟨rest, hrest⟩ : ∃ rest, leader.replicas key = pri :: rest := by
    have hzero := hfull.replicas_zero hpri
    cases hl : leader.replicas key with
    | nil => rw [hl] at hzero; cases hzero
    | cons n rest => rw [hl] at hzero; exact ⟨rest, by rw [Option.some.inj hzero]⟩
  have hdrop : (leader.replicas key).drop 0 = pri :: rest := hrest
  rw [hstart]
  constructor
  · rintro ⟨fuel, contacts, hrun, -⟩
    by_contra hno
    rw [hrest] at hno
    exact GetCall.not_returned hfull hdrop hno fuel _ (congrArg Prod.fst hrun)
  · intro hrespond
    rw [hrest] at hrespond
    obtain ⟨fuel, contacts, hrun, hprefix⟩ := GetCall.against_of_respond hfull hdrop hrespond
    rw [← hrest] at hrun hprefix
    exact ⟨fuel, contacts, hrun, hprefix, (hfull.replicas_nodup key).sublist hprefix.sublist⟩

end

section

attribute [local instance] md5Sample

/-- Two followers, of which the second has the lesser id; two replicas of the key `a`, the first above its hash. -/
theorem walks_agree_two :
    let offers : List Offer := [⟨.ofString "localhost", .ofString "8002"⟩, ⟨.ofString "localhost", .ofString "8001"⟩]
    let key := CString.ofString "a"
    let leader := (tpcleaderInit 2 2).registered (offers.map Offer.request)
    leader.redundancy = min 2 leader.followerCount ∧
    ∃ pri, tpcleaderGetPrimary leader key = some (some pri) ∧ IsPrimary leader key pri ∧ (∀ i, IsPrimary leader key i → i = pri) ∧
      let replicas := List.iterate (tpcleaderGetSuccessor leader) pri leader.redundancy
      replicas.Nodup ∧ (∃ t, leader.walk ~r t ∧ replicas <+: t) ∧
      (∀ req : KvRequest, req.key = some key → req.type = .putReq ∨ req.type = .delReq → ∀ replies,
        let contacts := (TpcCall.start leader req).contacts leader req replies
        (∀ x ∈ contacts, replicas[x.2.1]? = some x.2.2) ∧ TpcWalk replicas replies contacts) ∧
      (∀ req : KvRequest, req.key = some key → ∀ replies,
        let contacts := (GetCall.start leader req).contacts leader replies
        (∀ x ∈ contacts, replicas[x.1]? = some x.2) ∧ GetWalk (replicas.mapIdx Prod.mk) replies contacts) :=
  walks_agree 2 2 (by decide) _ (by decide +kernel) _

/-- `GET a`, in the examples. -/
def getA : KvRequest := ⟨.getReq, some (.ofString "a"), none⟩

/-- The first replica answers that it has no value, the second, at the node `0`, has one. -/
theorem get_fails_over_two :
    let outcome : ℕ → Reply KvResponse := fun n =>
      if n = 0 then .answered ⟨.getResp, some (.ofString "1")⟩ else .answered ⟨.error, some errmsgNoKey⟩
    (∃ fuel contacts, (GetCall.start (localLeader ["8001", "8002"]) getA).against (localLeader ["8001", "8002"]) outcome fuel =
        (.returned (firstValue outcome ((localLeader ["8001", "8002"]).replicas (.ofString "a"))), contacts) ∧
      contacts <+: (localLeader ["8001", "8002"]).replicas (.ofString "a") ∧ contacts.Nodup) ↔
    Respond outcome ((localLeader ["8001", "8002"]).replicas (.ofString "a")) :=
  get_fails_over (full_registered (by decide) (by decide) (by decide +kernel)) rfl _

/-- The first replica of `a` has no answer, or cannot be reached; the second has a value. In the first case the process
dies, in the second the handler does not come to an end. -/
theorem get_stuck :
    let leader := localLeader ["8001", "8002"]
    let value : Reply KvResponse := .answered ⟨.getResp, some (.ofString "1")⟩
    leader.replicas (.ofString "a") = [1, 0] ∧
      (GetCall.start leader getA).against leader (fun n => if n = 0 then value else .silent) 1 = (.faulted, [1]) ∧
      ∀ fuel, ((GetCall.start leader getA).against leader (fun n => if n = 0 then value else .refused) fuel).1 = .ask 1 0 := by
  intro leader value
  refine ⟨by decide +kernel, by decide +kernel, fun fuel => ?_⟩
  have hstart : GetCall.start leader getA = .ask 1 0 := by decide +kernel
  rw [hstart]
  induction fuel with
  | zero => rfl
  | succ fuel ih => exact ih

end

end Cs162Hw.Kv
