import Cs162Hw.Library.Run
import Cs162Hw.Kv.Placement

/-!
# Registrations, again and at the same time

Two laws of `tpcleader_register` that its comment states: a follower that is in the list already may register
again, and there are never more followers than the leader has room for.

* **`register_again`** — the first holds as long as the leader is not at its capacity. At its capacity it is the
  test at the beginning that answers, and the follower is told that there is no room for it.
* **`capacity_held`** — the second, for registrations that are handled at the same time. The test is made before
  the lock is taken, so the list may have been filled up when the follower is put in. The law holds in every
  state of a run exactly if this never happens; `TpcLeader.takesUpdates_iff` says what is at stake: a leader with too many
  followers refuses every update.
-/

namespace Cs162Hw.Kv

open Library

section

variable [StrHash]

/-! ## A follower that is in the list -/

/-- The follower is in the list. -/
def TpcLeader.Lists (leader : TpcLeader) (offer : Offer) : Prop := ∃ i ∈ leader.walk, (leader.nodes i).id = offer.id

omit [StrHash] in
/-- The two leaders have the same list, node for node. -/
structure TpcLeader.SameList (leader leader' : TpcLeader) : Prop where
  head : leader'.followersHead = leader.followersHead
  walk : leader'.walk = leader.walk
  nodes : ∀ i ∈ leader.walk, leader'.nodes i = leader.nodes i

/-- To register is answered with success, and does nothing. -/
def TpcLeader.RegistersAgain (leader : TpcLeader) (offer : Offer) : Prop :=
  (∃ res, (tpcleaderRegister leader offer.request).1 = some res ∧ res.type = .success) ∧
    (tpcleaderRegister leader offer.request).2.followerCount = leader.followerCount ∧
    leader.SameList (tpcleaderRegister leader offer.request).2

/-- At the capacity a follower is refused, whether it is in the list or not. -/
theorem register_full {leader : TpcLeader} (hfull : leader.followerCount = leader.followerCapacity) (offer : Offer) :
    tpcleaderRegister leader offer.request = (some ⟨.error, some errmsgFollowerCapacity⟩, leader) := if_pos hfull

/-- Below it, a node is made and put under the lock. -/
theorem register_room {leader : TpcLeader} (hroom : leader.followerCount ≠ leader.followerCapacity) (offer : Offer) :
    tpcleaderRegister leader offer.request =
      (some ⟨.success, none⟩, insertFollower (allocFollower leader offer.host offer.port) leader.allocated) :=
  if_neg hroom

/-- **A follower that is in the list may register again**, exactly as long as the leader is not at its capacity. -/
theorem register_again (followerCapacity redundancy : ℕ) (offers : List Offer) (offer : Offer)
    (hlisted : ((tpcleaderInit followerCapacity redundancy).registered (offers.map Offer.request)).Lists offer) :
    let leader := (tpcleaderInit followerCapacity redundancy).registered (offers.map Offer.request)
    leader.RegistersAgain offer ↔ leader.followerCount ≠ leader.followerCapacity := by
  intro leader
  obtain ⟨-, -, l, hring, -⟩ := ring_registered followerCapacity redundancy offers
  obtain ⟨i, hi, hid⟩ := hlisted
  constructor
  · rintro ⟨⟨res, hres, htype⟩, -⟩ hfull
    rw [register_full hfull] at hres
    rw [← Option.some.inj hres] at htype
    cases htype
  · intro hroom
    rcases @Ring.insertFollower_cases leader l _ offer.host offer.port hring with ⟨-, hsame⟩ | ⟨hnew, -⟩
    · -- the new node is left out
      unfold TpcLeader.RegistersAgain
      rw [register_room hroom, hsame]
      refine ⟨⟨_, rfl, rfl⟩, rfl, rfl, ?_, fun j hj => ?_⟩
      · rw [hring.walk_eq]
        exact hring.alloc.walk_eq
      · rw [hring.walk_eq] at hj
        exact hring.allocFollower_of_mem hj
    · rw [hring.walk_eq] at hi
      exact absurd hid (hnew i hi)

/-! ## Registrations at the same time -/

/-- Where a registration stands. -/
inductive Registering where
  /-- It has passed the test and waits for the lock. -/
  | tested (offer : Offer)
  /-- It has been answered. -/
  | answered (res : KvResponse)

/-- A leader, and the registrations that have arrived. -/
structure Registry where
  /-- The leader. -/
  leader : TpcLeader
  /-- The registrations, in the order of their arrival. -/
  registrations : List Registering

/-- What happens to it. -/
inductive RegisterEvent where
  /-- A registration arrives and makes the test. -/
  | test (offer : Offer)
  /-- The registration `t` takes the lock, puts its follower in, and lets go of the lock. -/
  | insert (t : ℕ)

namespace Registry

/-- One event. The node of a follower is nobody else's before it is in the list; it is made here when it is put
in. -/
def step (c : Registry) : RegisterEvent → Registry
  | .test offer =>
    if c.leader.followerCount = c.leader.followerCapacity then
      { c with registrations := c.registrations ++ [.answered ⟨.error, some errmsgFollowerCapacity⟩] }
    else { c with registrations := c.registrations ++ [.tested offer] }
  | .insert t =>
    match c.registrations[t]? with
    | some (.tested offer) =>
      { leader := insertFollower (allocFollower c.leader offer.host offer.port) c.leader.allocated
        registrations := c.registrations.set t (.answered ⟨.success, none⟩) }
    | _ => c

omit [StrHash] in
/-- A leader to which nobody has come yet. -/
def start (followerCapacity redundancy : ℕ) : Registry := ⟨tpcleaderInit followerCapacity redundancy, []⟩

/-- The follower that is put in finds room, or is in the list already. -/
def FindsRoom (c : Registry) : RegisterEvent → Prop
  | .test _ => True
  | .insert t => ∀ offer, c.registrations[t]? = some (.tested offer) →
      c.leader.followerCount < c.leader.followerCapacity ∨ c.leader.Lists offer

end Registry

/-- The leader takes updates: it does not answer that it has not got its followers yet. -/
def TpcLeader.TakesUpdates (leader : TpcLeader) : Prop :=
  ∀ req, TpcCall.start leader req ≠ .returned ⟨.error, some errmsgNotAtCapacity⟩

/-- It does so with neither fewer followers than it has room for nor more. -/
theorem TpcLeader.takesUpdates_iff {leader : TpcLeader} :
    leader.TakesUpdates ↔ leader.followerCount = leader.followerCapacity := by
  constructor
  · intro h
    by_contra hne
    exact h ⟨.putReq, none, none⟩ (if_pos hne)
  · intro hfull req hstart
    have htext : ∀ isCommit, tpcResponse isCommit ≠ ⟨.error, some errmsgNotAtCapacity⟩ := by decide
    have hpass : ∀ isCommit, TpcCall.pass leader req isCommit ≠ .returned ⟨.error, some errmsgNotAtCapacity⟩ := by
      intro isCommit h
      unfold TpcCall.pass at h
      split at h
      · cases h
      · exact htext isCommit (TpcCall.returned.inj h)
      · split_ifs at h
        exact htext isCommit (TpcCall.returned.inj h)
    unfold TpcCall.start at hstart
    rw [if_neg (not_not.mpr hfull)] at hstart
    split_ifs at hstart
    · split at hstart
      · cases hstart
      · exact hpass true hstart
      · unfold TpcCall.pollFrom at hstart
        split_ifs at hstart
        exact hpass true hstart
    · exact absurd (TpcCall.returned.inj hstart) (by decide)

namespace Registry

variable {c : Registry} {e : RegisterEvent}

omit [StrHash] in
/-- No more followers than there is room for, each a node of the ring. -/
def Within (c : Registry) : Prop :=
  c.leader.followerCount ≤ c.leader.followerCapacity ∧ ∃ l, Ring c.leader l ∧ c.leader.followerCount = l.length

/-- What a follower that is put in does to the count. -/
theorem count_insert {l : List ℕ} (h : Ring c.leader l) {t : ℕ} {offer : Offer}
    (ht : c.registrations[t]? = some (.tested offer)) :
    (c.step (.insert t)).leader.followerCapacity = c.leader.followerCapacity ∧
      (∃ l', Ring (c.step (.insert t)).leader l') ∧
      (c.leader.Lists offer ∧ (c.step (.insert t)).leader.followerCount = c.leader.followerCount ∨
        ¬ c.leader.Lists offer ∧ (c.step (.insert t)).leader.followerCount = c.leader.followerCount + 1) := by
  have hstep : (c.step (.insert t)).leader =
      insertFollower (allocFollower c.leader offer.host offer.port) c.leader.allocated := by simp only [step, ht]
  have hlists : c.leader.Lists offer ↔ ∃ i ∈ l, (c.leader.nodes i).id = followerId offer.host offer.port := by
    unfold TpcLeader.Lists
    rw [h.walk_eq]
    rfl
  rw [hstep, hlists]
  rcases @Ring.insertFollower_cases c.leader l _ offer.host offer.port h with ⟨hknown, hsame⟩ | ⟨hnew, hins⟩
  · rw [hsame]
    exact ⟨rfl, ⟨l, h.alloc⟩, Or.inl ⟨hknown, rfl⟩⟩
  · obtain ⟨l', hring', hperm⟩ := hins.ring
    refine ⟨hins.followerCapacity, ⟨l', hring'⟩, Or.inr ⟨by rintro ⟨i, hi, hid⟩; exact hnew i hi hid, ?_⟩⟩
    rw [hring'.count, hperm.length_eq, h.count, List.length_cons]

/-- The test changes nothing of the leader. -/
theorem leader_test (offer : Offer) : (c.step (.test offer)).leader = c.leader := by
  rw [step]
  split_ifs <;> rfl

/-- A registration that is not waiting for the lock does nothing. -/
theorem leader_insert {t : ℕ} (ht : ∀ offer, c.registrations[t]? ≠ some (.tested offer)) :
    (c.step (.insert t)).leader = c.leader := by
  simp only [step]

/-- **One event** keeps the number of followers within bounds exactly if the follower that is put in finds room. -/
theorem within_step_iff (h : c.Within) : (c.step e).Within ↔ c.FindsRoom e := by
  obtain ⟨hle, l, hring, hcount⟩ := h
  cases e with
  | test offer =>
    refine iff_of_true ?_ trivial
    unfold Within
    rw [leader_test]
    exact ⟨hle, l, hring, hcount⟩
  | insert t =>
    by_cases ht : ∃ offer, c.registrations[t]? = some (.tested offer)
    · obtain ⟨offer, ht⟩ := ht
      have hfinds : c.FindsRoom (.insert t) ↔ c.leader.followerCount < c.leader.followerCapacity ∨ c.leader.Lists offer := by
        simp [FindsRoom, ht]
      obtain ⟨hcap, ⟨l', hring'⟩, hcases⟩ := count_insert hring ht
      rw [hfinds, Within, hcap]
      rcases hcases with ⟨hknown, hsame⟩ | ⟨hnew, hmore⟩
      · rw [hsame]
        exact iff_of_true ⟨hle, l', hring', hsame ▸ hring'.count⟩ (Or.inr hknown)
      · rw [hmore, Nat.succ_le_iff]
        exact ⟨fun h => Or.inl h.1, fun h => ⟨h.resolve_right hnew, l', hring', hmore ▸ hring'.count⟩⟩
    · have hnot : ∀ offer, c.registrations[t]? ≠ some (.tested offer) := fun offer h => ht ⟨offer, h⟩
      refine iff_of_true ?_ fun offer h => absurd h (hnot offer)
      unfold Within
      rw [leader_insert hnot]
      exact ⟨hle, l, hring, hcount⟩

/-- A leader that is at its capacity stays there, while nothing goes wrong. -/
theorem full_step (h : c.Within) (hroom : c.FindsRoom e) (hfull : c.leader.followerCount = c.leader.followerCapacity) :
    (c.step e).leader.followerCount = (c.step e).leader.followerCapacity := by
  obtain ⟨-, l, hring, -⟩ := h
  cases e with
  | test offer => rw [leader_test, hfull]
  | insert t =>
    by_cases ht : ∃ offer, c.registrations[t]? = some (.tested offer)
    · obtain ⟨offer, ht⟩ := ht
      obtain ⟨hcap, -, hcases⟩ := count_insert hring ht
      rw [hcap, ← hfull]
      rcases hcases with ⟨-, hsame⟩ | ⟨hnew, -⟩
      · exact hsame
      · exact absurd ((hroom offer ht).resolve_left (by omega)) hnew
    · rw [leader_insert fun offer h => ht ⟨offer, h⟩, hfull]

end Registry

/-- **The capacity holds** in every state of a run of registrations, in any number and any order of their steps,
exactly if no follower is put into a list that has been filled up since its test. A leader that has got all its followers then
takes updates ever after. -/
theorem capacity_held (followerCapacity redundancy : ℕ) (events : List RegisterEvent) :
    (∀ pre, pre <+: events →
      let c := run Registry.step (Registry.start followerCapacity redundancy) pre
      c.Within ∧ ∀ mid, mid <+: pre →
        (run Registry.step (Registry.start followerCapacity redundancy) mid).leader.followerCount =
          (run Registry.step (Registry.start followerCapacity redundancy) mid).leader.followerCapacity →
        c.leader.TakesUpdates) ↔
      Along Registry.step Registry.FindsRoom (Registry.start followerCapacity redundancy) events := by
  have hstart : (Registry.start followerCapacity redundancy).Within :=
    ⟨Nat.zero_le _, [], ring_init followerCapacity redundancy, rfl⟩
  have hiff := @always_iff_along _ _ Registry.step Registry.FindsRoom Registry.Within _ events hstart
    fun h => Registry.within_step_iff h
  rw [← hiff]
  refine ⟨fun h pre hpre => (h pre hpre).1, fun h pre hpre => ⟨h pre hpre, ?_⟩⟩
  rintro mid ⟨rest, rfl⟩ hfull
  have halong := hiff.mp h
  obtain ⟨post, rfl⟩ := hpre
  rw [List.append_assoc, along_append, along_append] at halong
  have hmid := h mid ⟨rest ++ post, by rw [List.append_assoc]⟩
  rw [TpcLeader.takesUpdates_iff, run_append]
  refine (halong.2.1.invariant (I := fun c : Registry => c.Within ∧ c.leader.followerCount = c.leader.followerCapacity)
    ⟨hmid, hfull⟩ fun hc hroom => ?_).2
  exact ⟨(Registry.within_step_iff hc.1).mpr hroom, Registry.full_step hc.1 hroom hc.2⟩

end

/-! ## One follower too many -/

section

attribute [local instance] md5Sample

/-- A follower of the leader's own host. -/
def localOffer (port : String) : Offer := ⟨.ofString "localhost", .ofString port⟩

/-- A leader with room for another registers the first once more. -/
theorem register_again_room :
    let leader := (tpcleaderInit 2 1).registered ([localOffer "8001"].map Offer.request)
    leader.RegistersAgain (localOffer "8001") ↔ leader.followerCount ≠ leader.followerCapacity :=
  register_again 2 1 [localOffer "8001"] (localOffer "8001") ⟨0, by decide +kernel, rfl⟩

/-- The only follower there is room for restarts, and registers with the same host and port: it is refused. -/
theorem register_again_refused :
    (localLeader ["8001"]).Lists (localOffer "8001") ∧ ¬ (localLeader ["8001"]).RegistersAgain (localOffer "8001") := by
  have hfull : (localLeader ["8001"]).followerCount = (localLeader ["8001"]).followerCapacity := by decide +kernel
  refine ⟨⟨0, by decide +kernel, rfl⟩, ?_⟩
  rintro ⟨⟨res, hres, htype⟩, -⟩
  rw [register_full hfull] at hres
  rw [← Option.some.inj hres] at htype
  cases htype

/-- Two followers register with a leader that has room for one, and both pass the test before either is put in. -/
def crossedRegistrations : List RegisterEvent := [.test (localOffer "8001"), .test (localOffer "8002"), .insert 0, .insert 1]

/-- The leader has one follower too many, and takes no updates. -/
theorem capacity_exceeded :
    let c := run Registry.step (Registry.start 1 1) crossedRegistrations
    c.leader.followerCount = 2 ∧ c.leader.followerCapacity = 1 ∧ ¬ c.Within ∧
      (run Registry.step (Registry.start 1 1) (crossedRegistrations.take 3)).leader.followerCount = 1 ∧
      ¬ c.leader.TakesUpdates := by
  intro c
  have hcount : c.leader.followerCount = 2 := by decide +kernel
  have hcap : c.leader.followerCapacity = 1 := by decide +kernel
  refine ⟨hcount, hcap, fun h => ?_, by decide +kernel, fun h => ?_⟩
  · have := h.1
    omega
  · have := TpcLeader.takesUpdates_iff.mp h
    omega

end

end Cs162Hw.Kv
