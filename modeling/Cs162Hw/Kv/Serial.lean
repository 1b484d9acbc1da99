import Cs162Hw.Kv.Cluster

/-!
# One worker at a time

The cluster when a `PUT` or `DELETE` reaches the leader only after the one before has been answered.

* **`handleTpc_atomic`** — one request, with every pattern of failed exchanges and of crashed followers,
  when nothing is handled by a follower after the leader has moved on: nothing is applied unless
  the leader has decided to commit, and what it answers is what has happened.
* **`late_sound`** — any number of requests, with requests that followers handle late: as long as
  these come in time (`Cluster.Timely`), the cluster is sound.
* `late_put` — a `PUT` that was aborted is handled late, and applied by the next `COMMIT`.
-/

namespace Cs162Hw.Kv

open Library
open Library.TwoPhase (Operations Outcome System Phase)
open Library.TwoPhase.Operations (apply)

section

variable [StrHash]

/-! ## Serial runs -/

/-- `kvserver_put_check`, `kvserver_del_check`. -/
def KvServer.check (server : KvServer) : Update → Int
  | .put key value => kvserverPutCheck key value
  | .del key => kvserverDelCheck server key

theorem KvServer.check_eq {server : KvServer} (hc : server.store.Chained) (u : Update) :
    server.check u = u.checkCode server.store.contents := by
  cases u with
  | put key value => exact kvserverPutCheck_eq ..
  | del key => exact kvserverDelCheck_eq hc key

/-- Would the follower do anything about the request? A `PUT` or `DELETE` is agreed to, a decision meets
`TPC_READY`. -/
def KvServer.Acts (server : KvServer) (req : KvRequest) : Prop :=
  match req.update? with
  | some u => server.state ≠ .ready ∧ server.check u = 0
  | none => server.state = .ready

instance (server : KvServer) (req : KvRequest) : Decidable (server.Acts req) := by
  unfold KvServer.Acts
  split <;> infer_instance

omit [StrHash] in
/-- Has it returned? -/
def TpcCall.isReturned : TpcCall → Bool
  | .returned _ => true
  | _ => false

namespace Cluster

variable (leader : TpcLeader)

/-- Does the worker still need an answer from the follower at `a`? It does while it asks for votes, and while
the follower has not acknowledged its decision in the pass being made, or another pass will be needed. -/
def Awaits (worker : Worker) (a : Address) : Prop :=
  match worker.call with
  | .poll _ _ _ => True
  | .decide _ _ visitedNode isAllAcked =>
    isAllAcked = true → a ∉ (addresses leader worker.write.op.key).take visitedNode
  | _ => False

instance (worker : Worker) (a : Address) : Decidable (Awaits leader worker a) := by
  unfold Awaits
  split <;> infer_instance

omit [StrHash] in
/-- A request arrives when all before it have been answered. -/
def Serial (c : Cluster) : ClusterEvent → Prop
  | .arrive _ => ∀ worker ∈ c.workers, worker.call.isReturned = true
  | _ => True

/-- A request that a follower handles late has nothing to do there, or is of a worker that still needs an
answer from that follower. -/
def Timely (c : Cluster) : ClusterEvent → Prop
  | .deliver i => ∀ x ∈ c.late[i]?, (c.net x.2.1).server.Acts x.2.2 → ∃ worker ∈ c.workers[x.1]?, Awaits leader worker x.2.1
  | _ => True

omit [StrHash] in
instance (c : Cluster) : (e : ClusterEvent) → Decidable (Serial c e)
  | .arrive _ => inferInstanceAs (Decidable (∀ worker ∈ c.workers, worker.call.isReturned = true))
  | .exchange _ _ => .isTrue trivial
  | .deliver _ => .isTrue trivial
  | .restart _ => .isTrue trivial

instance (c : Cluster) : (e : ClusterEvent) → Decidable (Timely leader c e)
  | .arrive _ => .isTrue trivial
  | .exchange _ _ => .isTrue trivial
  | .deliver i => inferInstanceAs (Decidable (∀ x ∈ c.late[i]?, (c.net x.2.1).server.Acts x.2.2 →
      ∃ worker ∈ c.workers[x.1]?, Awaits leader worker x.2.1))
  | .restart _ => .isTrue trivial

variable {leader} {c : Cluster} {m : Address → KvMap}

/-- What holds of a cluster in a serial run. -/
structure SerialWf (leader : TpcLeader) (m : Address → KvMap) (c : Cluster) : Prop where
  wf : c.Wf leader
  tied : ∀ a, TwoPhase.Tied (m a) ((c.spec leader).net a)
  serial : ∃ d₀, System.SerialInv d₀ (c.spec leader)

omit [StrHash] in
theorem isReturned_phase {call : TpcCall} (h : call.isReturned = true) : ∃ commit, call.phase = .done commit := by
  cases call with
  | returned res => exact ⟨_, rfl⟩
  | _ => cases h

/-- What the request of a worker finds to do is what its message finds to do. -/
theorem Wf.acts (h : c.Wf leader) {t : ℕ} {a : Address} {msg : KvRequest}
    (hmsg : (∃ u, msg.update? = some u) ∨ ∃ commit, msg = resClient commit)
    (hacts : ((c.net a).spec).Acts (messageOf t msg)) : (c.net a).server.Acts msg := by
  have hready := (h.followers a).state_eq_ready_iff
  rcases hmsg with ⟨u, hu⟩ | ⟨commit, rfl⟩
  · simp only [messageOf, KvServer.Acts, hu] at hacts ⊢
    obtain ⟨hnone, hcheck⟩ : (c.net a).owner = none ∧ u.checkCode (c.net a).server.store.contents = 0 :=
      ⟨hacts.1, of_decide_eq_true hacts.2⟩
    refine ⟨fun hstate => ?_, ?_⟩
    · rw [hready, hnone] at hstate
      cases hstate
    · rw [KvServer.check_eq (Refines.chained (h.followers a)), hcheck]
  · rw [messageOf_resClient] at hacts
    have hsome : (c.net a).owner.isSome := by cases commit <;> exact hacts
    cases commit <;> exact hready.mpr hsome

/-- An event that keeps the order, and comes in time. -/
theorem SerialWf.step (hfull : Full leader) (h : SerialWf leader m c) {e : ClusterEvent} (hserial : c.Serial e)
    (htimely : Timely leader c e) : SerialWf leader m (c.step leader e) := by
  obtain ⟨hwf, hspec⟩ := h.wf.step hfull e
  obtain ⟨d₀, hinv⟩ := h.serial
  refine ⟨hwf, h.wf.tied hfull h.tied e, ?_⟩
  rw [hspec]
  cases e with
  | restart a => exact ⟨d₀, hinv⟩
  | exchange t o => exact hinv.step trivial trivial
  | arrive w =>
    refine hinv.step (fun T hT => ?_) trivial
    obtain ⟨worker, hworker, rfl⟩ := List.mem_map.mp hT
    exact isReturned_phase (hserial worker hworker)
  | deliver i =>
    refine hinv.step trivial fun x hx hacts => ?_
    simp only [Cluster.spec, List.getElem?_map, Option.mem_def, Option.map_eq_some_iff] at hx
    obtain ⟨⟨t, a, msg⟩, hi, rfl⟩ := hx
    obtain ⟨worker, hworker, hawaits⟩ := htimely _ hi (h.wf.acts (h.wf.late _ (List.mem_of_getElem? hi)) hacts)
    refine ⟨worker.spec leader, ?_, ?_⟩
    · rw [Option.mem_def, Cluster.spec, List.getElem?_map, hworker]
      rfl
    · simp only [System.Awaits, Worker.spec]
      unfold Awaits at hawaits
      cases hcall : worker.call <;> simp only [hcall] at hawaits <;> trivial

theorem serialWf_start {servers : Address → KvServer} (hquiet : ∀ a, Quiescent (servers a) (m a)) :
    SerialWf leader m (start servers) := by
  obtain ⟨hwf, hspec⟩ : (start servers).Wf leader ∧ (start servers).spec leader = System.init m := wf_start hquiet
  refine ⟨hwf, fun a => ?_, ?_⟩
  · rw [hspec]
    rfl
  · rw [hspec]
    exact ⟨_, System.serialInv_init m⟩

theorem SerialWf.sound (h : SerialWf leader m c) : c.Sound leader m := by
  obtain ⟨d₀, hinv⟩ := h.serial
  exact h.wf.sound hinv.sound h.tied

/-- Once all workers have returned, the followers are quiescent. -/
theorem SerialWf.quiescent (h : SerialWf leader m c) (hdone : ∀ worker ∈ c.workers, worker.call.isReturned = true)
    (a : Address) : Quiescent (c.net a).server (c.net a).server.store.contents := by
  obtain ⟨d₀, hinv⟩ := h.serial
  have hnone := hinv.pending_eq_none (fun T hT => by
    obtain ⟨worker, hworker, rfl⟩ := List.mem_map.mp hT
    exact isReturned_phase (hdone worker hworker)) a
  have hfollower : Refines (c.net a).server (TwoPhase.Ledger.forget (c.net a).spec) := h.wf.followers a
  have hforget : (TwoPhase.Ledger.forget (c.net a).spec).pending = none := by
    rw [TwoPhase.Ledger.forget]
    exact congrArg (Option.map Prod.snd) hnone
  unfold Refines at hfollower
  rw [hforget] at hfollower
  exact hfollower

end Cluster

/-- **Late requests.** Requests reach a full leader one at a time, exchanges fail in any way, followers crash between
requests, and what the leader gave up on is handled at any later time: as long as it comes in time, only
operations decided to be committed are applied, and those answered `SUCCESS` once at every replica. -/
theorem late_sound {leader : TpcLeader} (hfull : Full leader) {servers : Address → KvServer} {m : Address → KvMap}
    (hquiet : ∀ a, Quiescent (servers a) (m a)) {events : List ClusterEvent}
    (hserial : Cluster.Along leader Cluster.Serial (Cluster.start servers) events)
    (htimely : Cluster.Along leader (Cluster.Timely leader) (Cluster.start servers) events) :
    ((Cluster.start servers).run leader events).Sound leader m :=
  (Cluster.Along.run leader (fun h he => h.step hfull he.1 he.2) (Cluster.serialWf_start hquiet)
    (hserial.and leader htimely)).sound

/-! ## One request -/

/-- What can go wrong with a request, or well. -/
inductive Attempt where
  /-- The worker has its next exchange. -/
  | exchange (o : Outcome)
  /-- A follower crashes between two requests, and starts again. -/
  | crash (a : Address)

/-- What it is for the cluster. -/
def Attempt.event : Attempt → ClusterEvent
  | .exchange o => .exchange 0 o
  | .crash a => .restart a

/-- The cluster after a request, the followers being `servers` before it. -/
def Cluster.attempt (leader : TpcLeader) (servers : Address → KvServer) (w : Write) (attempts : List Attempt) : Cluster :=
  ((Cluster.start servers).step leader (.arrive w)).run leader (attempts.map Attempt.event)

/-- Nothing that happens to a request makes another worker. -/
theorem Cluster.workers_attempt {leader : TpcLeader} {c : Cluster} {w : Write} (h : ∃ call, c.workers = [⟨w, call⟩])
    (attempt : Attempt) : ∃ call, (c.step leader attempt.event).workers = [⟨w, call⟩] := by
  obtain ⟨call, hc⟩ := h
  cases attempt with
  | crash a => exact ⟨call, hc⟩
  | exchange o =>
    simp only [Attempt.event, Cluster.step, hc, List.getElem?_cons_zero]
    split
    · exact ⟨call, hc⟩
    · exact ⟨_, rfl⟩

/-- What holds during a request. -/
theorem Cluster.serialWf_attempt {leader : TpcLeader} (hfull : Full leader) {servers : Address → KvServer} {m : Address → KvMap}
    (hquiet : ∀ a, Quiescent (servers a) (m a)) (w : Write) (attempts : List Attempt) :
    SerialWf leader m (attempt leader servers w attempts) ∧ ∃ call, (attempt leader servers w attempts).workers = [⟨w, call⟩] := by
  have hrun : ∀ (attempts : List Attempt) {c : Cluster}, (SerialWf leader m c ∧ ∃ call, c.workers = [⟨w, call⟩]) →
      SerialWf leader m (c.run leader (attempts.map Attempt.event)) ∧
        ∃ call, (c.run leader (attempts.map Attempt.event)).workers = [⟨w, call⟩] := by
    intro attempts
    induction attempts with
    | nil => exact fun h => h
    | cons attempt attempts ih =>
      intro c h
      refine ih ⟨h.1.step hfull ?_ ?_, workers_attempt h.2 attempt⟩ <;> cases attempt <;> trivial
  refine hrun attempts ⟨(serialWf_start hquiet).step hfull ?_ trivial, _, rfl⟩
  exact fun _ h => (List.not_mem_nil h).elim

/-- **Atomic commitment.** A full leader handles a `PUT` or `DELETE` while the followers are quiescent; exchanges fail
in any way, and followers crash between requests. As long as the leader has not decided to commit, no follower has
applied anything. When it has returned, all followers are quiescent, and either it has answered `SUCCESS`
and the replicas of the key have applied the operation, once, and nobody else anything, or `ERROR` and nobody has
applied anything. -/
theorem handleTpc_atomic {leader : TpcLeader} (hfull : Full leader) {servers : Address → KvServer} {m : Address → KvMap}
    (hquiet : ∀ a, Quiescent (servers a) (m a)) (w : Write) (attempts : List Attempt) :
    let c := Cluster.attempt leader servers w attempts
    ∃ call, c.workers = [⟨w, call⟩] ∧ call ≠ .faulted ∧
      (call.decision ≠ some true → ∀ a, (c.net a).applied = [] ∧ (c.net a).server.store.contents = m a) ∧
      ∀ res, call = .returned res →
        (∀ a, Quiescent (c.net a).server (c.net a).server.store.contents) ∧
          ((res.type = .success ∧
              (∀ a ∈ addresses leader w.op.key,
                (c.net a).applied = [(0, w.op)] ∧ (c.net a).server.store.contents = apply w.op (m a)) ∧
              ∀ a ∉ addresses leader w.op.key, (c.net a).applied = [] ∧ (c.net a).server.store.contents = m a) ∨
            (res.type = .error ∧ ∀ a, (c.net a).applied = [] ∧ (c.net a).server.store.contents = m a)) := by
  intro c
  obtain ⟨hserial, call, hworkers⟩ := Cluster.serialWf_attempt hfull hquiet w attempts
  have hsound : c.Sound leader m := hserial.sound
  have hself : c.workers[0]? = some ⟨w, call⟩ := by rw [hworkers]; rfl
  have hmem : ⟨w, call⟩ ∈ c.workers := List.mem_of_getElem? hself
  have honly : ∀ a, ∀ x ∈ (c.net a).applied, x = (0, w.op) ∧ call.decision = some true ∧ a ∈ addresses leader w.op.key := by
    intro a x hx
    obtain ⟨worker, hworker, hop, hdecision, ha⟩ := hsound.committed a x hx
    have hzero : x.1 = 0 := by
      have := (List.getElem?_eq_some_iff.mp hworker).1
      rw [hworkers, List.length_singleton] at this
      omega
    rw [hzero, hself] at hworker
    obtain rfl := Option.some.inj hworker
    exact ⟨Prod.ext hzero hop.symm, hdecision, by rw [hop]; exact ha⟩
  have hnothing : ∀ a, (c.net a).applied = [] → (c.net a).applied = [] ∧ (c.net a).server.store.contents = m a :=
    fun a h => ⟨h, by rw [hsound.contents a, h]; rfl⟩
  have hundecided : call.decision ≠ some true → ∀ a, (c.net a).applied = [] := fun hne a =>
    List.eq_nil_iff_forall_not_mem.mpr fun x hx => hne (honly a x hx).2.1
  obtain ⟨hfault, hanswers⟩ := hsound.answers _ hmem
  refine ⟨call, hworkers, hfault, fun hne a => hnothing a (hundecided hne a), fun res hres => ⟨fun a => ?_, ?_⟩⟩
  · refine hserial.quiescent (fun worker hworker => ?_) a
    rw [hworkers] at hworker
    rw [List.mem_singleton.mp hworker, hres]
    rfl
  · rcases hanswers res hres with rfl | rfl
    · refine Or.inl ⟨rfl, fun a ha => ?_, fun a ha => hnothing a ?_⟩
      · have hcount := hsound.complete 0 _ hself _ hres rfl a ha
        have hreplicate := List.eq_replicate_of_mem fun x hx => (honly a x hx).1
        rw [hreplicate, List.count_replicate_self] at hcount
        rw [hcount] at hreplicate
        refine ⟨hreplicate, ?_⟩
        rw [hsound.contents a, hreplicate]
        rfl
      · exact List.eq_nil_iff_forall_not_mem.mpr fun x hx => ha (honly a x hx).2.2
    · exact Or.inr ⟨rfl, fun a => hnothing a (hundecided (by rw [hres]; simp [TpcCall.decision, tpcResponse]) a)⟩

end

section

attribute [local instance] md5Sample

/-- The follower votes, and crashes; of the `COMMIT`s the first is lost, the second finds no connection, and the
response to the third is lost. -/
theorem handleTpc_atomic_put :
    let c := Cluster.attempt (localLeader ["8001"]) (fun _ => newServer) (writeA "1")
      [.exchange .answered, .crash (.ofString "localhost", 8001), .exchange .requestLost, .exchange .refused,
        .exchange .responseLost, .exchange .answered]
    ∃ call, c.workers = [⟨writeA "1", call⟩] ∧ call ≠ .faulted ∧
      (call.decision ≠ some true → ∀ a, (c.net a).applied = [] ∧
        (c.net a).server.store.contents = KvStore.contents ⟨.empty⟩) ∧
      ∀ res, call = .returned res →
        (∀ a, Quiescent (c.net a).server (c.net a).server.store.contents) ∧
          ((res.type = .success ∧
              (∀ a ∈ addresses (localLeader ["8001"]) (writeA "1").op.key, (c.net a).applied = [(0, (writeA "1").op)] ∧
                (c.net a).server.store.contents = apply (writeA "1").op (KvStore.contents ⟨.empty⟩)) ∧
              ∀ a ∉ addresses (localLeader ["8001"]) (writeA "1").op.key, (c.net a).applied = [] ∧
                (c.net a).server.store.contents = KvStore.contents ⟨.empty⟩) ∨
            (res.type = .error ∧ ∀ a, (c.net a).applied = [] ∧
              (c.net a).server.store.contents = KvStore.contents ⟨.empty⟩)) :=
  handleTpc_atomic full_localLeader (fun _ => quiescent_newServer) (writeA "1") _

/-- A `PUT` whose request was lost is handled before the `ABORT`; then there is another. -/
theorem late_sound_put :
    ((Cluster.start fun _ => newServer).run (localLeader ["8001"])
      [.arrive (writeA "1"), .exchange 0 .requestLost, .deliver 0, .exchange 0 .answered,
        .arrive (writeA "2"), .exchange 1 .answered, .exchange 1 .responseLost, .exchange 1 .answered]).Sound
      (localLeader ["8001"]) (fun _ => KvStore.contents ⟨.empty⟩) :=
  late_sound full_localLeader (fun _ => quiescent_newServer) (by decide +kernel) (by decide +kernel)

/-! ## A request that comes too late -/

/-- The follower handles a `PUT` after its `ABORT`, while the leader, whose `COMMIT` of the next `PUT` was
handled but not acknowledged, is about to send this again. -/
def latePut : List ClusterEvent :=
  [.arrive (writeA "1"), .exchange 0 .requestLost, .exchange 0 .answered,
    .arrive (writeA "2"), .exchange 1 .answered, .exchange 1 .responseLost, .deliver 0, .exchange 1 .answered]

/-- The first `PUT` was answered `ERROR`, and is applied, over the second. -/
theorem late_put :
    let c := (Cluster.start fun _ => newServer).run (localLeader ["8001"]) latePut
    Cluster.Along (localLeader ["8001"]) Cluster.Serial (Cluster.start fun _ => newServer) latePut ∧
      c.workers.map Worker.call = [.returned (tpcResponse false), .returned (tpcResponse true)] ∧
      (∀ a ∈ addresses (localLeader ["8001"]) (.ofString "a"),
        (c.net a).applied = [(0, (writeA "1").op), (1, (writeA "2").op)]) ∧
      ¬ c.Sound (localLeader ["8001"]) (fun _ => KvStore.contents ⟨.empty⟩) := by
  intro c
  have happlied : ∀ a ∈ addresses (localLeader ["8001"]) (.ofString "a"),
      (c.net a).applied = [(0, (writeA "1").op), (1, (writeA "2").op)] := by decide +kernel
  refine ⟨by decide +kernel, by decide +kernel, happlied, fun hsound => ?_⟩
  refine hsound.not_applied_of_error 0 (writeA "1").op (by decide +kernel) (.ofString "localhost", 8001) ?_
  rw [happlied _ (by decide +kernel)]
  exact List.mem_cons_self

end

end Cs162Hw.Kv
