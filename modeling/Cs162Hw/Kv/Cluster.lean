import Cs162Hw.Library.Transactions
import Cs162Hw.Kv.LeaderCalls

/-!
# The leader, its workers and the followers

The whole system of `hw4` as far as `PUT` and `DELETE` go: a full leader, any number of its workers,
each in `tpcleader_handle_tpc`, and the followers, each handling one request at a time. What
happens is a sequence of `ClusterEvent`s: a client's request arrives, a worker has its next exchange,
a request on which a worker gave up is handled after all, a follower crashes and is started again.

Messages name no transaction. To say what becomes of a request, workers are numbered in the order
of their arrival, and a follower is watched (`Follower`): with which worker's operation it went to
`TPC_READY`, and which it has applied since the start. Neither is known to the program.

The cluster is the system of `Library.Transactions` (`Cluster.spec`): **`Cluster.Wf.step`** says that
every event is the event of that system. `Cluster.Sound` is what is wanted of it.
-/

namespace Cs162Hw.Kv

open Library
open Library.TwoPhase (Operations Participant Message Phase Reply Outcome Ledger Journalled System Transaction)
open Library.TwoPhase.Operations (apply)

/-! ## Followers -/

/-- A follower, watched. -/
structure Follower where
  /-- The follower. -/
  server : KvServer
  /-- The operation, and the worker it is from, with which it went to `TPC_READY`, if that is its state. -/
  owner : Option (ℕ × Update)
  /-- The operations it has applied, latest first. -/
  applied : List (ℕ × Update)

/-- A request that is a `PUT` or `DELETE`. -/
structure Write where
  /-- The request. -/
  req : KvRequest
  /-- What it asks for. -/
  op : Update
  asks : req.update? = some op

/-- The key of the request is that of the operation. -/
theorem Write.key_eq (w : Write) : w.req.key = some w.op.key := by
  obtain ⟨⟨type, key, val⟩, op, h⟩ := w
  rcases update?_eq_some h with ⟨key, value, hreq, hop⟩ | ⟨key, value, hreq, hop⟩ <;> simp_all [Update.key]

theorem Write.type_eq (w : Write) : w.req.type = .putReq ∨ w.req.type = .delReq := by
  obtain ⟨req, op, h⟩ := w
  rcases update?_eq_some h with ⟨key, value, hreq, -⟩ | ⟨key, value, hreq, -⟩ <;> simp [hreq]

section

variable [StrHash]

/-- The follower handles a request from the worker `t`. -/
def Follower.handle (t : ℕ) (req : KvRequest) (f : Follower) : Option KvResponse × Follower :=
  let (res, server) := f.server.handle req
  (res,
    { server := server
      owner :=
        if server.state ≠ .ready then none
        else if f.server.state = .ready then f.owner
        else req.update?.map fun u => (t, u)
      applied :=
        if req.type = .commit ∧ f.server.state = .ready ∧ server.state ≠ .ready then f.owner.toList ++ f.applied
        else f.applied })

/-- The participant a follower stands for. -/
def Follower.spec (f : Follower) : Ledger Update KvMap := ⟨⟨f.server.store.contents, f.applied⟩, f.owner⟩

/-- It stands for it. -/
def Follower.Wf (f : Follower) : Prop := Refines f.server f.spec.forget

theorem Follower.Wf.state_eq_ready_iff {f : Follower} (h : f.Wf) : f.server.state = .ready ↔ f.owner.isSome := by
  rw [Refines.state_eq_ready_iff h]
  simp [Ledger.forget, spec]

/-- What its handling a request makes of the participant is seen on its server's state before and after. -/
theorem Follower.spec_handle {f : Follower} (h : f.Wf) {t : ℕ} {req : KvRequest} {p : Ledger Update KvMap}
    (hnext : Refines (f.server.handle req).2 p.forget)
    (howner : p.pending = if p.pending = none then none else if f.owner.isSome then f.owner else req.update?.map fun u => (t, u))
    (happlied : p.data.applied = if req.type = .commit ∧ f.owner.isSome ∧ p.pending = none then f.owner.toList ++ f.applied
      else f.applied) :
    (f.handle t req).2.Wf ∧ (f.handle t req).2.spec = p := by
  have hstate : (f.server.handle req).2.state = .ready ↔ p.pending.isSome := by
    rw [hnext.state_eq_ready_iff]
    simp [Ledger.forget]
  have hleft : (f.server.handle req).2.state ≠ .ready ↔ p.pending = none :=
    (not_congr hstate).trans Option.not_isSome_iff_eq_none
  have howner' : (f.handle t req).2.owner = p.pending := by
    rw [howner]
    exact if_congr hleft rfl (if_congr h.state_eq_ready_iff rfl rfl)
  have happlied' : (f.handle t req).2.applied = p.data.applied := by
    rw [happlied]
    exact if_congr (and_congr_right' (and_congr h.state_eq_ready_iff hleft)) rfl rfl
  have hspec : (f.handle t req).2.spec = p := by
    obtain ⟨⟨data, applied⟩, pending⟩ := p
    rw [spec, howner', happlied']
    exact congrArg (fun m => (⟨⟨m, applied⟩, pending⟩ : Ledger Update KvMap)) hnext.contents
  refine ⟨?_, hspec⟩
  rw [Wf, hspec]
  exact hnext

/-- What is asked of a watched follower. -/
theorem Follower.prepare_spec {f : Follower} (h : f.Wf) (t : ℕ) {req : KvRequest} {u : Update} (hreq : req.update? = some u) :
    (f.handle t req).2.Wf ∧ (f.handle t req).2.spec = (f.spec.receive (.prepare (t, u))).2 := by
  obtain ⟨hnext, -⟩ := (server_simulates hreq).prepare h
  have hforget := TwoPhase.forget_receive (.prepare (t, u)) f.spec
  rw [show TwoPhase.Message.forget (.prepare (t, u)) = .prepare u from rfl] at hforget
  rw [hforget] at hnext
  have htype : req.type ≠ .commit := by
    rcases update?_eq_some hreq with ⟨key, value, rfl, -⟩ | ⟨key, value, rfl, -⟩ <;> simp
  refine f.spec_handle h hnext ?_ ?_
  · -- one that has an operation keeps it; another has this one, or none
    obtain ⟨server, _ | x, applied⟩ := f
    · simp only [spec, Participant.receive, hreq]
      split_ifs <;> simp_all
    · rfl
  · rw [if_neg fun h => htype h.1]
    exact congrArg Journalled.applied (TwoPhase.receive_prepare_data ..)

/-- A decision that reaches it. -/
theorem Follower.decide_spec {f : Follower} (h : f.Wf) (t : ℕ) (commit : Bool) :
    (f.handle t (resClient commit)).2.Wf ∧
      (f.handle t (resClient commit)).2.spec = (f.spec.receive (TwoPhase.decision commit)).2 := by
  obtain ⟨-, hnext⟩ := handle_decision_refines h commit (resClient_type commit)
  have hforget : accept (.tpc (TwoPhase.decision commit)) f.spec.forget =
      Ledger.forget (f.spec.receive (TwoPhase.decision commit)).2 := by
    have := congrArg Prod.snd (TwoPhase.forget_receive (TwoPhase.decision commit) f.spec)
    rwa [show TwoPhase.Message.forget (TwoPhase.decision commit : Message (ℕ × Update)) = TwoPhase.decision commit by
      cases commit <;> rfl] at this
  rw [hforget] at hnext
  refine f.spec_handle h hnext ?_ ?_
  · rw [TwoPhase.receive_decision_pending, if_pos rfl]
  · rw [TwoPhase.receive_decision_pending]
    obtain ⟨server, _ | x, applied⟩ := f
    · rw [TwoPhase.receive_decision_of_none commit rfl]
      simp [spec]
    · rw [TwoPhase.receive_decision_data commit rfl]
      cases commit <;> simp [resClient, spec, apply]

/-- A watched follower handles requests as its participant receives messages. -/
theorem follower_simulates (t : ℕ) {req : KvRequest} {u : Update} (hreq : req.update? = some u) :
    Simulates (fun req f => Follower.handle t req f) (fun f p => f.Wf ∧ f.spec = p) req (t, u) where
  prepare := fun {f p} ⟨h, hp⟩ => by
    subst hp
    obtain ⟨-, res, hres, hvote⟩ := (server_simulates hreq).prepare h
    refine ⟨f.prepare_spec h t hreq, res, hres, ?_⟩
    have hforget := congrArg Prod.fst (TwoPhase.forget_receive (.prepare (t, u)) f.spec)
    exact hvote.trans hforget
  decide := fun {f p} ⟨h, hp⟩ commit => by
    subst hp
    obtain ⟨hres, -⟩ := handle_decision_refines h commit (resClient_type commit)
    refine ⟨f.decide_spec h t commit, ⟨.ack, some .empty⟩, ?_, rfl⟩
    rw [show (f.handle t (resClient commit)).1 = (f.server.handle (resClient commit)).1 from rfl, hres]
    rfl

/-! ## The cluster -/

omit [StrHash] in
/-- A worker of the leader, in `tpcleader_handle_tpc`. -/
structure Worker where
  /-- The request it handles. -/
  write : Write
  /-- Where it stands. -/
  call : TpcCall

omit [StrHash] in
/-- The cluster. -/
structure Cluster where
  /-- The workers, in the order of their arrival, with those that have returned. -/
  workers : List Worker
  /-- The followers. -/
  net : Address → Follower
  /-- The requests that workers gave up on before a follower saw them: the worker, the follower, the request. -/
  late : List (ℕ × Address × KvRequest)

omit [StrHash] in
/-- What happens. -/
inductive ClusterEvent where
  /-- A client's request arrives, and a worker starts on it. -/
  | arrive (w : Write)
  /-- The worker `t` has its next exchange, which goes as `o` says. -/
  | exchange (t : ℕ) (o : Outcome)
  /-- A follower handles the request `i` of those that workers gave up on. -/
  | deliver (i : ℕ)
  /-- A follower crashes between two requests, and starts again. -/
  | restart (a : Address)

/-- The addresses of the replicas of a key. -/
def addresses (leader : TpcLeader) (key : CString) : List Address :=
  (leader.replicas key).map fun n => (leader.nodes n).address

theorem Full.addresses_length {leader : TpcLeader} (h : Full leader) (key : CString) :
    (addresses leader key).length = leader.redundancy := by
  rw [addresses, List.length_map, h.replicas_length]

namespace Cluster

variable (leader : TpcLeader)

/-- One event. -/
def step (c : Cluster) : ClusterEvent → Cluster
  | .arrive w => { c with workers := c.workers ++ [⟨w, TpcCall.start leader w.req⟩] }
  | .exchange t o =>
    match c.workers[t]? with
    | none => c
    | some worker =>
      match worker.call.asks worker.write.req with
      | none => c
      | some (pri, msg) =>
        let (call, net) := worker.call.exchange leader worker.write.req (Follower.handle t) o c.net
        { workers := c.workers.set t { worker with call := call }
          net := net
          late := if o = .requestLost then c.late ++ [(t, (leader.nodes pri).address, msg)] else c.late }
  | .deliver i =>
    match c.late[i]? with
    | none => c
    | some (t, a, msg) => { c with
        net := Function.update c.net a ((c.net a).handle t msg).2
        late := c.late.eraseIdx i }
  | .restart a => { c with net := Function.update c.net a { c.net a with server := (c.net a).server.restart } }

/-- A sequence of events. -/
def run (c : Cluster) (events : List ClusterEvent) : Cluster := events.foldl (step leader) c

/-- Every event of the sequence meets `P`, in the cluster it finds. -/
def Along (P : Cluster → ClusterEvent → Prop) : Cluster → List ClusterEvent → Prop
  | _, [] => True
  | c, e :: events => P c e ∧ Along P (c.step leader e) events

/-- Whether it does can be computed. -/
def decideAlong (P : Cluster → ClusterEvent → Prop) [∀ c e, Decidable (P c e)] (c : Cluster) :
    (events : List ClusterEvent) → Decidable (Along leader P c events)
  | [] => .isTrue trivial
  | e :: events =>
    have := decideAlong P (c.step leader e) events
    inferInstanceAs (Decidable (_ ∧ _))

instance (P : Cluster → ClusterEvent → Prop) [∀ c e, Decidable (P c e)] (c : Cluster) (events : List ClusterEvent) :
    Decidable (Along leader P c events) := decideAlong leader P c events

/-- What every event that meets `P` keeps holds after a sequence of such. -/
theorem Along.run {P : Cluster → ClusterEvent → Prop} {I : Cluster → Prop}
    (hstep : ∀ {c e}, I c → P c e → I (c.step leader e)) {c : Cluster} (h : I c) {events : List ClusterEvent}
    (halong : Along leader P c events) : I (c.run leader events) := by
  induction events generalizing c with
  | nil => exact h
  | cons e events ih => exact ih (hstep h halong.1) halong.2

theorem Along.and {P Q : Cluster → ClusterEvent → Prop} {c : Cluster} {events : List ClusterEvent}
    (hP : Along leader P c events) (hQ : Along leader Q c events) : Along leader (fun c e => P c e ∧ Q c e) c events := by
  induction events generalizing c with
  | nil => trivial
  | cons e events ih => exact ⟨⟨hP.1, hQ.1⟩, ih hP.2 hQ.2⟩

omit [StrHash] in
/-- Followers, and no request yet. -/
def start (servers : Address → KvServer) : Cluster := ⟨[], fun a => ⟨servers a, none, []⟩, []⟩

/-- What the cluster is to do: only operations decided to be committed are applied, at replicas of their
keys; one that was answered `SUCCESS` was applied exactly once at each; and the stores hold what was
applied. -/
structure Sound (m : Address → KvMap) (c : Cluster) : Prop where
  committed : ∀ a, ∀ x ∈ (c.net a).applied, ∃ worker, c.workers[x.1]? = some worker ∧ worker.write.op = x.2 ∧
    worker.call.decision = some true ∧ a ∈ addresses leader x.2.key
  complete : ∀ (t : ℕ) (worker : Worker), c.workers[t]? = some worker → ∀ res, worker.call = .returned res →
    res.type = .success → ∀ a ∈ addresses leader worker.write.op.key, (c.net a).applied.count (t, worker.write.op) = 1
  /-- A worker answers `SUCCESS`, or that it has aborted. -/
  answers : ∀ worker ∈ c.workers, worker.call ≠ .faulted ∧
    ∀ res, worker.call = .returned res → res = tpcResponse true ∨ res = tpcResponse false
  contents : ∀ a, (c.net a).server.store.contents = (c.net a).applied.foldr (fun x => apply x.2) (m a)

variable {leader} {m : Address → KvMap} {c : Cluster}

/-- What was answered `SUCCESS` has been applied at the replicas. -/
theorem Sound.applied_of_success (h : c.Sound leader m) (t : ℕ) (op : Update)
    (hworker : (c.workers.map fun worker => (worker.write.op, worker.call))[t]? = some (op, .returned (tpcResponse true)))
    (a : Address) (ha : a ∈ addresses leader op.key) : (t, op) ∈ (c.net a).applied := by
  rw [List.getElem?_map, Option.map_eq_some_iff] at hworker
  obtain ⟨worker, hself, hworker⟩ := hworker
  obtain ⟨rfl, hcall⟩ := Prod.mk.inj hworker
  rw [← List.count_pos_iff, h.complete t worker hself _ hcall rfl a ha]
  exact Nat.one_pos

/-- What was answered `ERROR` has been applied nowhere. -/
theorem Sound.not_applied_of_error (h : c.Sound leader m) (t : ℕ) (op : Update)
    (hworker : (c.workers.map fun worker => (worker.write.op, worker.call))[t]? = some (op, .returned (tpcResponse false)))
    (a : Address) : (t, op) ∉ (c.net a).applied := by
  intro hmem
  rw [List.getElem?_map, Option.map_eq_some_iff] at hworker
  obtain ⟨worker, hself, hworker⟩ := hworker
  obtain ⟨-, hcall⟩ := Prod.mk.inj hworker
  obtain ⟨worker', hself', -, hdecision, -⟩ := h.committed a _ hmem
  obtain rfl := Option.some.inj (hself.symm.trans hself')
  rw [hcall] at hdecision
  cases hdecision

end Cluster

/-! ## The abstract system -/

omit [StrHash] in
/-- The phase of the coordinator that stands where the handler stands. -/
def TpcCall.phase : TpcCall → Phase
  | .poll _ visitedNode isCommit => .voting visitedNode isCommit
  | .decide isCommit _ visitedNode isAllAcked => .deciding isCommit visitedNode isAllAcked
  | .returned res => .done (res.type = .success)
  | .faulted => .done false

omit [StrHash] in
theorem tpcResponse_type (isCommit : Bool) : decide ((tpcResponse isCommit).type = .success) = isCommit := by
  cases isCommit <;> rfl

theorem TpcCall.Stands.phase_eq {leader : TpcLeader} {key : CString} {call : TpcCall} {φ : Phase}
    (h : call.Stands leader key φ) : call.phase = φ := by
  cases h with
  | poll _ => rfl
  | decide _ => rfl
  | returned commit => exact congrArg Phase.done (tpcResponse_type commit)

omit [StrHash] in
/-- The message that a request of the worker `t` is. -/
def messageOf (t : ℕ) (req : KvRequest) : Message (ℕ × Update) :=
  match req.update? with
  | some u => .prepare (t, u)
  | none => if req.type = .commit then .commit else .abort

omit [StrHash] in
theorem messageOf_resClient (t : ℕ) (commit : Bool) : messageOf t (resClient commit) = TwoPhase.decision commit := by
  cases commit <;> rfl

/-- The transaction of a worker. -/
def Worker.spec (leader : TpcLeader) (worker : Worker) : Transaction Address Update :=
  ⟨addresses leader worker.write.op.key, worker.write.op, worker.call.phase⟩

/-- The system a cluster is. -/
def Cluster.spec (leader : TpcLeader) (c : Cluster) : System Address Update KvMap where
  transactions := c.workers.map (Worker.spec leader)
  net a := (c.net a).spec
  late := c.late.map fun x => (x.1, x.2.1, messageOf x.1 x.2.2)

/-- The event of that system; a restart is none. -/
def ClusterEvent.spec (leader : TpcLeader) : ClusterEvent → Option (TwoPhase.Event Address Update)
  | .arrive w => some (.start (addresses leader w.op.key) w.op)
  | .exchange t o => some (.exchange t o)
  | .deliver i => some (.deliver i)
  | .restart _ => none

/-- What holds of a cluster at any time. -/
structure Cluster.Wf (leader : TpcLeader) (c : Cluster) : Prop where
  /-- Every worker stands where a coordinator can stand. -/
  stands : ∀ worker ∈ c.workers, worker.call.Stands leader worker.write.op.key worker.call.phase
  /-- Every follower stands for its participant. -/
  followers : ∀ a, (c.net a).Wf
  /-- A request that was given up on is a `PUT` or `DELETE`, or a decision. -/
  late : ∀ x ∈ c.late, (∃ u, x.2.2.update? = some u) ∨ ∃ commit, x.2.2 = resClient commit

/-- The worker's next request is its transaction's next message. -/
theorem TpcCall.Stands.next {leader : TpcLeader} {t : ℕ} {worker : Worker}
    (h : worker.call.Stands leader worker.write.op.key worker.call.phase) :
    (worker.spec leader).next t = (worker.call.asks worker.write.req).map fun x =>
        ((leader.nodes x.1).address, messageOf t x.2) := by
  obtain ⟨w, call⟩ := worker
  simp only [Transaction.next, Worker.spec] at h ⊢
  cases call with
  | poll pri i ok =>
    cases h with
    | poll hpri => simp [TpcCall.phase, Phase.index, Phase.message, TpcCall.asks, addresses, hpri, messageOf, w.asks]
  | decide commit pri i acked =>
    cases h with
    | decide hpri =>
      simp [TpcCall.phase, Phase.index, Phase.message, TpcCall.asks, addresses, hpri, messageOf_resClient]
  | returned res => rfl
  | faulted => rfl

/-- Where that is. -/
theorem TpcCall.Stands.asks_eq_some {leader : TpcLeader} {t : ℕ} {worker : Worker}
    (h : worker.call.Stands leader worker.write.op.key worker.call.phase) {pri : ℕ} {msg : KvRequest}
    (hasks : worker.call.asks worker.write.req = some (pri, msg)) :
    ∃ i, worker.call.phase.index = some i ∧ (leader.replicas worker.write.op.key)[i]? = some pri ∧
      worker.call.phase.message (t, worker.write.op) = some (messageOf t msg) := by
  obtain ⟨w, call⟩ := worker
  cases call with
  | poll n i ok =>
    cases h with
    | poll hpri =>
      obtain ⟨rfl, rfl⟩ := Prod.mk.inj (Option.some.inj hasks)
      exact ⟨i, rfl, hpri, by simp only [TpcCall.phase, Phase.message, messageOf, w.asks]⟩
  | decide commit n i acked =>
    cases h with
    | decide hpri =>
      obtain ⟨rfl, rfl⟩ := Prod.mk.inj (Option.some.inj hasks)
      exact ⟨i, rfl, hpri, by simp only [TpcCall.phase, Phase.message, messageOf_resClient]⟩
  | returned res => cases hasks
  | faulted => cases hasks

omit [StrHash] in
/-- It is the client's request or a decision. -/
theorem TpcCall.asks_cases {call : TpcCall} {req msg : KvRequest} {pri : ℕ} (h : call.asks req = some (pri, msg)) :
    msg = req ∨ ∃ commit, msg = resClient commit := by
  cases call with
  | poll _ _ _ => exact Or.inl (Prod.mk.inj (Option.some.inj h)).2.symm
  | decide commit _ _ _ => exact Or.inr ⟨commit, (Prod.mk.inj (Option.some.inj h)).2.symm⟩
  | returned _ => cases h
  | faulted => cases h

section Simulation

variable {leader : TpcLeader} {c : Cluster}

/-- A request that was given up on and is handled after all. -/
theorem Cluster.Wf.deliver (h : c.Wf leader) {i t : ℕ} {a : Address} {msg : KvRequest} (hi : c.late[i]? = some (t, a, msg)) :
    ((c.net a).handle t msg).2.Wf ∧
      ((c.net a).handle t msg).2.spec = ((c.net a).spec.receive (messageOf t msg)).2 := by
  rcases h.late _ (List.mem_of_getElem? hi) with ⟨u, hu⟩ | ⟨commit, hmsg⟩
  · have hm : messageOf t msg = .prepare (t, u) := by simp only [messageOf, show msg.update? = some u from hu]
    rw [hm]
    exact (c.net a).prepare_spec (h.followers a) t hu
  · obtain rfl : msg = resClient commit := hmsg
    rw [messageOf_resClient]
    exact (c.net a).decide_spec (h.followers a) t commit

/-- An exchange of a worker. -/
theorem Cluster.Wf.exchange (hfull : Full leader) (h : c.Wf leader) (t : ℕ) (o : Outcome) :
    (c.step leader (.exchange t o)).Wf leader ∧
      (c.step leader (.exchange t o)).spec leader = (c.spec leader).step (.exchange t o) := by
  simp only [Cluster.step, System.step]
  have htrans : (c.spec leader).transactions[t]? = (c.workers[t]?).map (Worker.spec leader) := List.getElem?_map ..
  rw [htrans]
  cases hworker : c.workers[t]? with
  | none => exact ⟨h, rfl⟩
  | some worker =>
    have hstands := h.stands worker (List.mem_of_getElem? hworker)
    simp only [Option.map_some, hstands.next]
    cases hasks : worker.call.asks worker.write.req with
    | none => exact ⟨h, rfl⟩
    | some x =>
      obtain ⟨pri, msg⟩ := x
      obtain ⟨i, hi, hpri, hm⟩ := hstands.asks_eq_some (t := t) hasks
      obtain ⟨hcall, hnet⟩ := TpcCall.exchange_simulates hfull worker.write.key_eq (follower_simulates t worker.write.asks)
        hstands (fun a => ⟨h.followers a, rfl⟩) hi hpri hm o
      refine ⟨⟨fun v hv => ?_, fun a => (hnet a).1, fun x hx => ?_⟩, ?_⟩
      · rcases List.mem_or_eq_of_mem_set hv with hv | rfl
        · exact h.stands v hv
        · simp only [hcall.phase_eq]
          exact hcall
      · simp only at hx
        split_ifs at hx
        · rcases List.mem_append.mp hx with hx | hx
          · exact h.late x hx
          · rw [List.mem_singleton.mp hx]
            exact (TpcCall.asks_cases hasks).imp (fun heq => ⟨_, heq ▸ worker.write.asks⟩) id
        · exact h.late x hx
      · have hspec : (fun a => ((worker.call.exchange leader worker.write.req (Follower.handle t) o c.net).2 a).spec) =
            TwoPhase.deliver o (messageOf t msg) (leader.nodes pri).address (c.spec leader).net :=
          funext fun a => (hnet a).2
        simp only [Cluster.spec, System.send, Option.map_some, List.map_set, Worker.spec, hcall.phase_eq, hspec,
          hfull.addresses_length]
        split_ifs
        · rw [List.map_append]
          rfl
        · rfl

/-- **A cluster is a system of transactions**: every event is the event of that system, and a restart
none. -/
theorem Cluster.Wf.step (hfull : Full leader) (h : c.Wf leader) (e : ClusterEvent) :
    (c.step leader e).Wf leader ∧ (c.step leader e).spec leader =
      match e.spec leader with
      | none => c.spec leader
      | some e => (c.spec leader).step e := by
  cases e with
  | arrive w =>
    have hstart := TpcCall.start_stands hfull w.key_eq w.type_eq
    refine ⟨⟨fun v hv => ?_, h.followers, h.late⟩, ?_⟩
    · rcases List.mem_append.mp hv with hv | hv
      · exact h.stands v hv
      · obtain rfl := List.mem_singleton.mp hv
        simp only [hstart.phase_eq]
        exact hstart
    · simp only [Cluster.step, Cluster.spec, ClusterEvent.spec, System.step, List.map_append, List.map_cons, List.map_nil,
        Worker.spec, hstart.phase_eq, hfull.addresses_length]
  | exchange t o => exact h.exchange hfull t o
  | deliver i =>
    have hlate : (c.spec leader).late[i]? = (c.late[i]?).map fun x => (x.1, x.2.1, messageOf x.1 x.2.2) := List.getElem?_map ..
    simp only [Cluster.step, ClusterEvent.spec, System.step, hlate]
    cases hi : c.late[i]? with
    | none => exact ⟨h, rfl⟩
    | some x =>
      obtain ⟨t, a, msg⟩ := x
      obtain ⟨hwf, hspec⟩ := h.deliver hi
      refine ⟨⟨h.stands, fun b => ?_, fun x hx => h.late x (List.mem_of_mem_eraseIdx hx)⟩, ?_⟩
      · simp only [Function.update_apply]
        split_ifs
        · exact hwf
        · exact h.followers b
      · have hnet : (fun b => (Function.update c.net a ((c.net a).handle t msg).2 b).spec) =
            Function.update (c.spec leader).net a ((c.net a).spec.receive (messageOf t msg)).2 := by
          funext b
          simp only [Function.update_apply]
          split_ifs
          · exact hspec
          · rfl
        simp only [Cluster.spec, Option.map_some, hnet, List.eraseIdx_map]
  | restart a =>
    have hrestart : Follower.Wf { c.net a with server := (c.net a).server.restart } ∧
        Follower.spec { c.net a with server := (c.net a).server.restart } = (c.net a).spec := by
      have hnext := restart_refines (h.followers a)
      have hspec : Follower.spec { c.net a with server := (c.net a).server.restart } = (c.net a).spec :=
        congrArg (fun m => (⟨⟨m, (c.net a).applied⟩, (c.net a).owner⟩ : Ledger Update KvMap)) hnext.contents
      exact ⟨by rw [Follower.Wf, hspec]; exact hnext, hspec⟩
    refine ⟨⟨h.stands, fun b => ?_, h.late⟩, ?_⟩
    · simp only [Cluster.step, Function.update_apply]
      split_ifs with hb
      · exact hrestart.1
      · exact h.followers b
    · have hnet : (fun b => (Function.update c.net a { c.net a with server := (c.net a).server.restart } b).spec) =
          fun b => (c.net b).spec := by
        funext b
        simp only [Function.update_apply]
        split_ifs with hb
        · rw [hb]
          exact hrestart.2
        · rfl
      simp only [Cluster.step, ClusterEvent.spec, Cluster.spec, hnet]

/-- Quiescent followers, and no request yet. -/
theorem Cluster.wf_start {servers : Address → KvServer} {m : Address → KvMap} (h : ∀ a, Quiescent (servers a) (m a)) :
    (Cluster.start servers).Wf leader ∧ (Cluster.start servers).spec leader = System.init m := by
  have hspec : ∀ a, ((Cluster.start servers).net a).spec = ⟨⟨m a, []⟩, none⟩ := fun a =>
    congrArg (fun m => (⟨⟨m, []⟩, none⟩ : Ledger Update KvMap)) (h a).contents
  refine ⟨⟨by simp [Cluster.start], fun a => ?_, by simp [Cluster.start]⟩, ?_⟩
  · rw [Follower.Wf, hspec a]
    exact h a
  · simp only [Cluster.spec, hspec]
    rfl

omit [StrHash] in
theorem TpcCall.decision_of_decided {call : TpcCall} (h : call.phase.decided = some true) : call.decision = some true := by
  cases call with
  | poll _ _ _ => cases h
  | decide _ _ _ _ => exact h
  | returned _ => exact h
  | faulted => cases h

/-- A cluster does what it is to do if its system is sound. -/
theorem Cluster.Wf.sound (h : c.Wf leader) {m : Address → KvMap} (hsound : (c.spec leader).Sound)
    (htied : ∀ a, TwoPhase.Tied (m a) ((c.spec leader).net a)) : c.Sound leader m := by
  have hget : ∀ {t : ℕ} {T : Transaction Address Update}, (c.spec leader).transactions[t]? = some T →
      ∃ worker, c.workers[t]? = some worker ∧ worker.spec leader = T := by
    intro t T hT
    rwa [Cluster.spec, List.getElem?_map, Option.map_eq_some_iff] at hT
  refine ⟨fun a x hx => ?_, fun t worker hworker res hres hsuccess a ha => ?_, fun worker hworker => ?_, htied⟩
  · obtain ⟨T, hT, hop, hdecided, ha⟩ := hsound.committed a x hx
    obtain ⟨worker, hworker, rfl⟩ := hget hT
    exact ⟨worker, hworker, hop, TpcCall.decision_of_decided hdecided, hop ▸ ha⟩
  · refine hsound.complete t (worker.spec leader) ?_ ?_ a ha
    · rw [Cluster.spec, List.getElem?_map, hworker]
      rfl
    · simp [Worker.spec, hres, TpcCall.phase, hsuccess]
  · have hstands := h.stands worker hworker
    generalize worker.call.phase = φ at hstands
    cases hcall : worker.call <;> rw [hcall] at hstands <;> cases hstands
    · exact ⟨by simp, by simp⟩
    · exact ⟨by simp, by simp⟩
    · next commit =>
      refine ⟨by simp, fun res hres => ?_⟩
      obtain rfl := TpcCall.returned.inj hres
      cases commit
      · exact Or.inr rfl
      · exact Or.inl rfl

/-- The stores go on holding what was applied. -/
theorem Cluster.Wf.tied (hfull : Full leader) (h : c.Wf leader) {m : Address → KvMap}
    (htied : ∀ a, TwoPhase.Tied (m a) ((c.spec leader).net a)) (e : ClusterEvent) :
    ∀ a, TwoPhase.Tied (m a) (((c.step leader e).spec leader).net a) := by
  rw [(h.step hfull e).2]
  split
  · exact htied
  · exact System.tied_step htied _

end Simulation

end

/-! ## A small cluster -/

section

attribute [local instance] md5Sample

/-- A follower's directory is empty. -/
def newServer : KvServer := KvServer.start ⟨.empty⟩

theorem quiescent_newServer : Quiescent newServer (KvStore.contents ⟨.empty⟩) := start_refines KvStore.chained_empty

/-- `PUT a v`. -/
def writeA (v : String) : Write := ⟨putA v, .put (.ofString "a") (.ofString v), rfl⟩

end

end Cs162Hw.Kv
