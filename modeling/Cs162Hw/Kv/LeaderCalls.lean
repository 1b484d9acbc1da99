import Cs162Hw.Kv.Leader
import Cs162Hw.Kv.Participant

/-!
# The leader's handlers

`tpcleader_handle_tpc` and `tpcleader_handle_get`, `hw4/src/tpcleader.c`. Both go from follower
to follower and have one exchange with each: connect, send a request, wait for the response.
A handler is what it does between two exchanges: it stands at its next exchange, and
`TpcCall.resume`, `GetCall.resume` say where it stands after it, whatever has come back. The
waiting (`sleep(1)`) is left out, and the request is not `NULL`, as `tpcleader_handle` has looked at
it.

`exchange` is one exchange with a follower. How it goes is an `Outcome`: no connection, the request
lost, the response lost, or answered; when the receive times out, the leader has no response.

* `TpcCall.Stands`: the handler stands where the coordinator of two-phase commit
  (`Library.TwoPhase`) stands. `TpcCall.start_stands` and `TpcCall.resume_stands`.
* **`TpcCall.exchange_simulates`**: an exchange of the handler with followers that stand for
  participants is an exchange of the coordinator with these.
-/

namespace Cs162Hw.Kv

open Library
open Library.TwoPhase (Operations Participant Message Phase Reply Outcome)

variable [StrHash]

/-- `tpcleader_get_primary(leader, req->key)`; the process dies on a `NULL` key. -/
def primaryOf (leader : TpcLeader) (req : KvRequest) : Option (Option ℕ) :=
  match req.key with
  | none => none
  | some key => tpcleaderGetPrimary leader key

/-! ## `tpcleader_handle_tpc` -/

/-- Where `tpcleader_handle_tpc` stands. -/
inductive TpcCall where
  /-- In its first loop, before the exchange with `pri`. -/
  | poll (pri visitedNode : ℕ) (isCommit : Bool)
  /-- In its second loop, before the exchange with `pri`. -/
  | decide (isCommit : Bool) (pri visitedNode : ℕ) (isAllAcked : Bool)
  /-- It has returned. -/
  | returned (res : KvResponse)
  /-- The process has died. -/
  | faulted
  deriving DecidableEq

omit [StrHash] in
/-- What it answers, once the votes are in. -/
def tpcResponse (isCommit : Bool) : KvResponse :=
  if isCommit then ⟨.success, none⟩ else ⟨.error, some (.ofString "abort the command")⟩

omit [StrHash] in
/-- `res_client`. -/
def resClient (isCommit : Bool) : KvRequest := ⟨if isCommit then .commit else .abort, none, none⟩

omit [StrHash] in
theorem resClient_type (isCommit : Bool) : (resClient isCommit).type = if isCommit then .commit else .abort := rfl

omit [StrHash] in
/-- A vote to commit. -/
def KvResponse.isCommit (res : KvResponse) : Bool := res.body = some msgCommit

omit [StrHash] in
/-- An acknowledgement. -/
def KvResponse.isAck (res : KvResponse) : Bool := res.type = .ack

namespace TpcCall

/-- A pass of the second loop begins. -/
def pass (leader : TpcLeader) (req : KvRequest) (isCommit : Bool) : TpcCall :=
  match primaryOf leader req with
  | none => .faulted
  | some none => .returned (tpcResponse isCommit)
  | some (some pri) =>
    if 0 < leader.redundancy then .decide isCommit pri 0 true else .returned (tpcResponse isCommit)

/-- The test of the first loop. -/
def pollFrom (leader : TpcLeader) (req : KvRequest) (pri visitedNode : ℕ) (isCommit : Bool) : TpcCall :=
  if visitedNode < leader.redundancy then .poll pri visitedNode isCommit else pass leader req isCommit

/-- The test of the inner loop of the second, and of the outer. -/
def decideFrom (leader : TpcLeader) (req : KvRequest) (isCommit : Bool) (pri visitedNode : ℕ) (isAllAcked : Bool) :
    TpcCall :=
  if visitedNode < leader.redundancy then .decide isCommit pri visitedNode isAllAcked
  else if isAllAcked then .returned (tpcResponse isCommit)
  else pass leader req isCommit

/-- From the call to the first exchange. -/
def start (leader : TpcLeader) (req : KvRequest) : TpcCall :=
  if leader.followerCount ≠ leader.followerCapacity then .returned ⟨.error, some errmsgNotAtCapacity⟩
  else if req.type = .putReq ∨ req.type = .delReq then
    match primaryOf leader req with
    | none => .faulted
    | some none => pass leader req true
    | some (some pri) => pollFrom leader req pri 0 true
  else .returned ⟨.error, some (.ofString "unknown message type")⟩

omit [StrHash] in
/-- The node its next exchange is with, and what it sends there. -/
def asks (req : KvRequest) : TpcCall → Option (ℕ × KvRequest)
  | .poll pri _ _ => some (pri, req)
  | .decide isCommit pri _ _ => some (pri, resClient isCommit)
  | _ => none

/-- From one exchange to the next. A follower that cannot be reached breaks off a pass of the second
loop, and there is another. -/
def resume (leader : TpcLeader) (req : KvRequest) : TpcCall → Reply KvResponse → TpcCall
  | .poll pri visitedNode isCommit, reply =>
    pollFrom leader req (tpcleaderGetSuccessor leader pri) (visitedNode + 1)
      (isCommit && (reply.map KvResponse.isCommit).yes)
  | .decide isCommit _ _ _, .refused => pass leader req isCommit
  | .decide isCommit pri visitedNode isAllAcked, reply =>
    decideFrom leader req isCommit (tpcleaderGetSuccessor leader pri) (visitedNode + 1)
      (isAllAcked && (reply.map KvResponse.isAck).yes)
  | call, _ => call

omit [StrHash] in
/-- The decision, once there is one. -/
def decision : TpcCall → Option Bool
  | .decide isCommit _ _ _ => some isCommit
  | .returned res => some (res.type = .success)
  | _ => none

end TpcCall

/-! ## `tpcleader_handle_get` -/

/-- Where `tpcleader_handle_get` stands. -/
inductive GetCall where
  /-- Before the exchange with `pri`. -/
  | ask (pri visitedNode : ℕ)
  /-- It has returned. -/
  | returned (res : KvResponse)
  /-- The process has died. -/
  | faulted
  deriving DecidableEq

namespace GetCall

omit [StrHash] in
/-- The test of the loop. -/
def askFrom (leader : TpcLeader) (pri visitedNode : ℕ) : GetCall :=
  if visitedNode < leader.redundancy then .ask pri visitedNode else .returned ⟨.error, some errmsgNoKey⟩

/-- From the call to the first exchange. -/
def start (leader : TpcLeader) (req : KvRequest) : GetCall :=
  match primaryOf leader req with
  | none => .faulted
  | some none => .returned ⟨.error, some errmsgNoKey⟩
  | some (some pri) => askFrom leader pri 0

omit [StrHash] in
/-- The node its next exchange is with. -/
def asks : GetCall → Option ℕ
  | .ask pri _ => some pri
  | _ => none

omit [StrHash] in
/-- From one exchange to the next. A follower that cannot be reached is tried again; where there is no response,
the `NULL` is followed. -/
def resume (leader : TpcLeader) : GetCall → Reply KvResponse → GetCall
  | .ask pri visitedNode, .refused => .ask pri visitedNode
  | .ask _ _, .silent => .faulted
  | .ask pri visitedNode, .answered res =>
    if res.type = .getResp then .returned ⟨.getResp, res.body⟩
    else askFrom leader (tpcleaderGetSuccessor leader pri) (visitedNode + 1)
  | call, _ => call

end GetCall

/-! ## Exchanges -/

section Exchange

variable {S : Type}

omit [StrHash] in
/-- An exchange with the follower at `a`, which does with the request what `handle` says: what the leader
sees of it, and the followers after it. A process that has died does not answer. -/
def exchange (handle : S → Option KvResponse × S) (o : Outcome) (a : Address) (net : Address → S) :
    Reply KvResponse × (Address → S) :=
  let (res, s) := handle (net a)
  (match res.bind KvResponse.received with
    | some res => o.reply res
    | none => if o = .refused then .refused else .silent,
    if o.processed then Function.update net a s else net)

/-- The next exchange of `tpcleader_handle_tpc`. -/
def TpcCall.exchange (leader : TpcLeader) (req : KvRequest) (handle : KvRequest → S → Option KvResponse × S) (o : Outcome)
    (call : TpcCall) (net : Address → S) : TpcCall × (Address → S) :=
  match call.asks req with
  | none => (call, net)
  | some (pri, msg) =>
    let (reply, net) := Kv.exchange (handle msg) o (leader.nodes pri).address net
    (call.resume leader req reply, net)

/-- The next exchange of `tpcleader_handle_get`. -/
def GetCall.exchange (leader : TpcLeader) (req : KvRequest) (handle : KvRequest → S → Option KvResponse × S) (o : Outcome)
    (call : GetCall) (net : Address → S) : GetCall × (Address → S) :=
  match call.asks with
  | none => (call, net)
  | some pri =>
    let (reply, net) := Kv.exchange (handle req) o (leader.nodes pri).address net
    (call.resume leader reply, net)

end Exchange

/-! ## The handler is a coordinator -/

/-- The handler stands where the coordinator does. -/
inductive TpcCall.Stands (leader : TpcLeader) (key : CString) : TpcCall → Phase → Prop where
  | poll {pri i : ℕ} {ok : Bool} : (leader.replicas key)[i]? = some pri → Stands leader key (.poll pri i ok) (.voting i ok)
  | decide {commit : Bool} {pri i : ℕ} {acked : Bool} : (leader.replicas key)[i]? = some pri →
    Stands leader key (.decide commit pri i acked) (.deciding commit i acked)
  | returned (commit : Bool) : Stands leader key (.returned (tpcResponse commit)) (.done commit)

omit [StrHash] in
/-- What it takes a response for. -/
def TpcCall.reads : TpcCall → KvResponse → Bool
  | .poll _ _ _ => KvResponse.isCommit
  | _ => KvResponse.isAck

section Stands

variable {leader : TpcLeader} (h : Full leader) {req : KvRequest} {key : CString} (hkey : req.key = some key)
include h hkey

theorem TpcCall.pass_stands (isCommit : Bool) : (pass leader req isCommit).Stands leader key (.deciding isCommit 0 true) := by
  obtain ⟨pri, hpri, -⟩ := h.primary key
  simp only [pass, primaryOf, hkey, hpri, if_pos (show 0 < leader.redundancy from h.redundancy)]
  exact .decide (h.replicas_zero hpri)

theorem TpcCall.pollFrom_stands {pri i : ℕ} (hi : i < leader.redundancy → (leader.replicas key)[i]? = some pri) (ok : Bool) :
    (pollFrom leader req pri i ok).Stands leader key (.afterVotes leader.redundancy i ok) := by
  unfold pollFrom Phase.afterVotes
  split_ifs with hlt hpos
  · exact .poll (hi hlt)
  · exact pass_stands h hkey ok
  · exact absurd h.redundancy hpos

theorem TpcCall.start_stands (htype : req.type = .putReq ∨ req.type = .delReq) :
    (start leader req).Stands leader key (.afterVotes leader.redundancy 0 true) := by
  obtain ⟨pri, hpri, -⟩ := h.primary key
  simp only [start, if_neg (not_not.mpr h.count), if_pos htype, primaryOf, hkey, hpri]
  exact pollFrom_stands h hkey (fun _ => h.replicas_zero hpri) true

/-- They go on side by side. -/
theorem TpcCall.resume_stands {call : TpcCall} {φ : Phase} (hs : call.Stands leader key φ) (reply : Reply KvResponse) :
    (call.resume leader req reply).Stands leader key (φ.resume leader.redundancy (reply.map call.reads)) := by
  cases hs with
  | poll hpri => exact pollFrom_stands h hkey (h.replicas_succ hpri) _
  | @decide commit pri i acked hpri =>
    have hnext : ∀ acked', (decideFrom leader req commit (tpcleaderGetSuccessor leader pri) (i + 1) acked').Stands leader key
        (.afterAcks leader.redundancy commit (i + 1) acked') := by
      intro acked'
      unfold decideFrom Phase.afterAcks
      split_ifs with hlt hacked
      · exact .decide (h.replicas_succ hpri hlt)
      · exact .returned commit
      · exact pass_stands h hkey commit
    cases reply with
    | refused => exact pass_stands h hkey commit
    | silent => exact hnext _
    | answered res => exact hnext _
  | returned commit => exact .returned commit

end Stands

/-! ## Followers that stand for participants -/

variable {S Op σ : Type} [Operations Op σ]

omit [StrHash] in
/-- Followers `S`, that do with requests what `handle` says, stand for participants by the relation `R`, as far as
the request `req` for the operation `op` and its decisions go. -/
structure Simulates (handle : KvRequest → S → Option KvResponse × S) (R : S → Participant Op σ → Prop) (req : KvRequest)
    (op : Op) : Prop where
  prepare : ∀ {s p}, R s p → R (handle req s).2 (p.receive (.prepare op)).2 ∧
    ∃ res, (handle req s).1.bind KvResponse.received = some res ∧ res.isCommit = (p.receive (.prepare op)).1
  decide : ∀ {s p}, R s p → ∀ commit, R (handle (resClient commit) s).2 (p.receive (TwoPhase.decision commit)).2 ∧
    ∃ res, (handle (resClient commit) s).1.bind KvResponse.received = some res ∧ res.isAck = true

omit [StrHash] in
/-- What is answered to a `PUT` or `DELETE` arrives, and is read as the vote. -/
theorem received_respond (u : Update) (p : MapParticipant) :
    ∃ res, (respond (.tpc (.prepare u)) p).received = some res ∧ res.isCommit = (p.receive (.prepare u)).1 := by
  have htype : 0 ≤ httpCodeForResponseType (respond (.tpc (.prepare u)) p).type := by
    simp only [respond]
    split <;> simp [httpCodeForResponseType]
  obtain ⟨body, hbody⟩ : ∃ body, (respond (.tpc (.prepare u)) p).body = some body := by
    simp only [respond]
    split <;> exact ⟨_, rfl⟩
  refine ⟨_, KvResponse.received_eq htype, ?_⟩
  rw [Bool.eq_iff_iff, ← respond_prepare_body, hbody]
  simp [KvResponse.isCommit]

/-- Followers that stand for participants handle requests as these receive messages. -/
theorem server_simulates {req : KvRequest} {u : Update} (hreq : req.update? = some u) :
    Simulates (fun req server => KvServer.handle server req) Refines req u where
  prepare := fun {server p} h => by
    obtain ⟨hres, hnext⟩ := handle_prepare_refines h hreq
    refine ⟨hnext, ?_⟩
    rw [hres]
    exact received_respond u p
  decide := fun {server p} h commit => by
    obtain ⟨hres, hnext⟩ := handle_decision_refines h commit (resClient_type commit)
    exact ⟨hnext, ⟨.ack, some .empty⟩, by rw [hres]; rfl, rfl⟩

omit [StrHash] in
/-- An exchange whose request is answered. -/
theorem exchange_eq {handle : S → Option KvResponse × S} {a : Address} {net : Address → S} {res : KvResponse}
    (hres : (handle (net a)).1.bind KvResponse.received = some res) (o : Outcome) :
    exchange handle o a net =
      (o.reply res, if o.processed then Function.update net a (handle (net a)).2 else net) := by
  simp only [exchange, hres]

omit [StrHash] [Operations Op σ] in
/-- Followers go on standing for their participants if the one that was spoken to does. -/
theorem forall_update {R : S → Participant Op σ → Prop} {net : Address → S} {spec : Address → Participant Op σ}
    (hR : ∀ a, R (net a) (spec a)) {a : Address} {s : S} {p : Participant Op σ} (hs : R s p) (b : Address) :
    R (Function.update net a s b) (Function.update spec a p b) := by
  simp only [Function.update_apply]
  split_ifs
  · exact hs
  · exact hR b

/-- **An exchange of the handler is one of the coordinator.** -/
theorem TpcCall.exchange_simulates {leader : TpcLeader} (h : Full leader) {req : KvRequest} {key : CString}
    (hkey : req.key = some key) {handle : KvRequest → S → Option KvResponse × S} {R : S → Participant Op σ → Prop} {op : Op}
    (hsim : Simulates handle R req op) {call : TpcCall} {φ : Phase} (hs : call.Stands leader key φ)
    {net : Address → S} {spec : Address → Participant Op σ} (hR : ∀ a, R (net a) (spec a)) {i : ℕ} (hi : φ.index = some i)
    {n : ℕ} (hn : (leader.replicas key)[i]? = some n) {m : Message Op} (hm : φ.message op = some m) (o : Outcome) :
    let a := (leader.nodes n).address
    ((call.exchange leader req handle o net).1).Stands leader key
        (φ.resume leader.redundancy (o.reply ((spec a).receive m).1)) ∧
      ∀ b, R ((call.exchange leader req handle o net).2 b) (TwoPhase.deliver o m a spec b) := by
  intro a
  have hrun : ∀ {msg : KvRequest} {res : KvResponse}, call.asks req = some (n, msg) →
      (handle msg (net a)).1.bind KvResponse.received = some res → call.reads res = ((spec a).receive m).1 →
      R (handle msg (net a)).2 ((spec a).receive m).2 →
      (call.exchange leader req handle o net).1.Stands leader key (φ.resume leader.redundancy (o.reply ((spec a).receive m).1)) ∧
        ∀ b, R ((call.exchange leader req handle o net).2 b) (TwoPhase.deliver o m a spec b) := by
    intro msg res hasks hres hreads hnext
    have heq : Kv.exchange (handle msg) o (leader.nodes n).address net = _ := exchange_eq hres o
    simp only [TpcCall.exchange, hasks, heq]
    refine ⟨?_, fun b => ?_⟩
    · have := TpcCall.resume_stands h hkey hs (o.reply res)
      rwa [Outcome.map_reply, hreads] at this
    · unfold TwoPhase.deliver
      split_ifs
      · exact forall_update hR hnext b
      · exact hR b
  cases hs with
  | @poll pri j ok hpri =>
    obtain rfl : j = i := Option.some.inj hi
    obtain rfl : pri = n := Option.some.inj (hpri.symm.trans hn)
    obtain rfl : Message.prepare op = m := Option.some.inj hm
    obtain ⟨hnext, res, hres, hvote⟩ := hsim.prepare (hR a)
    exact hrun rfl hres hvote hnext
  | @decide commit pri j acked hpri =>
    obtain rfl : j = i := Option.some.inj hi
    obtain rfl : pri = n := Option.some.inj (hpri.symm.trans hn)
    obtain rfl : TwoPhase.decision commit = m := Option.some.inj hm
    obtain ⟨hnext, res, hres, hack⟩ := hsim.decide (hR a) commit
    exact hrun rfl hres (hack.trans (TwoPhase.receive_decision_fst ..).symm) hnext
  | returned commit => cases hi

end Cs162Hw.Kv
