import Cs162Hw.Kv.OverWire
import Cs162Hw.Kv.Prefixes

/-!
# The leader's handlers when messages arrive in part

The exchanges of `tpcleader_handle_tpc` and `tpcleader_handle_get` over the wire once more, when the single `read` at
either end returns no more than a part of what was sent.

* `TpcCall.cutWire_eq`: for `tpcleader_handle_tpc` such an exchange is one in which the request was lost, or the
  response, or nothing. **`cut_atomic`** — so the commitment stays atomic: a part of a `COMMIT` is none, and a part of
  a vote is no vote.
* **`cut_get`** — for `tpcleader_handle_get` it is not. A follower that has read a part of the request answers `ERROR`, which
  is taken for its not having the key; the beginning of a value is taken for the value; and the leader dies of a reply
  whose head is not complete.
-/

namespace Cs162Hw.Kv

open Library
open Library.TwoPhase (Operations Outcome Phase Reply Atomic)
open Library.TwoPhase.Operations (apply)

section

variable [StrHash]

/-! ## Exchanges -/

omit [StrHash] in
/-- Is there room in the array of `url_encode` for what `kvrequest_send` prints into it? -/
def KvRequest.Encodes (req : KvRequest) : Prop :=
  (urlEncodeBuf ⟨pathForRequestType req.type, req.key, req.val⟩).written ≤ urlBufSize

omit [StrHash] in
instance (req : KvRequest) : Decidable req.Encodes := inferInstanceAs (Decidable (_ ≤ _))

omit [StrHash] in
/-- What `kvresponse_recieve` makes of the first `m` bytes of what was written; nothing of what was not. -/
def readReply (m : ℕ) : List Written → Parse KvResponse
  | [.message msg] => kvresponseRecieve (msg.take m)
  | _ => .reject

/-- An exchange in which `kvserver_handle` reads the first `n` bytes of the request, and `kvresponse_recieve` the first `m`
of the reply. -/
def cutWire (n m : ℕ) (req : KvRequest) (server : KvServer) : Parse KvResponse × KvServer :=
  if req.Encodes then
    let served := kvserverHandle server (((kvrequestSend req).getD []).take n)
    (readReply m served.written, served.server)
  else (.fault, server)

/-- The next exchange of `tpcleader_handle_tpc`. -/
def TpcCall.cutWire (leader : TpcLeader) (req : KvRequest) (n m : ℕ) (s : TpcCall × (Address → KvServer)) :
    TpcCall × (Address → KvServer) :=
  match s.1.asks req with
  | none => s
  | some (pri, msg) =>
    let address := (leader.nodes pri).address
    let (res, server) := Kv.cutWire n m msg (s.2 address)
    (match res with
      | .fault => .faulted
      | .reject => s.1.resume leader req .silent
      | .ok res => s.1.resume leader req (.answered res), Function.update s.2 address server)

/-- The next exchange of `tpcleader_handle_get`. -/
def GetCall.cutWire (leader : TpcLeader) (req : KvRequest) (n m : ℕ) (s : GetCall × (Address → KvServer)) :
    GetCall × (Address → KvServer) :=
  match s.1.asks with
  | none => s
  | some pri =>
    let address := (leader.nodes pri).address
    let (res, server) := Kv.cutWire n m req (s.2 address)
    (match res with
      | .fault => .faulted
      | .reject => s.1.resume leader .silent
      | .ok res => s.1.resume leader (.answered res), Function.update s.2 address server)

omit [StrHash] in
/-- What can happen to a handler. -/
inductive WireEvent where
  /-- The next follower cannot be reached. -/
  | refused
  /-- The next exchange is cut. -/
  | cut (n m : ℕ)
  /-- A follower crashes between two requests, and starts again. -/
  | crash (a : Address)

/-- It happens to `tpcleader_handle_tpc`. -/
def TpcCall.happen (leader : TpcLeader) (req : KvRequest) (s : TpcCall × (Address → KvServer)) :
    WireEvent → TpcCall × (Address → KvServer)
  | .refused => (s.1.resume leader req .refused, s.2)
  | .cut n m => TpcCall.cutWire leader req n m s
  | .crash a => (s.1, Function.update s.2 a (s.2 a).restart)

/-- It happens to `tpcleader_handle_get`. -/
def GetCall.happen (leader : TpcLeader) (req : KvRequest) (s : GetCall × (Address → KvServer)) :
    WireEvent → GetCall × (Address → KvServer)
  | .refused => (s.1.resume leader .refused, s.2)
  | .cut n m => GetCall.cutWire leader req n m s
  | .crash a => (s.1, Function.update s.2 a (s.2 a).restart)

omit [StrHash] in
/-- **A reply that is cut**: nothing is received if the cut is in its head, and else its type and the beginning of its
body. -/
theorem readReply_sent {res : KvResponse} (htype : res.type.IsResponse) (hbody : ∀ body ∈ res.body, body.strlen ≤ maxVallen) :
    ∃ head, head + (res.body.getD .empty).strlen ≤ libhttpMessageMaxSize ∧
      ∀ m, readReply m (sendResponse res) = if min m libhttpMessageMaxSize < head then .reject
        else .ok ⟨res.type, some (.read ((res.body.getD .empty).bytes.take (min m libhttpMessageMaxSize - head)))⟩ := by
  have hbound : ∀ body ∈ res.body, body.strlen < 2 ^ 31 - 1 := fun body hmem =>
    (hbody body hmem).trans_lt (by decide)
  obtain ⟨head, hsend, htake⟩ := kvresponseRecieve_take htype hbound
  have hlen := length_kvresponseSend_le hsend hbody
  rw [List.length_append] at hlen
  refine ⟨head.length, hlen, fun m => ?_⟩
  rw [sendResponse, hsend]
  exact htake m

/-- **An exchange that is cut.** The request has arrived or not; not having it the follower answers `ERROR`. -/
theorem cutWire_eq {req : KvRequest} (hc : req.Complete) (hs : req.Sendable) (hindex : req.type ≠ .index)
    (hencodes : req.Encodes) :
    ∃ line, (∀ msg ∈ kvrequestSend req, line < msg.length) ∧ ∀ n m server, cutWire n m req server =
      if line < min n libhttpMessageMaxSize then
        (match (server.handle req).1 with
          | some res => readReply m (sendResponse res)
          | none => .reject, (server.handle req).2)
      else (readReply m (sendResponse invalidRequest), server) := by
  obtain ⟨method, -, hsend, htake⟩ := kvrequestRecieve_take hc hs hindex
  refine ⟨(req.line method).length, fun msg hmsg => ?_, fun n m server => ?_⟩
  · rw [hsend] at hmsg
    obtain rfl := Option.some.inj hmsg
    rw [List.length_append, List.length_cons]
    omega
  have hread := htake n
  split_ifs with hline
  · rw [if_pos hline] at hread
    simp only [cutWire, if_pos hencodes, hsend, Option.getD_some, kvserverHandle, hread, if_neg hindex]
    rcases server.handle req with ⟨_ | res, server'⟩ <;> rfl
  · rw [if_neg hline] at hread
    simp only [cutWire, if_pos hencodes, hsend, Option.getD_some, kvserverHandle, hread]

omit [StrHash] in
/-- What was answered is no vote and no acknowledgement, or what was received of it is none. -/
theorem readReply_reads {res : KvResponse} (htype : res.type.IsResponse)
    (hbody : ∀ body ∈ res.body, body.strlen ≤ maxVallen ∧ (msgCommit.bytes <+: body.bytes → body = msgCommit)) (call : TpcCall)
    (m : ℕ) : readReply m (sendResponse res) = .reject ∨ ∃ res', readReply m (sendResponse res) = .ok res' ∧
      (call.reads res' = true → call.reads ⟨res.type, some (res.body.getD .empty)⟩ = true) := by
  obtain ⟨head, -, hread⟩ := readReply_sent htype fun body h => (hbody body h).1
  rw [hread]
  split_ifs with hm
  · exact Or.inl rfl
  refine Or.inr ⟨_, rfl, ?_⟩
  have hvote : ∀ k, (⟨res.type, some (.read ((res.body.getD .empty).bytes.take k))⟩ : KvResponse).isCommit = true →
      (⟨res.type, some (res.body.getD .empty)⟩ : KvResponse).isCommit = true := by
    intro k hcommit
    have hcut : CString.read ((res.body.getD .empty).bytes.take k) = msgCommit :=
      Option.some.inj (of_decide_eq_true hcommit)
    have hbytes := congrArg CString.bytes hcut
    rw [CString.read_bytes fun hmem => (res.body.getD .empty).nul (List.take_subset _ _ hmem)] at hbytes
    have hbegins : msgCommit.bytes <+: (res.body.getD .empty).bytes := hbytes ▸ List.take_prefix ..
    cases hres : res.body with
    | none =>
      rw [hres] at hbegins
      exact absurd hbegins (by decide)
    | some body =>
      rw [hres] at hbegins
      obtain rfl := (hbody body (by rw [hres]; rfl)).2 hbegins
      exact decide_eq_true rfl
  cases call with
  | poll _ _ _ => exact hvote _
  | _ => exact id

/-! ## `PUT` and `DELETE` -/

section Tpc

variable {leader : TpcLeader} {req : KvRequest} {call : TpcCall} {net : Address → KvServer}

/-- To the handler, a reply that is neither a vote to commit nor an acknowledgement is as good as none. -/
theorem TpcCall.resume_silent {res : KvResponse} (h : call.reads res = false) :
    call.resume leader req (.answered res) = call.resume leader req .silent := by
  cases call with
  | poll pri i ok =>
    have hvote : res.isCommit = false := h
    simp only [resume, Reply.map, Reply.yes, hvote]
  | decide commit pri i acked =>
    have hack : res.isAck = false := h
    simp only [resume, Reply.map, Reply.yes, hack]
  | returned _ => rfl
  | faulted => rfl

/-- One that is a vote or an acknowledgement is as good as another. -/
theorem TpcCall.resume_answered {res res' : KvResponse} (h : call.reads res = true) (h' : call.reads res' = true) :
    call.resume leader req (.answered res) = call.resume leader req (.answered res') := by
  cases call with
  | poll pri i ok =>
    have hvote : res.isCommit = true ∧ res'.isCommit = true := ⟨h, h'⟩
    simp only [resume, Reply.map, Reply.yes, hvote.1, hvote.2]
  | decide commit pri i acked =>
    have hack : res.isAck = true ∧ res'.isAck = true := ⟨h, h'⟩
    simp only [resume, Reply.map, Reply.yes, hack.1, hack.2]
  | returned _ => rfl
  | faulted => rfl

omit [StrHash] in
/-- An exchange in which the follower is not reached, the request is lost, or the response. -/
theorem exchange_failed (handle : KvServer → Option KvResponse × KvServer) (a : Address) (net : Address → KvServer) :
    exchange handle .refused a net = (.refused, net) ∧ exchange handle .requestLost a net = (.silent, net) ∧
      exchange handle .responseLost a net = (.silent, Function.update net a (handle (net a)).2) := by
  simp only [exchange]
  refine ⟨?_, ?_, ?_⟩ <;> cases (handle (net a)).1.bind KvResponse.received <;> rfl

/-- **An exchange that is cut** is one in which the request was lost, or the response, or nothing. -/
theorem TpcCall.cutWire_eq (hc : req.Complete) (hs : req.Sendable) (htype : req.type = .putReq ∨ req.type = .delReq)
    (hencodes : req.Encodes) (n m : ℕ) (call : TpcCall) (net : Address → KvServer) :
    ∃ o, TpcCall.cutWire leader req n m (call, net) = call.exchange leader req handleRequest o net := by
  unfold TpcCall.cutWire TpcCall.exchange
  cases hasks : call.asks req with
  | none => exact ⟨.answered, rfl⟩
  | some ask =>
    obtain ⟨pri, msg⟩ := ask
    obtain ⟨hc', hs', hindex, hregister, hget, hfits⟩ : msg.Complete ∧ msg.Sendable ∧ msg.type ≠ .index ∧
        msg.type ≠ .register ∧ msg.type ≠ .getReq ∧ msg.Encodes := by
      rcases asks_cases hasks with rfl | ⟨commit, rfl⟩
      · refine ⟨hc, hs, ?_, ?_, ?_, hencodes⟩ <;> rcases htype with h | h <;> rw [h] <;> decide
      · obtain ⟨hc, hs, -⟩ := resClient_complete commit
        refine ⟨hc, hs, ?_, ?_, ?_, ?_⟩ <;> cases commit <;> decide
    simp only
    set a := (leader.nodes pri).address
    obtain ⟨-, hlost, hunheard⟩ := exchange_failed (handleRequest msg) a net
    obtain ⟨line, -, hcut⟩ := Kv.cutWire_eq hc' hs' hindex hfits
    have hcut := hcut n m (net a)
    split_ifs at hcut
    rotate_left
    · -- the follower refuses what it has read, and stays as it was
      refine ⟨.requestLost, ?_⟩
      rw [hlost, hcut, Function.update_eq_self]
      rcases @readReply_reads invalidRequest (by decide) (by rintro _ ⟨⟩; exact ⟨by decide, by decide⟩) call m with
        hreject | ⟨res, hres, hreads⟩
      · rw [hreject]
      · rw [hres]
        have hno : call.reads ⟨invalidRequest.type, some (invalidRequest.body.getD .empty)⟩ = false := by
          cases call <;> rfl
        have hreads' : call.reads res = false := by
          by_contra hyes
          rw [hreads (by simpa using hyes)] at hno
          cases hno
        exact congrArg (·, net) (resume_silent hreads')
    · rcases hhandle : (net a).handle msg with ⟨_ | res, server⟩
      · -- the follower dies
        refine ⟨.responseLost, ?_⟩
        rw [hunheard, hcut, hhandle]
        have hserver : (handleRequest msg (net a)).2 = server := congrArg Prod.snd hhandle
        rw [hserver]
      · have hyields := (handleTpc_yields hc' hindex hregister).run (congrArg Prod.fst hhandle)
        have hbodies := (handleTpc_bodies (P := fun body => body.strlen ≤ maxVallen ∧ (msgCommit.bytes <+: body.bytes →
          body = msgCommit)) (by decide) (by decide) (fun error => by unfold getMsg; split_ifs <;> decide) hget).run
          (congrArg Prod.fst hhandle)
        have hserver : (handleRequest msg (net a)).2 = server := congrArg Prod.snd hhandle
        have hresult : (handleRequest msg (net a)).1.bind KvResponse.received =
            some ⟨res.type, some (res.body.getD .empty)⟩ := by
          rw [show (handleRequest msg (net a)).1 = some res from congrArg Prod.fst hhandle, Option.bind_some]
          exact KvResponse.received_eq (by obtain ⟨-, h, -⟩ := status_of_sendable hyields; exact not_lt.mp h)
        rw [hcut, hhandle]
        simp only
        rcases readReply_reads hyields hbodies call m with hreject | ⟨res', hres', hreads⟩
        · refine ⟨.responseLost, ?_⟩
          rw [hunheard, hreject, hserver]
        · rw [hres']
          by_cases hyes : call.reads res' = true
          · -- the answer has arrived
            refine ⟨.answered, ?_⟩
            rw [exchange_answered, hresult, hserver]
            exact congrArg (·, Function.update net a server) (resume_answered hyes (hreads hyes))
          · refine ⟨.responseLost, ?_⟩
            rw [hunheard, hserver]
            exact congrArg (·, Function.update net a server) (resume_silent (by simpa using hyes))

/-- So is one with a follower that cannot be reached. -/
theorem TpcCall.refused_eq (call : TpcCall) (net : Address → KvServer) :
    (call.resume leader req .refused, net) = call.exchange leader req handleRequest .refused net := by
  unfold TpcCall.exchange
  cases hasks : call.asks req with
  | none =>
    cases call with
    | poll _ _ _ => cases hasks
    | decide _ _ _ _ => cases hasks
    | returned _ => rfl
    | faulted => rfl
  | some ask =>
    simp only
    rw [(exchange_failed (handleRequest ask.2) (leader.nodes ask.1).address net).1]

end Tpc

/-- `tpcleader_handle_tpc` has come to `s.1` with the request `w`, and the followers, which held `m` before it, are `s.2`. -/
def Transacting (leader : TpcLeader) (w : Write) (m : Address → KvMap) (s : TpcCall × (Address → KvServer)) : Prop :=
  ∃ (φ : Phase) (spec : Address → MapParticipant), s.1.Stands leader w.op.key φ ∧ (∀ a, Refines (s.2 a) (spec a)) ∧
    Atomic m w.op (addresses leader w.op.key) φ spec

namespace Transacting

variable {leader : TpcLeader} {w : Write} {m : Address → KvMap} {s : TpcCall × (Address → KvServer)}

theorem start (hfull : Full leader) {net : Address → KvServer} (hquiet : ∀ a, Quiescent (net a) (m a)) (w : Write) :
    Transacting leader w m (.start leader w.req, net) := by
  refine ⟨_, fun a => ⟨m a, none⟩, TpcCall.start_stands hfull w.key_eq w.type_eq, hquiet, ?_⟩
  rw [← hfull.addresses_length w.op.key]
  exact Atomic.start fun _ => rfl

/-- An exchange of the handler, in whatever way it fails or does not. -/
theorem exchange (hfull : Full leader) (h : Transacting leader w m s) (o : Outcome) :
    Transacting leader w m (s.1.exchange leader w.req handleRequest o s.2) := by
  obtain ⟨call, net⟩ := s
  obtain ⟨φ, spec, hstands, hrefines, hatomic⟩ := h
  cases hi : φ.index with
  | none =>
    have hasks : call.asks w.req = none := by
      cases hstands with
      | poll _ => cases hi
      | decide _ => cases hi
      | returned _ => rfl
    rw [TpcCall.exchange, hasks]
    exact ⟨φ, spec, hstands, hrefines, hatomic⟩
  | some i =>
    obtain ⟨msg, hmsg⟩ : ∃ msg, φ.message w.op = some msg := by
      cases φ with
      | voting _ _ => exact ⟨_, rfl⟩
      | deciding _ _ _ => exact ⟨_, rfl⟩
      | done _ => cases hi
    obtain ⟨n, hn⟩ : ∃ n, (leader.replicas w.op.key)[i]? = some n := by
      cases hstands with
      | poll hpri => exact ⟨_, Option.some.inj hi ▸ hpri⟩
      | decide hpri => exact ⟨_, Option.some.inj hi ▸ hpri⟩
      | returned _ => cases hi
    have ha : (addresses leader w.op.key)[i]? = some (leader.nodes n).address := by
      rw [addresses, List.getElem?_map, hn]
      rfl
    obtain ⟨hstands', hrefines'⟩ :=
      TpcCall.exchange_simulates hfull w.key_eq (server_simulates w.asks) hstands hrefines hi hn hmsg o
    have hatomic' := hatomic.exchange hi ha hmsg o
    rw [hfull.addresses_length] at hatomic'
    exact ⟨_, _, hstands', hrefines', hatomic'⟩

/-- **Whatever happens** to the handler and the followers. -/
theorem happen (hfull : Full leader) (hc : w.req.Complete) (hs : w.req.Sendable) (hencodes : w.req.Encodes)
    (h : Transacting leader w m s) (e : WireEvent) : Transacting leader w m (TpcCall.happen leader w.req s e) := by
  cases e with
  | refused =>
    have heq : TpcCall.happen leader w.req s .refused = _ := TpcCall.refused_eq s.1 s.2
    rw [heq]
    exact h.exchange hfull _
  | cut n m =>
    obtain ⟨o, ho⟩ := @TpcCall.cutWire_eq _ leader _ hc hs w.type_eq hencodes n m s.1 s.2
    have heq : TpcCall.happen leader w.req s (.cut n m) = _ := ho
    rw [heq]
    exact h.exchange hfull o
  | crash a =>
    obtain ⟨φ, spec, hstands, hrefines, hatomic⟩ := h
    refine ⟨φ, spec, hstands, fun b => ?_, hatomic⟩
    have hspec : Refines (Function.update s.2 a (s.2 a).restart b) (Function.update spec a (spec a) b) :=
      forall_update hrefines (restart_refines (hrefines a)) b
    rwa [Function.update_eq_self] at hspec

theorem run (hfull : Full leader) (hc : w.req.Complete) (hs : w.req.Sendable) (hencodes : w.req.Encodes)
    (h : Transacting leader w m s) (events : List WireEvent) :
    Transacting leader w m (events.foldl (TpcCall.happen leader w.req) s) := by
  induction events generalizing s with
  | nil => exact h
  | cons e events ih => exact ih (h.happen hfull hc hs hencodes e)

/-- As long as the decision is not to commit, no follower has applied anything. -/
theorem unchanged (h : Transacting leader w m s) (hundecided : s.1.decision ≠ some true) (a : Address) :
    (s.2 a).store.contents = m a := by
  obtain ⟨call, net⟩ := s
  obtain ⟨φ, spec, hstands, hrefines, hatomic⟩ := h
  rw [(hrefines a).contents]
  refine (hatomic.data_cases a).resolve_right fun hdecided => hundecided ?_
  have hphase := hdecided.1
  cases hstands with
  | poll _ => cases hphase
  | decide _ => exact hphase
  | returned commit => rw [← hphase]; cases commit <;> rfl

/-- When it has returned, the replicas of the key have applied the operation, and answered is `SUCCESS`, or nobody has. -/
theorem returned (h : Transacting leader w m s) {res : KvResponse} (hres : s.1 = .returned res) :
    ∃ commit, res = tpcResponse commit ∧
      ∀ a, Quiescent (s.2 a) (if commit = true ∧ a ∈ addresses leader w.op.key then apply w.op (m a) else m a) := by
  obtain ⟨φ, spec, hstands, hrefines, hatomic⟩ := h
  rw [hres] at hstands
  cases hstands with
  | returned commit =>
    obtain ⟨hout, hall, -⟩ := hatomic
    refine ⟨commit, rfl, fun a => ?_⟩
    have hspec : spec a = ⟨if commit = true ∧ a ∈ addresses leader w.op.key then apply w.op (m a) else m a, none⟩ := by
      by_cases ha : a ∈ addresses leader w.op.key
      · rw [hall a ha]
        simp [TwoPhase.settled, ha]
      · rw [hout a ha]
        simp [TwoPhase.idle, ha]
    have hr := hrefines a
    rwa [hspec] at hr

end Transacting

omit [StrHash] in
/-- A request with short strings can be encoded. -/
theorem encodes_of_short {req : KvRequest} (hforward : req.Forwarded) (hshort : req.Short) : req.Encodes := by
  have hbuf := urlEncodeBuf_holds ⟨pathForRequestType req.type, req.key, req.val⟩
  rw [Scratch.Holds, urlBuf_length hforward] at hbuf
  rw [KvRequest.Encodes, hbuf.2]
  exact hshort.2

/-- **Atomic commitment, of messages that arrive in part.** A full leader handles a `PUT` or `DELETE` that was sent to it while
the followers are quiescent. Followers cannot be reached, any part of any request or reply arrives, and followers crash
between requests. As long as the leader has not decided to commit, no follower has applied anything. When it has
returned, all followers are quiescent, and either it has answered `SUCCESS` and the replicas of the key have applied the
operation, and nobody else has, or `ERROR` and nobody has. -/
theorem cut_atomic {leader : TpcLeader} (hfull : Full leader) {servers : Address → KvServer} {m : Address → KvMap}
    (hquiet : ∀ a, Quiescent (servers a) (m a)) (pending : List UInt8) (w : Write) (hreq : kvrequestRecieve pending = .ok w.req)
    (hshort : w.req.Short) (events : List WireEvent) :
    let s := events.foldl (TpcCall.happen leader w.req) (.start leader w.req, servers)
    s.1 ≠ .faulted ∧
      (s.1.decision ≠ some true → ∀ a, (s.2 a).store.contents = m a) ∧
      ∀ res, s.1 = .returned res → ∃ commit, res = tpcResponse commit ∧
        ∀ a, Quiescent (s.2 a) (if commit = true ∧ a ∈ addresses leader w.op.key then apply w.op (m a) else m a) := by
  intro s
  obtain ⟨hc, hs⟩ : w.req.Complete ∧ w.req.Sendable := by
    rcases kvrequestRecieve_cases pending with hreject | ⟨req, hreq', hc, hs⟩
    · cases hreject.symm.trans hreq
    · obtain rfl := Parse.ok.inj (hreq'.symm.trans hreq)
      exact ⟨hc, hs⟩
  have h := (Transacting.start hfull hquiet w).run hfull hc hs (encodes_of_short (Or.inr w.type_eq) hshort) events
  refine ⟨fun hfault => ?_, h.unchanged, fun res hres => h.returned hres⟩
  obtain ⟨φ, spec, hstands, -⟩ := h
  rw [show (events.foldl (TpcCall.happen leader w.req) (.start leader w.req, servers)).1 = .faulted from hfault] at hstands
  cases hstands

/-! ## `GET` -/

section Get

variable {leader : TpcLeader} {key : CString} {val : Option CString} {net : Address → KvServer}

omit [StrHash] in
/-- Nothing is read of nothing. -/
theorem readReply_zero (written : List Written) : readReply 0 written = .reject := by
  unfold readReply
  split
  · rw [List.take_zero]
    rfl
  · rfl

/-- A follower that is asked for a value answers with what it holds, or refuses what it has read, and stays as it was. -/
theorem cutWire_get (hs : KvRequest.Sendable ⟨.getReq, some key, val⟩) (hshort : KvRequest.Short ⟨.getReq, some key, val⟩)
    {server : KvServer} (hchained : server.store.Chained) (k : ℕ) :
    cutWire 0 k ⟨.getReq, some key, val⟩ server = (readReply k (sendResponse invalidRequest), server) ∧
      cutWire libhttpMessageMaxSize k ⟨.getReq, some key, val⟩ server =
        (readReply k (sendResponse (server.store.contents.get key)), server) ∧
      ∀ n, cutWire n k ⟨.getReq, some key, val⟩ server = cutWire 0 k ⟨.getReq, some key, val⟩ server ∨
        cutWire n k ⟨.getReq, some key, val⟩ server = cutWire libhttpMessageMaxSize k ⟨.getReq, some key, val⟩ server := by
  have hcomplete : KvRequest.Complete ⟨.getReq, some key, val⟩ := Option.some_ne_none key
  obtain ⟨line, hline, hcut⟩ := cutWire_eq hcomplete hs MsgType.noConfusion (encodes_of_short (Or.inl rfl) hshort)
  have hfits : line < min libhttpMessageMaxSize libhttpMessageMaxSize := by
    rw [min_self]
    obtain ⟨msg, hsend, -⟩ := kvrequestRecieve_sent hcomplete hs MsgType.noConfusion
    exact (hline msg hsend).trans_le (length_kvrequestSend_le (Or.inl rfl) hshort msg hsend)
  have hlost : cutWire 0 k ⟨.getReq, some key, val⟩ server = (readReply k (sendResponse invalidRequest), server) := by
    rw [hcut, if_neg (by simp)]
  have hasked : cutWire libhttpMessageMaxSize k ⟨.getReq, some key, val⟩ server =
      (readReply k (sendResponse (server.store.contents.get key)), server) := by
    rw [hcut, if_pos hfits, handle_get_eq hchained]
  refine ⟨hlost, hasked, fun n => ?_⟩
  rw [hlost, hasked, hcut]
  split_ifs
  · right
    rw [handle_get_eq hchained]
  · exact Or.inl rfl

/-- What may be answered to a `GET` if the map is `m`. -/
def KvMap.MayAnswer (m : KvMap) (key : CString) (res : KvResponse) : Prop :=
  res = ⟨.error, some errmsgNoKey⟩ ∨ ∃ value j, m key = some value ∧ res = ⟨.getResp, some (.read (value.bytes.take j))⟩

/-- `tpcleader_handle_get` stands at a replica of the key, has died, or has given an answer that it may give. -/
def GetCall.Asks (leader : TpcLeader) (m : KvMap) (key : CString) : GetCall → Prop
  | .ask pri i => (leader.replicas key)[i]? = some pri
  | .returned res => m.MayAnswer key res
  | .faulted => True

variable {m : KvMap}

omit [StrHash] in
/-- Requests put no value into a map that is too long. -/
theorem KvMap.Storable.serve (h : m.Storable) (reqs : List ClientRequest) : (m.serve reqs).2.Storable := by
  induction reqs generalizing m with
  | nil => exact h
  | cons req reqs ih =>
    refine ih ?_
    cases req with
    | get key val => exact h
    | write w =>
      simp only
      split_ifs with hallowed
      · have happly := h.apply hallowed
        cases hop : w.op <;> rw [hop] at happly <;> exact happly
      · exact h

/-- What a replica holds for the key. -/
theorem Replicates.contents_replica (h : Replicates leader m net) {pri i : ℕ} (hi : (leader.replicas key)[i]? = some pri) :
    (net (leader.nodes pri).address).store.contents key = m key := by
  rw [(h _).contents, share_of_mem]
  exact List.mem_map.mpr ⟨pri, List.mem_of_getElem? hi, rfl⟩

omit [StrHash] in
/-- A replica's answer. -/
theorem get_eq_of_contents {contents : KvMap} (hcontents : ∀ key : CString, key.strlen > maxKeylen → contents key = none) :
    (∀ value, contents key = some value → contents.get key = ⟨.getResp, some value⟩) ∧
      (contents key = none → ∃ body, body.strlen ≤ maxVallen ∧ contents.get key = ⟨.error, some body⟩) := by
  constructor
  · intro value hvalue
    have hlen : ¬ key.strlen > maxKeylen := fun hlong => Option.some_ne_none value (hvalue.symm.trans (hcontents key hlong))
    rw [KvMap.get, if_neg hlen, hvalue]
  · intro hnone
    rw [KvMap.get, hnone]
    split_ifs
    · exact ⟨_, by decide, rfl⟩
    · exact ⟨_, by decide, rfl⟩

/-- To a follower that answers `ERROR`, or that is not heard. -/
theorem GetCall.asks_of_error (hfull : Full leader) {pri i : ℕ} (hi : (leader.replicas key)[i]? = some pri) {body : CString}
    (hbody : body.strlen ≤ maxVallen) (k : ℕ) :
    GetCall.Asks leader m key (match readReply k (sendResponse ⟨.error, some body⟩) with
      | .fault => .faulted
      | .reject => GetCall.resume leader (.ask pri i) .silent
      | .ok res => GetCall.resume leader (.ask pri i) (.answered res)) := by
  obtain ⟨head, -, hread⟩ := @readReply_sent ⟨.error, some body⟩ (show MsgType.IsResponse .error by decide) (by
    rintro _ ⟨⟩
    exact hbody)
  rw [hread]
  split_ifs
  · trivial
  · simp only [resume, reduceCtorEq, if_false, askFrom]
    split_ifs with hnext
    · exact hfull.replicas_succ hi hnext
    · exact Or.inl rfl

/-- **Whatever happens** to the handler and the followers. -/
theorem GetCall.happen_asks (hfull : Full leader) (hs : KvRequest.Sendable ⟨.getReq, some key, val⟩)
    (hshort : KvRequest.Short ⟨.getReq, some key, val⟩) (hm : m.Storable) {s : GetCall × (Address → KvServer)}
    (h : Replicates leader m s.2 ∧ s.1.Asks leader m key) (e : WireEvent) :
    Replicates leader m (GetCall.happen leader ⟨.getReq, some key, val⟩ s e).2 ∧
      (GetCall.happen leader ⟨.getReq, some key, val⟩ s e).1.Asks leader m key := by
  obtain ⟨call, net⟩ := s
  obtain ⟨hnet, hcall⟩ := h
  cases e with
  | refused =>
    refine ⟨hnet, ?_⟩
    cases call with
    | ask pri i => exact hcall
    | returned res => exact hcall
    | faulted => exact hcall
  | crash a =>
    refine ⟨fun b => ?_, hcall⟩
    simp only [GetCall.happen, Function.update_apply]
    split_ifs with hb
    · have ha : Refines (net a) ⟨leader.share m a, none⟩ := hnet a
      exact hb ▸ restart_refines ha
    · exact hnet b
  | cut n k =>
    cases call with
    | returned res => exact ⟨hnet, hcall⟩
    | faulted => exact ⟨hnet, hcall⟩
    | ask pri i =>
      have hi : (leader.replicas key)[i]? = some pri := hcall
      have hchained := (hnet (leader.nodes pri).address).chained
      obtain ⟨hlost, hasked, hcases⟩ := cutWire_get hs hshort hchained k
      simp only [GetCall.happen, GetCall.cutWire, asks]
      rcases hcases n with hcut | hcut
      · rw [hcut, hlost, Function.update_eq_self]
        have hinvalid : errmsgInvalidRequest.strlen ≤ maxVallen := by decide
        exact ⟨hnet, GetCall.asks_of_error hfull hi hinvalid k⟩
      · rw [hcut, hasked, Function.update_eq_self]
        refine ⟨hnet, ?_⟩
        obtain ⟨hsome, hnone⟩ := @get_eq_of_contents key (net (leader.nodes pri).address).store.contents
          fun key hlong => KvStore.contents_of_long hlong
        rw [hnet.contents_replica hi] at hsome hnone
        cases hvalue : m key with
        | none =>
          obtain ⟨body, hbody, hget⟩ := hnone hvalue
          rw [hget]
          exact GetCall.asks_of_error hfull hi hbody k
        | some value =>
          rw [hsome value hvalue]
          obtain ⟨head, -, hread⟩ := @readReply_sent ⟨.getResp, some value⟩ (show MsgType.IsResponse .getResp by decide) (by
            rintro _ ⟨⟩
            exact hm key value hvalue)
          rw [hread]
          split_ifs
          · trivial
          · exact Or.inr ⟨value, _, hvalue, rfl⟩

/-- Every follower from here on reads nothing of the request, and its `ERROR` is taken for its not having the key. -/
theorem GetCall.refused_by_all (hs : KvRequest.Sendable ⟨.getReq, some key, val⟩)
    (hshort : KvRequest.Short ⟨.getReq, some key, val⟩) (hchained : ∀ a, (net a).store.Chained) (left : ℕ) (pri i : ℕ)
    (hleft : i + left + 1 = leader.redundancy) :
    (List.replicate (left + 1) (.cut 0 libhttpMessageMaxSize)).foldl (GetCall.happen leader ⟨.getReq, some key, val⟩)
      (.ask pri i, net) = (.returned ⟨.error, some errmsgNoKey⟩, net) := by
  obtain ⟨head, hfits, hread⟩ := @readReply_sent invalidRequest (by decide) (by rintro _ ⟨⟩; decide)
  have hhead : ¬ min libhttpMessageMaxSize libhttpMessageMaxSize < head := by
    rw [min_self]
    omega
  have hstep : ∀ pri i, GetCall.happen leader ⟨.getReq, some key, val⟩ (.ask pri i, net) (.cut 0 libhttpMessageMaxSize) =
      (askFrom leader (tpcleaderGetSuccessor leader pri) (i + 1), net) := by
    intro pri i
    obtain ⟨hlost, -⟩ := cutWire_get hs hshort (hchained (leader.nodes pri).address) libhttpMessageMaxSize
    simp only [GetCall.happen, GetCall.cutWire, asks]
    rw [hlost, Function.update_eq_self, hread, if_neg hhead]
    rfl
  induction left generalizing pri i with
  | zero =>
    rw [List.replicate_one, List.foldl_cons, List.foldl_nil, hstep, askFrom, if_neg (by omega)]
  | succ left ih =>
    rw [List.replicate_succ, List.foldl_cons, hstep, askFrom, if_pos (by omega)]
    exact ih _ _ (by omega)

/-- A replica answers with what it has for the key, and the leader reads the head of that and the first `j` bytes of the value. -/
theorem GetCall.answered_in_part (hs : KvRequest.Sendable ⟨.getReq, some key, val⟩)
    (hshort : KvRequest.Short ⟨.getReq, some key, val⟩) (hm : m.Storable) (h : Replicates leader m net) {pri i : ℕ}
    (hi : (leader.replicas key)[i]? = some pri) {value : CString} (hvalue : m key = some value) (j : ℕ) :
    ∃ k, GetCall.happen leader ⟨.getReq, some key, val⟩ (.ask pri i, net) (.cut libhttpMessageMaxSize k) =
      (.returned ⟨.getResp, some (.read (value.bytes.take j))⟩, net) := by
  obtain ⟨head, hfits, hread⟩ := @readReply_sent ⟨.getResp, some value⟩ (show MsgType.IsResponse .getResp by decide) (by
    rintro _ ⟨⟩
    exact hm key value hvalue)
  have hfits : head + value.bytes.length ≤ libhttpMessageMaxSize := hfits
  obtain ⟨hsome, -⟩ := @get_eq_of_contents key (net (leader.nodes pri).address).store.contents
    fun key hlong => KvStore.contents_of_long hlong
  rw [h.contents_replica hi] at hsome
  have htake : value.bytes.take (min j value.bytes.length) = value.bytes.take j := by
    rw [← List.take_take, List.take_length]
  refine ⟨head + min j value.bytes.length, ?_⟩
  obtain ⟨-, hasked, -⟩ := cutWire_get hs hshort (h (leader.nodes pri).address).chained (head + min j value.bytes.length)
  simp only [GetCall.happen, GetCall.cutWire, asks]
  rw [hasked, Function.update_eq_self, hsome value hvalue, hread, if_neg (by omega),
    show min (head + min j value.bytes.length) libhttpMessageMaxSize - head = min j value.bytes.length by omega]
  simp only [Option.getD_some, htake]
  rfl

end Get

/-- **What a `GET` may be answered**, of messages that arrive in part. The followers hold the map `m`, and a full leader
handles a `GET` that was sent to it; followers cannot be reached, any part of any request or reply arrives, and followers
crash between requests. They go on holding the map. The leader may die. What it may answer is that there is no such key,
whatever the map, and any beginning of the value, as if that were the value; and nothing else. -/
theorem cut_get {leader : TpcLeader} (hfull : Full leader) {servers : Address → KvServer} {m : KvMap}
    (hreplicates : Replicates leader m servers) (hm : m.Storable) (pending : List UInt8) (key : CString) (val : Option CString)
    (hreq : kvrequestRecieve pending = .ok ⟨.getReq, some key, val⟩) (hshort : KvRequest.Short ⟨.getReq, some key, val⟩) :
    let run := fun events : List WireEvent => events.foldl (GetCall.happen leader ⟨.getReq, some key, val⟩)
      (.start leader ⟨.getReq, some key, val⟩, servers)
    (∀ events, Replicates leader m (run events).2) ∧
      (∀ res, (∃ events, (run events).1 = .returned res) ↔ m.MayAnswer key res) ∧
      ∃ events, (run events).1 = .faulted := by
  intro run
  have hs : KvRequest.Sendable ⟨.getReq, some key, val⟩ := by
    rcases kvrequestRecieve_cases pending with hreject | ⟨req, hreq', -, hs⟩
    · cases hreject.symm.trans hreq
    · obtain rfl := Parse.ok.inj (hreq'.symm.trans hreq)
      exact hs
  obtain ⟨pri, hpri, hstart⟩ := GetCall.start_eq hfull key val
  have hrun : ∀ events, run events = events.foldl (GetCall.happen leader ⟨.getReq, some key, val⟩) (.ask pri 0, servers) :=
    fun events => by rw [← hstart]
  have hinv : ∀ events : List WireEvent, Replicates leader m (run events).2 ∧ (run events).1.Asks leader m key := by
    intro events
    rw [hrun]
    refine List.foldlRecOn (motive := fun s : GetCall × (Address → KvServer) => Replicates leader m s.2 ∧ s.1.Asks leader m key)
      events _ ⟨hreplicates, hpri⟩ fun s h e _ => ?_
    exact GetCall.happen_asks hfull hs hshort hm h e
  refine ⟨fun events => (hinv events).1, fun res => ⟨?_, ?_⟩, ?_⟩
  · rintro ⟨events, hres⟩
    have hasks := (hinv events).2
    rwa [hres] at hasks
  · rintro (rfl | ⟨value, j, hvalue, rfl⟩)
    · have hpos := hfull.redundancy
      refine ⟨List.replicate (leader.redundancy - 1 + 1) (.cut 0 libhttpMessageMaxSize), ?_⟩
      rw [hrun, GetCall.refused_by_all hs hshort (fun a => (hreplicates a).chained) _ _ _ (by omega)]
    · obtain ⟨k, hk⟩ := GetCall.answered_in_part hs hshort hm hreplicates hpri hvalue j
      refine ⟨[.cut libhttpMessageMaxSize k], ?_⟩
      rw [hrun, List.foldl_cons, List.foldl_nil, hk]
  · refine ⟨[.cut 0 0], ?_⟩
    obtain ⟨hlost, -⟩ := cutWire_get hs hshort (hreplicates (leader.nodes pri).address).chained 0
    rw [hrun, List.foldl_cons, List.foldl_nil]
    simp only [GetCall.happen, GetCall.cutWire, GetCall.asks, hlost, readReply_zero]
    rfl

end

section

attribute [local instance] md5Sample

/-- `cut_atomic` for a `PUT`: of the `COMMIT`s one is read in part and another is acknowledged in part, and the follower
crashes between them. -/
theorem cut_atomic_put :
    let s := [WireEvent.cut 100 100, .refused, .cut 12 100, .crash (.ofString "localhost", 8001), .cut 100 30, .cut 100 100].foldl
      (TpcCall.happen (localLeader ["8001"]) (writeA "1").req)
      (.start (localLeader ["8001"]) (writeA "1").req, fun _ => newServer)
    s.1 ≠ .faulted ∧
      (s.1.decision ≠ some true → ∀ a, (s.2 a).store.contents = KvStore.contents ⟨.empty⟩) ∧
      ∀ res, s.1 = .returned res → ∃ commit, res = tpcResponse commit ∧
        ∀ a, Quiescent (s.2 a) (if commit = true ∧ a ∈ addresses (localLeader ["8001"]) (writeA "1").op.key then
          apply (writeA "1").op (KvStore.contents ⟨.empty⟩) else KvStore.contents ⟨.empty⟩) :=
  cut_atomic full_localLeader (fun _ => quiescent_newServer) (lit "PUT /?key=a&val=1 ") (writeA "1") (by decide +kernel)
    (by decide) _

/-- `cut_get` for a key that has been put twice. -/
theorem cut_get_putTwice :
    let leader := leaderOf twoFollowers 2
    let m := (KvMap.serve (fun _ => none) putGetPut).2
    let servers := (leader.serve (fun _ => KvServer.start ⟨.empty⟩) putGetPut).2
    let run := fun events : List WireEvent => events.foldl (GetCall.happen leader ⟨.getReq, some (.ofString "a"), none⟩)
      (.start leader ⟨.getReq, some (.ofString "a"), none⟩, servers)
    (∀ events, Replicates leader m (run events).2) ∧
      (∀ res, (∃ events, (run events).1 = .returned res) ↔ m.MayAnswer (.ofString "a") res) ∧
      ∃ events, (run events).1 = .faulted := by
  have hfull : Full (leaderOf twoFollowers 2) := full_leaderOf (by decide) (by decide) (by decide +kernel)
  obtain ⟨-, hreplicates⟩ :=
    serve_replicates hfull (fun key => addresses_nodup hfull key) (replicates_start (leaderOf twoFollowers 2)) putGetPut
  have hnone : KvMap.Storable fun _ => none := by rintro _ _ ⟨⟩
  exact cut_get hfull hreplicates (hnone.serve putGetPut) (lit "GET /?key=a ") (.ofString "a") none (by decide +kernel)
    (by decide)

end

end Cs162Hw.Kv
