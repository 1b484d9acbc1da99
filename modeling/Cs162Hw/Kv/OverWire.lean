import Cs162Hw.Kv.Arrays
import Cs162Hw.Kv.Connection
import Cs162Hw.Kv.Replicated
import Mathlib.Data.Nat.Digits.Lemmas

/-!
# The system over the wire

The leader and its followers once more, with nothing between them but bytes: what a client sends is decoded by
`tpcleader_handle`, every message of the protocol is encoded, read and decoded by `kvserver_handle`, and so is every
reply on its way back.

* `overWire_eq`: an exchange over the wire is the exchange of the handlers, as long as request and reply fit the buffer they
  are read into. A request that fits `url_encode`'s array does, and so does every reply to it but a value that no
  follower would have stored.
* `tpcleaderServe_eq`: what the leader does with a connection.
* **`wire_map`**: over any connections of clients, the leader and its followers are one map.
-/

namespace Cs162Hw.Kv

open Library
open Library.TwoPhase (Reply)

section

variable [StrHash]

/-! ## The leader's connections -/

/-- An exchange: the bytes of `kvrequest_send` are what `kvserver_handle` reads, and what it writes is what
`kvresponse_recieve` reads. There is no response if it returns `NULL`. -/
def overWire (req : KvRequest) (server : KvServer) : Option KvResponse × KvServer :=
  let served := kvserverHandle server ((kvrequestSend req).getD [])
  (match served.written with
    | [.message msg] =>
      match kvresponseRecieve msg with
      | .ok res => some res
      | _ => none
    | _ => none, served.server)

omit [StrHash] in
/-- What the leader sees of it. -/
def heard : Option KvResponse → Reply KvResponse
  | some res => .answered res
  | none => .silent

/-- The next exchange of `tpcleader_handle_tpc`. -/
def TpcCall.overWire (leader : TpcLeader) (req : KvRequest) (s : TpcCall × (Address → KvServer)) :
    TpcCall × (Address → KvServer) :=
  match s.1.asks req with
  | none => s
  | some (pri, msg) =>
    let address := (leader.nodes pri).address
    let (res, server) := Kv.overWire msg (s.2 address)
    (s.1.resume leader req (heard res), Function.update s.2 address server)

/-- The next exchange of `tpcleader_handle_get`. -/
def GetCall.overWire (leader : TpcLeader) (req : KvRequest) (s : GetCall × (Address → KvServer)) :
    GetCall × (Address → KvServer) :=
  match s.1.asks with
  | none => s
  | some pri =>
    let address := (leader.nodes pri).address
    let (res, server) := Kv.overWire req (s.2 address)
    (s.1.resume leader (heard res), Function.update s.2 address server)

/-- `tpcleader_handle` and the followers, when every exchange of a handler is answered: one with each replica for a `GET`,
two for a `PUT` or `DELETE`. -/
def tpcleaderServe (leader : TpcLeader) (net : Address → KvServer) (pending : List UInt8) :
    Served TpcLeader × (Address → KvServer) :=
  match kvrequestRecieve pending with
  | .fault => (⟨[], true, leader⟩, net)
  -- the first `printf` follows the `NULL`, before it is tested
  | .reject => (⟨[], true, leader⟩, net)
  | .ok req =>
    if req.type = .index then (⟨[.index true], false, leader⟩, net)
    else if req.type = .register then
      match tpcleaderRegister leader req with
      | (some res, leader) => (⟨sendResponse res, false, leader⟩, net)
      | (none, leader) => (⟨[], true, leader⟩, net)
    else if req.type = .getReq then
      match (GetCall.overWire leader req)^[leader.redundancy] (.start leader req, net) with
      | (.ask _ _, net) => (⟨[], false, leader⟩, net)
      | (.returned res, net) => (⟨sendResponse res, false, leader⟩, net)
      | (.faulted, net) => (⟨[], true, leader⟩, net)
    else
      match (TpcCall.overWire leader req)^[2 * leader.redundancy] (.start leader req, net) with
      | (.poll _ _ _, net) | (.decide _ _ _ _, net) => (⟨[], false, leader⟩, net)
      | (.returned res, net) => (⟨sendResponse res, false, leader⟩, net)
      | (.faulted, net) => (⟨[], true, leader⟩, net)

/-- One connection after the other, until the process dies: what is written to each, and leader and followers after them. -/
def tpcleaderServeAll (leader : TpcLeader) (net : Address → KvServer) :
    List (List UInt8) → List (List Written) × TpcLeader × (Address → KvServer)
  | [] => ([], leader, net)
  | pending :: more =>
    match tpcleaderServe leader net pending with
    | (⟨written, true, leader⟩, net) => ([written], leader, net)
    | (⟨written, false, leader⟩, net) =>
      let (rest, leader, net) := tpcleaderServeAll leader net more
      (written :: rest, leader, net)

/-! ## An exchange -/

omit [StrHash] in
theorem length_decimal_le (n : ℕ) : (decimal n).bytes.length ≤ n + 1 := by
  unfold decimal
  by_cases hn : n = 0
  · simp only [if_pos hn]
    exact Nat.le_add_left 1 n
  · simp only [if_neg hn, List.length_map, List.length_reverse]
    exact (Nat.digits_length_le_iff (by decide) n).mpr (Nat.lt_of_succ_lt (Nat.lt_pow_self (by decide)))

omit [StrHash] in
/-- A response that is no longer than the longest value fits the buffer it is read into. -/
theorem length_kvresponseSend_le {res : KvResponse} {msg : List UInt8} (hmsg : kvresponseSend res = some msg)
    (hbody : ∀ body ∈ res.body, body.strlen ≤ maxVallen) : msg.length ≤ libhttpMessageMaxSize := by
  have hcode : ¬ httpCodeForResponseType res.type < 0 := by
    intro hlt
    simp only [kvresponseSend, hlt, if_true] at hmsg
    cases hmsg
  obtain ⟨status, -, hstatus, -⟩ := status_of_sendable (show res.type ∈ [MsgType.getResp, .success, .error, .vote, .ack] by
    generalize res.type = type at hcode
    cases type <;> first
      | decide
      | exact absurd (by decide) hcode)
  have htext : status.bytes.length ≤ 32 ∧ (httpCodeForResponseType res.type).toNat ≤ 500 := by
    generalize res.type = type at hcode hstatus
    cases type <;> first
      | exact absurd (by decide) hcode
      | exact Option.some.inj hstatus ▸ ⟨by decide, by decide⟩
  have hlength : (res.body.getD .empty).strlen ≤ maxVallen := by
    cases hres : res.body with
    | none => exact Nat.zero_le _
    | some body => exact hbody body hres
  rw [kvresponseSend_eq hcode hstatus] at hmsg
  have hnumber := length_decimal_le (httpCodeForResponseType res.type).toNat
  have hannounced := length_decimal_le (res.body.getD .empty).strlen
  have hlit : (lit "HTTP/1.1").length = 8 ∧ (lit "Content-Length").length = 14 ∧ (lit ": ").length = 2 := by decide
  rw [← Option.some.inj hmsg]
  simp only [List.length_append, List.length_cons, contentLengthLine, hlit]
  have hbytes : (res.body.getD .empty).bytes.length = (res.body.getD .empty).strlen := rfl
  rw [maxVallen] at hlength
  rw [libhttpMessageMaxSize]
  omega

/-- An exchange over the wire is one of the handlers. -/
theorem overWire_eq {req : KvRequest} {server : KvServer} (hc : req.Complete) (hs : req.Sendable) (hindex : req.type ≠ .index)
    (hregister : req.type ≠ .register) (hlen : ∀ msg ∈ kvrequestSend req, msg.length ≤ libhttpMessageMaxSize)
    (hbody : ∀ res ∈ (server.handle req).1, ∀ body ∈ res.body, body.strlen ≤ maxVallen) :
    overWire req server = ((server.handle req).1.bind KvResponse.received, (server.handle req).2) := by
  obtain ⟨msg, hmsg, hrecieve⟩ := kvrequestRecieve_sent hc hs hindex
  have hreq := hrecieve (hlen msg hmsg)
  have hyields := handleTpc_yields hc hindex hregister
  rcases hhandle : server.handle req with ⟨_ | res, server'⟩
  · simp only [overWire, hmsg, Option.getD_some, kvserverHandle, hreq, if_neg hindex, hhandle]
    rfl
  · obtain ⟨reply, hreply, hsend⟩ := sendResponse_eq (hyields.run (congrArg Prod.fst hhandle))
    have hfits : ∀ msg ∈ kvresponseSend res, msg.length ≤ libhttpMessageMaxSize := fun msg hmsg =>
      length_kvresponseSend_le hmsg (hbody res (by rw [hhandle]; rfl))
    simp only [overWire, hmsg, Option.getD_some, kvserverHandle, hreq, if_neg hindex, hhandle, hsend]
    rw [Option.bind_some, received_eq_wire hfits, hreply]
    rfl

/-! ## The handlers -/

omit [StrHash] in
/-- A short request that is sent on fits the buffer it is read into. -/
theorem length_kvrequestSend_le {req : KvRequest} (hforward : req.Forwarded) (hshort : req.Short) :
    ∀ msg ∈ kvrequestSend req, msg.length ≤ libhttpMessageMaxSize := by
  intro msg hmsg
  obtain ⟨method, hmethod, hvalid⟩ : ∃ method, httpMethodForRequestType req.type = some method ∧ method ∈ validMethods := by
    rcases hforward with h | h | h <;> rw [h] <;> exact ⟨_, rfl, by decide⟩
  rw [Option.mem_def, kvrequestSend, hmethod] at hmsg
  have hfits := requestBody_fits hforward hmethod hvalid hshort
  rw [(requestBody_holds hmsg).2] at hfits
  exact Nat.le_of_succ_le_succ hfits

/-- What a follower answers to the messages of the protocol is empty, a vote to commit or a text for an error. -/
theorem handleTpc_bodies {P : CString → Prop} (hcommit : P msgCommit) (hinvalid : P errmsgInvalidRequest)
    (hmsg : ∀ error, P (getMsg error)) {req : KvRequest} (hget : req.type ≠ .getReq) :
    (handleTpc req).Yields fun res => ∀ body ∈ res.body, P body := by
  have hsome : ∀ {text}, P text → ∀ body ∈ (some text : Option CString), P body := by
    rintro text h body ⟨⟩
    exact h
  have hnone : ∀ body ∈ (none : Option CString), P body := by
    rintro body ⟨⟩
  obtain ⟨type, key, val⟩ := req
  cases type with
  | getReq => exact absurd rfl hget
  | putReq =>
    refine .bind fun s => .ite ?_ (.pure (hsome hinvalid))
    cases key with
    | none => trivial
    | some key =>
      cases val with
      | none => trivial
      | some val => exact .ite (.bind fun _ => .bind fun _ => .pure (hsome hcommit)) (.pure (hsome (hmsg _)))
  | delReq =>
    refine .bind fun s => .ite ?_ (.pure (hsome hinvalid))
    cases key with
    | none => trivial
    | some key =>
      exact .bind fun _ => .ite (.bind fun _ => .bind fun _ => .pure (hsome hcommit)) (.pure (hsome (hmsg _)))
  | commit =>
    exact .bind fun s => .ite (.bind fun _ => .bind fun _ => .bind fun _ => .bind fun _ => .bind fun _ => .pure hnone) (.pure hnone)
  | abort => exact .bind fun s => .ite (.bind fun _ => .bind fun _ => .bind fun _ => .bind fun _ => .pure hnone) (.pure hnone)
  | _ => exact .pure hnone

/-- It is no longer than a value may be. -/
theorem handleTpc_short {req : KvRequest} (hget : req.type ≠ .getReq) :
    (handleTpc req).Yields fun res => ∀ body ∈ res.body, body.strlen ≤ maxVallen := by
  refine handleTpc_bodies (by decide) (by decide) (fun error => ?_) hget
  unfold getMsg
  split_ifs <;> decide

omit [StrHash] in
theorem resClient_complete (isCommit : Bool) : (resClient isCommit).Complete ∧ (resClient isCommit).Sendable ∧
    (∀ msg ∈ kvrequestSend (resClient isCommit), msg.length ≤ libhttpMessageMaxSize) := by
  refine ⟨by cases isCommit <;> trivial, ⟨by rintro _ ⟨⟩, by rintro _ ⟨⟩⟩, ?_⟩
  cases isCommit <;> decide

section

variable {leader : TpcLeader} {req : KvRequest} {net : Address → KvServer}

omit [StrHash] in
/-- An exchange that is answered. -/
theorem exchange_answered (handle : KvServer → Option KvResponse × KvServer) (a : Address) (net : Address → KvServer) :
    exchange handle .answered a net =
      (heard ((handle (net a)).1.bind KvResponse.received), Function.update net a (handle (net a)).2) := by
  rcases hhandle : handle (net a) with ⟨res, server⟩
  simp only [exchange, hhandle]
  cases res.bind KvResponse.received <;> rfl

/-- The exchanges of a `PUT` or `DELETE`. -/
theorem TpcCall.overWire_eq (hc : req.Complete) (hs : req.Sendable) (htype : req.type = .putReq ∨ req.type = .delReq)
    (hshort : req.Short) (s : TpcCall × (Address → KvServer)) :
    TpcCall.overWire leader req s = s.1.exchange leader req handleRequest .answered s.2 := by
  have hexchange : ∀ msg server, msg = req ∨ (∃ commit, msg = resClient commit) →
      Kv.overWire msg server = ((handleRequest msg server).1.bind KvResponse.received, (handleRequest msg server).2) := by
    rintro msg server (rfl | ⟨commit, rfl⟩)
    · have hget : msg.type ≠ .getReq := by rcases htype with h | h <;> rw [h] <;> decide
      have hindex : msg.type ≠ .index := by rcases htype with h | h <;> rw [h] <;> decide
      exact Kv.overWire_eq hc hs hindex hshort.1 (length_kvrequestSend_le (Or.inr htype) hshort)
        fun res hres => (handleTpc_short hget).run hres
    · obtain ⟨hc, hs, hlen⟩ := resClient_complete commit
      exact Kv.overWire_eq hc hs (by cases commit <;> decide) (by cases commit <;> decide) hlen
        fun res hres => (handleTpc_short (by cases commit <;> decide)).run hres
  obtain ⟨call, net⟩ := s
  unfold TpcCall.overWire TpcCall.exchange
  cases hasks : call.asks req with
  | none => rfl
  | some ask =>
    obtain ⟨pri, msg⟩ := ask
    have hmsg := TpcCall.asks_cases hasks
    simp only [hexchange msg _ hmsg, exchange_answered]

/-- Every follower's store can be read, and holds no value that is too long. -/
def Legible (net : Address → KvServer) : Prop :=
  ∀ a, (net a).store.Chained ∧ ∀ key value, (net a).store.contents key = some value → value.strlen ≤ maxVallen

/-- An exchange of a `GET`, which changes nothing. -/
theorem GetCall.overWire_eq (key : CString) (val : Option CString) (hs : KvRequest.Sendable ⟨.getReq, some key, val⟩)
    (hshort : KvRequest.Short ⟨.getReq, some key, val⟩) (hnet : Legible net) (call : GetCall) :
    GetCall.overWire leader ⟨.getReq, some key, val⟩ (call, net) =
        call.exchange leader ⟨.getReq, some key, val⟩ handleRequest .answered net ∧
      (call.exchange leader ⟨.getReq, some key, val⟩ handleRequest .answered net).2 = net := by
  unfold GetCall.overWire GetCall.exchange
  cases hasks : call.asks with
  | none => exact ⟨rfl, rfl⟩
  | some pri =>
    obtain ⟨hchained, hvalues⟩ := hnet (leader.nodes pri).address
    have hget := handle_get_eq hchained key val
    have hbody : ∀ res ∈ ((net (leader.nodes pri).address).handle ⟨.getReq, some key, val⟩).1, ∀ body ∈ res.body,
        body.strlen ≤ maxVallen := by
      rw [hget]
      rintro res ⟨⟩ body hbody
      rw [KvMap.get] at hbody
      split_ifs at hbody
      · obtain rfl := Option.some.inj hbody
        decide
      · split at hbody
        · next value hvalue =>
          obtain rfl := Option.some.inj hbody
          exact hvalues key value hvalue
        · obtain rfl := Option.some.inj hbody
          decide
    have hexchange := Kv.overWire_eq (show KvRequest.Complete ⟨.getReq, some key, val⟩ from Option.some_ne_none key) hs
      MsgType.noConfusion
      MsgType.noConfusion (length_kvrequestSend_le (Or.inl rfl) hshort) hbody
    simp only [hexchange, exchange_answered, true_and]
    rw [handleRequest, hget]
    exact Function.update_eq_self ..

/-- Any number of them. -/
theorem GetCall.overWire_iterate (key : CString) (val : Option CString) (hs : KvRequest.Sendable ⟨.getReq, some key, val⟩)
    (hshort : KvRequest.Short ⟨.getReq, some key, val⟩) (hnet : Legible net) (n : ℕ) (call : GetCall) :
    (GetCall.overWire leader ⟨.getReq, some key, val⟩)^[n] (call, net) =
      (fun s : GetCall × (Address → KvServer) =>
        s.1.exchange leader ⟨.getReq, some key, val⟩ handleRequest .answered s.2)^[n] (call, net) := by
  induction n generalizing call with
  | zero => rfl
  | succ n ih =>
    obtain ⟨hstep, hsame⟩ := @GetCall.overWire_eq _ leader _ key val hs hshort hnet call
    rw [Function.iterate_succ_apply, Function.iterate_succ_apply, hstep]
    generalize hnext : call.exchange leader ⟨.getReq, some key, val⟩ handleRequest .answered net = next at hsame
    obtain ⟨call', net'⟩ := next
    obtain rfl : net' = net := hsame
    exact ih call'

/-! ## A connection -/

omit [StrHash] in
/-- What a request of a client is about, if it is about a key. -/
def KvRequest.client? (req : KvRequest) : Option ClientRequest :=
  match req with
  | ⟨.getReq, some key, val⟩ => some (.get key val)
  | ⟨.putReq, some key, some value⟩ => some (.write ⟨⟨.putReq, some key, some value⟩, .put key value, rfl⟩)
  | ⟨.delReq, some key, val⟩ => some (.write ⟨⟨.delReq, some key, val⟩, .del key, rfl⟩)
  | _ => none

omit [StrHash] in
/-- What is to be written to a connection on which a request comes, and what becomes of the map. -/
def KvRequest.spec (m : KvMap) (req : KvRequest) : List Written × KvMap :=
  match req.client? with
  | some client => (sendResponse (client.spec m).1, (client.spec m).2)
  | none =>
    if req.type = .index then ([.index true], m)
    else (sendResponse ⟨.error, some (.ofString "unknown message type")⟩, m)

omit [StrHash] in
/-- No value in the map is too long. -/
def KvMap.Storable (m : KvMap) : Prop := ∀ key value, m key = some value → value.strlen ≤ maxVallen

omit [StrHash] in
/-- An operation that is allowed brings none. -/
theorem KvMap.Storable.apply {m : KvMap} (h : m.Storable) {u : Update} (hallowed : u.Allowed m) :
    KvMap.Storable (TwoPhase.Operations.apply u m) := by
  intro key value hvalue
  by_cases hkey : key = u.key
  · subst hkey
    cases u with
    | put key' value' =>
      obtain rfl : value' = value := Option.some.inj ((Function.update_self (f := m) ..).symm.trans hvalue)
      exact hallowed.2.2
    | del key' => cases (Function.update_self (f := m) ..).symm.trans hvalue
  · rw [Update.apply_of_ne hkey] at hvalue
    exact h key value hvalue

omit [StrHash] in
theorem KvMap.Storable.spec {m : KvMap} (h : m.Storable) (req : KvRequest) : (req.spec m).2.Storable := by
  unfold KvRequest.spec
  split
  · next client hclient =>
    cases client with
    | get key val => exact h
    | write w =>
      rw [ClientRequest.spec_write]
      split_ifs with hallowed
      · exact h.apply hallowed
      · exact h
  · split_ifs
    · exact h
    · exact h

/-- Followers that hold their parts of a map without too long values can be read. -/
theorem Replicates.legible {m : KvMap} (h : Replicates leader m net) (hm : m.Storable) : Legible net := by
  intro a
  refine ⟨(h a).chained, fun key value hvalue => ?_⟩
  rw [(h a).contents] at hvalue
  by_cases ha : a ∈ addresses leader key
  · rw [share_of_mem ha] at hvalue
    exact hm key value hvalue
  · rw [share_of_notMem ha] at hvalue
    cases hvalue

/-- The exchanges of a `GET` bring what the handler returns. -/
theorem getCall_returned {key : CString} {val : Option CString} {res : KvResponse} {net' : Address → KvServer}
    (h : (ClientRequest.get key val).handle leader net = (some res, net')) :
    GetCall.finish leader ⟨.getReq, some key, val⟩ net = (.returned res, net') := by
  simp only [ClientRequest.handle] at h
  split at h
  · next res' net'' heq =>
    obtain ⟨hres, hnet⟩ := Prod.mk.inj h
    rw [heq, Option.some.inj hres, hnet]
  · cases (Prod.mk.inj h).1

/-- So do those of a `PUT` or `DELETE`. -/
theorem tpcCall_returned {w : Write} {res : KvResponse} (h : ((ClientRequest.write w).handle leader net).1 = some res) :
    TpcCall.finish leader w.req net = (.returned res, ((ClientRequest.write w).handle leader net).2) := by
  simp only [ClientRequest.handle] at h ⊢
  split at h
  · next res' net'' heq =>
    rw [heq, Option.some.inj h]
  · cases h

/-- A `GET` over the wire. -/
theorem get_overWire {m : KvMap} (hfull : Full leader) (h : Replicates leader m net) (hm : m.Storable) (key : CString)
    (val : Option CString) (hs : KvRequest.Sendable ⟨.getReq, some key, val⟩) (hshort : KvRequest.Short ⟨.getReq, some key, val⟩) :
    (GetCall.overWire leader ⟨.getReq, some key, val⟩)^[leader.redundancy] (.start leader ⟨.getReq, some key, val⟩, net) =
      (.returned ((ClientRequest.get key val).spec m).1, net) := by
  rw [GetCall.overWire_iterate key val hs hshort (h.legible hm)]
  exact getCall_returned (handle_get hfull h key val)

/-- A `PUT` or `DELETE` over the wire. -/
theorem write_overWire {m : KvMap} (hfull : Full leader) (h : Replicates leader m net) (w : Write)
    (hnodup : (addresses leader w.op.key).Nodup) (hc : w.req.Complete) (hs : w.req.Sendable) (hshort : w.req.Short) :
    ∃ net', (TpcCall.overWire leader w.req)^[2 * leader.redundancy] (.start leader w.req, net) =
        (.returned ((ClientRequest.write w).spec m).1, net') ∧ Replicates leader ((ClientRequest.write w).spec m).2 net' := by
  obtain ⟨hres, hnext⟩ := handle_write hfull h w hnodup
  refine ⟨_, ?_, hnext⟩
  rw [← tpcCall_returned hres, funext (TpcCall.overWire_eq hc hs w.type_eq hshort)]
  rfl

/-- **What the leader does with a connection** on which it can decode a request, if that is no registration and, as far as
it is sent on, short. -/
theorem tpcleaderServe_eq {m : KvMap} (hfull : Full leader) (hnodup : ∀ key, (addresses leader key).Nodup)
    (h : Replicates leader m net) (hm : m.Storable) {pending : List UInt8} (hreq : kvrequestRecieve pending = .ok req)
    (hregister : req.type ≠ .register) (hshort : req.Forwarded → req.Short) :
    ∃ net', tpcleaderServe leader net pending = (⟨(req.spec m).1, false, leader⟩, net') ∧
      Replicates leader (req.spec m).2 net' := by
  obtain ⟨hc, hs⟩ : req.Complete ∧ req.Sendable := by
    rcases kvrequestRecieve_cases pending with hreject | ⟨req', hreq', hc, hs⟩
    · cases hreject.symm.trans hreq
    · obtain rfl := Parse.ok.inj (hreq.symm.trans hreq')
      exact ⟨hc, hs⟩
  have hrefused : ∀ key val type, req = ⟨type, key, val⟩ → type = .commit ∨ type = .abort →
      (TpcCall.overWire leader req)^[2 * leader.redundancy] (.start leader req, net) =
        (.returned ⟨.error, some (.ofString "unknown message type")⟩, net) := by
    rintro key val type rfl htype
    have hstart : TpcCall.start leader ⟨type, key, val⟩ = .returned ⟨.error, some (.ofString "unknown message type")⟩ := by
      have hother : ¬ (type = .putReq ∨ type = .delReq) := by rcases htype with rfl | rfl <;> decide
      rw [TpcCall.start, if_neg (not_not.mpr hfull.count), if_neg hother]
    rw [hstart]
    exact Function.iterate_fixed rfl _
  obtain ⟨type, key, val⟩ := req
  unfold tpcleaderServe
  rw [hreq]
  cases type with
  | index => exact ⟨net, rfl, h⟩
  | getReq =>
    obtain ⟨key, rfl⟩ := Option.ne_none_iff_exists'.mp hc
    have hget := get_overWire hfull h hm key val hs (hshort (Or.inl rfl))
    simp only [hget]
    exact ⟨net, rfl, h⟩
  | putReq =>
    obtain ⟨key, rfl⟩ := Option.ne_none_iff_exists'.mp hc.1
    obtain ⟨val, rfl⟩ := Option.ne_none_iff_exists'.mp hc.2
    obtain ⟨net', hput, hnext⟩ := write_overWire hfull h ⟨⟨.putReq, some key, some val⟩, .put key val, rfl⟩ (hnodup key) hc hs
      (hshort (Or.inr (Or.inl rfl)))
    simp only [hput]
    exact ⟨net', rfl, hnext⟩
  | delReq =>
    obtain ⟨key, rfl⟩ := Option.ne_none_iff_exists'.mp hc
    obtain ⟨net', hdel, hnext⟩ := write_overWire hfull h ⟨⟨.delReq, some key, val⟩, .del key, rfl⟩ (hnodup key) hc hs
      (hshort (Or.inr (Or.inr rfl)))
    simp only [hdel]
    exact ⟨net', rfl, hnext⟩
  | commit =>
    simp only [hrefused key val .commit rfl (Or.inl rfl)]
    exact ⟨net, rfl, h⟩
  | abort =>
    simp only [hrefused key val .abort rfl (Or.inr rfl)]
    exact ⟨net, rfl, h⟩
  | register => exact absurd rfl hregister
  | _ => exact hc.elim

end

/-! ## Any connections -/

omit [StrHash] in
/-- What is to be written to the connections of these requests, one after the other, and the map after them. -/
def KvMap.serveAll (m : KvMap) : List KvRequest → List (List Written) × KvMap
  | [] => ([], m)
  | req :: reqs =>
    let (written, m) := req.spec m
    let (rest, m) := KvMap.serveAll m reqs
    (written :: rest, m)

/-- One connection after the other. -/
theorem tpcleaderServeAll_eq {leader : TpcLeader} (hfull : Full leader) (hnodup : ∀ key, (addresses leader key).Nodup)
    {m : KvMap} {net : Address → KvServer} (h : Replicates leader m net) (hm : m.Storable) {connections : List (List UInt8)}
    {reqs : List KvRequest} (hreqs : connections.map kvrequestRecieve = reqs.map .ok)
    (hok : ∀ req ∈ reqs, req.type ≠ .register ∧ (req.Forwarded → req.Short)) :
    ∃ net', tpcleaderServeAll leader net connections = ((m.serveAll reqs).1, leader, net') ∧
      Replicates leader (m.serveAll reqs).2 net' := by
  induction connections generalizing m net reqs with
  | nil =>
    obtain rfl := List.map_eq_nil_iff.mp hreqs.symm
    exact ⟨net, rfl, h⟩
  | cons pending connections ih =>
    cases reqs with
    | nil => cases hreqs
    | cons req reqs =>
      obtain ⟨hreq, hrest⟩ := List.cons.inj hreqs
      obtain ⟨hregister, hshort⟩ := hok req (List.mem_cons_self ..)
      obtain ⟨net₁, hserve, h₁⟩ := tpcleaderServe_eq hfull hnodup h hm hreq hregister hshort
      obtain ⟨net₂, hall, h₂⟩ := ih h₁ (hm.spec req) hrest fun req hreq => hok req (List.mem_cons_of_mem _ hreq)
      refine ⟨net₂, ?_, h₂⟩
      simp only [tpcleaderServeAll, hserve, hall, KvMap.serveAll]

/-- **The system is a map, over the wire.** Followers with ids of their own, whose stores and logs are empty, have registered
with a leader that has room for just them. Clients open connections, one after the other, each with bytes that are a
request of any kind but a registration, and as far as it is sent on a short one. Then what the leader writes to each is
the encoded reply of one map, the leader goes on, and every follower holds the keys of which it is a replica, with
their values, and no others. -/
theorem wire_map (followers : List Address) (hne : 1 ≤ followers.length) (redundancy : ℕ) (hred : 1 ≤ redundancy)
    (hids : (followers.map fun a => a.offer.id).Nodup) (connections : List (List UInt8)) (reqs : List KvRequest)
    (hreqs : connections.map kvrequestRecieve = reqs.map .ok)
    (hok : ∀ req ∈ reqs, req.type ≠ .register ∧ (req.Forwarded → req.Short)) :
    let leader := leaderOf followers redundancy
    let spec := KvMap.serveAll (fun _ => none) reqs
    ∃ net, tpcleaderServeAll leader (fun _ => KvServer.start ⟨.empty⟩) connections = (spec.1, leader, net) ∧
      ∀ a, Quiescent (net a) (leader.share spec.2 a) := by
  intro leader spec
  have hfull : Full leader := full_leaderOf hne hred hids
  exact tpcleaderServeAll_eq hfull (fun key => addresses_nodup hfull key) (replicates_start leader) (by rintro _ _ ⟨⟩) hreqs hok

end

section

attribute [local instance] md5Sample

/-- A `PUT`, a `GET` of the same key, a request for the index page and a `DELETE`. -/
def fourConnections : List (List UInt8) :=
  [lit "PUT /?key=a&val=1 HTTP/1.1\r\n\r\n", lit "GET /?key=a ", lit "GET / ", lit "DELETE /?key=a "]

/-- What they ask for. -/
def fourRequests : List KvRequest :=
  [putA "1", ⟨.getReq, some (.ofString "a"), none⟩, ⟨.index, none, none⟩, ⟨.delReq, some (.ofString "a"), none⟩]

/-- `wire_map` for them. -/
theorem wire_map_four :
    let leader := leaderOf twoFollowers 2
    let spec := KvMap.serveAll (fun _ => none) fourRequests
    ∃ net, tpcleaderServeAll leader (fun _ => KvServer.start ⟨.empty⟩) fourConnections = (spec.1, leader, net) ∧
      ∀ a, Quiescent (net a) (leader.share spec.2 a) :=
  wire_map twoFollowers (by decide) 2 (by decide) (by decide +kernel) fourConnections fourRequests (by decide +kernel)
    (by decide)

end

end Cs162Hw.Kv
