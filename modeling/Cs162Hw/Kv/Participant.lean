import Cs162Hw.Library.TwoPhase
import Cs162Hw.Kv.Handler

/-!
# A follower is a participant

The follower of `Server.lean`, with its directory, its log and its state, against
the participant of two-phase commit (`Library.TwoPhase`): a map and at most one
pending `PUT` or `DELETE`.

* `Participant.respond` is what a participant answers, with the texts of the source.
* `Refines server p`: the follower `server` stands for the participant `p`. What is
  pending is on disk only, as the one record of the log, and `state` says whether
  there is one.
* `handle_refines` — one message — and `restart_refines` — a crash and `kvserver_init`.
* **`serve_refines`**: over any sequence of messages and restarts the follower answers
  as the participant does, and its state tells what its log holds.
-/

namespace Cs162Hw.Kv

open Library
open Library.Program (Performs)
open Library.TwoPhase (Operations Participant Message)
open Library.TwoPhase.Operations (apply)

/-! ## The participant's answers -/

/-- What a follower can be asked. -/
inductive Input where
  /-- A message of the protocol. -/
  | tpc (m : Message Update)
  /-- The value of a key. -/
  | get (key : CString)
  /-- Anything else. -/
  | other

/-- What a request asks for; nothing if it lacks a string its type has, which no request
that `kvrequest_recieve` returns does. -/
def KvRequest.input? : KvRequest → Option Input
  | ⟨.putReq, some key, some value⟩ => some (.tpc (.prepare (.put key value)))
  | ⟨.delReq, some key, _⟩ => some (.tpc (.prepare (.del key)))
  | ⟨.commit, _, _⟩ => some (.tpc .commit)
  | ⟨.abort, _, _⟩ => some (.tpc .abort)
  | ⟨.getReq, some key, _⟩ => some (.get key)
  | ⟨.putReq, _, _⟩ => none
  | ⟨.delReq, _, _⟩ => none
  | ⟨.getReq, _, _⟩ => none
  | _ => some .other

/-- What a request asks for goes by its type. -/
theorem input?_cases {req : KvRequest} {input : Input} (h : req.input? = some input) :
    (∃ u, input = .tpc (.prepare u) ∧ req.update? = some u) ∨
      (∃ commit : Bool, input = .tpc (TwoPhase.decision commit) ∧ req.type = if commit then .commit else .abort) ∨
      (∃ key val, input = .get key ∧ req = ⟨.getReq, some key, val⟩) ∨
      (input = .other ∧ req.update? = none ∧ req.type ≠ .commit ∧ req.type ≠ .abort ∧ req.type ≠ .getReq) := by
  obtain ⟨type, key, val⟩ := req
  cases type with
  | putReq =>
    rcases key with _ | key
    · cases h
    rcases val with _ | value
    · cases h
    · exact Or.inl ⟨.put key value, (Option.some.inj h).symm, rfl⟩
  | delReq =>
    rcases key with _ | key
    · cases h
    · exact Or.inl ⟨.del key, (Option.some.inj h).symm, rfl⟩
  | commit => exact Or.inr (Or.inl ⟨true, (Option.some.inj h).symm, rfl⟩)
  | abort => exact Or.inr (Or.inl ⟨false, (Option.some.inj h).symm, rfl⟩)
  | getReq =>
    rcases key with _ | key
    · cases h
    · exact Or.inr (Or.inr (Or.inl ⟨key, val, (Option.some.inj h).symm, rfl⟩))
  | _ => exact Or.inr (Or.inr (Or.inr ⟨(Option.some.inj h).symm, rfl, nofun, nofun, nofun⟩))

/-- The answer to a `GET` on the map `m`. -/
def KvMap.get (m : KvMap) (key : CString) : KvResponse :=
  if key.strlen > maxKeylen then ⟨.error, some (getMsg errKeyLen)⟩
  else match m key with
    | some value => ⟨.getResp, some value⟩
    | none => ⟨.error, some (getMsg errNoKey)⟩

/-- A participant that holds a map. -/
abbrev MapParticipant := Participant Update KvMap

/-- What a participant answers: to a `PUT` or `DELETE` its vote, with the reason if it
declines, or an error if something is pending; to a decision an acknowledgement. -/
def respond : Input → MapParticipant → KvResponse
  | .tpc (.prepare u), p =>
    match p.pending with
    | some _ => ⟨.error, some errmsgInvalidRequest⟩
    | none => ⟨.vote, some (if u.checkCode p.data = 0 then msgCommit else getMsg (u.checkCode p.data))⟩
  | .tpc .commit, _ => ⟨.ack, none⟩
  | .tpc .abort, _ => ⟨.ack, none⟩
  | .get key, p => p.data.get key
  | .other, _ => .blank

/-- The participant after it. -/
def accept : Input → MapParticipant → MapParticipant
  | .tpc m, p => (p.receive m).2
  | .get _, p => p
  | .other, p => p

/-- The answer says what the protocol is told: a vote to commit, or an acknowledgement. -/
theorem respond_prepare_body (u : Update) (p : MapParticipant) :
    (respond (.tpc (.prepare u)) p).body = some msgCommit ↔ (p.receive (.prepare u)).1 = true := by
  obtain ⟨m, pending⟩ := p
  cases pending with
  | some v => simp only [respond, Participant.receive]; decide
  | none =>
    simp only [respond, Participant.receive, Operations.check, decide_eq_true_iff]
    split_ifs with h
    · simp
    · simpa using getMsg_ne_msgCommit _

/-! ## The abstraction -/

section

variable [StrHash]

/-- Nothing is pending at the follower, and its store represents `m`. -/
structure Quiescent (server : KvServer) (m : KvMap) : Prop where
  chained : server.store.Chained
  contents : server.store.contents = m
  /-- There is no log file. -/
  log : server.log = .holding [] server.log.iterpos
  state : server.state = .init ∨ server.state = .wait

/-- The follower has agreed to `u` and not heard about it; its store represents `m`. -/
structure Prepared (server : KvServer) (u : Update) (m : KvMap) : Prop where
  chained : server.store.Chained
  contents : server.store.contents = m
  /-- The log is the record of `u`. -/
  log : server.log = .holding [some u.record] server.log.iterpos
  state : server.state = .ready
  /-- It was right to agree. -/
  agreed : u.checkCode m = 0

/-- The follower stands for the participant. -/
def Refines (server : KvServer) (p : MapParticipant) : Prop :=
  match p.pending with
  | none => Quiescent server p.data
  | some u => Prepared server u p.data

variable {server : KvServer} {p : MapParticipant}

theorem Quiescent.state_ne {m : KvMap} (h : Quiescent server m) : server.state ≠ .ready := by
  rcases h.state with h | h <;> rw [h] <;> decide

theorem Refines.chained (h : Refines server p) : server.store.Chained := by
  obtain ⟨m, _ | u⟩ := p
  · exact Quiescent.chained h
  · exact Prepared.chained h

theorem Refines.contents (h : Refines server p) : server.store.contents = p.data := by
  obtain ⟨m, _ | u⟩ := p
  · exact Quiescent.contents h
  · exact Prepared.contents h

/-- The state tells whether anything is pending. -/
theorem Refines.state_eq_ready_iff (h : Refines server p) : server.state = .ready ↔ p.pending.isSome := by
  obtain ⟨m, _ | u⟩ := p
  · exact iff_of_false (Quiescent.state_ne h) (by simp)
  · exact iff_of_true (Prepared.state h) rfl

/-- A follower's store and log, as `Quiescent` wants them. -/
theorem quiescent_mk {store : KvStore} {m : KvMap} (hc : store.Chained) (hm : store.contents = m) (pos : ℕ)
    {state : TpcState} (hs : state = .init ∨ state = .wait) : Quiescent ⟨store, .holding [] pos, state⟩ m :=
  ⟨hc, hm, rfl, hs⟩

/-! ### One message -/

/-- A `PUT` or `DELETE`. -/
theorem handle_prepare_refines (h : Refines server p) {req : KvRequest} {u : Update} (hreq : req.update? = some u) :
    (server.handle req).1 = some (respond (.tpc (.prepare u)) p) ∧
      Refines (server.handle req).2 (accept (.tpc (.prepare u)) p) := by
  obtain ⟨m, _ | v⟩ := p
  · obtain ⟨hc, hm, hlog, hstate⟩ : Quiescent server m := h
    subst hm
    by_cases hcheck : u.checkCode server.store.contents = 0
    · have happend : Appends tpclogLog server.log u.record _ _ := hlog ▸ appends_tpclogLog [] _ u.record
      have hrun := (handleTpc_agree hreq hstate hc hcheck happend).run_eq
      have hrecv : accept (.tpc (.prepare u)) ⟨server.store.contents, none⟩ = ⟨server.store.contents, some u⟩ := by
        simp [accept, Participant.receive, Operations.check, hcheck]
      rw [hrecv, KvServer.handle, handleTpc, hrun]
      exact ⟨by simp [respond, hcheck], hc, rfl, rfl, rfl, hcheck⟩
    · have hrun := (handleTpc_decline tpclogLog hreq hstate hc hcheck).run_eq
      have hrecv : accept (.tpc (.prepare u)) ⟨server.store.contents, none⟩ = ⟨server.store.contents, none⟩ := by
        simp [accept, Participant.receive, Operations.check, hcheck]
      rw [hrecv, KvServer.handle, handleTpc, hrun]
      exact ⟨by simp [respond, hcheck], hc, rfl, hlog, hstate⟩
  · have hrun := (handleTpc_busy tpclogLog hreq (Prepared.state h)).run_eq
    rw [KvServer.handle, handleTpc, hrun]
    exact ⟨rfl, h⟩

/-- A decision. -/
theorem handle_decision_refines (h : Refines server p) {req : KvRequest} (commit : Bool)
    (hreq : req.type = if commit then .commit else .abort) :
    (server.handle req).1 = some ⟨.ack, none⟩ ∧
      Refines (server.handle req).2 (accept (.tpc (TwoPhase.decision commit)) p) := by
  obtain ⟨m, _ | u⟩ := p
  · have hreq' : req.type = .commit ∨ req.type = .abort := by cases commit <;> simp_all
    have hrun := (handleTpc_decision_idle tpclogLog hreq' (Quiescent.state_ne h)).run_eq
    rw [KvServer.handle, handleTpc, hrun]
    refine ⟨rfl, ?_⟩
    rw [accept, TwoPhase.receive_decision_of_none commit rfl]
    exact h
  · obtain ⟨hc, rfl, hlog, hstate, hagreed⟩ : Prepared server u m := h
    have happend : Appends tpclogLog server.log (decisionRecord commit) _ _ := hlog ▸ appends_tpclogLog [_] _ _
    cases commit with
    | true =>
      obtain ⟨lo, hlo, hperf⟩ := handleTpc_commit (by simpa using hreq) hstate
        (Update.valid_of_checkCode hagreed) hc happend rfl
      rw [KvServer.handle, handleTpc, hperf.run_eq]
      exact ⟨rfl, quiescent_mk hlo.chained hlo.applied 2 (Or.inr rfl)⟩
    | false =>
      have hrun := (handleTpc_abort (l := [some u.record, some (decisionRecord false)]) (by simpa using hreq)
        hstate happend rfl).run_eq
      rw [KvServer.handle, handleTpc, hrun]
      exact ⟨rfl, quiescent_mk hc rfl _ (Or.inr rfl)⟩

/-- A `GET`. -/
theorem handle_get_eq (hc : server.store.Chained) (key : CString) (val : Option CString) :
    server.handle ⟨.getReq, some key, val⟩ = (some (server.store.contents.get key), server) := by
  have hrun : ∀ {code : Int} {body : Option CString}, kvserverGet server key = (code, body) →
      server.handle ⟨.getReq, some key, val⟩ =
        (some (if code ≠ 0 then ⟨.error, some (getMsg code)⟩ else ⟨.getResp, body⟩), server) := by
    intro code body h
    have := (handleTpc_get tpclogLog server key val).run_eq
    rwa [h] at this
  by_cases hlen : key.strlen > maxKeylen
  · rw [hrun (by rw [kvserverGet, if_pos hlen]), KvMap.get, if_pos hlen, if_pos (by decide)]
  · have hget := hc.kvstoreGet_eq key
    rw [if_neg hlen] at hget
    rw [KvMap.get, if_neg hlen]
    cases hm : server.store.contents key with
    | some v => rw [hrun (by rw [kvserverGet, if_neg hlen, hget, hm]), if_neg (by decide)]
    | none => rw [hrun (by rw [kvserverGet, if_neg hlen, hget, hm]), if_pos (by decide)]

/-- What is no message of the protocol and no `GET` is not answered at all. -/
theorem handleTpc_blank (append : MsgType → Option CString → Option CString → Program LogOp TpcLog Int)
    (server : KvServer) {req : KvRequest} (hin : req.input?.isSome) (hu : req.update? = none)
    (hd : ¬ (req.type = .commit ∨ req.type = .abort))
    (hget : req.type ≠ .getReq) : Performs (kvserverHandleTpc (fileCalls append) req) server [] .blank server := by
  obtain ⟨type, key, val⟩ := req
  cases type
  case putReq => rcases key with _ | key <;> rcases val with _ | val <;> simp [KvRequest.input?, KvRequest.update?] at hin hu
  case delReq => rcases key with _ | key <;> simp [KvRequest.input?, KvRequest.update?] at hin hu
  case commit => exact absurd (Or.inl rfl) hd
  case abort => exact absurd (Or.inr rfl) hd
  case getReq => exact absurd rfl hget
  all_goals exact .pure _ _

/-- What asks for no operation and brings no decision gets no vote, and nothing is done. -/
theorem handleTpc_quiet (append : MsgType → Option CString → Option CString → Program LogOp TpcLog Int)
    (server : KvServer) {req : KvRequest} (hin : req.input?.isSome) (hu : req.update? = none)
    (hd : ¬ (req.type = .commit ∨ req.type = .abort)) :
    ∃ res, Performs (kvserverHandleTpc (fileCalls append) req) server [] res server ∧ res.type ≠ .vote := by
  by_cases hget : req.type = .getReq
  · obtain ⟨type, key, val⟩ := req
    obtain rfl : type = .getReq := hget
    cases key with
    | none => cases hin
    | some key =>
      refine ⟨_, handleTpc_get append server key val, ?_⟩
      split_ifs <;> simp
  · exact ⟨_, handleTpc_blank append server hin hu hd hget, by decide⟩

/-- **One message**: the follower answers as the participant does, and stands for what
becomes of it. -/
theorem handle_refines (h : Refines server p) {req : KvRequest} {input : Input} (hin : req.input? = some input) :
    (server.handle req).1 = some (respond input p) ∧ Refines (server.handle req).2 (accept input p) := by
  rcases input?_cases hin with ⟨u, rfl, hu⟩ | ⟨commit, rfl, hreq⟩ | ⟨key, val, rfl, rfl⟩ | ⟨rfl, hu, hcommit, habort, hget⟩
  · exact handle_prepare_refines h hu
  · obtain ⟨hres, hnext⟩ := handle_decision_refines h commit hreq
    exact ⟨by rw [hres]; cases commit <;> rfl, hnext⟩
  · rw [handle_get_eq h.chained, h.contents]
    exact ⟨rfl, h⟩
  · have hrun := handleTpc_blank tpclogLog server (Option.isSome_iff_exists.mpr ⟨_, hin⟩) hu (not_or.mpr ⟨hcommit, habort⟩) hget
    rw [KvServer.handle, handleTpc, hrun.run_eq]
    exact ⟨rfl, h⟩

/-! ### A restart -/

/-- `kvserver_init` returns after a crash between two messages, and the follower stands for what it stood for. -/
theorem init_refines (h : Refines server p) : ∃ t, kvserverInit.run server.crash = (some 0, t) ∧ Refines t p := by
  obtain ⟨m, _ | u⟩ := p
  · obtain ⟨hc, rfl, hlog, -⟩ : Quiescent server m := h
    have hinit := kvserverInit_performs (s := server.crash) (l := []) (by rw [KvServer.crash, hlog]; rfl)
      rebuildEnd_none_performs
    exact ⟨_, hinit.run_eq, quiescent_mk hc rfl _ (Or.inl rfl)⟩
  · obtain ⟨hc, rfl, hlog, hstate, hagreed⟩ : Prepared server u m := h
    have hinit := kvserverInit_performs (s := server.crash) (l := [some u.record])
      (by rw [KvServer.crash, hlog]; rfl) rebuildEnd_record_performs
    exact ⟨_, hinit.run_eq, hc, rfl, rfl, rfl, hagreed⟩

/-- A crash between two messages, and `kvserver_init`, change nothing. -/
theorem restart_refines (h : Refines server p) : Refines server.restart p := by
  obtain ⟨t, hrun, ht⟩ := init_refines h
  rw [KvServer.restart, hrun]
  exact ht

/-! ## Runs -/

/-- What happens to a follower. -/
inductive FollowerEvent where
  /-- A request is handled to the end. -/
  | message (req : KvRequest)
  /-- A crash between two requests, and a restart. -/
  | restart

/-- The answers a follower gives in a sequence of events, and the follower after it. -/
def KvServer.serve (server : KvServer) : List FollowerEvent → List (Option KvResponse) × KvServer
  | [] => ([], server)
  | .message req :: events =>
    let (res, server') := server.handle req
    let (rest, server'') := server'.serve events
    (res :: rest, server'')
  | .restart :: events => server.restart.serve events

/-- The answers a participant gives in the same sequence, to which a restart means
nothing, and the participant after it. -/
def specServe (p : MapParticipant) : List FollowerEvent → List KvResponse × MapParticipant
  | [] => ([], p)
  | .message req :: events =>
    let input := req.input?.getD .other
    let (rest, p') := specServe (accept input p) events
    (respond input p :: rest, p')
  | .restart :: events => specServe p events

/-- Every request of the sequence has the strings its type has. -/
def Received (events : List FollowerEvent) : Prop :=
  ∀ req, FollowerEvent.message req ∈ events → req.input?.isSome

omit [StrHash] in
theorem Received.tail {e : FollowerEvent} {events : List FollowerEvent} (h : Received (e :: events)) :
    Received events :=
  fun req hreq => h req (List.mem_cons_of_mem _ hreq)

/-- Over a sequence of events the follower goes on standing for the participant. -/
theorem serve_simulates (h : Refines server p) {events : List FollowerEvent} (hev : Received events) :
    (server.serve events).1 = (specServe p events).1.map some ∧
      Refines (server.serve events).2 (specServe p events).2 := by
  induction events generalizing server p with
  | nil => exact ⟨rfl, h⟩
  | cons e events ih =>
    cases e with
    | message req =>
      obtain ⟨input, hin⟩ := Option.isSome_iff_exists.mp (hev req List.mem_cons_self)
      obtain ⟨hres, hnext⟩ := handle_refines h hin
      obtain ⟨hrest, hlast⟩ := ih hnext hev.tail
      simp only [KvServer.serve, specServe, hin, Option.getD_some]
      exact ⟨by rw [hres, hrest]; rfl, hlast⟩
    | restart => exact ih (restart_refines h) hev.tail

/-- A follower started on a directory that holds a store and no log. -/
def KvServer.start (store : KvStore) : KvServer := KvServer.restart ⟨store, ⟨.empty, 0, 0⟩, .init⟩

theorem start_refines {store : KvStore} (hc : store.Chained) : Refines (KvServer.start store) ⟨store.contents, none⟩ := by
  have hq : Refines ⟨store, ⟨.empty, 0, 0⟩, .init⟩ (⟨store.contents, none⟩ : MapParticipant) :=
    ⟨hc, rfl, by simp [TpcLog.holding, Directory.ofList_nil], Or.inl rfl⟩
  exact restart_refines hq

/-- **A follower is a participant.** Started on any chained store with no log, over any
sequence of requests and restarts, a follower answers what the participant answers, its
store represents the participant's map, it is in `TPC_READY` exactly when the log is the one
record of the pending operation, and in `TPC_INIT` or `TPC_WAIT` exactly when the log is
empty. -/
theorem serve_refines (store : KvStore) (hc : store.Chained) (events : List FollowerEvent) (hev : Received events) :
    let (responses, server) := (KvServer.start store).serve events
    let (expected, p) := specServe ⟨store.contents, none⟩ events
    responses = expected.map some ∧ server.store.contents = p.data ∧
      (server.state = .ready ↔ ∃ u, p.pending = some u ∧ server.log.files = .ofList [some u.record]) ∧
      (server.state = .init ∨ server.state = .wait ↔ server.log.files = .empty) ∧
      (p.pending = none ↔ server.log.files = .empty) := by
  obtain ⟨hres, href⟩ := serve_simulates (start_refines hc) hev
  refine ⟨hres, href.contents, ?_⟩
  generalize ((KvServer.start store).serve events).2 = server at href
  generalize (specServe ⟨store.contents, none⟩ events).2 = p at href
  obtain ⟨m, _ | u⟩ := p
  · obtain ⟨-, -, hlog, hstate⟩ : Quiescent server m := href
    have hempty : server.log.files = .empty := by rw [hlog]; exact Directory.ofList_nil
    refine ⟨iff_of_false ?_ (by simp), iff_of_true hstate hempty, iff_of_true rfl hempty⟩
    rcases hstate with h | h <;> rw [h] <;> decide
  · obtain ⟨-, -, hlog, hstate, -⟩ : Prepared server u m := href
    have hfiles : server.log.files = .ofList [some u.record] := by rw [hlog]; rfl
    have hne : server.log.files ≠ .empty := by
      intro h
      have := congrArg (fun d => d.stat 0) (hfiles.symm.trans h)
      simp at this
    refine ⟨iff_of_true hstate ⟨u, rfl, hfiles⟩, iff_of_false ?_ hne, iff_of_false (by simp) hne⟩
    rw [hstate]
    decide

end

section

attribute [local instance] md5Sample

/-- `PUT a 1` and a restart; a `PUT` that is declined; the `COMMIT` and a restart; `GET a`. -/
theorem serve_refines_put :
    let events : List FollowerEvent := [.message (putA "1"), .restart, .message (putA "2"), .message ⟨.commit, none, none⟩,
      .restart, .message ⟨.getReq, some (.ofString "a"), none⟩]
    let (responses, server) := (KvServer.start ⟨.empty⟩).serve events
    let (expected, p) := specServe ⟨KvStore.contents ⟨.empty⟩, none⟩ events
    responses = expected.map some ∧ server.store.contents = p.data ∧
      (server.state = .ready ↔ ∃ u, p.pending = some u ∧ server.log.files = .ofList [some u.record]) ∧
      (server.state = .init ∨ server.state = .wait ↔ server.log.files = .empty) ∧
      (p.pending = none ↔ server.log.files = .empty) := by
  intro events
  exact serve_refines ⟨.empty⟩ KvStore.chained_empty events (by simp [events, Received, KvRequest.input?, putA])

end

end Cs162Hw.Kv
