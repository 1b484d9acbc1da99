import Cs162Hw.Library.Dialogue
import Cs162Hw.Kv.Wire
import Cs162Hw.Kv.LeaderCalls

/-!
# Connections

What the servers do with a connection they accept: `kvserver_handle` and `tpcleader_handle`, from the bytes
that are pending at the socket to the bytes that are written to it.

A connection is handled *properly* if the process goes on and exactly one reply is written, and if what is no
request is answered `ERROR` and changes nothing.

* `kvserverHandle_proper_iff`: a follower does so unless it is asked to register somebody, or told to commit over
  a damaged log. The handler for two-phase commit has no branch for `REGISTER`, and `do_log` follows the `NULL`
  that a damaged record is loaded as.
* `tpcleaderHandle_proper_iff`: a leader does so if it is sent a request, and one about a key only if it has room
  for followers. It prints the request before it tests whether there is one.

The exchanges of a `GET` or an update come to an end (`GetCall.after_returned`, `TpcCall.after_returned`) because
each of them leaves fewer to be made.
-/

namespace Cs162Hw.Kv

open Library
open Library.Program (read perform Performs Lives)
open Library.TwoPhase (Reply)

/-! ## What is written -/

/-- What is written to a connection. -/
inductive Written where
  /-- The index page, of a leader or of a follower. -/
  | index (leader : Bool)
  /-- A message. -/
  | message (msg : List UInt8)
  deriving DecidableEq

/-- What a server has done with a connection. -/
structure Served (σ : Type) where
  /-- What was written to it, in order. -/
  written : List Written
  /-- Has the process died? -/
  died : Bool
  /-- The server. -/
  server : σ

/-- `kvresponse_send` on the connection. -/
def sendResponse (res : KvResponse) : List Written := (kvresponseSend res).toList.map .message

/-- The answer to what is no request. -/
def invalidRequest : KvResponse := ⟨.error, some errmsgInvalidRequest⟩

section

variable [StrHash]

/-- `kvserver_handle`. -/
def kvserverHandle (server : KvServer) (pending : List UInt8) : Served KvServer :=
  match kvrequestRecieve pending with
  | .fault => ⟨[], true, server⟩
  | .reject => ⟨sendResponse invalidRequest, false, server⟩
  | .ok req =>
    if req.type = .index then ⟨[.index false], false, server⟩
    else
      match server.handle req with
      | (some res, server) => ⟨sendResponse res, false, server⟩
      | (none, server) => ⟨[], true, server⟩

/-! ## The leader's exchanges -/

/-- What the exchanges of a handler bring, in order: the response to the message sent to the node. -/
abbrev Answers := ℕ → ℕ → KvRequest → KvResponse

/-- A decision is acknowledged. -/
def Answers.Acknowledging (answers : Answers) : Prop :=
  ∀ k node msg, msg.type = .commit ∨ msg.type = .abort → (answers k node msg).type = .ack

/-- `tpcleader_handle_tpc` after `n` exchanges. -/
def TpcCall.after (leader : TpcLeader) (req : KvRequest) (answers : Answers) (n : ℕ) : TpcCall :=
  converse (asks req) (resume leader req) (fun k ask => .answered (answers k ask.1 ask.2)) (start leader req) n

/-- `tpcleader_handle_get` after `n` exchanges. -/
def GetCall.after (leader : TpcLeader) (req : KvRequest) (answers : Answers) (n : ℕ) : GetCall :=
  converse asks (resume leader) (fun k node => .answered (answers k node req)) (start leader req) n

/-- `tpcleader_handle`, when as many as `n` exchanges have been completed. -/
def tpcleaderHandle (leader : TpcLeader) (answers : Answers) (n : ℕ) (pending : List UInt8) : Served TpcLeader :=
  match kvrequestRecieve pending with
  | .fault => ⟨[], true, leader⟩
  -- the first `printf` follows the `NULL`, before it is tested
  | .reject => ⟨[], true, leader⟩
  | .ok req =>
    if req.type = .index then ⟨[.index true], false, leader⟩
    else if req.type = .register then
      match tpcleaderRegister leader req with
      | (some res, leader) => ⟨sendResponse res, false, leader⟩
      | (none, leader) => ⟨[], true, leader⟩
    else if req.type = .getReq then
      match GetCall.after leader req answers n with
      | .ask _ _ => ⟨[], false, leader⟩
      | .returned res => ⟨sendResponse res, false, leader⟩
      | .faulted => ⟨[], true, leader⟩
    else
      match TpcCall.after leader req answers n with
      | .poll _ _ _ | .decide _ _ _ _ => ⟨[], false, leader⟩
      | .returned res => ⟨sendResponse res, false, leader⟩
      | .faulted => ⟨[], true, leader⟩

/-! ## One reply -/

/-- The process goes on, and exactly one reply was written: the index page, or a response. -/
def Served.RepliesOnce {σ : Type} (served : Served σ) : Prop :=
  served.died = false ∧ ((∃ leader, served.written = [.index leader]) ∨
    ∃ res msg, kvresponseSend res = some msg ∧ served.written = [.message msg])

/-! ## When the follower's handler dies -/

omit [StrHash] in
theorem tpclogLog_lives {type : MsgType} {key value : Option CString} (h : (LogEntry.make type key value).isSome) :
    (tpclogLog type key value).Lives := by
  obtain ⟨entry, hentry⟩ := Option.isSome_iff_exists.mp h
  refine .ite (fun _ => .pure _) fun _ => .read_bind fun log => .ite (fun _ => .pure _) fun _ => ?_
  rw [hentry]
  exact .perform_bind (.perform_bind (.pure _))

omit [StrHash] in
theorem tpclogClearLog_lives : tpclogClearLog.Lives := by
  have hloop : ∀ fuel count, (tpclogClearFrom fuel count).Lives := by
    intro fuel
    induction fuel with
    | zero => exact fun _ => .pure _
    | succ fuel ih =>
      exact fun count => .read_bind fun log => .ite (fun _ => .perform_bind (ih _)) fun _ => .pure _
  exact .read_bind fun log => .bind (hloop _ _) fun _ => .perform_bind (.pure _)

theorem kvserverPut_lives (key value : CString) : (kvserverPut key value).Lives := by
  refine .ite (fun _ => .pure _) fun _ => .lift (.ite (fun _ => .pure _) fun _ => .read_bind fun store => ?_)
  exact .read_bind fun store => .perform_bind (.pure _)

theorem kvserverDel_lives (key : CString) : (kvserverDel key).Lives := by
  refine .read_bind fun server => .ite (fun _ => .pure _) fun _ =>
    .lift (.read_bind fun store => .ite (fun _ => .pure _) fun _ => ?_)
  exact .read_bind fun store => .ite (fun _ => .perform_bind (.pure _)) fun _ => .perform_bind (.pure _)

omit [StrHash] in
/-- `do_log` can carry out what the record says: there is one, and that of a `PUT` has a value. -/
def Redoable : Option LogEntry → Prop
  | none => False
  | some entry => entry.type = .putReq → (parseLog entry.data entry.length).isSome

theorem redo_lives {r : Option LogEntry} (h : Redoable r) : (redo r).Lives := by
  cases r with
  | none => exact h.elim
  | some entry =>
    refine .ite (fun hput => ?_) fun _ => .ite (fun _ => .bind (kvserverDel_lives _) fun _ => .pure _) fun _ => .pure _
    obtain ⟨value, hvalue⟩ := Option.isSome_iff_exists.mp (h hput)
    rw [hvalue]
    exact .bind (kvserverPut_lives _ _) fun _ => .pure _

theorem redo_fault {r : Option LogEntry} (h : ¬ Redoable r) : redo r = .fault := by
  cases r with
  | none => rfl
  | some entry =>
    obtain ⟨hput, hvalue⟩ := Classical.not_imp.mp h
    rw [redo, if_pos hput, Option.not_isSome_iff_eq_none.mp hvalue]

omit [StrHash] in
/-- What is done to the store leaves the log as it is. -/
theorem onStore_log {α : Type} (p : Program StoreOp KvStore α) (s : KvServer) : ((onStore p).run s).2.log = s.log := by
  induction p generalizing s with
  | ret a => rfl
  | fault => rfl
  | step o k ih =>
    refine (ih s.store _).trans ?_
    cases o <;> rfl

theorem redo_log (r : Option LogEntry) (s : KvServer) : ((redo r).run s).2.log = s.log := by
  have hdrop : ∀ p : ServerProgram Int, (p.run s).2.log = s.log → ((p >>= fun _ => pure ()).run s).2.log = s.log := by
    intro p hp
    rw [Program.run_bind]
    rcases hrun : p.run s with ⟨_ | a, t⟩ <;> rw [hrun] at hp <;> exact hp
  cases r with
  | none => rfl
  | some entry =>
    simp only [redo]
    split_ifs
    · cases parseLog entry.data entry.length with
      | none => rfl
      | some value =>
        refine hdrop _ ?_
        simp only [kvserverPut]
        split_ifs
        · rfl
        · exact onStore_log _ s
    · refine hdrop _ ?_
      show (Program.run (if kvserverDelCheck s (.read entry.data) < 0 then pure (kvserverDelCheck s (.read entry.data))
        else onStore (kvstoreDel (.read entry.data))) s).2.log = s.log
      split_ifs
      · rfl
      · exact onStore_log _ s
    · rfl

omit [StrHash] in
theorem tpclogIterateNext_run {s : KvServer} (h : s.log.files.stat s.log.iterpos = true) :
    (onLog tpclogIterateNext).run s =
      (some (tpclogLoadEntry s.log s.log.iterpos), { s with log := { s.log with iterpos := s.log.iterpos + 1 } }) := by
  have hnext : Performs tpclogIterateNext s.log [.setIterpos (s.log.iterpos + 1)] (tpclogLoadEntry s.log s.log.iterpos)
      { s.log with iterpos := s.log.iterpos + 1 } :=
    .read_bind (.ite_neg (by simpa [tpclogIterateHasNext] using h) (.perform_bind (.pure _ _)))
  exact (onLog_performs hnext).run_eq

/-- The loop of `do_log` gets to its end if every record it gets to can be redone. -/
theorem doLogFrom_isSome_iff (fuel : ℕ) (s : KvServer) : ((doLogFrom fuel).run s).1.isSome ↔
    ∀ i < fuel, (∀ j ≤ i, s.log.files.stat (s.log.iterpos + j) = true) → Redoable (tpclogLoadEntry s.log (s.log.iterpos + i)) := by
  induction fuel generalizing s with
  | zero => exact ⟨fun _ _ hi => absurd hi (Nat.not_lt_zero _), fun _ => rfl⟩
  | succ fuel ih =>
    have hunfold : (doLogFrom (fuel + 1)).run s = Program.run (if tpclogIterateHasNext s.log then
        (onLog tpclogIterateNext >>= fun iter => redo iter >>= fun _ => doLogFrom fuel) else pure ()) s := rfl
    rw [hunfold]
    by_cases hnext : s.log.files.stat s.log.iterpos = true
    · rw [if_pos (by simpa [tpclogIterateHasNext] using hnext), Program.run_bind, tpclogIterateNext_run hnext]
      simp only
      by_cases hredo : Redoable (tpclogLoadEntry s.log s.log.iterpos)
      · have hlog := redo_log (tpclogLoadEntry s.log s.log.iterpos) { s with log := { s.log with iterpos := s.log.iterpos + 1 } }
        have hsome := (redo_lives hredo).run_isSome { s with log := { s.log with iterpos := s.log.iterpos + 1 } }
        rw [Program.run_bind]
        rcases hrun : (redo (tpclogLoadEntry s.log s.log.iterpos)).run { s with log := { s.log with iterpos := s.log.iterpos + 1 } }
          with ⟨_ | a, t⟩
        · rw [hrun] at hsome
          cases hsome
        rw [hrun] at hlog
        simp only at hlog ⊢
        rw [ih t, hlog]
        simp only
        constructor
        · intro h i hi hall
          cases i with
          | zero => exact hredo
          | succ i =>
            rw [Nat.add_comm i, ← Nat.add_assoc]
            exact h i (by omega) fun j hj => by
              rw [Nat.add_assoc, Nat.add_comm 1]
              exact hall (j + 1) (by omega)
        · intro h i hi hall
          rw [Nat.add_assoc, Nat.add_comm 1]
          refine h (i + 1) (by omega) fun j hj => ?_
          cases j with
          | zero => exact hnext
          | succ j =>
            rw [Nat.add_comm j, ← Nat.add_assoc]
            exact hall j (by omega)
      · rw [redo_fault hredo]
        exact ⟨fun h => Bool.noConfusion h, fun h => absurd (h 0 (by omega) fun j hj => by
          rw [Nat.le_zero.mp hj]; exact hnext) hredo⟩
    · rw [if_neg (by simpa [tpclogIterateHasNext] using hnext)]
      exact ⟨fun _ i _ hall => absurd (hall 0 (Nat.zero_le _)) hnext, fun _ => rfl⟩

omit [StrHash] in
/-- Every file that `do_log` gets to holds a record it can redo, once the record of the `COMMIT` is in its place. -/
def TpcLog.Replayable (log : TpcLog) : Prop :=
  ∀ id, log.files.stat id = true → (∀ j ≤ id, log.files.stat j = true ∨ j = log.nextid) → Redoable (tpclogLoadEntry log id)

/-- `do_log` gets to its end on a log without a bad record. -/
theorem doLog_isSome_iff (s : KvServer) : (doLog.run s).1.isSome ↔
    ∀ id, (∀ j ≤ id, s.log.files.stat j = true) → Redoable (tpclogLoadEntry s.log id) := by
  have hunfold : doLog.run s = (doLogFrom (s.log.files.names.card + 1)).run { s with log := { s.log with iterpos := 0 } } := rfl
  rw [hunfold, doLogFrom_isSome_iff]
  simp only [Nat.zero_add]
  refine ⟨fun h id hall => h id ?_ hall, fun h i _ hall => h i hall⟩
  have hcard := @Directory.le_card_of_taken _ _ _ s.log.files (fun i => i) (fun _ _ h => h) 0 (id + 1)
    fun j _ hj => hall j (by omega)
  omega

omit [StrHash] in
/-- The `COMMIT` is logged, unless the file is there already. -/
theorem logCommit_run (s : KvServer) : ∃ a log, (onLog (tpclogLog .commit none none)).run s = (some a, { s with log := log }) ∧
    ((∀ id, (∀ j ≤ id, log.files.stat j = true) → Redoable (tpclogLoadEntry log id)) ↔ s.log.Replayable) := by
  by_cases hstat : s.log.files.stat s.log.nextid = true
  · have hlog : Performs (tpclogLog .commit none none) s.log [] errFilAccess s.log :=
      .ite_neg (by decide) (.read_bind (.ite_pos hstat (.pure _ _)))
    refine ⟨_, s.log, (onLog_performs hlog).run_eq, fun h id _ hall => h id fun j hj => ?_, fun h id hall =>
      h id (hall id le_rfl) fun j hj => Or.inl (hall j hj)⟩
    rcases hall j hj with hj | rfl
    · exact hj
    · exact hstat
  · have hentry : LogEntry.make .commit none none = some (decisionRecord true) := rfl
    have hlog : Performs (tpclogLog .commit none none) s.log
        [.writeLog s.log.nextid (decisionRecord true), .setNextid (s.log.nextid + 1)] 0
        ⟨s.log.files.write s.log.nextid (some (decisionRecord true)), s.log.nextid + 1, s.log.iterpos⟩ := by
      refine .ite_neg (by decide) (.read_bind (.ite_neg hstat ?_))
      rw [hentry]
      exact .perform_bind (.perform_bind (.pure _ _))
    have hwritten : ∀ j, (s.log.files.write s.log.nextid (some (decisionRecord true))).stat j = true ↔
        s.log.files.stat j = true ∨ j = s.log.nextid := by
      intro j
      rw [Directory.stat, Directory.file_write]
      split_ifs with hj
      · simp [hj]
      · simp [Directory.stat, hj]
    refine ⟨_, _, (onLog_performs hlog).run_eq, fun h id hid hall => ?_, fun h id hall => ?_⟩
    · have hne : id ≠ s.log.nextid := fun heq => hstat (heq ▸ hid)
      have := h id fun j hj => (hwritten j).mpr (hall j hj)
      rwa [tpclogLoadEntry, Directory.file_write_of_ne hne] at this
    · by_cases hid : id = s.log.nextid
      · subst hid
        rw [tpclogLoadEntry, Directory.file_write_self]
        exact fun hput => absurd hput (by decide)
      · rw [tpclogLoadEntry, Directory.file_write_of_ne hid]
        exact h id (((hwritten id).mp (hall id le_rfl)).resolve_right hid) fun j hj => (hwritten j).mp (hall j hj)

/-- **When the follower's handler dies**: on a `COMMIT`, over a record that cannot be redone. -/
theorem handle_isSome_iff (server : KvServer) {req : KvRequest} (hc : req.Complete) : (server.handle req).1.isSome ↔
    (req.type = .commit → server.state = .ready → server.log.Replayable) := by
  obtain ⟨type, key, val⟩ := req
  have hlives : ∀ hne : type ≠ .commit, (handleTpc ⟨type, key, val⟩).Lives → ((server.handle ⟨type, key, val⟩).1.isSome ↔
      (type = .commit → server.state = .ready → server.log.Replayable)) := fun hne hl =>
    ⟨fun _ heq => absurd heq hne, fun _ => hl.run_isSome server⟩
  cases type with
  | commit =>
    have hunfold : server.handle ⟨.commit, key, val⟩ = Program.run (if server.state = .ready then
        (onLog (tpclogLog .commit none none) >>= fun _ => perform (.setState .commit) >>= fun _ => doLog >>= fun _ =>
          onLog tpclogClearLog >>= fun _ => perform (.setState .wait) >>= fun _ => pure ⟨.ack, none⟩)
        else pure ⟨.ack, none⟩) server := rfl
    rw [hunfold]
    by_cases hstate : server.state = .ready
    · obtain ⟨a, log, hlog, hreplay⟩ := logCommit_run server
      have hset : ∀ (p : ServerProgram KvResponse) (s : KvServer), Program.run (perform (.setState .commit) >>= fun _ => p) s =
          p.run { s with state := .commit } := fun _ _ => rfl
      rw [if_pos hstate, Program.run_bind, hlog]
      simp only
      have hrest : ∀ u : Unit, Lives ((fun _ => onLog tpclogClearLog >>= fun _ => perform (.setState .wait) >>= fun _ =>
          (pure ⟨.ack, none⟩ : ServerProgram KvResponse)) u) :=
        fun _ => .bind (.lift tpclogClearLog_lives) fun _ => .perform_bind (.pure _)
      rw [hset, Program.isSome_run_bind hrest, doLog_isSome_iff, hreplay]
      exact ⟨fun h _ _ => h, fun h => h trivial hstate⟩
    · rw [if_neg hstate]
      exact ⟨fun _ _ h => absurd h hstate, fun _ => rfl⟩
  | abort =>
    refine hlives (by decide) (.read_bind fun s => .ite (fun _ => ?_) fun _ => .pure _)
    exact .bind (.lift (tpclogLog_lives rfl)) fun _ =>
      .perform_bind (.bind (.lift tpclogClearLog_lives) fun _ => .perform_bind (.pure _))
  | putReq =>
    obtain ⟨key, rfl⟩ := Option.ne_none_iff_exists'.mp hc.1
    obtain ⟨val, rfl⟩ := Option.ne_none_iff_exists'.mp hc.2
    refine hlives (by decide) (.read_bind fun s => .ite (fun _ => ?_) fun _ => .pure _)
    exact .ite (fun _ => .bind (.lift (tpclogLog_lives rfl)) fun _ => .perform_bind (.pure _)) fun _ => .pure _
  | delReq =>
    obtain ⟨key, rfl⟩ := Option.ne_none_iff_exists'.mp hc
    refine hlives (by decide) (.read_bind fun s => .ite (fun _ => .read_bind fun s => ?_) fun _ => .pure _)
    exact .ite (fun _ => .bind (.lift (tpclogLog_lives rfl)) fun _ => .perform_bind (.pure _)) fun _ => .pure _
  | getReq =>
    obtain ⟨key, rfl⟩ := Option.ne_none_iff_exists'.mp hc
    exact hlives (by decide) (.read_bind fun s => .ite (fun _ => .pure _) fun _ => .pure _)
  | _ => exact hlives (by decide) (.pure _)

/-! ## The follower's replies -/

omit [StrHash] in
/-- The types of response for which there is a code. -/
def MsgType.IsResponse (type : MsgType) : Prop := type ∈ [MsgType.getResp, .success, .error, .vote, .ack]

instance (type : MsgType) : Decidable type.IsResponse := inferInstanceAs (Decidable (_ ∈ _))

omit [StrHash] in
/-- One message is written for a response that has a code. -/
theorem sendResponse_eq {res : KvResponse} (h : res.type.IsResponse) :
    ∃ msg, kvresponseSend res = some msg ∧ sendResponse res = [.message msg] := by
  obtain ⟨msg, hmsg, -⟩ := response_lossless res h
  exact ⟨msg, hmsg, by rw [sendResponse, hmsg]; rfl⟩

/-- What the follower's handler returns has a code, unless it is asked to register somebody. -/
theorem handleTpc_yields {req : KvRequest} (hc : req.Complete) (hindex : req.type ≠ .index) (hregister : req.type ≠ .register) :
    (handleTpc req).Yields fun res => res.type.IsResponse := by
  obtain ⟨type, key, val⟩ := req
  have hvote : MsgType.vote.IsResponse := by decide
  have herror : MsgType.error.IsResponse := by decide
  have hack : MsgType.ack.IsResponse := by decide
  cases type with
  | index => exact absurd rfl hindex
  | register => exact absurd rfl hregister
  | putReq =>
    obtain ⟨key, rfl⟩ := Option.ne_none_iff_exists'.mp hc.1
    obtain ⟨val, rfl⟩ := Option.ne_none_iff_exists'.mp hc.2
    exact .bind fun s => .ite (.ite (.bind fun _ => .bind fun _ => .pure hvote) (.pure hvote)) (.pure herror)
  | delReq =>
    obtain ⟨key, rfl⟩ := Option.ne_none_iff_exists'.mp hc
    exact .bind fun s => .ite (.bind fun _ => .ite (.bind fun _ => .bind fun _ => .pure hvote) (.pure hvote)) (.pure herror)
  | commit =>
    exact .bind fun s => .ite (.bind fun _ => .bind fun _ => .bind fun _ => .bind fun _ => .bind fun _ => .pure hack) (.pure hack)
  | abort =>
    exact .bind fun s => .ite (.bind fun _ => .bind fun _ => .bind fun _ => .bind fun _ => .pure hack) (.pure hack)
  | getReq =>
    obtain ⟨key, rfl⟩ := Option.ne_none_iff_exists'.mp hc
    exact .bind fun r => .ite (.pure herror) (.pure (show MsgType.getResp.IsResponse by decide))
  | _ => exact hc.elim

/-- The follower is asked to register somebody. -/
def AsksToRegister (pending : List UInt8) : Prop := ∃ req, kvrequestRecieve pending = .ok req ∧ req.type = .register

/-- The follower is told to commit, and its log holds a record that cannot be redone. -/
def AsksToRedoDamaged (server : KvServer) (pending : List UInt8) : Prop :=
  ∃ req, kvrequestRecieve pending = .ok req ∧ req.type = .commit ∧ server.state = .ready ∧ ¬ server.log.Replayable

/-- A server replies as it should: once, and to what is no request with an error that changes nothing. -/
def Served.Proper {σ : Type} (served : Served σ) (server : σ) (pending : List UInt8) : Prop :=
  served.RepliesOnce ∧ ((∀ req, kvrequestRecieve pending ≠ .ok req) →
    served.written = sendResponse invalidRequest ∧ served.server = server)

/-- **The follower replies once**, unless it is asked to register somebody, or told to commit over a damaged log. -/
theorem kvserverHandle_proper_iff (server : KvServer) (pending : List UInt8) :
    (kvserverHandle server pending).Proper server pending ↔
      ¬ AsksToRegister pending ∧ ¬ AsksToRedoDamaged server pending := by
  unfold kvserverHandle Served.Proper AsksToRegister AsksToRedoDamaged
  rcases kvrequestRecieve_cases pending with hreject | ⟨req, hreq, hc, -⟩
  · rw [hreject]
    obtain ⟨msg, hmsg, hsend⟩ := @sendResponse_eq invalidRequest (by decide)
    exact ⟨fun _ => ⟨by rintro ⟨_, ⟨⟩, _⟩, by rintro ⟨_, ⟨⟩, _⟩⟩,
      fun _ => ⟨⟨rfl, Or.inr ⟨_, msg, hmsg, hsend⟩⟩, fun _ => ⟨rfl, rfl⟩⟩⟩
  · rw [hreq]
    simp only [Parse.ok.injEq, exists_eq_left', ne_eq, forall_eq', false_implies, and_true]
    have hsome := handle_isSome_iff server hc
    by_cases hindex : req.type = .index
    · rw [if_pos hindex, hindex]
      exact ⟨fun _ => ⟨by decide, fun h => absurd h.1 (by decide)⟩, fun _ => ⟨rfl, Or.inl ⟨false, rfl⟩⟩⟩
    rw [if_neg hindex]
    by_cases hregister : req.type = .register
    · -- the response is blank, and nothing is written for it
      have hblank : server.handle req = (some .blank, server) := by
        obtain ⟨type, key, val⟩ := req
        obtain rfl : type = .register := hregister
        rfl
      rw [hblank]
      refine ⟨fun h => ?_, fun h => absurd hregister h.1⟩
      rcases h.2 with ⟨_, hw⟩ | ⟨_, _, _, hw⟩ <;> cases hw
    have hyields := handleTpc_yields hc hindex hregister
    rcases hhandle : server.handle req with ⟨_ | res, server'⟩ <;> rw [hhandle] at hsome
    · refine ⟨fun h => Bool.noConfusion h.1, fun h => ?_⟩
      have : ¬ (req.type = .commit → server.state = .ready → server.log.Replayable) := fun hall => by simpa using hsome.mpr hall
      exact absurd (by simpa using this) h.2
    · obtain ⟨msg, hmsg, hsend⟩ := sendResponse_eq (hyields.run (congrArg Prod.fst hhandle))
      refine ⟨fun _ => ⟨hregister, fun h => h.2.2 (hsome.mp rfl h.1 h.2.1)⟩, fun _ => ⟨rfl, Or.inr ⟨res, msg, hmsg, hsend⟩⟩⟩

/-! ## The leader's replies -/

section Leader

variable {leader : TpcLeader} {req : KvRequest} {answers : Answers}

/-- Where `tpcleader_handle_tpc` stands while its exchanges are completed. -/
def TpcCall.Steady (leader : TpcLeader) (req : KvRequest) : TpcCall → Prop
  | .poll _ i _ => primaryOf leader req ≠ none ∧ i < leader.redundancy
  | .decide _ _ i isAllAcked => primaryOf leader req ≠ none ∧ i < leader.redundancy ∧ isAllAcked = true
  | .returned res => res.type.IsResponse
  | .faulted => False

/-- At most so many exchanges are left. -/
def TpcCall.left (leader : TpcLeader) : TpcCall → ℕ
  | .poll _ i _ => 2 * leader.redundancy - i
  | .decide _ _ i _ => leader.redundancy - i
  | _ => 0

omit [StrHash] in
theorem tpcResponse_isResponse (isCommit : Bool) : (tpcResponse isCommit).type.IsResponse := by cases isCommit <;> decide

theorem TpcCall.pass_steady (hpri : primaryOf leader req ≠ none) (isCommit : Bool) :
    (pass leader req isCommit).Steady leader req ∧ (pass leader req isCommit).left leader ≤ leader.redundancy := by
  unfold pass
  rcases hp : primaryOf leader req with _ | _ | pri
  · exact absurd hp hpri
  · exact ⟨tpcResponse_isResponse isCommit, Nat.zero_le _⟩
  · by_cases hred : 0 < leader.redundancy
    · simp only [if_pos hred]
      exact ⟨⟨hpri, hred, rfl⟩, Nat.le_refl _⟩
    · simp only [if_neg hred]
      exact ⟨tpcResponse_isResponse isCommit, Nat.zero_le _⟩

theorem TpcCall.pollFrom_steady (hpri : primaryOf leader req ≠ none) (pri : ℕ) {i : ℕ} (hi : i ≤ leader.redundancy)
    (isCommit : Bool) :
    (pollFrom leader req pri i isCommit).Steady leader req ∧
      (pollFrom leader req pri i isCommit).left leader ≤ 2 * leader.redundancy - i := by
  unfold pollFrom
  split_ifs with hlt
  · exact ⟨⟨hpri, hlt⟩, Nat.le_refl _⟩
  · obtain ⟨hsteady, hleft⟩ := pass_steady hpri isCommit
    exact ⟨hsteady, by omega⟩

theorem TpcCall.start_steady
    (hpri : leader.followerCount = leader.followerCapacity → req.type = .putReq ∨ req.type = .delReq →
      primaryOf leader req ≠ none) :
    (start leader req).Steady leader req ∧ (start leader req).left leader ≤ 2 * leader.redundancy := by
  have herror : MsgType.error.IsResponse := by decide
  unfold start
  by_cases hfull : leader.followerCount = leader.followerCapacity
  · rw [if_neg (by simpa using hfull)]
    by_cases htype : req.type = .putReq ∨ req.type = .delReq
    · have hne := hpri hfull htype
      rw [if_pos htype]
      rcases hp : primaryOf leader req with _ | _ | pri
      · exact absurd hp hne
      · obtain ⟨hsteady, hleft⟩ := pass_steady hne true
        exact ⟨hsteady, hleft.trans (by omega)⟩
      · exact pollFrom_steady hne pri (Nat.zero_le _) true
    · rw [if_neg htype]
      exact ⟨herror, Nat.zero_le _⟩
  · rw [if_pos hfull]
    exact ⟨herror, Nat.zero_le _⟩

/-- A completed exchange leaves one less. -/
theorem TpcCall.resume_steady {call : TpcCall} (h : call.Steady leader req) {node : ℕ} {msg : KvRequest}
    (hasks : call.asks req = some (node, msg)) {res : KvResponse}
    (hack : msg.type = .commit ∨ msg.type = .abort → res.type = .ack) :
    (call.resume leader req (.answered res)).Steady leader req ∧
      (call.resume leader req (.answered res)).left leader < call.left leader := by
  cases call with
  | poll pri i isCommit =>
    obtain ⟨hpri, hi⟩ := h
    obtain ⟨hsteady, hleft⟩ := pollFrom_steady hpri (tpcleaderGetSuccessor leader pri) (show i + 1 ≤ leader.redundancy from hi)
      (isCommit && res.isCommit)
    refine ⟨hsteady, Nat.lt_of_le_of_lt hleft ?_⟩
    show 2 * leader.redundancy - (i + 1) < 2 * leader.redundancy - i
    omega
  | decide isCommit pri i isAllAcked =>
    obtain ⟨hpri, hi, rfl⟩ := h
    obtain ⟨rfl, rfl⟩ : pri = node ∧ resClient isCommit = msg := by simpa [asks] using hasks
    have hacked : res.isAck = true := decide_eq_true (hack (by cases isCommit <;> simp [resClient]))
    have hnext : (TpcCall.decide isCommit pri i true).resume leader req (.answered res) =
        decideFrom leader req isCommit (tpcleaderGetSuccessor leader pri) (i + 1) (true && res.isAck) := rfl
    rw [hnext, hacked, Bool.and_self, decideFrom]
    by_cases hlt : i + 1 < leader.redundancy
    · rw [if_pos hlt]
      refine ⟨⟨hpri, hlt, rfl⟩, ?_⟩
      show leader.redundancy - (i + 1) < leader.redundancy - i
      omega
    · rw [if_neg hlt, if_pos rfl]
      refine ⟨tpcResponse_isResponse isCommit, ?_⟩
      show 0 < leader.redundancy - i
      omega
  | returned res => cases hasks
  | faulted => cases hasks

theorem TpcCall.steady_returned {call : TpcCall} (h : call.Steady leader req) (hasks : call.asks req = none) :
    ∃ res, call = .returned res ∧ res.type.IsResponse := by
  cases call with
  | returned res => exact ⟨res, rfl, h⟩
  | faulted => exact h.elim
  | _ => cases hasks

/-- **The handler returns** when its exchanges have been completed. -/
theorem TpcCall.after_returned
    (hpri : leader.followerCount = leader.followerCapacity → req.type = .putReq ∨ req.type = .delReq → primaryOf leader req ≠ none)
    (hack : answers.Acknowledging) {n : ℕ} (hn : 2 * leader.redundancy ≤ n) :
    ∃ res, after leader req answers n = .returned res ∧ res.type.IsResponse := by
  obtain ⟨hstart, hleft⟩ := start_steady hpri
  have hends : (after leader req answers n).Steady leader req ∧ (after leader req answers n).asks req = none :=
    converse_ends (Steady leader req) (left leader) (fun call ask h hasks k => resume_steady h hasks (hack k ask.1 ask.2)) hstart
      (hleft.trans hn)
  exact steady_returned hends.1 hends.2

/-- Where `tpcleader_handle_get` stands while its exchanges are completed. -/
def GetCall.Steady (leader : TpcLeader) : GetCall → Prop
  | .ask _ i => i < leader.redundancy
  | .returned res => res.type.IsResponse
  | .faulted => False

/-- At most so many exchanges are left. -/
def GetCall.left (leader : TpcLeader) : GetCall → ℕ
  | .ask _ i => leader.redundancy - i
  | _ => 0

omit [StrHash] in
theorem GetCall.askFrom_steady (pri i : ℕ) :
    (askFrom leader pri i).Steady leader ∧ (askFrom leader pri i).left leader ≤ leader.redundancy - i := by
  unfold askFrom
  split_ifs with hlt
  · exact ⟨hlt, Nat.le_refl _⟩
  · exact ⟨show MsgType.error.IsResponse by decide, Nat.zero_le _⟩

theorem GetCall.start_steady (hpri : primaryOf leader req ≠ none) :
    (start leader req).Steady leader ∧ (start leader req).left leader ≤ leader.redundancy := by
  unfold start
  rcases hp : primaryOf leader req with _ | _ | pri
  · exact absurd hp hpri
  · exact ⟨show MsgType.error.IsResponse by decide, Nat.zero_le _⟩
  · exact askFrom_steady pri 0

omit [StrHash] in
theorem GetCall.resume_steady {call : GetCall} (h : call.Steady leader) {node : ℕ} (hasks : call.asks = some node)
    (res : KvResponse) :
    (call.resume leader (.answered res)).Steady leader ∧ (call.resume leader (.answered res)).left leader < call.left leader := by
  cases call with
  | ask pri i =>
    have hi : i < leader.redundancy := h
    have hnext : (GetCall.ask pri i).resume leader (.answered res) = if res.type = .getResp then .returned ⟨.getResp, res.body⟩
        else askFrom leader (tpcleaderGetSuccessor leader pri) (i + 1) := rfl
    have hpos : 0 < leader.redundancy - i := Nat.sub_pos_of_lt hi
    rw [hnext]
    split_ifs
    · exact ⟨show MsgType.getResp.IsResponse by decide, hpos⟩
    · obtain ⟨hsteady, hleft⟩ := @askFrom_steady leader (tpcleaderGetSuccessor leader pri) (i + 1)
      refine ⟨hsteady, Nat.lt_of_le_of_lt hleft ?_⟩
      show leader.redundancy - (i + 1) < leader.redundancy - i
      omega
  | returned res => cases hasks
  | faulted => cases hasks

omit [StrHash] in
theorem GetCall.steady_returned {call : GetCall} (h : call.Steady leader) (hasks : call.asks = none) :
    ∃ res, call = .returned res ∧ res.type.IsResponse := by
  cases call with
  | returned res => exact ⟨res, rfl, h⟩
  | faulted => exact h.elim
  | ask pri i => cases hasks

theorem GetCall.after_returned (hpri : primaryOf leader req ≠ none) {n : ℕ} (hn : leader.redundancy ≤ n) :
    ∃ res, after leader req answers n = .returned res ∧ res.type.IsResponse := by
  obtain ⟨hstart, hleft⟩ := start_steady hpri
  have hends : (after leader req answers n).Steady leader ∧ (after leader req answers n).asks = none :=
    converse_ends (Steady leader) (left leader) (fun call node h hasks k => resume_steady h hasks (answers k node req)) hstart
      (hleft.trans hn)
  exact steady_returned hends.1 hends.2

/-- A leader without room for followers registers none. -/
theorem registered_zero (redundancy : ℕ) (reqs : List KvRequest) :
    (tpcleaderInit 0 redundancy).registered reqs = tpcleaderInit 0 redundancy := by
  induction reqs with
  | nil => rfl
  | cons req reqs ih => exact ih

/-- The loop of `tpcleader_get_primary` has a list to go through, unless there is no room for followers. -/
theorem primaryOf_ne_none_iff {followerCapacity redundancy : ℕ} {reqs : List KvRequest}
    (hleader : leader = (tpcleaderInit followerCapacity redundancy).registered reqs) (hkey : req.key ≠ none) :
    primaryOf leader req ≠ none ↔ followerCapacity ≠ 0 := by
  obtain ⟨key, hkey⟩ := Option.ne_none_iff_exists'.mp hkey
  simp only [primaryOf, hkey]
  constructor
  · rintro h rfl
    rw [hleader, registered_zero] at h
    exact h rfl
  · intro hcap
    obtain ⟨hcapacity, -, l, hring⟩ := (ring_init followerCapacity redundancy).registered reqs
    rw [← hleader] at hcapacity hring
    have hcapacity' : leader.followerCapacity = followerCapacity := hcapacity
    have hcount := hring.count
    have hhead := hring.head
    unfold tpcleaderGetPrimary
    by_cases hlt : leader.followerCount < leader.followerCapacity
    · rw [if_pos hlt]
      exact Option.some_ne_none _
    · rw [if_neg hlt]
      cases l with
      | nil =>
        simp only [List.length_nil] at hcount
        omega
      | cons head t =>
        rw [hhead]
        exact Option.some_ne_none _

/-- What `tpcleader_handle_tpc` comes to. -/
theorem TpcCall.after_cases {followerCapacity redundancy : ℕ} {reqs : List KvRequest}
    (hleader : leader = (tpcleaderInit followerCapacity redundancy).registered reqs) (hack : answers.Acknowledging) {n : ℕ}
    (hn : 2 * leader.redundancy ≤ n) (hkey : req.type = .putReq ∨ req.type = .delReq → req.key ≠ none) :
    (followerCapacity = 0 ∧ (req.type = .putReq ∨ req.type = .delReq) ∧ after leader req answers n = .faulted) ∨
      ((req.type = .putReq ∨ req.type = .delReq → followerCapacity ≠ 0) ∧
        ∃ res, after leader req answers n = .returned res ∧ res.type.IsResponse) := by
  by_cases hdead : followerCapacity = 0 ∧ (req.type = .putReq ∨ req.type = .delReq)
  · obtain ⟨rfl, htype⟩ := hdead
    have hpri : primaryOf leader req = none :=
      not_not.mp fun h => (primaryOf_ne_none_iff hleader (hkey htype)).mp h rfl
    have hfull : ¬ leader.followerCount ≠ leader.followerCapacity := by
      rw [hleader, registered_zero]
      exact not_not.mpr rfl
    have hstart : start leader req = .faulted := by rw [start, if_neg hfull, if_pos htype, hpri]
    exact Or.inl ⟨rfl, htype, by rw [after, hstart, converse_of_silent rfl]⟩
  · have hcap : req.type = .putReq ∨ req.type = .delReq → followerCapacity ≠ 0 := fun htype hzero => hdead ⟨hzero, htype⟩
    exact Or.inr ⟨hcap, after_returned (fun _ htype => (primaryOf_ne_none_iff hleader (hkey htype)).mpr (hcap htype)) hack hn⟩

/-- The leader is sent a request, and one about a key only if it has room for followers. -/
def Answerable (followerCapacity : ℕ) (pending : List UInt8) : Prop :=
  ∃ req, kvrequestRecieve pending = .ok req ∧
    (req.type = .getReq ∨ req.type = .putReq ∨ req.type = .delReq → followerCapacity ≠ 0)

/-- **The leader replies once** to what is a request, when its exchanges are completed, unless it has no room for
followers and is asked about a key. -/
theorem tpcleaderHandle_proper_iff {followerCapacity redundancy : ℕ} {reqs : List KvRequest}
    (hleader : leader = (tpcleaderInit followerCapacity redundancy).registered reqs) (hack : answers.Acknowledging) {n : ℕ}
    (hn : 2 * leader.redundancy ≤ n) (pending : List UInt8) :
    (tpcleaderHandle leader answers n pending).Proper leader pending ↔ Answerable followerCapacity pending := by
  unfold tpcleaderHandle Served.Proper Answerable
  rcases kvrequestRecieve_cases pending with hreject | ⟨req, hreq, hc, -⟩
  · rw [hreject]
    exact ⟨fun h => Bool.noConfusion h.1.1, by rintro ⟨_, ⟨⟩, _⟩⟩
  rw [hreq]
  simp only [Parse.ok.injEq, exists_eq_left', ne_eq, forall_eq', false_implies, and_true]
  have hreplies : ∀ (res : KvResponse) (leader : TpcLeader), res.type.IsResponse →
      (⟨sendResponse res, false, leader⟩ : Served TpcLeader).RepliesOnce := by
    intro res leader hres
    obtain ⟨msg, hmsg, hsend⟩ := sendResponse_eq hres
    exact ⟨rfl, Or.inr ⟨res, msg, hmsg, hsend⟩⟩
  by_cases hindex : req.type = .index
  · rw [if_pos hindex, hindex]
    exact ⟨fun _ h => absurd h (by decide), fun _ => ⟨rfl, Or.inl ⟨true, rfl⟩⟩⟩
  rw [if_neg hindex]
  by_cases hregister : req.type = .register
  · rw [if_pos hregister, hregister]
    refine ⟨fun _ h => absurd h (by decide), fun _ => ?_⟩
    obtain ⟨type, key, val⟩ := req
    obtain rfl : type = .register := hregister
    obtain ⟨key, rfl⟩ := Option.ne_none_iff_exists'.mp hc.1
    obtain ⟨val, rfl⟩ := Option.ne_none_iff_exists'.mp hc.2
    unfold tpcleaderRegister
    by_cases hfull : leader.followerCount = leader.followerCapacity
    · rw [if_pos hfull]
      exact hreplies _ _ (by decide)
    · rw [if_neg hfull]
      exact hreplies _ _ (by decide)
  rw [if_neg hregister]
  by_cases hget : req.type = .getReq
  · rw [if_pos hget]
    have hpri := primaryOf_ne_none_iff hleader (hc.key_ne_none (Or.inl hget))
    by_cases hcap : followerCapacity = 0
    · have hdead : primaryOf leader req = none := not_not.mp fun h => hpri.mp h hcap
      have hstart : GetCall.start leader req = .faulted := by rw [GetCall.start, hdead]
      rw [GetCall.after, hstart, converse_of_silent rfl]
      exact ⟨fun h => Bool.noConfusion h.1, fun h => absurd hcap (h (Or.inl hget))⟩
    · obtain ⟨res, hres, htype⟩ := GetCall.after_returned (hpri.mpr hcap) (n := n) (by omega)
      rw [hres]
      exact ⟨fun _ _ => hcap, fun _ => hreplies res leader htype⟩
  rw [if_neg hget]
  rcases TpcCall.after_cases hleader hack hn fun h => hc.key_ne_none (Or.inr h) with
    ⟨hcap, htype, hafter⟩ | ⟨hcap, res, hafter, htype⟩
  · rw [hafter]
    exact ⟨fun h => Bool.noConfusion h.1, fun h => absurd hcap (h (Or.inr htype))⟩
  · rw [hafter]
    exact ⟨fun _ h => hcap (h.resolve_left hget), fun _ => hreplies res leader htype⟩

end Leader

/-! ## Both servers -/

/-- **Every connection gets exactly one reply**, and what is no request an error that changes nothing: at a
follower, unless it is asked to register somebody or told to commit over a damaged log; at a leader, if it is sent
a request, and one about a key only when it has room for followers. -/
theorem replies_once (server : KvServer) (followerCapacity redundancy : ℕ) (reqs : List KvRequest) (leader : TpcLeader)
    (hleader : leader = (tpcleaderInit followerCapacity redundancy).registered reqs) (answers : Answers)
    (hack : answers.Acknowledging) (n : ℕ) (hn : 2 * leader.redundancy ≤ n) (pending : List UInt8) :
    ((kvserverHandle server pending).Proper server pending ↔
      ¬ AsksToRegister pending ∧ ¬ AsksToRedoDamaged server pending) ∧
    ((tpcleaderHandle leader answers n pending).Proper leader pending ↔ Answerable followerCapacity pending) :=
  ⟨kvserverHandle_proper_iff server pending, tpcleaderHandle_proper_iff hleader hack hn pending⟩

end

section

attribute [local instance] md5Sample

/-- A `PUT`, to a follower on an empty store and to a leader with one follower. -/
theorem replies_once_put :
    ((kvserverHandle (KvServer.start ⟨.empty⟩) (lit "PUT /?key=a&val=1 ")).Proper (KvServer.start ⟨.empty⟩)
      (lit "PUT /?key=a&val=1 ") ↔
      ¬ AsksToRegister (lit "PUT /?key=a&val=1 ") ∧ ¬ AsksToRedoDamaged (KvServer.start ⟨.empty⟩) (lit "PUT /?key=a&val=1 ")) ∧
    ((tpcleaderHandle (localLeader ["8001"]) (fun _ _ _ => ⟨.ack, some .empty⟩) 2 (lit "PUT /?key=a&val=1 ")).Proper
      (localLeader ["8001"]) (lit "PUT /?key=a&val=1 ") ↔ Answerable 1 (lit "PUT /?key=a&val=1 ")) :=
  replies_once _ 1 1 [⟨.register, some (.ofString "localhost"), some (.ofString "8001")⟩] (localLeader ["8001"]) rfl _
    (fun _ _ _ _ => rfl) 2 (by decide) _

/-- A leader dies of a connection that is closed without a request, and a follower leaves the request to register
somebody without a reply. -/
theorem connection_unanswered :
    ¬ (tpcleaderHandle (localLeader ["8001"]) (fun _ _ _ => ⟨.ack, some .empty⟩) 2 []).Proper (localLeader ["8001"]) [] ∧
      ¬ (kvserverHandle (KvServer.start ⟨.empty⟩) (lit "POST /register?key=a&val=1 ")).Proper (KvServer.start ⟨.empty⟩)
        (lit "POST /register?key=a&val=1 ") := by
  have hdied : (tpcleaderHandle (localLeader ["8001"]) (fun _ _ _ => ⟨.ack, some .empty⟩) 2 []).died = true := by decide +kernel
  have hwritten : (kvserverHandle (KvServer.start ⟨.empty⟩) (lit "POST /register?key=a&val=1 ")).written = [] := by decide +kernel
  constructor
  · intro h
    exact absurd (hdied.symm.trans h.1.1) (by decide)
  · intro h
    rcases h.1.2 with ⟨_, hw⟩ | ⟨_, _, _, hw⟩ <;> rw [hwritten] at hw <;> cases hw

end

end Cs162Hw.Kv
