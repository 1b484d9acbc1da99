import Cs162Hw.Library.Run
import Cs162Hw.Kv.TornLog

/-!
# Failing log records

The calls in `tpclog_log` may fail. If `open` does, the log is as it was; if `write` does, there is a file
more, from which nothing can be read. `kvserver_handle_tpc` does not look at what `tpclog_log` returns
(`handleTpc_ignores`): it votes, or does what the log says, all the same.

`FailingLife` is a follower whose calls may fail in every message, with the operation it voted for.
**`failingLife_keeps_word`**: its votes are backed by the log, and its acknowledgements by the store, exactly as long as no
call fails that is to log an operation it agrees to, and no `write` that is to log the `COMMIT` of one.
-/

namespace Cs162Hw.Kv

open Library
open Library.Program (read perform Performs Dies)
open Library.TwoPhase (Operations Participant)
open Library.TwoPhase.Operations (apply)

/-! ## `tpclog_log`, when its calls fail -/

/-- How the calls in `tpclog_log` come out. -/
inductive LogCalls where
  /-- They succeed. -/
  | succeed
  /-- `open` returns `-1`. -/
  | openFails
  /-- `write` writes a part of the record. -/
  | writeShort
  /-- `write` returns `-1`. -/
  | writeFails
  deriving DecidableEq

/-- `tpclog_log`, the file created and then written, its calls coming out like this. A record of which a part is missing cannot
be read, whatever part it is. -/
def tpclogLogFailing (calls : LogCalls) (type : MsgType) (key value : Option CString) : Program LogOp TpcLog Int :=
  if ¬ Loggable type then return errInvldMsg
  else do
    let log ← read
    if log.files.stat log.nextid ∨ calls = .openFails then return errFilAccess
    else do
      perform (.createLog log.nextid)
      perform (.setNextid (log.nextid + 1))
      match LogEntry.make type key value with
      | none => .fault
      | some entry =>
        match calls with
        | .writeShort => return errFilAccess
        -- `-1` is compared with `size` as an unsigned number, and is not less
        | .writeFails => return 0
        | _ => do
          perform (.writeLog log.nextid entry)
          return 0

theorem tpclogLogFailing_succeed : tpclogLogFailing .succeed = tpclogLogTorn := by
  funext type key value
  rw [tpclogLogFailing, tpclogLogTorn]
  by_cases ht : Loggable type
  · rw [if_neg (not_not_intro ht), if_neg (not_not_intro ht)]
    refine congrArg (read >>= ·) (funext fun log => ?_)
    by_cases hstat : log.files.stat log.nextid
    · rw [if_pos (Or.inl hstat), if_pos hstat]
    · refine (if_neg (by simpa using hstat)).trans (Eq.trans ?_ (if_neg hstat).symm)
      rfl
  · rw [if_pos ht, if_pos ht]

namespace LogCalls

/-- The operations of `tpclog_log` on a log of `n` files. -/
def ops (calls : LogCalls) (n : ℕ) (entry : LogEntry) : List LogOp :=
  match calls with
  | succeed => [.createLog n, .setNextid (n + 1), .writeLog n entry]
  | openFails => []
  | writeShort => [.createLog n, .setNextid (n + 1)]
  | writeFails => [.createLog n, .setNextid (n + 1)]

/-- The files of the log after it. -/
def files (calls : LogCalls) (l : List (Option LogEntry)) (entry : LogEntry) : List (Option LogEntry) :=
  match calls with
  | succeed => l ++ [some entry]
  | openFails => l
  | writeShort => l ++ [none]
  | writeFails => l ++ [none]

/-- What it returns. -/
def code : LogCalls → Int
  | succeed => 0
  | openFails => errFilAccess
  | writeShort => errFilAccess
  | writeFails => 0

end LogCalls

theorem tpclogLogFailing_performs (calls : LogCalls) {type : MsgType} {key value : Option CString} {entry : LogEntry}
    (ht : Loggable type) (he : LogEntry.make type key value = some entry) (l : List (Option LogEntry)) (pos : ℕ) :
    Performs (tpclogLogFailing calls type key value) (.holding l pos) (calls.ops l.length entry) calls.code
      (.holding (calls.files l entry) pos) := by
  have hstat : ¬ (TpcLog.holding l pos).files.stat (TpcLog.holding l pos).nextid := by simp [TpcLog.holding]
  have hcreated : Program.execAll [LogOp.createLog l.length, .setNextid (l.length + 1)] (TpcLog.holding l pos) =
      TpcLog.holding (l ++ [none]) pos := by
    ext1
    · exact Directory.write_ofList l none
    · simp [TpcLog.holding, Effect.exec]
    · rfl
  cases calls with
  | succeed =>
    rw [tpclogLogFailing_succeed]
    exact tpclogLogTorn_performs ht he l pos
  | openFails =>
    rw [tpclogLogFailing, if_neg (by simpa using ht)]
    exact .read_bind (.ite_pos (Or.inr rfl) (.pure _ _))
  | writeShort =>
    rw [tpclogLogFailing, if_neg (by simpa using ht)]
    refine .read_bind (.ite_neg (by simpa using hstat) (.perform_bind (.perform_bind ?_)))
    rw [he]
    exact Performs.congr (.pure _ _) rfl hcreated
  | writeFails =>
    rw [tpclogLogFailing, if_neg (by simpa using ht)]
    refine .read_bind (.ite_neg (by simpa using hstat) (.perform_bind (.perform_bind ?_)))
    rw [he]
    exact Performs.congr (.pure _ _) rfl hcreated

/-- The same, returning `0`. -/
def ignoring (append : MsgType → Option CString → Option CString → Program LogOp TpcLog Int) (type : MsgType)
    (key value : Option CString) : Program LogOp TpcLog Int := do
  let _ ← append type key value
  return 0

/-- Whatever the calls come to, the handler takes them for a success. -/
theorem appends_ignoring (calls : LogCalls) (l : List (Option LogEntry)) (pos : ℕ) (entry : LogEntry) :
    Appends (ignoring (tpclogLogFailing calls)) (.holding l pos) entry (calls.ops l.length entry)
      (.holding (calls.files l entry) pos) :=
  fun _ _ _ ht he => ((tpclogLogFailing_performs calls ht he l pos).bind (.pure 0 _)).congr (List.append_nil _) rfl

section

variable [StrHash]

/-- **`kvserver_handle_tpc` does not look at what `tpclog_log` returns.** -/
theorem handleTpc_ignores (append : MsgType → Option CString → Option CString → Program LogOp TpcLog Int) (req : KvRequest) :
    kvserverHandleTpc (fileCalls append) req = kvserverHandleTpc (fileCalls (ignoring append)) req := by
  have hlog {α : Type} (type : MsgType) (key value : Option CString) (p : ServerProgram α) :
      (onLog (append type key value) >>= fun _ => p) = onLog (ignoring append type key value) >>= fun _ => p := by
    rw [onLog, onLog, ignoring, Program.lift_bind, bind_assoc]
    rfl
  obtain ⟨type, key, val⟩ := req
  cases type <;> simp only [kvserverHandleTpc, fileCalls, hlog]

/-- The follower's handler, the calls in `tpclog_log` coming out like this. -/
def handleTpcFailing (calls : LogCalls) (req : KvRequest) : ServerProgram KvResponse :=
  kvserverHandleTpc (fileCalls (tpclogLogFailing calls)) req

/-! ## `do_log`, on what they leave -/

variable {s : KvServer} {u : Update}

/-- On a log that is the record alone, `do_log` applies its operation. -/
theorem doLog_record_performs (hu : u.Valid) (hc : s.store.Chained) (hl : s.log.files = .ofList [some u.record]) :
    ∃ lo, Redo u s.store lo ∧ Performs doLog s (.log (.setIterpos 0) :: .log (.setIterpos 1) :: (lo.map .store ++ [])) ()
      ⟨Program.execAll lo s.store, { s.log with iterpos := 1 }, s.state⟩ := by
  obtain ⟨lo, hlo, hredo⟩ := redo_performs hu (s := { s with log := { s.log with iterpos := 1 } }) hc
  refine ⟨lo, hlo, (onLog_performs (.perform (.setIterpos 0) s.log)).bind (.read_bind ?_)⟩
  have hcard : s.log.files.names.card = 1 := by rw [hl]; simp
  rw [show (Effect.exec (LogOp.setIterpos 0) s.log).files = s.log.files from rfl, hcard]
  have hstop := doLogFrom_stop (s := ⟨Program.execAll lo s.store, { s.log with iterpos := 1 }, s.state⟩) hl le_rfl 1
  exact doLogFrom_next (s := ⟨s.store, { s.log with iterpos := 0 }, s.state⟩) hl rfl hredo hstop

/-- If a file follows from which nothing can be read, `do_log` uses the `NULL` it is returned for it. -/
theorem doLog_dies (hu : u.Valid) (hc : s.store.Chained) (hl : s.log.files = .ofList [some u.record, none]) : Dies doLog s := by
  obtain ⟨lo, -, hredo⟩ := redo_performs hu (s := { s with log := { s.log with iterpos := 1 } }) hc
  have hbegin : Performs (onLog tpclogIterateBegin) s _ () _ := onLog_performs (.perform (LogOp.setIterpos 0) s.log)
  refine hbegin.bind_dies (Dies.read_bind ?_)
  have hcard : s.log.files.names.card = 2 := by rw [hl]; simp
  rw [show (Effect.exec (LogOp.setIterpos 0) s.log).files = s.log.files from rfl, hcard]
  have hnext {t : KvServer} (ht : t.log.files = .ofList [some u.record, none]) (hpos : t.log.iterpos < 2) :
      tpclogIterateHasNext t.log = true := by
    rw [tpclogIterateHasNext_eq ht, decide_eq_true_iff]
    exact hpos
  have hfirst := onLog_performs (s := { s with log := { s.log with iterpos := 0 } })
    (@tpclogIterateNext_performs { s.log with iterpos := 0 } _ hl _ rfl)
  have hsecond := onLog_performs (s := ⟨Program.execAll lo s.store, { s.log with iterpos := 1 }, s.state⟩)
    (@tpclogIterateNext_performs { s.log with iterpos := 1 } _ hl _ rfl)
  have hnull (t : KvServer) : Dies (redo none) t := rfl
  refine .read_bind (.ite_pos (hnext hl Nat.zero_lt_two) (hfirst.bind_dies (hredo.bind_dies ?_)))
  exact .read_bind (.ite_pos (hnext hl Nat.one_lt_two) (hsecond.bind_dies ((hnull _).bind _)))

/-- A `COMMIT` to a follower with an operation pending, in which the log does not fail `do_log`. -/
theorem handleTpcFailing_commit (hu : u.Valid) (hc : s.store.Chained) (hlog : s.log = .holding [some u.record] s.log.iterpos)
    (hstate : s.state = .ready) {calls : LogCalls} (hcalls : calls = .succeed ∨ calls = .openFails) {req : KvRequest}
    (hreq : req.type = .commit) :
    ∃ store pos, (handleTpcFailing calls req).run s = (some ⟨.ack, none⟩, ⟨store, .holding [] pos, .wait⟩) ∧
      store.Chained ∧ store.contents = apply u s.store.contents := by
  have happend : Appends (ignoring (tpclogLogFailing calls)) s.log (decisionRecord true) _ _ :=
    hlog ▸ appends_ignoring calls [_] _ _
  rw [handleTpcFailing, handleTpc_ignores]
  rcases hcalls with rfl | rfl
  · obtain ⟨lo, hlo, hperf⟩ := handleTpc_commit hreq hstate hu hc happend rfl
    exact ⟨_, _, hperf.run_eq, hlo.chained, hlo.applied⟩
  · obtain ⟨lo, hlo, hdo⟩ := doLog_record_performs hu (s := ⟨s.store, .holding [some u.record] s.log.iterpos, .commit⟩) hc rfl
    obtain ⟨type, key, val⟩ := req
    obtain rfl : type = .commit := hreq
    have hfail := onLog_performs (happend .commit none none (by decide) (make_commit none none))
    have hclear := clear_performs (s := ⟨Program.execAll lo s.store, ⟨.ofList [some u.record], 1, 1⟩, .commit⟩) rfl
      (⟨.ack, none⟩ : KvResponse)
    have hperf : Performs (kvserverHandleTpc (fileCalls (ignoring (tpclogLogFailing .openFails))) ⟨.commit, key, val⟩) s _ _ _ :=
      .read_bind (.ite_pos hstate (hfail.bind (.perform_bind (hdo.bind hclear))))
    exact ⟨_, _, hperf.run_eq, hlo.chained, hlo.applied⟩

/-- One in which it does. -/
theorem handleTpcFailing_commit_dies (hu : u.Valid) (hc : s.store.Chained) (hlog : s.log = .holding [some u.record] s.log.iterpos)
    (hstate : s.state = .ready) {calls : LogCalls} (hcalls : calls = .writeShort ∨ calls = .writeFails) {req : KvRequest}
    (hreq : req.type = .commit) : Dies (handleTpcFailing calls req) s := by
  have hfiles : calls.files [some u.record] (decisionRecord true) = [some u.record, none] := by
    rcases hcalls with rfl | rfl <;> rfl
  have happend : Appends (ignoring (tpclogLogFailing calls)) s.log (decisionRecord true) _ _ :=
    hlog ▸ appends_ignoring calls [_] _ _
  rw [hfiles] at happend
  rw [handleTpcFailing, handleTpc_ignores]
  obtain ⟨type, key, val⟩ := req
  obtain rfl : type = .commit := hreq
  have hfail := onLog_performs (happend .commit none none (by decide) (make_commit none none))
  have hdies := doLog_dies hu (s := ⟨s.store, .holding [some u.record, none] s.log.iterpos, .commit⟩) hc rfl
  exact .read_bind (.ite_pos hstate (hfail.bind_dies ((Performs.perform _ _).bind_dies (hdies.bind _))))

end

/-! ## A life in which they fail -/

/-- A follower, whether it runs, and what it voted for. -/
structure FailingLife where
  /-- The process, or what is left of it. -/
  server : KvServer
  /-- Is the process running? -/
  up : Bool
  /-- The operation it voted to commit, until it is told the decision. -/
  promised : Option Update

/-- What happens to it. -/
inductive FailingEvent where
  /-- A message arrives and is handled, the calls in `tpclog_log` coming out like this. -/
  | message (req : KvRequest) (calls : LogCalls)
  /-- The process, up or not, is started again. -/
  | restart

/-- The message of an event. -/
def FailingEvent.request? : FailingEvent → Option KvRequest
  | message req _ => some req
  | restart => none

section

variable [StrHash]

namespace FailingLife

/-- One event. A process that is down receives nothing. -/
def step (f : FailingLife) : FailingEvent → FailingLife
  | .message req calls =>
    if f.up then
      let (res, server) := (handleTpcFailing calls req).run f.server
      ⟨server, res.isSome, promisedAfter f.server.state req res f.promised⟩
    else f
  | .restart =>
    let (res, server) := kvserverInit.run f.server.crash
    ⟨server, res.isSome, f.promised⟩

/-- A follower that starts on a store and no log. -/
def start (store : KvStore) : FailingLife := ⟨KvServer.start store, true, none⟩

/-- The answer `res` to the message `req`, with `server` after it, is backed by the log and the store. -/
structure Backed (f : FailingLife) (req : KvRequest) (res : Option KvResponse) (server : KvServer) : Prop where
  /-- There is one. -/
  answers : res.isSome
  /-- A vote to commit, and the follower waiting for the decision, mean that the operation is in the log; otherwise
  nothing is done. -/
  vote : ∀ u, req.update? = some u →
    res = some ⟨.vote, some msgCommit⟩ ∧ server.state = .ready ∧ (∃ id, tpclogLoadEntry server.log id = some u.record) ∨
      res ≠ some ⟨.vote, some msgCommit⟩ ∧ server = f.server
  /-- That the `COMMIT` is acknowledged for which the follower waits means that the operation it voted for is applied. -/
  commit : req.type = .commit → f.server.state = .ready → res = some ⟨.ack, none⟩ →
    ∃ u, f.promised = some u ∧ server.store.contents = apply u f.server.store.contents
  /-- Any other `COMMIT` applies nothing. -/
  stale : req.type = .commit → f.server.state ≠ .ready → server.store = f.server.store

/-- In this event the follower keeps its word. -/
def KeepsWord (f : FailingLife) : FailingEvent → Prop
  | .message req calls => f.up = true →
    f.Backed req ((handleTpcFailing calls req).run f.server).1 ((handleTpcFailing calls req).run f.server).2
  | .restart => True

/-- No call of the event fails that is to log an operation the follower agrees to, and no `write` that is to log the
`COMMIT` of one. -/
def Recorded (f : FailingLife) : FailingEvent → Prop
  | .message req calls =>
    (∀ u, req.update? = some u → f.server.state ≠ .ready → u.checkCode f.server.store.contents = 0 → calls = .succeed) ∧
      (req.type = .commit → f.server.state = .ready → calls = .succeed ∨ calls = .openFails)
  | .restart => True

/-- The invariant: the follower runs and stands for a participant, and what it voted for is what is pending. -/
def Inv (f : FailingLife) : Prop := f.up = true ∧ ∃ p, Refines f.server p ∧ p.pending = f.promised

variable {f : FailingLife} {req : KvRequest} {calls : LogCalls}

theorem step_message (hup : f.up = true) {res : Option KvResponse} {server : KvServer}
    (hrun : (handleTpcFailing calls req).run f.server = (res, server)) :
    f.step (.message req calls) = ⟨server, res.isSome, promisedAfter f.server.state req res f.promised⟩ := by
  rw [step, if_pos hup, hrun]

theorem keepsWord_message (hup : f.up = true) {res : Option KvResponse} {server : KvServer}
    (hrun : (handleTpcFailing calls req).run f.server = (res, server)) :
    f.KeepsWord (.message req calls) ↔ f.Backed req res server := by
  rw [KeepsWord, hrun]
  exact forall_prop_of_true hup

/-- A message that brings only an answer. -/
theorem Inv.answer (h : f.Inv) {res : KvResponse} (hrun : (handleTpcFailing calls req).run f.server = (some res, f.server))
    (hres : res ≠ ⟨.vote, some msgCommit⟩)
    (hdecision : req.type = .commit ∨ req.type = .abort → f.server.state ≠ .ready) :
    f.KeepsWord (.message req calls) ∧ (f.step (.message req calls)).Inv := by
  obtain ⟨hup, p, href, hpending⟩ := h
  rw [keepsWord_message hup hrun, step_message hup hrun]
  refine ⟨⟨rfl, fun u hu => Or.inr ⟨?_, rfl⟩, fun ht hs => absurd hs (hdecision (Or.inl ht)), fun _ _ => rfl⟩, rfl, p, href, ?_⟩
  · exact fun h => hres (Option.some.inj h)
  · rw [promisedAfter, if_neg (fun h => hres (Option.some.inj h)), if_neg (fun h => hdecision h.1 h.2)]
    exact hpending

/-- A `PUT` or `DELETE`. -/
theorem Inv.prepare (h : f.Inv) {u : Update} (hu : req.update? = some u) :
    (f.KeepsWord (.message req calls) ↔ f.Recorded (.message req calls)) ∧
      (f.Recorded (.message req calls) → (f.step (.message req calls)).Inv) := by
  have hinv := h
  obtain ⟨hup, ⟨m, pending⟩, href, hpending⟩ := h
  have htype : ¬ (req.type = .commit ∨ req.type = .abort) := by
    rcases update?_eq_some hu with ⟨key, value, rfl, -⟩ | ⟨key, value, rfl, -⟩ <;> simp
  have hcommit : req.type ≠ .commit := fun h => htype (Or.inl h)
  by_cases hagree : f.server.state ≠ .ready ∧ u.checkCode f.server.store.contents = 0
  · -- it votes to commit, and what that is worth depends on the calls
    obtain ⟨hstate, hcheck⟩ := hagree
    obtain rfl : pending = none := by
      by_contra hne
      exact hstate (href.state_eq_ready_iff.mpr (Option.isSome_iff_ne_none.mpr hne))
    obtain ⟨hc, hm, hlog, hidle⟩ : Quiescent f.server m := href
    have happend : Appends (ignoring (tpclogLogFailing calls)) f.server.log u.record _ _ := hlog ▸ appends_ignoring calls [] _ _
    have hrun := (handleTpc_agree hu hidle hc hcheck happend).run_eq
    rw [← handleTpc_ignores] at hrun
    have hrecorded : f.Recorded (.message req calls) ↔ calls = .succeed := by
      constructor
      · exact fun h => h.1 u hu hstate hcheck
      · exact fun h => ⟨fun _ _ _ _ => h, fun ht => absurd ht hcommit⟩
    rw [keepsWord_message hup hrun, step_message hup hrun, hrecorded]
    constructor
    · constructor
      · rintro ⟨-, hvote, -, -⟩
        obtain ⟨-, -, id, hload⟩ : _ ∧ _ ∧ ∃ id, _ := (hvote u hu).resolve_right fun h => h.1 rfl
        by_contra hne
        have hfile : ∀ file ∈ calls.files [] u.record, file = none := by
          cases calls with
          | succeed => exact absurd rfl hne
          | openFails => simp [LogCalls.files]
          | writeShort => simp [LogCalls.files]
          | writeFails => simp [LogCalls.files]
        obtain ⟨file, hget, hentry⟩ : ∃ file, (calls.files [] u.record)[id]? = some file ∧ file = some u.record := by
          simpa [tpclogLoadEntry, TpcLog.holding, Directory.file_ofList, Option.join_eq_some_iff] using hload
        rw [hfile file (List.mem_of_getElem? hget)] at hentry
        cases hentry
      · rintro rfl
        refine ⟨rfl, fun v hv => Or.inl ⟨rfl, rfl, 0, ?_⟩, fun ht => absurd ht hcommit, fun ht => absurd ht hcommit⟩
        obtain rfl : u = v := Option.some.inj (hu.symm.trans hv)
        rfl
    · rintro rfl
      refine ⟨rfl, ⟨m, some u⟩, ⟨hc, hm, rfl, rfl, hm ▸ hcheck⟩, ?_⟩
      rw [promisedAfter, if_pos rfl, hu]
  · -- it does not, and leaves everything as it is
    have hrecorded : f.Recorded (.message req calls) := by
      refine ⟨fun v hv hs hcheck => ?_, fun ht => absurd ht hcommit⟩
      obtain rfl : u = v := Option.some.inj (hu.symm.trans hv)
      exact absurd ⟨hs, hcheck⟩ hagree
    obtain ⟨res, hrun, hres⟩ : ∃ res, (handleTpcFailing calls req).run f.server = (some res, f.server) ∧
        res ≠ ⟨.vote, some msgCommit⟩ := by
      by_cases hready : f.server.state = .ready
      · exact ⟨_, (handleTpc_busy _ hu hready).run_eq, by simp⟩
      · have hcheck : u.checkCode f.server.store.contents ≠ 0 := fun h => hagree ⟨hready, h⟩
        obtain rfl : pending = none := by
          by_contra hne
          exact hready (href.state_eq_ready_iff.mpr (Option.isSome_iff_ne_none.mpr hne))
        refine ⟨_, (handleTpc_decline _ hu (Quiescent.state href) href.chained hcheck).run_eq, fun h => ?_⟩
        simp only [KvResponse.mk.injEq, Option.some.injEq] at h
        exact getMsg_ne_msgCommit _ h.2
    obtain ⟨hkeeps, hnext⟩ := hinv.answer hrun hres fun h => absurd h htype
    exact ⟨iff_of_true hkeeps hrecorded, fun _ => hnext⟩

/-- A decision. -/
theorem Inv.decision (h : f.Inv) (hreq : req.type = .commit ∨ req.type = .abort) :
    (f.KeepsWord (.message req calls) ↔ f.Recorded (.message req calls)) ∧
      (f.Recorded (.message req calls) → (f.step (.message req calls)).Inv) := by
  have hinv := h
  obtain ⟨hup, ⟨m, pending⟩, href, hpending⟩ := h
  have hu (u : Update) : req.update? ≠ some u := by
    intro hu
    rcases update?_eq_some hu with ⟨key, value, rfl, -⟩ | ⟨key, value, rfl, -⟩ <;> simp at hreq
  by_cases hstate : f.server.state = .ready
  · obtain ⟨u, rfl⟩ := Option.isSome_iff_exists.mp (href.state_eq_ready_iff.mp hstate)
    obtain ⟨hc, rfl, hlog, -, hagreed⟩ : Prepared f.server u m := href
    have hvalid := Update.valid_of_checkCode hagreed
    have hdone {t : KvServer} (hrun : (handleTpcFailing calls req).run f.server = (some ⟨.ack, none⟩, t))
        {m : KvMap} (ht : Quiescent t m) : (f.step (.message req calls)).Inv := by
      rw [step_message hup hrun]
      refine ⟨rfl, ⟨m, none⟩, ht, ?_⟩
      rw [promisedAfter, if_neg (by simp), if_pos ⟨hreq, hstate⟩]
    rcases hreq with hcommit | habort
    · have hrecorded : f.Recorded (.message req calls) ↔ calls = .succeed ∨ calls = .openFails :=
        ⟨fun h => h.2 hcommit hstate, fun h => ⟨fun v hv => absurd hv (hu v), fun _ _ => h⟩⟩
      by_cases hcalls : calls = .succeed ∨ calls = .openFails
      · obtain ⟨store, pos, hrun, hchained, happlied⟩ := handleTpcFailing_commit hvalid hc hlog hstate hcalls hcommit
        rw [keepsWord_message hup hrun]
        refine ⟨iff_of_true ?_ (hrecorded.mpr hcalls), fun _ => hdone hrun ⟨hchained, happlied, rfl, Or.inr rfl⟩⟩
        exact ⟨rfl, fun v hv => absurd hv (hu v), fun _ _ _ => ⟨u, hpending.symm, happlied⟩, fun _ h => absurd hstate h⟩
      · have htorn : calls = .writeShort ∨ calls = .writeFails := by
          cases calls with
          | succeed => exact absurd (Or.inl rfl) hcalls
          | openFails => exact absurd (Or.inr rfl) hcalls
          | writeShort => exact Or.inl rfl
          | writeFails => exact Or.inr rfl
        have hdies := handleTpcFailing_commit_dies hvalid hc hlog hstate htorn hcommit
        refine ⟨iff_of_false (fun hkeeps => ?_) (hrecorded.not.mpr hcalls), fun h => absurd (hrecorded.mp h) hcalls⟩
        have := (hkeeps hup).answers
        rw [hdies] at this
        cases this
    · have hcommit : req.type ≠ .commit := by rw [habort]; decide
      have happend : Appends (ignoring (tpclogLogFailing calls)) f.server.log (decisionRecord false) _ _ :=
        hlog ▸ appends_ignoring calls [_] _ _
      have hrun := (handleTpc_abort habort hstate happend rfl).run_eq
      rw [← handleTpc_ignores] at hrun
      rw [keepsWord_message hup hrun]
      refine ⟨iff_of_true ?_ ⟨fun v hv => absurd hv (hu v), fun h => absurd h hcommit⟩,
        fun _ => hdone hrun ⟨hc, rfl, rfl, Or.inr rfl⟩⟩
      exact ⟨rfl, fun v hv => absurd hv (hu v), fun h => absurd h hcommit, fun h => absurd h hcommit⟩
  · have hrun := (handleTpc_decision_idle (tpclogLogFailing calls) hreq hstate).run_eq
    obtain ⟨hkeeps, hnext⟩ := hinv.answer hrun (by simp) fun _ => hstate
    exact ⟨iff_of_true hkeeps ⟨fun v hv => absurd hv (hu v), fun _ h => absurd h hstate⟩, fun _ => hnext⟩

/-- One event. -/
theorem Inv.event (h : f.Inv) {e : FailingEvent} (hin : ∀ req ∈ e.request?, req.input?.isSome) :
    (f.KeepsWord e ↔ f.Recorded e) ∧ (f.Recorded e → (f.step e).Inv) := by
  cases e with
  | restart =>
    obtain ⟨-, p, href, hpending⟩ := h
    obtain ⟨t, hrun, ht⟩ := init_refines href
    refine ⟨Iff.rfl, fun _ => ?_⟩
    rw [step, hrun]
    exact ⟨rfl, p, ht, hpending⟩
  | message req calls =>
    cases hu : req.update? with
    | some u => exact h.prepare hu
    | none =>
      by_cases hd : req.type = .commit ∨ req.type = .abort
      · exact h.decision hd
      · obtain ⟨res, hperf, hres⟩ := handleTpc_quiet (tpclogLogFailing calls) f.server (hin req rfl) hu hd
        obtain ⟨hkeeps, hnext⟩ := h.answer hperf.run_eq (fun h => hres (by rw [h])) fun h => absurd h hd
        refine ⟨iff_of_true hkeeps ⟨fun v hv => ?_, fun h => absurd (Or.inl h) hd⟩, fun _ => hnext⟩
        rw [hu] at hv
        cases hv

end FailingLife

/-- **A follower keeps its word** in every event of a life, exactly if in none a call fails that is to log an operation it
agrees to, nor a `write` that is to log the `COMMIT` of one. -/
theorem failingLife_keeps_word (store : KvStore) (hc : store.Chained) (events : List FailingEvent)
    (hin : ∀ e ∈ events, ∀ req ∈ e.request?, req.input?.isSome) :
    Along FailingLife.step FailingLife.KeepsWord (FailingLife.start store) events ↔
      Along FailingLife.step FailingLife.Recorded (FailingLife.start store) events := by
  have hstart : (FailingLife.start store).Inv := ⟨rfl, ⟨store.contents, none⟩, start_refines hc, rfl⟩
  exact along_congr hstart (fun h he => (h.event (hin _ he)).1) fun h he => (h.event (hin _ he)).2

end

section

attribute [local instance] md5Sample

/-- A `PUT`; its `COMMIT`, which cannot be logged; another `PUT`, a restart, and its `ABORT`, of which a part is logged. -/
theorem failingLife_keeps_word_put :
    let events : List FailingEvent := [.message (putA "1") .succeed, .message ⟨.commit, none, none⟩ .openFails,
      .message (putA "2") .succeed, .restart, .message ⟨.abort, none, none⟩ .writeShort]
    Along FailingLife.step FailingLife.KeepsWord (FailingLife.start ⟨.empty⟩) events ↔
      Along FailingLife.step FailingLife.Recorded (FailingLife.start ⟨.empty⟩) events := by
  intro events
  exact failingLife_keeps_word ⟨.empty⟩ KvStore.chained_empty events
    (by simp [events, FailingEvent.request?, KvRequest.input?, putA])

/-- A `PUT` that cannot be logged is voted for; its `COMMIT` is acknowledged, and nothing is applied. -/
theorem failingLife_breaks_word :
    let f := (FailingLife.start ⟨.empty⟩).step (.message (putA "1") .openFails)
    ((handleTpcFailing .openFails (putA "1")).run (FailingLife.start ⟨.empty⟩).server).1 = some ⟨.vote, some msgCommit⟩ ∧
      f.server.log.files.names = ∅ ∧
      ((handleTpcFailing .succeed ⟨.commit, none, none⟩).run f.server).1 = some ⟨.ack, none⟩ ∧
      (f.step (.message ⟨.commit, none, none⟩ .succeed)).server.store.contents (.ofString "a") = none ∧
      ¬ Along FailingLife.step FailingLife.KeepsWord (FailingLife.start ⟨.empty⟩) [.message (putA "1") .openFails] := by
  intro f
  have hvote : ((handleTpcFailing .openFails (putA "1")).run (FailingLife.start ⟨.empty⟩).server).1 =
      some ⟨.vote, some msgCommit⟩ := by decide +kernel
  have hnames : f.server.log.files.names = ∅ := by decide +kernel
  refine ⟨hvote, hnames, by decide +kernel, by decide +kernel, ?_⟩
  rintro ⟨hkeeps, -⟩
  rcases (hkeeps rfl).vote (.put (.ofString "a") (.ofString "1")) rfl with ⟨-, -, id, hload⟩ | ⟨hother, -⟩
  · have hfile : id ∈ f.server.log.files.names :=
      (f.server.log.files.mem_names id).mpr (Option.isSome_iff_exists.mpr ⟨_, Option.join_eq_some_iff.mp hload⟩)
    rw [hnames] at hfile
    exact absurd hfile (Finset.notMem_empty id)
  · exact hother hvote

end

end Cs162Hw.Kv
