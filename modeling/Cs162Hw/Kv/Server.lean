import Cs162Hw.Kv.Store
import Cs162Hw.Kv.Log

/-!
# The follower

`hw4/src/kvserver.c`. A follower has a store, a log and, in memory, its state of
two-phase commit. What it does is a program over the operations of its store and
log and the assignments to `server->state`.

`kvserver_handle_tpc` is written once, over the calls it makes (`TpcCalls`), in any
monad, because the questions asked about it cut it at different places:

* `fileCalls tpclogLog` — every change of a file is one step (crashes between file
  operations);
* `fileCalls tpclogLogTorn` — the same, but a log file is created and then written;
* the calls of `Workers.lean` — each call is one step (several worker threads).

A `NULL` pointer that the source follows is `Program.fault`: the process dies. The
`printf` lines are left out.
-/

namespace Cs162Hw.Kv

open Library
open Library.Program (read perform Performs)

/-- `kvserver_t`: the fields the protocol uses. -/
@[ext]
structure KvServer where
  /-- The store. -/
  store : KvStore
  /-- The log. -/
  log : TpcLog
  /-- The state of two-phase commit. -/
  state : TpcState

/-- What a follower does, one step at a time. -/
inductive ServerOp where
  /-- On its store. -/
  | store (o : StoreOp)
  /-- On its log. -/
  | log (o : LogOp)
  /-- `server->state = state`. -/
  | setState (state : TpcState)
  deriving DecidableEq

instance : Effect ServerOp KvServer where
  exec
    | .store o, server => { server with store := Effect.exec o server.store }
    | .log o, server => { server with log := Effect.exec o server.log }
    | .setState state, server => { server with state := state }

/-- A follower's program. -/
abbrev ServerProgram := Program ServerOp KvServer

/-- A program of the store, run by the server. -/
def onStore {α : Type} (p : Program StoreOp KvStore α) : ServerProgram α := p.lift KvServer.store .store

/-- A program of the log, run by the server. -/
def onLog {α : Type} (p : Program LogOp TpcLog α) : ServerProgram α := p.lift KvServer.log .log

/-- What the store does, the server does to its store. -/
theorem onStore_performs {α : Type} {p : Program StoreOp KvStore α} {s : KvServer} {l : List StoreOp} {a : α}
    {store : KvStore} (h : Performs p s.store l a store) :
    Performs (onStore p) s (l.map .store) a { s with store := store } := by
  have hexec : ∀ (l : List StoreOp) (s : KvServer),
      Program.execAll (l.map ServerOp.store) s = { s with store := Program.execAll l s.store } := by
    intro l
    induction l with
    | nil => exact fun _ => rfl
    | cons o l ih => exact fun s => ih _
  refine (Performs.lift KvServer.store ServerOp.store (fun _ _ => rfl) h).congr rfl ?_
  rw [hexec, h.execAll_eq]

/-- What the log does, the server does to its log. -/
theorem onLog_performs {α : Type} {p : Program LogOp TpcLog α} {s : KvServer} {l : List LogOp} {a : α}
    {log : TpcLog} (h : Performs p s.log l a log) :
    Performs (onLog p) s (l.map .log) a { s with log := log } := by
  have hexec : ∀ (l : List LogOp) (s : KvServer),
      Program.execAll (l.map ServerOp.log) s = { s with log := Program.execAll l s.log } := by
    intro l
    induction l with
    | nil => exact fun _ => rfl
    | cons o l ih => exact fun s => ih _
  refine (Performs.lift KvServer.log ServerOp.log (fun _ _ => rfl) h).congr rfl ?_
  rw [hexec, h.execAll_eq]

variable [StrHash]

/-- `kvserver_get`. -/
def kvserverGet (server : KvServer) (key : CString) : Int × Option CString :=
  if key.strlen > maxKeylen then (errKeyLen, none)
  else kvstoreGet server.store key

omit [StrHash] in
/-- `kvserver_put_check`. -/
def kvserverPutCheck (key value : CString) : Int :=
  if key.strlen > maxKeylen ∨ key.strlen = 0 then errKeyLen
  else if value.strlen > maxVallen then errValLen
  else
    let check := kvstorePutCheck key value
    if check < 0 then check else 0

/-- `kvserver_put`. -/
def kvserverPut (key value : CString) : ServerProgram Int :=
  let check := kvserverPutCheck key value
  if check < 0 then return check
  else onStore (kvstorePut key value)

/-- `kvserver_del_check`. -/
def kvserverDelCheck (server : KvServer) (key : CString) : Int :=
  if key.strlen > maxKeylen ∨ key.strlen = 0 then errKeyLen
  else
    let check := kvstoreDelCheck server.store key
    if check < 0 then check else 0

/-- `kvserver_del`. -/
def kvserverDel (key : CString) : ServerProgram Int := do
  let server ← read
  let check := kvserverDelCheck server key
  if check < 0 then return check
  else onStore (kvstoreDel key)

/-- The body of the loop of `do_log`: redo what the record says. -/
def redo : Option LogEntry → ServerProgram Unit
  | none => .fault
  | some iter =>
    if iter.type = .putReq then
      match parseLog iter.data iter.length with
      | none => .fault
      | some value => do
        let _ ← kvserverPut (.read iter.data) (.read value)
        return
    else if iter.type = .delReq then do
      let _ ← kvserverDel (.read iter.data)
      return
    else return

/-- The loop of `do_log`. -/
def doLogFrom : ℕ → ServerProgram Unit
  | 0 => return
  | fuel + 1 => do
    let server ← read
    if tpclogIterateHasNext server.log then
      let iter ← onLog tpclogIterateNext
      redo iter
      doLogFrom fuel
    else return

/-- `do_log`: redo every record of the log, oldest first. -/
def doLog : ServerProgram Unit := do
  onLog tpclogIterateBegin
  let server ← read
  doLogFrom (server.log.files.names.card + 1)

omit [StrHash] in
/-- The loop of `kvserver_rebuild_state`: `iter` is the last value of its variable. -/
def rebuildFrom : ℕ → Option LogEntry → ServerProgram (Option LogEntry)
  | 0, iter => return iter
  | fuel + 1, iter => do
    let server ← read
    if tpclogIterateHasNext server.log then
      let iter ← onLog tpclogIterateNext
      rebuildFrom fuel iter
    else return iter

/-- `kvserver_rebuild_state` after its loop. -/
def rebuildEnd : Option LogEntry → ServerProgram Int
  | none => return 0
  | some iter => do
    if iter.type = .putReq ∨ iter.type = .delReq then
      perform (.setState .ready)
    else if iter.type = .commit then
      doLog
      let _ ← onLog tpclogClearLog
      perform (.setState .wait)
    else if iter.type = .abort then
      let _ ← onLog tpclogClearLog
      perform (.setState .wait)
    return 0

/-- `kvserver_rebuild_state`. -/
def kvserverRebuildState : ServerProgram Int := do
  onLog tpclogIterateBegin
  let server ← read
  let iter ← rebuildFrom (server.log.files.names.card + 1) none
  rebuildEnd iter

/-- `kvserver_init`, on a directory that may hold the files of an earlier run. -/
def kvserverInit : ServerProgram Int := do
  let _ ← onLog tpclogInit
  perform (.setState .init)
  let _ ← kvserverRebuildState
  return 0

omit [StrHash] in
/-- What a crash leaves of a follower: the files. -/
def KvServer.crash (server : KvServer) : KvServer :=
  ⟨server.store, ⟨server.log.files, 0, 0⟩, .init⟩

/-! ### `kvserver_handle_tpc` -/

/-- The calls `kvserver_handle_tpc` makes, in the monad in which it is to run. -/
structure TpcCalls (m : Type → Type) where
  /-- Read `server->state`. -/
  readState : m TpcState
  /-- `kvserver_put_check`. -/
  putCheck : CString → CString → m Int
  /-- `kvserver_del_check`. -/
  delCheck : CString → m Int
  /-- `tpclog_log`. -/
  log : MsgType → Option CString → Option CString → m Int
  /-- Write `server->state`. -/
  setState : TpcState → m Unit
  /-- `do_log`. -/
  doLog : m Unit
  /-- `tpclog_clear_log`. -/
  clearLog : m Int
  /-- `kvserver_get`. -/
  get : CString → m (Int × Option CString)
  /-- Take `strlen` of `NULL`. -/
  strlenNull : m KvResponse

omit [StrHash] in
/-- `kvserver_handle_tpc`. -/
def kvserverHandleTpc {m : Type → Type} [Monad m] (calls : TpcCalls m) (req : KvRequest) : m KvResponse :=
  match req.type with
  | .putReq => do
    let state ← calls.readState
    if state = .init ∨ state = .wait then
      match req.key, req.val with
      | some key, some val => do
        let check ← calls.putCheck key val
        if check = 0 then
          let _ ← calls.log req.type req.key req.val
          calls.setState .ready
          return ⟨.vote, some msgCommit⟩
        else return ⟨.vote, some (getMsg check)⟩
      | _, _ => calls.strlenNull
    else return ⟨.error, some errmsgInvalidRequest⟩
  | .delReq => do
    let state ← calls.readState
    if state = .init ∨ state = .wait then
      match req.key with
      | some key => do
        let check ← calls.delCheck key
        if check = 0 then
          let _ ← calls.log req.type req.key none
          calls.setState .ready
          return ⟨.vote, some msgCommit⟩
        else return ⟨.vote, some (getMsg check)⟩
      | none => calls.strlenNull
    else return ⟨.error, some errmsgInvalidRequest⟩
  | .commit => do
    let state ← calls.readState
    if state = .ready then
      let _ ← calls.log req.type none none
      calls.setState .commit
      calls.doLog
      let _ ← calls.clearLog
      calls.setState .wait
    return ⟨.ack, none⟩
  | .abort => do
    let state ← calls.readState
    if state = .ready then
      let _ ← calls.log req.type none none
      calls.setState .abort
      let _ ← calls.clearLog
      calls.setState .wait
    return ⟨.ack, none⟩
  | .getReq =>
    match req.key with
    | some key => do
      let (res, body) ← calls.get key
      if res ≠ 0 then return ⟨.error, some (getMsg res)⟩
      else return ⟨.getResp, body⟩
    | none => calls.strlenNull
  | _ => return .blank

/-- The calls, every change of a file one step; `append` is `tpclog_log`. -/
def fileCalls (append : MsgType → Option CString → Option CString → Program LogOp TpcLog Int) :
    TpcCalls ServerProgram where
  readState := do
    let server ← read
    return server.state
  putCheck key value := return kvserverPutCheck key value
  delCheck key := do
    let server ← read
    return kvserverDelCheck server key
  log type key value := onLog (append type key value)
  setState state := perform (.setState state)
  doLog := doLog
  clearLog := onLog tpclogClearLog
  get key := do
    let server ← read
    return kvserverGet server key
  strlenNull := .fault

/-- The follower's handler, a log file written in one operation. -/
def handleTpc (req : KvRequest) : ServerProgram KvResponse := kvserverHandleTpc (fileCalls tpclogLog) req

/-- A request handled to the end: the response, none if the process dies, and the state. -/
def KvServer.handle (server : KvServer) (req : KvRequest) : Option KvResponse × KvServer :=
  (handleTpc req).run server

/-- A crash between two calls of the handler, and `kvserver_init` on what is left. -/
def KvServer.restart (server : KvServer) : KvServer := (kvserverInit.run server.crash).2

end Cs162Hw.Kv
