import Cs162Hw.Library.TwoPhase
import Cs162Hw.Kv.StoreMap
import Cs162Hw.Kv.Server

/-!
# What the follower does

The programs of `Server.lean`, run on a follower whose store is chained and whose log
is gapless: the operations they carry out, what they return and what they leave.

* `Update` is an operation a client can ask for, in the abstract; `Update.record` is what
  the log holds of it. **`redo_performs`**: redoing the record is applying the operation,
  by at most one call on the store's directory.
* `handleTpc_agree`, `handleTpc_decline`, … are the branches of `kvserver_handle_tpc`.
  They hold for both versions of `tpclog_log` (`Appends`).
* `kvserverInit_performs` and the lemmas about `rebuildEnd` say what `kvserver_init` makes
  of a directory that is not empty.
-/

namespace Cs162Hw.Kv

open Library
open Library.Program (read perform Performs)
open Library.TwoPhase (Operations)
open Library.TwoPhase.Operations (apply)

/-! ## Operations -/

/-- What a client can ask to be done. -/
inductive Update where
  /-- Let the key have the value. -/
  | put (key value : CString)
  /-- Let the key have no value. -/
  | del (key : CString)
  deriving DecidableEq

namespace Update

/-- The key it is about. -/
def key : Update → CString
  | put key _ => key
  | del key => key

/-- The record the log keeps of it. -/
def record : Update → LogEntry
  | put key value => ⟨.putReq, key.strlen + 1 + (value.strlen + 1), key.stored ++ value.stored⟩
  | del key => ⟨.delReq, key.strlen + 1, key.stored⟩

/-- Key and value are within their bounds. -/
def Valid : Update → Prop
  | put key value => 1 ≤ key.strlen ∧ key.strlen ≤ maxKeylen ∧ value.strlen ≤ maxVallen
  | del key => 1 ≤ key.strlen ∧ key.strlen ≤ maxKeylen

/-- What is wrong with it on the map `m`: `0`, or an error code. -/
def checkCode : Update → KvMap → Int
  | put key value, _ =>
    if key.strlen > maxKeylen ∨ key.strlen = 0 then errKeyLen
    else if value.strlen > maxVallen then errValLen
    else 0
  | del key, m =>
    if key.strlen > maxKeylen ∨ key.strlen = 0 then errKeyLen
    else if m key = none then errNoKey
    else 0

instance : Operations Update KvMap where
  check u m := decide (u.checkCode m = 0)
  apply
    | put key value, m => Function.update m key (some value)
    | del key, m => Function.update m key none

theorem valid_of_checkCode {u : Update} {m : KvMap} (h : u.checkCode m = 0) : u.Valid := by
  cases u <;> simp only [checkCode] at h <;> split_ifs at h <;> simp only [Valid] <;> first | omega | cases h

/-- A record is of a request, not of a decision. -/
theorem record_type (u : Update) : u.record.type = .putReq ∨ u.record.type = .delReq := by
  cases u <;> simp [record]

/-- Another key is not touched. -/
theorem apply_of_ne {u : Update} {m : KvMap} {k : CString} (h : k ≠ u.key) : apply u m k = m k := by
  cases u <;> exact Function.update_of_ne h _ _

/-- Doing it twice is doing it once. -/
theorem apply_apply (u : Update) (m : KvMap) : apply u (apply u m) = apply u m := by
  cases u <;> exact Function.update_idem ..

/-- The calls on the store's directory that carry it out there. -/
def Writes [StrHash] (u : Update) (store : KvStore) (o : StoreOp) : Prop :=
  match u with
  | put key value => ∃ pos, o = .writeEntry (chain (strhash64 key) pos) (.make key value)
  | del key => ∃ pos value, store.Holds key pos value ∧ KvStore.Deletes (chain (strhash64 key) pos) o

end Update

/-- The record of a decision. -/
def decisionRecord (commit : Bool) : LogEntry := ⟨if commit then .commit else .abort, 0, []⟩

/-- The operation a request asks for. -/
def KvRequest.update? : KvRequest → Option Update
  | ⟨.putReq, some key, some value⟩ => some (.put key value)
  | ⟨.delReq, some key, _⟩ => some (.del key)
  | _ => none

variable [StrHash]

omit [StrHash] in
/-- The two checks of a `PUT` amount to one. -/
theorem kvserverPutCheck_eq (key value : CString) (m : KvMap) :
    kvserverPutCheck key value = (Update.put key value).checkCode m := by
  have hcheck : kvstorePutCheck key value = if key.strlen > maxKeylen then errKeyLen
      else if value.strlen > maxVallen then errValLen else 0 := rfl
  simp only [kvserverPutCheck, Update.checkCode, hcheck]
  split_ifs <;> first | rfl | omega

theorem kvserverDelCheck_eq {s : KvServer} (hc : s.store.Chained) (key : CString) :
    kvserverDelCheck s key = (Update.del key).checkCode s.store.contents := by
  have hneg : errNoKey < 0 := by decide
  simp only [kvserverDelCheck, Update.checkCode, hc.kvstoreDelCheck_eq]
  split_ifs <;> first | rfl | omega

/-! ## Redoing a record -/

/-- `lo` are the calls on the directory of `store` by which a redo carries out `u`. -/
structure Redo (u : Update) (store : KvStore) (lo : List StoreOp) : Prop where
  /-- There is at most one. -/
  short : lo.length ≤ 1
  /-- There is one if the operation was agreed to. -/
  changes : u.checkCode store.contents = 0 → lo.length = 1
  /-- It is one for this operation. -/
  writes : ∀ o ∈ lo, u.Writes store o
  /-- The chains stay complete. -/
  chained : (Program.execAll lo store).Chained
  /-- The map is that with the operation applied. -/
  applied : (Program.execAll lo store).contents = apply u store.contents

theorem redo_put_performs {key value : CString} (hu : (Update.put key value).Valid) {s : KvServer}
    (hc : s.store.Chained) : ∃ lo, Redo (.put key value) s.store lo ∧
      Performs (redo (some (Update.put key value).record)) s (lo.map .store) ()
        { s with store := Program.execAll lo s.store } := by
  obtain ⟨hk₁, hk₂, hv⟩ := hu
  obtain ⟨pos, hput, hc', hm⟩ := KvStore.kvstorePut_performs hc hk₂ hv
  refine ⟨[_], ⟨le_rfl, fun _ => rfl, fun o ho => ⟨pos, List.mem_singleton.mp ho⟩, hc', hm⟩, ?_⟩
  have hparse : parseLog (key.stored ++ value.stored) (key.strlen + 1 + (value.strlen + 1)) = some value.stored :=
    parseLog_stored key _ (by omega)
  have hkey : CString.read (key.stored ++ value.stored) = key := CString.read_stored key _
  have hvalue : CString.read value.stored = value := by simpa using CString.read_stored value []
  have hcheck : ¬ kvserverPutCheck key value < 0 := by
    rw [kvserverPutCheck_eq key value s.store.contents, Update.checkCode, if_neg (by omega), if_neg (by omega)]
    decide
  simp only [redo, Update.record, if_true, hparse, hkey, hvalue, kvserverPut, if_neg hcheck]
  exact Performs.congr (Performs.bind (onStore_performs hput) (.pure _ _)) (List.append_nil _) rfl

theorem redo_del_performs {key : CString} (hu : (Update.del key).Valid) {s : KvServer}
    (hc : s.store.Chained) : ∃ lo, Redo (.del key) s.store lo ∧
      Performs (redo (some (Update.del key).record)) s (lo.map .store) ()
        { s with store := Program.execAll lo s.store } := by
  obtain ⟨hk₁, hk₂⟩ := hu
  have hkey : CString.read key.stored = key := by simpa using CString.read_stored key []
  have hcode : kvserverDelCheck s key = if s.store.contents key = none then errNoKey else 0 := by
    rw [kvserverDelCheck_eq hc, Update.checkCode, if_neg (by omega)]
  have hredo : redo (some (Update.del key).record) = (kvserverDel key >>= fun _ => pure ()) := by
    simp only [redo, Update.record, hkey]
    rw [if_neg (by decide), if_pos trivial]
  rw [hredo]
  by_cases habsent : s.store.contents key = none
  · -- nothing to delete: `kvserver_del` stops at its check
    have hrun : Performs (kvserverDel key) s [] errNoKey s := by
      refine .read_bind ?_
      simp only [hcode, if_pos habsent]
      exact .ite_pos (by decide) (.pure _ _)
    refine ⟨[], ⟨by simp, fun h => ?_, by simp, hc, ?_⟩, hrun.bind (.pure _ _)⟩
    · exfalso
      simp only [Update.checkCode] at h
      rw [if_neg (by omega), if_pos habsent] at h
      exact absurd h (by decide)
    · exact (Function.update_eq_self_iff.mpr habsent.symm).symm
  · obtain ⟨value, hvalue⟩ := Option.ne_none_iff_exists'.mp habsent
    obtain ⟨-, pos, hholds⟩ := hc.contents_eq_some_iff.mp hvalue
    obtain ⟨o, hdel, hperf, hc', hm⟩ := KvStore.kvstoreDel_performs hc hholds hk₂
    have hrun : Performs (kvserverDel key) s [.store o] 0 { s with store := Effect.exec o s.store } := by
      refine .read_bind ?_
      simp only [hcode, if_neg habsent]
      exact .ite_neg (by decide) (onStore_performs hperf)
    refine ⟨[o], ⟨le_rfl, fun _ => rfl, fun o' ho' => ?_, hc', hm⟩, ?_⟩
    · rw [List.mem_singleton.mp ho']
      exact ⟨pos, value, hholds, hdel⟩
    · exact Performs.congr (hrun.bind (.pure _ _)) (List.append_nil _) rfl

/-- **Redoing the record of an operation** on a chained store applies the operation, by at
most one call on the directory. -/
theorem redo_performs {u : Update} (hu : u.Valid) {s : KvServer} (hc : s.store.Chained) :
    ∃ lo, Redo u s.store lo ∧ Performs (redo (some u.record)) s (lo.map .store) ()
      { s with store := Program.execAll lo s.store } := by
  cases u with
  | put key value => exact redo_put_performs hu hc
  | del key => exact redo_del_performs hu hc

theorem redo_decision_performs (commit : Bool) (s : KvServer) :
    Performs (redo (some (decisionRecord commit))) s [] () s := by
  cases commit <;> exact .pure _ _

/-! ## Reading the log -/

omit [StrHash] in
/-- The operations of an iteration over the files `i`, …, `n-1`. -/
def iterations (i n : ℕ) : List ServerOp := (List.range' (i + 1) (n - i)).map fun j => .log (.setIterpos j)

omit [StrHash] in
theorem iterations_of_lt {i n : ℕ} (h : i < n) : iterations i n = .log (.setIterpos (i + 1)) :: iterations (i + 1) n := by
  unfold iterations
  rw [show n - i = (n - (i + 1)) + 1 by omega, List.range'_succ, List.map_cons]

omit [StrHash] in
@[simp] theorem iterations_self (n : ℕ) : iterations n n = [] := by simp [iterations]

/-- One round of the loop of `do_log`. -/
theorem doLogFrom_next {s t u : KvServer} {l : List (Option LogEntry)} (hl : s.log.files = .ofList l)
    {f : Option LogEntry} (hf : l[s.log.iterpos]? = some f) {lr lt : List ServerOp} {fuel : ℕ}
    (hredo : Performs (redo f) { s with log := { s.log with iterpos := s.log.iterpos + 1 } } lr () t)
    (hrest : Performs (doLogFrom fuel) t lt () u) :
    Performs (doLogFrom (fuel + 1)) s (.log (.setIterpos (s.log.iterpos + 1)) :: (lr ++ lt)) () u := by
  refine .read_bind (.ite_pos ?_ ((onLog_performs (tpclogIterateNext_performs hl hf)).bind (hredo.bind hrest)))
  rw [tpclogIterateHasNext_eq hl, decide_eq_true_iff]
  exact (List.getElem?_eq_some_iff.mp hf).1

/-- The loop of `do_log` stops behind the last file. -/
theorem doLogFrom_stop {s : KvServer} {l : List (Option LogEntry)} (hl : s.log.files = .ofList l)
    (hend : l.length ≤ s.log.iterpos) (fuel : ℕ) : Performs (doLogFrom fuel) s [] () s := by
  cases fuel with
  | zero => exact .pure _ _
  | succ n =>
    refine .read_bind (.ite_neg ?_ (.pure _ _))
    rw [tpclogIterateHasNext_eq hl, decide_eq_true_iff]
    omega

omit [StrHash] in
/-- The loop of `kvserver_rebuild_state` returns what the last file holds. -/
theorem rebuildFrom_performs {s : KvServer} {l : List (Option LogEntry)} (hl : s.log.files = .ofList l)
    (hpos : s.log.iterpos ≤ l.length) {fuel : ℕ} (hfuel : l.length < s.log.iterpos + fuel)
    (iter : Option LogEntry) :
    Performs (rebuildFrom fuel iter) s (iterations s.log.iterpos l.length)
      ((l.drop s.log.iterpos).getLastD iter) { s with log := { s.log with iterpos := l.length } } := by
  induction fuel generalizing s iter with
  | zero => omega
  | succ n ih =>
    refine .read_bind ?_
    rcases Nat.lt_or_eq_of_le hpos with hlt | heq
    · refine .ite_pos (by rw [tpclogIterateHasNext_eq hl, decide_eq_true_iff]; exact hlt) ?_
      have hf : l[s.log.iterpos]? = some l[s.log.iterpos] := List.getElem?_eq_getElem hlt
      have hnext := onLog_performs (tpclogIterateNext_performs hl hf)
      have hrest := ih (s := { s with log := { s.log with iterpos := s.log.iterpos + 1 } }) hl
        hlt (by simp only; omega) l[s.log.iterpos]
      rw [iterations_of_lt hlt, List.drop_eq_getElem_cons hlt, List.getLastD_cons]
      exact hnext.bind hrest
    · refine .ite_neg (by rw [tpclogIterateHasNext_eq hl, decide_eq_true_iff]; omega) ?_
      rw [heq, iterations_self, List.drop_length, ← heq]
      exact .pure _ _

omit [StrHash] in
/-- The operations of `do_log` on the records of one transaction, `lo` being those on the
store. -/
def doLogOps (lo : List StoreOp) : List ServerOp :=
  .log (.setIterpos 0) :: .log (.setIterpos 1) :: (lo.map .store ++ [.log (.setIterpos 2)])

omit [StrHash] in
/-- The operations of `tpclog_clear_log` on `n` files, and the assignment behind it. -/
def clearOps (n : ℕ) : List ServerOp := (removals 0 n ++ [LogOp.setNextid 0]).map .log ++ [.setState .wait]

/-- **`do_log`** on the records of one committed transaction applies its operation. -/
theorem doLog_performs {u : Update} (hu : u.Valid) {s : KvServer} (hc : s.store.Chained)
    (hl : s.log.files = .ofList [some u.record, some (decisionRecord true)]) :
    ∃ lo, Redo u s.store lo ∧ Performs doLog s (doLogOps lo) ()
      ⟨Program.execAll lo s.store, { s.log with iterpos := 2 }, s.state⟩ := by
  obtain ⟨lo, hlo, hredo⟩ := redo_performs hu (s :=
    { s with log := { s.log with iterpos := 1 } }) hc
  refine ⟨lo, hlo, (onLog_performs (.perform (.setIterpos 0) s.log)).bind (.read_bind ?_)⟩
  have hcard : s.log.files.names.card = 2 := by rw [hl]; simp
  rw [show (Effect.exec (LogOp.setIterpos 0) s.log).files = s.log.files from rfl, hcard]
  have hstop := doLogFrom_stop
    (s := ⟨Program.execAll lo s.store, { s.log with iterpos := 2 }, s.state⟩) hl le_rfl 1
  have hdecision := doLogFrom_next
    (s := ⟨Program.execAll lo s.store, { s.log with iterpos := 1 }, s.state⟩) hl rfl
    (redo_decision_performs true _) hstop
  exact doLogFrom_next (s := ⟨s.store, { s.log with iterpos := 0 }, s.state⟩) hl rfl hredo hdecision

omit [StrHash] in
/-- Clearing the log, the assignment behind it, and the result. -/
theorem clear_performs {α : Type} {s : KvServer} {l : List (Option LogEntry)} (hl : s.log.files = .ofList l)
    (a : α) : Performs (do
      let _ ← onLog tpclogClearLog
      perform (.setState .wait)
      return a) s (clearOps l.length) a ⟨s.store, .holding [] s.log.iterpos, .wait⟩ :=
  (onLog_performs (tpclogClearLog_performs hl)).bind (.perform_bind (.pure _ _))

/-! ## What `kvserver_handle_tpc` does -/

omit [StrHash] in
/-- From the log `log`, appending `entry` is the operations `la` and leaves `log'`. -/
def Appends (append : MsgType → Option CString → Option CString → Program LogOp TpcLog Int) (log : TpcLog)
    (entry : LogEntry) (la : List LogOp) (log' : TpcLog) : Prop :=
  ∀ type key value, Loggable type → LogEntry.make type key value = some entry →
    Performs (append type key value) log la 0 log'

omit [StrHash] in
theorem appends_tpclogLog (l : List (Option LogEntry)) (pos : ℕ) (entry : LogEntry) :
    Appends tpclogLog (.holding l pos) entry [.writeLog l.length entry, .setNextid (l.length + 1)]
      (.holding (l ++ [some entry]) pos) :=
  fun _ _ _ ht he => tpclogLog_performs ht he l pos

omit [StrHash] in
theorem appends_tpclogLogTorn (l : List (Option LogEntry)) (pos : ℕ) (entry : LogEntry) :
    Appends tpclogLogTorn (.holding l pos) entry
      [.createLog l.length, .setNextid (l.length + 1), .writeLog l.length entry] (.holding (l ++ [some entry]) pos) :=
  fun _ _ _ ht he => tpclogLogTorn_performs ht he l pos

omit [StrHash] in
theorem update?_eq_some {req : KvRequest} {u : Update} (h : req.update? = some u) :
    (∃ key value, req = ⟨.putReq, some key, some value⟩ ∧ u = .put key value) ∨
      ∃ key value, req = ⟨.delReq, some key, value⟩ ∧ u = .del key := by
  obtain ⟨type, key, val⟩ := req
  unfold KvRequest.update? at h
  split at h
  · next key value heq => exact Or.inl ⟨key, value, heq, (Option.some.inj h).symm⟩
  · next key value heq => exact Or.inr ⟨key, value, heq, (Option.some.inj h).symm⟩
  · cases h

section Handler

variable {append : MsgType → Option CString → Option CString → Program LogOp TpcLog Int}
  {s : KvServer} {req : KvRequest} {u : Update}

/-- A follower with nothing pending agrees to what passes its check, when it has logged it. -/
theorem handleTpc_agree (hreq : req.update? = some u) (hstate : s.state = .init ∨ s.state = .wait)
    (hc : s.store.Chained) (hcheck : u.checkCode s.store.contents = 0) {la : List LogOp} {log' : TpcLog}
    (happend : Appends append s.log u.record la log') :
    Performs (kvserverHandleTpc (fileCalls append) req) s (la.map .log ++ [.setState .ready])
      ⟨.vote, some msgCommit⟩ ⟨s.store, log', .ready⟩ := by
  rcases update?_eq_some hreq with ⟨key, value, rfl, rfl⟩ | ⟨key, value, rfl, rfl⟩
  · refine .read_bind (.ite_pos hstate ?_)
    have hput : kvserverPutCheck key value = 0 := by rw [kvserverPutCheck_eq, hcheck]
    exact .ite_pos hput ((onLog_performs (happend .putReq _ _ (by decide) (make_putReq key value))).bind
      (.perform_bind (.pure _ _)))
  · refine .read_bind (.ite_pos hstate (.read_bind ?_))
    have hdel : kvserverDelCheck s key = 0 := by rw [kvserverDelCheck_eq hc, hcheck]
    exact .ite_pos hdel ((onLog_performs (happend .delReq _ _ (by decide) (make_delReq key none))).bind
      (.perform_bind (.pure _ _)))

/-- It declines what does not pass, and says why. -/
theorem handleTpc_decline (append : MsgType → Option CString → Option CString → Program LogOp TpcLog Int)
    (hreq : req.update? = some u) (hstate : s.state = .init ∨ s.state = .wait)
    (hc : s.store.Chained) (hcheck : u.checkCode s.store.contents ≠ 0) :
    Performs (kvserverHandleTpc (fileCalls append) req) s []
      ⟨.vote, some (getMsg (u.checkCode s.store.contents))⟩ s := by
  rcases update?_eq_some hreq with ⟨key, value, rfl, rfl⟩ | ⟨key, value, rfl, rfl⟩
  · refine .read_bind (.ite_pos hstate ?_)
    have hput := kvserverPutCheck_eq key value s.store.contents
    rw [← hput] at hcheck ⊢
    exact .ite_neg hcheck (.pure _ _)
  · refine .read_bind (.ite_pos hstate (.read_bind ?_))
    rw [← kvserverDelCheck_eq hc] at hcheck ⊢
    exact .ite_neg hcheck (.pure _ _)

/-- With an operation pending it answers an error. -/
theorem handleTpc_busy (append : MsgType → Option CString → Option CString → Program LogOp TpcLog Int)
    (hreq : req.update? = some u) (hstate : s.state = .ready) :
    Performs (kvserverHandleTpc (fileCalls append) req) s [] ⟨.error, some errmsgInvalidRequest⟩ s := by
  rcases update?_eq_some hreq with ⟨key, value, rfl, rfl⟩ | ⟨key, value, rfl, rfl⟩ <;>
    exact .read_bind (.ite_neg (by rw [hstate]; decide) (.pure _ _))

/-- A `COMMIT` to a follower with an operation pending. -/
theorem handleTpc_commit (hreq : req.type = .commit) (hstate : s.state = .ready) (hu : u.Valid)
    (hc : s.store.Chained) {la : List LogOp} {log' : TpcLog}
    (happend : Appends append s.log (decisionRecord true) la log')
    (hl : log'.files = .ofList [some u.record, some (decisionRecord true)]) :
    ∃ lo, Redo u s.store lo ∧ Performs (kvserverHandleTpc (fileCalls append) req) s
      (la.map .log ++ .setState .commit :: (doLogOps lo ++ clearOps 2)) ⟨.ack, none⟩
      ⟨Program.execAll lo s.store, .holding [] 2, .wait⟩ := by
  obtain ⟨lo, hlo, hdo⟩ := doLog_performs hu (s := ⟨s.store, log', .commit⟩) hc hl
  refine ⟨lo, hlo, ?_⟩
  obtain ⟨type, key, val⟩ := req
  obtain rfl : type = .commit := hreq
  have hlog := onLog_performs (happend .commit none none (by decide) (make_commit none none))
  have hclear := clear_performs (s :=
    ⟨Program.execAll lo s.store, { log' with iterpos := 2 }, .commit⟩) hl (⟨.ack, none⟩ : KvResponse)
  exact .read_bind (.ite_pos hstate (hlog.bind (.perform_bind (hdo.bind hclear))))

/-- An `ABORT` to a follower with an operation pending, whatever its log holds. -/
theorem handleTpc_abort (hreq : req.type = .abort) (hstate : s.state = .ready) {la : List LogOp} {log' : TpcLog}
    (happend : Appends append s.log (decisionRecord false) la log') {l : List (Option LogEntry)}
    (hl : log'.files = .ofList l) :
    Performs (kvserverHandleTpc (fileCalls append) req) s
      (la.map .log ++ .setState .abort :: clearOps l.length) ⟨.ack, none⟩
      ⟨s.store, .holding [] log'.iterpos, .wait⟩ := by
  obtain ⟨type, key, val⟩ := req
  obtain rfl : type = .abort := hreq
  have hlog := onLog_performs (happend .abort none none (by decide) (make_abort none none))
  have hclear := clear_performs (s := ⟨s.store, log', .abort⟩) hl (⟨.ack, none⟩ : KvResponse)
  exact .read_bind (.ite_pos hstate (hlog.bind (.perform_bind hclear)))

/-- A decision to a follower with nothing pending is acknowledged, no more. -/
theorem handleTpc_decision_idle
    (append : MsgType → Option CString → Option CString → Program LogOp TpcLog Int)
    (hreq : req.type = .commit ∨ req.type = .abort) (hstate : s.state ≠ .ready) :
    Performs (kvserverHandleTpc (fileCalls append) req) s [] ⟨.ack, none⟩ s := by
  obtain ⟨type, key, val⟩ := req
  rcases hreq with h | h <;> obtain rfl := h <;>
    exact .read_bind (.ite_neg hstate (.pure _ _))

/-- A `GET` only reads. -/
theorem handleTpc_get (append : MsgType → Option CString → Option CString → Program LogOp TpcLog Int)
    (s : KvServer) (key : CString) (val : Option CString) :
    Performs (kvserverHandleTpc (fileCalls append) ⟨.getReq, some key, val⟩) s []
      (if (kvserverGet s key).1 ≠ 0 then ⟨.error, some (getMsg (kvserverGet s key).1)⟩
        else ⟨.getResp, (kvserverGet s key).2⟩) s := by
  refine .read_bind ?_
  rcases kvserverGet s key with ⟨code, body⟩
  by_cases h : code ≠ 0
  · rw [if_pos (show (code, body).1 ≠ 0 from h)]
    exact .ite_pos h (.pure _ _)
  · rw [if_neg (show ¬ (code, body).1 ≠ 0 from h)]
    exact .ite_neg h (.pure _ _)

end Handler

/-! ## What `kvserver_init` does -/

omit [StrHash] in
/-- The operations of `kvserver_init` up to the end of its loop, on `n` log files. -/
def initOps (n : ℕ) : List ServerOp :=
  .log (.setNextid n) :: .setState .init :: .log (.setIterpos 0) :: iterations 0 n

section Restart

variable {s : KvServer} {u : Update}

/-- `kvserver_rebuild_state` reads a gapless log to its end, and goes by its last file. -/
theorem kvserverRebuildState_performs {l : List (Option LogEntry)} (hl : s.log.files = .ofList l)
    {lt : List ServerOp} {t : KvServer} {a : Int}
    (hend : Performs (rebuildEnd (l.getLastD none))
      ⟨s.store, ⟨s.log.files, s.log.nextid, l.length⟩, s.state⟩ lt a t) :
    Performs kvserverRebuildState s (.log (.setIterpos 0) :: (iterations 0 l.length ++ lt)) a t := by
  have hbegin := onLog_performs (.perform (.setIterpos 0) s.log)
  have hloop := rebuildFrom_performs (s := ⟨s.store, ⟨s.log.files, s.log.nextid, 0⟩, s.state⟩)
    hl (Nat.zero_le _) (show l.length < 0 + (l.length + 1) by omega) none
  have hcard : s.log.files.names.card = l.length := by rw [hl, Directory.card_names_ofList]
  refine hbegin.bind (.read_bind ?_)
  rw [show (Effect.exec (LogOp.setIterpos 0) s.log).files = s.log.files from rfl, hcard]
  exact hloop.bind hend

/-- So does `kvserver_init`. -/
theorem kvserverInit_performs {l : List (Option LogEntry)} (hl : s.log.files = .ofList l) {lt : List ServerOp}
    {t : KvServer} {a : Int}
    (hend : Performs (rebuildEnd (l.getLastD none)) ⟨s.store, .holding l l.length, .init⟩ lt a t) :
    Performs kvserverInit s (initOps l.length ++ lt) 0 t := by
  have hinit := onLog_performs (tpclogInit_performs hl)
  have hrebuild := kvserverRebuildState_performs
    (s := ⟨s.store, ⟨.ofList l, l.length, s.log.iterpos⟩, .init⟩) rfl hend
  refine Performs.congr (hinit.bind (.perform_bind (hrebuild.bind (.pure _ _)))) ?_ rfl
  rw [List.append_nil]
  rfl

theorem rebuildEnd_none_performs : Performs (rebuildEnd none) s [] 0 s := .pure _ _

theorem rebuildEnd_record_performs :
    Performs (rebuildEnd (some u.record)) s [.setState .ready] 0 { s with state := .ready } :=
  .ite_pos (Update.record_type u) (.perform_bind (.pure _ _))

theorem rebuildEnd_commit_performs (hu : u.Valid) (hc : s.store.Chained)
    (hl : s.log.files = .ofList [some u.record, some (decisionRecord true)]) :
    ∃ lo, Redo u s.store lo ∧ Performs (rebuildEnd (some (decisionRecord true))) s
      (doLogOps lo ++ clearOps 2) 0 ⟨Program.execAll lo s.store, .holding [] 2, .wait⟩ := by
  obtain ⟨lo, hlo, hdo⟩ := doLog_performs hu hc hl
  have hclear := clear_performs (s :=
    ⟨Program.execAll lo s.store, { s.log with iterpos := 2 }, s.state⟩) hl (0 : Int)
  exact ⟨lo, hlo, hdo.bind hclear⟩

theorem rebuildEnd_abort_performs {l : List (Option LogEntry)} (hl : s.log.files = .ofList l) :
    Performs (rebuildEnd (some (decisionRecord false))) s (clearOps l.length) 0
      ⟨s.store, .holding [] s.log.iterpos, .wait⟩ :=
  clear_performs hl (0 : Int)

/-- Where there is no first log file, there is no log: whatever else the directory holds. -/
theorem kvserverInit_vacant (h : s.log.files.stat 0 = false) :
    Performs kvserverInit s (initOps 0) 0 ⟨s.store, ⟨s.log.files, 0, 0⟩, .init⟩ := by
  have hfree : s.log.files.firstFree (fun i => i) 0 = 0 := Directory.firstFree_of_vacant h
  have hinit : Performs tpclogInit s.log [.setNextid 0] 0 { s.log with nextid := 0 } := by
    refine .read_bind ?_
    rw [hfree]
    exact .perform_bind (.pure _ _)
  have hbegin := onLog_performs (s := ⟨s.store, { s.log with nextid := 0 }, .init⟩)
    (.perform (.setIterpos 0) _)
  have hrebuild : Performs kvserverRebuildState ⟨s.store, { s.log with nextid := 0 }, .init⟩
      [.log (.setIterpos 0)] 0 ⟨s.store, ⟨s.log.files, 0, 0⟩, .init⟩ := by
    refine hbegin.bind (.read_bind (Performs.bind (l := []) (a := none) (.read_bind (.ite_neg ?_ (.pure _ _))) (.pure _ _)))
    simpa [tpclogIterateHasNext, Effect.exec] using h
  exact (onLog_performs hinit).bind (.perform_bind (hrebuild.bind (.pure _ _)))

end Restart

end Cs162Hw.Kv
