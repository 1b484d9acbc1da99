import Cs162Hw.Kv.Crash

/-!
# What a crash while the log is cleared does

A follower over its whole life: messages, crashes at any operation of the handler or of
`kvserver_init`, restarts. `tpclog.h` promises a log whose files are numbered in
sequence; `tpclog_clear_log` removes them in ascending order, so a crash between two
removals leaves `1.log` without `0.log`, and the next transaction puts its record in
front of the decision of the last one.

* `Life` is the life of a follower with what could be observed of it: the messages it
  received and the operations it carried out, latest first.
* `Honest` says of such a past that an operation on the store is always one for a `PUT` or
  `DELETE` whose logging was followed by a `COMMIT` before any `ABORT`.
* **`life_honest`**: a life in which no crash cuts a clearing in two is honest, and its log
  gapless; `cutClear_replays` is one in which a crash does.
-/

namespace Cs162Hw.Kv

open Library
open Library.Program (Performs Throughout crashAt execAll)
open Library.TwoPhase.Operations (apply)

/-! ## Observations -/

/-- What can be observed of a follower. -/
inductive Observation where
  /-- It received a message of this type. -/
  | received (type : MsgType)
  /-- It carried out an operation; `before` is its state before it. -/
  | did (before : KvServer) (o : ServerOp)

namespace Observation

/-- Is it the logging of `u`? -/
def logs (u : Update) : Observation → Bool
  | did _ (.log (.writeLog _ entry)) => entry = u.record
  | _ => false

/-- The decision received, if it is one. -/
def decision? : Observation → Option Bool
  | received .commit => some true
  | received .abort => some false
  | _ => none

end Observation

/-- The past `past`, latest first, with the operations `l` added, carried out from `s`. -/
def observe : KvServer → List ServerOp → List Observation → List Observation
  | _, [], past => past
  | s, o :: l, past => observe (Effect.exec o s) l (.did s o :: past)

/-- What was observed since `u` was last logged. -/
def sinceLogged (u : Update) (past : List Observation) : List Observation := past.takeWhile fun x => !x.logs u

/-- `u` was logged, and no decision was received since. -/
def Open (u : Update) (past : List Observation) : Prop :=
  past.any (·.logs u) = true ∧ (sinceLogged u past).filterMap Observation.decision? = []

/-- `u` was logged, and the first decision received since was a `COMMIT`. -/
def Committed (u : Update) (past : List Observation) : Prop :=
  past.any (·.logs u) = true ∧ ((sinceLogged u past).filterMap Observation.decision?).getLast? = some true

instance (u : Update) (past : List Observation) : Decidable (Committed u past) := inferInstanceAs (Decidable (_ ∧ _))

/-- Every operation on the store carried out a `PUT` or `DELETE` that was committed. -/
def Honest [StrHash] : List Observation → Prop
  | [] => True
  | .did s (.store o) :: past => (∃ u : Update, u.Writes s.store o ∧ Committed u past) ∧ Honest past
  | _ :: past => Honest past

/-! ## Lives -/

/-- A follower, whether it is up, and its past. -/
structure Life where
  /-- The process, or what a crash left of it. -/
  server : KvServer
  /-- Is the process running? -/
  up : Bool
  /-- What was observed, latest first. -/
  past : List Observation

/-- What happens to it. -/
inductive LifeEvent where
  /-- A message arrives and is handled to the end. -/
  | message (req : KvRequest)
  /-- A message arrives and the process crashes after `n` operations of the handler. With
  `n = 0` the message is lost with it. -/
  | crashIn (req : KvRequest) (n : ℕ)
  /-- The process, up or not, is started again, and `kvserver_init` gets to its end. -/
  | restart
  /-- It is started again, and crashes after `n` operations of `kvserver_init`. -/
  | crashInRestart (n : ℕ)

/-- The message of an event. -/
def LifeEvent.request? : LifeEvent → Option KvRequest
  | message req => some req
  | crashIn req _ => some req
  | _ => none

section

variable [StrHash]

/-- The past after the operations `l` of the handler of `req`; without any the message was not received. -/
def observeHandler (s : KvServer) (req : KvRequest) (l : List ServerOp) (past : List Observation) : List Observation :=
  if l = [] then past else observe s l (.received req.type :: past)

namespace Life

/-- One event. A process that is down receives nothing. -/
def step (f : Life) : LifeEvent → Life
  | .message req =>
    if f.up then
      let p := handleTpc req
      ⟨(p.run f.server).2, (p.run f.server).1.isSome, observe f.server (p.ops f.server) (.received req.type :: f.past)⟩
    else f
  | .crashIn req n =>
    if f.up then
      let l := ((handleTpc req).ops f.server).take n
      ⟨(execAll l f.server).crash, false, observeHandler f.server req l f.past⟩
    else f
  | .restart =>
    let s := f.server.crash
    ⟨(kvserverInit.run s).2, (kvserverInit.run s).1.isSome, observe s (kvserverInit.ops s) f.past⟩
  | .crashInRestart n =>
    let s := f.server.crash
    let l := (kvserverInit.ops s).take n
    ⟨(execAll l s).crash, false, observe s l f.past⟩

/-- A sequence of events. -/
def run (f : Life) (events : List LifeEvent) : Life := events.foldl step f

/-- The life of a follower that starts on a store and no log. -/
def start (store : KvStore) : Life := ⟨KvServer.start store, true, []⟩

end Life

/-- Does the operation remove a log file? -/
def ServerOp.removes : ServerOp → Bool
  | .log (.removeLog _) => true
  | _ => false

/-- A crash after `n` of the operations `l` falls between two removals of log files. -/
def CutsClear (l : List ServerOp) (n : ℕ) : Prop :=
  (l.take n).any ServerOp.removes = true ∧ (l.drop n).any ServerOp.removes = true

instance (l : List ServerOp) (n : ℕ) : Decidable (CutsClear l n) := inferInstanceAs (Decidable (_ ∧ _))

/-- The event does not cut a clearing in two. -/
def Life.Clean (f : Life) : LifeEvent → Prop
  | .crashIn req n => ¬ CutsClear ((handleTpc req).ops f.server) n
  | .crashInRestart n => ¬ CutsClear (kvserverInit.ops f.server.crash) n
  | _ => True

/-- No event of the sequence does. -/
def Life.CleanRun : Life → List LifeEvent → Prop
  | _, [] => True
  | f, e :: events => f.Clean e ∧ (f.step e).CleanRun events

instance (f : Life) (e : LifeEvent) : Decidable (f.Clean e) :=
  match e with
  | .message _ => .isTrue trivial
  | .crashIn _ _ => inferInstanceAs (Decidable (¬ _))
  | .restart => .isTrue trivial
  | .crashInRestart _ => inferInstanceAs (Decidable (¬ _))

/-- Whether no event cuts a clearing can be computed. -/
def Life.decideCleanRun (f : Life) : (events : List LifeEvent) → Decidable (f.CleanRun events)
  | [] => .isTrue trivial
  | e :: events =>
    have := decideCleanRun (f.step e) events
    inferInstanceAs (Decidable (_ ∧ _))

instance (f : Life) (events : List LifeEvent) : Decidable (f.CleanRun events) := f.decideCleanRun events

/-! ## The past -/

omit [StrHash] in
theorem observe_append (s : KvServer) (l l' : List ServerOp) (past : List Observation) :
    observe s (l ++ l') past = observe (execAll l s) l' (observe s l past) := by
  induction l generalizing s past with
  | nil => rfl
  | cons o l ih => exact ih _ _

omit [StrHash] in
theorem sinceLogged_cons {u : Update} {x : Observation} (hx : x.logs u = false) (past : List Observation) :
    sinceLogged u (x :: past) = x :: sinceLogged u past := by
  simp [sinceLogged, hx]

omit [StrHash] in
/-- The logging of `u` opens it. -/
theorem open_logged (u : Update) (s : KvServer) (id : ℕ) (past : List Observation) :
    Open u (.did s (.log (.writeLog id u.record)) :: past) := by
  simp [Open, sinceLogged, Observation.logs]

omit [StrHash] in
/-- The first decision after the logging settles it. -/
theorem Open.commit {u : Update} {past : List Observation} (h : Open u past) : Committed u (.received .commit :: past) := by
  refine ⟨by simp [h.1], ?_⟩
  rw [sinceLogged_cons rfl, List.filterMap_cons, h.2]
  rfl

omit [StrHash] in
theorem Open.cons {u : Update} {past : List Observation} (h : Open u past) {x : Observation} (hx : x.logs u = false)
    (hd : x.decision? = none) : Open u (x :: past) := by
  refine ⟨by simp [h.1], ?_⟩
  rw [sinceLogged_cons hx, List.filterMap_cons, hd]
  exact h.2

omit [StrHash] in
theorem Committed.cons {u : Update} {past : List Observation} (h : Committed u past) {x : Observation}
    (hx : x.logs u = false) (hd : x.decision? = none) : Committed u (x :: past) := by
  refine ⟨by simp [h.1], ?_⟩
  rw [sinceLogged_cons hx, List.filterMap_cons, hd]
  exact h.2

/-- An operation that writes no log file. -/
def ServerOp.LogsNothing : ServerOp → Prop
  | .log (.writeLog _ _) => False
  | _ => True

omit [StrHash] in
/-- What is kept by an observation without an update and without a decision is kept by operations that log nothing. -/
theorem observe_logsNothing {u : Update} {P : List Observation → Prop}
    (hcons : ∀ x past, P past → x.logs u = false → x.decision? = none → P (x :: past)) {past : List Observation}
    (h : P past) {l : List ServerOp} (hl : ∀ o ∈ l, o.LogsNothing) (s : KvServer) : P (observe s l past) := by
  induction l generalizing s past with
  | nil => exact h
  | cons o l ih =>
    refine ih (hcons _ past h ?_ rfl) (fun o' ho' => hl o' (List.mem_cons_of_mem _ ho')) _
    have := hl o List.mem_cons_self
    rcases o with o | o | o <;> first | rfl | (cases o <;> first | rfl | cases this)

omit [StrHash] in
theorem Open.observe {u : Update} {past : List Observation} (h : Open u past) {l : List ServerOp}
    (hl : ∀ o ∈ l, o.LogsNothing) (s : KvServer) : Open u (observe s l past) :=
  observe_logsNothing (fun _ _ h hx hd => h.cons hx hd) h hl s

omit [StrHash] in
theorem Committed.observe {u : Update} {past : List Observation} (h : Committed u past) {l : List ServerOp}
    (hl : ∀ o ∈ l, o.LogsNothing) (s : KvServer) : Committed u (observe s l past) :=
  observe_logsNothing (fun _ _ h hx hd => h.cons hx hd) h hl s

/-- An operation that is not on the store. -/
def ServerOp.NotOnStore : ServerOp → Prop
  | .store _ => False
  | _ => True

theorem Honest.received {past : List Observation} (h : Honest past) (type : MsgType) :
    Honest (.received type :: past) := h

/-- What is not done to the store needs no justification. -/
theorem Honest.observe {past : List Observation} (h : Honest past) {l : List ServerOp}
    (hl : ∀ o ∈ l, o.NotOnStore) (s : KvServer) : Honest (observe s l past) := by
  induction l generalizing s past with
  | nil => exact h
  | cons o l ih =>
    refine ih ?_ (fun o' ho' => hl o' (List.mem_cons_of_mem _ ho')) _
    have := hl o List.mem_cons_self
    cases o with
    | store o => cases this
    | log o => exact h
    | setState state => exact h

/-- A past is as honest as what it grew from. -/
theorem Honest.before {s : KvServer} {l : List ServerOp} {past : List Observation} (h : Honest (Kv.observe s l past)) :
    Honest past := by
  induction l generalizing s past with
  | nil => exact h
  | cons o l ih =>
    have := ih h
    cases o with
    | store o => exact this.2
    | log o => exact this
    | setState state => exact this

theorem Honest.take {s : KvServer} {l : List ServerOp} {past : List Observation} (h : Honest (Kv.observe s l past))
    (n : ℕ) : Honest (Kv.observe s (l.take n) past) := by
  rw [← List.take_append_drop n l, observe_append] at h
  exact h.before

/-! ## The invariant -/

/-- The directories and the past agree: the log is empty, or holds an operation on which
no decision was received, or both records of one that was decided. -/
structure Sound (s : KvServer) (past : List Observation) : Prop where
  chained : s.store.Chained
  honest : Honest past
  log : s.log.files = .ofList [] ∨
    (∃ u : Update, u.Valid ∧ s.log.files = .ofList [some u.record] ∧ Open u past) ∨
    ∃ (u : Update) (commit : Bool), u.Valid ∧
      s.log.files = .ofList [some u.record, some (decisionRecord commit)] ∧ (commit = true → Committed u past)

/-- The memory of a running process agrees with the directories. -/
def Running (s : KvServer) (past : List Observation) : Prop :=
  (s.log = .holding [] s.log.iterpos ∧ (s.state = .init ∨ s.state = .wait)) ∨
    ∃ u : Update, u.Valid ∧ s.log = .holding [some u.record] s.log.iterpos ∧ s.state = .ready ∧ Open u past

variable {s : KvServer} {past : List Observation} {u : Update}

omit [StrHash] in
theorem ServerOp.InMemory.logsNothing {o : ServerOp} (h : o.InMemory) : o.LogsNothing := by
  rcases o with o | o | o
  · cases h
  · cases o <;> trivial
  · trivial

omit [StrHash] in
theorem ServerOp.InMemory.notOnStore {o : ServerOp} (h : o.InMemory) : o.NotOnStore := by
  cases o with
  | store o => cases h
  | log o => trivial
  | setState state => trivial

omit [StrHash] in
theorem execAll_inMemory {l : List ServerOp} (hl : ∀ o ∈ l, o.InMemory) (s : KvServer) :
    (execAll l s).store = s.store ∧ (execAll l s).log.files = s.log.files := by
  induction l generalizing s with
  | nil => exact ⟨rfl, rfl⟩
  | cons o l ih =>
    obtain ⟨h₁, h₂⟩ := (hl o List.mem_cons_self).disk s
    obtain ⟨h₃, h₄⟩ := ih (fun o' ho' => hl o' (List.mem_cons_of_mem _ ho')) (Effect.exec o s)
    exact ⟨h₃.trans h₁, h₄.trans h₂⟩

/-- Assignments in memory change nothing of it. -/
theorem Sound.inMemory (h : Sound s past) {l : List ServerOp} (hl : ∀ o ∈ l, o.InMemory) :
    Sound (execAll l s) (observe s l past) := by
  obtain ⟨hstore, hfiles⟩ := execAll_inMemory hl s
  have hlogs : ∀ o ∈ l, o.LogsNothing := fun o ho => (hl o ho).logsNothing
  refine ⟨hstore ▸ h.chained, h.honest.observe (fun o ho => (hl o ho).notOnStore) s, ?_⟩
  rw [hfiles]
  rcases h.log with hl | ⟨u, hu, hl, hopen⟩ | ⟨u, commit, hu, hl, hc⟩
  · exact Or.inl hl
  · exact Or.inr (Or.inl ⟨u, hu, hl, hopen.observe hlogs s⟩)
  · exact Or.inr (Or.inr ⟨u, commit, hu, hl, fun hy => (hc hy).observe hlogs s⟩)

/-- A crash changes nothing of it. -/
theorem Sound.crash (h : Sound s past) : Sound s.crash past := ⟨h.chained, h.honest, h.log⟩

/-! ### Clearing the log -/

omit [StrHash] in
/-- What is not cut is not begun, or finished. -/
theorem clear_boundary {pre : List ServerOp} {n : ℕ} (h : ¬ CutsClear (pre ++ clearOps 2) n) :
    (n ≤ pre.length ∧ (pre ++ clearOps 2).take n = pre.take n) ∨
      ∃ k, (pre ++ clearOps 2).take n =
        pre ++ .log (.removeLog 0) :: .log (.removeLog 1) :: [.log (.setNextid 0), ServerOp.setState .wait].take k := by
  have hclear : clearOps 2 = [.log (.removeLog 0), .log (.removeLog 1), .log (.setNextid 0), .setState .wait] := rfl
  rcases Nat.lt_or_ge pre.length n with hlt | hge
  · right
    obtain ⟨k, rfl⟩ : ∃ k, n = pre.length + (k + 1) := ⟨n - pre.length - 1, by omega⟩
    rw [hclear] at h ⊢
    rw [List.take_length_add_append]
    cases k with
    | zero =>
      -- between the two removals
      refine absurd ⟨?_, ?_⟩ h
      · rw [List.take_length_add_append]
        simp [ServerOp.removes]
      · rw [List.drop_length_add_append]
        simp [ServerOp.removes]
    | succ k => exact ⟨k, rfl⟩
  · exact Or.inl ⟨hge, List.take_append_of_le_length hge⟩

omit [StrHash] in
theorem doLogOps_cases {lo : List StoreOp} (h : lo.length ≤ 1) : lo = [] ∨ ∃ o, lo = [o] := by
  rcases lo with _ | ⟨o, _ | ⟨o', lo⟩⟩
  · exact Or.inl rfl
  · exact Or.inr ⟨o, rfl⟩
  · exact absurd h (by simp)

omit [StrHash] in
theorem logsNothing_doLogOps (lo : List StoreOp) : ∀ o ∈ doLogOps lo, o.LogsNothing := by
  intro o ho
  simp only [doLogOps, List.mem_cons, List.mem_append, List.mem_map, List.not_mem_nil, or_false] at ho
  rcases ho with rfl | rfl | ⟨o, -, rfl⟩ | rfl <;> trivial

omit [StrHash] in
theorem notOnStore_clearOps (n : ℕ) : ∀ o ∈ clearOps n, o.NotOnStore := by
  intro o ho
  simp only [clearOps, List.mem_append, List.mem_map, List.mem_singleton] at ho
  rcases ho with ⟨o, -, rfl⟩ | rfl <;> trivial

/-- The redo of a committed operation is justified. -/
theorem honest_doLog (s : KvServer) (hh : Honest past) (hc : Committed u past) {mem : List ServerOp} (hmem : ∀ o ∈ mem, o.InMemory)
    {lo : List StoreOp} (hlo : Redo u s.store lo) : Honest (observe s (mem ++ (doLogOps lo ++ clearOps 2)) past) := by
  have hstore := (execAll_inMemory hmem s).1
  rw [observe_append, observe_append]
  refine Honest.observe ?_ (notOnStore_clearOps 2) _
  have hh' := hh.observe (fun o ho => (hmem o ho).notOnStore) s
  have hc' := hc.observe (fun o ho => (hmem o ho).logsNothing) s
  rcases doLogOps_cases hlo.short with rfl | ⟨o, rfl⟩
  · exact hh'
  · exact ⟨⟨u, hstore ▸ hlo.writes o (List.mem_singleton.mpr rfl), (hc'.cons rfl rfl).cons rfl rfl⟩, hh'⟩

omit [StrHash] in
/-- The log files during a redo. -/
theorem files_doLog {mem : List ServerOp} (hmem : ∀ o ∈ mem, o.InMemory) (lo : List StoreOp) (s : KvServer) :
    Throughout (fun t => t.log.files = s.log.files) (mem ++ doLogOps lo) s := by
  refine .of_forall rfl fun o ho t ht => ?_
  rw [← ht]
  simp only [doLogOps, List.mem_append, List.mem_cons, List.mem_map, List.not_mem_nil, or_false] at ho
  rcases ho with ho | rfl | rfl | ⟨o, -, rfl⟩ | rfl
  · exact ((hmem o ho).disk t).2
  all_goals rfl

omit [StrHash] in
theorem remove_both (a b : Option LogEntry) : ((Directory.ofList [a, b]).remove 0).remove 1 = .ofList [] := by
  ext i : 1
  rw [Directory.file_remove, Directory.file_remove, Directory.file_ofList, Directory.file_ofList]
  match i with
  | 0 => rfl
  | 1 => rfl
  | i + 2 => rfl

/-- From both records of a decision, at every boundary that does not cut the clearing: either
both are there or none. -/
theorem sound_settle {m : KvMap} {commit : Bool} (hu : u.Valid) (pre : List ServerOp)
    (hl : s.log.files = .ofList [some u.record, some (decisionRecord commit)])
    (hthrough : Throughout (Decided commit u m) (pre ++ clearOps 2) s)
    (hfiles : Throughout (fun t => t.log.files = s.log.files) pre s) (hlogs : ∀ o ∈ pre, o.LogsNothing)
    (hhonest : Honest (observe s (pre ++ clearOps 2) past)) (hc : commit = true → Committed u past) {n : ℕ}
    (hcut : ¬ CutsClear (pre ++ clearOps 2) n) :
    Sound (execAll ((pre ++ clearOps 2).take n) s) (observe s ((pre ++ clearOps 2).take n) past) := by
  refine ⟨(hthrough.take n).chained, hhonest.take n, ?_⟩
  rcases clear_boundary hcut with ⟨-, heq⟩ | ⟨k, heq⟩
  · rw [heq]
    refine Or.inr (Or.inr ⟨u, commit, hu, (hfiles.take n).trans hl, fun hy => (hc hy).observe (fun o ho => ?_) s⟩)
    exact hlogs o (List.mem_of_mem_take ho)
  · refine Or.inl ?_
    have hmem : ∀ o ∈ [.log (.setNextid 0), ServerOp.setState .wait].take k, o.InMemory := by
      intro o ho
      have := List.mem_of_mem_take ho
      simp only [List.mem_cons, List.not_mem_nil, or_false] at this
      rcases this with rfl | rfl <;> trivial
    have hpre := hfiles.take pre.length
    rw [List.take_length] at hpre
    rw [heq, Program.execAll_append, Program.execAll_cons, Program.execAll_cons, (execAll_inMemory hmem _).2]
    show ((execAll pre s).log.files.remove 0).remove 1 = _
    rw [hpre, hl, remove_both]

/-! ### One event -/

/-- What is to be shown of a program: it runs to an end that agrees with the directories,
and where a crash does not cut a clearing, the directories agree with the past. -/
def Keeps {α : Type} (p : Program ServerOp KvServer α) (s : KvServer) (past : List Observation) : Prop :=
  ∃ l a t, Performs p s l a t ∧ Running t (observe s l past) ∧
    ∀ n, ¬ CutsClear l n → (l.take n ≠ [] ∨ l = []) → Sound (execAll (l.take n) s) (observe s (l.take n) past)

omit [StrHash] in
theorem not_cutsClear_length (l : List ServerOp) : ¬ CutsClear l l.length := by
  rintro ⟨-, h⟩
  simp at h

/-- At the end of the program, too, the directories agree with the past. -/
theorem Keeps.complete {α : Type} {p : Program ServerOp KvServer α} (h : Keeps p s past) :
    (p.run s).1.isSome ∧ Running (p.run s).2 (observe s (p.ops s) past) ∧ Sound (p.run s).2 (observe s (p.ops s) past) := by
  obtain ⟨l, a, t, hperf, hrun, hsound⟩ := h
  have hend := hsound l.length (not_cutsClear_length l) (by rw [List.take_length]; exact (em (l = [])).symm)
  rw [List.take_length, hperf.execAll_eq] at hend
  rw [hperf.run_eq, hperf.ops_eq]
  exact ⟨rfl, hrun, hend⟩

/-- A program that only answers. -/
theorem keeps_of_no_ops {α : Type} {p : Program ServerOp KvServer α} {a : α} (hp : Performs p s [] a s)
    (hs : Sound s past) (hr : Running s past) : Keeps p s past := by
  refine ⟨[], a, s, hp, hr, fun n _ _ => ?_⟩
  rw [List.take_nil]
  exact hs

omit [StrHash] in
/-- A message that is no decision leaves the past as it was. -/
theorem Running.received (h : Running s past) {type : MsgType} (ht : (Observation.received type).decision? = none) :
    Running s (.received type :: past) :=
  h.imp_right fun ⟨u, hu, hl, hs, hopen⟩ => ⟨u, hu, hl, hs, hopen.cons rfl ht⟩

theorem Sound.received (h : Sound s past) {type : MsgType} (ht : (Observation.received type).decision? = none) :
    Sound s (.received type :: past) :=
  ⟨h.chained, h.honest, h.log.imp_right fun h => h.imp
    (fun ⟨u, hu, hl, hopen⟩ => ⟨u, hu, hl, hopen.cons rfl ht⟩)
    fun ⟨u, commit, hu, hl, hc⟩ => ⟨u, commit, hu, hl, fun hy => (hc hy).cons rfl ht⟩⟩

/-- A vote is logged first. -/
theorem keeps_agree {req : KvRequest} (hreq : req.update? = some u) (hs : Sound s past)
    (hlog : s.log = .holding [] s.log.iterpos) (hstate : s.state = .init ∨ s.state = .wait)
    (hcheck : u.checkCode s.store.contents = 0) : Keeps (handleTpc req) s (.received req.type :: past) := by
  have hu := Update.valid_of_checkCode hcheck
  have happend : Appends tpclogLog s.log u.record _ _ := hlog ▸ appends_tpclogLog [] _ u.record
  have hopen := open_logged u s 0 (.received req.type :: past)
  have hmem : ∀ o ∈ ([.log (.setNextid 1), .setState .ready] : List ServerOp), o.InMemory := by
    simp [ServerOp.InMemory]
  refine ⟨_, _, _, handleTpc_agree hreq hstate hs.chained hcheck happend, ?_, fun n _ hne => ?_⟩
  · exact Or.inr ⟨u, hu, rfl, rfl, hopen.observe (fun o ho => (hmem o ho).logsNothing) _⟩
  · cases n with
    | zero => exact absurd rfl (hne.resolve_right (by simp))
    | succ n =>
      have hfiles : (Effect.exec (ServerOp.log (.writeLog 0 u.record)) s).log.files = .ofList [some u.record] := by
        show s.log.files.write 0 _ = _
        rw [hlog]
        exact Directory.write_ofList [] (some u.record)
      have hlogged : Sound (Effect.exec (ServerOp.log (.writeLog 0 u.record)) s)
          (.did s (.log (.writeLog 0 u.record)) :: .received req.type :: past) :=
        ⟨hs.chained, hs.honest, Or.inr (Or.inl ⟨u, hu, hfiles, hopen⟩)⟩
      exact hlogged.inMemory (l := [.log (.setNextid 1), .setState .ready].take n)
        fun o ho => hmem o (List.mem_of_mem_take ho)

/-- A decision is logged first, then carried out. -/
theorem keeps_decision {commit : Bool} {req : KvRequest} (hreq : req.type = if commit then .commit else .abort)
    (hs : Sound s past) (hu : u.Valid) (hlog : s.log = .holding [some u.record] s.log.iterpos)
    (hstate : s.state = .ready) (hopen : Open u past) : Keeps (handleTpc req) s (.received req.type :: past) := by
  have happend : Appends tpclogLog s.log (decisionRecord commit) _ _ := hlog ▸ appends_tpclogLog [_] _ _
  set s' := Effect.exec (ServerOp.log (.writeLog 1 (decisionRecord commit))) s with hs'
  have hfiles : s'.log.files = .ofList [some u.record, some (decisionRecord commit)] := by
    show s.log.files.write 1 _ = _
    rw [hlog]
    exact Directory.write_ofList [some u.record] (some (decisionRecord commit))
  have hlogs : (Observation.did s (.log (.writeLog 1 (decisionRecord commit)))).logs u = false := by
    refine decide_eq_false fun h => ?_
    have := congrArg LogEntry.type h
    cases commit <;> rcases u.record_type with ht | ht <;> simp [decisionRecord, ht] at this
  have hcommitted : commit = true →
      Committed u (.did s (.log (.writeLog 1 (decisionRecord commit))) :: .received req.type :: past) := by
    rintro rfl
    have htype : req.type = .commit := by simpa using hreq
    rw [htype]
    exact hopen.commit.cons hlogs rfl
  have hmem : ∀ o ∈ ([.log (.setNextid 2), .setState (if commit then .commit else .abort)] : List ServerOp),
      o.InMemory := by
    simp [ServerOp.InMemory]
  have hrest : ∀ {l : List ServerOp} {t : KvServer}, Performs (handleTpc req) s
      (.log (.writeLog 1 (decisionRecord commit)) :: l) ⟨.ack, none⟩ t →
      t.log = .holding [] t.log.iterpos → t.state = .wait →
      (∀ n, ¬ CutsClear l n → Sound (execAll (l.take n) s')
        (observe s' (l.take n) (.did s (.log (.writeLog 1 (decisionRecord commit))) :: .received req.type :: past))) →
      Keeps (handleTpc req) s (.received req.type :: past) := by
    intro l t hperf ht₁ ht₂ hsound
    refine ⟨_, _, _, hperf, Or.inl ⟨ht₁, Or.inr ht₂⟩, fun n hcut hne => ?_⟩
    cases n with
    | zero => exact absurd rfl (hne.resolve_right (by simp))
    | succ n => exact hsound n fun h => hcut (by simpa [CutsClear, ServerOp.removes] using h)
  cases commit with
  | true =>
    obtain ⟨lo, hlo, hperf⟩ := handleTpc_commit (by simpa using hreq) hstate hu hs.chained happend rfl
    have hthrough : Throughout (Decided true u s.store.contents)
        ([.log (.setNextid 2), .setState .commit] ++ (doLogOps lo ++ clearOps 2)) s' :=
      have hd : ∀ nextid state, Decided true u s.store.contents ⟨s'.store, { s'.log with nextid := nextid }, state⟩ :=
        fun _ _ => ⟨hs.chained, Or.inl ⟨hfiles, Or.inl rfl⟩⟩
      ⟨hd s'.log.nextid s'.state, hd 2 s'.state, Decided.throughout_doLog (s := ⟨s'.store, { s'.log with nextid := 2 }, .commit⟩)
        hs.chained hfiles (Or.inl rfl) hlo⟩
    refine hrest hperf rfl rfl fun n hcut => ?_
    have hhonest : Honest (.did s (.log (.writeLog 1 (decisionRecord true))) :: .received req.type :: past) := hs.honest
    have hredo := honest_doLog s' hhonest (hcommitted rfl) hmem hlo
    refine sound_settle hu ([.log (.setNextid 2), .setState .commit] ++ doLogOps lo) hfiles hthrough
      (files_doLog hmem lo s') (fun o ho => ?_) hredo hcommitted hcut
    rcases List.mem_append.mp ho with ho | ho
    · exact (hmem o ho).logsNothing
    · exact logsNothing_doLogOps lo o ho
  | false =>
    have hperf := handleTpc_abort (l := [some u.record, some (decisionRecord false)]) (by simpa using hreq)
      hstate happend rfl
    have hd : ∀ nextid state, Decided false u s.store.contents ⟨s'.store, { s'.log with nextid := nextid }, state⟩ :=
      fun _ _ => ⟨hs.chained, Or.inl ⟨hfiles, Or.inl rfl⟩⟩
    have hthrough : Throughout (Decided false u s.store.contents)
        ([.log (.setNextid 2), .setState .abort] ++ clearOps 2) s' :=
      ⟨hd s'.log.nextid s'.state, hd 2 s'.state, (hd 2 .abort).throughout_clear rfl⟩
    refine hrest hperf rfl rfl fun n hcut => ?_
    refine sound_settle hu [.log (.setNextid 2), .setState .abort] hfiles hthrough
      (throughout_inMemory (fun _ _ _ h ht => h.trans ht) hmem rfl) (fun o ho => (hmem o ho).logsNothing) ?_
      hcommitted hcut
    have hhonest : Honest (.did s (.log (.writeLog 1 (decisionRecord false))) :: .received req.type :: past) := hs.honest
    refine hhonest.observe (fun o ho => ?_) s'
    rcases List.mem_append.mp ho with ho | ho
    · exact (hmem o ho).notOnStore
    · exact notOnStore_clearOps 2 o ho

/-- **A message** keeps the invariant, wherever a crash does not cut a clearing. -/
theorem keeps_handleTpc (hs : Sound s past) (hr : Running s past) {req : KvRequest} (hin : req.input?.isSome) :
    Keeps (handleTpc req) s (.received req.type :: past) := by
  have hquiet : ∀ res, Performs (handleTpc req) s [] res s → (Observation.received req.type).decision? = none →
      Keeps (handleTpc req) s (.received req.type :: past) :=
    fun res hp ht => keeps_of_no_ops hp (hs.received ht) (hr.received ht)
  cases hu : req.update? with
  | some u =>
    have ht : (Observation.received req.type).decision? = none := by
      rcases update?_eq_some hu with ⟨key, value, rfl, -⟩ | ⟨key, value, rfl, -⟩ <;> rfl
    rcases hr with ⟨hlog, hstate⟩ | ⟨v, hv, hlog, hstate, hopen⟩
    · by_cases hcheck : u.checkCode s.store.contents = 0
      · exact keeps_agree hu hs hlog hstate hcheck
      · exact hquiet _ (handleTpc_decline tpclogLog hu hstate hs.chained hcheck) ht
    · exact hquiet _ (handleTpc_busy tpclogLog hu hstate) ht
  | none =>
    by_cases hd : req.type = .commit ∨ req.type = .abort
    · obtain ⟨commit, hcommit⟩ : ∃ commit, req.type = if commit then .commit else .abort :=
        hd.elim (fun h => ⟨true, h⟩) fun h => ⟨false, h⟩
      rcases hr with ⟨hlog, hstate⟩ | ⟨v, hv, hlog, hstate, hopen⟩
      · -- nothing is pending: the decision is acknowledged
        have hne : s.state ≠ .ready := by rcases hstate with h | h <;> rw [h] <;> decide
        have hfiles : s.log.files = .ofList [] := by rw [hlog]; rfl
        exact keeps_of_no_ops (handleTpc_decision_idle tpclogLog hd hne) ⟨hs.chained, hs.honest, Or.inl hfiles⟩
          (Or.inl ⟨hlog, hstate⟩)
      · exact keeps_decision hcommit hs hv hlog hstate hopen
    · obtain ⟨res, hp, -⟩ := handleTpc_quiet tpclogLog s hin hu hd
      refine hquiet res hp ?_
      cases ht : req.type <;> first | rfl | simp [ht] at hd

/-- **A restart** keeps the invariant, wherever a crash does not cut a clearing. -/
theorem keeps_init (hs : Sound s past) : Keeps kvserverInit s past := by
  rcases hs.log with hl | ⟨u, hu, hl, hopen⟩ | ⟨u, commit, hu, hl, hc⟩
  · have hinit := kvserverInit_performs hl rebuildEnd_none_performs
    rw [List.append_nil] at hinit
    exact ⟨_, _, _, hinit, Or.inl ⟨rfl, Or.inl rfl⟩,
      fun n _ _ => hs.inMemory fun o ho => inMemory_initOps 0 o (List.mem_of_mem_take ho)⟩
  · have hmem : ∀ o ∈ initOps 1 ++ [.setState .ready], o.InMemory := by
      intro o ho
      rcases List.mem_append.mp ho with ho | ho
      · exact inMemory_initOps 1 o ho
      · rw [List.mem_singleton.mp ho]; trivial
    have hinit := kvserverInit_performs hl (rebuildEnd_record_performs (u := u))
    exact ⟨_, _, _, hinit, Or.inr ⟨u, hu, rfl, rfl, hopen.observe (fun o ho => (hmem o ho).logsNothing) s⟩,
      fun n _ _ => hs.inMemory fun o ho => hmem o (List.mem_of_mem_take ho)⟩
  · have hread : execAll (initOps 2) s =
        ⟨s.store, .holding [some u.record, some (decisionRecord commit)] 2, .init⟩ := by
      simp [initOps, iterations, List.range', Effect.exec, TpcLog.holding, hl]
    have hstart : Throughout (Decided commit u s.store.contents) (initOps 2) s :=
      throughout_inMemory (fun _ _ => Decided.congr) (inMemory_initOps 2) ⟨hs.chained, Or.inl ⟨hl, Or.inl rfl⟩⟩
    cases commit with
    | true =>
      obtain ⟨lo, hlo, hend⟩ := rebuildEnd_commit_performs (s :=
        ⟨s.store, .holding [some u.record, some (decisionRecord true)] 2, .init⟩) hu hs.chained rfl
      refine ⟨_, _, _, kvserverInit_performs hl hend, Or.inl ⟨rfl, Or.inr rfl⟩, fun n hcut _ => ?_⟩
      rw [← List.append_assoc] at hcut ⊢
      refine sound_settle (m := s.store.contents) hu _ hl ?_ (files_doLog (inMemory_initOps 2) lo s) (fun o ho => ?_) ?_ hc hcut
      · rw [List.append_assoc]
        refine hstart.append ?_
        rw [hread]
        exact Decided.throughout_doLog
          (s := ⟨s.store, .holding [some u.record, some (decisionRecord true)] 2, .init⟩)
          hs.chained rfl (Or.inl rfl) hlo
      · rcases List.mem_append.mp ho with ho | ho
        · exact (inMemory_initOps 2 o ho).logsNothing
        · exact logsNothing_doLogOps lo o ho
      · rw [List.append_assoc]
        exact honest_doLog s hs.honest (hc rfl) (inMemory_initOps 2) hlo
    | false =>
      refine ⟨_, _, _, kvserverInit_performs hl (rebuildEnd_abort_performs rfl), Or.inl ⟨rfl, Or.inr rfl⟩,
        fun n hcut _ => ?_⟩
      refine sound_settle hu _ hl (hstart.append ?_)
        (throughout_inMemory (fun _ _ _ h ht => h.trans ht) (inMemory_initOps 2) rfl)
        (fun o ho => (inMemory_initOps 2 o ho).logsNothing) ?_ hc hcut
      · rw [hread]
        exact Decided.throughout_clear ⟨hs.chained, Or.inl ⟨rfl, Or.inl rfl⟩⟩ rfl
      · refine hs.honest.observe (fun o ho => ?_) s
        rcases List.mem_append.mp ho with ho | ho
        · exact (inMemory_initOps 2 o ho).notOnStore
        · exact notOnStore_clearOps 2 o ho

/-! ### What an operation on the store needs -/

/-- The operation on the store, if it is one. -/
def Observation.onStore? : Observation → Option StoreOp
  | .did _ (.store o) => some o
  | _ => none

theorem Honest.justifies (h : Honest past) {i : ℕ} {o : StoreOp}
    (hi : past[i]?.bind Observation.onStore? = some o) :
    ∃ (u : Update) (store : KvStore), u.Writes store o ∧ Committed u (past.drop (i + 1)) := by
  induction past generalizing i with
  | nil => simp at hi
  | cons x past ih =>
    cases i with
    | zero =>
      rcases x with type | ⟨before, o' | o' | state⟩ <;> simp [Observation.onStore?] at hi
      subst hi
      obtain ⟨⟨u, hw, hc⟩, -⟩ := h
      exact ⟨u, before.store, hw, hc⟩
    | succ i =>
      have hpast : Honest past := by
        rcases x with type | ⟨before, o' | o' | state⟩
        · exact h
        · exact h.2
        · exact h
        · exact h
      exact ih hpast hi

/-- An entry is written for the `PUT` of its key and value only. -/
theorem Update.eq_put_of_writes {store : KvStore} {name : UInt64 × ℕ} {key value : CString}
    (h : Writes u store (.writeEntry name (.make key value))) : u = .put key value := by
  cases u with
  | put key' value' =>
    obtain ⟨pos, h⟩ := h
    have hentry : KvEntry.make key value = .make key' value' := (StoreOp.writeEntry.inj h).2
    have hkey := congrArg KvEntry.key hentry
    have hvalue := congrArg KvEntry.value hentry
    simp only [KvEntry.key_make, KvEntry.value_make] at hkey hvalue
    rw [hkey, hvalue]
  | del key' =>
    obtain ⟨pos, value', -, h | ⟨src, h⟩⟩ := h <;> cases h

/-! ## Lives in which no crash cuts a clearing -/

/-- The invariant of a life. -/
def Life.Inv (f : Life) : Prop := Sound f.server f.past ∧ (f.up = true → Running f.server f.past)

theorem Life.Inv.step {f : Life} (h : f.Inv) {e : LifeEvent} (hin : ∀ req ∈ e.request?, req.input?.isSome)
    (hclean : f.Clean e) : (f.step e).Inv := by
  obtain ⟨hs, hr⟩ := h
  have hs' : Sound f.server.crash f.past := hs.crash
  cases e with
  | message req =>
    by_cases hup : f.up = true
    · obtain ⟨-, hrun, hsound⟩ := (keeps_handleTpc hs (hr hup) (hin req rfl)).complete
      simp only [Life.step, if_pos hup]
      exact ⟨hsound, fun _ => hrun⟩
    · simp only [Life.step, if_neg hup]
      exact ⟨hs, hr⟩
  | crashIn req n =>
    by_cases hup : f.up = true
    · obtain ⟨l, a, t, hperf, -, hsound⟩ := keeps_handleTpc hs (hr hup) (hin req rfl)
      have hcut : ¬ CutsClear l n := by rw [← hperf.ops_eq]; exact hclean
      simp only [Life.step, if_pos hup, hperf.ops_eq]
      refine ⟨?_, nofun⟩
      by_cases hnil : l.take n = []
      · -- nothing was done: the message is lost
        rw [hnil]
        exact hs'
      · simp only [observeHandler, if_neg hnil]
        exact (hsound n hcut (Or.inl hnil)).crash
    · simp only [Life.step, if_neg hup]
      exact ⟨hs, hr⟩
  | restart =>
    obtain ⟨-, hrun, hsound⟩ := (keeps_init hs').complete
    exact ⟨hsound, fun _ => hrun⟩
  | crashInRestart n =>
    obtain ⟨l, a, t, hperf, -, hsound⟩ := keeps_init hs'
    have hcut : ¬ CutsClear l n := by rw [← hperf.ops_eq]; exact hclean
    simp only [Life.step, hperf.ops_eq]
    refine ⟨?_, nofun⟩
    by_cases hnil : l.take n = []
    · rw [hnil]
      exact hs'
    · exact (hsound n hcut (Or.inl hnil)).crash

theorem Life.Inv.run {f : Life} (h : f.Inv) {events : List LifeEvent}
    (hin : ∀ e ∈ events, ∀ req ∈ e.request?, req.input?.isSome) (hclean : f.CleanRun events) : (f.run events).Inv := by
  induction events generalizing f with
  | nil => exact h
  | cons e events ih =>
    exact ih (h.step (hin e List.mem_cons_self) hclean.1) (fun e' he' => hin e' (List.mem_cons_of_mem _ he')) hclean.2

/-- **No record of a finished transaction is replayed with a later one**, as long as no
crash falls between two removals of one clearing: in a life of messages, crashes and
restarts, after every event the log files are `0.log`, …, `(nextid-1).log`, and the store was
changed only by a `PUT` or `DELETE` whose logging was followed by a `COMMIT` before any
`ABORT`. -/
theorem life_honest (store : KvStore) (hc : store.Chained) (events : List LifeEvent)
    (hin : ∀ e ∈ events, ∀ req ∈ e.request?, req.input?.isSome) (hclean : (Life.start store).CleanRun events) :
    Honest ((Life.start store).run events).past ∧
      ∃ l, ((Life.start store).run events).server.log.files = .ofList l ∧
        (((Life.start store).run events).up = true → ((Life.start store).run events).server.log.nextid = l.length) := by
  have hstart : (Life.start store).Inv := by
    obtain ⟨hchained, -, hlog, hstate⟩ : Quiescent (KvServer.start store) store.contents := start_refines hc
    exact ⟨⟨hchained, trivial, Or.inl (by show (KvServer.start store).log.files = _; rw [hlog]; rfl)⟩,
      fun _ => Or.inl ⟨hlog, hstate⟩⟩
  obtain ⟨hs, hr⟩ := hstart.run hin hclean
  refine ⟨hs.honest, ?_⟩
  by_cases hup : ((Life.start store).run events).up = true
  · rcases hr hup with ⟨hlog, -⟩ | ⟨u, -, hlog, -⟩
    · exact ⟨[], by rw [hlog]; rfl, fun _ => by rw [hlog]; rfl⟩
    · exact ⟨[some u.record], by rw [hlog]; rfl, fun _ => by rw [hlog]; rfl⟩
  · rcases hs.log with hl | ⟨u, -, hl, -⟩ | ⟨u, commit, -, hl, -⟩
    · exact ⟨_, hl, fun h => absurd h hup⟩
    · exact ⟨_, hl, fun h => absurd h hup⟩
    · exact ⟨_, hl, fun h => absurd h hup⟩

end

section

attribute [local instance] md5Sample

/-- `PUT a 1`; its `COMMIT`, in which the process crashes before it touches the store, and again
at the end of `kvserver_init`; a restart. -/
theorem life_honest_recovered :
    let events := [LifeEvent.message (putA "1"), .crashIn ⟨.commit, none, none⟩ 3, .crashInRestart 12, .restart]
    Honest ((Life.start ⟨.empty⟩).run events).past ∧
      ∃ l, ((Life.start ⟨.empty⟩).run events).server.log.files = .ofList l ∧
        (((Life.start ⟨.empty⟩).run events).up = true →
          ((Life.start ⟨.empty⟩).run events).server.log.nextid = l.length) :=
  life_honest ⟨.empty⟩ KvStore.chained_empty _ (by simp [LifeEvent.request?, KvRequest.input?, putA]) (by decide +kernel)

/-! ## A life in which one does -/

/-- `PUT a 1`, and its `COMMIT`, in which the process crashes between the removals of
`0.log` and `1.log`; a restart; `PUT a 2`; a crash and a restart. -/
def cutClearEvents : List LifeEvent :=
  [.message (putA "1"), .crashIn ⟨.commit, none, none⟩ 8, .restart, .message (putA "2"), .restart]

/-- After the first crash `1.log` is there without `0.log`; at the end the store holds `a = 2`,
though no `COMMIT` came after the second `PUT`. -/
theorem cutClear_replays :
    (¬ ∃ l, ((Life.start ⟨.empty⟩).run (cutClearEvents.take 2)).server.log.files = .ofList l) ∧
      ((Life.start ⟨.empty⟩).run cutClearEvents).server.store.contents (.ofString "a") = some (.ofString "2") ∧
      ¬ Honest ((Life.start ⟨.empty⟩).run cutClearEvents).past := by
  refine ⟨?_, by decide +kernel, fun h => ?_⟩
  · rintro ⟨l, hl⟩
    have h₀ : ((Life.start ⟨.empty⟩).run (cutClearEvents.take 2)).server.log.files.stat 0 = false := by decide +kernel
    have h₁ : ((Life.start ⟨.empty⟩).run (cutClearEvents.take 2)).server.log.files.stat 1 = true := by decide +kernel
    rw [hl, Directory.stat_ofList] at h₀ h₁
    simp only [decide_eq_false_iff_not, decide_eq_true_iff] at h₀ h₁
    omega
  · obtain ⟨u, store, hw, hc⟩ := h.justifies (i := 5)
      (o := .writeEntry (chain (strhash64 (.ofString "a")) 0) (.make (.ofString "a") (.ofString "2")))
      (by decide +kernel)
    rw [Update.eq_put_of_writes hw] at hc
    revert hc
    decide +kernel

end

end Cs162Hw.Kv
