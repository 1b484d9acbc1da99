import Cs162Hw.Kv.Participant

/-!
# Torn log records

`tpclog_log` creates the log file and then writes the record into it. A crash in between
leaves a file that `stat` reports and nothing can be read from: `tpclog_iterate_next`
returns `NULL` for it. `kvserver_rebuild_state` looks at the last file only, and so
takes a torn decision for no transaction at all; `do_log` uses every value it is
returned.

`TornLife` is a follower whose log is written by `tpclogLogTorn`, with the promises it
made. **`tornLife_keeps_promises`**: as long as no decision of a pending operation is torn and no
`COMMIT` meets a torn file in front of the pending record, no promise is lost and no
`NULL` entry is used. `torn_record_harms` shows the two ways in which it goes wrong.
-/

namespace Cs162Hw.Kv

open Library
open Library.Program (Performs execAll)
open Library.TwoPhase.Operations (apply)

/-- Does the operation write a record into a log file? -/
def ServerOp.writesRecord : ServerOp → Bool
  | .log (.writeLog _ _) => true
  | _ => false

/-- A follower, whether it runs, and what it owes. -/
structure TornLife where
  /-- The process, or what a crash left of it. -/
  server : KvServer
  /-- Is the process running? -/
  up : Bool
  /-- Did it ever use a `NULL` entry? -/
  usedNull : Bool
  /-- The operation it voted to commit, until a record of its decision is complete. -/
  promised : Option Update

/-- What happens to it. -/
inductive TornEvent where
  /-- A message arrives and is handled to the end. -/
  | message (req : KvRequest)
  /-- A message arrives, and the process crashes before a record is written: if anything is
  logged at all, the file was created. -/
  | torn (req : KvRequest)
  /-- The process, up or not, is started again. -/
  | restart

/-- The message of an event. -/
def TornEvent.request? : TornEvent → Option KvRequest
  | message req => some req
  | torn req => some req
  | restart => none

section

variable [StrHash]

/-- The follower's handler, a log file created and then written. -/
def handleTpcTorn (req : KvRequest) : ServerProgram KvResponse := kvserverHandleTpc (fileCalls tpclogLogTorn) req

/-- What a follower owes after it handled `req` in the state `state` and answered `res`. -/
def promisedAfter (state : TpcState) (req : KvRequest) (res : Option KvResponse) (promised : Option Update) :
    Option Update :=
  if res = some ⟨.vote, some msgCommit⟩ then req.update?
  else if (req.type = .commit ∨ req.type = .abort) ∧ state = .ready then none
  else promised

namespace TornLife

/-- One event. A process that is down receives nothing. -/
def step (f : TornLife) : TornEvent → TornLife
  | .message req =>
    if f.up then
      let (res, server) := (handleTpcTorn req).run f.server
      ⟨server, res.isSome, f.usedNull || res.isNone, promisedAfter f.server.state req res f.promised⟩
    else f
  | .torn req =>
    if f.up then
      let l := ((handleTpcTorn req).ops f.server).takeWhile fun o => !o.writesRecord
      ⟨(execAll l f.server).crash, false, f.usedNull, f.promised⟩
    else f
  | .restart =>
    let (res, server) := kvserverInit.run f.server.crash
    ⟨server, res.isSome, f.usedNull || res.isNone, f.promised⟩

/-- A sequence of events. -/
def run (f : TornLife) (events : List TornEvent) : TornLife := events.foldl step f

/-- A follower that starts on a store and no log. -/
def start (store : KvStore) : TornLife := ⟨KvServer.start store, true, false, none⟩

/-- In what it is running, every promise can be kept: the operation is the last record of the log, and
waited for. -/
def KeepsPromise (f : TornLife) : Prop :=
  f.up = true → ∀ u, f.promised = some u →
    f.server.state = .ready ∧ ∃ l, f.server.log.files = .ofList (l ++ [some u.record])

end TornLife

/-- Every log file that is there can be read. -/
def Readable (log : TpcLog) : Prop := ∀ id ∈ log.files.names, (tpclogLoadEntry log id).isSome

instance (log : TpcLog) : Decidable (Readable log) := inferInstanceAs (Decidable (∀ _ ∈ _, _))

/-- The event tears no decision of a pending operation, and brings no `COMMIT` of one to a log with
an unreadable file. -/
def TornLife.Careful (f : TornLife) : TornEvent → Prop
  | .message req => req.type = .commit → f.server.state = .ready → Readable f.server.log
  | .torn req => ¬ ((req.type = .commit ∨ req.type = .abort) ∧ f.server.state = .ready)
  | .restart => True

/-- None of the sequence does. -/
def TornLife.CarefulRun : TornLife → List TornEvent → Prop
  | _, [] => True
  | f, e :: events => f.Careful e ∧ (f.step e).CarefulRun events

instance (f : TornLife) (e : TornEvent) : Decidable (f.Careful e) :=
  match e with
  | .message _ => inferInstanceAs (Decidable (_ → _ → _))
  | .torn _ => inferInstanceAs (Decidable (¬ _))
  | .restart => .isTrue trivial

/-- Whether none does can be computed. -/
def TornLife.decideCarefulRun (f : TornLife) : (events : List TornEvent) → Decidable (f.CarefulRun events)
  | [] => .isTrue trivial
  | e :: events =>
    have := decideCarefulRun (f.step e) events
    inferInstanceAs (Decidable (_ ∧ _))

instance (f : TornLife) (events : List TornEvent) : Decidable (f.CarefulRun events) := f.decideCarefulRun events

/-! ## The invariant -/

/-- The log files of a follower that was torn `k` times, with `pending` behind them. -/
def tornFiles (k : ℕ) (pending : Option Update) : List (Option LogEntry) :=
  List.replicate k none ++ pending.toList.map fun u => some u.record

/-- The directories: some torn files, and behind them the operation that is pending. -/
structure Torn (s : KvServer) (k : ℕ) (pending : Option Update) : Prop where
  chained : s.store.Chained
  files : s.log.files = .ofList (tornFiles k pending)
  valid : ∀ u ∈ pending, u.Valid

/-- The memory of a running process agrees with them. -/
structure TornRunning (s : KvServer) (k : ℕ) (pending : Option Update) : Prop where
  log : s.log = .holding (tornFiles k pending) s.log.iterpos
  state : match pending with
    | none => s.state = .init ∨ s.state = .wait
    | some _ => s.state = .ready

/-- The invariant: what is owed is what is pending. -/
def TornLife.Inv (f : TornLife) : Prop :=
  f.usedNull = false ∧ ∃ k pending, Torn f.server k pending ∧ (f.up = true → TornRunning f.server k pending) ∧
    (∀ u, f.promised = some u → pending = some u)

variable {s : KvServer} {k : ℕ} {pending : Option Update} {f : TornLife}

theorem Torn.crash (h : Torn s k pending) : Torn s.crash k pending := ⟨h.chained, h.files, h.valid⟩

omit [StrHash] in
theorem tornFiles_none (k : ℕ) : tornFiles k none = List.replicate k none := by simp [tornFiles]

omit [StrHash] in
theorem tornFiles_some (k : ℕ) (u : Update) : tornFiles k (some u) = List.replicate k none ++ [some u.record] := rfl

omit [StrHash] in
/-- Only an untorn log is readable. -/
theorem readable_iff (hl : s.log.files = .ofList (tornFiles k pending)) (h : Readable s.log) : k = 0 := by
  rcases Nat.eq_zero_or_pos k with hk | hk
  · exact hk
  · have hfirst : s.log.files.file 0 = some none := by
      rw [hl, Directory.file_ofList, tornFiles, List.getElem?_append_left (by simpa using hk)]
      simp [hk]
    have := h 0 ((s.log.files.mem_names 0).mpr (by rw [hfirst]; rfl))
    simp [tpclogLoadEntry, hfirst] at this

/-! ### One event -/

/-- A restart comes back to what is pending. -/
theorem Torn.restart (h : Torn s k pending) :
    ∃ t, kvserverInit.run s = (some 0, t) ∧ Torn t k pending ∧ TornRunning t k pending := by
  obtain ⟨hc, hl, hv⟩ := h
  cases pending with
  | none =>
    have hlast : (tornFiles k none).getLastD none = none := by
      rw [tornFiles_none]
      cases k with
      | zero => rfl
      | succ k => rw [List.replicate_succ', List.getLastD_concat]
    have hinit := kvserverInit_performs (s := s) hl (by rw [hlast]; exact rebuildEnd_none_performs)
    exact ⟨_, hinit.run_eq, ⟨hc, rfl, hv⟩, ⟨rfl, Or.inl rfl⟩⟩
  | some u =>
    have hlast : (tornFiles k (some u)).getLastD none = some u.record := by
      rw [tornFiles_some, List.getLastD_concat]
    have hinit := kvserverInit_performs (s := s) hl (by rw [hlast]; exact rebuildEnd_record_performs)
    exact ⟨_, hinit.run_eq, ⟨hc, rfl, hv⟩, ⟨rfl, rfl⟩⟩

omit [StrHash] in
theorem tornFiles_concat_none (k : ℕ) : tornFiles k none ++ [none] = tornFiles (k + 1) none := by
  rw [tornFiles_none, tornFiles_none, List.replicate_succ']

omit [StrHash] in
theorem tornFiles_concat (k : ℕ) (u : Update) : tornFiles k none ++ [some u.record] = tornFiles k (some u) := by
  rw [tornFiles_none, tornFiles_some]

/-- A `COMMIT` of the pending operation, the log readable, applies it. -/
theorem Torn.handle_commit {u : Update} (h : Torn s k (some u)) (hr : TornRunning s k (some u)) {req : KvRequest}
    (hreq : req.type = .commit) (hread : Readable s.log) :
    ∃ t, (handleTpcTorn req).run s = (some ⟨.ack, none⟩, t) ∧ Torn t 0 none ∧ TornRunning t 0 none ∧
      t.store.contents = apply u s.store.contents := by
  obtain rfl := readable_iff h.files hread
  have happend : Appends tpclogLogTorn s.log (decisionRecord true) _ _ := hr.log ▸ appends_tpclogLogTorn [_] _ _
  obtain ⟨lo, hlo, hperf⟩ := handleTpc_commit hreq hr.state (h.valid u rfl) h.chained happend rfl
  exact ⟨_, hperf.run_eq, ⟨hlo.chained, rfl, nofun⟩, ⟨rfl, Or.inr rfl⟩, hlo.applied⟩

/-- An `ABORT` of the pending operation clears whatever is in the log. -/
theorem Torn.handle_abort {u : Update} (h : Torn s k (some u)) (hr : TornRunning s k (some u)) {req : KvRequest}
    (hreq : req.type = .abort) :
    ∃ t, (handleTpcTorn req).run s = (some ⟨.ack, none⟩, t) ∧ Torn t 0 none ∧ TornRunning t 0 none := by
  have happend : Appends tpclogLogTorn s.log (decisionRecord false) _ _ := hr.log ▸ appends_tpclogLogTorn _ _ _
  have hperf := handleTpc_abort hreq hr.state happend rfl
  exact ⟨_, hperf.run_eq, ⟨h.chained, rfl, nofun⟩, ⟨rfl, Or.inr rfl⟩⟩

/-- A vote to commit. -/
theorem Torn.handle_agree {u : Update} (h : Torn s k none) (hr : TornRunning s k none) {req : KvRequest}
    (hreq : req.update? = some u) (hcheck : u.checkCode s.store.contents = 0) :
    ∃ t, Performs (handleTpcTorn req) s ([.log (.createLog (tornFiles k none).length),
        .log (.setNextid ((tornFiles k none).length + 1)), .log (.writeLog (tornFiles k none).length u.record)] ++
          [.setState .ready]) ⟨.vote, some msgCommit⟩ t ∧ Torn t k (some u) ∧ TornRunning t k (some u) := by
  have happend : Appends tpclogLogTorn s.log u.record _ _ := hr.log ▸ appends_tpclogLogTorn _ _ _
  have hperf := handleTpc_agree hreq hr.state h.chained hcheck happend
  rw [tornFiles_concat] at hperf
  refine ⟨_, hperf, ⟨h.chained, rfl, fun v hv => ?_⟩, ⟨rfl, rfl⟩⟩
  rw [← Option.some.inj hv]
  exact Update.valid_of_checkCode hcheck

/-- Every other message is answered, and nothing is done. -/
theorem Torn.handle_other (h : Torn s k pending) (hr : TornRunning s k pending) {req : KvRequest}
    (hin : req.input?.isSome) (hagree : ∀ u, req.update? = some u → pending = none → u.checkCode s.store.contents ≠ 0)
    (hdecision : req.type = .commit ∨ req.type = .abort → pending = none) :
    ∃ res, Performs (handleTpcTorn req) s [] res s ∧ (res = ⟨.vote, some msgCommit⟩ → req.update? = none) := by
  cases hu : req.update? with
  | some u =>
    cases pending with
    | none =>
      exact ⟨_, handleTpc_decline _ hu hr.state h.chained (hagree u hu rfl), fun hres => by
        simp only [KvResponse.mk.injEq, Option.some.injEq] at hres
        exact absurd hres.2 (getMsg_ne_msgCommit _)⟩
    | some v => exact ⟨_, handleTpc_busy _ hu hr.state, fun hres => by cases hres⟩
  | none =>
    by_cases hd : req.type = .commit ∨ req.type = .abort
    · obtain rfl := hdecision hd
      have hne : s.state ≠ .ready := by rcases hr.state with h | h <;> rw [h] <;> decide
      exact ⟨_, handleTpc_decision_idle _ hd hne, fun _ => rfl⟩
    · obtain ⟨res, hp, -⟩ := handleTpc_quiet tpclogLogTorn s hin hu hd
      exact ⟨res, hp, fun _ => rfl⟩

omit [StrHash] in
/-- The state tells whether anything is pending. -/
theorem TornRunning.state_eq_ready_iff (h : TornRunning s k pending) : s.state = .ready ↔ pending.isSome := by
  cases pending with
  | none => exact iff_of_false (by rcases h.state with h | h <;> rw [h] <;> decide) (by simp)
  | some u => exact iff_of_true h.state rfl

/-- A message. -/
theorem TornLife.Inv.message (h : f.Inv) (hup : f.up = true) {req : KvRequest} (hin : req.input?.isSome)
    (hcare : f.Careful (.message req)) : (f.step (.message req)).Inv := by
  obtain ⟨hnull, k, pending, ht, hr, howed⟩ := h
  have hr := hr hup
  have hstep : ∀ {res t}, (handleTpcTorn req).run f.server = (some res, t) → f.step (.message req) =
      ⟨t, true, f.usedNull, promisedAfter f.server.state req (some res) f.promised⟩ := by
    intro res t hrun
    simp [TornLife.step, hup, hrun]
  have hother : (∀ u, req.update? = some u → pending = none → u.checkCode f.server.store.contents ≠ 0) →
      (req.type = .commit ∨ req.type = .abort → pending = none) → (f.step (.message req)).Inv := by
    intro hagree hdecision
    obtain ⟨res, hp, hres⟩ := ht.handle_other hr hin hagree hdecision
    rw [hstep hp.run_eq]
    refine ⟨hnull, k, pending, ht, fun _ => hr, fun u hu => ?_⟩
    simp only [promisedAfter] at hu
    split_ifs at hu with h₁ h₂
    · rw [hres (Option.some.inj h₁)] at hu
      cases hu
    · exact howed u hu
  cases pending with
  | none =>
    by_cases hagree : ∃ u, req.update? = some u ∧ u.checkCode f.server.store.contents = 0
    · obtain ⟨u, hu, hcheck⟩ := hagree
      obtain ⟨t, hp, ht', hr'⟩ := ht.handle_agree hr hu hcheck
      rw [hstep hp.run_eq]
      refine ⟨hnull, k, some u, ht', fun _ => hr', fun v hv => ?_⟩
      rw [← hu, ← hv, promisedAfter, if_pos rfl]
    · exact hother (fun u hu _ hc => hagree ⟨u, hu, hc⟩) fun _ => rfl
  | some u =>
    have hready : f.server.state = .ready := hr.state
    by_cases hd : req.type = .commit ∨ req.type = .abort
    · obtain ⟨t, hrun, ht', hr'⟩ : ∃ t, (handleTpcTorn req).run f.server = (some ⟨.ack, none⟩, t) ∧
          Torn t 0 none ∧ TornRunning t 0 none := by
        rcases hd with hd | hd
        · obtain ⟨t, hrun, ht', hr', -⟩ := ht.handle_commit hr hd (hcare hd hready)
          exact ⟨t, hrun, ht', hr'⟩
        · exact ht.handle_abort hr hd
      rw [hstep hrun]
      refine ⟨hnull, 0, none, ht', fun _ => hr', fun v hv => ?_⟩
      rw [promisedAfter, if_neg (by simp), if_pos ⟨hd, hready⟩] at hv
      cases hv
    · exact hother (fun _ _ h => by cases h) fun h => absurd h hd

/-- A torn record. -/
theorem TornLife.Inv.torn (h : f.Inv) (hup : f.up = true) {req : KvRequest} (hin : req.input?.isSome)
    (hcare : f.Careful (.torn req)) : (f.step (.torn req)).Inv := by
  obtain ⟨hnull, k, pending, ht, hr, howed⟩ := h
  have hr := hr hup
  have hdecision : req.type = .commit ∨ req.type = .abort → pending = none := by
    intro hd
    by_contra hne
    exact hcare ⟨hd, hr.state_eq_ready_iff.mpr (Option.isSome_iff_ne_none.mpr hne)⟩
  by_cases hagree : pending = none ∧ ∃ u, req.update? = some u ∧ u.checkCode f.server.store.contents = 0
  · -- the file is created, and stays empty
    obtain ⟨rfl, u, hu, hcheck⟩ := hagree
    obtain ⟨t, hp, -⟩ := ht.handle_agree hr hu hcheck
    simp only [TornLife.step, if_pos hup, hp.ops_eq]
    refine ⟨hnull, k + 1, none, Torn.crash ⟨ht.chained, ?_, ht.valid⟩, nofun, howed⟩
    show f.server.log.files.write _ none = _
    rw [ht.files, Directory.write_ofList, tornFiles_concat_none]
  · obtain ⟨res, hp, -⟩ := ht.handle_other hr hin (fun u hu hn hc => hagree ⟨hn, u, hu, hc⟩) hdecision
    simp only [TornLife.step, if_pos hup, hp.ops_eq]
    exact ⟨hnull, k, pending, ht.crash, nofun, howed⟩

theorem TornLife.Inv.step (h : f.Inv) {e : TornEvent} (hin : ∀ req ∈ e.request?, req.input?.isSome)
    (hcare : f.Careful e) : (f.step e).Inv := by
  cases e with
  | message req =>
    by_cases hup : f.up = true
    · exact h.message hup (hin req rfl) hcare
    · rw [TornLife.step, if_neg hup]; exact h
  | torn req =>
    by_cases hup : f.up = true
    · exact h.torn hup (hin req rfl) hcare
    · rw [TornLife.step, if_neg hup]; exact h
  | restart =>
    obtain ⟨hnull, k, pending, ht, -, howed⟩ := h
    obtain ⟨t, hrun, ht', hr'⟩ := ht.crash.restart
    rw [TornLife.step, hrun]
    exact ⟨by simpa using hnull, k, pending, ht', fun _ => hr', howed⟩

theorem TornLife.Inv.run (h : f.Inv) {events : List TornEvent}
    (hin : ∀ e ∈ events, ∀ req ∈ e.request?, req.input?.isSome) (hcare : f.CarefulRun events) : (f.run events).Inv := by
  induction events generalizing f with
  | nil => exact h
  | cons e events ih =>
    exact ih (h.step (hin e List.mem_cons_self) hcare.1) (fun e' he' => hin e' (List.mem_cons_of_mem _ he')) hcare.2

theorem TornLife.Inv.keepsPromise (h : f.Inv) : f.KeepsPromise := by
  obtain ⟨-, k, pending, ht, hr, howed⟩ := h
  intro hup u hu
  obtain rfl := howed u hu
  exact ⟨(hr hup).state, List.replicate k none, ht.files⟩

/-! ## Lives in which nothing goes wrong -/

/-- **A torn append loses no vote and wedges nothing**, as long as no decision of a pending operation
is torn, and no `COMMIT` of one finds an unreadable file in the log: whatever torn records,
restarts and messages came before, no `NULL` entry was used, every operation the follower voted
to commit and was not told about is waited for, and a `COMMIT` applies it. -/
theorem tornLife_keeps_promises (store : KvStore) (hc : store.Chained) (events : List TornEvent)
    (hin : ∀ e ∈ events, ∀ req ∈ e.request?, req.input?.isSome) (hcare : (TornLife.start store).CarefulRun events) :
    let f := (TornLife.start store).run events
    f.usedNull = false ∧ f.KeepsPromise ∧
      ∀ u req, f.up = true → f.promised = some u → req.type = .commit → f.Careful (.message req) →
        (f.step (.message req)).server.store.contents = apply u f.server.store.contents := by
  have hstart : (TornLife.start store).Inv := by
    obtain ⟨hchained, -, hlog, hstate⟩ : Quiescent (KvServer.start store) store.contents := start_refines hc
    exact ⟨rfl, 0, none, ⟨hchained, by show (KvServer.start store).log.files = _; rw [hlog]; rfl, nofun⟩,
      fun _ => ⟨hlog, hstate⟩, nofun⟩
  have hinv := hstart.run hin hcare
  refine ⟨hinv.1, hinv.keepsPromise, fun u req hup hu hreq hcommit => ?_⟩
  obtain ⟨-, k, pending, ht, hr, howed⟩ := hinv
  obtain rfl := howed u hu
  obtain ⟨t, hrun, -, -, hm⟩ := ht.handle_commit (hr hup) hreq (hcommit hreq (hr hup).state)
  simp only [TornLife.step, if_pos hup, hrun]
  exact hm

end

section

attribute [local instance] md5Sample

/-- A torn `PUT`; a restart; another `PUT`, and a restart; the `ABORT`; a third `PUT`, and its `COMMIT`. -/
theorem tornLife_keeps_promises_put :
    let f := (TornLife.start ⟨.empty⟩).run [.torn (putA "1"), .restart, .message (putA "2"), .restart,
      .message ⟨.abort, none, none⟩, .message (putA "3")]
    f.usedNull = false ∧ f.KeepsPromise ∧
      ∀ u req, f.up = true → f.promised = some u → req.type = .commit → f.Careful (.message req) →
        (f.step (.message req)).server.store.contents = apply u f.server.store.contents :=
  tornLife_keeps_promises ⟨.empty⟩ KvStore.chained_empty _
    (by simp [TornEvent.request?, KvRequest.input?, putA]) (by decide +kernel)

/-! ## Two in which something does -/

/-- The record of the `COMMIT` is torn: after the restart the `PUT` the follower voted for is forgotten. Or the
record of a `PUT` is torn, and the `COMMIT` of the next one meets it. -/
theorem torn_record_harms :
    ¬ ((TornLife.start ⟨.empty⟩).run [.message (putA "1"), .torn ⟨.commit, none, none⟩, .restart]).KeepsPromise ∧
      ((TornLife.start ⟨.empty⟩).run [.torn (putA "1"), .restart, .message (putA "2"),
        .message ⟨.commit, none, none⟩]).usedNull = true := by
  refine ⟨fun h => ?_, by decide +kernel⟩
  have hstate := (h (by decide +kernel) (.put (.ofString "a") (.ofString "1")) (by decide +kernel)).1
  revert hstate
  decide +kernel

end

end Cs162Hw.Kv
