import Cs162Hw.Library.Pool
import Cs162Hw.Kv.Participant

/-!
# The worker threads of a follower

`handle_follower` runs in several threads. The store and the log have locks of their
own, so each call on them is one step; `server->state` has none, and its test and the
assignment that follows are two steps with the others in between.

`workerHandle` is `kvserver_handle_tpc` cut into these steps; alone it does what the
handler of `Server.lean` does (`workerHandle_sameRun`). **`workers_serial`**: if no
worker reads `server->state` while another is between its own reading and its last step, the threads
do what handling the messages one at a time does. `two_votes` is what
happens otherwise.
-/

namespace Cs162Hw.Kv

open Library
open Library.Program (read perform run_bind SameRun)
open Library.TwoPhase (Participant)

/-- The steps of a worker that change anything. -/
inductive WorkerOp where
  /-- `tpclog_log`, under the lock of the log. -/
  | log (type : MsgType) (key value : Option CString)
  /-- `do_log`. -/
  | doLog
  /-- `tpclog_clear_log`, and `nextid` set to zero. -/
  | clearLog
  /-- `server->state = state`. -/
  | setState (state : TpcState)

/-- A request as `kvrequest_recieve` returns it: with the strings its type has. -/
abbrev Request := { req : KvRequest // req.input?.isSome = true }

section

variable [StrHash]

instance : Effect WorkerOp KvServer where
  exec
    | .log type key value, server => ((onLog (tpclogLog type key value)).run server).2
    | .doLog, server => (doLog.run server).2
    | .clearLog, server => ((onLog tpclogClearLog).run server).2
    | .setState state, server => { server with state := state }

/-- A worker's program. -/
abbrev WorkerProgram := Program WorkerOp KvServer

/-- The program `p` as one step; `o` is its operation. -/
def atomically {α : Type} (o : WorkerOp) (p : ServerProgram α) : WorkerProgram α :=
  .step (some o) fun server =>
    match (p.run server).1 with
    | some a => .ret a
    | none => .fault

/-- The calls of `kvserver_handle_tpc`, each one step. -/
def workerCalls : TpcCalls WorkerProgram where
  readState := do
    let server ← read
    return server.state
  putCheck key value := do
    let _ ← read
    return kvserverPutCheck key value
  delCheck key := do
    let server ← read
    return kvserverDelCheck server key
  log type key value := atomically (.log type key value) (onLog (tpclogLog type key value))
  setState state := atomically (.setState state) (perform (.setState state))
  doLog := atomically .doLog doLog
  clearLog := atomically .clearLog (onLog tpclogClearLog)
  get key := do
    let server ← read
    return kvserverGet server key
  strlenNull := .fault

/-- What a worker does with a request. -/
def workerHandle (r : Request) : WorkerProgram KvResponse := kvserverHandleTpc workerCalls r.1

/-- A `GET` only looks at the store, and not at `server->state`. -/
def Peeks (r : Request) : Prop := r.1.type = .getReq

instance : DecidablePred Peeks := fun r => inferInstanceAs (Decidable (r.1.type = .getReq))

/-! ## Alone -/

/-- Two sets of calls that do the same alone. -/
structure SameCalls {Op Op' : Type} [Effect Op KvServer] [Effect Op' KvServer] (c : TpcCalls (Program Op KvServer))
    (d : TpcCalls (Program Op' KvServer)) : Prop where
  readState : SameRun c.readState d.readState
  putCheck : ∀ key value, SameRun (c.putCheck key value) (d.putCheck key value)
  delCheck : ∀ key, SameRun (c.delCheck key) (d.delCheck key)
  log : ∀ type key value, SameRun (c.log type key value) (d.log type key value)
  setState : ∀ state, SameRun (c.setState state) (d.setState state)
  doLog : SameRun c.doLog d.doLog
  clearLog : SameRun c.clearLog d.clearLog
  get : ∀ key, SameRun (c.get key) (d.get key)
  strlenNull : SameRun c.strlenNull d.strlenNull

omit [StrHash] in
/-- `kvserver_handle_tpc` does the same alone, whatever its calls are made of. -/
theorem SameCalls.handleTpc {Op Op' : Type} [Effect Op KvServer] [Effect Op' KvServer] {c : TpcCalls (Program Op KvServer)}
    {d : TpcCalls (Program Op' KvServer)} (h : SameCalls c d) (req : KvRequest) :
    SameRun (kvserverHandleTpc c req) (kvserverHandleTpc d req) := by
  obtain ⟨type, key, val⟩ := req
  cases type
  case putReq =>
    refine h.readState.bind fun state => .ite ?_ (.pure _)
    rcases key with _ | key
    · exact h.strlenNull
    rcases val with _ | val
    · exact h.strlenNull
    exact (h.putCheck key val).bind fun check => .ite ((h.log _ _ _).bind fun _ => (h.setState _).bind fun _ => .pure _)
      (.pure _)
  case delReq =>
    refine h.readState.bind fun state => .ite ?_ (.pure _)
    rcases key with _ | key
    · exact h.strlenNull
    exact (h.delCheck key).bind fun check => .ite ((h.log _ _ _).bind fun _ => (h.setState _).bind fun _ => .pure _)
      (.pure _)
  case commit =>
    refine h.readState.bind fun state => .ite ?_ (.pure _)
    exact (h.log _ _ _).bind fun _ => (h.setState _).bind fun _ => h.doLog.bind fun _ => h.clearLog.bind fun _ =>
      (h.setState _).bind fun _ => .pure _
  case abort =>
    refine h.readState.bind fun state => .ite ?_ (.pure _)
    exact (h.log _ _ _).bind fun _ => (h.setState _).bind fun _ => h.clearLog.bind fun _ =>
      (h.setState _).bind fun _ => .pure _
  case getReq =>
    rcases key with _ | key
    · exact h.strlenNull
    · exact (h.get key).bind fun res => .ite (.pure _) (.pure _)
  all_goals exact .pure _

theorem atomically_sameRun {α : Type} {o : WorkerOp} {p : ServerProgram α}
    (ho : ∀ s : KvServer, Effect.exec o s = (p.run s).2) : SameRun (atomically o p) p := by
  intro s
  show Program.run (match (p.run s).1 with | some a => .ret a | none => .fault) (Effect.exec o s) = p.run s
  rw [ho]
  rcases p.run s with ⟨_ | a, t⟩ <;> rfl

theorem workerCalls_sameCalls : SameCalls workerCalls (fileCalls tpclogLog) where
  readState _ := rfl
  putCheck _ _ _ := rfl
  delCheck _ _ := rfl
  log _ _ _ := atomically_sameRun fun _ => rfl
  setState s := atomically_sameRun (o := .setState s) (p := perform (.setState s)) fun _ => rfl
  doLog := atomically_sameRun fun _ => rfl
  clearLog := atomically_sameRun fun _ => rfl
  get _ _ := rfl
  strlenNull _ := rfl

/-- Alone, a worker does what the handler does. -/
theorem workerHandle_sameRun (r : Request) : SameRun (workerHandle r) (handleTpc r.1) :=
  workerCalls_sameCalls.handleTpc r.1

/-- A `GET` is one look at the store. -/
theorem workerHandle_peeks {r : Request} (hr : Peeks r) :
    ∃ g : KvServer → KvResponse, (∀ s, (g s).type ≠ .vote) ∧ workerHandle r = .step none fun s => .ret (g s) := by
  obtain ⟨⟨type, key, val⟩, hin⟩ := r
  obtain rfl : type = .getReq := hr
  rcases key with _ | key
  · cases hin
  refine ⟨fun s => if (kvserverGet s key).1 ≠ 0 then ⟨.error, some (getMsg (kvserverGet s key).1)⟩
    else ⟨.getResp, (kvserverGet s key).2⟩, fun s => by dsimp only; split_ifs <;> simp, ?_⟩
  refine congrArg (Program.step none) (funext fun s => ?_)
  show (if (kvserverGet s key).1 ≠ 0 then Program.ret _ else Program.ret _) = _
  dsimp only
  split_ifs <;> rfl

/-! ## What the answers say -/

omit [StrHash] in
/-- The participant that the answers given, latest first, speak of: a vote to commit makes its
operation the pending one, and a `COMMIT` applies that. -/
def replay (m : KvMap) : List (Request × KvResponse) → MapParticipant
  | [] => ⟨m, none⟩
  | (r, res) :: past =>
    let p := replay m past
    if res = ⟨.vote, some msgCommit⟩ then { p with pending := r.1.update? }
    else match r.1.type with
      | .commit => (p.receive .commit).2
      | .abort => (p.receive .abort).2
      | _ => p

omit [StrHash] in
/-- How many votes to commit were given since the last decision. -/
def votesSince : List (Request × KvResponse) → ℕ
  | [] => 0
  | (r, res) :: past =>
    if r.1.type = .commit ∨ r.1.type = .abort then 0
    else if res = ⟨.vote, some msgCommit⟩ then votesSince past + 1
    else votesSince past

omit [StrHash] in
/-- An answer that is no vote, to what is no decision, changes nothing. -/
theorem replay_other (m : KvMap) (past : List (Request × KvResponse)) {r : Request} {res : KvResponse}
    (hres : res ≠ ⟨.vote, some msgCommit⟩) (hc : r.1.type ≠ .commit) (ha : r.1.type ≠ .abort) :
    replay m ((r, res) :: past) = replay m past ∧ votesSince ((r, res) :: past) = votesSince past := by
  refine ⟨?_, by rw [votesSince, if_neg (not_or.mpr ⟨hc, ha⟩), if_neg hres]⟩
  rw [replay, if_neg hres]
  split
  · next h => exact absurd h hc
  · next h => exact absurd h ha
  · rfl

omit [StrHash] in
/-- The participant goes from answer to answer as it does from message to message, and has a vote outstanding
exactly when something is pending. -/
theorem replay_respond {m : KvMap} {r : Request} {input : Input} (hin : r.1.input? = some input)
    {past : List (Request × KvResponse)} (hget : ¬ Peeks r)
    (hv : votesSince past = if (replay m past).pending.isSome then 1 else 0) :
    let answered := (r, respond input (replay m past)) :: past
    replay m answered = accept input (replay m past) ∧
      votesSince answered = if (replay m answered).pending.isSome then 1 else 0 := by
  intro answered
  rcases input?_cases hin with ⟨u, rfl, hu⟩ | ⟨commit, rfl, hreq⟩ | ⟨key, val, -, hreq⟩ | ⟨rfl, -, hc, ha, -⟩
  · have htype : r.1.type ≠ .commit ∧ r.1.type ≠ .abort := by
      rcases update?_eq_some hu with ⟨key, value, hreq, -⟩ | ⟨key, value, hreq, -⟩ <;> rw [hreq] <;> simp
    have hbody := respond_prepare_body u (replay m past)
    by_cases hvote : ((replay m past).receive (.prepare u)).1 = true
    · -- a vote to commit
      obtain ⟨hnone, hrecv⟩ : (replay m past).pending = none ∧
          (replay m past).receive (.prepare u) = (true, { replay m past with pending := some u }) := by
        rcases hp : (replay m past).pending with _ | v
        · refine ⟨rfl, ?_⟩
          simp only [Participant.receive, hp] at hvote ⊢
          split_ifs at hvote ⊢
          rfl
        · simp [Participant.receive, hp] at hvote
      have hres : respond (.tpc (.prepare u)) (replay m past) = ⟨.vote, some msgCommit⟩ := by
        have := hbody.mpr hvote
        simp only [respond, hnone] at this ⊢
        rw [this]
      have hreplay : replay m answered = { replay m past with pending := some u } := by
        simp only [answered, replay, hres, hu]
        rfl
      refine ⟨by rw [hreplay, accept, hrecv], ?_⟩
      rw [hreplay]
      simp only [answered, votesSince, if_neg (not_or.mpr htype), hres, hv, hnone]
      rfl
    · have hres : respond (.tpc (.prepare u)) (replay m past) ≠ ⟨.vote, some msgCommit⟩ :=
        fun h => hvote (hbody.mp (by rw [h]))
      have hrecv : accept (.tpc (.prepare u)) (replay m past) = replay m past := by
        rcases hp : (replay m past).pending with _ | v
        · simp only [accept, Participant.receive, hp] at hvote ⊢
          split_ifs at hvote ⊢
          · exact absurd rfl hvote
          · rfl
        · simp only [accept, Participant.receive, hp]
      obtain ⟨h₁, h₂⟩ := replay_other m past hres htype.1 htype.2
      exact ⟨h₁.trans hrecv.symm, by rw [h₂, h₁, hv]⟩
  · have hack : respond (.tpc (TwoPhase.decision commit)) (replay m past) = ⟨.ack, none⟩ := by cases commit <;> rfl
    have hreplay : replay m answered = accept (.tpc (TwoPhase.decision commit)) (replay m past) := by
      simp only [answered, replay, hack]
      rw [if_neg (by decide), hreq]
      cases commit <;> rfl
    refine ⟨hreplay, ?_⟩
    have hnone : (replay m answered).pending = none := by
      rw [hreplay, accept]
      cases commit
      · rfl
      · simp only [TwoPhase.decision, if_true, Participant.receive]
        split
        · rfl
        · assumption
    have hdecision : r.1.type = .commit ∨ r.1.type = .abort := by cases commit <;> simp [hreq]
    rw [hnone]
    simp only [answered, votesSince, if_pos hdecision]
    rfl
  · exact absurd (by rw [Peeks, hreq]) hget
  · obtain ⟨h₁, h₂⟩ := replay_other m past (show KvResponse.blank ≠ _ by decide) hc ha
    have hanswered : answered = (r, .blank) :: past := rfl
    exact ⟨h₁, by rw [hanswered, h₁, h₂, hv]⟩

/-! ## Workers that keep out of each other's way -/

/-- What requests handled one at a time make of a follower is what their answers say. -/
theorem serial_refines {s₀ s : KvServer} {m : KvMap} (h₀ : Refines s₀ ⟨m, none⟩) {past : List (Request × KvResponse)}
    (h : Pool.Serial workerHandle Peeks s₀ past s) :
    Refines s (replay m past) ∧ votesSince past = if (replay m past).pending.isSome then 1 else 0 := by
  induction h with
  | nil => exact ⟨h₀, rfl⟩
  | @handled past s t r a _ hget hrun ih =>
    obtain ⟨href, hv⟩ := ih
    obtain ⟨input, hin⟩ := Option.isSome_iff_exists.mp r.2
    obtain ⟨hres, hnext⟩ := handle_refines href hin
    rw [workerHandle_sameRun r s] at hrun
    rw [KvServer.handle, hrun] at hres hnext
    obtain rfl := Option.some.inj hres
    obtain ⟨hreplay, hvotes⟩ := replay_respond (m := m) hin hget hv
    exact ⟨hreplay ▸ hnext, hvotes⟩
  | @died past s t r _ hget hrun ih =>
    obtain ⟨input, hin⟩ := Option.isSome_iff_exists.mp r.2
    obtain ⟨hres, -⟩ := handle_refines ih.1 hin
    rw [workerHandle_sameRun r s] at hrun
    rw [KvServer.handle, hrun] at hres
    cases hres
  | @peeked past s s' r a _ hget hrun ih =>
    obtain ⟨g, hg, hhandle⟩ := workerHandle_peeks hget
    have ha : a = g s' := by
      rw [hhandle] at hrun
      exact (Option.some.inj (Prod.mk.inj hrun).1).symm
    have hres : a ≠ ⟨.vote, some msgCommit⟩ := fun h => hg s' (by rw [← ha, h])
    have htype : r.1.type ≠ .commit ∧ r.1.type ≠ .abort := by
      rw [show r.1.type = .getReq from hget]
      decide
    obtain ⟨h₁, h₂⟩ := replay_other m past hres htype.1 htype.2
    exact ⟨h₁ ▸ ih.1, by rw [h₁, h₂, ih.2]⟩

/-- **The state machine survives the threads**, as long as no worker reads `server->state` while another is
between its own reading and its last step: in every interleaving of any number of workers, since the last
decision at most one vote to commit was given; and whenever no worker is under way, the map is the one the answers
speak of, every `COMMIT` having applied the operation voted for, and the state is `TPC_READY` exactly when the
log is one record of a `PUT` or `DELETE`. -/
theorem workers_serial (store : KvStore) (hc : store.Chained) (events : List (PoolEvent Request))
    (hex : Pool.ExclusiveRun workerHandle Peeks (Pool.start (KvServer.start store)) events) :
    let f := (Pool.start (KvServer.start store)).run workerHandle events
    votesSince f.finished ≤ 1 ∧
      (f.Idle → f.shared.store.contents = (replay store.contents f.finished).data ∧
        (f.shared.state = .ready ↔ ∃ u : Update, f.shared.log.files = .ofList [some u.record])) := by
  intro f
  have hpeeks : ∀ r : Request, Peeks r → ∃ g : KvServer → KvResponse, workerHandle r = .step none fun s => .ret (g s) := by
    intro r hr
    obtain ⟨g, -, hg⟩ := workerHandle_peeks hr
    exact ⟨g, hg⟩
  obtain ⟨s, hserial, hidle⟩ := Pool.serial hpeeks (KvServer.start store) hex
  obtain ⟨href, hv⟩ := serial_refines (start_refines hc) hserial
  refine ⟨?_, fun h => ?_⟩
  · rw [hv]
    split_ifs <;> omega
  · obtain rfl : f.shared = s := hidle h
    refine ⟨href.contents, ?_⟩
    rw [href.state_eq_ready_iff]
    generalize replay store.contents f.finished = p at href
    obtain ⟨m, _ | u⟩ := p
    · obtain ⟨-, -, hlog, -⟩ : Quiescent f.shared m := href
      refine iff_of_false (by simp) fun ⟨u, hu⟩ => ?_
      have := congrArg (fun d => d.stat 0) hu
      rw [hlog] at this
      simp [TpcLog.holding] at this
    · obtain ⟨-, -, hlog, -⟩ : Prepared f.shared u m := href
      exact iff_of_true rfl ⟨u, by rw [hlog]; rfl⟩

end

section

attribute [local instance] md5Sample

/-- `PUT a 1` by one worker, `GET a` by another in its middle, `COMMIT` by a third. -/
theorem workers_serial_put :
    let events : List (PoolEvent Request) := [.arrive ⟨putA "1", rfl⟩, .arrive ⟨⟨.getReq, some (.ofString "a"), none⟩, rfl⟩,
      .arrive ⟨⟨.commit, none, none⟩, rfl⟩, .advance 0, .advance 0, .advance 1, .advance 0, .advance 0,
      .advance 2, .advance 2, .advance 2, .advance 2, .advance 2, .advance 2]
    let f := (Pool.start (KvServer.start ⟨.empty⟩)).run workerHandle events
    votesSince f.finished ≤ 1 ∧
      (f.Idle → f.shared.store.contents = (replay (KvStore.contents ⟨.empty⟩) f.finished).data ∧
        (f.shared.state = .ready ↔ ∃ u : Update, f.shared.log.files = .ofList [some u.record])) :=
  workers_serial ⟨.empty⟩ KvStore.chained_empty _ (by decide +kernel)

/-! ## Two that do not -/

/-- Two workers with a `PUT` each read `server->state` before either has written it. -/
def twoVotes : List (PoolEvent Request) :=
  [.arrive ⟨putA "1", rfl⟩, .arrive ⟨putA "2", rfl⟩, .advance 0, .advance 1,
    .advance 0, .advance 0, .advance 0, .advance 1, .advance 1, .advance 1]

/-- Both vote to commit, and the state is `TPC_READY` with two records in the log. -/
theorem two_votes :
    let f := (Pool.start (KvServer.start ⟨.empty⟩)).run workerHandle twoVotes
    f.Idle ∧ ¬ votesSince f.finished ≤ 1 ∧ f.shared.state = .ready ∧
      ¬ ∃ u : Update, f.shared.log.files = .ofList [some u.record] := by
  intro f
  refine ⟨by decide +kernel, by decide +kernel, by decide +kernel, fun ⟨u, hu⟩ => ?_⟩
  have hsecond : f.shared.log.files.stat 1 = true := by decide +kernel
  rw [hu] at hsecond
  simp at hsecond

end

end Cs162Hw.Kv
