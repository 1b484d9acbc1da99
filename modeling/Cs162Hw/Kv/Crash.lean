import Cs162Hw.Kv.Participant

/-!
# Crashes while a decision is carried out

A follower with an operation pending receives the decision and crashes, any number
of times, between any two operations of `kvserver_handle_tpc` and of the
`kvserver_init` that follows each crash; writing a log or entry file, a `rename` and a
`remove` are one operation each.

What carries the argument is what the directory can look like on the way, `Decided`: both
records are there, and the operation has been applied or not; or the first record is gone, and it
has. Recovery applies the operation again if it finds both records, which does no harm
because applying it twice is applying it once. **`survive_exactly_once`** is the
result.
-/

namespace Cs162Hw.Kv

open Library
open Library.Program (Performs Throughout crashAt execAll)
open Library.TwoPhase.Operations (apply)

/-- An operation that leaves the directories as they are. -/
def ServerOp.InMemory : ServerOp → Prop
  | .setState _ => True
  | .log (.setNextid _) => True
  | .log (.setIterpos _) => True
  | _ => False

/-- Attempts to restart that crash, after so many operations each. -/
def KvServer.crashedRestarts [StrHash] (s : KvServer) (crashes : List ℕ) : KvServer :=
  crashes.foldl (fun s n => (crashAt n kvserverInit s).crash) s

/-- The request is received and the process crashes, in the handler after the first number
of operations and then in each attempt to restart; at last something runs to its end. -/
def KvServer.survive [StrHash] (s : KvServer) (req : KvRequest) : List ℕ → KvServer
  | [] => (s.handle req).2
  | n :: crashes =>
    (kvserverInit.run ((crashAt n (handleTpc req) s).crash.crashedRestarts crashes)).2

/-- Had the handler written the record of the decision before the first crash? -/
def DecisionWritten [StrHash] (s : KvServer) (req : KvRequest) (commit : Bool) : List ℕ → Prop
  | [] => True
  | n :: _ => .log (.writeLog s.log.nextid (decisionRecord commit)) ∈ ((handleTpc req).ops s).take n

/-! ## What the directory can look like -/

/-- The map after the decision. -/
def decidedMap (commit : Bool) (u : Update) (m : KvMap) : KvMap := if commit then apply u m else m

theorem apply_decidedMap (u : Update) (m : KvMap) : apply u (decidedMap true u m) = decidedMap true u m :=
  Update.apply_apply u m

section

variable [StrHash]

/-- On disk, the operation `u` on a store that represents `m` is pending. -/
structure Undecided (u : Update) (m : KvMap) (s : KvServer) : Prop where
  chained : s.store.Chained
  contents : s.store.contents = m
  files : s.log.files = .ofList [some u.record]

/-- On disk, `u` is decided: both records are there, and it has been carried out or not; or
the first record is gone, and it has. -/
structure Decided (commit : Bool) (u : Update) (m : KvMap) (s : KvServer) : Prop where
  chained : s.store.Chained
  disk : (s.log.files = .ofList [some u.record, some (decisionRecord commit)] ∧
      (s.store.contents = m ∨ s.store.contents = decidedMap commit u m)) ∨
    (s.log.files.stat 0 = false ∧ s.store.contents = decidedMap commit u m)

variable {commit : Bool} {u : Update} {m : KvMap} {s : KvServer}

omit [StrHash] in
theorem crash_files : s.crash.log.files = s.log.files := rfl

theorem Undecided.crash (h : Undecided u m s) : Undecided u m s.crash := ⟨h.chained, h.contents, h.files⟩

theorem Decided.crash (h : Decided commit u m s) : Decided commit u m s.crash := ⟨h.chained, h.disk⟩

omit [StrHash] in
/-- Assignments in memory leave the directories as they are. -/
theorem ServerOp.InMemory.disk {o : ServerOp} (h : o.InMemory) (s : KvServer) :
    (Effect.exec o s).store = s.store ∧ (Effect.exec o s).log.files = s.log.files := by
  cases o with
  | store o => cases h
  | log o => cases o <;> first | exact ⟨rfl, rfl⟩ | cases h
  | setState state => exact ⟨rfl, rfl⟩

omit [StrHash] in
/-- A property of the directories holds throughout assignments in memory. -/
theorem throughout_inMemory {P : KvServer → Prop} (hP : ∀ s t : KvServer, s.store = t.store → s.log.files = t.log.files →
    P t → P s) {l : List ServerOp} (hl : ∀ o ∈ l, o.InMemory) (hs : P s) : Throughout P l s :=
  .of_forall hs fun o ho t ht => hP _ t ((hl o ho).disk t).1 ((hl o ho).disk t).2 ht

theorem Undecided.congr {s t : KvServer} (hs : s.store = t.store) (hf : s.log.files = t.log.files)
    (h : Undecided u m t) : Undecided u m s := ⟨hs ▸ h.chained, hs ▸ h.contents, hf ▸ h.files⟩

theorem Decided.congr {s t : KvServer} (hs : s.store = t.store) (hf : s.log.files = t.log.files)
    (h : Decided commit u m t) : Decided commit u m s := ⟨hs ▸ h.chained, hs ▸ hf ▸ h.disk⟩

omit [StrHash] in
theorem inMemory_initOps (n : ℕ) : ∀ o ∈ initOps n, o.InMemory := by
  intro o ho
  simp only [initOps, List.mem_cons, iterations, List.mem_map] at ho
  rcases ho with rfl | rfl | rfl | ⟨j, -, rfl⟩ <;> trivial

/-! ## The operations that carry out a decision -/

/-- Clearing the two records of a decision that has been carried out. -/
theorem Decided.throughout_clear (h : Decided commit u m s)
    (hm : s.store.contents = decidedMap commit u m) : Throughout (Decided commit u m) (clearOps 2) s := by
  have hclear : clearOps 2 = [.log (.removeLog 0), .log (.removeLog 1), .log (.setNextid 0), .setState .wait] := rfl
  have hstat₀ : (s.log.files.remove 0).stat 0 = false := by simp [Directory.stat]
  have hstat₁ : ((s.log.files.remove 0).remove 1).stat 0 = false := by
    rw [Directory.stat, Directory.file_remove_of_ne (by decide), Directory.file_remove_self]
    rfl
  rw [hclear]
  refine ⟨h, ⟨h.chained, Or.inr ⟨hstat₀, hm⟩⟩, ?_⟩
  exact throughout_inMemory (fun _ _ => Decided.congr) (l := [.log (.setNextid 0), .setState .wait])
    (by simp [ServerOp.InMemory]) ⟨h.chained, Or.inr ⟨hstat₁, hm⟩⟩

/-- Redoing the records of a committed operation and clearing them. -/
theorem Decided.throughout_doLog (hc : s.store.Chained)
    (hl : s.log.files = .ofList [some u.record, some (decisionRecord true)])
    (hm : s.store.contents = m ∨ s.store.contents = decidedMap true u m) {lo : List StoreOp}
    (hlo : Redo u s.store lo) : Throughout (Decided true u m) (doLogOps lo ++ clearOps 2) s := by
  have hstart : Decided true u m s := ⟨hc, Or.inl ⟨hl, hm⟩⟩
  have happlied : (execAll lo s.store).contents = decidedMap true u m := by
    rw [hlo.applied]
    rcases hm with hm | hm <;> rw [hm]
    · rfl
    · exact apply_decidedMap u m
  have hend : ∀ pos, Decided true u m ⟨execAll lo s.store, { s.log with iterpos := pos }, s.state⟩ :=
    fun pos => ⟨hlo.chained, Or.inl ⟨hl, Or.inr happlied⟩⟩
  have hclear := (hend 2).throughout_clear happlied
  have hmem : ∀ pos, Decided true u m { s with log := { s.log with iterpos := pos } } :=
    fun _ => Decided.congr (t := s) rfl rfl hstart
  obtain rfl | ⟨o, rfl⟩ : lo = [] ∨ ∃ o, lo = [o] := by
    rcases lo with _ | ⟨o, _ | ⟨o', lo⟩⟩
    · exact Or.inl rfl
    · exact Or.inr ⟨o, rfl⟩
    · exact absurd hlo.short (by simp)
  · exact ⟨hstart, hmem 0, hmem 1, hclear⟩
  · exact ⟨hstart, hmem 0, hmem 1, hend 1, hclear⟩

/-! ## Recovery -/

/-- Recovery of a follower with an operation pending only reads. -/
theorem Undecided.init_performs (h : Undecided u m s) :
    Performs kvserverInit s (initOps 1 ++ [.setState .ready]) 0
      ⟨s.store, .holding [some u.record] 1, .ready⟩ :=
  kvserverInit_performs (l := [some u.record]) h.files rebuildEnd_record_performs

theorem Undecided.throughout_init (h : Undecided u m s) :
    Throughout (Undecided u m) (kvserverInit.ops s) s := by
  rw [h.init_performs.ops_eq]
  refine throughout_inMemory (fun _ _ => Undecided.congr) (fun o ho => ?_) h
  rcases List.mem_append.mp ho with ho | ho
  · exact inMemory_initOps 1 o ho
  · rw [List.mem_singleton.mp ho]; trivial

/-- Recovery of a follower with a decided operation stays with the decision at every
boundary, and when it gets to its end, nothing is pending and the decision is carried out. -/
theorem Decided.init (h : Decided commit u m s) (hu : u.Valid) :
    Throughout (Decided commit u m) (kvserverInit.ops s) s ∧
      (kvserverInit.run s).2.state ≠ .ready ∧
      (kvserverInit.run s).2.store.contents = decidedMap commit u m := by
  rcases h.disk with ⟨hl, hm⟩ | ⟨hvacant, hm⟩
  · have hstart : Throughout (Decided commit u m) (initOps 2) s :=
      throughout_inMemory (fun _ _ => Decided.congr) (inMemory_initOps 2) h
    have hread : execAll (initOps 2) s =
        ⟨s.store, .holding [some u.record, some (decisionRecord commit)] 2, .init⟩ := by
      simp [initOps, iterations, List.range', Effect.exec, TpcLog.holding, hl]
    cases commit with
    | true =>
      obtain ⟨lo, hlo, hend⟩ := rebuildEnd_commit_performs (s :=
        ⟨s.store, .holding [some u.record, some (decisionRecord true)] 2, .init⟩) hu h.chained rfl
      have hinit := kvserverInit_performs hl hend
      rw [hinit.run_eq, hinit.ops_eq]
      refine ⟨hstart.append ?_, by simp, ?_⟩
      · rw [hread]
        exact Decided.throughout_doLog
          (s := ⟨s.store, .holding [some u.record, some (decisionRecord true)] 2, .init⟩) h.chained rfl hm hlo
      · show (execAll lo s.store).contents = _
        rw [hlo.applied]
        rcases hm with hm | hm <;> rw [hm]
        · rfl
        · exact apply_decidedMap u m
    | false =>
      have hm' : s.store.contents = decidedMap false u m := hm.elim id id
      have hinit := kvserverInit_performs hl (rebuildEnd_abort_performs rfl)
      rw [hinit.run_eq, hinit.ops_eq]
      refine ⟨hstart.append ?_, by simp, hm'⟩
      rw [hread]
      exact Decided.throughout_clear ⟨h.chained, Or.inl ⟨rfl, Or.inr hm'⟩⟩ hm'
  · have hinit := kvserverInit_vacant hvacant
    rw [hinit.run_eq, hinit.ops_eq]
    exact ⟨throughout_inMemory (fun _ _ => Decided.congr) (inMemory_initOps 0) h, by simp, hm⟩

theorem Undecided.crashedRestarts (h : Undecided u m s) (crashes : List ℕ) :
    Undecided u m (s.crashedRestarts crashes) := by
  induction crashes generalizing s with
  | nil => exact h
  | cons n crashes ih => exact ih (h.throughout_init.take n).crash

theorem Decided.crashedRestarts (h : Decided commit u m s) (hu : u.Valid) (crashes : List ℕ) :
    Decided commit u m (s.crashedRestarts crashes) := by
  induction crashes generalizing s with
  | nil => exact h
  | cons n crashes ih => exact ih ((h.init hu).1.take n).crash

/-! ## The handler -/

/-- The handler of a decision writes its record first. From there on the operation is
decided at every boundary, and at the end carried out. -/
theorem Prepared.handle_decision (h : Prepared s u m) {req : KvRequest}
    (hreq : req.type = if commit then .commit else .abort) :
    ∃ l, (handleTpc req).ops s = .log (.writeLog s.log.nextid (decisionRecord commit)) :: l ∧
      Throughout (Decided commit u m) l
        (Effect.exec (ServerOp.log (.writeLog s.log.nextid (decisionRecord commit))) s) ∧
      (s.handle req).2.state ≠ .ready ∧ (s.handle req).2.store.contents = decidedMap commit u m := by
  obtain ⟨hc, rfl, hlog, hstate, hagreed⟩ := h
  obtain ⟨store, log, state⟩ := s
  simp only at hlog hstate hc hagreed
  subst hstate
  rw [hlog]
  have happend := appends_tpclogLog [some u.record] log.iterpos (decisionRecord commit)
  have hwritten : ∀ nextid state, Decided commit u store.contents
      ⟨store, ⟨.ofList [some u.record, some (decisionRecord commit)], nextid, log.iterpos⟩, state⟩ :=
    fun _ _ => ⟨hc, Or.inl ⟨rfl, Or.inl rfl⟩⟩
  have hexec : Effect.exec (ServerOp.log (.writeLog 1 (decisionRecord commit)))
      (⟨store, .holding [some u.record] log.iterpos, .ready⟩ : KvServer) =
        ⟨store, ⟨.ofList [some u.record, some (decisionRecord commit)], 1, log.iterpos⟩, .ready⟩ := by
    have := Directory.write_ofList [some u.record] (some (decisionRecord commit))
    simp only [List.length_singleton, List.cons_append, List.nil_append] at this
    simp [Effect.exec, TpcLog.holding, this]
  cases commit with
  | true =>
    obtain ⟨lo, hlo, hperf⟩ := handleTpc_commit
      (s := ⟨store, .holding [some u.record] log.iterpos, .ready⟩) (by simpa using hreq) rfl
      (Update.valid_of_checkCode hagreed) hc happend rfl
    rw [KvServer.handle, handleTpc, hperf.run_eq, hperf.ops_eq]
    refine ⟨_, rfl, ?_, by simp, hlo.applied⟩
    rw [show (TpcLog.holding [some u.record] log.iterpos).nextid = 1 from rfl, hexec]
    exact ⟨hwritten 1 .ready, hwritten 2 .ready, Decided.throughout_doLog
      (s := ⟨store, .holding [some u.record, some (decisionRecord true)] log.iterpos, .commit⟩)
      hc rfl (Or.inl rfl) hlo⟩
  | false =>
    have hperf := handleTpc_abort (s := ⟨store, .holding [some u.record] log.iterpos, .ready⟩)
      (l := [some u.record, some (decisionRecord false)]) (by simpa using hreq) rfl happend rfl
    rw [KvServer.handle, handleTpc, hperf.run_eq, hperf.ops_eq]
    refine ⟨_, rfl, ?_, by simp, rfl⟩
    rw [show (TpcLog.holding [some u.record] log.iterpos).nextid = 1 from rfl, hexec]
    exact ⟨hwritten 1 .ready, hwritten 2 .ready, Decided.throughout_clear
      (s := ⟨store, .holding [some u.record, some (decisionRecord false)] log.iterpos, .abort⟩)
      (hwritten 2 .abort) rfl⟩

/-- **Exactly once, across crashes.** A follower with `u` pending receives a decision and
crashes any number of times. When something has run to its end again: if the record of the
decision had been written, nothing is pending and the map is the old one with `u` applied
(`COMMIT`), or the old one (`ABORT`); if it had not, `u` is pending and the map is the old
one. -/
theorem survive_exactly_once (s : KvServer) (u : Update) (m : KvMap) (h : Prepared s u m) (commit : Bool)
    (req : KvRequest) (hreq : req.type = if commit then .commit else .abort) (crashes : List ℕ) :
    (DecisionWritten s req commit crashes →
      (s.survive req crashes).state ≠ .ready ∧
        (s.survive req crashes).store.contents = if commit then apply u m else m) ∧
    (¬ DecisionWritten s req commit crashes → Prepared (s.survive req crashes) u m) := by
  obtain ⟨l, hops, hthrough, hstate, hcontents⟩ := h.handle_decision hreq
  have hu := Update.valid_of_checkCode h.agreed
  cases crashes with
  | nil => exact ⟨fun _ => ⟨hstate, hcontents⟩, fun hno => absurd trivial hno⟩
  | cons n crashes =>
    simp only [DecisionWritten, KvServer.survive, crashAt, hops]
    cases n with
    | zero =>
      -- the crash came first
      refine ⟨fun hmem => by simp at hmem, fun _ => ?_⟩
      have hcrash : Undecided u m s.crash := ⟨h.chained, h.contents, by rw [crash_files, h.log]; rfl⟩
      have hlast := hcrash.crashedRestarts crashes
      rw [List.take_zero, Program.execAll_nil, hlast.init_performs.run_eq]
      exact ⟨hlast.chained, hlast.contents, rfl, rfl, h.agreed⟩
    | succ n =>
      refine ⟨fun _ => ?_, fun hno => absurd (by simp) hno⟩
      rw [List.take_succ_cons, Program.execAll_cons]
      exact (((hthrough.take n).crash.crashedRestarts hu crashes).init hu).2

end

section

attribute [local instance] md5Sample

/-- A follower that has agreed to `u` on an empty store. -/
def preparedServer (u : Update) : KvServer := ⟨⟨.empty⟩, .holding [some u.record] 0, .ready⟩

/-- `COMMIT`, in which the process crashes after its fifth operation, and again in the middle of `kvserver_init`. -/
theorem survive_exactly_once_put :
    let u : Update := .put (.ofString "a") (.ofString "1")
    let req : KvRequest := ⟨.commit, none, none⟩
    (DecisionWritten (preparedServer u) req true [5, 8] →
      ((preparedServer u).survive req [5, 8]).state ≠ .ready ∧
        ((preparedServer u).survive req [5, 8]).store.contents =
          if true then apply u (KvStore.contents ⟨.empty⟩) else KvStore.contents ⟨.empty⟩) ∧
    (¬ DecisionWritten (preparedServer u) req true [5, 8] →
      Prepared ((preparedServer u).survive req [5, 8]) u (KvStore.contents ⟨.empty⟩)) :=
  survive_exactly_once (preparedServer (.put (.ofString "a") (.ofString "1"))) _ _
    ⟨KvStore.chained_empty, rfl, rfl, rfl, by decide⟩ true _ rfl _

end

end Cs162Hw.Kv
