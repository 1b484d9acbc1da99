import Cs162Hw.Library.Register
import Cs162Hw.Kv.Exchanges

/-!
# Readers and a writer

Any number of `tpcleader_handle_get`s at the same time as one `tpcleader_handle_tpc` after the other, when every
exchange is answered. What happens is a sequence of `ServiceEvent`s: a request arrives, or a handler has its next
exchange.

To say which value a key has, the service keeps a map the program does not know: a `PUT` that commits changes it when the
primary is told, a `DELETE` when the last replica is (`Worker.effect`).

* The replicas of a key are the copies of a register (`Library.Register`): `Writes.copy`, and **`Writes.step`** — what the
  writer does is a step of the register of each key.
* `Reads`: what holds of a `GET`. **`Inv.step`** — it is kept by whatever happens.
* **`reads_linear`**: what a `GET` returns is the value its key had at some moment before it returned and since it began.
-/

namespace Cs162Hw.Kv

open Library
open Library.TwoPhase (Operations Phase Steady Unanimous)
open Library.TwoPhase.Operations (apply)

/-! ## The service -/

/-- A `GET` in `tpcleader_handle_get`. -/
structure Reader where
  /-- The key. -/
  key : CString
  /-- What else the client has sent. -/
  val : Option CString
  /-- Where the handler stands. -/
  call : GetCall
  deriving DecidableEq

/-- The request. -/
def Reader.req (reader : Reader) : KvRequest := ⟨.getReq, some reader.key, reader.val⟩

/-- The leader's handlers, and the followers. -/
structure Service where
  /-- The handler of `PUT`s and `DELETE`s that is at work, or was last. -/
  writer : Option Worker
  /-- The handlers of `GET`s, in the order of their arrival, with those that have returned. -/
  readers : List Reader
  /-- The followers. -/
  net : Address → KvServer
  /-- The value of each key. -/
  value : KvMap

/-- What happens. -/
inductive ServiceEvent where
  /-- A `PUT` or `DELETE` arrives. -/
  | write (w : Write)
  /-- Its handler has its next exchange. -/
  | exchange
  /-- A `GET` arrives. -/
  | get (key : CString) (val : Option CString)
  /-- The handler of the `GET` number `r` has its next exchange. -/
  | ask (r : ℕ)

/-- Has the handler an exchange to make? -/
def Worker.busy (worker : Worker) : Bool := (worker.call.asks worker.write.req).isSome

/-- What the next exchange of the handler makes of the values. A `PUT` that commits takes effect with the primary's `COMMIT`,
a `DELETE` with that of the last replica. -/
def Worker.effect (leader : TpcLeader) (worker : Worker) (value : KvMap) : KvMap :=
  match worker.call with
  | .decide true _ visitedNode _ =>
    match worker.write.op with
    | .put key v => if visitedNode = 0 then Function.update value key (some v) else value
    | .del key => if visitedNode + 1 = leader.redundancy then Function.update value key none else value
  | _ => value

/-- The `GET` number `r` is being handled. -/
def Service.Reading (s : Service) (r : ℕ) : Prop := ∃ reader, s.readers[r]? = some reader ∧ reader.call.asks ≠ none

section

variable [StrHash]

namespace Service

/-- One event. A `PUT` or `DELETE` that arrives while another is handled is not taken. -/
def step (leader : TpcLeader) (s : Service) : ServiceEvent → Service
  | .write w => if s.writer.any Worker.busy then s else { s with writer := some ⟨w, TpcCall.start leader w.req⟩ }
  | .exchange =>
    match s.writer with
    | none => s
    | some worker =>
      let (call, net) := worker.call.exchange leader worker.write.req handleRequest .answered s.net
      { s with writer := some { worker with call := call }, net := net, value := worker.effect leader s.value }
  | .get key val => { s with readers := s.readers ++ [⟨key, val, GetCall.start leader ⟨.getReq, some key, val⟩⟩] }
  | .ask r =>
    match s.readers[r]? with
    | none => s
    | some reader =>
      let (call, net) := reader.call.exchange leader reader.req handleRequest .answered s.net
      { s with readers := s.readers.set r { reader with call := call }, net := net }

/-- A sequence of events. -/
def run (leader : TpcLeader) (s : Service) (events : List ServiceEvent) : Service := events.foldl (step leader) s

end Service

end

/-! ## The registers -/

/-- The replicas of a key are the copies of a register: what is on its way through them, in the phase `φ` of an operation on
followers that have agreed on `m`. -/
def sweeps (leader : TpcLeader) (m : KvMap) (op : Update) (φ : Phase) (key : CString) : Sweep CString :=
  if key = op.key ∧ φ.decided = some true then ⟨m key, apply op m key, φ.heard leader.redundancy⟩ else ⟨m key, m key, 0⟩

theorem sweeps_self {leader : TpcLeader} {m : KvMap} {op : Update} {φ : Phase} (h : φ.decided = some true) :
    sweeps leader m op φ op.key = ⟨m op.key, apply op m op.key, φ.heard leader.redundancy⟩ := if_pos ⟨rfl, h⟩

/-- Nothing is on its way to another key, or if nothing has been decided to be done. -/
theorem sweeps_idle {leader : TpcLeader} {m : KvMap} {op : Update} {φ : Phase} {key : CString}
    (h : key = op.key → φ.decided ≠ some true) : sweeps leader m op φ key = ⟨m key, m key, 0⟩ := if_neg fun hc => h hc.1 hc.2

/-- An exchange of the writer, one that is not its last, is a step of the register of each key. -/
theorem sweeps_step {leader : TpcLeader} (hpos : 0 < leader.redundancy) (m : KvMap) (op : Update) {φ φ' : Phase}
    (hheard : φ'.heard leader.redundancy = if φ.decided.isSome then φ.heard leader.redundancy + 1 else 0)
    (hdecided : ∀ commit, φ.decided = some commit → φ'.decided = some commit) (key : CString) :
    (sweeps leader m op φ key).Step leader.redundancy (sweeps leader m op φ' key) := by
  by_cases hkey : key = op.key
  swap
  · rw [sweeps_idle fun hc => absurd hc hkey, sweeps_idle fun hc => absurd hc hkey]
    exact .stay
  subst hkey
  cases hd : φ.decided with
  | none =>
    rw [sweeps_idle fun _ => by simp [hd]]
    by_cases hd' : φ'.decided = some true
    · -- the decision has been made
      rw [hd] at hheard
      rw [sweeps_self hd', hheard]
      have hnext := Sweep.Step.next (n := leader.redundancy) (s := ⟨m op.key, m op.key, 0⟩) (Or.inl rfl) (apply op m op.key)
      rwa [Sweep.value_of_zero rfl hpos] at hnext
    · rw [sweeps_idle fun _ => hd']
      exact .stay
  | some commit =>
    have hd' := hdecided commit hd
    rw [hd] at hheard
    cases commit with
    | true =>
      rw [sweeps_self hd, sweeps_self hd', hheard]
      exact .write
    | false =>
      rw [sweeps_idle fun _ => by simp [hd], sweeps_idle fun _ => by simp [hd']]
      exact .stay

/-- An operation gives its key a value, whatever there was. -/
theorem Update.apply_self (u : Update) (m m' : KvMap) : apply u m u.key = apply u m' u.key := by
  cases u <;> simp [apply, Update.key]

theorem mem_take_of_nodup {α : Type} {l : List α} (h : l.Nodup) {p n : ℕ} {a : α} (hp : l[p]? = some a) :
    a ∈ l.take n ↔ p < n := by
  obtain ⟨hlt, rfl⟩ := List.getElem?_eq_some_iff.mp hp
  constructor
  · intro hmem
    obtain ⟨i, hi, heq⟩ := List.mem_take_iff_getElem.mp hmem
    obtain rfl := (List.Nodup.getElem_inj_iff h).mp heq
    omega
  · exact fun hn => List.mem_take_iff_getElem.mpr ⟨p, by omega, rfl⟩

section

variable [StrHash]

/-- What the followers hold, and where the handler of `PUT`s and `DELETE`s stands. -/
def Writes (leader : TpcLeader) (s : Service) (sw : CString → Sweep CString) : Prop :=
  (∀ key, s.value key = (sw key).value leader.redundancy) ∧
  ∃ (d : Address → KvMap) (m : KvMap), (∀ key, ∀ a ∈ addresses leader key, d a key = m key) ∧
    match s.writer with
    | none => (∀ a, Quiescent (s.net a) (d a)) ∧ sw = fun key => ⟨m key, m key, 0⟩
    | some worker => ∃ φ, Underway leader worker.write d φ worker.call s.net ∧ sw = sweeps leader m worker.write.op φ

variable {leader : TpcLeader} {s : Service} {sw : CString → Sweep CString}

/-- A replica holds what its copy of the register holds. -/
theorem Writes.copy (hfull : Full leader) (h : Writes leader s sw) {key : CString} {p pri : ℕ}
    (hpri : (leader.replicas key)[p]? = some pri) :
    (s.net (leader.nodes pri).address).store.Chained ∧
      (s.net (leader.nodes pri).address).store.contents key = (sw key).copy p := by
  obtain ⟨-, d, m, hagree, h⟩ := h
  have ha : (addresses leader key)[p]? = some (leader.nodes pri).address := by
    rw [addresses, List.getElem?_map, hpri]
    rfl
  have hmem := List.mem_of_getElem? ha
  have hidle : (⟨m key, m key, 0⟩ : Sweep CString).copy p = m key := ite_self _
  cases hwriter : s.writer with
  | none =>
    simp only [hwriter] at h
    obtain ⟨hquiet, rfl⟩ := h
    refine ⟨(hquiet _).chained, ?_⟩
    rw [(hquiet _).contents, hagree key _ hmem]
    exact hidle.symm
  | some worker =>
    simp only [hwriter] at h
    obtain ⟨φ, hunderway, rfl⟩ := h
    obtain ⟨hc, hcontents⟩ := hunderway.contents hfull (leader.nodes pri).address
    refine ⟨hc, ?_⟩
    rw [hcontents]
    by_cases hkey : key = worker.write.op.key
    · by_cases hdecided : φ.decided = some true
      · obtain ⟨-, spec, -, hsteady⟩ := hunderway
        subst hkey
        rw [sweeps_self hdecided, Sweep.copy]
        simp only [hdecided, true_and, mem_take_of_nodup (hsteady.unanimous hdecided).1 ha]
        split_ifs
        · exact Update.apply_self _ _ _
        · exact hagree _ _ hmem
      · rw [if_neg fun hc => hdecided hc.1, sweeps_idle fun _ => hdecided, hidle]
        exact hagree _ _ hmem
    · rw [sweeps_idle fun hc => absurd hc hkey, hidle, ← hagree key _ hmem]
      split_ifs
      · exact Update.apply_of_ne hkey
      · rfl

omit [StrHash] in
/-- An exchange is about one key. -/
theorem effect_of_ne {worker : Worker} {key : CString} (h : key ≠ worker.write.op.key) (value : KvMap) :
    worker.effect leader value key = value key := by
  cases hcall : worker.call with
  | decide commit pri i acked =>
    cases commit with
    | false => simp only [Worker.effect, hcall]
    | true =>
      cases hop : worker.write.op with
      | put own v =>
        rw [hop] at h
        simp only [Worker.effect, hcall, hop]
        split_ifs
        · exact Function.update_of_ne h _ _
        · rfl
      | del own =>
        rw [hop] at h
        simp only [Worker.effect, hcall, hop]
        split_ifs
        · exact Function.update_of_ne h _ _
        · rfl
  | _ => simp only [Worker.effect, hcall]

/-- The values are those of the registers after an exchange, if they were before. -/
theorem effect_eq (hfull : Full leader) {worker : Worker} {m value : KvMap} {φ φ' : Phase}
    (hstands : worker.call.Stands leader worker.write.op.key φ) (hleft : 0 < φ.left leader.redundancy)
    (hheard : φ'.heard leader.redundancy = if φ.decided.isSome then φ.heard leader.redundancy + 1 else 0)
    (hdecided : ∀ commit, φ.decided = some commit → φ'.decided = some commit)
    (hvalue : ∀ key, value key = (sweeps leader m worker.write.op φ key).value leader.redundancy) (key : CString) :
    worker.effect leader value key = (sweeps leader m worker.write.op φ' key).value leader.redundancy := by
  have hpos : 0 < leader.redundancy := hfull.redundancy
  by_cases hkey : key = worker.write.op.key
  swap
  · rw [effect_of_ne hkey, hvalue, sweeps_idle fun hc => absurd hc hkey, sweeps_idle fun hc => absurd hc hkey]
  have hself := hvalue key
  subst hkey
  obtain ⟨⟨req, op, hreq⟩, call⟩ := worker
  simp only at hstands hself ⊢
  cases hstands with
  | @poll pri i ok hpri =>
    have hnone : (Phase.voting i ok).decided = none := rfl
    have hheard : φ'.heard leader.redundancy = 0 := hheard
    rw [sweeps_idle fun _ => by simp [hnone], Sweep.value_of_zero rfl hpos] at hself
    refine hself.trans ?_
    by_cases hd' : φ'.decided = some true
    · rw [sweeps_self hd', hheard, Sweep.value_of_zero rfl hpos]
    · rw [sweeps_idle fun _ => hd', Sweep.value_of_zero rfl hpos]
  | @decide commit pri i acked hpri =>
    have hlt : i < leader.redundancy := by
      have := (List.getElem?_eq_some_iff.mp hpri).1
      rwa [hfull.replicas_length] at this
    have hsome : (Phase.deciding commit i acked).decided = some commit := rfl
    have hd' := hdecided commit hsome
    cases commit with
    | false =>
      rw [sweeps_idle fun _ => by simp [hsome], Sweep.value_of_zero rfl hpos] at hself
      rw [sweeps_idle fun _ => by simp [hd'], Sweep.value_of_zero rfl hpos]
      exact hself
    | true =>
      have hheard : φ'.heard leader.redundancy = i + 1 := hheard
      have hnow : (Phase.deciding true i acked).heard leader.redundancy = i := rfl
      rw [sweeps_self hsome, hnow] at hself
      rw [sweeps_self hd', hheard]
      cases op with
      | put key v =>
        have hnew : apply (Update.put key v) m key = some v := Function.update_self ..
        simp only [Worker.effect, Update.key, Sweep.value, hnew, Nat.succ_pos, if_true] at hself ⊢
        split_ifs with hfirst
        · exact Function.update_self ..
        · rw [hself, if_pos (by omega)]
      | del key =>
        have hnew : apply (Update.del key) m key = none := Function.update_self ..
        simp only [Worker.effect, Update.key, Sweep.value, hnew, hlt, if_true] at hself ⊢
        by_cases hlast : i + 1 = leader.redundancy
        · rw [if_pos hlast, if_neg (by omega)]
          exact Function.update_self ..
        · rw [if_neg hlast, if_pos (by omega)]
          exact hself
  | returned commit => exact absurd hleft (lt_irrefl 0)

/-- The next exchange of the writer. -/
theorem Writes.exchange (hfull : Full leader) (h : Writes leader s sw) :
    ∃ sw', Writes leader (s.step leader .exchange) sw' ∧ ∀ key, (sw key).Step leader.redundancy (sw' key) := by
  obtain ⟨hvalue, d, m, hagree, hw⟩ := h
  cases hwriter : s.writer with
  | none =>
    refine ⟨sw, ?_, fun _ => .stay⟩
    rw [Service.step, hwriter]
    exact ⟨hvalue, d, m, hagree, by rw [hwriter] at hw ⊢; exact hw⟩
  | some worker =>
    simp only [hwriter] at hw
    obtain ⟨φ, hunderway, rfl⟩ := hw
    rcases Nat.eq_zero_or_pos (φ.left leader.redundancy) with hzero | hleft
    · -- the handler has returned
      obtain ⟨commit, hcall, -⟩ := hunderway.finished hfull hzero
      have hstep : s.step leader .exchange = s := by
        obtain ⟨writer, readers, net, value⟩ := s
        obtain ⟨w, call⟩ := worker
        obtain rfl : writer = some ⟨w, call⟩ := hwriter
        obtain rfl : call = .returned (tpcResponse commit) := hcall
        rfl
      rw [hstep]
      exact ⟨_, ⟨hvalue, d, m, hagree, by rw [hwriter]; exact ⟨φ, hunderway, rfl⟩⟩, fun _ => .stay⟩
    · obtain ⟨φ', hnext, -, hheard, hdecided⟩ := hunderway.exchange hfull hleft
      have hstep : s.step leader .exchange =
          { s with
            writer := some { worker with call := (worker.call.exchange leader worker.write.req handleRequest .answered s.net).1 }
            net := (worker.call.exchange leader worker.write.req handleRequest .answered s.net).2
            value := worker.effect leader s.value } := by
        rw [Service.step, hwriter]
      rw [hstep]
      exact ⟨sweeps leader m worker.write.op φ', ⟨effect_eq hfull hunderway.stands hleft hheard hdecided hvalue, d, m, hagree,
        φ', hnext, rfl⟩, sweeps_step hfull.redundancy m worker.write.op hheard hdecided⟩

/-- When no `PUT` or `DELETE` is handled nothing is on its way, and nothing is pending. -/
theorem Writes.quiet (hfull : Full leader) (h : Writes leader s sw) (hidle : ¬ s.writer.any Worker.busy = true) :
    (∀ key, (sw key).written = 0 ∨ leader.redundancy ≤ (sw key).written) ∧
      ∃ d : Address → KvMap, ∀ a, Quiescent (s.net a) (d a) := by
  obtain ⟨-, d, m, -, hw⟩ := h
  cases hwriter : s.writer with
  | none =>
    simp only [hwriter] at hw
    obtain ⟨hquiet, rfl⟩ := hw
    exact ⟨fun _ => Or.inl rfl, d, hquiet⟩
  | some worker =>
    simp only [hwriter] at hw
    obtain ⟨φ, hunderway, rfl⟩ := hw
    rw [hwriter] at hidle
    obtain ⟨commit, rfl⟩ : ∃ commit, φ = .done commit := by
      have hstands := hunderway.stands
      obtain ⟨w, call⟩ := worker
      cases hstands with
      | poll _ => exact absurd rfl hidle
      | decide _ => exact absurd rfl hidle
      | returned commit => exact ⟨commit, rfl⟩
    obtain ⟨_, -, -, hquiet⟩ := hunderway.finished hfull rfl
    refine ⟨fun key => ?_, _, hquiet⟩
    unfold sweeps
    split_ifs
    · exact Or.inr le_rfl
    · exact Or.inl rfl

/-- A `PUT` or `DELETE` arrives. -/
theorem Writes.arrive (hfull : Full leader) (h : Writes leader s sw) (w : Write) :
    ∃ sw', Writes leader (s.step leader (.write w)) sw' ∧ ∀ key, (sw key).Step leader.redundancy (sw' key) := by
  have hpos : 0 < leader.redundancy := hfull.redundancy
  rw [Service.step]
  split_ifs with hbusy
  · exact ⟨sw, h, fun _ => .stay⟩
  obtain ⟨hquiet, d, hd⟩ := h.quiet hfull hbusy
  have hagree : ∀ key, ∀ a ∈ addresses leader key, d a key = s.value key := by
    intro key a ha
    obtain ⟨pri, hmem, rfl⟩ := List.mem_map.mp ha
    obtain ⟨p, hp, hpri⟩ := List.getElem_of_mem hmem
    have hlt : p < leader.redundancy := by rwa [hfull.replicas_length] at hp
    rw [← (hd (leader.nodes pri).address).contents, (h.copy hfull (List.getElem?_eq_some_iff.mpr ⟨hp, hpri⟩)).2,
      Sweep.copy_of_quiet (hquiet key) hlt, h.1 key]
  have hundecided : (Phase.afterVotes leader.redundancy 0 true).decided ≠ some true := by
    rw [Phase.afterVotes, if_pos hpos]
    exact Option.some_ne_none true ∘ Eq.symm
  have hsweeps : ∀ key, sweeps leader s.value w.op (.afterVotes leader.redundancy 0 true) key = ⟨s.value key, s.value key, 0⟩ :=
    fun _ => sweeps_idle fun _ => hundecided
  refine ⟨_, ⟨fun key => ?_, d, s.value, hagree, _, Underway.start hfull hd w, rfl⟩, fun key => ?_⟩
  · rw [hsweeps, Sweep.value_of_zero rfl hpos]
  · rw [hsweeps, h.1 key]
    exact .next (hquiet key) _

/-! ## The readers -/

/-- What holds of a `GET`, given what its key has had as its value since it began. -/
def Reads (leader : TpcLeader) (sw : CString → Sweep CString) (held : Set (Option CString)) (reader : Reader) : Prop :=
  match reader.call with
  | .ask pri p => (leader.replicas reader.key)[p]? = some pri ∧ Scan leader.redundancy (sw reader.key) p held
  | .returned res => ∃ x ∈ held, res = getResponse x
  | .faulted => False

variable {held held' : Set (Option CString)} {reader : Reader}

/-- Something happens. -/
theorem Reads.step (hfull : Full leader) (h : Reads leader sw held reader) (hsub : held ⊆ held') {sw' : CString → Sweep CString}
    (hstep : (sw reader.key).Step leader.redundancy (sw' reader.key))
    (hnow : reader.call.asks ≠ none → (sw' reader.key).value leader.redundancy ∈ held') : Reads leader sw' held' reader := by
  obtain ⟨key, val, call⟩ := reader
  cases call with
  | ask pri p => exact ⟨h.1, (h.2.mono hsub).step hfull.redundancy hstep (hnow (Option.some_ne_none _))⟩
  | returned res =>
    obtain ⟨x, hx, hres⟩ := h
    exact ⟨x, hsub hx, hres⟩
  | faulted => exact h

/-- **It looks at the next copy.** -/
theorem Reads.exchange (hfull : Full leader) (hw : Writes leader s sw) (h : Reads leader sw held reader) :
    (reader.call.exchange leader reader.req handleRequest .answered s.net).2 = s.net ∧
      Reads leader sw held { reader with call := (reader.call.exchange leader reader.req handleRequest .answered s.net).1 } := by
  obtain ⟨key, val, call⟩ := reader
  cases call with
  | ask pri p =>
    obtain ⟨hpri, hscan⟩ := h
    have hlt : p < leader.redundancy := by
      have := (List.getElem?_eq_some_iff.mp hpri).1
      rwa [hfull.replicas_length] at this
    obtain ⟨hc, hcopy⟩ := hw.copy hfull hpri
    have hexchange := GetCall.exchange_eq key val p hc
    rw [hcopy] at hexchange
    simp only [Reader.req, hexchange, true_and]
    cases hvalue : (sw key).copy p with
    | some v => exact ⟨some v, hscan.hit hlt hvalue, rfl⟩
    | none =>
      have hmiss := hscan.miss hlt hvalue
      simp only [GetCall.askFrom]
      split_ifs with hmore
      · exact ⟨hfull.replicas_succ hpri hmore, hmiss⟩
      · rw [show p + 1 = leader.redundancy by omega] at hmiss
        exact ⟨none, hmiss.absent hfull.redundancy, rfl⟩
  | returned res => exact ⟨rfl, h⟩
  | faulted => exact ⟨rfl, h⟩

/-- What holds of a service: the followers and the writer, and each `GET`, given what its key has had as its value since it
began. -/
def Inv (leader : TpcLeader) (s : Service) (held : ℕ → CString → Set (Option CString)) : Prop :=
  ∃ sw, Writes leader s sw ∧ ∀ r reader, s.readers[r]? = some reader → Reads leader sw (held r reader.key) reader

/-- **Every event keeps it.** -/
theorem Inv.step (hfull : Full leader) {held held' : ℕ → CString → Set (Option CString)} (h : Inv leader s held) (e : ServiceEvent)
    (hsub : ∀ r key, held r key ⊆ held' r key)
    (hnow : ∀ r reader, (s.step leader e).readers[r]? = some reader → reader.call.asks ≠ none →
      (s.step leader e).value reader.key ∈ held' r reader.key) : Inv leader (s.step leader e) held' := by
  obtain ⟨sw, hw, hreads⟩ := h
  have hwriter : (s.step leader e).readers = s.readers →
      (∃ sw', Writes leader (s.step leader e) sw' ∧ ∀ key, (sw key).Step leader.redundancy (sw' key)) →
      Inv leader (s.step leader e) held' := by
    rintro hsame ⟨sw', hw', hstep⟩
    refine ⟨sw', hw', fun r reader hr => ?_⟩
    have hnow := hnow r reader hr
    rw [hsame] at hr
    exact (hreads r reader hr).step hfull (hsub r _) (hstep _) fun hasks => hw'.1 reader.key ▸ hnow hasks
  cases e with
  | write w =>
    refine hwriter ?_ (hw.arrive hfull w)
    rw [Service.step]
    split_ifs <;> rfl
  | exchange =>
    refine hwriter ?_ (hw.exchange hfull)
    rw [Service.step]
    cases s.writer <;> rfl
  | get key val =>
    refine ⟨sw, hw, fun r reader hr => ?_⟩
    have hnow := hnow r reader hr
    rcases Nat.lt_trichotomy r s.readers.length with hlt | rfl | hgt
    · rw [Service.step, List.getElem?_append_left hlt] at hr
      exact (hreads r reader hr).step hfull (hsub r _) .stay fun hasks => hw.1 reader.key ▸ hnow hasks
    · rw [Service.step, List.getElem?_concat_length] at hr
      obtain rfl := Option.some.inj hr
      obtain ⟨pri, hpri, hstart⟩ := GetCall.start_eq hfull key val
      rw [hstart] at hnow ⊢
      exact ⟨hpri, Scan.start (hw.1 key ▸ hnow (Option.some_ne_none _))⟩
    · rw [Service.step, List.getElem?_eq_none (by simp; omega)] at hr
      cases hr
  | ask i =>
    cases hi : s.readers[i]? with
    | none =>
      have hstep : s.step leader (.ask i) = s := by rw [Service.step, hi]
      rw [hstep] at hnow ⊢
      exact ⟨sw, hw, fun r reader hr =>
        (hreads r reader hr).step hfull (hsub r _) .stay fun hasks => hw.1 reader.key ▸ hnow r reader hr hasks⟩
    | some reader =>
      obtain ⟨hnet, hnext⟩ := (hreads i reader hi).exchange hfull hw
      have hstep : s.step leader (.ask i) =
          { s with
            readers := s.readers.set i
              { reader with call := (reader.call.exchange leader reader.req handleRequest .answered s.net).1 } } := by
        simp only [Service.step, hi, hnet]
      rw [hstep] at hnow ⊢
      refine ⟨sw, hw, fun r reader' hr => ?_⟩
      have hnow := hnow r reader' hr
      refine Reads.step hfull ?_ (hsub r _) .stay fun hasks => hw.1 reader'.key ▸ hnow hasks
      by_cases hri : r = i
      · subst hri
        have hlt : r < s.readers.length := (List.getElem?_eq_some_iff.mp hi).1
        rw [List.getElem?_set_self hlt] at hr
        exact Option.some.inj hr ▸ hnext
      · rw [List.getElem?_set_ne (Ne.symm hri)] at hr
        exact hreads r reader' hr

/-! ## Any sequence of events -/

/-- No `PUT` or `DELETE` is pending at the followers, and the replicas of each key hold what `m` holds. -/
def Consistent (leader : TpcLeader) (m : KvMap) (net : Address → KvServer) : Prop :=
  ∃ d : Address → KvMap, (∀ a, Quiescent (net a) (d a)) ∧ ∀ key, ∀ a ∈ addresses leader key, d a key = m key

omit [StrHash] in
/-- Followers, and no request yet. -/
def Service.start (m : KvMap) (net : Address → KvServer) : Service := ⟨none, [], net, m⟩

/-- The values that a key has had while the `GET` number `r` was handled. -/
def heldWhile (leader : TpcLeader) (s : Service) (events : List ServiceEvent) (r : ℕ) (key : CString) : Set (Option CString) :=
  { x | ∃ i ≤ events.length, (s.run leader (events.take i)).Reading r ∧ x = (s.run leader (events.take i)).value key }

theorem inv_run (hfull : Full leader) {m : KvMap} {net : Address → KvServer} (h : Consistent leader m net)
    (events : List ServiceEvent) :
    Inv leader ((Service.start m net).run leader events) (heldWhile leader (Service.start m net) events) := by
  induction events using List.reverseRecOn with
  | nil =>
    obtain ⟨d, hd, hagree⟩ := h
    refine ⟨fun key => ⟨m key, m key, 0⟩, ⟨fun key => ?_, d, m, hagree, hd, rfl⟩, fun r reader hr => ?_⟩
    · rw [Sweep.value_of_zero rfl hfull.redundancy]
      rfl
    · cases hr
  | append_singleton events e ih =>
    have hrun : (Service.start m net).run leader (events ++ [e]) = ((Service.start m net).run leader events).step leader e := by
      simp [Service.run, List.foldl_append]
    rw [hrun]
    refine ih.step hfull e (fun r key => ?_) fun r reader hr hasks => ?_
    · rintro x ⟨i, hi, hx⟩
      refine ⟨i, by simp; omega, ?_⟩
      rwa [List.take_append_of_le_length hi]
    · refine ⟨events.length + 1, by simp, ?_⟩
      rw [List.take_of_length_le (by simp), hrun]
      exact ⟨⟨reader, hr, hasks⟩, rfl⟩

/-- **`GET`s see a register.** Whatever the order in which any number of `GET`s and one `PUT` or `DELETE` after the other have
their exchanges, a `GET` that has returned says which value its key had, or that it had none, at a moment when the `GET` was
being handled. -/
theorem reads_linear (hfull : Full leader) {m : KvMap} {net : Address → KvServer} (h : Consistent leader m net)
    (events : List ServiceEvent) (r : ℕ) (reader : Reader)
    (hr : ((Service.start m net).run leader events).readers[r]? = some reader) :
    reader.call ≠ .faulted ∧ ∀ res, reader.call = .returned res → ∃ i ≤ events.length,
      ((Service.start m net).run leader (events.take i)).Reading r ∧
      res = getResponse (((Service.start m net).run leader (events.take i)).value reader.key) := by
  obtain ⟨sw, -, hreads⟩ := inv_run hfull h events
  have hreader := hreads r reader hr
  unfold Reads at hreader
  cases hcall : reader.call with
  | ask pri p => exact ⟨by simp, by simp⟩
  | returned res =>
    rw [hcall] at hreader
    obtain ⟨x, ⟨i, hi, hreading, rfl⟩, hres⟩ := hreader
    refine ⟨by simp, fun res' hres' => ⟨i, hi, hreading, ?_⟩⟩
    obtain rfl := GetCall.returned.inj hres'
    exact hres
  | faulted =>
    rw [hcall] at hreader
    exact hreader.elim

end

section

attribute [local instance] md5Sample

/-- Two replicas have voted for a `PUT` when a `GET` arrives; it asks the primary after that has heard of the decision. -/
def getDuringPut : List ServiceEvent :=
  [.write (writeA "1"), .exchange, .exchange, .get (.ofString "a") none, .exchange, .ask 0]

/-- `reads_linear` for them. -/
theorem reads_linear_put : (GetCall.returned (getResponse (some (.ofString "1"))) ≠ .faulted) ∧
    ∀ res, GetCall.returned (getResponse (some (.ofString "1"))) = .returned res → ∃ i ≤ getDuringPut.length,
      ((Service.start (KvStore.contents ⟨.empty⟩) fun _ => newServer).run (localLeader ["8001", "8002"])
        (getDuringPut.take i)).Reading 0 ∧
      res = getResponse (((Service.start (KvStore.contents ⟨.empty⟩) fun _ => newServer).run (localLeader ["8001", "8002"])
        (getDuringPut.take i)).value (.ofString "a")) :=
  reads_linear (full_registered (by decide) (by decide) (by decide +kernel))
    ⟨fun _ => KvStore.contents ⟨.empty⟩, fun _ => quiescent_newServer, fun _ _ _ => rfl⟩ getDuringPut 0
    ⟨.ofString "a", none, .returned (getResponse (some (.ofString "1")))⟩ (by decide +kernel)

end

end Cs162Hw.Kv
