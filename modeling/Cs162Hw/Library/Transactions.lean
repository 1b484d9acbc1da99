import Mathlib.Data.List.Count
import Cs162Hw.Library.TwoPhase

/-!
# Many transactions

Two-phase commit as a service: transactions arrive, each runs the coordinator's loops of
`TwoPhase.lean` for its own operation and its own replicas, and all send their messages to
the same participants. A request on which the coordinator gave up before the participant saw
it stays in flight, and may be delivered at any later time (`System.late`).

A transaction has a number, and the operation `x` of the transaction `t` is the pair `(t, x)`,
so that two equal operations are told apart; a participant's data keeps a journal of the
operations applied to it (`Journalled`). The messages still name no transaction. What one
wants (`Sound`) is that only operations of committed transactions are applied, and those of
finished ones exactly once at each replica. It holds in two situations:

* `SerialInv` — one transaction at a time, exchanges failing in any way, as long as what is
  delivered late comes in time (`Timely`);
* `ConcurrentInv` — any number at a time, no exchange failing, as long as a decision to abort meets
  no operation but the one it was made for (`Matched`).

Each is an invariant with a step lemma (`SerialInv.step`, `ConcurrentInv.step`) and says that the
system is sound (`SerialInv.sound`, `ConcurrentInv.sound`).
-/

namespace Cs162Hw.Library.TwoPhase

open Operations

/-! ### Data with a journal -/

/-- Data, and the operations applied to it, latest first. -/
structure Journalled (Op σ : Type) where
  /-- The data. -/
  data : σ
  /-- The journal. -/
  applied : List Op

variable {ι Op σ : Type} [Operations Op σ]

/-- An operation with the number of its transaction does what it does without. -/
instance : Operations (ℕ × Op) σ where
  check x d := check x.2 d
  apply x d := apply x.2 d

instance : Operations Op (Journalled Op σ) where
  check x d := check x d.data
  apply x d := ⟨apply x d.data, x :: d.applied⟩

/-- The participants of numbered transactions. -/
abbrev Ledger (Op σ : Type) := Participant (ℕ × Op) (Journalled (ℕ × Op) σ)

/-- A participant without its journal, and without the number of what is pending. -/
def Ledger.forget (p : Ledger Op σ) : Participant Op σ := ⟨p.data.data, p.pending.map Prod.snd⟩

/-- A message without the number of its transaction. -/
def Message.forget : Message (ℕ × Op) → Message Op
  | .prepare x => .prepare x.2
  | .commit => .commit
  | .abort => .abort

theorem forget_receive (m : Message (ℕ × Op)) (p : Ledger Op σ) :
    (p.forget.receive m.forget) = ((p.receive m).1, Ledger.forget (p.receive m).2) := by
  obtain ⟨⟨d, l⟩, _ | x⟩ := p
  · cases m with
    | prepare x =>
      simp only [Ledger.forget, Message.forget, Participant.receive, Option.map_none, check]
      split_ifs <;> rfl
    | commit => rfl
    | abort => rfl
  · cases m <;> rfl

/-- The data is what the journal says. -/
def Tied (d₀ : σ) (p : Ledger Op σ) : Prop := p.data.data = p.data.applied.foldr (fun x d => apply x.2 d) d₀

theorem Tied.receive {d₀ : σ} {p : Ledger Op σ} (h : Tied d₀ p) (m : Message (ℕ × Op)) : Tied d₀ (p.receive m).2 := by
  obtain ⟨⟨d, l⟩, _ | x⟩ := p
  · cases m with
    | prepare x =>
      simp only [Participant.receive]
      split_ifs <;> exact h
    | commit => exact h
    | abort => exact h
  · cases m with
    | prepare y => exact h
    | commit => exact congrArg (apply x.2) h
    | abort => exact h

/-! ### The system -/

/-- A transaction. -/
structure Transaction (ι Op : Type) where
  /-- Its replicas. -/
  replicas : List ι
  /-- Its operation. -/
  op : Op
  /-- Where its coordinator stands. -/
  phase : Phase

/-- The next message of the transaction, which has the number `t`, and where it goes. -/
def Transaction.next (t : ℕ) (T : Transaction ι Op) : Option (ι × Message (ℕ × Op)) :=
  match T.phase.index.bind (T.replicas[·]?), T.phase.message (t, T.op) with
  | some a, some m => some (a, m)
  | _, _ => none

omit [Operations Op σ] in
theorem Transaction.next_eq_some {t : ℕ} {T : Transaction ι Op} {a : ι} {m : Message (ℕ × Op)} (h : T.next t = some (a, m)) :
    ∃ i, T.phase.index = some i ∧ T.replicas[i]? = some a ∧ T.phase.message (t, T.op) = some m := by
  unfold Transaction.next at h
  split at h
  · next hb hm =>
    obtain ⟨i, hi, ha⟩ := Option.bind_eq_some_iff.mp hb
    obtain ⟨rfl, rfl⟩ := Prod.mk.inj (Option.some.inj h)
    exact ⟨i, hi, ha, hm⟩
  · cases h

/-- The transactions, in the order of their numbers, the participants, and the messages in
flight. -/
structure System (ι Op σ : Type) where
  transactions : List (Transaction ι Op)
  net : ι → Ledger Op σ
  /-- The number of the transaction, the participant, and the message. -/
  late : List (ℕ × ι × Message (ℕ × Op))

/-- What happens. -/
inductive Event (ι Op : Type) where
  /-- A transaction begins. -/
  | start (replicas : List ι) (op : Op)
  /-- The transaction `t` has its next exchange, which goes as `o` says. -/
  | exchange (t : ℕ) (o : Outcome)
  /-- The message `i` of those in flight is delivered. -/
  | deliver (i : ℕ)

namespace System

variable [DecidableEq ι]

/-- The transaction `t` sends `m` to `a`. -/
def send (s : System ι Op σ) (t : ℕ) (T : Transaction ι Op) (a : ι) (m : Message (ℕ × Op)) (o : Outcome) :
    System ι Op σ where
  transactions := s.transactions.set t
    { T with phase := T.phase.resume T.replicas.length (o.reply ((s.net a).receive m).1) }
  net := TwoPhase.deliver o m a s.net
  late := if o = .requestLost then s.late ++ [(t, a, m)] else s.late

/-- One event. -/
def step (s : System ι Op σ) : Event ι Op → System ι Op σ
  | .start replicas op =>
    { s with transactions := s.transactions ++ [⟨replicas, op, .afterVotes replicas.length 0 true⟩] }
  | .exchange t o =>
    match s.transactions[t]? with
    | none => s
    | some T =>
      match T.next t with
      | none => s
      | some (a, m) => s.send t T a m o
  | .deliver i =>
    match s.late[i]? with
    | none => s
    | some (_, a, m) => { s with
        net := Function.update s.net a ((s.net a).receive m).2
        late := s.late.eraseIdx i }

/-- Before any transaction. -/
def init (d₀ : ι → σ) : System ι Op σ := ⟨[], fun a => ⟨⟨d₀ a, []⟩, none⟩, []⟩

/-- **Only committed operations are applied**, at replicas, and those of finished transactions once at
every replica. -/
structure Sound [DecidableEq Op] (s : System ι Op σ) : Prop where
  committed : ∀ a, ∀ x ∈ (s.net a).data.applied,
    ∃ T, s.transactions[x.1]? = some T ∧ T.op = x.2 ∧ T.phase.decided = some true ∧ a ∈ T.replicas
  complete : ∀ (t : ℕ) (T : Transaction ι Op), s.transactions[t]? = some T → T.phase = .done true →
    ∀ a ∈ T.replicas, (s.net a).data.applied.count (t, T.op) = 1

/-- Whatever happens, the data stay what the journals say. -/
theorem tied_step {s : System ι Op σ} {d₀ : ι → σ} (h : ∀ a, Tied (d₀ a) (s.net a)) (e : Event ι Op) (a : ι) :
    Tied (d₀ a) ((s.step e).net a) := by
  have hupdate : ∀ (b : ι) (m : Message (ℕ × Op)), Tied (d₀ a) (Function.update s.net b ((s.net b).receive m).2 a) := by
    intro b m
    rw [Function.update_apply]
    split_ifs with hab
    · subst hab
      exact (h a).receive m
    · exact h a
  cases e with
  | start replicas op => exact h a
  | exchange t o =>
    rw [step]
    split
    · exact h a
    · split
      · exact h a
      · simp only [send, TwoPhase.deliver]
        split_ifs
        · exact hupdate _ _
        · exact h a
  | deliver i =>
    rw [step]
    split
    · exact h a
    · exact hupdate _ _

/-! ### One at a time -/

/-- A transaction starts when all before it are done. -/
def Serial (s : System ι Op σ) : Event ι Op → Prop
  | .start _ _ => ∀ T ∈ s.transactions, ∃ commit, T.phase = .done commit
  | _ => True

/-- The transaction still has to hear from `a`: it is asking for votes, or the participant has not
acknowledged the decision in the pass being made, or another pass will be needed. -/
def Awaits (T : Transaction ι Op) (a : ι) : Prop :=
  match T.phase with
  | .voting _ _ => True
  | .deciding _ i acked => acked = true → a ∉ T.replicas.take i
  | .done _ => False

/-- What is delivered late finds nothing to do, or is of a transaction that still has to hear from the
participant. -/
def Timely (s : System ι Op σ) : Event ι Op → Prop
  | .deliver i => ∀ x ∈ s.late[i]?, (s.net x.2.1).Acts x.2.2 → ∃ T ∈ s.transactions[x.1]?, Awaits T x.2.1
  | _ => True

/-- What the message `m` in flight from the transaction `t` to the participant `a` may be. -/
def InFlight (t : ℕ) (T : Transaction ι Op) (a : ι) : Message (ℕ × Op) → Prop
  | .prepare x => x = (t, T.op) ∧
      match T.phase with
      | .voting i ok => ok = false ∧ a ∈ T.replicas.take i
      | .deciding commit _ _ => commit = false ∧ a ∈ T.replicas
      | .done _ => True
  | m => ∃ commit, T.phase.decided = some commit ∧ m = decision commit

/-- The invariant: `d₀` is the data when the last transaction began. -/
structure SerialInv (d₀ : ι → Journalled (ℕ × Op) σ) [DecidableEq Op] (s : System ι Op σ) : Prop where
  /-- All transactions but the last are done. -/
  past : ∀ (t : ℕ) (T : Transaction ι Op), s.transactions[t]? = some T → t + 1 < s.transactions.length →
    ∃ commit, T.phase = .done commit
  /-- What was applied before belongs to one of them that was committed, -/
  applied : ∀ a, ∀ x ∈ (d₀ a).applied, x.1 + 1 < s.transactions.length ∧
    ∃ T, s.transactions[x.1]? = some T ∧ T.op = x.2 ∧ T.phase = .done true ∧ a ∈ T.replicas
  /-- and is there once. -/
  complete : ∀ (t : ℕ) (T : Transaction ι Op), s.transactions[t]? = some T → t + 1 < s.transactions.length →
    T.phase = .done true → ∀ a ∈ T.replicas, (d₀ a).applied.count (t, T.op) = 1
  /-- Before the first. -/
  fresh : s.transactions = [] → ∀ a, s.net a = idle d₀ a
  /-- The last one is atomic. -/
  current : ∀ (t : ℕ) (T : Transaction ι Op), s.transactions[t]? = some T → t + 1 = s.transactions.length →
    Atomic d₀ (t, T.op) T.replicas T.phase s.net
  /-- What is in flight was sent. -/
  late : ∀ x ∈ s.late, x.1 < s.transactions.length ∧
    ∀ T, s.transactions[x.1]? = some T → InFlight x.1 T x.2.1 x.2.2

variable [DecidableEq Op] {d₀ : ι → Journalled (ℕ × Op) σ} {s : System ι Op σ}

omit [DecidableEq ι] in
theorem serialInv_init (d₀ : ι → σ) : SerialInv (fun a => ⟨d₀ a, []⟩) (init d₀ : System ι Op σ) := by
  refine ⟨?_, ?_, ?_, fun _ _ => rfl, ?_, ?_⟩ <;> simp [init]

/-- What the last transaction has applied when it is done. -/
theorem SerialInv.applied_last (h : SerialInv d₀ s) {t : ℕ} {T : Transaction ι Op} (hT : s.transactions[t]? = some T)
    (hlast : t + 1 = s.transactions.length) {commit : Bool} (hphase : T.phase = .done commit) (a : ι) :
    (s.net a).pending = none ∧
      (s.net a).data.applied = if commit = true ∧ a ∈ T.replicas then (t, T.op) :: (d₀ a).applied else (d₀ a).applied := by
  obtain ⟨hout, hall, -⟩ : Atomic d₀ (t, T.op) T.replicas (.done commit) s.net := hphase ▸ h.current t T hT hlast
  by_cases ha : a ∈ T.replicas
  · rw [hall a ha]
    cases commit
    · exact ⟨rfl, by simp [settled]⟩
    · exact ⟨rfl, by simp [settled, ha, apply]⟩
  · rw [hout a ha]
    exact ⟨rfl, by simp [idle, ha]⟩

omit [Operations Op σ] [DecidableEq ι] [DecidableEq Op] in
/-- There is no transaction, or a last one. -/
theorem last_cases (s : System ι Op σ) : s.transactions = [] ∨
    ∃ (t : ℕ) (T : Transaction ι Op), s.transactions[t]? = some T ∧ t + 1 = s.transactions.length := by
  rcases List.eq_nil_or_concat s.transactions with h | ⟨rest, T, h⟩
  · exact Or.inl h
  · exact Or.inr ⟨rest.length, T, by simp [h], by simp [h]⟩

/-- When all transactions are done, nothing is pending. -/
theorem SerialInv.pending_eq_none (h : SerialInv d₀ s) (hdone : ∀ T ∈ s.transactions, ∃ commit, T.phase = .done commit)
    (a : ι) : (s.net a).pending = none := by
  rcases last_cases s with hnil | ⟨t, T, hT, hlast⟩
  · rw [h.fresh hnil a]
    rfl
  · obtain ⟨commit, hphase⟩ := hdone T (List.mem_of_getElem? hT)
    exact (h.applied_last hT hlast hphase a).1

theorem SerialInv.sound (h : SerialInv d₀ s) : s.Sound := by
  have hold : ∀ {a x}, x ∈ (d₀ a).applied →
      ∃ T, s.transactions[x.1]? = some T ∧ T.op = x.2 ∧ T.phase.decided = some true ∧ a ∈ T.replicas := by
    intro a x hx
    obtain ⟨-, T, hT, hop, hphase, ha⟩ := h.applied a x hx
    exact ⟨T, hT, hop, by rw [hphase]; rfl, ha⟩
  refine ⟨fun a x hx => ?_, fun t T hT hphase a ha => ?_⟩
  · rcases last_cases s with hnil | ⟨t, T, hT, hlast⟩
    · rw [h.fresh hnil a] at hx
      exact hold hx
    · rcases (h.current t T hT hlast).data_cases a with hdata | ⟨hdecided, ha, hdata⟩
      · exact hold (hdata ▸ hx)
      · rw [hdata] at hx
        rcases List.mem_cons.mp hx with rfl | hx
        · exact ⟨T, hT, rfl, hdecided, ha⟩
        · exact hold hx
  · rcases Nat.lt_or_ge (t + 1) s.transactions.length with hlt | hge
    · -- an earlier transaction; the last one has another number
      have hcount := h.complete t T hT hlt hphase a ha
      rcases last_cases s with hnil | ⟨t', T', hT', hlast⟩
      · rw [hnil] at hlt
        simp at hlt
      · rcases (h.current t' T' hT' hlast).data_cases a with hdata | ⟨-, -, hdata⟩
        · rw [hdata, hcount]
        · rw [hdata]
          exact (List.count_cons_of_ne (by simp; omega)).trans hcount
    · have hlast : t + 1 = s.transactions.length := by
        have := (List.getElem?_eq_some_iff.mp hT).1
        omega
      rw [(h.applied_last hT hlast hphase a).2, if_pos ⟨rfl, ha⟩, List.count_cons_self, List.count_eq_zero_of_not_mem]
      intro hx
      have := (h.applied a _ hx).1
      omega

omit [Operations Op σ] [DecidableEq ι] [DecidableEq Op] in
/-- A transaction of a list with one more is one that was there, or the new one. -/
theorem getElem?_append_cases {l : List (Transaction ι Op)} {T U : Transaction ι Op} {t : ℕ}
    (h : (l ++ [U])[t]? = some T) : l[t]? = some T ∨ (t = l.length ∧ T = U) := by
  rw [List.getElem?_append] at h
  split_ifs at h with hlt
  · exact Or.inl h
  · obtain ⟨hlen, hT⟩ := List.getElem?_eq_some_iff.mp h
    have hzero : t - l.length = 0 := by simpa using hlen
    exact Or.inr ⟨by omega, by simpa [hzero] using hT.symm⟩

/-- A new transaction. -/
theorem SerialInv.start (h : SerialInv d₀ s) (hdone : ∀ T ∈ s.transactions, ∃ commit, T.phase = .done commit)
    (replicas : List ι) (op : Op) : SerialInv (fun a => (s.net a).data) (s.step (.start replicas op)) := by
  have hsound := h.sound
  have hlen : (s.step (.start replicas op)).transactions.length = s.transactions.length + 1 := by simp [step]
  have hkeep : ∀ {t : ℕ} {T : Transaction ι Op}, s.transactions[t]? = some T →
      (s.step (.start replicas op)).transactions[t]? = some T := by
    intro t T hT
    have := (List.getElem?_eq_some_iff.mp hT).1
    simp only [step, List.getElem?_append_left this, hT]
  refine ⟨fun t T hT hlt => ?_, fun a x hx => ?_, fun t T hT hlt hphase a ha => ?_, fun hnil => ?_, fun t T hT hlast => ?_,
    fun x hx => ?_⟩
  · rcases getElem?_append_cases hT with hT | ⟨rfl, -⟩
    · exact hdone T (List.mem_of_getElem? hT)
    · omega
  · obtain ⟨T, hT, hop, hdecided, ha⟩ := hsound.committed a x hx
    obtain ⟨commit, hphase⟩ := hdone T (List.mem_of_getElem? hT)
    have hlt := (List.getElem?_eq_some_iff.mp hT).1
    refine ⟨by omega, T, hkeep hT, hop, ?_, ha⟩
    rw [hphase] at hdecided ⊢
    exact congrArg _ (Option.some.inj hdecided)
  · rcases getElem?_append_cases hT with hT | ⟨rfl, -⟩
    · exact hsound.complete t T hT hphase a ha
    · omega
  · rw [hnil] at hlen
    cases hlen
  · rcases getElem?_append_cases hT with hT | ⟨rfl, rfl⟩
    · have := (List.getElem?_eq_some_iff.mp hT).1
      omega
    · refine Atomic.start fun a => ?_
      show s.net a = _
      rw [idle, ← h.pending_eq_none hdone a]
  · obtain ⟨hlt, hflight⟩ := h.late x hx
    refine ⟨by omega, fun T hT => ?_⟩
    rcases getElem?_append_cases hT with hT | ⟨heq, -⟩
    · exact hflight T hT
    · omega

omit [Operations Op σ] [DecidableEq ι] [DecidableEq Op] in
/-- What is in flight stays what it may be, when the coordinator goes on. -/
theorem InFlight.resume {t : ℕ} {T : Transaction ι Op} {a : ι} {m : Message (ℕ × Op)} (h : InFlight t T a m)
    (r : Reply Bool) : InFlight t { T with phase := T.phase.resume T.replicas.length r } a m := by
  obtain ⟨rs, op, φ⟩ := T
  cases m with
  | prepare x =>
    obtain ⟨hx, h⟩ := h
    refine ⟨hx, ?_⟩
    cases φ with
    | voting i ok =>
      obtain ⟨rfl, ha⟩ : ok = false ∧ a ∈ rs.take i := h
      simp only [Phase.resume, Phase.afterVotes, Bool.false_and]
      split_ifs
      · exact ⟨rfl, (List.take_prefix_take_left (Nat.le_succ i)).subset ha⟩
      · exact ⟨rfl, List.mem_of_mem_take ha⟩
      · trivial
    | deciding commit i acked =>
      obtain ⟨rfl, ha⟩ : commit = false ∧ a ∈ rs := h
      cases r with
      | refused => exact ⟨rfl, ha⟩
      | silent => simp only [Phase.resume, Phase.afterAcks]; split_ifs <;> first | exact ⟨rfl, ha⟩ | trivial
      | answered yes => simp only [Phase.resume, Phase.afterAcks]; split_ifs <;> first | exact ⟨rfl, ha⟩ | trivial
    | done commit => trivial
  | commit =>
    obtain ⟨commit, hdec, hm⟩ := h
    exact ⟨commit, Phase.decided_resume hdec _ _, hm⟩
  | abort =>
    obtain ⟨commit, hdec, hm⟩ := h
    exact ⟨commit, Phase.decided_resume hdec _ _, hm⟩

omit [Operations Op σ] [DecidableEq ι] [DecidableEq Op] in
/-- What a coordinator sent and gave up on may be in flight. -/
theorem inFlight_next {t : ℕ} {T : Transaction ι Op} {a : ι} {m : Message (ℕ × Op)} (h : T.next t = some (a, m)) :
    InFlight t { T with phase := T.phase.resume T.replicas.length .silent } a m := by
  obtain ⟨rs, op, φ⟩ := T
  obtain ⟨i, hi, ha, hm⟩ := Transaction.next_eq_some h
  cases φ with
  | voting j ok =>
    obtain rfl : j = i := by simpa [Phase.index] using hi
    obtain rfl : Message.prepare (t, op) = m := by simpa [Phase.message] using hm
    refine ⟨rfl, ?_⟩
    simp only [Phase.resume, Phase.afterVotes, Reply.yes, Bool.and_false]
    split_ifs
    · exact ⟨rfl, (mem_take_succ ha).mpr (Or.inr rfl)⟩
    · exact ⟨rfl, List.mem_of_getElem? ha⟩
    · trivial
  | deciding commit j acked =>
    obtain rfl : decision commit = m := by simpa [Phase.message] using hm
    have hdecided : (Phase.resume rs.length (.deciding commit j acked) .silent).decided = some commit :=
      Phase.decided_resume rfl _ _
    cases commit <;> exact ⟨_, hdecided, rfl⟩
  | done commit => cases hi

omit [DecidableEq ι] in
/-- The transaction that has an exchange is the last. -/
theorem SerialInv.last_of_next (h : SerialInv d₀ s) {t : ℕ} {T : Transaction ι Op} (hT : s.transactions[t]? = some T)
    {y : ι × Message (ℕ × Op)} (hnext : T.next t = some y) : t + 1 = s.transactions.length := by
  have hlt := (List.getElem?_eq_some_iff.mp hT).1
  by_contra hne
  obtain ⟨commit, hphase⟩ := h.past t T hT (by omega)
  obtain ⟨i, hi, -⟩ := Transaction.next_eq_some hnext
  rw [hphase] at hi
  cases hi

/-- The next exchange of a transaction. -/
theorem SerialInv.send (h : SerialInv d₀ s) {t : ℕ} {T : Transaction ι Op} (hT : s.transactions[t]? = some T)
    {a : ι} {m : Message (ℕ × Op)} (hnext : T.next t = some (a, m)) (o : Outcome) : SerialInv d₀ (s.send t T a m o) := by
  have hlast := h.last_of_next hT hnext
  set T' : Transaction ι Op := { T with phase := T.phase.resume T.replicas.length (o.reply ((s.net a).receive m).1) } with hT'
  have hlen : (s.send t T a m o).transactions.length = s.transactions.length := List.length_set ..
  have hself : (s.send t T a m o).transactions[t]? = some T' := List.getElem?_set_self (by omega)
  have hother : ∀ {u : ℕ}, u ≠ t → (s.send t T a m o).transactions[u]? = s.transactions[u]? := fun hne =>
    List.getElem?_set_ne (Ne.symm hne)
  refine ⟨fun u U hU hlt => ?_, fun b x hx => ?_, fun u U hU hlt hphase b hb => ?_, fun hnil => ?_, fun u U hU hu => ?_,
    fun x hx => ?_⟩
  · rw [hother (by omega)] at hU
    exact h.past u U hU (by omega)
  · obtain ⟨hlt, U, hU, hop, hphase, hb⟩ := h.applied b x hx
    exact ⟨by omega, U, by rw [hother (by omega), hU], hop, hphase, hb⟩
  · rw [hother (by omega)] at hU
    exact h.complete u U hU (by omega) hphase b hb
  · rw [hnil] at hself
    cases hself
  · obtain rfl : u = t := by omega
    obtain rfl : T' = U := Option.some.inj (hself.symm.trans hU)
    obtain ⟨i, hi, ha, hm⟩ := Transaction.next_eq_some hnext
    exact (h.current u T hT hlast).exchange hi ha hm o
  · have hold : ∀ x ∈ s.late, x.1 < (s.send t T a m o).transactions.length ∧
        ∀ U, (s.send t T a m o).transactions[x.1]? = some U → InFlight x.1 U x.2.1 x.2.2 := by
      intro x hx
      obtain ⟨hlt, hflight⟩ := h.late x hx
      refine ⟨by omega, fun U hU => ?_⟩
      by_cases hxt : x.1 = t
      · rw [hxt, hself] at hU
        obtain rfl := Option.some.inj hU
        rw [hxt]
        exact (hxt ▸ hflight T (by rw [hxt, hT])).resume _
      · rw [hother hxt] at hU
        exact hflight U hU
    simp only [System.send] at hx
    split_ifs at hx with ho
    · rcases List.mem_append.mp hx with hx | hx
      · exact hold x hx
      · obtain rfl := List.mem_singleton.mp hx
        refine ⟨by omega, fun U hU => ?_⟩
        obtain rfl := Option.some.inj (hself.symm.trans hU)
        subst ho
        exact inFlight_next hnext
    · exact hold x hx

/-- A message in flight that comes in time. -/
theorem SerialInv.deliver (h : SerialInv d₀ s) {i : ℕ} {t : ℕ} {a : ι} {m : Message (ℕ × Op)}
    (hi : s.late[i]? = some (t, a, m)) (htimely : (s.net a).Acts m → ∃ T ∈ s.transactions[t]?, Awaits T a) :
    SerialInv d₀ { s with net := Function.update s.net a ((s.net a).receive m).2, late := s.late.eraseIdx i } := by
  have hlate : ∀ x ∈ s.late.eraseIdx i, x ∈ s.late := fun x hx => List.mem_of_mem_eraseIdx hx
  by_cases hacts : (s.net a).Acts m
  swap
  · -- it changes nothing
    rw [Participant.receive_of_not_acts hacts, Function.update_eq_self]
    exact ⟨h.past, h.applied, h.complete, h.fresh, h.current, fun x hx => h.late x (hlate x hx)⟩
  obtain ⟨T, hT, hawaits⟩ := htimely hacts
  have hlt := (List.getElem?_eq_some_iff.mp hT).1
  have hlast : t + 1 = s.transactions.length := by
    by_contra hne
    obtain ⟨commit, hphase⟩ := h.past t T hT (by omega)
    rw [Awaits, hphase] at hawaits
    exact hawaits
  refine ⟨h.past, h.applied, h.complete, fun hnil => ?_, fun u U hU hu => ?_, fun x hx => h.late x (hlate x hx)⟩
  · rw [hnil] at hlt
    cases hlt
  · have hu' : u + 1 = s.transactions.length := hu
    obtain rfl : u = t := by omega
    obtain rfl : T = U := Option.some.inj (Eq.symm hT |>.trans hU)
    have hatomic := h.current u T hT hlast
    have hflight : InFlight u T a m := (h.late _ (List.mem_of_getElem? hi)).2 T hT
    obtain ⟨rs, op, φ⟩ := T
    simp only [Awaits] at hawaits
    cases φ with
    | voting j ok =>
      cases m with
      | prepare x =>
        obtain ⟨rfl, rfl, ha⟩ : x = (u, op) ∧ ok = false ∧ a ∈ rs.take j := hflight
        exact hatomic.ask_late ha
      | commit =>
        obtain ⟨commit, hdec, -⟩ := hflight
        cases hdec
      | abort =>
        obtain ⟨commit, hdec, -⟩ := hflight
        cases hdec
    | deciding commit j acked =>
      have hdecision : ∀ {m : Message (ℕ × Op)}, (∃ c, Phase.decided (.deciding commit j acked) = some c ∧ m = decision c) →
          m = decision commit := fun ⟨c, hc, hm⟩ => by rw [hm, Option.some.inj hc]
      cases m with
      | prepare x =>
        obtain ⟨rfl, rfl, ha⟩ : x = (u, op) ∧ commit = false ∧ a ∈ rs := hflight
        exact hatomic.ask_later ha hawaits
      | commit =>
        rw [hdecision hflight]
        exact hatomic.redeliver a
      | abort =>
        rw [hdecision hflight]
        exact hatomic.redeliver a
    | done commit => exact hawaits.elim

/-- One event. -/
theorem SerialInv.step (h : SerialInv d₀ s) {e : Event ι Op} (hserial : s.Serial e) (htimely : s.Timely e) :
    ∃ d₁, SerialInv d₁ (s.step e) := by
  cases e with
  | start replicas op => exact ⟨_, h.start hserial replicas op⟩
  | exchange t o =>
    refine ⟨d₀, ?_⟩
    rw [System.step]
    split
    · exact h
    · next T hT =>
      split
      · exact h
      · next a m hnext => exact h.send hT hnext o
  | deliver i =>
    refine ⟨d₀, ?_⟩
    rw [System.step]
    split
    · exact h
    · next t a m hi => exact h.deliver hi (htimely _ hi)

/-! ### Any number at a time -/

/-- Every exchange is answered, and a decision to abort finds nothing pending at its replica but the operation of
its own transaction. -/
def Matched (s : System ι Op σ) : Event ι Op → Prop
  | .start _ _ => True
  | .exchange t o => o = .answered ∧ ∀ T ∈ s.transactions[t]?, T.phase.decided = some false →
      ∀ y ∈ T.next t, ∀ x ∈ (s.net y.1).pending, x.1 = t
  | .deliver _ => False

/-- What the participants hold of the operation `x`, its coordinator being in the phase `φ`. -/
def Keeps (x : ℕ × Op) (rs : List ι) (φ : Phase) (net : ι → Ledger Op σ) : Prop :=
  match φ with
  | .voting i ok => (∀ a, (net a).pending = some x → a ∈ rs.take i) ∧
      (ok = true → (rs.take i).Nodup ∧ ∀ a ∈ rs.take i, (net a).pending = some x) ∧
      ∀ a, (net a).data.applied.count x = 0
  | .deciding commit i acked => acked = true ∧ (∀ a, (net a).pending = some x → a ∈ rs ∧ a ∉ rs.take i) ∧
      (commit = true → rs.Nodup ∧ ∀ a ∈ rs, a ∉ rs.take i → (net a).pending = some x) ∧
      ∀ a, (net a).data.applied.count x = if commit = true ∧ a ∈ rs.take i then 1 else 0
  | .done commit => (∀ a, (net a).pending ≠ some x) ∧
      ∀ a, (net a).data.applied.count x = if commit = true ∧ a ∈ rs then 1 else 0

/-- The invariant. -/
structure ConcurrentInv (s : System ι Op σ) : Prop where
  /-- What is pending or was applied is the operation of a transaction. -/
  owned : ∀ a x, x ∈ (s.net a).data.applied ∨ (s.net a).pending = some x →
    ∃ T, s.transactions[x.1]? = some T ∧ T.op = x.2
  /-- And each transaction has what it should have. -/
  keeps : ∀ (t : ℕ) (T : Transaction ι Op), s.transactions[t]? = some T → Keeps (t, T.op) T.replicas T.phase s.net

variable {x y : ℕ × Op} {rs : List ι} {φ : Phase} {net net' : ι → Ledger Op σ}

omit [Operations Op σ] in
/-- It says nothing about other operations. -/
theorem Keeps.congr (h : Keeps x rs φ net) (hpending : ∀ a, (net' a).pending = some x ↔ (net a).pending = some x)
    (hcount : ∀ a, (net' a).data.applied.count x = (net a).data.applied.count x) : Keeps x rs φ net' := by
  cases φ <;> simp only [Keeps, hpending, hcount, ne_eq] at h ⊢ <;> exact h

omit [DecidableEq ι] [DecidableEq Op] in
/-- To be asked for `x` does nothing to another operation, -/
theorem receive_prepare_other (hxy : x ≠ y) (p : Ledger Op σ) :
    ((p.receive (.prepare x)).2.pending = some y ↔ p.pending = some y) ∧
      (p.receive (.prepare x)).2.data = p.data := by
  obtain ⟨d, pending⟩ := p
  cases pending with
  | some z => exact ⟨Iff.rfl, rfl⟩
  | none =>
    simp only [Participant.receive]
    split_ifs
    · simp [hxy]
    · exact ⟨Iff.rfl, rfl⟩

omit [DecidableEq ι] in
/-- nor does a decision that finds nothing else pending. -/
theorem receive_decision_other (hxy : x ≠ y) (commit : Bool) {p : Ledger Op σ}
    (hp : p.pending = none ∨ p.pending = some x) :
    ((p.receive (decision commit)).2.pending = some y ↔ p.pending = some y) ∧
      (p.receive (decision commit)).2.data.applied.count y = p.data.applied.count y := by
  obtain ⟨d, pending⟩ := p
  rcases hp with rfl | rfl
  · rw [receive_decision_of_none commit rfl]
    exact ⟨Iff.rfl, rfl⟩
  · cases commit
    · simp [decision, Participant.receive, hxy]
    · simp [decision, Participant.receive, hxy, apply]

omit [Operations Op σ] in
/-- A new transaction has touched nothing. -/
theorem Keeps.start (hpending : ∀ a, (net a).pending ≠ some x) (hcount : ∀ a, (net a).data.applied.count x = 0) :
    Keeps x rs (.afterVotes rs.length 0 true) net := by
  unfold Phase.afterVotes
  split_ifs with hpos
  · exact ⟨fun a h => absurd h (hpending a), by simp, hcount⟩
  · obtain rfl : rs = [] := List.length_eq_zero_iff.mp (by omega)
    exact ⟨hpending, by simpa using hcount⟩

/-- An answered question of the transaction itself. -/
theorem Keeps.ask {i : ℕ} {ok : Bool} (h : Keeps x rs (.voting i ok) net) {a : ι} (ha : rs[i]? = some a) :
    Keeps x rs (.resume rs.length (.voting i ok) (.answered ((net a).receive (.prepare x)).1))
      (Function.update net a ((net a).receive (.prepare x)).2) := by
  obtain ⟨hmem, hall, hcount⟩ := h
  have hmem' : ∀ b, (Function.update net a ((net a).receive (.prepare x)).2 b).pending = some x → b ∈ rs.take (i + 1) := by
    intro b hb
    rw [mem_take_succ ha]
    by_cases hba : b = a
    · exact Or.inr hba
    · rw [Function.update_of_ne hba] at hb
      exact Or.inl (hmem b hb)
  have hcount' : ∀ b, (Function.update net a ((net a).receive (.prepare x)).2 b).data.applied.count x = 0 := by
    intro b
    by_cases hba : b = a
    · subst hba
      rw [Function.update_self, receive_prepare_data, hcount b]
    · rw [Function.update_of_ne hba, hcount b]
  have hall' : (ok && (Reply.answered ((net a).receive (.prepare x)).1).yes) = true → (rs.take (i + 1)).Nodup ∧
      ∀ b ∈ rs.take (i + 1), (Function.update net a ((net a).receive (.prepare x)).2 b).pending = some x := by
    intro hok
    obtain ⟨hok, hyes⟩ := (Bool.and_eq_true ..).mp hok
    obtain ⟨hnodup, hpending⟩ := hall hok
    obtain ⟨hnone, hsome⟩ := receive_prepare_yes hyes
    have hnew : a ∉ rs.take i := by
      intro ha
      rw [hpending a ha] at hnone
      cases hnone
    refine ⟨(nodup_take_succ ha).mpr ⟨hnodup, hnew⟩, fun b hb => ?_⟩
    by_cases hba : b = a
    · subst hba
      rw [Function.update_self]
      exact hsome
    · rw [Function.update_of_ne hba]
      exact hpending b (((mem_take_succ ha).mp hb).resolve_right hba)
  simp only [Phase.resume, Phase.afterVotes]
  split_ifs with hlt hpos
  · exact ⟨hmem', hall', hcount'⟩
  · have hfull : rs.take (i + 1) = rs := List.take_of_length_le (by omega)
    rw [hfull] at hmem' hall'
    exact ⟨rfl, fun b hb => ⟨hmem' b hb, by simp⟩, fun hok => ⟨(hall' hok).1, fun b hb _ => (hall' hok).2 b hb⟩,
      by simpa using hcount'⟩
  · have := (List.getElem?_eq_some_iff.mp ha).1
    omega

/-- A decision of its own that finds nothing else pending. -/
theorem Keeps.decide {commit : Bool} {i : ℕ} {acked : Bool} (h : Keeps x rs (.deciding commit i acked) net) {a : ι}
    (ha : rs[i]? = some a) (hp : (net a).pending = none ∨ (net a).pending = some x) :
    Keeps x rs (.resume rs.length (.deciding commit i acked) (.answered true))
      (Function.update net a ((net a).receive (decision commit)).2) := by
  obtain ⟨rfl, hmem, hall, hcount⟩ := h
  have hnone : ((net a).receive (decision commit)).2.pending = none := receive_decision_pending commit _
  have hmem' : ∀ b, (Function.update net a ((net a).receive (decision commit)).2 b).pending = some x →
      b ∈ rs ∧ b ∉ rs.take (i + 1) := by
    intro b hb
    by_cases hba : b = a
    · subst hba
      rw [Function.update_self, hnone] at hb
      cases hb
    · rw [Function.update_of_ne hba] at hb
      rw [mem_take_succ ha, not_or]
      exact ⟨(hmem b hb).1, (hmem b hb).2, hba⟩
  have hall' : commit = true → rs.Nodup ∧ ∀ b ∈ rs, b ∉ rs.take (i + 1) →
      (Function.update net a ((net a).receive (decision commit)).2 b).pending = some x := by
    intro hc
    refine ⟨(hall hc).1, fun b hb hbi => ?_⟩
    rw [mem_take_succ ha, not_or] at hbi
    rw [Function.update_of_ne hbi.2]
    exact (hall hc).2 b hb hbi.1
  have hcount' : ∀ b, (Function.update net a ((net a).receive (decision commit)).2 b).data.applied.count x =
      if commit = true ∧ b ∈ rs.take (i + 1) then 1 else 0 := by
    intro b
    by_cases hba : b = a
    · subst hba
      have hb : b ∈ rs.take (i + 1) := (mem_take_succ ha).mpr (Or.inr rfl)
      rw [Function.update_self]
      rcases hp with hp | hp
      · -- nothing is pending: if it is a commit, it has been here before
        rw [receive_decision_of_none commit hp, hcount b]
        have : commit = true → b ∈ rs.take i := by
          intro hc
          by_contra hbi
          rw [(hall hc).2 b (List.mem_of_getElem? ha) hbi] at hp
          cases hp
        by_cases hc : commit = true
        · rw [if_pos ⟨hc, this hc⟩, if_pos ⟨hc, hb⟩]
        · rw [if_neg fun h => hc h.1, if_neg fun h => hc h.1]
      · have hbi := (hmem b hp).2
        have hzero := hcount b
        rw [if_neg fun h => hbi h.2] at hzero
        rw [receive_decision_data commit hp]
        cases commit
        · simpa using hzero
        · rw [if_pos rfl, if_pos ⟨rfl, hb⟩]
          exact List.count_cons_self.trans (congrArg (· + 1) hzero)
    · rw [Function.update_of_ne hba, hcount b]
      simp only [mem_take_succ ha, hba, or_false]
  simp only [Phase.resume, Phase.afterAcks, Reply.yes, Bool.and_true, if_true]
  split_ifs with hlt
  · exact ⟨rfl, hmem', hall', hcount'⟩
  · have hfull : rs.take (i + 1) = rs := List.take_of_length_le (by omega)
    rw [hfull] at hmem' hcount'
    exact ⟨fun b hb => (hmem' b hb).2 (hmem' b hb).1, hcount'⟩

omit [Operations Op σ] in
theorem concurrentInv_init (d₀ : ι → σ) : ConcurrentInv (init d₀ : System ι Op σ) := by
  refine ⟨fun a x hx => ?_, fun t T hT => ?_⟩
  · simp [init] at hx
  · simp [init] at hT

theorem ConcurrentInv.start (h : ConcurrentInv s) (replicas : List ι) (op : Op) :
    ConcurrentInv (s.step (.start replicas op)) := by
  refine ⟨fun a x hx => ?_, fun t T hT => ?_⟩
  · obtain ⟨T, hT, hop⟩ := h.owned a x hx
    have hlt := (List.getElem?_eq_some_iff.mp hT).1
    exact ⟨T, by simp only [step, List.getElem?_append_left hlt, hT], hop⟩
  · rcases getElem?_append_cases hT with hT | ⟨rfl, rfl⟩
    · exact h.keeps t T hT
    · -- nobody has this number yet
      have hnot : ∀ a, ¬ ((s.transactions.length, op) ∈ (s.net a).data.applied ∨
          (s.net a).pending = some (s.transactions.length, op)) := by
        intro a ha
        obtain ⟨T, hT, -⟩ := h.owned a _ ha
        have := (List.getElem?_eq_some_iff.mp hT).1
        exact Nat.lt_irrefl _ this
      exact Keeps.start (fun a ha => hnot a (Or.inr ha)) fun a =>
        List.count_eq_zero_of_not_mem fun ha => hnot a (Or.inl ha)

/-- An answered exchange whose decision meets its operation. -/
theorem ConcurrentInv.send (h : ConcurrentInv s) {t : ℕ} {T : Transaction ι Op} (hT : s.transactions[t]? = some T)
    {a : ι} {m : Message (ℕ × Op)} (hnext : T.next t = some (a, m))
    (hmatched : T.phase.decided.isSome → (s.net a).pending = none ∨ (s.net a).pending = some (t, T.op)) :
    ConcurrentInv (s.send t T a m .answered) := by
  have hlt := (List.getElem?_eq_some_iff.mp hT).1
  obtain ⟨i, hi, ha, hm⟩ := Transaction.next_eq_some hnext
  have hnet : (s.send t T a m .answered).net = Function.update s.net a ((s.net a).receive m).2 := rfl
  have hcases : (∃ j ok, T.phase = .voting j ok ∧ m = .prepare (t, T.op)) ∨
      ∃ commit j acked, T.phase = .deciding commit j acked ∧ m = decision commit ∧
        ((s.net a).pending = none ∨ (s.net a).pending = some (t, T.op)) := by
    cases hphase : T.phase with
    | voting j ok =>
      rw [hphase] at hm
      exact Or.inl ⟨j, ok, rfl, (Option.some.inj hm).symm⟩
    | deciding commit j acked =>
      rw [hphase] at hm
      exact Or.inr ⟨commit, j, acked, rfl, (Option.some.inj hm).symm, hmatched (by rw [hphase]; rfl)⟩
    | done commit =>
      rw [hphase] at hi
      cases hi
  have hother : ∀ y : ℕ × Op, (t, T.op) ≠ y → ∀ b,
      (((s.send t T a m .answered).net b).pending = some y ↔ (s.net b).pending = some y) ∧
        ((s.send t T a m .answered).net b).data.applied.count y = (s.net b).data.applied.count y := by
    intro y hxy b
    rw [hnet]
    by_cases hba : b = a
    · subst hba
      rw [Function.update_self]
      rcases hcases with ⟨j, ok, -, rfl⟩ | ⟨commit, j, acked, -, rfl, hp⟩
      · exact ⟨(receive_prepare_other hxy _).1, by rw [receive_prepare_data]⟩
      · exact receive_decision_other hxy commit hp
    · rw [Function.update_of_ne hba]
      exact ⟨Iff.rfl, rfl⟩
  have hself : (s.send t T a m .answered).transactions[t]? =
      some { T with phase := T.phase.resume T.replicas.length (.answered ((s.net a).receive m).1) } :=
    List.getElem?_set_self hlt
  have hget : ∀ {u : ℕ}, u ≠ t → (s.send t T a m .answered).transactions[u]? = s.transactions[u]? := fun hne =>
    List.getElem?_set_ne (Ne.symm hne)
  refine ⟨fun b y hy => ?_, fun u U hU => ?_⟩
  · by_cases hxy : (t, T.op) = y
    · subst hxy
      exact ⟨_, hself, rfl⟩
    · obtain ⟨hpending, hcount⟩ := hother y hxy b
      have hold : y ∈ (s.net b).data.applied ∨ (s.net b).pending = some y := by
        rcases hy with hy | hy
        · left
          rw [← List.count_pos_iff, ← hcount]
          exact List.count_pos_iff.mpr hy
        · exact Or.inr (hpending.mp hy)
      obtain ⟨U, hU, hop⟩ := h.owned b y hold
      by_cases hyt : y.1 = t
      · rw [hyt, hT] at hU
        obtain rfl := Option.some.inj hU
        exact absurd (Prod.ext hyt.symm hop) hxy
      · exact ⟨U, by rw [hget hyt, hU], hop⟩
  · by_cases hut : u = t
    · subst hut
      obtain rfl := Option.some.inj (hself.symm.trans hU)
      have hkeeps := h.keeps u T hT
      rcases hcases with ⟨j, ok, hphase, rfl⟩ | ⟨commit, j, acked, hphase, rfl, hp⟩
      · rw [hphase] at hkeeps hi
        obtain rfl : j = i := Option.some.inj hi
        simp only [hphase]
        exact hkeeps.ask ha
      · rw [hphase] at hkeeps hi
        obtain rfl : j = i := Option.some.inj hi
        simp only [hphase, receive_decision_fst]
        exact hkeeps.decide ha hp
    · rw [hget hut] at hU
      have hxy : (t, T.op) ≠ (u, U.op) := fun h => hut (Prod.mk.inj h).1.symm
      exact (h.keeps u U hU).congr (fun b => (hother _ hxy b).1) fun b => (hother _ hxy b).2

omit [Operations Op σ] in
/-- A decision to commit finds its own operation. -/
theorem ConcurrentInv.commit_meets (h : ConcurrentInv s) {t : ℕ} {T : Transaction ι Op} (hT : s.transactions[t]? = some T)
    {a : ι} {m : Message (ℕ × Op)} (hnext : T.next t = some (a, m)) (hdecided : T.phase.decided = some true) :
    (s.net a).pending = some (t, T.op) := by
  obtain ⟨i, hi, ha, -⟩ := Transaction.next_eq_some hnext
  have hkeeps := h.keeps t T hT
  cases hphase : T.phase with
  | voting j ok =>
    rw [hphase] at hdecided
    cases hdecided
  | deciding commit j acked =>
    rw [hphase] at hkeeps hi hdecided
    obtain rfl : j = i := Option.some.inj hi
    obtain rfl : commit = true := Option.some.inj hdecided
    obtain ⟨hnodup, hall⟩ := hkeeps.2.2.1 rfl
    exact hall a (List.mem_of_getElem? ha) ((nodup_take_succ ha).mp (hnodup.sublist (List.take_sublist _ _))).2
  | done commit =>
    rw [hphase] at hi
    cases hi

/-- One event. -/
theorem ConcurrentInv.step (h : ConcurrentInv s) {e : Event ι Op} (he : s.Matched e) : ConcurrentInv (s.step e) := by
  cases e with
  | start replicas op => exact h.start replicas op
  | exchange t o =>
    obtain ⟨rfl, hmatched⟩ := he
    rw [System.step]
    split
    · exact h
    · next T hT =>
      split
      · exact h
      · next a m hnext =>
        refine h.send hT hnext fun hdec => ?_
        obtain ⟨commit, hdec⟩ := Option.isSome_iff_exists.mp hdec
        cases commit with
        | true => exact Or.inr (h.commit_meets hT hnext hdec)
        | false =>
          cases hpending : (s.net a).pending with
          | none => exact Or.inl rfl
          | some x =>
            obtain ⟨U, hU, hop⟩ := h.owned a x (Or.inr hpending)
            have hx : x.1 = t := hmatched T hT hdec _ hnext x hpending
            rw [hx, hT] at hU
            obtain rfl := Option.some.inj hU
            exact Or.inr (congrArg some (Prod.ext hx hop.symm))
  | deliver i => exact he.elim

omit [Operations Op σ] in
theorem ConcurrentInv.sound (h : ConcurrentInv s) : s.Sound := by
  refine ⟨fun a x hx => ?_, fun t T hT hphase a ha => ?_⟩
  · obtain ⟨T, hT, hop⟩ := h.owned a x (Or.inl hx)
    refine ⟨T, hT, hop, ?_⟩
    have hkeeps := h.keeps x.1 T hT
    have hpos : 0 < (s.net a).data.applied.count (x.1, T.op) := by
      rw [hop]
      exact List.count_pos_iff.mpr hx
    cases hphase : T.phase with
    | voting i ok =>
      rw [hphase] at hkeeps
      rw [hkeeps.2.2 a] at hpos
      cases hpos
    | deciding commit i acked =>
      rw [hphase] at hkeeps
      rw [hkeeps.2.2.2 a] at hpos
      split_ifs at hpos with hc
      · exact ⟨by rw [hc.1]; rfl, List.mem_of_mem_take hc.2⟩
      · cases hpos
    | done commit =>
      rw [hphase] at hkeeps
      rw [hkeeps.2 a] at hpos
      split_ifs at hpos with hc
      · exact ⟨by rw [hc.1]; rfl, hc.2⟩
      · cases hpos
  · have hkeeps := h.keeps t T hT
    rw [hphase] at hkeeps
    rw [hkeeps.2 a, if_pos ⟨rfl, ha⟩]

end System

end Cs162Hw.Library.TwoPhase
