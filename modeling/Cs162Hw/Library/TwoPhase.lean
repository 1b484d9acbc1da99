import Mathlib.Data.List.Nodup
import Mathlib.Data.List.TakeDrop
import Mathlib.Logic.Function.Basic

/-!
# Two-phase commit

The protocol in its own terms: participants that hold data and at most one pending
operation, and a coordinator that asks each of a list of replicas for its vote and
then sends them its decision, in passes, until one pass is acknowledged by all.
Addresses, data and operations are arbitrary; `Operations` says which operations a
participant agrees to and what they do.

Messages name no transaction, so what a decision does to a participant depends on
what it has pending. What the protocol needs is an invariant that says, for the
transaction under way, what every participant may hold at every point of the
coordinator's loops, `Atomic`:

* `Atomic.start` — it holds when nothing is pending anywhere;
* `Atomic.exchange` — it is kept by an exchange with the next replica, whichever way
  the exchange fails (`Outcome`);
* `Atomic.redeliver`, `Atomic.ask_late`, `Atomic.ask_later` — and by what may arrive late:
  the decision being sent, to anyone, and a question to one that will still hear of an abort.

A participant may stand in the list of replicas more than once: it is then asked more than
once, and votes yes at most once.
-/

namespace Cs162Hw.Library.TwoPhase

/-- What operations mean for the data they work on. -/
class Operations (Op σ : Type) where
  /-- Would the participant agree to it? -/
  check : Op → σ → Bool
  /-- What it does. -/
  apply : Op → σ → σ

open Operations

/-- A participant: its data, and the operation it has agreed to and not heard about. -/
@[ext]
structure Participant (Op σ : Type) where
  /-- The data. -/
  data : σ
  /-- The pending operation. -/
  pending : Option Op

/-- What a coordinator sends. -/
inductive Message (Op : Type) where
  /-- Prepare the operation, and vote. -/
  | prepare (op : Op)
  /-- Apply what is pending. -/
  | commit
  /-- Forget what is pending. -/
  | abort

/-- The message that announces a decision. -/
def decision {Op : Type} (commit : Bool) : Message Op := if commit then .commit else .abort

variable {ι Op σ : Type} [Operations Op σ]

/-- What a participant does with a message: a vote (`true` is yes) or an
acknowledgement (always `true`), and its next state. -/
def Participant.receive : Message Op → Participant Op σ → Bool × Participant Op σ
  | .prepare op, p =>
    match p.pending with
    | some _ => (false, p)
    | none => if check op p.data then (true, { p with pending := some op }) else (false, p)
  | .commit, p =>
    match p.pending with
    | some op => (true, ⟨apply op p.data, none⟩)
    | none => (true, p)
  | .abort, p => (true, { p with pending := none })

/-- Does the message find anything to do? -/
def Participant.Acts : Message Op → Participant Op σ → Prop
  | .prepare op, p => p.pending = none ∧ check op p.data = true
  | .commit, p => p.pending.isSome
  | .abort, p => p.pending.isSome

/-- Otherwise it changes nothing. -/
theorem Participant.receive_of_not_acts {m : Message Op} {p : Participant Op σ} (h : ¬ p.Acts m) :
    (p.receive m).2 = p := by
  obtain ⟨d, pending⟩ := p
  cases m <;> cases pending <;> simp_all [Participant.Acts, Participant.receive]

/-- To be asked for a vote changes no data. -/
theorem receive_prepare_data (op : Op) (p : Participant Op σ) : (p.receive (.prepare op)).2.data = p.data := by
  obtain ⟨d, pending⟩ := p
  cases pending with
  | some _ => rfl
  | none => simp only [Participant.receive]; split_ifs <;> rfl

/-- One that votes yes had nothing pending, and has the operation pending. -/
theorem receive_prepare_yes {op : Op} {p : Participant Op σ} (h : (p.receive (.prepare op)).1 = true) :
    p.pending = none ∧ (p.receive (.prepare op)).2.pending = some op := by
  obtain ⟨d, pending⟩ := p
  cases pending with
  | some _ => cases h
  | none =>
    refine ⟨rfl, ?_⟩
    simp only [Participant.receive] at h ⊢
    split_ifs at h ⊢
    rfl

/-- What a decision does to the data of one that has an operation pending. -/
theorem receive_decision_data (commit : Bool) {op : Op} {p : Participant Op σ} (h : p.pending = some op) :
    (p.receive (decision commit)).2.data = if commit then apply op p.data else p.data := by
  obtain ⟨d, pending⟩ := p
  subst h
  cases commit <;> rfl

/-- After a decision nothing is pending. -/
theorem receive_decision_pending (commit : Bool) (p : Participant Op σ) :
    (p.receive (decision commit)).2.pending = none := by
  obtain ⟨d, pending⟩ := p
  cases commit <;> cases pending <;> rfl

/-! ### The coordinator -/

/-- Where a coordinator stands: at which replica, and what it has heard so far. -/
inductive Phase where
  /-- Asking replica `i`; `ok` is whether all before it voted yes. -/
  | voting (i : ℕ) (ok : Bool)
  /-- Sending its decision to replica `i`; `acked` is whether all before it in this pass
  have acknowledged. -/
  | deciding (commit : Bool) (i : ℕ) (acked : Bool)
  /-- Finished, with that decision. -/
  | done (commit : Bool)
  deriving DecidableEq

/-- What comes back from an exchange. -/
inductive Reply (α : Type) where
  /-- No connection. -/
  | refused
  /-- A connection, and no answer. -/
  | silent
  /-- An answer. -/
  | answered (a : α)

/-- Whether there was an answer, and it was a vote to commit or an acknowledgement. -/
def Reply.yes : Reply Bool → Bool
  | .answered yes => yes
  | _ => false

/-- The reply, its answer read by `f`. -/
def Reply.map {α β : Type} (f : α → β) : Reply α → Reply β
  | .refused => .refused
  | .silent => .silent
  | .answered a => .answered (f a)

/-- How an exchange goes: no connection, the request lost, the request processed and the
response lost, or all well. -/
inductive Outcome where
  | refused | requestLost | responseLost | answered
  deriving DecidableEq

/-- Did the request reach the participant? -/
def Outcome.processed : Outcome → Bool
  | .refused | .requestLost => false
  | .responseLost | .answered => true

/-- What the coordinator sees of an exchange in which the participant answers `a`. -/
def Outcome.reply {α : Type} (a : α) : Outcome → Reply α
  | .refused => .refused
  | .requestLost | .responseLost => .silent
  | .answered => .answered a

theorem Outcome.map_reply {α β : Type} (f : α → β) (a : α) (o : Outcome) :
    (o.reply a).map f = o.reply (f a) := by cases o <;> rfl

namespace Phase

/-- The replica the next exchange is with. -/
def index : Phase → Option ℕ
  | voting i _ => some i
  | deciding _ i _ => some i
  | done _ => none

/-- What it is sent. -/
def message (op : Op) : Phase → Option (Message Op)
  | voting _ _ => some (.prepare op)
  | deciding commit _ _ => some (decision commit)
  | done _ => none

/-- Among `n` replicas, after the votes of the first `i`. -/
def afterVotes (n i : ℕ) (ok : Bool) : Phase :=
  if i < n then voting i ok else if 0 < n then deciding ok 0 true else done ok

/-- After the first `i` replicas of a pass: a pass that was not acknowledged by all is
followed by another. -/
def afterAcks (n : ℕ) (commit : Bool) (i : ℕ) (acked : Bool) : Phase :=
  if i < n then deciding commit i acked else if acked then done commit else deciding commit 0 true

/-- After an exchange with the replica it stands at. A decision that finds no connection
breaks off the pass. -/
def resume (n : ℕ) : Phase → Reply Bool → Phase
  | voting i ok, r => afterVotes n (i + 1) (ok && r.yes)
  | deciding commit _ _, .refused => deciding commit 0 true
  | deciding commit i acked, r => afterAcks n commit (i + 1) (acked && r.yes)
  | done commit, _ => done commit

/-- The decision, once there is one. -/
def decided : Phase → Option Bool
  | voting _ _ => none
  | deciding commit _ _ => some commit
  | done commit => some commit

/-- It stands. -/
theorem decided_resume {φ : Phase} {commit : Bool} (h : φ.decided = some commit) (n : ℕ) (r : Reply Bool) :
    (φ.resume n r).decided = some commit := by
  cases φ with
  | voting i ok => cases h
  | deciding c i acked =>
    obtain rfl : c = commit := Option.some.inj h
    cases r with
    | refused => rfl
    | silent => simp only [resume, afterAcks]; split_ifs <;> rfl
    | answered yes => simp only [resume, afterAcks]; split_ifs <;> rfl
  | done c => exact h

end Phase

/-! ### The invariant of one transaction -/

section Invariant

variable (d₀ : ι → σ) (op : Op)

/-- Nothing heard of the transaction, or nothing left of it. -/
def idle (a : ι) : Participant Op σ := ⟨d₀ a, none⟩

/-- Voted yes. -/
def prepared (a : ι) : Participant Op σ := ⟨d₀ a, some op⟩

/-- Decided. -/
def settled (commit : Bool) (a : ι) : Participant Op σ := ⟨if commit then apply op (d₀ a) else d₀ a, none⟩

/-- **The invariant of one transaction**, from data `d₀`, of the operation `op` on the
replicas `rs`: what the participants hold when the coordinator is in the phase `φ`. -/
def Atomic (rs : List ι) (φ : Phase) (net : ι → Participant Op σ) : Prop :=
  (∀ a, a ∉ rs → net a = idle d₀ a) ∧
  match φ with
  | .voting i ok => i < rs.length ∧ (∀ a, a ∉ rs.take i → net a = idle d₀ a) ∧
      (∀ a ∈ rs.take i, net a = idle d₀ a ∨ net a = prepared d₀ op a) ∧
      (ok = true → ∀ a ∈ rs.take i, net a = prepared d₀ op a ∧ check op (d₀ a) = true)
  | .deciding commit i acked => i < rs.length ∧
      (∀ a ∈ rs, net a = prepared d₀ op a ∨ net a = settled d₀ op commit a) ∧
      (commit = true → ∀ a ∈ rs, check op (d₀ a) = true) ∧
      (acked = true → ∀ a ∈ rs.take i, net a = settled d₀ op commit a)
  | .done commit => (∀ a ∈ rs, net a = settled d₀ op commit a) ∧
      (commit = true → ∀ a ∈ rs, check op (d₀ a) = true)

variable {d₀ op} {rs : List ι} {φ : Phase} {net : ι → Participant Op σ}

/-- A participant with nothing pending takes no notice of a decision. -/
theorem receive_decision_of_none (commit : Bool) {p : Participant Op σ} (h : p.pending = none) :
    p.receive (decision commit) = (true, p) := by
  obtain ⟨d, pend⟩ := p
  subst h
  cases commit <;> rfl

theorem receive_decision_prepared (commit : Bool) (a : ι) :
    (prepared d₀ op a).receive (decision commit) = (true, settled d₀ op commit a) := by
  cases commit <;> rfl

theorem receive_decision_settled (commit c : Bool) (a : ι) :
    (settled d₀ op c a).receive (decision commit) = (true, settled d₀ op c a) :=
  receive_decision_of_none commit rfl

theorem receive_decision_fst (commit : Bool) (p : Participant Op σ) : (p.receive (decision commit)).1 = true := by
  obtain ⟨d, pend⟩ := p
  cases commit
  · rfl
  · cases pend <;> rfl

/-- An idle participant that is asked votes by its check. -/
theorem receive_prepare_idle (a : ι) : (idle d₀ a).receive (.prepare op) =
    if check op (d₀ a) then (true, prepared d₀ op a) else (false, idle d₀ a) := rfl

/-- With nothing pending anywhere a transaction can start. -/
theorem Atomic.start (h : ∀ a, net a = idle d₀ a) : Atomic d₀ op rs (.afterVotes rs.length 0 true) net := by
  unfold Phase.afterVotes
  split_ifs with hpos
  · exact ⟨fun a _ => h a, hpos, fun a _ => h a, by simp, by simp⟩
  · obtain rfl : rs = [] := List.length_eq_zero_iff.mp (by omega)
    exact ⟨fun a _ => h a, by simp, by simp⟩

/-- The data of a participant is what it was, or, at a replica once the decision is to commit, has
the operation applied. -/
theorem Atomic.data_cases (h : Atomic d₀ op rs φ net) (a : ι) :
    (net a).data = d₀ a ∨ (φ.decided = some true ∧ a ∈ rs ∧ (net a).data = apply op (d₀ a)) := by
  obtain ⟨hout, h⟩ := h
  by_cases ha : a ∈ rs
  swap
  · exact Or.inl (by rw [hout a ha]; rfl)
  have hsettled : ∀ {commit : Bool}, φ.decided = some commit → net a = settled d₀ op commit a →
      (net a).data = d₀ a ∨ (φ.decided = some true ∧ a ∈ rs ∧ (net a).data = apply op (d₀ a)) := by
    intro commit hdec hs
    rw [hs]
    cases commit
    · exact Or.inl rfl
    · exact Or.inr ⟨hdec, ha, rfl⟩
  cases φ with
  | voting i ok =>
    obtain ⟨-, hrest, htake, -⟩ := h
    by_cases hi : a ∈ rs.take i
    · rcases htake a hi with hs | hs <;> exact Or.inl (by rw [hs]; rfl)
    · exact Or.inl (by rw [hrest a hi]; rfl)
  | deciding commit i acked =>
    rcases h.2.1 a ha with hs | hs
    · exact Or.inl (by rw [hs]; rfl)
    · exact hsettled rfl hs
  | done commit => exact hsettled rfl (h.1 a ha)

variable [DecidableEq ι]

/-- The participants after an exchange with `a`. -/
def deliver (o : Outcome) (m : Message Op) (a : ι) (net : ι → Participant Op σ) : ι → Participant Op σ :=
  if o.processed then Function.update net a ((net a).receive m).2 else net

theorem deliver_of_ne {o : Outcome} {m : Message Op} {a b : ι} (h : b ≠ a) : deliver o m a net b = net b := by
  unfold deliver
  split_ifs
  · exact Function.update_of_ne h _ _
  · rfl

theorem deliver_self {o : Outcome} {m : Message Op} {a : ι} :
    deliver o m a net a = if o.processed then ((net a).receive m).2 else net a := by
  unfold deliver
  split_ifs
  · exact Function.update_self ..
  · rfl

omit [Operations Op σ] [DecidableEq ι] in
theorem mem_take_succ {i : ℕ} {a b : ι} (h : rs[i]? = some a) : b ∈ rs.take (i + 1) ↔ b ∈ rs.take i ∨ b = a := by
  rw [List.take_add_one, h]
  simp

omit [Operations Op σ] [DecidableEq ι] in
theorem nodup_take_succ {i : ℕ} {a : ι} (h : rs[i]? = some a) :
    (rs.take (i + 1)).Nodup ↔ (rs.take i).Nodup ∧ a ∉ rs.take i := by
  rw [List.take_add_one, h, Option.toList_some, ← List.concat_eq_append, List.nodup_concat, and_comm]

omit [DecidableEq ι] in
/-- Once the votes are in, the decision is to be sent. -/
theorem Atomic.afterVotes {i : ℕ} {ok : Bool} (hout : ∀ a, a ∉ rs → net a = idle d₀ a) (hpos : 0 < rs.length)
    (hrest : ∀ a, a ∉ rs.take i → net a = idle d₀ a)
    (htake : ∀ a ∈ rs.take i, net a = idle d₀ a ∨ net a = prepared d₀ op a)
    (hok : ok = true → ∀ a ∈ rs.take i, net a = prepared d₀ op a ∧ check op (d₀ a) = true) :
    Atomic d₀ op rs (.afterVotes rs.length i ok) net := by
  unfold Phase.afterVotes
  split_ifs with h
  · exact ⟨hout, h, hrest, htake, hok⟩
  · have hall : rs.take i = rs := List.take_of_length_le (by omega)
    rw [hall] at htake hok
    refine ⟨hout, hpos, fun a ha => ?_, fun hc a ha => (hok hc a ha).2, by simp⟩
    cases ok with
    | true => exact Or.inl (hok rfl a ha).1
    | false => exact (htake a ha).symm

omit [DecidableEq ι] in
/-- A participant that has nothing pending, or this operation, has so after being asked again; it votes yes only
if it had nothing pending. -/
theorem receive_prepare_cases {a : ι} {p : Participant Op σ} (h : p = idle d₀ a ∨ p = prepared d₀ op a) :
    ((p.receive (.prepare op)).2 = idle d₀ a ∨ (p.receive (.prepare op)).2 = prepared d₀ op a) ∧
      ((p.receive (.prepare op)).1 = true →
        p = idle d₀ a ∧ (p.receive (.prepare op)).2 = prepared d₀ op a ∧ check op (d₀ a) = true) := by
  rcases h with rfl | rfl
  · rw [receive_prepare_idle]
    split_ifs with hc
    · exact ⟨Or.inr rfl, fun _ => ⟨rfl, rfl, hc⟩⟩
    · exact ⟨Or.inl rfl, fun h => by cases h⟩
  · exact ⟨Or.inr rfl, fun h => by cases h⟩

/-- After an exchange with its next replica, in whatever way it failed or did not, the
invariant holds of the phase the coordinator goes on with. -/
theorem Atomic.exchange (h : Atomic d₀ op rs φ net) {i : ℕ} (hi : φ.index = some i) {a : ι}
    (ha : rs[i]? = some a) {m : Message Op} (hm : φ.message op = some m) (o : Outcome) :
    Atomic d₀ op rs (φ.resume rs.length (o.reply ((net a).receive m).1)) (deliver o m a net) := by
  have hmem : a ∈ rs := List.mem_of_getElem? ha
  obtain ⟨hout, h⟩ := h
  have hout' : ∀ b, b ∉ rs → deliver o m a net b = idle d₀ b := by
    intro b hb
    rw [deliver_of_ne (by rintro rfl; exact hb hmem), hout b hb]
  cases φ with
  | voting j ok =>
    obtain rfl : j = i := by simpa [Phase.index] using hi
    obtain rfl : Message.prepare op = m := by simpa [Phase.message] using hm
    obtain ⟨hlt, hrest, htake, hok⟩ := h
    have hboth : ∀ b, net b = idle d₀ b ∨ net b = prepared d₀ op b := by
      intro b
      by_cases hb : b ∈ rs.take j
      · exact htake b hb
      · exact Or.inl (hrest b hb)
    obtain ⟨hnext, hyes⟩ := receive_prepare_cases (hboth a)
    refine Atomic.afterVotes hout' (by omega) (fun b hb => ?_) (fun b _ => ?_) fun hvotes b hb => ?_
    · rw [mem_take_succ ha, not_or] at hb
      rw [deliver_of_ne hb.2]
      exact hrest b hb.1
    · by_cases hba : b = a
      · subst hba
        rw [deliver_self]
        split_ifs
        · exact hnext
        · exact hboth b
      · rw [deliver_of_ne hba]
        exact hboth b
    · obtain ⟨hbefore, hreply⟩ := (Bool.and_eq_true ..).mp hvotes
      obtain rfl : o = .answered := by cases o <;> simp_all [Outcome.reply, Reply.yes]
      obtain ⟨-, hprep, hcheck⟩ := hyes hreply
      by_cases hba : b = a
      · subst hba
        rw [deliver_self]
        exact ⟨hprep, hcheck⟩
      · rw [deliver_of_ne hba]
        exact hok hbefore b (((mem_take_succ ha).mp hb).resolve_right hba)
  | deciding commit j acked =>
    obtain rfl : j = i := by simpa [Phase.index] using hi
    obtain rfl : decision commit = m := by simpa [Phase.message] using hm
    obtain ⟨hlt, hall, hcheck, hack⟩ := h
    rw [receive_decision_fst]
    have hall' : ∀ b ∈ rs, deliver o (decision commit) a net b = prepared d₀ op b ∨
        deliver o (decision commit) a net b = settled d₀ op commit b := by
      intro b hb
      by_cases hba : b = a
      · subst hba
        rw [deliver_self]
        split_ifs
        · rcases hall b hb with h | h <;> rw [h]
          · exact Or.inr (by rw [receive_decision_prepared])
          · exact Or.inr (by rw [receive_decision_settled])
        · exact hall b hb
      · rw [deliver_of_ne hba]; exact hall b hb
    have hnext : ∀ acked', (acked' = true → acked = true ∧ o.processed = true) →
        Atomic d₀ op rs (.afterAcks rs.length commit (j + 1) acked') (deliver o (decision commit) a net) := by
      intro acked' hacked'
      have hack' : acked' = true → ∀ b ∈ rs.take (j + 1), deliver o (decision commit) a net b = settled d₀ op commit b := by
        intro hy b hb
        obtain ⟨hy₁, hy₂⟩ := hacked' hy
        by_cases hba : b = a
        · subst hba
          rw [deliver_self, if_pos hy₂]
          rcases hall b hmem with h | h <;> rw [h]
          · rw [receive_decision_prepared]
          · rw [receive_decision_settled]
        · rw [deliver_of_ne hba]
          exact hack hy₁ b (((mem_take_succ ha).mp hb).resolve_right hba)
      unfold Phase.afterAcks
      split_ifs with hlast hy
      · exact ⟨hout', hlast, hall', hcheck, hack'⟩
      · refine ⟨hout', fun b hb => hack' hy b ?_, hcheck⟩
        rwa [List.take_of_length_le (by omega)]
      · exact ⟨hout', by omega, hall', hcheck, by simp⟩
    cases o with
    | refused => exact ⟨hout', by omega, hall', hcheck, by simp⟩
    | requestLost => exact hnext _ (by simp [Outcome.reply, Reply.yes])
    | responseLost => exact hnext _ (by simp [Outcome.reply, Reply.yes])
    | answered => exact hnext _ (by simp [Outcome.reply, Reply.yes, Outcome.processed])
  | done commit => cases hi

/-- One more delivery of the decision being sent, to any participant at any time, keeps
the invariant. -/
theorem Atomic.redeliver {commit : Bool} {i : ℕ} {acked : Bool} (h : Atomic d₀ op rs (.deciding commit i acked) net)
    (a : ι) : Atomic d₀ op rs (.deciding commit i acked)
      (Function.update net a ((net a).receive (decision commit)).2) := by
  obtain ⟨hout, hlt, hall, hcheck, hack⟩ := h
  refine ⟨fun b hb => ?_, hlt, fun b hb => ?_, hcheck, fun hy b hb => ?_⟩ <;> by_cases hba : b = a
  · subst hba
    rw [Function.update_self, hout b hb]
    exact congrArg Prod.snd (receive_decision_of_none commit rfl)
  · rw [Function.update_of_ne hba, hout b hb]
  · subst hba
    rw [Function.update_self]
    rcases hall b hb with h | h <;> rw [h]
    · exact Or.inr (by rw [receive_decision_prepared])
    · exact Or.inr (by rw [receive_decision_settled])
  · rw [Function.update_of_ne hba]; exact hall b hb
  · subst hba
    rw [Function.update_self, hack hy b hb, receive_decision_settled]
  · rw [Function.update_of_ne hba]; exact hack hy b hb

/-- So does a question that arrives late, while the votes are still being asked for, -/
theorem Atomic.ask_late {i : ℕ} (h : Atomic d₀ op rs (.voting i false) net) {a : ι} (ha : a ∈ rs.take i) :
    Atomic d₀ op rs (.voting i false) (Function.update net a ((net a).receive (.prepare op)).2) := by
  obtain ⟨hout, hlt, hrest, htake, hok⟩ := h
  refine ⟨fun b hb => ?_, hlt, fun b hb => ?_, fun b hb => ?_, by simp⟩
  · rw [Function.update_of_ne (by rintro rfl; exact hb (List.mem_of_mem_take ha))]
    exact hout b hb
  · rw [Function.update_of_ne (by rintro rfl; exact hb ha)]
    exact hrest b hb
  · by_cases hba : b = a
    · subst hba
      rw [Function.update_self]
      exact (receive_prepare_cases (htake b ha)).1
    · rw [Function.update_of_ne hba]
      exact htake b hb

/-- or while a decision to abort is being sent that the participant still has to acknowledge. -/
theorem Atomic.ask_later {i : ℕ} {acked : Bool} (h : Atomic d₀ op rs (.deciding false i acked) net) {a : ι}
    (ha : a ∈ rs) (hdue : acked = true → a ∉ rs.take i) :
    Atomic d₀ op rs (.deciding false i acked) (Function.update net a ((net a).receive (.prepare op)).2) := by
  obtain ⟨hout, hlt, hall, -, hack⟩ := h
  refine ⟨fun b hb => ?_, hlt, fun b hb => ?_, by simp, fun hy b hb => ?_⟩
  · rw [Function.update_of_ne (by rintro rfl; exact hb ha)]
    exact hout b hb
  · by_cases hba : b = a
    · subst hba
      rw [Function.update_self]
      exact (receive_prepare_cases (hall b ha).symm).1.symm
    · rw [Function.update_of_ne hba]
      exact hall b hb
  · rw [Function.update_of_ne (by rintro rfl; exact hdue hy hb)]
    exact hack hy b hb

end Invariant

end Cs162Hw.Library.TwoPhase
