import Cs162Hw.Library.Steady

/-!
# Two-phase commit begun in any state

A transaction of `TwoPhase` whose exchanges are all answered, with participants of which some may still have an operation
pending from a transaction that nobody goes on with.

* `asked` and `told`: a participant after it has been asked to vote, and after it has been told the decision too. Neither
  changes when it happens again.
* `Ready`: what makes a participant vote yes. The decision is to commit if all of them are ready, and none is a replica twice.
* `Resumed`: what the participants hold. **`Resumed.exchange`** — every exchange that is answered keeps it.
* `told_of_aborted`: what was pending before is forgotten, for the decision is to abort. `Resumed.finished` puts it together.
-/

namespace Cs162Hw.Library.TwoPhase

open Operations

variable {ι Op σ : Type} [Operations Op σ]

section

variable (op : Op)

/-- It has been asked for its vote. -/
def asked (p : Participant Op σ) : Participant Op σ := (p.receive (.prepare op)).2

/-- It has been asked, and told the decision. -/
def told (commit : Bool) (p : Participant Op σ) : Participant Op σ := ((asked op p).receive (decision commit)).2

/-- It votes yes. -/
def Ready (p : Participant Op σ) : Prop := p.Acts (.prepare op)

variable (p₀ : ι → Participant Op σ)

/-- All of them vote yes. -/
def AllReady (rs : List ι) : Prop := rs.Nodup ∧ ∀ a ∈ rs, Ready op (p₀ a)

/-- What the participants hold when the coordinator is in the phase `φ`, and held `p₀` when it began. -/
def Resumed (rs : List ι) (φ : Phase) (net : ι → Participant Op σ) : Prop :=
  (∀ a, a ∉ rs → net a = p₀ a) ∧
  match φ with
  | .voting i ok => i < rs.length ∧ (ok = true ↔ AllReady op p₀ (rs.take i)) ∧
      (∀ a ∈ rs.take i, net a = asked op (p₀ a)) ∧ ∀ a, a ∉ rs.take i → net a = p₀ a
  | .deciding commit i acked => i < rs.length ∧ acked = true ∧ (commit = true ↔ AllReady op p₀ rs) ∧
      (∀ a ∈ rs.take i, net a = told op commit (p₀ a)) ∧ ∀ a ∈ rs, a ∉ rs.take i → net a = asked op (p₀ a)
  | .done commit => (commit = true ↔ AllReady op p₀ rs) ∧ ∀ a ∈ rs, net a = told op commit (p₀ a)

end

variable {op : Op} {p : Participant Op σ} {p₀ : ι → Participant Op σ} {rs : List ι} {φ : Phase} {net : ι → Participant Op σ}

/-- Its vote. -/
theorem receive_prepare_fst_iff : (p.receive (.prepare op)).1 = true ↔ Ready op p := by
  obtain ⟨d, pending⟩ := p
  cases pending with
  | some op' => exact iff_of_false (by rintro ⟨⟩) (by rintro ⟨⟨⟩, -⟩)
  | none =>
    by_cases hc : check op d = true
    · exact iff_of_true (by simp only [Participant.receive, hc, if_true]) ⟨rfl, hc⟩
    · exact iff_of_false (by simp [Participant.receive, hc]) fun h => hc h.2

theorem asked_of_ready (h : Ready op p) : asked op p = ⟨p.data, some op⟩ := by
  obtain ⟨d, pending⟩ := p
  obtain ⟨hpending, hc⟩ := h
  obtain rfl : pending = none := hpending
  have hcheck : check op d = true := hc
  simp only [asked, Participant.receive, hcheck, if_true]

theorem asked_of_not_ready (h : ¬ Ready op p) : asked op p = p := Participant.receive_of_not_acts h

/-- One that has been asked does not vote yes again. -/
theorem not_ready_asked : ¬ Ready op (asked op p) := by
  by_cases h : Ready op p
  · rw [asked_of_ready h]
    rintro ⟨⟨⟩, -⟩
  · rwa [asked_of_not_ready h]

theorem told_pending (commit : Bool) : (told op commit p).pending = none := receive_decision_pending commit _

/-- Told to commit, it has applied the operation. -/
theorem told_of_committed (h : Ready op p) : told op true p = ⟨apply op p.data, none⟩ := by
  rw [told, asked_of_ready h]
  rfl

/-- **Told to abort, it has forgotten what was pending**, be it from this transaction or from another. -/
theorem told_of_aborted : told op false p = ⟨p.data, none⟩ := by
  by_cases h : Ready op p
  · rw [told, asked_of_ready h]
    rfl
  · rw [told, asked_of_not_ready h]
    rfl

theorem allReady_take_succ {i : ℕ} {a : ι} (h : rs[i]? = some a) : AllReady op p₀ (rs.take (i + 1)) ↔
    AllReady op p₀ (rs.take i) ∧ a ∉ rs.take i ∧ Ready op (p₀ a) := by
  have hall : (∀ b ∈ rs.take (i + 1), Ready op (p₀ b)) ↔ (∀ b ∈ rs.take i, Ready op (p₀ b)) ∧ Ready op (p₀ a) := by
    simp only [mem_take_succ h, or_imp, forall_and, forall_eq]
  rw [AllReady, AllReady, nodup_take_succ h, hall]
  tauto

/-- It can start whatever they hold. -/
theorem Resumed.start : Resumed op p₀ rs (.afterVotes rs.length 0 true) p₀ := by
  unfold Phase.afterVotes
  split_ifs with hpos
  · exact ⟨fun a _ => rfl, hpos, by simp [AllReady], by simp, fun a _ => rfl⟩
  · obtain rfl : rs = [] := List.length_eq_zero_iff.mp (by omega)
    exact ⟨fun a _ => rfl, by simp [AllReady], by simp⟩

/-- As long as exchanges are left, there is a next one. -/
theorem Resumed.index (h : Resumed op p₀ rs φ net) (hleft : 0 < φ.left rs.length) : ∃ i, φ.index = some i ∧ i < rs.length := by
  cases φ with
  | voting i ok => exact ⟨i, rfl, h.2.1⟩
  | deciding commit i acked => exact ⟨i, rfl, h.2.1⟩
  | done commit => exact absurd hleft (Nat.lt_irrefl 0)

variable [DecidableEq ι]

/-- **The next exchange.** It is answered, the participants hold what they hold in the phase that follows, and it is one
exchange less. -/
theorem Resumed.exchange (h : Resumed op p₀ rs φ net) {i : ℕ} (hi : φ.index = some i) {a : ι}
    (ha : rs[i]? = some a) {m : Message Op} (hm : φ.message op = some m) :
    Resumed op p₀ rs (φ.resume rs.length (Outcome.answered.reply ((net a).receive m).1)) (deliver .answered m a net) ∧
      (φ.resume rs.length (Outcome.answered.reply ((net a).receive m).1)).left rs.length + 1 = φ.left rs.length := by
  have hmem : a ∈ rs := List.mem_of_getElem? ha
  obtain ⟨hout, h⟩ := h
  have hout' : ∀ b, b ∉ rs → deliver .answered m a net b = p₀ b := by
    intro b hb
    rw [deliver_of_ne (by rintro rfl; exact hb hmem), hout b hb]
  have hself : deliver .answered m a net a = ((net a).receive m).2 := deliver_self
  cases φ with
  | voting j ok =>
    obtain rfl : j = i := Option.some.inj hi
    obtain rfl : Message.prepare op = m := Option.some.inj hm
    obtain ⟨hlt, hok, htake, hrest⟩ := h
    obtain ⟨hvote, hnext⟩ : (((net a).receive (.prepare op)).1 = true ↔ a ∉ rs.take j ∧ Ready op (p₀ a)) ∧
        ((net a).receive (.prepare op)).2 = asked op (p₀ a) := by
      by_cases hasked : a ∈ rs.take j
      · rw [htake a hasked]
        exact ⟨iff_of_false (mt receive_prepare_fst_iff.mp not_ready_asked) fun h => h.1 hasked,
          asked_of_not_ready not_ready_asked⟩
      · rw [hrest a hasked]
        exact ⟨receive_prepare_fst_iff.trans (and_iff_right hasked).symm, rfl⟩
    have hvotes : (ok && ((net a).receive (.prepare op)).1) = true ↔ AllReady op p₀ (rs.take (j + 1)) := by
      rw [allReady_take_succ ha, Bool.and_eq_true, hok, hvote]
    have htake' : ∀ b ∈ rs.take (j + 1), deliver .answered (.prepare op) a net b = asked op (p₀ b) := by
      intro b hb
      by_cases hba : b = a
      · rw [hba, hself, hnext]
      · rw [deliver_of_ne hba]
        exact htake b (((mem_take_succ ha).mp hb).resolve_right hba)
    have hrest' : ∀ b, b ∉ rs.take (j + 1) → deliver .answered (.prepare op) a net b = p₀ b := by
      intro b hb
      rw [mem_take_succ ha, not_or] at hb
      rw [deliver_of_ne hb.2]
      exact hrest b hb.1
    show Resumed op p₀ rs (.afterVotes rs.length (j + 1) (ok && ((net a).receive (.prepare op)).1)) _ ∧
      (Phase.afterVotes rs.length (j + 1) (ok && ((net a).receive (.prepare op)).1)).left rs.length + 1 = rs.length - j + rs.length
    unfold Phase.afterVotes
    split_ifs with hmore hpos
    · exact ⟨⟨hout', hmore, hvotes, htake', hrest'⟩, by simp only [Phase.left]; omega⟩
    · rw [List.take_of_length_le (by omega)] at hvotes htake'
      exact ⟨⟨hout', hpos, rfl, hvotes, by simp, fun b hb _ => htake' b hb⟩, by simp only [Phase.left]; omega⟩
    · omega
  | deciding commit j acked =>
    obtain rfl : j = i := Option.some.inj hi
    obtain rfl : decision commit = m := Option.some.inj hm
    obtain ⟨hlt, hacked, hcommit, htake, hrest⟩ := h
    have hreceive : (net a).receive (decision commit) = (true, told op commit (p₀ a)) := by
      refine Prod.ext (receive_decision_fst commit _) ?_
      by_cases htold : a ∈ rs.take j
      · rw [htake a htold, receive_decision_of_none commit (told_pending commit)]
      · rw [hrest a hmem htold]
        rfl
    have htake' : ∀ b ∈ rs.take (j + 1), deliver .answered (decision commit) a net b = told op commit (p₀ b) := by
      intro b hb
      by_cases hba : b = a
      · rw [hba, hself, hreceive]
      · rw [deliver_of_ne hba]
        exact htake b (((mem_take_succ ha).mp hb).resolve_right hba)
    have hrest' : ∀ b ∈ rs, b ∉ rs.take (j + 1) → deliver .answered (decision commit) a net b = asked op (p₀ b) := by
      intro b hb hnot
      rw [mem_take_succ ha, not_or] at hnot
      rw [deliver_of_ne hnot.2]
      exact hrest b hb hnot.1
    rw [hreceive]
    show Resumed op p₀ rs (.afterAcks rs.length commit (j + 1) (acked && true)) _ ∧
      (Phase.afterAcks rs.length commit (j + 1) (acked && true)).left rs.length + 1 = rs.length - j
    rw [hacked]
    unfold Phase.afterAcks
    split_ifs with hnext
    · exact ⟨⟨hout', hnext, rfl, hcommit, htake', hrest'⟩, by simp only [Phase.left]; omega⟩
    · rw [List.take_of_length_le (by omega)] at htake'
      exact ⟨⟨hout', hcommit, htake'⟩, by simp only [Phase.left]; omega⟩
    · exact absurd rfl ‹¬ (true && true) = true›
  | done commit => cases hi

omit [DecidableEq ι] in
/-- When no exchange is left, nothing is pending at any replica: on a decision to commit they have applied the operation,
and otherwise their data are what they were. -/
theorem Resumed.finished (h : Resumed op p₀ rs φ net) (hleft : φ.left rs.length = 0) :
    ∃ commit, φ = .done commit ∧ (commit = true ↔ AllReady op p₀ rs) ∧ (∀ a, a ∉ rs → net a = p₀ a) ∧
      ∀ a ∈ rs, net a = ⟨if commit then apply op (p₀ a).data else (p₀ a).data, none⟩ := by
  cases φ with
  | voting i ok =>
    obtain ⟨-, hi, -⟩ := h
    simp only [Phase.left] at hleft
    omega
  | deciding commit i acked =>
    obtain ⟨-, hi, -⟩ := h
    simp only [Phase.left] at hleft
    omega
  | done commit =>
    obtain ⟨hout, hcommit, hall⟩ := h
    refine ⟨commit, rfl, hcommit, hout, fun a ha => ?_⟩
    rw [hall a ha]
    cases commit with
    | true => exact told_of_committed ((hcommit.mp rfl).2 a ha)
    | false => exact told_of_aborted

end Cs162Hw.Library.TwoPhase
