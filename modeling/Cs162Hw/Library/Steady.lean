import Cs162Hw.Library.TwoPhase

/-!
# Two-phase commit when nothing fails

A transaction of `TwoPhase` all of whose exchanges are answered. Where it stands says what every participant
holds, what the decision is, and how many exchanges are left.

* `Unanimous`: the decision is to commit if every participant agrees, and none is a replica twice.
* `Steady`: what they hold. `Steady.start` — it holds when nothing is pending; **`Steady.exchange`** — every
  exchange that is answered keeps it.
* `Phase.left`: how many exchanges are left; `Steady.left_exchange` — one less after each of them.
* `Steady.data`: whose data the operation has been applied to.
-/

namespace Cs162Hw.Library.TwoPhase

open Operations

variable {ι Op σ : Type} [Operations Op σ]

section

variable (d₀ : ι → σ) (op : Op)

/-- All of them vote yes: they would agree, and none is asked twice. -/
def Unanimous (rs : List ι) : Prop := rs.Nodup ∧ ∀ a ∈ rs, check op (d₀ a) = true

/-- Has voted, and not heard of the decision. -/
def voted (a : ι) : Participant Op σ := if check op (d₀ a) then prepared d₀ op a else idle d₀ a

/-- What the participants hold when the coordinator is in the phase `φ`. -/
def Steady (rs : List ι) (φ : Phase) (net : ι → Participant Op σ) : Prop :=
  (∀ a, a ∉ rs → net a = idle d₀ a) ∧
  match φ with
  | .voting i ok => i < rs.length ∧ (ok = true ↔ Unanimous d₀ op (rs.take i)) ∧
      (∀ a ∈ rs.take i, net a = voted d₀ op a) ∧ ∀ a, a ∉ rs.take i → net a = idle d₀ a
  | .deciding commit i acked => i < rs.length ∧ acked = true ∧ (commit = true ↔ Unanimous d₀ op rs) ∧
      (∀ a ∈ rs.take i, net a = settled d₀ op commit a) ∧ ∀ a ∈ rs, a ∉ rs.take i → net a = voted d₀ op a
  | .done commit => (commit = true ↔ Unanimous d₀ op rs) ∧ ∀ a ∈ rs, net a = settled d₀ op commit a

end

namespace Phase

/-- How many exchanges with `n` replicas are left. -/
def left (n : ℕ) : Phase → ℕ
  | voting i _ => n - i + n
  | deciding _ i _ => n - i
  | done _ => 0

/-- How many of `n` replicas have heard of the decision. -/
def heard (n : ℕ) : Phase → ℕ
  | voting _ _ => 0
  | deciding _ i _ => i
  | done _ => n

end Phase

variable {d₀ : ι → σ} {op : Op} {rs : List ι} {φ : Phase} {net : ι → Participant Op σ}

/-- What one that has voted does with the decision. -/
theorem receive_decision_voted {commit : Bool} {a : ι} (h : commit = true → check op (d₀ a) = true) :
    (voted d₀ op a).receive (decision commit) = (true, settled d₀ op commit a) := by
  unfold voted
  split_ifs with hc
  · exact receive_decision_prepared commit a
  · obtain rfl : commit = false := by
      cases commit with
      | false => rfl
      | true => exact absurd (h rfl) hc
    exact receive_decision_of_none false rfl

/-- Those up to one vote yes if those before it do, and it is asked for the first time and agrees. -/
theorem unanimous_take_succ {i : ℕ} {a : ι} (h : rs[i]? = some a) : Unanimous d₀ op (rs.take (i + 1)) ↔
    Unanimous d₀ op (rs.take i) ∧ a ∉ rs.take i ∧ check op (d₀ a) = true := by
  have hall : (∀ b ∈ rs.take (i + 1), check op (d₀ b) = true) ↔
      (∀ b ∈ rs.take i, check op (d₀ b) = true) ∧ check op (d₀ a) = true := by
    simp only [mem_take_succ h, or_imp, forall_and, forall_eq]
  rw [Unanimous, Unanimous, nodup_take_succ h, hall]
  tauto

/-- With nothing pending anywhere a transaction can start. -/
theorem Steady.start (h : ∀ a, net a = idle d₀ a) : Steady d₀ op rs (.afterVotes rs.length 0 true) net := by
  unfold Phase.afterVotes
  split_ifs with hpos
  · exact ⟨fun a _ => h a, hpos, by simp [Unanimous], by simp, fun a _ => h a⟩
  · obtain rfl : rs = [] := List.length_eq_zero_iff.mp (by omega)
    exact ⟨fun a _ => h a, by simp [Unanimous], by simp⟩

/-- Where it stands at the start. -/
theorem Phase.left_start {n : ℕ} : (Phase.afterVotes n 0 true).left n = 2 * n := by
  unfold Phase.afterVotes
  split_ifs with h
  · simp only [left]
    omega
  · simp only [left]
    omega

/-- As long as exchanges are left, there is a next one. -/
theorem Steady.index (h : Steady d₀ op rs φ net) (hleft : 0 < φ.left rs.length) : ∃ i, φ.index = some i ∧ i < rs.length := by
  cases φ with
  | voting i ok => exact ⟨i, rfl, h.2.1⟩
  | deciding commit i acked => exact ⟨i, rfl, h.2.1⟩
  | done commit => exact absurd hleft (Nat.lt_irrefl 0)

/-- When none is left, the transaction is done. -/
theorem Steady.eq_done (h : Steady d₀ op rs φ net) (hleft : φ.left rs.length = 0) :
    ∃ commit, φ = .done commit := by
  cases φ with
  | voting i ok =>
    obtain ⟨-, hi, -⟩ := h
    simp only [Phase.left] at hleft
    omega
  | deciding commit i acked =>
    obtain ⟨-, hi, -⟩ := h
    simp only [Phase.left] at hleft
    omega
  | done commit => exact ⟨commit, rfl⟩

/-- A decision to commit was unanimous. -/
theorem Steady.unanimous (h : Steady d₀ op rs φ net) (hdecided : φ.decided = some true) : Unanimous d₀ op rs := by
  obtain ⟨-, h⟩ := h
  cases φ with
  | voting i ok => cases hdecided
  | deciding commit i acked => exact h.2.2.1.mp (Option.some.inj hdecided)
  | done commit => exact h.1.mp (Option.some.inj hdecided)

variable [DecidableEq ι]

/-- **The next exchange.** It is answered, and the participants hold what they hold in the phase that follows. -/
theorem Steady.exchange (h : Steady d₀ op rs φ net) {i : ℕ} (hi : φ.index = some i) {a : ι}
    (ha : rs[i]? = some a) {m : Message Op} (hm : φ.message op = some m) :
    Steady d₀ op rs (φ.resume rs.length (Outcome.answered.reply ((net a).receive m).1)) (deliver .answered m a net) := by
  have hmem : a ∈ rs := List.mem_of_getElem? ha
  obtain ⟨hout, h⟩ := h
  have hout' : ∀ b, b ∉ rs → deliver .answered m a net b = idle d₀ b := by
    intro b hb
    rw [deliver_of_ne (by rintro rfl; exact hb hmem), hout b hb]
  have hself : deliver .answered m a net a = ((net a).receive m).2 := deliver_self
  cases φ with
  | voting j ok =>
    obtain rfl : j = i := Option.some.inj hi
    obtain rfl : Message.prepare op = m := Option.some.inj hm
    obtain ⟨hlt, hok, htake, hrest⟩ := h
    obtain ⟨hvote, hnext⟩ : (((net a).receive (.prepare op)).1 = true ↔ a ∉ rs.take j ∧ check op (d₀ a) = true) ∧
        ((net a).receive (.prepare op)).2 = voted d₀ op a := by
      by_cases hasked : a ∈ rs.take j
      · rw [htake a hasked, voted]
        split_ifs with hc
        · exact ⟨iff_of_false (by simp [prepared, Participant.receive]) fun h => h.1 hasked, rfl⟩
        · rw [receive_prepare_idle, if_neg hc]
          exact ⟨iff_of_false (by simp) fun h => h.1 hasked, rfl⟩
      · rw [hrest a hasked, receive_prepare_idle, voted]
        split_ifs with hc
        · exact ⟨iff_of_true rfl ⟨hasked, hc⟩, rfl⟩
        · exact ⟨iff_of_false (by simp) fun h => hc h.2, rfl⟩
    have hvotes : (ok && ((net a).receive (.prepare op)).1) = true ↔ Unanimous d₀ op (rs.take (j + 1)) := by
      rw [unanimous_take_succ ha, Bool.and_eq_true, hok, hvote]
    have htake' : ∀ b ∈ rs.take (j + 1), deliver .answered (.prepare op) a net b = voted d₀ op b := by
      intro b hb
      by_cases hba : b = a
      · rw [hba, hself, hnext]
      · rw [deliver_of_ne hba]
        exact htake b (((mem_take_succ ha).mp hb).resolve_right hba)
    have hrest' : ∀ b, b ∉ rs.take (j + 1) → deliver .answered (.prepare op) a net b = idle d₀ b := by
      intro b hb
      rw [mem_take_succ ha, not_or] at hb
      rw [deliver_of_ne hb.2]
      exact hrest b hb.1
    show Steady d₀ op rs (.afterVotes rs.length (j + 1) (ok && ((net a).receive (.prepare op)).1)) _
    unfold Phase.afterVotes
    split_ifs with hmore hpos
    · exact ⟨hout', hmore, hvotes, htake', hrest'⟩
    · rw [List.take_of_length_le (by omega)] at hvotes htake'
      exact ⟨hout', hpos, rfl, hvotes, by simp, fun b hb _ => htake' b hb⟩
    · omega
  | deciding commit j acked =>
    obtain rfl : j = i := Option.some.inj hi
    obtain rfl : decision commit = m := Option.some.inj hm
    obtain ⟨hlt, hacked, hcommit, htake, hrest⟩ := h
    have hreceive : (net a).receive (decision commit) = (true, settled d₀ op commit a) := by
      by_cases htold : a ∈ rs.take j
      · rw [htake a htold, receive_decision_settled]
      · rw [hrest a hmem htold]
        exact receive_decision_voted fun hc => (hcommit.mp hc).2 a hmem
    have htake' : ∀ b ∈ rs.take (j + 1), deliver .answered (decision commit) a net b = settled d₀ op commit b := by
      intro b hb
      by_cases hba : b = a
      · rw [hba, hself, hreceive]
      · rw [deliver_of_ne hba]
        exact htake b (((mem_take_succ ha).mp hb).resolve_right hba)
    have hrest' : ∀ b ∈ rs, b ∉ rs.take (j + 1) → deliver .answered (decision commit) a net b = voted d₀ op b := by
      intro b hb hnot
      rw [mem_take_succ ha, not_or] at hnot
      rw [deliver_of_ne hnot.2]
      exact hrest b hb hnot.1
    rw [hreceive]
    show Steady d₀ op rs (.afterAcks rs.length commit (j + 1) (acked && true)) _
    rw [hacked]
    unfold Phase.afterAcks
    split_ifs with hnext
    · exact ⟨hout', hnext, rfl, hcommit, htake', hrest'⟩
    · rw [List.take_of_length_le (by omega)] at htake'
      exact ⟨hout', hcommit, htake'⟩
    · exact absurd rfl ‹¬ (true && true) = true›
  | done commit => cases hi

omit [DecidableEq ι] in
/-- It is one exchange less. -/
theorem Steady.left_exchange (h : Steady d₀ op rs φ net) {i : ℕ} (hi : φ.index = some i) {a : ι} {m : Message Op}
    (hm : φ.message op = some m) :
    (φ.resume rs.length (Outcome.answered.reply ((net a).receive m).1)).left rs.length + 1 = φ.left rs.length := by
  obtain ⟨-, h⟩ := h
  cases φ with
  | voting j ok =>
    have hlt := h.1
    show (Phase.afterVotes rs.length (j + 1) _).left rs.length + 1 = rs.length - j + rs.length
    unfold Phase.afterVotes
    split_ifs with hnext hpos <;> simp only [Phase.left] <;> omega
  | deciding commit j acked =>
    obtain rfl : decision commit = m := Option.some.inj hm
    obtain ⟨hlt, hacked, -⟩ := h
    show (Phase.afterAcks rs.length commit (j + 1) (acked && ((net a).receive (decision commit)).1)).left rs.length + 1 =
      rs.length - j
    rw [receive_decision_fst, hacked]
    unfold Phase.afterAcks
    split_ifs with hnext
    · simp only [Phase.left]
      omega
    · simp only [Phase.left]
      omega
    · exact absurd rfl ‹¬ (true && true) = true›
  | done commit => cases hi

omit [DecidableEq ι] in
/-- If the replica was told the decision, that is one more. -/
theorem Steady.heard_exchange (h : Steady d₀ op rs φ net) {i : ℕ} (hi : φ.index = some i) {a : ι} {m : Message Op}
    (hm : φ.message op = some m) :
    (φ.resume rs.length (Outcome.answered.reply ((net a).receive m).1)).heard rs.length =
      if φ.decided.isSome then φ.heard rs.length + 1 else 0 := by
  obtain ⟨-, h⟩ := h
  cases φ with
  | voting j ok =>
    have hlt := h.1
    show (Phase.afterVotes rs.length (j + 1) _).heard rs.length = 0
    unfold Phase.afterVotes
    split_ifs with hnext hpos
    · rfl
    · rfl
    · omega
  | deciding commit j acked =>
    obtain rfl : decision commit = m := Option.some.inj hm
    obtain ⟨hlt, hacked, -⟩ := h
    show (Phase.afterAcks rs.length commit (j + 1) (acked && ((net a).receive (decision commit)).1)).heard rs.length = j + 1
    rw [receive_decision_fst, hacked]
    unfold Phase.afterAcks
    split_ifs with hnext
    · rfl
    · exact (show rs.length = j + 1 by omega)
    · exact absurd rfl ‹¬ (true && true) = true›
  | done commit => cases hi

/-- The operation has been applied by those that have heard of the decision, if that is to commit. -/
theorem Steady.data (h : Steady d₀ op rs φ net) (a : ι) : (net a).data =
    if φ.decided = some true ∧ a ∈ rs.take (φ.heard rs.length) then apply op (d₀ a) else d₀ a := by
  have hsettled : ∀ commit, (settled d₀ op commit a).data = if commit = true then apply op (d₀ a) else d₀ a :=
    fun _ => rfl
  have hvoted : (voted d₀ op a).data = d₀ a := by
    unfold voted
    split_ifs <;> rfl
  obtain ⟨hout, h⟩ := h
  cases φ with
  | voting i ok =>
    obtain ⟨-, -, htake, hrest⟩ := h
    rw [if_neg (by rintro ⟨h, -⟩; cases h)]
    by_cases ha : a ∈ rs.take i
    · rw [htake a ha, hvoted]
    · rw [hrest a ha]
      rfl
  | deciding commit i acked =>
    obtain ⟨-, -, -, htake, hrest⟩ := h
    simp only [Phase.decided, Phase.heard, Option.some.injEq]
    by_cases ha : a ∈ rs.take i
    · rw [htake a ha, hsettled]
      simp [ha]
    · rw [if_neg fun hc => ha hc.2]
      by_cases hmem : a ∈ rs
      · rw [hrest a hmem ha, hvoted]
      · rw [hout a hmem]
        rfl
  | done commit =>
    obtain ⟨-, hall⟩ := h
    simp only [Phase.decided, Phase.heard, Option.some.injEq, List.take_length]
    by_cases ha : a ∈ rs
    · rw [hall a ha, hsettled]
      simp [ha]
    · rw [if_neg fun hc => ha hc.2, hout a ha]
      rfl

end Cs162Hw.Library.TwoPhase
