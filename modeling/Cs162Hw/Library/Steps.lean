import Mathlib.Data.List.Infix

/-!
# Runs of steps that may have no result

A state changes with each event, or the event has no result, and then the run has none. A condition may be put on
each event and the state it finds (`Along`).

* `Along.run_invariant` — what every event that meets the condition keeps, if it has a result, holds where a run ends.
* `Along.run_total` — if every event that meets the condition has a result, so has the run.
* `Along.simulates` — two systems that take each event together, or neither of them, take a run together.
* `always_iff_along` — where a condition is exactly what keeps a property, the property holds in every state of a run if
  and only if every event of the run meets the condition.
-/

namespace Cs162Hw.Library.Steps

variable {σ ε : Type} (step : σ → ε → Option σ)

/-- The state after the events. -/
def run (s : σ) : List ε → Option σ
  | [] => some s
  | e :: events => (step s e).bind fun s => run s events

/-- Every event meets the condition `P` when it happens. -/
def Along (P : σ → ε → Prop) (s : σ) : List ε → Prop
  | [] => True
  | e :: events => P s e ∧ ∀ s' ∈ step s e, Along P s' events

variable {step} {P Q : σ → ε → Prop} {I G : σ → Prop} {s s' : σ} {e : ε} {events pre post : List ε}

@[simp] theorem run_nil : run step s [] = some s := rfl

theorem run_cons_iff : run step s (e :: events) = some s' ↔ ∃ s₁, step s e = some s₁ ∧ run step s₁ events = some s' :=
  Option.bind_eq_some_iff

/-- Whether every event meets the condition can be computed. -/
instance decidableAlong [∀ s e, Decidable (P s e)] (s : σ) : (events : List ε) → Decidable (Along step P s events)
  | [] => inferInstanceAs (Decidable True)
  | e :: events =>
    have (s' : σ) : Decidable (Along step P s' events) := decidableAlong s' events
    inferInstanceAs (Decidable (P s e ∧ ∀ s' ∈ step s e, Along step P s' events))

/-- What can be told of the events alone, holds along a run as well. -/
theorem Along.and_forall (h : Along step P s events) {R : ε → Prop} (hR : ∀ e ∈ events, R e) :
    Along step (fun s e => P s e ∧ R e) s events := by
  induction events generalizing s with
  | nil => trivial
  | cons e events ih =>
    exact ⟨⟨h.1, hR e List.mem_cons_self⟩, fun s' hs' => ih (h.2 s' hs') fun e' he' => hR e' (List.mem_cons_of_mem _ he')⟩

/-- **The invariant of a run.** -/
theorem Along.run_invariant (h : Along step P s events) (hs : I s)
    (hstep : ∀ {s e s'}, I s → P s e → step s e = some s' → I s') (hrun : run step s events = some s') : I s' := by
  induction events generalizing s with
  | nil => exact Option.some.inj hrun ▸ hs
  | cons e events ih =>
    obtain ⟨s₁, hs₁, hrun⟩ := run_cons_iff.mp hrun
    exact ih (h.2 s₁ hs₁) (hstep hs h.1 hs₁) hrun

/-- **A run has a result**, if each of its events has. -/
theorem Along.run_total (h : Along step P s events) (hs : I s)
    (hstep : ∀ {s e}, I s → P s e → ∃ s', step s e = some s' ∧ I s') : ∃ s', run step s events = some s' ∧ I s' := by
  induction events generalizing s with
  | nil => exact ⟨s, rfl, hs⟩
  | cons e events ih =>
    obtain ⟨s₁, hs₁, hI⟩ := hstep hs h.1
    obtain ⟨s', hrun, hI'⟩ := ih (h.2 s₁ hs₁) hI
    exact ⟨s', run_cons_iff.mpr ⟨s₁, hs₁, hrun⟩, hI'⟩

/-- **Two systems in step.** What relates them before an event relates them after it, unless neither has a result. -/
theorem Along.simulates {τ : Type} {step' : τ → ε → Option τ} {R : σ → τ → Prop} {t : τ} (h : Along step P s events) (hR : R s t)
    (hstep : ∀ {s t e}, R s t → P s e → Option.Rel R (step s e) (step' t e)) :
    Option.Rel R (run step s events) (run step' t events) := by
  induction events generalizing s t with
  | nil => exact .some hR
  | cons e events ih =>
    have hone := hstep hR h.1
    obtain ⟨r, hr⟩ : ∃ r, step s e = r := ⟨_, rfl⟩
    obtain ⟨r', hr'⟩ : ∃ r', step' t e = r' := ⟨_, rfl⟩
    rw [hr, hr'] at hone
    rw [run, run, hr, hr']
    cases hone with
    | none => exact .none
    | some hR₁ => exact ih (h.2 _ hr) hR₁

/-- What the other system keeps on its own may be added to what relates the two. -/
theorem rel_and {τ : Type} {R : σ → τ → Prop} {Q : τ → Prop} {o : Option σ} {o' : Option τ} (h : Option.Rel R o o')
    (hQ : ∀ s t, o = some s → o' = some t → R s t → Q t) : Option.Rel (fun s t => R s t ∧ Q t) o o' := by
  cases h with
  | none => exact .none
  | some hR => exact .some ⟨hR, hQ _ _ rfl rfl hR⟩

/-- **A property in every state**, where the condition `Q` is exactly what keeps it: an event that meets it keeps the
property if it has a result, one that does not has a result without the property. -/
theorem always_iff_along (h : Along step P s events) (hs : I s) (hG : G s)
    (hstep : ∀ {s e s'}, I s → P s e → step s e = some s' → I s')
    (hkeep : ∀ {s e s'}, I s → G s → P s e → Q s e → step s e = some s' → G s')
    (hlose : ∀ {s e}, I s → G s → P s e → ¬ Q s e → ∃ s', step s e = some s' ∧ ¬ G s') :
    (∀ pre s', pre <+: events → run step s pre = some s' → G s') ↔ Along step Q s events := by
  induction events generalizing s with
  | nil =>
    refine iff_of_true (fun pre s' hpre hrun => ?_) trivial
    obtain rfl := List.prefix_nil.mp hpre
    exact Option.some.inj hrun ▸ hG
  | cons e events ih =>
    constructor
    · intro hall
      have hone : ∀ s₁, step s e = some s₁ → G s₁ := fun s₁ hs₁ =>
        hall [e] s₁ (List.cons_prefix_cons.mpr ⟨rfl, List.nil_prefix⟩) (run_cons_iff.mpr ⟨s₁, hs₁, rfl⟩)
      constructor
      · by_contra hQ
        obtain ⟨s₁, hs₁, hnot⟩ := hlose hs hG h.1 hQ
        exact hnot (hone s₁ hs₁)
      · intro s₁ hs₁
        refine (ih (h.2 s₁ hs₁) (hstep hs h.1 hs₁) (hone s₁ hs₁)).mp fun pre s' hpre hrun => ?_
        exact hall (e :: pre) s' (List.cons_prefix_cons.mpr ⟨rfl, hpre⟩) (run_cons_iff.mpr ⟨s₁, hs₁, hrun⟩)
    · rintro ⟨hQ, hrest⟩ pre s' hpre hrun
      cases pre with
      | nil => exact Option.some.inj hrun ▸ hG
      | cons e' pre =>
        obtain ⟨rfl, hpost⟩ := List.cons_prefix_cons.mp hpre
        obtain ⟨s₁, hs₁, hrun⟩ := run_cons_iff.mp hrun
        exact (ih (h.2 s₁ hs₁) (hstep hs h.1 hs₁) (hkeep hs hG h.1 hQ hs₁)).mpr (hrest s₁ hs₁) pre s' hpost hrun

end Cs162Hw.Library.Steps
