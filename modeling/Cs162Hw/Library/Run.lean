import Mathlib.Data.List.Infix

/-!
# Runs

A system that goes from one state to the next with every event: `step s e` is the state after `e`, and
`run step s events` the one after all of `events`.

* `Along step P s events` — every event of the run meets a condition, which may look at the state in which
  the event finds the system. `Along.invariant` is the induction over such runs.
* `along_congr` — two conditions may be the same in the states that such a run gets to, and only there.
* `along_iff_of_probe` — a condition that is exactly what is asked of a run and of everything it may go on by.
* `always_iff_along` — where the condition is exactly what keeps an invariant, the invariant holds in every
  state of a run if and only if the run meets the condition.
-/

namespace Cs162Hw.Library

section Run

variable {σ ε : Type} (step : σ → ε → σ)

/-- The state after the events. -/
def run (s : σ) (events : List ε) : σ := events.foldl step s

/-- Every event of the run meets the condition `P`. -/
def Along (P : σ → ε → Prop) : σ → List ε → Prop
  | _, [] => True
  | s, e :: events => P s e ∧ Along P (step s e) events

variable {step} {P : σ → ε → Prop} {I : σ → Prop} {s : σ} {e : ε} {events pre post : List ε}

@[simp] theorem run_nil : run step s [] = s := rfl

@[simp] theorem run_cons : run step s (e :: events) = run step (step s e) events := rfl

theorem run_append : run step s (pre ++ post) = run step (run step s pre) post := List.foldl_append ..

theorem along_append : Along step P s (pre ++ post) ↔ Along step P s pre ∧ Along step P (run step s pre) post := by
  induction pre generalizing s with
  | nil => exact (and_iff_right trivial).symm
  | cons e pre ih => rw [List.cons_append, Along, Along, ih, run_cons, and_assoc]

/-- **The invariant of a run**: what every event that meets the condition keeps. -/
theorem Along.invariant (h : Along step P s events) (hs : I s) (hstep : ∀ {s e}, I s → P s e → I (step s e)) :
    I (run step s events) := by
  induction events generalizing s with
  | nil => exact hs
  | cons e events ih => exact ih h.2 (hstep hs h.1)

/-- What meets a condition in every state, meets it in any run. -/
theorem along_of_forall (h : ∀ e ∈ events, ∀ s, P s e) : Along step P s events := by
  induction events generalizing s with
  | nil => trivial
  | cons e events ih => exact ⟨h e List.mem_cons_self s, ih fun e' he' => h e' (List.mem_cons_of_mem _ he')⟩

/-- A condition that keeps an invariant, and with it implies another. -/
theorem Along.imp {Q : σ → ε → Prop} (h : Along step P s events) (hs : I s)
    (hstep : ∀ {s e}, I s → P s e → Q s e ∧ I (step s e)) : Along step Q s events := by
  induction events generalizing s with
  | nil => trivial
  | cons e events ih => exact ⟨(hstep hs h.1).1, ih h.2 (hstep hs h.1).2⟩

/-- Two conditions that are the same where an invariant holds, if one of them keeps it. -/
theorem along_congr {Q : σ → ε → Prop} (hs : I s) (hiff : ∀ {s e}, I s → e ∈ events → (Q s e ↔ P s e))
    (hstep : ∀ {s e}, I s → e ∈ events → P s e → I (step s e)) : Along step Q s events ↔ Along step P s events := by
  induction events generalizing s with
  | nil => exact Iff.rfl
  | cons e events ih =>
    rw [Along, Along, hiff hs List.mem_cons_self]
    refine and_congr_right fun hP => ih (hstep hs List.mem_cons_self hP) ?_ ?_
    · exact fun hs he => hiff hs (List.mem_cons_of_mem _ he)
    · exact fun hs he => hstep hs (List.mem_cons_of_mem _ he)

/-- **A condition that is found out**: if what meets it does as is asked (`Q`), and what does not is found out, at once or
by events that go on from there, then a run meets it exactly if it does as is asked wherever it goes on from any of its
states. The events that it may go on by, meet the condition themselves. -/
theorem along_iff_of_probe {Q : σ → ε → Prop} {More : ε → Prop} (hs : I s)
    (hkeep : ∀ {s e}, I s → P s e → Q s e ∧ I (step s e))
    (hprobe : ∀ {s e}, I s → ¬ P s e → ∃ more, (∀ e ∈ more, More e) ∧ ¬ Along step Q s (e :: more))
    (hmore : ∀ e, More e → ∀ s, P s e) :
    (∀ pre more, pre <+: events → (∀ e ∈ more, More e) → Along step Q s (pre ++ more)) ↔ Along step P s events := by
  constructor
  · intro h
    induction events generalizing s with
    | nil => trivial
    | cons e events ih =>
      have hP : P s e := by
        by_contra hP
        obtain ⟨more, hall, hnot⟩ := hprobe hs hP
        exact hnot (h [e] more (List.cons_prefix_cons.mpr ⟨rfl, List.nil_prefix⟩) hall)
      exact ⟨hP, ih (hkeep hs hP).2 fun pre more hpre hall => (h (e :: pre) more (List.cons_prefix_cons.mpr ⟨rfl, hpre⟩) hall).2⟩
  · rintro h pre more ⟨post, rfl⟩ hall
    have hP := along_append.mpr ⟨(along_append.mp h).1, along_of_forall fun e he => hmore e (hall e he)⟩
    exact hP.imp hs hkeep

/-- **The invariant in every state**, where the condition is exactly what keeps it. -/
theorem always_iff_along (hs : I s) (hstep : ∀ {s e}, I s → (I (step s e) ↔ P s e)) :
    (∀ pre, pre <+: events → I (run step s pre)) ↔ Along step P s events := by
  constructor
  · intro h
    induction events generalizing s with
    | nil => trivial
    | cons e events ih =>
      have hnext : I (step s e) := h [e] (List.cons_prefix_cons.mpr ⟨rfl, List.nil_prefix⟩)
      exact ⟨(hstep hs).mp hnext, ih hnext fun pre hpre => h (e :: pre) (List.cons_prefix_cons.mpr ⟨rfl, hpre⟩)⟩
  · rintro h pre ⟨post, rfl⟩
    exact (along_append.mp h).1.invariant hs fun hs hP => (hstep hs).mpr hP

end Run

end Cs162Hw.Library
