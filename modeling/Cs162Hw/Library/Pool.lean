import Cs162Hw.Library.Program

/-!
# Pools of threads

Any number of threads, each running the program `handler r` of a request `r` on one shared
state, one atomic step of one thread at a time. `Pool.step` is one event: a request
arrives, or a thread takes its next step.

When no thread starts while another is under way (`Exclusive`), nobody is disturbed, and
the pool does what handling the requests one after the other does, in the order in which
they finish: `Pool.serial`. A request that only takes one look at the state (`peeks`) may
come at any time; what it is told is not constrained here.
-/

namespace Cs162Hw.Library

open Program

variable {Op σ ρ α : Type}

/-- A thread, on its way through the program of its request. -/
structure Thread (Op σ ρ α : Type) where
  /-- What it is to do. -/
  request : ρ
  /-- What is left of it. -/
  program : Program Op σ α
  /-- Has it taken a step? -/
  started : Bool

/-- Has the program a step to take? -/
def Program.running : Program Op σ α → Bool
  | .step _ _ => true
  | _ => false

/-- Is the thread under way? -/
def Thread.active (w : Thread Op σ ρ α) : Bool := w.started && w.program.running

/-- The shared state, the threads, and the answers given, latest first. -/
structure Pool (Op σ ρ α : Type) where
  /-- The shared state. -/
  shared : σ
  /-- The threads, in the order of their arrival. -/
  threads : List (Thread Op σ ρ α)
  /-- The requests that were answered, and the answers. -/
  finished : List (ρ × α)

/-- What happens to a pool. -/
inductive PoolEvent (ρ : Type) where
  /-- A request arrives, and a thread for it. -/
  | arrive (r : ρ)
  /-- The thread `i` takes its next step. -/
  | advance (i : ℕ)

namespace Pool

variable [Effect Op σ] (handler : ρ → Program Op σ α)

/-- The thread `w`, at place `i`, takes its step. -/
def advanceThread (f : Pool Op σ ρ α) (i : ℕ) (w : Thread Op σ ρ α) : Pool Op σ ρ α :=
  if w.program.running then
    let (program, shared) := w.program.advance f.shared
    ⟨shared, f.threads.set i { w with program := program, started := true },
      match program with
      | .ret a => (w.request, a) :: f.finished
      | _ => f.finished⟩
  else f

/-- One event. -/
def step (f : Pool Op σ ρ α) : PoolEvent ρ → Pool Op σ ρ α
  | .arrive r => { f with threads := f.threads ++ [⟨r, handler r, false⟩] }
  | .advance i =>
    match f.threads[i]? with
    | none => f
    | some w => f.advanceThread i w

/-- A sequence of events. -/
def run (f : Pool Op σ ρ α) (events : List (PoolEvent ρ)) : Pool Op σ ρ α := events.foldl (step handler) f

/-- A pool before any request. -/
def start (s : σ) : Pool Op σ ρ α := ⟨s, [], []⟩

/-- No thread is under way. -/
def Idle (f : Pool Op σ ρ α) : Prop := ∀ w ∈ f.threads, w.active = false

variable (peeks : ρ → Prop)

/-- If a thread starts with the event, no other is under way, or it only takes a look. -/
def Exclusive (f : Pool Op σ ρ α) : PoolEvent ρ → Prop
  | .arrive _ => True
  | .advance i => ∀ w ∈ f.threads[i]?, w.started = false → w.program.running = true → ¬ peeks w.request → f.Idle

/-- So it is at every event. -/
def ExclusiveRun : Pool Op σ ρ α → List (PoolEvent ρ) → Prop
  | _, [] => True
  | f, e :: events => f.Exclusive peeks e ∧ ExclusiveRun (f.step handler e) events

instance (f : Pool Op σ ρ α) : Decidable f.Idle := inferInstanceAs (Decidable (∀ _ ∈ _, _))

instance [DecidablePred peeks] (f : Pool Op σ ρ α) (e : PoolEvent ρ) : Decidable (f.Exclusive peeks e) :=
  match e with
  | .arrive _ => .isTrue trivial
  | .advance _ => inferInstanceAs (Decidable (∀ _ ∈ _, _ → _ → _ → _))

/-- Whether it is so can be computed. -/
def decideExclusiveRun [DecidablePred peeks] (f : Pool Op σ ρ α) :
    (events : List (PoolEvent ρ)) → Decidable (ExclusiveRun handler peeks f events)
  | [] => .isTrue trivial
  | e :: events =>
    have := decideExclusiveRun (f.step handler e) events
    inferInstanceAs (Decidable (_ ∧ _))

instance [DecidablePred peeks] (f : Pool Op σ ρ α) (events : List (PoolEvent ρ)) :
    Decidable (ExclusiveRun handler peeks f events) := decideExclusiveRun handler peeks f events

/-- From `s₀`, handling requests one after the other gives these answers, latest first, and leaves that
state. -/
inductive Serial (s₀ : σ) : List (ρ × α) → σ → Prop where
  /-- Nothing was asked. -/
  | nil : Serial s₀ [] s₀
  /-- A request was handled. -/
  | handled {past : List (ρ × α)} {s t : σ} {r : ρ} {a : α} :
    Serial s₀ past s → ¬ peeks r → (handler r).run s = (some a, t) → Serial s₀ ((r, a) :: past) t
  /-- A request was handled by a thread that died. -/
  | died {past : List (ρ × α)} {s t : σ} {r : ρ} :
    Serial s₀ past s → ¬ peeks r → (handler r).run s = (none, t) → Serial s₀ past t
  /-- Somebody took a look, now or earlier. -/
  | peeked {past : List (ρ × α)} {s s' : σ} {r : ρ} {a : α} :
    Serial s₀ past s → peeks r → (handler r).run s' = (some a, s') → Serial s₀ ((r, a) :: past) s

/-- What a pool looks like whose threads keep out of each other's way. -/
structure Inv (s₀ : σ) (f : Pool Op σ ρ α) : Prop where
  /-- A thread that has not started has everything before it. -/
  fresh : ∀ w ∈ f.threads, w.started = false → w.program = handler w.request
  /-- The state is the serial one, or some one thread is on its way from there. -/
  serial : ∃ s, Serial handler peeks s₀ f.finished s ∧
    ((f.Idle ∧ f.shared = s) ∨
      ∃ (i : ℕ) (w : Thread Op σ ρ α), f.threads[i]? = some w ∧ ¬ peeks w.request ∧ w.active = true ∧
        (∀ (j : ℕ) (v : Thread Op σ ρ α), f.threads[j]? = some v → j ≠ i → v.active = false) ∧
        w.program.run f.shared = (handler w.request).run s)

variable {handler peeks} {s₀ : σ} {f : Pool Op σ ρ α}

theorem start_inv (s₀ : σ) : Inv handler peeks s₀ (start s₀) :=
  ⟨fun _ h => (List.not_mem_nil h).elim, s₀, .nil, Or.inl ⟨fun _ h => (List.not_mem_nil h).elim, rfl⟩⟩

/-- A request that arrives disturbs nobody. -/
theorem Inv.arrive (h : Inv handler peeks s₀ f) (r : ρ) : Inv handler peeks s₀ (f.step handler (.arrive r)) := by
  obtain ⟨s, hs, hcases⟩ := h.serial
  refine ⟨fun w hw hfresh => ?_, s, hs, ?_⟩
  · rcases List.mem_append.mp hw with hw | hw
    · exact h.fresh w hw hfresh
    · rw [List.mem_singleton.mp hw]
  · rcases hcases with ⟨hidle, hshared⟩ | ⟨i, w, hi, hp, ha, hothers, hrun⟩
    · refine Or.inl ⟨fun w hw => ?_, hshared⟩
      rcases List.mem_append.mp hw with hw | hw
      · exact hidle w hw
      · rw [List.mem_singleton.mp hw]; rfl
    · have hlt := (List.getElem?_eq_some_iff.mp hi).1
      refine Or.inr ⟨i, w, by rw [step, List.getElem?_append_left hlt, hi], hp, ha, fun j v hv hji => ?_, hrun⟩
      rw [step, List.getElem?_append] at hv
      split_ifs at hv with hj
      · exact hothers j v hv hji
      · rw [List.mem_singleton.mp (List.mem_of_getElem? hv)]
        rfl

omit [Effect Op σ] in
/-- Whoever is in the list after a change at `i` was there before, or is the one that was put in. -/
theorem mem_set_cases {l : List (Thread Op σ ρ α)} {i : ℕ} {w v : Thread Op σ ρ α} (h : v ∈ l.set i w) :
    v ∈ l ∨ v = w := List.mem_or_eq_of_mem_set h

/-- The step of a thread that nobody disturbs. -/
theorem Inv.progress (h : Inv handler peeks s₀ f) {i : ℕ} {w : Thread Op σ ρ α} (hi : f.threads[i]? = some w) {s : σ}
    (hs : Serial handler peeks s₀ f.finished s) (hp : ¬ peeks w.request) {o : Option Op} {k : σ → Program Op σ α}
    (hw : w.program = .step o k) (hothers : ∀ (j : ℕ) (v : Thread Op σ ρ α), f.threads[j]? = some v → j ≠ i → v.active = false)
    (hrun : w.program.run f.shared = (handler w.request).run s) : Inv handler peeks s₀ (f.advanceThread i w) := by
  have hlt := (List.getElem?_eq_some_iff.mp hi).1
  have hrun' : (k f.shared).run (execStep o f.shared) = (handler w.request).run s := by
    rw [← hrun, hw]
    rfl
  set w' : Thread Op σ ρ α := { w with program := k f.shared, started := true } with hw'
  have hfresh : ∀ v ∈ f.threads.set i w', v.started = false → v.program = handler v.request := by
    intro v hv hstarted
    rcases mem_set_cases hv with hv | rfl
    · exact h.fresh v hv hstarted
    · cases hstarted
  have hinactive : ∀ (j : ℕ) (v : Thread Op σ ρ α), (f.threads.set i w')[j]? = some v → j ≠ i → v.active = false := by
    intro j v hv hji
    rw [List.getElem?_set_ne (Ne.symm hji)] at hv
    exact hothers j v hv hji
  have hidle : w'.active = false → ∀ v ∈ f.threads.set i w', v.active = false := by
    intro hend v hv
    obtain ⟨j, hj⟩ := List.mem_iff_getElem?.mp hv
    by_cases hji : j = i
    · subst hji
      rw [List.getElem?_set_self hlt] at hj
      rw [← Option.some.inj hj]
      exact hend
    · exact hinactive j v hj hji
  simp only [advanceThread, hw, Program.running, if_true, Program.advance]
  cases hk : k f.shared with
  | ret a =>
    rw [hk] at hrun'
    refine ⟨hk ▸ hfresh, _, .handled hs hp hrun'.symm, Or.inl ⟨?_, rfl⟩⟩
    have := hidle (by simp [hw', Thread.active, hk, Program.running])
    rwa [hw', hk] at this
  | fault =>
    rw [hk] at hrun'
    refine ⟨hk ▸ hfresh, _, .died hs hp hrun'.symm, Or.inl ⟨?_, rfl⟩⟩
    have := hidle (by simp [hw', Thread.active, hk, Program.running])
    rwa [hw', hk] at this
  | step o' k' =>
    refine ⟨hk ▸ hfresh, s, hs, Or.inr ⟨i, w', ?_, hp, ?_, ?_, ?_⟩⟩
    · rw [← hk]
      exact List.getElem?_set_self hlt
    · simp [hw', Thread.active, hk, Program.running]
    · rw [← hk]
      exact hinactive
    · exact hrun'

/-- A look at the state. -/
theorem Inv.peek (h : Inv handler peeks s₀ f) {i : ℕ} {w : Thread Op σ ρ α} (hi : f.threads[i]? = some w)
    (hfresh : w.started = false) (hp : peeks w.request) {g : σ → α}
    (hg : handler w.request = .step none fun s => .ret (g s)) : Inv handler peeks s₀ (f.advanceThread i w) := by
  have hlt := (List.getElem?_eq_some_iff.mp hi).1
  have hprogram : w.program = .step none fun s => .ret (g s) := (h.fresh w (List.mem_of_getElem? hi) hfresh).trans hg
  have hlook : (handler w.request).run f.shared = (some (g f.shared), f.shared) := by rw [hg]; rfl
  obtain ⟨s, hs, hcases⟩ := h.serial
  simp only [advanceThread, hprogram, Program.running, if_true, Program.advance, execStep]
  refine ⟨fun v hv hstarted => ?_, s, .peeked hs hp hlook, ?_⟩
  · rcases mem_set_cases hv with hv | rfl
    · exact h.fresh v hv hstarted
    · cases hstarted
  · rcases hcases with ⟨hidle, hshared⟩ | ⟨j, v, hj, hpv, ha, hothers, hrun⟩
    · refine Or.inl ⟨fun v hv => ?_, hshared⟩
      rcases mem_set_cases hv with hv | rfl
      · exact hidle v hv
      · rfl
    · -- the one under way is another
      have hji : j ≠ i := by
        rintro rfl
        obtain rfl := Option.some.inj (hi.symm.trans hj)
        simp [Thread.active, hfresh] at ha
      refine Or.inr ⟨j, v, by rw [List.getElem?_set_ne (Ne.symm hji), hj], hpv, ha, fun m u hu hmj => ?_, hrun⟩
      by_cases hmi : m = i
      · subst hmi
        rw [List.getElem?_set_self hlt] at hu
        rw [← Option.some.inj hu]
        rfl
      · rw [List.getElem?_set_ne (Ne.symm hmi)] at hu
        exact hothers m u hu hmj

theorem Inv.step (h : Inv handler peeks s₀ f) (hpeeks : ∀ r, peeks r → ∃ g : σ → α, handler r = .step none fun s => .ret (g s))
    {e : PoolEvent ρ} (he : f.Exclusive peeks e) : Inv handler peeks s₀ (f.step handler e) := by
  cases e with
  | arrive r => exact h.arrive r
  | advance i =>
    rw [Pool.step]
    cases hi : f.threads[i]? with
    | none => exact h
    | some w =>
      show Inv handler peeks s₀ (f.advanceThread i w)
      cases hprogram : w.program with
      | ret a => simpa [advanceThread, hprogram, Program.running] using h
      | fault => simpa [advanceThread, hprogram, Program.running] using h
      | step o k =>
        have hmem := List.mem_of_getElem? hi
        by_cases hstarted : w.started = true
        · -- it is the one under way
          have ha : w.active = true := by simp [Thread.active, hstarted, hprogram, Program.running]
          obtain ⟨s, hs, ⟨hidle, -⟩ | ⟨j, v, hj, hpv, hav, hothers, hrun⟩⟩ := h.serial
          · rw [hidle w hmem] at ha
            cases ha
          · have hij : i = j := by
              by_contra hne
              rw [hothers i w hi hne] at ha
              cases ha
            subst hij
            obtain rfl := Option.some.inj (hi.symm.trans hj)
            exact h.progress hi hs hpv hprogram hothers hrun
        · rw [Bool.not_eq_true] at hstarted
          by_cases hp : peeks w.request
          · obtain ⟨g, hg⟩ := hpeeks _ hp
            exact h.peek hi hstarted hp hg
          · have hidle := he w hi hstarted (by rw [hprogram]; rfl) hp
            obtain ⟨s, hs, ⟨-, rfl⟩ | ⟨j, v, hj, -, hav, -⟩⟩ := h.serial
            · exact h.progress hi hs hp hprogram (fun j v hj _ => hidle v (List.mem_of_getElem? hj))
                (by rw [h.fresh w hmem hstarted])
            · rw [hidle v (List.mem_of_getElem? hj)] at hav
              cases hav

/-- **Threads that keep out of each other's way** do what handling the requests one after the other
does: there is a serial state that gives their answers, and when no thread is under way it is the
state of the pool. -/
theorem serial (hpeeks : ∀ r, peeks r → ∃ g : σ → α, handler r = .step none fun s => .ret (g s)) (s₀ : σ)
    {events : List (PoolEvent ρ)} (hex : ExclusiveRun handler peeks (start s₀) events) :
    ∃ s, Serial handler peeks s₀ ((start s₀).run handler events).finished s ∧
      (((start s₀).run handler events).Idle → ((start s₀).run handler events).shared = s) := by
  have hrun : ∀ {f : Pool Op σ ρ α}, Inv handler peeks s₀ f → ∀ {events}, ExclusiveRun handler peeks f events →
      Inv handler peeks s₀ (f.run handler events) := by
    intro f hf events
    induction events generalizing f with
    | nil => exact fun _ => hf
    | cons e events ih => exact fun hex => ih (hf.step hpeeks hex.1) hex.2
  obtain ⟨s, hs, hcases⟩ := (hrun (start_inv s₀) hex).serial
  refine ⟨s, hs, fun hidle => ?_⟩
  rcases hcases with ⟨-, hshared⟩ | ⟨i, w, hi, -, ha, -⟩
  · exact hshared
  · rw [hidle w (List.mem_of_getElem? hi)] at ha
    cases ha

end Pool

end Cs162Hw.Library
