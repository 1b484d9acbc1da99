import Mathlib.Data.List.Basic

/-!
# Programs made of atomic steps

A sequential program that works on a shared state `σ` by operations of type `Op`:
`Program Op σ α` is the tree of its steps. A step carries out one operation (or
none: a read) and goes on as the state it found tells it to; `fault` is a program
that has died, as one that follows a null pointer does. What an operation does is
given once, by `Effect.exec`.

The one tree has the three readings a development about crashes and threads
needs:

* `run` — the program alone, to its end;
* `ops` — the operations it carries out on the way, so that a crash after `n`
  operations leaves the state `crashAt n` (`ops` cut after `n`, `foldl exec`);
* `advance` — one step of it, for interleaving it with others.

`Performs p s l a t` is the judgement the proofs use: from `s` the program `p`
carries out exactly the operations `l`, returns `a` and leaves `t`. There is one rule for
each way of building a program.
-/

namespace Cs162Hw.Library

/-- A program of atomic steps. -/
inductive Program (Op σ α : Type) where
  /-- Finished, with this result. -/
  | ret (a : α)
  /-- Dead. -/
  | fault
  /-- Carry out the operation, if there is one; `k` is told the state before it. -/
  | step (o : Option Op) (k : σ → Program Op σ α)

/-- What an operation does to the state. -/
class Effect (Op σ : Type) where
  /-- The state after the operation. -/
  exec : Op → σ → σ

open Effect

namespace Program

variable {Op σ α β : Type}

/-- `p`, then `f` on its result. -/
def bind : Program Op σ α → (α → Program Op σ β) → Program Op σ β
  | ret a, f => f a
  | fault, _ => fault
  | step o k, f => step o fun s => (k s).bind f

instance : Monad (Program Op σ) where
  pure := ret
  bind := bind

theorem bind_ret (p : Program Op σ α) : p.bind ret = p := by
  induction p with
  | ret a => rfl
  | fault => rfl
  | step o k ih => exact congrArg (step o) (funext ih)

theorem bind_bind {γ : Type} (p : Program Op σ α) (f : α → Program Op σ β) (g : β → Program Op σ γ) :
    (p.bind f).bind g = p.bind fun a => (f a).bind g := by
  induction p with
  | ret a => rfl
  | fault => rfl
  | step o k ih => exact congrArg (step o) (funext ih)

instance : LawfulMonad (Program Op σ) := .mk' _ bind_ret (fun _ _ => rfl) bind_bind

/-- Look at the state. -/
def read : Program Op σ σ := step none ret

/-- Carry out one operation. -/
def perform (o : Op) : Program Op σ Unit := step (some o) fun _ => ret ()

variable [Effect Op σ]

/-- The state after a step's operation, if it has one. -/
def execStep : Option Op → σ → σ
  | none, s => s
  | some o, s => exec o s

/-- The program run alone: its result (`none` if it dies) and the state it leaves. -/
def run : Program Op σ α → σ → Option α × σ
  | ret a, s => (some a, s)
  | fault, s => (none, s)
  | step o k, s => (k s).run (execStep o s)

/-- The operations it carries out when it runs alone. -/
def ops : Program Op σ α → σ → List Op
  | ret _, _ => []
  | fault, _ => []
  | step o k, s => o.toList ++ (k s).ops (execStep o s)

/-- The state after the operations `l`. -/
def execAll (l : List Op) (s : σ) : σ := l.foldl (fun t o => exec o t) s

/-- The state a crash leaves after `n` operations. -/
def crashAt (n : ℕ) (p : Program Op σ α) (s : σ) : σ := execAll ((p.ops s).take n) s

/-- One step of the program, alone or between the steps of others. -/
def advance : Program Op σ α → σ → Program Op σ α × σ
  | ret a, s => (ret a, s)
  | fault, s => (fault, s)
  | step o k, s => (k s, execStep o s)

/-! ### Operations in a row -/

@[simp] theorem execAll_nil (s : σ) : execAll ([] : List Op) s = s := rfl

@[simp] theorem execAll_cons (o : Op) (l : List Op) (s : σ) : execAll (o :: l) s = execAll l (exec o s) := rfl

theorem execAll_append (l l' : List Op) (s : σ) : execAll (l ++ l') s = execAll l' (execAll l s) := by
  simp [execAll, List.foldl_append]

/-- The state a program leaves is what its operations make of the first one. -/
theorem run_snd (p : Program Op σ α) (s : σ) : (p.run s).2 = execAll (p.ops s) s := by
  induction p generalizing s with
  | ret a => rfl
  | fault => rfl
  | step o k ih =>
    rw [run, ops, ih, execAll_append]
    cases o <;> rfl

/-! ### What a program does -/

/-- From `s`, `p` carries out the operations `l`, returns `a` and leaves `t`. -/
def Performs (p : Program Op σ α) (s : σ) (l : List Op) (a : α) (t : σ) : Prop :=
  p.run s = (some a, t) ∧ p.ops s = l

theorem Performs.pure (a : α) (s : σ) : Performs (Pure.pure a : Program Op σ α) s [] a s := ⟨rfl, rfl⟩

theorem Performs.read (s : σ) : Performs (Program.read : Program Op σ σ) s [] s s := ⟨rfl, rfl⟩

theorem Performs.perform (o : Op) (s : σ) : Performs (Program.perform o) s [o] () (exec o s) := ⟨rfl, rfl⟩

/-- The rule of sequence. -/
theorem Performs.bind {p : Program Op σ α} {f : α → Program Op σ β} {s t u : σ} {l l' : List Op} {a : α}
    {b : β} (hp : Performs p s l a t) (hf : Performs (f a) t l' b u) : Performs (p >>= f) s (l ++ l') b u := by
  obtain ⟨hr, rfl⟩ := hp
  show Performs (p.bind f) s _ b u
  induction p generalizing s with
  | ret a' =>
    obtain ⟨rfl, rfl⟩ : a' = a ∧ s = t := by simpa [run] using hr
    exact hf
  | fault => simp [run] at hr
  | step o k ih =>
    obtain ⟨hk, hl⟩ := ih s hr
    exact ⟨hk, by rw [Program.bind, ops, hl, ops, List.append_assoc]⟩

/-- A read leads to what is done in the state read. -/
theorem Performs.read_bind {f : σ → Program Op σ β} {s t : σ} {l : List Op} {b : β}
    (hf : Performs (f s) s l b t) : Performs (Program.read >>= f) s l b t :=
  (Performs.read s).bind hf

/-- One operation, then the rest. -/
theorem Performs.perform_bind {o : Op} {f : Unit → Program Op σ β} {s t : σ} {l : List Op} {b : β}
    (hf : Performs (f ()) (exec o s) l b t) : Performs (Program.perform o >>= f) s (o :: l) b t :=
  (Performs.perform o s).bind hf

theorem Performs.ite_pos {c : Prop} [Decidable c] {p q : Program Op σ α} {s t : σ} {l : List Op} {a : α}
    (h : c) (hp : Performs p s l a t) : Performs (if c then p else q) s l a t := by rwa [if_pos h]

theorem Performs.ite_neg {c : Prop} [Decidable c] {p q : Program Op σ α} {s t : σ} {l : List Op} {a : α}
    (h : ¬ c) (hq : Performs q s l a t) : Performs (if c then p else q) s l a t := by rwa [if_neg h]

/-- What a program does, it does to the state by its operations. -/
theorem Performs.execAll_eq {p : Program Op σ α} {s t : σ} {l : List Op} {a : α} (h : Performs p s l a t) :
    execAll l s = t := by
  obtain ⟨hr, rfl⟩ := h
  rw [← run_snd, hr]

/-- The same judgement with the operations and the last state rewritten. -/
theorem Performs.congr {p : Program Op σ α} {s t t' : σ} {l l' : List Op} {a : α} (h : Performs p s l a t)
    (hl : l = l') (ht : t = t') : Performs p s l' a t' := hl ▸ ht ▸ h

theorem Performs.run_eq {p : Program Op σ α} {s t : σ} {l : List Op} {a : α} (h : Performs p s l a t) :
    p.run s = (some a, t) := h.1

theorem Performs.ops_eq {p : Program Op σ α} {s t : σ} {l : List Op} {a : α} (h : Performs p s l a t) :
    p.ops s = l := h.2

/-! ### The same program cut into other steps -/

section SameRun

variable {Op' : Type} [Effect Op' σ]

/-- Run alone, the two programs do the same, whatever their steps are. -/
def SameRun (p : Program Op σ α) (q : Program Op' σ α) : Prop := ∀ s, p.run s = q.run s

theorem SameRun.pure (a : α) : SameRun (Pure.pure a : Program Op σ α) (Pure.pure a : Program Op' σ α) := fun _ => rfl

/-- What a sequence does alone. -/
theorem run_bind (p : Program Op σ α) (f : α → Program Op σ β) (s : σ) :
    (p >>= f).run s = match p.run s with
      | (some a, t) => (f a).run t
      | (none, t) => (none, t) := by
  show (p.bind f).run s = _
  induction p generalizing s with
  | ret a => rfl
  | fault => rfl
  | step o k ih => exact ih s (execStep o s)

theorem SameRun.bind {p : Program Op σ α} {q : Program Op' σ α} (h : SameRun p q) {f : α → Program Op σ β}
    {g : α → Program Op' σ β} (hfg : ∀ a, SameRun (f a) (g a)) : SameRun (p >>= f) (q >>= g) := by
  intro s
  rw [run_bind, run_bind, h s]
  rcases q.run s with ⟨_ | a, t⟩
  · rfl
  · exact hfg a t

theorem SameRun.ite {c : Prop} [Decidable c] {p p' : Program Op σ α} {q q' : Program Op' σ α} (h : SameRun p q)
    (h' : SameRun p' q') : SameRun (if c then p else p') (if c then q else q') := by
  intro s
  split_ifs
  · exact h s
  · exact h' s

end SameRun

/-! ### A program on a part of the state -/

/-- A program on `σ` as a program on a larger state that contains one: it reads through
`view`, and its operations are among the larger ones by `inj`. -/
def lift {Op' τ : Type} (view : τ → σ) (inj : Op → Op') : Program Op σ α → Program Op' τ α
  | ret a => ret a
  | fault => fault
  | step o k => step (o.map inj) fun t => (k (view t)).lift view inj

omit [Effect Op σ] in
theorem lift_bind {Op' τ : Type} (view : τ → σ) (inj : Op → Op') (p : Program Op σ α) (f : α → Program Op σ β) :
    (p >>= f).lift view inj = p.lift view inj >>= fun a => (f a).lift view inj := by
  show (p.bind f).lift view inj = (p.lift view inj).bind _
  induction p with
  | ret a => rfl
  | fault => rfl
  | step o k ih => exact congrArg (step _) (funext fun t => ih (view t))

theorem Performs.lift {Op' τ : Type} [Effect Op' τ] (view : τ → σ) (inj : Op → Op')
    (hv : ∀ (o : Op) (t : τ), view (exec (inj o) t) = exec o (view t)) {p : Program Op σ α} {t : τ} {l : List Op} {a : α}
    {u : σ} (h : Performs p (view t) l a u) : Performs (p.lift view inj) t (l.map inj) a (execAll (l.map inj) t) := by
  obtain ⟨hr, rfl⟩ := h
  induction p generalizing t with
  | ret a' =>
    obtain ⟨rfl, -⟩ : a' = a ∧ view t = u := by simpa [run] using hr
    exact Performs.pure a' t
  | fault => simp [run] at hr
  | step o k ih =>
    have hview : execStep o (view t) = view (execStep (o.map inj) t) := by
      cases o with
      | none => rfl
      | some o => exact (hv o t).symm
    rw [run, hview] at hr
    obtain ⟨h₁, h₂⟩ := ih (view t) hr
    cases o with
    | none => exact ⟨by simpa [Program.lift, run, ops, execStep] using h₁, by simpa [Program.lift, ops, execStep] using h₂⟩
    | some o =>
      rw [← hview] at h₁ h₂
      refine ⟨?_, ?_⟩
      · simpa [Program.lift, run, ops, execStep] using h₁
      · simpa [Program.lift, ops, execStep] using h₂

/-! ### Programs that die -/

/-- From `s`, `p` does not get to its end. -/
def Dies (p : Program Op σ α) (s : σ) : Prop := (p.run s).1 = none

theorem Dies.bind {p : Program Op σ α} {s : σ} (h : Dies p s) (f : α → Program Op σ β) : Dies (p >>= f) s := by
  rw [Dies, run_bind]
  rw [Dies] at h
  rcases hrun : p.run s with ⟨_ | a, t⟩
  · rfl
  · rw [hrun] at h
    cases h

/-- What follows may die, too. -/
theorem Performs.bind_dies {p : Program Op σ α} {f : α → Program Op σ β} {s t : σ} {l : List Op} {a : α}
    (hp : Performs p s l a t) (hf : Dies (f a) t) : Dies (p >>= f) s := by
  rw [Dies, run_bind, hp.run_eq]
  exact hf

theorem Dies.read_bind {f : σ → Program Op σ β} {s : σ} (hf : Dies (f s) s) : Dies (Program.read >>= f) s :=
  (Performs.read s).bind_dies hf

theorem Dies.ite_pos {c : Prop} [Decidable c] {p q : Program Op σ α} {s : σ} (h : c) (hp : Dies p s) :
    Dies (if c then p else q) s := by rwa [if_pos h]

/-! ### Programs that cannot die -/

/-- There is no `fault` on any path of the program. -/
def Lives : Program Op σ α → Prop
  | ret _ => True
  | fault => False
  | step _ k => ∀ s, (k s).Lives

omit [Effect Op σ] in
theorem Lives.pure (a : α) : Lives (Pure.pure a : Program Op σ α) := trivial

omit [Effect Op σ] in
theorem Lives.bind {p : Program Op σ α} (h : p.Lives) {f : α → Program Op σ β} (hf : ∀ a, (f a).Lives) : (p >>= f).Lives := by
  show (p.bind f).Lives
  induction p with
  | ret a => exact hf a
  | fault => exact h.elim
  | step o k ih => exact fun s => ih s (h s)

omit [Effect Op σ] in
/-- A read, and what is done in any state that can be read. -/
theorem Lives.read_bind {f : σ → Program Op σ β} (hf : ∀ s, (f s).Lives) : (Program.read >>= f).Lives := hf

omit [Effect Op σ] in
theorem Lives.perform_bind {o : Op} {f : Unit → Program Op σ β} (hf : (f ()).Lives) : (Program.perform o >>= f).Lives :=
  fun _ => hf

omit [Effect Op σ] in
theorem Lives.ite {c : Prop} [Decidable c] {p q : Program Op σ α} (hp : c → p.Lives) (hq : ¬ c → q.Lives) :
    (if c then p else q).Lives := by
  split_ifs with h
  · exact hp h
  · exact hq h

omit [Effect Op σ] in
theorem Lives.lift {Op' τ : Type} {view : τ → σ} {inj : Op → Op'} {p : Program Op σ α} (h : p.Lives) :
    (p.lift view inj).Lives := by
  induction p with
  | ret a => trivial
  | fault => exact h.elim
  | step o k ih => exact fun t => ih (view t) (h (view t))

/-- It gets to its end. -/
theorem Lives.run_isSome {p : Program Op σ α} (h : p.Lives) (s : σ) : (p.run s).1.isSome := by
  induction p generalizing s with
  | ret a => rfl
  | fault => exact h.elim
  | step o k ih => exact ih s (h s) _

/-- If what follows cannot die, the first part decides. -/
theorem isSome_run_bind {p : Program Op σ α} {f : α → Program Op σ β} (hf : ∀ a, (f a).Lives) (s : σ) :
    ((p >>= f).run s).1.isSome = (p.run s).1.isSome := by
  rw [run_bind]
  rcases p.run s with ⟨_ | a, t⟩
  · rfl
  · exact (hf a).run_isSome t

/-- Every result on a path of the program has the property `P`. -/
def Yields (P : α → Prop) : Program Op σ α → Prop
  | ret a => P a
  | fault => True
  | step _ k => ∀ s, (k s).Yields P

omit [Effect Op σ] in
theorem Yields.pure {P : α → Prop} {a : α} (h : P a) : Yields P (Pure.pure a : Program Op σ α) := h

omit [Effect Op σ] in
/-- What comes last decides. -/
theorem Yields.bind {P : β → Prop} {p : Program Op σ α} {f : α → Program Op σ β} (hf : ∀ a, (f a).Yields P) :
    (p >>= f).Yields P := by
  show (p.bind f).Yields P
  induction p with
  | ret a => exact hf a
  | fault => trivial
  | step o k ih => exact fun s => ih s

omit [Effect Op σ] in
theorem Yields.ite {P : α → Prop} {c : Prop} [Decidable c] {p q : Program Op σ α} (hp : p.Yields P) (hq : q.Yields P) :
    (if c then p else q).Yields P := by
  split_ifs
  · exact hp
  · exact hq

theorem Yields.run {P : α → Prop} {p : Program Op σ α} (h : p.Yields P) {s : σ} {a : α} (ha : (p.run s).1 = some a) : P a := by
  induction p generalizing s with
  | ret a' => exact Option.some.inj ha ▸ h
  | fault => cases ha
  | step o k ih => exact ih s (h s) ha

/-! ### Crashes -/

/-- Every state at a boundary of the operations `l`, the first and the last included, has
the property `P`. -/
def Throughout (P : σ → Prop) : List Op → σ → Prop
  | [], s => P s
  | o :: l, s => P s ∧ Throughout P l (exec o s)

theorem Throughout.take {P : σ → Prop} {l : List Op} {s : σ} (h : Throughout P l s) (n : ℕ) :
    P (execAll (l.take n) s) := by
  induction l generalizing s n with
  | nil => rw [List.take_nil]; exact h
  | cons o l ih =>
    cases n with
    | zero => exact h.1
    | succ n => exact ih h.2 n

/-- The boundaries of `l ++ l'` are those of `l`, then those of `l'`. -/
theorem Throughout.append {P : σ → Prop} {l l' : List Op} {s : σ} (h : Throughout P l s)
    (h' : Throughout P l' (execAll l s)) : Throughout P (l ++ l') s := by
  induction l generalizing s with
  | nil => exact h'
  | cons o l ih => exact ⟨h.1, ih h.2 h'⟩

/-- Operations that keep a property keep it at every boundary. -/
theorem Throughout.of_forall {P : σ → Prop} {l : List Op} {s : σ} (hs : P s)
    (h : ∀ o ∈ l, ∀ t, P t → P (exec o t)) : Throughout P l s := by
  induction l generalizing s with
  | nil => exact hs
  | cons o l ih =>
    exact ⟨hs, ih (h o List.mem_cons_self s hs) fun o' ho' => h o' (List.mem_cons_of_mem _ ho')⟩

end Program

end Cs162Hw.Library
