import Cs162Hw.Library.Descriptors
import Cs162Hw.Shell.Tokens

/-!
# The shell's session

The loop of `hw1/shell.c`, line after line: what the shell has open, the processes it has started and not yet waited for,
and the array in which it keeps those in the background. What the system calls come to is part of the input: which
files can be opened, and what `fork` returns.

* `Session.step`: a line. The child gets the shell's descriptors as they are redirected; afterwards the shell's are set back.
* `Session.step_eq`: with three descriptors to spare, the shell has the same open after a line as before it.
* **`session_runs`**: over any lines every command that `fork` can be had for is one child with what its own line says, in the
  order of the lines; the shell leaks nothing, has waited for all its children but those in its array, and these are the
  background commands since the last `wait`. It leaves its arrays exactly at a line of too many tokens, and at a background
  command when there are 1024 of them already.
-/

namespace Cs162Hw.Shell

open Kv Library

/-! ## Built-in commands -/

/-- The functions of the built-in commands. -/
inductive Builtin where
  | help | quit | pwd | cd | wait
  deriving DecidableEq

/-- `cmd_table`. -/
def cmdTable : List (Builtin × Tok) :=
  [(.help, lit "?"), (.quit, lit "quit"), (.pwd, lit "pwd"), (.cd, lit "cd"), (.wait, lit "wait")]

/-- `lookup`. -/
def lookup (cmd : Cell) : Option Builtin := (cmdTable.find? fun desc => cmd = some desc.2).map (·.1)

/-! ## The loop -/

variable {F : Type}

/-- A line of the input, and what the system calls come to while it is handled. -/
structure Input (F : Type) where
  /-- The line. -/
  line : CString
  /-- `open`, to write. -/
  create : Tok → Option F
  /-- `open`, to read. -/
  openRead : Tok → Option F
  /-- `fork`, in the parent. -/
  pid : Option ℕ

/-- The shell, before it reads a line. -/
structure Session (F : Type) where
  /-- What it has open. -/
  files : Descriptors F
  /-- The first `len_pid_queue` cells of `pid_in_wait_array`. -/
  queue : List ℕ
  /-- The children that it has not waited for. -/
  children : List ℕ

/-- A child that goes on to look for an executable. -/
structure Started (F : Type) where
  /-- What it has open. -/
  files : Descriptors F
  /-- The tokens. -/
  tokens : List Cell

/-- What a line comes to. -/
inductive Outcome (F : Type) where
  /-- The shell goes on. -/
  | goes (s : Session F)
  /-- It exits. -/
  | exits (code : ℕ)
  /-- It goes on behind the end of one of its arrays. -/
  | fault

/-- The number of cells of `pid_in_wait_array`. -/
def maxBackground : ℕ := 1024

/-- `shell` where it has looked for a redirection: `std` is pointed at the file. -/
def redirectTo (files : Descriptors F) (std : ℕ) (opens : Tok → Option F) : Option Cell → Option ℕ × Descriptors F
  | some fileDes => files.redirect std (fileDes.bind opens)
  | none => (none, files)

/-- `shell` when the command is done: `std` is pointed back. -/
def changeBack (files : Descriptors F) (std : ℕ) (save : Option ℕ) : Option Cell → Descriptors F
  | some _ => files.restore std save
  | none => files

namespace Session

/-- What the shell has open is changed. -/
def setFiles (s : Session F) (files : Descriptors F) : Session F := { s with files := files }

/-- The command: a function of the shell, or a child. -/
def execute (s : Session F) (fundex : Option Builtin) (p : Processed) (pid : Option ℕ) : Option (Started F) × Outcome F :=
  match fundex with
  | some .quit => (none, .exits 0)
  | some .wait => (none, .goes { s with queue := [], children := s.queue.foldl List.erase s.children })
  | some _ => (none, .goes s)
  | none =>
    match pid with
    | none => (none, .exits 1)
    | some pid =>
      (some ⟨s.files, p.tokens⟩,
        if p.isBack then
          if s.queue.length < maxBackground then
            .goes { s with queue := s.queue ++ [pid], children := s.children ++ [pid] }
          else .fault
        else .goes { s with children := (s.children ++ [pid]).erase pid })

/-- The body of the loop of `shell`. -/
def step (s : Session F) (i : Input F) : Option (Started F) × Outcome F :=
  let tokens := getToks i.line
  let fundex := lookup tokens.cells.head?.join
  match processTokens tokens with
  | none => (none, .fault)
  | some p =>
    let (stdoutSave, files) := redirectTo s.files 1 i.create p.output
    let (stdinSave, files) := redirectTo files 0 i.openRead p.input
    let (started, outcome) := (s.setFiles files).execute fundex p i.pid
    (started,
      match outcome with
      | .goes s => .goes (s.setFiles (changeBack (changeBack s.files 1 stdoutSave p.output) 0 stdinSave p.input))
      | outcome => outcome)

/-- Line after line, as long as the shell goes on: the children, and what it comes to. -/
def run (s : Session F) : List (Input F) → List (Started F) × Outcome F
  | [] => ([], .goes s)
  | i :: inputs =>
    let (started, outcome) := s.step i
    match outcome with
    | .goes s =>
      let (more, outcome) := run s inputs
      (started.toList ++ more, outcome)
    | outcome => (started.toList, outcome)

/-- When nothing has been started. -/
def start (files : Descriptors F) : Session F := ⟨files, [], []⟩

end Session

/-! ## A line -/

namespace Input

variable (i : Input F)

/-- What there is to be found in the line. -/
def view : View := Shell.view (tokens i.line.bytes)

/-- The built-in command. -/
def builtin : Option Builtin := lookup (tokens i.line.bytes).head?

/-- The process that is put into the background. -/
def job : Option ℕ := if i.builtin = none ∧ i.view.isBack = true then i.pid else none

/-- The line has as many tokens as the array has cells, or more. -/
def TooLong : Prop := maxtoks ≤ (tokens i.line.bytes).length

/-- The processes in the background after the line, when they were `queue` before it. -/
def jobsAfter (queue : List ℕ) : List ℕ := if i.builtin = some .wait then [] else queue ++ i.job.toList

end Input

/-- The background commands since the last `wait`, after those that there were. -/
def jobs (queue : List ℕ) (inputs : List (Input F)) : List ℕ := inputs.foldl (fun queue i => i.jobsAfter queue) queue

/-- What a child of the shell has open, when the shell has `t`: its output and its input are what the line says, if that can be
opened, and otherwise the shell's; and where the shell has nothing it may have copies of the shell's. -/
structure Sees (t : Descriptors F) (i : Input F) (files : Descriptors F) : Prop where
  /-- The output. -/
  output : files.file 1 = (i.view.output.join.bind i.create).or (t.file 1)
  /-- The input. -/
  input : files.file 0 = (i.view.input.join.bind i.openRead).or (t.file 0)
  /-- The others. -/
  others : ∀ fd, fd ≠ 0 → fd ≠ 1 → files.file fd = t.file fd ∨
    t.file fd = none ∧ (files.file fd = t.file 0 ∨ files.file fd = t.file 1)

/-- The shell has an input and an output, and three descriptors to spare. -/
structure Usable (t : Descriptors F) : Prop where
  /-- The input. -/
  input : ∃ f, t.file 0 = some f
  /-- The output. -/
  output : ∃ f, t.file 1 = some f
  /-- The others. -/
  free : 3 ≤ t.free.card

/-- A redirection, if there is one. -/
theorem redirectTo_cases {t : Descriptors F} {std : ℕ} {f₀ : F} (hstd : t.file std = some f₀) (hfree : 2 ≤ t.free.card)
    (opens : Tok → Option F) (fileDes : Option Cell) :
    fileDes = none ∧ redirectTo t std opens fileDes = (none, t) ∨
      ∃ c save, fileDes = some c ∧ save ∈ t.free ∧ redirectTo t std opens fileDes =
        (some save, (t.set save (some f₀)).set std (some ((c.bind opens).getD f₀))) := by
  cases fileDes with
  | none => exact Or.inl ⟨rfl, rfl⟩
  | some c =>
    obtain ⟨save, hsave, hredirect⟩ := Descriptors.redirect_spec hstd hfree (c.bind opens)
    exact Or.inr ⟨c, save, rfl, hsave, hredirect⟩

/-- What the child sees, and what the shell has afterwards. -/
theorem redirected {t : Descriptors F} (h : Usable t) (i : Input F) :
    ∃ a b t₁ t₂, redirectTo t 1 i.create i.view.output = (a, t₁) ∧ redirectTo t₁ 0 i.openRead i.view.input = (b, t₂) ∧
      Sees t i t₂ ∧ changeBack (changeBack t₂ 1 a i.view.output) 0 b i.view.input = t := by
  obtain ⟨⟨f₀, h₀⟩, ⟨f₁, h₁⟩, hfree⟩ := h
  have hor : ∀ (o : Option F) (f : F), some (o.getD f) = o.or (some f) := by rintro (_ | _) _ <;> rfl
  have hne : ∀ fd ∈ t.free, fd ≠ 0 ∧ fd ≠ 1 := by
    intro fd hfd
    refine ⟨?_, ?_⟩
    · rintro rfl
      rw [Descriptors.mem_free, h₀] at hfd
      cases hfd.2
    · rintro rfl
      rw [Descriptors.mem_free, h₁] at hfd
      cases hfd.2
  rcases redirectTo_cases h₁ (Nat.le_of_succ_le hfree) i.create i.view.output with ⟨hout, hto⟩ | ⟨c, a, hout, ha, hto⟩
  · rcases redirectTo_cases h₀ (Nat.le_of_succ_le hfree) i.openRead i.view.input with ⟨hin, hti⟩ | ⟨d, b, hin, hb, hti⟩
    · refine ⟨none, none, t, t, hto, hti, ⟨?_, ?_, fun fd _ _ => Or.inl rfl⟩, by rw [hout, hin]; rfl⟩
      · rw [hout]
        rfl
      · rw [hin]
        rfl
    · refine ⟨none, some b, t, _, hto, hti, ⟨?_, ?_, fun fd hfd _ => ?_⟩, ?_⟩
      · rw [hout, Descriptors.set_file_of_ne one_ne_zero, Descriptors.set_file_of_ne (hne b hb).2.symm]
        rfl
      · rw [hin, Descriptors.set_file_self, h₀]
        exact hor _ _
      · rw [Descriptors.set_file_of_ne hfd]
        by_cases hfd' : fd = b
        · subst hfd'
          exact Or.inr ⟨(Descriptors.mem_free.mp hb).2, Or.inl (by rw [Descriptors.set_file_self, h₀])⟩
        · exact Or.inl (Descriptors.set_file_of_ne hfd' _)
      · rw [hout, hin]
        exact Descriptors.restore_redirect h₀ hb
  · have hcard := Descriptors.card_free_set_some_add_one ha f₁
    generalize hg : (c.bind i.create).getD f₁ = g at hto
    have hfull : 1 ∉ (t.set a (some f₁)).free := by
      rw [Descriptors.free_set_some, Finset.mem_erase]
      exact fun hmem => (hne 1 hmem.2).2 rfl
    have hfree' : 2 ≤ ((t.set a (some f₁)).set 1 (some g)).free.card := by
      rw [Descriptors.free_set_some, Finset.erase_eq_of_notMem hfull]
      omega
    have h₀' : ((t.set a (some f₁)).set 1 (some g)).file 0 = some f₀ := by
      rw [Descriptors.set_file_of_ne zero_ne_one, Descriptors.set_file_of_ne (hne a ha).1.symm, h₀]
    have hothers : ∀ fd, fd ≠ 1 → ((t.set a (some f₁)).set 1 (some g)).file fd = t.file fd ∨
        t.file fd = none ∧ ((t.set a (some f₁)).set 1 (some g)).file fd = t.file 1 := by
      intro fd hfd
      rw [Descriptors.set_file_of_ne hfd]
      by_cases hfd' : fd = a
      · subst hfd'
        exact Or.inr ⟨(Descriptors.mem_free.mp ha).2, by rw [Descriptors.set_file_self, h₁]⟩
      · exact Or.inl (Descriptors.set_file_of_ne hfd' _)
    rcases redirectTo_cases h₀' hfree' i.openRead i.view.input with ⟨hin, hti⟩ | ⟨d, b, hin, hb, hti⟩
    · refine ⟨some a, none, _, _, hto, hti, ⟨?_, ?_, fun fd _ hfd => ?_⟩, ?_⟩
      · rw [hout, Descriptors.set_file_self, ← hg, h₁]
        exact hor _ _
      · rw [hin, h₀', h₀]
        rfl
      · exact (hothers fd hfd).imp_right fun h => ⟨h.1, Or.inr h.2⟩
      · rw [hout, hin]
        exact Descriptors.restore_redirect h₁ ha
    · have hb' := hb
      rw [Descriptors.free_set_some, Finset.mem_erase, Descriptors.free_set_some, Finset.mem_erase] at hb'
      refine ⟨some a, some b, _, _, hto, hti, ⟨?_, ?_, fun fd hfd hfd₁ => ?_⟩, ?_⟩
      · rw [hout, Descriptors.set_file_of_ne one_ne_zero, Descriptors.set_file_of_ne hb'.1.symm, Descriptors.set_file_self,
          ← hg, h₁]
        exact hor _ _
      · rw [hin, Descriptors.set_file_self, h₀]
        exact hor _ _
      · rw [Descriptors.set_file_of_ne hfd]
        by_cases hfdb : fd = b
        · subst hfdb
          exact Or.inr ⟨(Descriptors.mem_free.mp hb'.2.2).2, Or.inl (by rw [Descriptors.set_file_self, h₀])⟩
        · rw [Descriptors.set_file_of_ne hfdb]
          exact (hothers fd hfd₁).imp_right fun h => ⟨h.1, Or.inr h.2⟩
      · rw [hout, hin]
        exact Descriptors.restore_both one_ne_zero h₁ h₀ ha hb

/-- A command does not look at what the shell has open; a child gets it. -/
theorem Session.execute_setFiles (s : Session F) (files : Descriptors F) (fundex : Option Builtin) (p : Processed)
    (pid : Option ℕ) :
    (((s.setFiles files).execute fundex p pid).1 = (s.execute fundex p pid).1.map fun child => { child with files := files }) ∧
      ((s.setFiles files).execute fundex p pid).2 =
        match (s.execute fundex p pid).2 with
        | .goes s => .goes (s.setFiles files)
        | outcome => outcome := by
  cases fundex with
  | some builtin => cases builtin <;> exact ⟨rfl, rfl⟩
  | none =>
    cases pid with
    | none => exact ⟨rfl, rfl⟩
    | some pid =>
      refine ⟨rfl, ?_⟩
      cases hback : p.isBack with
      | false => simp [execute, setFiles, hback]
      | true => by_cases hlt : s.queue.length < maxBackground <;> simp [execute, setFiles, hback, hlt]

/-- A command leaves open what is open. -/
theorem Session.files_of_execute {s s' : Session F} {fundex : Option Builtin} {p : Processed} {pid : Option ℕ}
    (h : (s.execute fundex p pid).2 = .goes s') : s'.files = s.files := by
  cases fundex with
  | some builtin =>
    cases builtin with
    | quit => cases h
    | _ => exact (Outcome.goes.inj h) ▸ rfl
  | none =>
    cases pid with
    | none => cases h
    | some pid =>
      simp only [execute] at h
      split_ifs at h
      · exact (Outcome.goes.inj h) ▸ rfl
      · exact (Outcome.goes.inj h) ▸ rfl

/-- The first token of the array is that of the line. -/
theorem getToks_head? (line : CString) : (getToks line).cells.head?.join = (tokens line.bytes).head? := by
  rw [getToks_eq]
  cases tokens line.bytes with
  | nil => rfl
  | cons tok toks => rfl

/-- **A line**: the command is executed, a child with the descriptors that the line tells, and the shell has open what it had
open before. -/
theorem Session.step_eq (s : Session F) (h : Usable s.files) (i : Input F) (hlen : ¬ i.TooLong) :
    ∃ files cells, Sees s.files i files ∧ Terminated i.view.args cells ∧
      s.step i = ((s.execute i.builtin ⟨i.view.output, i.view.input, i.view.isBack, cells⟩ i.pid).1.map
          fun child => { child with files := files },
        (s.execute i.builtin ⟨i.view.output, i.view.input, i.view.isBack, cells⟩ i.pid).2) := by
  obtain ⟨cells, hprocess, hterm⟩ := (getToks_terminated (Nat.lt_of_not_le hlen)).processTokens
  obtain ⟨a, b, t₁, t₂, hto, hti, hsees, hback⟩ := redirected h i
  refine ⟨t₂, cells, hsees, hterm, ?_⟩
  obtain ⟨hstarted, houtcome⟩ := s.execute_setFiles t₂ i.builtin ⟨i.view.output, i.view.input, i.view.isBack, cells⟩ i.pid
  have hto' : redirectTo s.files 1 i.create (view (tokens i.line.bytes)).output = (a, t₁) := hto
  have hti' : redirectTo t₁ 0 i.openRead (view (tokens i.line.bytes)).input = (b, t₂) := hti
  simp only [Session.step, hprocess, hto', hti', getToks_head?]
  refine Prod.ext hstarted ?_
  change (match ((s.setFiles t₂).execute i.builtin ⟨i.view.output, i.view.input, i.view.isBack, cells⟩ i.pid).2 with
    | .goes s => .goes (s.setFiles (changeBack (changeBack s.files 1 a i.view.output) 0 b i.view.input))
    | outcome => outcome : Outcome F) = _
  rw [houtcome]
  cases hexecute : (s.execute i.builtin ⟨i.view.output, i.view.input, i.view.isBack, cells⟩ i.pid).2 with
  | goes s' =>
    have hfiles := Session.files_of_execute hexecute
    change Outcome.goes (s'.setFiles (changeBack (changeBack t₂ 1 a i.view.output) 0 b i.view.input)) = .goes s'
    rw [hback, ← hfiles]
    rfl
  | exits code => rfl
  | fault => rfl

/-! ## The session -/

theorem foldl_erase_eq_nil {queue children : List ℕ} (h : children.Perm queue) : queue.foldl List.erase children = [] := by
  induction queue generalizing children with
  | nil => exact h.eq_nil
  | cons pid queue ih =>
    have herase := h.erase pid
    rw [List.erase_cons_head] at herase
    exact ih herase

/-- The shell has open what it had, and has waited for all its children but those in its array. -/
structure Kept (t : Descriptors F) (queue : List ℕ) (s : Session F) : Prop where
  /-- What it has open. -/
  files : s.files = t
  /-- The array. -/
  array : s.queue = queue
  /-- The children. -/
  children : s.children.Perm queue
  /-- There is room for them. -/
  length_le : queue.length ≤ maxBackground

/-- The shell leaves an array at this line. -/
def Input.Breaks (i : Input F) (queue : List ℕ) : Prop :=
  i.TooLong ∨ maxBackground ≤ queue.length ∧ i.job.isSome

/-- At this line a child is started: it is a command that the shell does not have itself, and `fork` returns one. -/
def Input.Forks (i : Input F) : Prop := ¬ i.TooLong ∧ i.builtin = none ∧ i.pid.isSome

/-- The shell does not go on after this line. -/
def Input.Ends (i : Input F) (queue : List ℕ) : Prop :=
  i.Breaks queue ∨ i.builtin = some .quit ∨ i.builtin = none ∧ i.pid = none

instance (i : Input F) : Decidable i.TooLong := inferInstanceAs (Decidable (_ ≤ _))

instance (i : Input F) (queue : List ℕ) : Decidable (i.Breaks queue) := inferInstanceAs (Decidable (_ ∨ _))

instance (i : Input F) : Decidable i.Forks := inferInstanceAs (Decidable (_ ∧ _))

instance (i : Input F) (queue : List ℕ) : Decidable (i.Ends queue) := inferInstanceAs (Decidable (_ ∨ _))

/-- The lines that the shell comes to, with `queue` in the background before them. -/
def handled (queue : List ℕ) : List (Input F) → List (Input F)
  | [] => []
  | i :: inputs => i :: if i.Ends queue then [] else handled (i.jobsAfter queue) inputs

/-- What a line has started is as the line says. -/
def Started.For (child : Started F) (t : Descriptors F) (i : Input F) : Prop :=
  Sees t i child.files ∧ Terminated i.view.args child.tokens

/-- **The step.** -/
theorem Session.step_kept {t : Descriptors F} (ht : Usable t) {queue : List ℕ} {s : Session F} (h : Kept t queue s) (i : Input F) :
    List.Forall₂ (fun child i => Started.For child t i) (s.step i).1.toList (if i.Forks then [i] else []) ∧
      (∀ s', (s.step i).2 = .goes s' → Kept t (i.jobsAfter queue) s') ∧ ((s.step i).2 = .fault ↔ i.Breaks queue) ∧
      ((∃ s', (s.step i).2 = .goes s') ↔ ¬ i.Ends queue) := by
  obtain ⟨rfl, rfl, hchildren, hlength⟩ := h
  by_cases hlen : i.TooLong
  · have hfault : s.step i = (none, .fault) := by simp only [Session.step, processTokens_full hlen]
    rw [hfault, if_neg fun h => h.1 hlen]
    exact ⟨.nil, by rintro _ ⟨⟩, iff_of_true rfl (Or.inl hlen), iff_of_false (by rintro ⟨_, ⟨⟩⟩) fun h => h (Or.inl (Or.inl hlen))⟩
  obtain ⟨files, cells, hsees, hterm, hstep⟩ := s.step_eq ht i hlen
  rw [hstep]
  have hbreaks : i.Breaks s.queue ↔ maxBackground ≤ s.queue.length ∧ i.job.isSome := or_iff_right hlen
  cases hbuiltin : i.builtin with
  | some builtin =>
    have hjob : i.job = none := if_neg fun h => by
      rw [hbuiltin] at h
      cases h.1
    have hno : ¬ i.Breaks s.queue := by
      intro h
      rw [hbreaks, hjob] at h
      cases h.2
    have hends : i.Ends s.queue ↔ builtin = .quit := by
      rw [Input.Ends, or_iff_right hno, hbuiltin]
      simp
    have hforks : ¬ i.Forks := fun h => by cases hbuiltin.symm.trans h.2.1
    rw [if_neg hforks, hends]
    cases builtin with
    | quit =>
      exact ⟨.nil, by rintro _ ⟨⟩, iff_of_false (by rintro ⟨⟩) hno, iff_of_false (by rintro ⟨_, ⟨⟩⟩) fun h => h rfl⟩
    | wait =>
      refine ⟨.nil, ?_, iff_of_false (by rintro ⟨⟩) hno, iff_of_true ⟨_, rfl⟩ nofun⟩
      rintro s' ⟨⟩
      have hafter : i.jobsAfter s.queue = [] := if_pos hbuiltin
      rw [hafter]
      exact ⟨rfl, rfl, by rw [foldl_erase_eq_nil hchildren], Nat.zero_le _⟩
    | _ =>
      refine ⟨.nil, ?_, iff_of_false (by rintro ⟨⟩) hno, iff_of_true ⟨_, rfl⟩ nofun⟩
      rintro s' ⟨⟩
      have hafter : i.jobsAfter s.queue = s.queue := by
        rw [Input.jobsAfter, hjob, hbuiltin, if_neg (by decide)]
        exact List.append_nil _
      rw [hafter]
      exact ⟨rfl, rfl, hchildren, hlength⟩
  | none =>
    have hafter : i.jobsAfter s.queue = s.queue ++ i.job.toList := by
      rw [Input.jobsAfter, hbuiltin, if_neg (by decide)]
    cases hpid : i.pid with
    | none =>
      have hjob : i.job = none := by
        rw [Input.job, hpid]
        exact ite_self none
      have hno : ¬ i.Breaks s.queue := by
        intro h
        rw [hbreaks, hjob] at h
        cases h.2
      have hforks : ¬ i.Forks := by
        intro h
        rw [Input.Forks, hpid] at h
        cases h.2.2
      rw [if_neg hforks]
      exact ⟨.nil, by rintro _ ⟨⟩, iff_of_false (by rintro ⟨⟩) hno,
        iff_of_false (by rintro ⟨_, ⟨⟩⟩) fun h => h (Or.inr (Or.inr ⟨hbuiltin, hpid⟩))⟩
    | some pid =>
      have hends : i.Ends s.queue ↔ i.Breaks s.queue := by
        rw [Input.Ends, hbuiltin, hpid]
        simp
      rw [if_pos ⟨hlen, hbuiltin, hpid ▸ rfl⟩, hends, hbreaks]
      refine ⟨.cons ⟨hsees, hterm⟩ .nil, ?_⟩
      cases hback : i.view.isBack with
      | false =>
        have hjob : i.job = none := if_neg fun h => by
          rw [hback] at h
          cases h.2
        have hno : ¬ (maxBackground ≤ s.queue.length ∧ i.job.isSome) := by
          intro h
          rw [hjob] at h
          cases h.2
        refine ⟨?_, iff_of_false (by rintro ⟨⟩) hno, iff_of_true ⟨_, rfl⟩ hno⟩
        rintro s' ⟨⟩
        rw [hafter, hjob]
        have herase := (List.perm_append_singleton pid s.children).erase pid
        rw [List.erase_cons_head] at herase
        exact ⟨rfl, (List.append_nil _).symm, by rw [Option.toList_none, List.append_nil]; exact herase.trans hchildren,
          by rwa [Option.toList_none, List.append_nil]⟩
      | true =>
        have hjob : i.job = some pid := by rw [Input.job, if_pos ⟨hbuiltin, hback⟩, hpid]
        rw [hafter, hjob]
        by_cases hlt : s.queue.length < maxBackground
        · simp only [Session.execute, if_pos hlt, if_true]
          have hno : ¬ (maxBackground ≤ s.queue.length ∧ (some pid).isSome = true) := fun h => absurd h.1 (Nat.not_le_of_lt hlt)
          refine ⟨?_, iff_of_false (by rintro ⟨⟩) hno, iff_of_true ⟨_, rfl⟩ hno⟩
          rintro s' ⟨⟩
          exact ⟨rfl, rfl, hchildren.append_right [pid], by
            rw [List.length_append]
            exact hlt⟩
        · simp only [Session.execute, if_neg hlt, if_true]
          have hfull : maxBackground ≤ s.queue.length ∧ (some pid).isSome = true := ⟨Nat.le_of_not_lt hlt, rfl⟩
          exact ⟨by rintro _ ⟨⟩, iff_of_true trivial hfull, iff_of_false (by rintro ⟨_, ⟨⟩⟩) fun h => h hfull⟩

/-- Line after line. -/
theorem Session.run_kept {t : Descriptors F} (ht : Usable t) (inputs : List (Input F)) {queue : List ℕ} {s : Session F}
    (h : Kept t queue s) :
    List.Forall₂ (fun child i => Started.For child t i) (s.run inputs).1 ((handled queue inputs).filter (·.Forks)) ∧
      (∀ s', (s.run inputs).2 = .goes s' → Kept t (jobs queue inputs) s') ∧
      ((s.run inputs).2 = .fault ↔ ∃ pre i post s', inputs = pre ++ i :: post ∧ (s.run pre).2 = .goes s' ∧
        i.Breaks (jobs queue pre)) := by
  induction inputs generalizing queue s with
  | nil =>
    refine ⟨.nil, ?_, iff_of_false (by rintro ⟨⟩) ?_⟩
    · rintro s' ⟨⟩
      exact h
    · rintro ⟨pre, i, post, -, heq, -⟩
      exact List.append_ne_nil_of_right_ne_nil pre (List.cons_ne_nil i post) heq.symm
  | cons i inputs ih =>
    obtain ⟨hchild, hgoes, hfault, hends⟩ := Session.step_kept ht h i
    have hfirst : ∀ pre i' post, i :: inputs = pre ++ i' :: post → pre = [] ∧ i' = i ∨
        ∃ pre', pre = i :: pre' ∧ inputs = pre' ++ i' :: post := by
      intro pre i' post heq
      cases pre with
      | nil => exact Or.inl ⟨rfl, (List.cons.inj heq).1.symm⟩
      | cons i'' pre' =>
        obtain ⟨rfl, hrest⟩ := List.cons.inj heq
        exact Or.inr ⟨pre', rfl, hrest⟩
    have hforks : ∀ more, (i :: more).filter (·.Forks) = (if i.Forks then [i] else []) ++ more.filter (·.Forks) := by
      intro more
      rw [List.filter_cons]
      by_cases hi : i.Forks <;> simp [hi]
    rw [handled, hforks]
    rcases hstep : s.step i with ⟨started, outcome⟩
    rw [hstep] at hchild hgoes hfault hends
    cases outcome with
    | goes s₁ =>
      obtain ⟨hchild₁, hgoes₁, hfault₁⟩ := ih (hgoes s₁ rfl)
      have hrun : ∀ inputs, s.run (i :: inputs) = (started.toList ++ (s₁.run inputs).1, (s₁.run inputs).2) := by
        intro inputs
        simp only [Session.run, hstep]
      have hnot : ¬ i.Breaks queue := fun hbreaks => by cases hfault.mpr hbreaks
      rw [hrun, if_neg (hends.mp ⟨s₁, rfl⟩)]
      refine ⟨List.rel_append hchild hchild₁, hgoes₁, hfault₁.trans ⟨?_, ?_⟩⟩
      · rintro ⟨pre, i', post, s', rfl, hpre, hbreaks⟩
        exact ⟨i :: pre, i', post, s', rfl, by rw [hrun]; exact hpre, hbreaks⟩
      · rintro ⟨pre, i', post, s', heq, hpre, hbreaks⟩
        rcases hfirst pre i' post heq with ⟨rfl, rfl⟩ | ⟨pre', rfl, hrest⟩
        · exact absurd hbreaks hnot
        · rw [hrun] at hpre
          exact ⟨pre', i', post, s', hrest, hpre, hbreaks⟩
    | exits code =>
      have hrun : ∀ inputs, s.run (i :: inputs) = (started.toList, .exits code) := by
        intro inputs
        simp only [Session.run, hstep]
      have hlast : i.Ends queue := not_not.mp fun hno => by obtain ⟨_, ⟨⟩⟩ := hends.mpr hno
      rw [hrun, if_pos hlast, List.filter_nil, List.append_nil]
      refine ⟨hchild, by rintro _ ⟨⟩, iff_of_false (by rintro ⟨⟩) ?_⟩
      rintro ⟨pre, i', post, s', heq, hpre, hbreaks⟩
      rcases hfirst pre i' post heq with ⟨rfl, rfl⟩ | ⟨pre', rfl, -⟩
      · cases hfault.mpr hbreaks
      · rw [hrun] at hpre
        cases hpre
    | fault =>
      have hrun : ∀ inputs, s.run (i :: inputs) = (started.toList, .fault) := by
        intro inputs
        simp only [Session.run, hstep]
      have hlast : i.Ends queue := Or.inl (hfault.mp rfl)
      rw [hrun, if_pos hlast, List.filter_nil, List.append_nil]
      exact ⟨hchild, by rintro _ ⟨⟩, iff_of_true rfl ⟨[], i, inputs, s, rfl, rfl, hfault.mp rfl⟩⟩

/-- **A session of the shell**, begun with an input, an output and three descriptors to spare. Whatever its lines are, whatever
can be opened and whatever `fork` returns:

* the children are those of the lines that fork, one for each, in order: each has the input and the output that its line tells,
  and the arguments;
* as long as the shell goes on it has open just what it had at the beginning, the array holds the background commands since the
  last `wait`, and these are the children that have not been waited for;
* it leaves an array exactly if it comes to a line of `MAXTOKS` tokens or more, or to a background command when 1024 of them are
  in the array. -/
theorem session_runs (t : Descriptors F) (ht : Usable t) (inputs : List (Input F)) :
    List.Forall₂ (fun child i => child.For t i) ((Session.start t).run inputs).1 ((handled [] inputs).filter (·.Forks)) ∧
      (∀ s, ((Session.start t).run inputs).2 = .goes s →
        s.files = t ∧ s.queue = jobs [] inputs ∧ s.children.Perm s.queue ∧ s.queue.length ≤ maxBackground) ∧
      (((Session.start t).run inputs).2 = .fault ↔
        ∃ pre i post s, inputs = pre ++ i :: post ∧ ((Session.start t).run pre).2 = .goes s ∧ i.Breaks (jobs [] pre)) := by
  obtain ⟨hchild, hgoes, hfault⟩ := Session.run_kept ht inputs
    (⟨rfl, rfl, List.Perm.refl [], Nat.zero_le _⟩ : Kept t [] (Session.start t))
  refine ⟨hchild, fun s hs => ?_, hfault⟩
  obtain ⟨hfiles, hqueue, hchildren, hlength⟩ := hgoes s hs
  exact ⟨hfiles, hqueue, hqueue ▸ hchildren, hqueue ▸ hlength⟩

/-- The standard descriptors, of sixteen. -/
def threeOpen : Descriptors ℕ := ⟨16, fun fd => if fd < 3 then some fd else none⟩

/-- A command in the background, and one that is redirected. -/
def twoLines : List (Input ℕ) :=
  [⟨.ofString "sleep 5 &\n", fun _ => none, fun _ => none, some 7⟩,
    ⟨.ofString "sort -r < in > out\n", fun _ => some 10, fun _ => some 11, some 8⟩]

/-- `session_runs` for them. -/
theorem session_runs_two :
    List.Forall₂ (fun child i => child.For threeOpen i) ((Session.start threeOpen).run twoLines).1
        ((handled [] twoLines).filter (·.Forks)) ∧
      (∀ s, ((Session.start threeOpen).run twoLines).2 = .goes s →
        s.files = threeOpen ∧ s.queue = jobs [] twoLines ∧ s.children.Perm s.queue ∧ s.queue.length ≤ maxBackground) ∧
      (((Session.start threeOpen).run twoLines).2 = .fault ↔
        ∃ pre i post s, twoLines = pre ++ i :: post ∧ ((Session.start threeOpen).run pre).2 = .goes s ∧
          i.Breaks (jobs [] pre)) :=
  session_runs threeOpen ⟨⟨0, rfl⟩, ⟨1, rfl⟩, by decide⟩ twoLines

end Cs162Hw.Shell
