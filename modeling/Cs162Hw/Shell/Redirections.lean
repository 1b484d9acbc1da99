import Cs162Hw.Shell.Tokens

/-!
# Redirections

The command lines of `hw1/shell.c`: words, `> f`, `< g` in either order, and `&`. `shell` looks for `>`, then for `<`, then for
`&`, and each time it finds a redirection, it throws away everything behind the sign, what the later passes look for
included.

* `view_words`: the words stay, whatever follows them.
* **`command_understood_iff`**: which commands `shell` takes for what they are.
-/

namespace Cs162Hw.Shell

open Kv

/-- A command as it is meant. -/
structure Command where
  /-- The command and its arguments. -/
  words : List Tok
  /-- None of them is a sign. -/
  plain : ∀ w ∈ words, w ≠ lit ">" ∧ w ≠ lit "<" ∧ w ≠ lit "&"
  /-- Where the output goes. -/
  output : Option Tok
  /-- Where the input comes from. -/
  input : Option Tok
  /-- Does the redirection of the output come first, if there are both? -/
  outputFirst : Bool
  /-- Is it to be run in the background? -/
  isBack : Bool

namespace Command

/-- A sign and its file, if there is one. -/
def redirect (sign : Tok) : Option Tok → List Tok
  | none => []
  | some file => [sign, file]

/-- What follows the words. -/
def suffix (c : Command) : List Tok :=
  (if c.outputFirst then redirect (lit ">") c.output ++ redirect (lit "<") c.input
    else redirect (lit "<") c.input ++ redirect (lit ">") c.output) ++
  if c.isBack then [lit "&"] else []

/-- The tokens of its line. -/
def toks (c : Command) : List Tok := c.words ++ c.suffix

/-- `shell` takes it for what it is: the arguments are the words, and the redirections and `&` are found if they are there. -/
def Understood (c : Command) (line : CString) : Prop :=
  ∃ cells, processTokens (getToks line) = some ⟨c.output.map some, c.input.map some, c.isBack, cells⟩ ∧
    execvArgs cells = some c.words

/-- At most one redirection or `&`, or else the redirection of the input and then that of the output; and no file `>` to
read from. -/
def Simple (c : Command) : Prop :=
  (c.isBack = true → c.output = none ∧ c.input = none) ∧
    (c.outputFirst = true → c.output = none ∨ c.input = none) ∧ c.input ≠ some (lit ">")

end Command

section

variable {sign : Tok} {words toks : List Tok} {c : Command} {line : CString}

theorem redirection_words (h : ∀ w ∈ words, w ≠ sign) : redirection sign (words ++ toks) =
    ((redirection sign toks).1, words ++ (redirection sign toks).2) := by
  induction words with
  | nil => rfl
  | cons w words ih =>
    obtain ⟨hw, h⟩ := List.forall_mem_cons.mp h
    rw [List.cons_append, redirection, if_neg hw, ih h]
    rfl

theorem marker_words (h : ∀ w ∈ words, w ≠ lit "&") : marker (words ++ toks) = ((marker toks).1, words ++ (marker toks).2) := by
  induction words with
  | nil => rfl
  | cons w words ih =>
    obtain ⟨hw, h⟩ := List.forall_mem_cons.mp h
    rw [List.cons_append, marker, if_neg hw, ih h]
    rfl

/-- The words of a command stay. -/
theorem view_words (h : ∀ w ∈ words, w ≠ lit ">" ∧ w ≠ lit "<" ∧ w ≠ lit "&") :
    view (words ++ toks) = { view toks with args := words ++ (view toks).args } := by
  simp only [view, redirection_words fun w hw => (h w hw).1, redirection_words fun w hw => (h w hw).2.1,
    marker_words fun w hw => (h w hw).2.2]

/-- What the passes find behind the words. -/
theorem view_suffix_iff (c : Command) :
    view c.suffix = ⟨c.output.map some, c.input.map some, c.isBack, []⟩ ↔ c.Simple := by
  obtain ⟨words, plain, output, input, outputFirst, isBack⟩ := c
  have h₁ : lit "<" ≠ lit ">" := by decide
  have h₂ : lit "&" ≠ lit ">" := by decide
  have h₃ : lit "&" ≠ lit "<" := by decide
  rcases input with _ | g
  · cases outputFirst <;> cases output <;> cases isBack <;>
      simp [view, redirection, marker, Command.suffix, Command.redirect, Command.Simple, h₂, h₃]
  · -- the pass for `>` goes over the file of the input before it gets to the sign, or to the end
    by_cases hg : g = lit ">"
    · cases outputFirst <;> cases output <;> cases isBack <;>
        simp [view, redirection, marker, Command.suffix, Command.redirect, Command.Simple, h₁, hg]
    · cases outputFirst <;> cases output <;> cases isBack <;>
        simp [view, redirection, marker, Command.suffix, Command.redirect, Command.Simple, h₁, h₂, hg]

/-- **Which commands are understood**: those whose line has less than `MAXTOKS` tokens, of which none is lost to an earlier pass,
and none is taken for a sign that is not. -/
theorem command_understood_iff (h : tokens line.bytes = c.toks) :
    c.Understood line ↔ c.toks.length < maxtoks ∧ c.Simple := by
  by_cases hlen : c.toks.length < maxtoks
  · rw [← view_suffix_iff, and_iff_right hlen]
    obtain ⟨cells, hr, hterm⟩ := (h ▸ getToks_terminated (h ▸ hlen) : Terminated c.toks (getToks line).cells).processTokens
    have hview : view c.toks = { view c.suffix with args := c.words ++ (view c.suffix).args } := view_words c.plain
    rw [hview] at hr hterm
    constructor
    · rintro ⟨cells', hr', hargs⟩
      rw [hr, Option.some.injEq, Processed.mk.injEq] at hr'
      obtain ⟨hout, hin, hback, rfl⟩ := hr'
      rw [hterm.execvArgs, Option.some.injEq] at hargs
      exact View.ext hout hin hback (List.append_right_eq_self.mp hargs)
    · intro hview
      rw [hview] at hr hterm
      exact ⟨cells, hr, by rw [hterm.execvArgs, List.append_nil]⟩
  · refine iff_of_false ?_ fun hsimple => hlen hsimple.1
    rintro ⟨cells, hr, -⟩
    rw [processTokens_full (h ▸ Nat.not_lt.mp hlen)] at hr
    cases hr

/-- `sort -r < in > out`. -/
def sort : Command where
  words := [lit "sort", lit "-r"]
  plain := by decide
  output := some (lit "out")
  input := some (lit "in")
  outputFirst := false
  isBack := false

theorem sort_understood : sort.Understood (.ofString "sort -r < in > out\n") := by
  refine (command_understood_iff (by decide)).mpr ⟨by decide, fun h => ?_, fun h => ?_, by decide⟩
  · cases h
  · cases h

/-- `sleep 5 > log &`. -/
def sleep : Command where
  words := [lit "sleep", lit "5"]
  plain := by decide
  output := some (lit "log")
  input := none
  outputFirst := true
  isBack := true

/-- The `&` is lost behind the redirection: `shell` waits for the command. -/
theorem sleep_not_understood : tokens (CString.ofString "sleep 5 > log &\n").bytes = sleep.toks ∧
    ¬ sleep.Understood (.ofString "sleep 5 > log &\n") := by
  refine ⟨by decide, ?_⟩
  rintro ⟨cells, h, -⟩
  have hback : some false = some true := congrArg (Option.map Processed.isBack) h
  cases hback

end

end Cs162Hw.Shell
