import Mathlib.Data.List.Basic
import Mathlib.Data.Nat.Notation
import Mathlib.Order.Nat
import Cs162Hw.Kv.Message
import Cs162Hw.Library.Pieces

/-!
# Token arrays

`hw1/parse.c` and `hw1/shell.c`: arrays of `MAXTOKS` pointers to strings, which a loop goes through until it meets
`NULL`. `get_toks` makes one of a line, `get_multiplePath` one of a command and the `PATH`; the shell looks through the first for
redirections and `&`, the child through the second for an executable.

A loop here goes through the cells from one on. It has no result (`none`) if there are no more of them and it goes on.

* `getToks_eq`: a line's array holds its first `MAXTOKS` tokens, and `NULL` behind them if there is room.
* `getMultiplePath_eq`: the array of `get_multiplePath` holds the paths, and behind them what `malloc` has left there.
* **`tokens_safe_iff`**: both arrays are terminated directly behind their last token, and no loop leaves one, exactly if the
  line has less than `MAXTOKS` tokens, the `PATH` less than `MAXTOKS - 1`, and there happens to be a `NULL` behind
  the paths.
-/

namespace Cs162Hw.Shell

open Kv

/-! ## The arrays -/

/-- `tok_t`, if it is not `NULL`: the string that it points to. -/
abbrev Tok := List UInt8

/-- A cell of an array: `NULL` is `none`. A cell that nothing has been written to may point anywhere. -/
abbrev Cell := Option Tok

/-- `MAXTOKS`. -/
def maxtoks : ℕ := 100

/-- `tok_t [MAXTOKS]`. -/
structure TokArray where
  /-- The cells. -/
  cells : List Cell
  /-- Their number. -/
  length_eq : cells.length = maxtoks

/-- A character of `TOKseparator`. -/
def isSeparator (c : UInt8) : Bool := c = Ascii.space || c = Ascii.lf || c = Ascii.colon

/-- `strtok`, on what it has not scanned: the token, and what is left. -/
def strtok (s : List UInt8) : Option (Tok × List UInt8) :=
  match s.dropWhile isSeparator with
  | [] => none
  | c :: s =>
    some ((c :: s).takeWhile fun c => !isSeparator c, ((c :: s).dropWhile fun c => !isSeparator c).drop 1)

/-- The second loop of `get_toks`. -/
def fillToks : List Cell → List UInt8 → List Cell
  | [], _ => []
  | cell :: cells, s =>
    match strtok s with
    | none => cell :: cells
    | some (c, s) => some c :: fillToks cells s

theorem fillToks_length (cells : List Cell) (s : List UInt8) : (fillToks cells s).length = cells.length := by
  induction cells generalizing s with
  | nil => rfl
  | cons cell cells ih =>
    rw [fillToks]
    cases strtok s with
    | none => rfl
    | some r => exact congrArg (· + 1) (ih r.2)

/-- `get_toks`. -/
def getToks (line : CString) : TokArray where
  cells := fillToks (List.replicate maxtoks none) line.bytes
  length_eq := (fillToks_length ..).trans List.length_replicate

/-- `concat`. -/
def concat (s₁ s₂ : Tok) : Tok := s₁ ++ Ascii.slash :: s₂

/-- The loop of `get_multiplePath`, `iter` and `res` from a cell on. -/
def fillPaths (filePath : Tok) : List Cell → List Cell → Option (List Cell)
  | [], _ => none
  | none :: _, res => some res
  | some _ :: _, [] => none
  | some dir :: iter, _ :: res => do
    let res ← fillPaths filePath iter res
    some (some (concat dir filePath) :: res)

/-- `get_multiplePath`, `res` being what `malloc` returns. -/
def getMultiplePath (filePath : Tok) (path : CString) (res : TokArray) : Option (List Cell) :=
  match res.cells with
  | [] => none
  | _ :: res => do
    let res ← fillPaths filePath (getToks path).cells res
    some (some filePath :: res)

/-! ## The loops -/

/-- The inner loop of `isThereFileDirection`. -/
def clear : List Cell → Option (List Cell)
  | [] => none
  | none :: rest => some (none :: rest)
  | some _ :: rest => do
    let rest ← clear rest
    some (none :: rest)

/-- `isThereFileDirection`: what is written to `fileDes`, if the sign is there, and the array. -/
def isThereFileDirection (sign : Tok) : List Cell → Option (Option Cell × List Cell)
  | [] => none
  | none :: rest => some (none, none :: rest)
  | some tok :: rest =>
    if tok = sign then do
      let fileDes ← rest.head?
      let rest ← clear rest
      some (some fileDes, none :: rest)
    else do
      let (fileDes, rest) ← isThereFileDirection sign rest
      some (fileDes, some tok :: rest)

/-- `isBackGround`: whether there is a `&`, and the array. -/
def isBackGround : List Cell → Option (Bool × List Cell)
  | [] => none
  | none :: rest => some (false, none :: rest)
  | some tok :: rest =>
    if tok = lit "&" then some (true, none :: rest)
    else do
      let (isBack, rest) ← isBackGround rest
      some (isBack, some tok :: rest)

/-- What `shell` finds in the tokens of a line. -/
structure Processed where
  /-- `fileDes` where the output is redirected. -/
  output : Option Cell
  /-- `fileDes` where the input is redirected. -/
  input : Option Cell
  /-- `isBack`. -/
  isBack : Bool
  /-- The tokens that are left. -/
  tokens : List Cell
  deriving DecidableEq

/-- `shell` between `get_toks` and the execution of the command. -/
def processTokens (tokens : TokArray) : Option Processed := do
  let (output, tokens) ← isThereFileDirection (lit ">") tokens.cells
  let (input, tokens) ← isThereFileDirection (lit "<") tokens
  let (isBack, tokens) ← isBackGround tokens
  some ⟨output, input, isBack, tokens⟩

/-- The arguments that `execv` takes. -/
def execvArgs : List Cell → Option (List Tok)
  | [] => none
  | none :: _ => some []
  | some tok :: rest => do
    let args ← execvArgs rest
    some (tok :: args)

/-- The loop of the child over the paths, `runs` telling of which `isExecutable` is true and `execv` does not return. -/
def search (runs : Tok → Bool) : List Cell → Option (Option Tok)
  | [] => none
  | none :: _ => some none
  | some path :: rest => if runs path then some (some path) else search runs rest

/-- `freeMulPath`. -/
def freeMulPath : List Cell → Option Unit
  | [] => none
  | none :: _ => some ()
  | some _ :: rest => freeMulPath rest

/-! ## The tokens of a line -/

/-- The tokens of a line: what stands between two separators, if that is not empty. -/
def tokens (s : List UInt8) : List Tok := (s.splitOnP isSeparator).filter (· ≠ [])

/-- What a pass for a redirection finds in a list of tokens, and what it leaves of it. -/
def redirection (sign : Tok) : List Tok → Option Cell × List Tok
  | [] => (none, [])
  | tok :: toks =>
    if tok = sign then (some toks.head?, [])
    else ((redirection sign toks).1, tok :: (redirection sign toks).2)

/-- What the pass for `&` finds, and what it leaves. -/
def marker : List Tok → Bool × List Tok
  | [] => (false, [])
  | tok :: toks => if tok = lit "&" then (true, []) else ((marker toks).1, tok :: (marker toks).2)

/-- What there is to be found in a list of tokens. -/
@[ext]
structure View where
  /-- Where the output goes. -/
  output : Option Cell
  /-- Where the input comes from. -/
  input : Option Cell
  /-- Is it to be run in the background? -/
  isBack : Bool
  /-- The arguments. -/
  args : List Tok

/-- What the three passes find. -/
def view (toks : List Tok) : View :=
  let output := redirection (lit ">") toks
  let input := redirection (lit "<") output.2
  let isBack := marker input.2
  ⟨output.1, input.1, isBack.1, isBack.2⟩

/-- An array is terminated directly behind the tokens. -/
def Terminated (toks : List Tok) (cells : List Cell) : Prop := ∃ rest, cells = toks.map some ++ none :: rest

section

variable {s t : List UInt8} {c : UInt8} {tok : Tok} {cells rest : List Cell} {toks : List Tok}

theorem tokens_eq (s : List UInt8) : tokens s = Library.pieces isSeparator s := rfl

theorem tokens_dropWhile (s : List UInt8) : tokens (s.dropWhile isSeparator) = tokens s := by
  induction s with
  | nil => rfl
  | cons c s ih =>
    cases h : isSeparator c with
    | true => rw [List.dropWhile_cons_of_pos h, ih, tokens_eq, tokens_eq, Library.pieces_cons h]
    | false => rw [List.dropWhile_cons_of_neg (by simp [h])]

/-- `strtok` finds the first token. -/
theorem strtok_spec (s : List UInt8) :
    (strtok s = none ∧ tokens s = []) ∨ ∃ tok s', strtok s = some (tok, s') ∧ tokens s = tok :: tokens s' := by
  rw [strtok, ← tokens_dropWhile s]
  have hhead := List.head?_dropWhile_not isSeparator s
  cases hs : s.dropWhile isSeparator with
  | nil => exact .inl ⟨rfl, rfl⟩
  | cons c s =>
    right
    rw [hs] at hhead
    have hc : (!isSeparator c) = true := by simpa using hhead
    obtain ⟨tok, htok⟩ : ∃ tok, (c :: s).takeWhile (fun c => !isSeparator c) = tok := ⟨_, rfl⟩
    obtain ⟨t, ht⟩ : ∃ t, (c :: s).dropWhile (fun c => !isSeparator c) = t := ⟨_, rfl⟩
    have hsplit : c :: s = tok ++ t := by rw [← htok, ← ht, List.takeWhile_append_dropWhile]
    have hne : tok ≠ [] := by
      rw [← htok, @List.takeWhile_cons_of_pos _ (fun c => !isSeparator c) _ _ hc]
      exact List.cons_ne_nil _ _
    have hin : ∀ x ∈ tok, isSeparator x = false := by
      rw [← htok]
      intro x hx
      simpa using List.mem_takeWhile_imp hx
    refine ⟨tok, t.drop 1, by simp only [htok, ht], ?_⟩
    rw [hsplit, tokens_eq, tokens_eq]
    cases t with
    | nil => rw [List.append_nil, Library.pieces_eq_singleton hne hin, List.drop_nil, Library.pieces_nil]
    | cons d t =>
      have hd : isSeparator d = true := by
        have hnot := List.head?_dropWhile_not (fun c => !isSeparator c) (c :: s)
        rw [ht] at hnot
        simpa using hnot
      exact Library.pieces_append_cons hne hin hd

/-- **The array of a line**: its tokens, as many as there are cells, and behind them what was there. -/
theorem fillToks_eq (cells : List Cell) (s : List UInt8) :
    fillToks cells s = ((tokens s).take cells.length).map some ++ cells.drop (tokens s).length := by
  induction cells generalizing s with
  | nil => simp [fillToks]
  | cons cell cells ih =>
    rw [fillToks]
    rcases strtok_spec s with ⟨h, htoks⟩ | ⟨tok, s', h, htoks⟩
    · rw [h, htoks]
      rfl
    · rw [h, htoks]
      simp [ih s']

theorem getToks_eq (line : CString) : (getToks line).cells =
    ((tokens line.bytes).take maxtoks).map some ++ List.replicate (maxtoks - (tokens line.bytes).length) none := by
  show fillToks _ _ = _
  rw [fillToks_eq, List.length_replicate, List.drop_replicate]

/-- A line's array is terminated if there is room. -/
theorem getToks_terminated {line : CString} (h : (tokens line.bytes).length < maxtoks) :
    Terminated (tokens line.bytes) (getToks line).cells := by
  obtain ⟨n, hn⟩ := Nat.exists_eq_add_of_lt h
  refine ⟨List.replicate n none, ?_⟩
  rw [getToks_eq, List.take_of_length_le h.le, ← List.replicate_succ]
  congr 2
  omega

/-! ## The loops on an array that is terminated -/

theorem Terminated.length_lt (h : Terminated toks cells) : toks.length < cells.length := by
  obtain ⟨rest, rfl⟩ := h
  rw [List.length_append, List.length_map, List.length_cons]
  omega

theorem Terminated.cons_iff {cell : Cell} :
    Terminated (tok :: toks) (cell :: cells) ↔ cell = some tok ∧ Terminated toks cells := by
  constructor
  · rintro ⟨rest, h⟩
    obtain ⟨rfl, rfl⟩ := List.cons.inj h
    exact ⟨rfl, rest, rfl⟩
  · rintro ⟨rfl, rest, rfl⟩
    exact ⟨rest, rfl⟩

theorem terminated_nil (rest : List Cell) : Terminated [] (none :: rest) := ⟨rest, rfl⟩

theorem Terminated.clear (h : Terminated toks cells) : ∃ cells', Shell.clear cells = some (none :: cells') := by
  obtain ⟨rest, rfl⟩ := h
  induction toks with
  | nil => exact ⟨rest, rfl⟩
  | cons tok toks ih =>
    obtain ⟨cells', h⟩ := ih
    refine ⟨none :: cells', ?_⟩
    rw [List.map_cons, List.cons_append, Shell.clear, h]
    rfl

/-- What `isThereFileDirection` makes of the tokens: those from the sign on are lost. -/
theorem Terminated.isThereFileDirection (h : Terminated toks cells) (sign : Tok) :
    ∃ cells', isThereFileDirection sign cells = some ((redirection sign toks).1, cells') ∧
      Terminated (redirection sign toks).2 cells' := by
  obtain ⟨rest, rfl⟩ := h
  induction toks with
  | nil => exact ⟨_, rfl, terminated_nil rest⟩
  | cons t toks ih =>
    rw [List.map_cons, List.cons_append, Shell.isThereFileDirection, redirection]
    by_cases hsign : t = sign
    · obtain ⟨cells', hclear⟩ := @Terminated.clear _ toks ⟨rest, rfl⟩
      rw [if_pos hsign, if_pos hsign, hclear]
      refine ⟨none :: none :: cells', ?_, terminated_nil _⟩
      cases toks <;> rfl
    · obtain ⟨cells', h, hterm⟩ := ih
      rw [if_neg hsign, if_neg hsign, h]
      exact ⟨some t :: cells', rfl, Terminated.cons_iff.mpr ⟨rfl, hterm⟩⟩

/-- What `isBackGround` makes of them. -/
theorem Terminated.isBackGround (h : Terminated toks cells) :
    ∃ cells', isBackGround cells = some ((marker toks).1, cells') ∧ Terminated (marker toks).2 cells' := by
  obtain ⟨rest, rfl⟩ := h
  induction toks with
  | nil => exact ⟨_, rfl, terminated_nil rest⟩
  | cons t toks ih =>
    rw [List.map_cons, List.cons_append, Shell.isBackGround, marker]
    by_cases hsign : t = lit "&"
    · rw [if_pos hsign, if_pos hsign]
      exact ⟨_, rfl, terminated_nil _⟩
    · obtain ⟨cells', h, hterm⟩ := ih
      rw [if_neg hsign, if_neg hsign, h]
      exact ⟨some t :: cells', rfl, Terminated.cons_iff.mpr ⟨rfl, hterm⟩⟩

/-- `execv` takes the tokens for its arguments. -/
theorem Terminated.execvArgs (h : Terminated toks cells) : execvArgs cells = some toks := by
  obtain ⟨rest, rfl⟩ := h
  induction toks with
  | nil => rfl
  | cons t toks ih =>
    rw [List.map_cons, List.cons_append, Shell.execvArgs, ih]
    rfl

/-- The child tries them one after another. -/
theorem Terminated.search (h : Terminated toks cells) (runs : Tok → Bool) : search runs cells = some (toks.find? runs) := by
  obtain ⟨rest, rfl⟩ := h
  induction toks with
  | nil => rfl
  | cons t toks ih =>
    rw [List.map_cons, List.cons_append, Shell.search, ih, List.find?_cons]
    cases runs t <;> rfl

theorem Terminated.freeMulPath (h : Terminated toks cells) : freeMulPath cells = some () := by
  obtain ⟨rest, rfl⟩ := h
  induction toks with
  | nil => rfl
  | cons t toks ih => exact ih

/-- **What `shell` makes of the tokens**: its three loops stay in an array that is terminated, and leave it terminated. -/
theorem Terminated.processTokens {array : TokArray} (h : Terminated toks array.cells) :
    ∃ cells, processTokens array = some ⟨(view toks).output, (view toks).input, (view toks).isBack, cells⟩ ∧
      Terminated (view toks).args cells := by
  obtain ⟨cells₁, h₁, hterm₁⟩ := h.isThereFileDirection (lit ">")
  obtain ⟨cells₂, h₂, hterm₂⟩ := hterm₁.isThereFileDirection (lit "<")
  obtain ⟨cells₃, h₃, hterm₃⟩ := hterm₂.isBackGround
  refine ⟨cells₃, ?_, hterm₃⟩
  simp only [Shell.processTokens, h₁, h₂, h₃, Option.bind_eq_bind, Option.bind_some]
  rfl

/-! ## The loops on an array that is not -/

theorem clear_full (h : none ∉ cells) : clear cells = none := by
  induction cells with
  | nil => rfl
  | cons cell cells ih =>
    cases cell with
    | none => exact absurd List.mem_cons_self h
    | some t =>
      rw [clear, ih fun hmem => h (List.mem_cons_of_mem _ hmem)]
      rfl

/-- `isThereFileDirection` leaves an array that holds no `NULL`, be the sign in it or not. -/
theorem isThereFileDirection_full (h : none ∉ cells) (sign : Tok) : isThereFileDirection sign cells = none := by
  induction cells with
  | nil => rfl
  | cons cell cells ih =>
    cases cell with
    | none => exact absurd List.mem_cons_self h
    | some t =>
      have hrest : none ∉ cells := fun hmem => h (List.mem_cons_of_mem _ hmem)
      rw [isThereFileDirection]
      by_cases hsign : t = sign
      · rw [if_pos hsign, clear_full hrest]
        cases cells <;> rfl
      · rw [if_neg hsign, ih hrest]
        rfl

/-- So `shell` leaves the array of a line that has `MAXTOKS` tokens or more. -/
theorem processTokens_full {line : CString} (h : maxtoks ≤ (tokens line.bytes).length) : processTokens (getToks line) = none := by
  have hfull : none ∉ (getToks line).cells := by
    rw [getToks_eq, Nat.sub_eq_zero_of_le h, List.replicate_zero, List.append_nil]
    intro hmem
    obtain ⟨_, -, hnone⟩ := List.mem_map.mp hmem
    cases hnone
  rw [processTokens, isThereFileDirection_full hfull]
  rfl

/-! ## The paths -/

theorem fillPaths_length {filePath : Tok} {iter res res' : List Cell} (h : fillPaths filePath iter res = some res') :
    res'.length = res.length := by
  induction iter generalizing res res' with
  | nil => cases h
  | cons cell iter ih =>
    cases cell with
    | none => exact congrArg List.length (Option.some.inj h).symm
    | some dir =>
      cases res with
      | nil => cases h
      | cons c res =>
        obtain ⟨res₁, h₁, h⟩ := Option.bind_eq_some_iff.mp h
        obtain rfl := Option.some.inj h
        exact congrArg (· + 1) (ih h₁)

/-- The paths, and behind them what there was. -/
theorem Terminated.fillPaths {dirs : List Tok} (h : Terminated dirs cells) (filePath : Tok) {res : List Cell}
    (hlen : dirs.length ≤ res.length) :
    fillPaths filePath cells res = some ((dirs.map fun dir => concat dir filePath).map some ++ res.drop dirs.length) := by
  obtain ⟨rest, rfl⟩ := h
  induction dirs generalizing res with
  | nil => rfl
  | cons dir dirs ih =>
    cases res with
    | nil => exact absurd hlen (Nat.not_succ_le_zero _)
    | cons c res =>
      rw [List.map_cons, List.cons_append, Shell.fillPaths, ih (Nat.le_of_succ_le_succ hlen)]
      rfl

theorem getMultiplePath_length {filePath : Tok} {path : CString} {res : TokArray}
    (h : getMultiplePath filePath path res = some cells) : cells.length = maxtoks := by
  obtain ⟨_ | ⟨cell, res⟩, hres⟩ := res
  · cases h
  · obtain ⟨res', h', h⟩ := Option.bind_eq_some_iff.mp h
    obtain rfl := Option.some.inj h
    exact (congrArg (· + 1) (fillPaths_length h')).trans hres

/-- The file, and the file in each directory of the `PATH`. -/
def paths (filePath : Tok) (path : CString) : List Tok :=
  filePath :: (tokens path.bytes).map fun dir => concat dir filePath

/-- **The array of `get_multiplePath`**, if the entries of the `PATH` have room in theirs. -/
theorem getMultiplePath_eq (filePath : Tok) {path : CString} (res : TokArray) (h : (tokens path.bytes).length < maxtoks) :
    getMultiplePath filePath path res =
      some ((paths filePath path).map some ++ res.cells.drop ((tokens path.bytes).length + 1)) := by
  obtain ⟨_ | ⟨cell, res⟩, hres⟩ := res
  · cases hres
  · have hlen : (tokens path.bytes).length ≤ res.length := by
      rw [List.length_cons] at hres
      omega
    simp only [getMultiplePath, (getToks_terminated h).fillPaths filePath hlen, Option.bind_eq_bind, Option.bind_some]
    rfl

/-- `get_multiplePath` returns an array that is terminated exactly if there is room for it, and the first cell that it does not
write to is `NULL`. -/
theorem getMultiplePath_terminated_iff {filePath : Tok} {path : CString} {res : TokArray} :
    (∃ cells, getMultiplePath filePath path res = some cells ∧ Terminated (paths filePath path) cells) ↔
      (tokens path.bytes).length + 1 < maxtoks ∧ res.cells[(tokens path.bytes).length + 1]? = some none := by
  have hlen : (paths filePath path).length = (tokens path.bytes).length + 1 := by
    rw [paths, List.length_cons, List.length_map]
  constructor
  · rintro ⟨cells, h, hterm⟩
    have hroom := hterm.length_lt
    rw [getMultiplePath_length h, hlen] at hroom
    refine ⟨hroom, ?_⟩
    obtain ⟨rest, hrest⟩ := hterm
    rw [getMultiplePath_eq filePath res (Nat.lt_of_succ_lt hroom), Option.some.injEq] at h
    have hdrop := List.append_cancel_left (h.trans hrest)
    rw [← List.head?_drop, hdrop]
    rfl
  · rintro ⟨hroom, hnull⟩
    refine ⟨_, getMultiplePath_eq filePath res (Nat.lt_of_succ_lt hroom), ?_⟩
    obtain ⟨hlt, hcell⟩ := List.getElem?_eq_some_iff.mp hnull
    refine ⟨res.cells.drop ((tokens path.bytes).length + 1 + 1), ?_⟩
    rw [List.drop_eq_getElem_cons hlt, hcell]

/-- What `shell` relies on: each array has a `NULL` directly behind its last token, and no loop leaves one. -/
structure Safe (line path : CString) (res : TokArray) : Prop where
  /-- The tokens of the line. -/
  toks : Terminated (tokens line.bytes) (getToks line).cells
  /-- The paths. -/
  paths : ∀ filePath, ∃ cells, getMultiplePath filePath path res = some cells ∧ Terminated (paths filePath path) cells
  /-- `shell` goes through the tokens, and so does `execv`. -/
  shell : ∃ r, processTokens (getToks line) = some r ∧ execvArgs r.tokens ≠ none
  /-- The child goes through the paths. -/
  child : ∀ filePath cells runs, getMultiplePath filePath path res = some cells →
    search runs cells ≠ none ∧ freeMulPath cells ≠ none

/-- **Where the arrays are terminated**: the line has less than `MAXTOKS` tokens, the `PATH` less than `MAXTOKS - 1`, and the cell
behind the paths, which `get_multiplePath` does not write to, is `NULL`. -/
theorem tokens_safe_iff (line path : CString) (res : TokArray) :
    Safe line path res ↔
      (tokens line.bytes).length < maxtoks ∧ (tokens path.bytes).length + 1 < maxtoks ∧
        res.cells[(tokens path.bytes).length + 1]? = some none := by
  constructor
  · intro h
    refine ⟨?_, getMultiplePath_terminated_iff.mp (h.paths [])⟩
    rw [← (getToks line).length_eq]
    exact h.toks.length_lt
  · rintro ⟨hline, hpath⟩
    have hpaths := fun filePath => (@getMultiplePath_terminated_iff filePath path res).mpr hpath
    refine ⟨getToks_terminated hline, hpaths, ?_, fun filePath cells runs hcells => ?_⟩
    · obtain ⟨cells, hr, hterm⟩ := (getToks_terminated hline).processTokens
      refine ⟨_, hr, ?_⟩
      rw [hterm.execvArgs]
      exact Option.some_ne_none _
    · obtain ⟨cells', hcells', hterm⟩ := hpaths filePath
      obtain rfl := Option.some.inj (hcells.symm.trans hcells')
      rw [hterm.search, hterm.freeMulPath]
      exact ⟨Option.some_ne_none _, Option.some_ne_none _⟩

/-- What `malloc` returns may hold no `NULL`. -/
def noNull : TokArray := ⟨List.replicate maxtoks (some []), List.length_replicate⟩

/-- With `ls` and a `PATH` of two directories, the child goes on behind the paths, and out of the array. -/
theorem noNull_not_safe : ¬ Safe (.ofString "ls\n") (.ofString "/bin:/usr/bin") noNull ∧
    getMultiplePath (lit "ls") (.ofString "/bin:/usr/bin") noNull =
      some ([some (lit "ls"), some (lit "/bin/ls"), some (lit "/usr/bin/ls")] ++ List.replicate 97 (some [])) ∧
    search (fun _ => false) ([some (lit "ls"), some (lit "/bin/ls"), some (lit "/usr/bin/ls")] ++
      List.replicate 97 (some [])) = none := by
  refine ⟨fun h => ?_, by decide, by decide⟩
  have hnull := (getMultiplePath_terminated_iff.mp (h.paths (lit "ls"))).2
  exact absurd hnull (by decide)

end

end Cs162Hw.Shell
