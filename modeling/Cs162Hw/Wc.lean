import Mathlib.Data.UInt
import Cs162Hw.Httpserver.Files
import Cs162Hw.Library.Pieces

/-!
# Counting

`hw0/wc.c` counts the lines, the words and the characters of the standard input, or of a file. There is a loop for
each. A byte goes through a `char`, which is signed, before it is compared with `EOF`: the byte 255 is taken for it.

* `Counting`: what either body does with a byte. The bodies differ in the character before a line (`fileBody_eq`), which
  is a space for both.
* `countLoop_eq`: a loop goes through the bytes up to the first 255, or to the end.
* **`loops_agree`**: the loops end at the same place, with the same numbers.
* **`counted_iff`**: they have counted the lines, the words and the characters exactly if there is no byte 255, and less
  than `2 ^ 31` bytes.
* **`main_stdin_iff`**, **`main_file_iff`**: this can be seen from what is printed.
-/

namespace Cs162Hw.Wc

open Library Kv Httpserver

/-- The variables of a loop: the three counters, which wrap if they overflow, and the character before. -/
structure Counts where
  /-- `lineCount`. -/
  lineCount : Int32
  /-- `wordCount`. -/
  wordCount : Int32
  /-- `charCount`. -/
  charCount : Int32
  /-- `prevCh`. -/
  prevCh : Int8
  deriving DecidableEq

/-- The variables at the beginning of a loop. -/
def initial : Counts := ⟨0, 0, 0, 32⟩

/-- `isspace`, which takes an `int`: of a byte, of `EOF`, or of a negative `char`. -/
def isspace (c : Int32) : Bool := c = 32 ∨ 9 ≤ c ∧ c ≤ 13

/-- The body of the loop on the standard input. -/
def stdinBody (ch : Int8) (s : Counts) : Counts :=
  let s := { s with charCount := s.charCount + 1 }
  if ch = 0 then s
  else
    let s :=
      if isspace s.prevCh.toInt32 && !isspace ch.toInt32 then { s with wordCount := s.wordCount + 1 } else s
    let s := if ch = 10 then { s with lineCount := s.lineCount + 1 } else s
    { s with prevCh := ch }

/-- The body of the loop on a file, which goes on with a space behind a line. -/
def fileBody (ch : Int8) (s : Counts) : Counts :=
  let s := { s with charCount := s.charCount + 1 }
  if ch = 0 then s
  else
    let s :=
      if isspace s.prevCh.toInt32 && !isspace ch.toInt32 then { s with wordCount := s.wordCount + 1 } else s
    if ch = 10 then { s with lineCount := s.lineCount + 1, prevCh := 32 } else { s with prevCh := ch }

/-- `while ((ch = fgetc(file)) != EOF)`, with one of the bodies. `getchar` is `fgetc` of the standard input. -/
def countLoop (body : Int8 → Counts → Counts) : ℕ → Stream → Counts → Option (Stream × Counts)
  | 0, _, _ => none
  | fuel + 1, file, s =>
    let (c, file) := file.fgetc
    let ch : Int8 := c.toInt8
    if ch.toInt32 = -1 then some (file, s) else countLoop body fuel file (body ch s)

/-- The loop on the standard input. -/
def stdinLoop (stdin : Stream) : Option (Stream × Counts) := countLoop stdinBody (stdin.rest.length + 1) stdin initial

/-- The loop on a file. -/
def fileLoop (file : Stream) : Option (Stream × Counts) := countLoop fileBody (file.rest.length + 1) file initial

/-- Three numbers that have been written out, with spaces between them. -/
def line (x y z : CString) : List UInt8 := x.bytes ++ Ascii.space :: (y.bytes ++ Ascii.space :: z.bytes)

/-- `"%d %d %d"`. -/
def report (s : Counts) : List UInt8 := line (formatInt s.lineCount) (formatInt s.wordCount) (formatInt s.charCount)

/-- `fileName`: of several arguments it is the second. -/
def fileName (argv : List CString) : Option CString := if argv.length = 2 then argv[1]? else argv[2]?

/-- `main`: what it prints. `fopen` gives what is in a file that it opens; if it opens none, there is no result, since
`fgetc` gets a `NULL` all the same. -/
def main (argv : List CString) (stdin : List UInt8) (fopen : CString → Option (List UInt8)) : Option (List UInt8) :=
  if argv.length ≤ 1 then do
    let (_, s) ← stdinLoop ⟨stdin, false⟩
    some (report s ++ [Ascii.lf])
  else do
    let name ← fileName argv
    let file ← fopen name
    let (_, s) ← fileLoop ⟨file, false⟩
    some (report s ++ Ascii.space :: name.bytes ++ [Ascii.lf])

/-! ## What there is to count -/

/-- The lines. -/
def lines (content : List UInt8) : ℕ := content.count Ascii.lf

/-- The words: the pieces between the spaces, the NULs left out. -/
def words (content : List UInt8) : ℕ := (pieces isSpace (content.filter (· ≠ 0))).length

/-- A loop has counted what there is: it has ended at the end, with the lines, the words and the characters. -/
def Counted (content : List UInt8) (result : Option (Stream × Counts)) : Prop :=
  ∃ s, result = some (⟨[], true⟩, s) ∧ s.lineCount.toInt = lines content ∧ s.wordCount.toInt = words content ∧
    s.charCount.toInt = content.length

/-! ## Bytes and characters -/

theorem char_of_fgetc (c : UInt8) : (Int32.ofNat c.toNat).toInt8 = c.toInt8 := congrArg Int8.ofUInt8 (byte_of_fgetc c)

theorem char_inj {c d : UInt8} : c.toInt8 = d.toInt8 ↔ c = d := by
  constructor
  · exact congrArg Int8.toUInt8
  · exact congrArg UInt8.toInt8

/-- A byte, as the number that a `char` holds. -/
theorem toInt_char (c : UInt8) :
    c.toNat < 128 ∧ c.toInt8.toInt = c.toNat ∨ 128 ≤ c.toNat ∧ c.toInt8.toInt = c.toNat - 256 := by
  have h : c.toInt8.toInt = if 2 * c.toNat < 256 then (c.toNat : ℤ) else c.toNat - 256 := BitVec.toInt_eq_toNat_cond _
  split_ifs at h <;> omega

/-- The last byte is taken for `EOF`, and no other. -/
theorem eof_iff (c : UInt8) : c.toInt8.toInt32 = -1 ↔ c = 255 := by
  have hlt := c.toNat_lt
  have hchar := toInt_char c
  rw [← Int32.toInt_inj, Int8.toInt_toInt32, ← UInt8.toNat_inj]
  show _ = (-1 : ℤ) ↔ _ = 255
  omega

/-- A `char` that is negative is no space. -/
theorem isspace_char (c : UInt8) : isspace c.toInt8.toInt32 = isSpace c := by
  have hlt := c.toNat_lt
  have hchar := toInt_char c
  rw [isspace, isSpace, decide_eq_decide, ← Int32.toInt_inj, Int32.le_iff_toInt_le, Int32.le_iff_toInt_le,
    Int8.toInt_toInt32, ← UInt8.toNat_inj, UInt8.le_iff_toNat_le, UInt8.le_iff_toNat_le]
  show (_ = (32 : ℤ) ∨ (9 : ℤ) ≤ _ ∧ _ ≤ (13 : ℤ)) ↔ (_ = 32 ∨ 9 ≤ _ ∧ _ ≤ 13)
  omega

/-! ## One byte -/

/-- What a body does with a byte. -/
structure Counting (body : Int8 → Counts → Counts) : Prop where
  /-- A NUL is a character, and nothing else. -/
  nul : ∀ s, body 0 s = { s with charCount := s.charCount + 1 }
  /-- Every byte is a character. -/
  charCount : ∀ (c : UInt8) s, (body c.toInt8 s).charCount = s.charCount + 1
  /-- A line ends at every newline. -/
  lineCount : ∀ (c : UInt8) s, (body c.toInt8 s).lineCount = s.lineCount + if c = Ascii.lf then 1 else 0
  /-- A word starts behind a space. -/
  wordCount : ∀ (c : UInt8) s, c ≠ 0 →
    (body c.toInt8 s).wordCount = s.wordCount + if isspace s.prevCh.toInt32 && !isSpace c then 1 else 0
  /-- What is a space and what is none is told apart behind it. -/
  prevCh : ∀ (c : UInt8) s, c ≠ 0 → isspace (body c.toInt8 s).prevCh.toInt32 = isSpace c

theorem counting_stdinBody : Counting stdinBody where
  nul s := rfl
  charCount c s := by
    simp only [stdinBody]
    split_ifs <;> rfl
  lineCount c s := by
    have hlf : c.toInt8 = 10 ↔ c = Ascii.lf := char_inj
    have hnul : c.toInt8 = 0 ↔ c = 0 := char_inj
    simp only [stdinBody, hlf, hnul]
    by_cases hc : c = 0
    · rw [if_pos hc, if_neg (by rw [hc]; decide), Int32.add_zero]
    · rw [if_neg hc]
      split_ifs <;> simp
  wordCount c s hne := by
    have hnul : ¬ c.toInt8 = 0 := fun h => hne (char_inj.mp h)
    simp only [stdinBody, isspace_char, if_neg hnul]
    split_ifs <;> simp
  prevCh c s hne := by
    have hnul : ¬ c.toInt8 = 0 := fun h => hne (char_inj.mp h)
    rw [stdinBody, if_neg hnul]
    exact isspace_char c

/-- The two bodies differ in what they take for the character before a line. -/
theorem fileBody_eq (ch : Int8) (s : Counts) :
    fileBody ch s = { stdinBody ch s with prevCh := if ch = 10 then 32 else (stdinBody ch s).prevCh } := by
  simp only [fileBody, stdinBody]
  by_cases hnul : ch = 0
  · rw [if_pos hnul, if_pos hnul, hnul]
    rfl
  · rw [if_neg hnul, if_neg hnul]
    split_ifs <;> rfl

theorem counting_fileBody : Counting fileBody where
  nul s := rfl
  charCount c s := by
    rw [fileBody_eq]
    exact counting_stdinBody.charCount c s
  lineCount c s := by
    rw [fileBody_eq]
    exact counting_stdinBody.lineCount c s
  wordCount c s hne := by
    rw [fileBody_eq]
    exact counting_stdinBody.wordCount c s hne
  prevCh c s hne := by
    rw [fileBody_eq]
    simp only
    by_cases hlf : c.toInt8 = 10
    · rw [if_pos hlf, ← isspace_char, hlf]
      rfl
    · rw [if_neg hlf]
      exact counting_stdinBody.prevCh c s hne

/-! ## A list of bytes -/

section

variable {body : Int8 → Counts → Counts} {content : List UInt8} {s : Counts} {fuel : ℕ}

/-- The body on a list of bytes. -/
def run (body : Int8 → Counts → Counts) (content : List UInt8) (s : Counts) : Counts :=
  content.foldl (fun s c => body c.toInt8 s) s

theorem Counting.charCount_run (h : Counting body) (content : List UInt8) (s : Counts) :
    (run body content s).charCount = s.charCount + .ofNat content.length := by
  induction content generalizing s with
  | nil => exact (Int32.add_zero _).symm
  | cons c content ih =>
    have hstep : (run body (c :: content) s).charCount = (body c.toInt8 s).charCount + .ofNat content.length := ih _
    rw [hstep, h.charCount, List.length_cons, Nat.add_comm, Int32.ofNat_add, Int32.add_assoc]
    rfl

theorem Counting.lineCount_run (h : Counting body) (content : List UInt8) (s : Counts) :
    (run body content s).lineCount = s.lineCount + .ofNat (content.count Ascii.lf) := by
  induction content generalizing s with
  | nil => exact (Int32.add_zero _).symm
  | cons c content ih =>
    have hstep : (run body (c :: content) s).lineCount =
        (body c.toInt8 s).lineCount + .ofNat (content.count Ascii.lf) := ih _
    rw [hstep, h.lineCount, List.count_cons, Nat.add_comm, Int32.ofNat_add, Int32.add_assoc]
    by_cases hc : c = Ascii.lf
    · rw [if_pos hc, if_pos (beq_iff_eq.mpr hc)]
      rfl
    · rw [if_neg hc, if_neg (by simpa using hc)]
      rfl

/-- A word is counted where it starts, NUL or not in front of it. -/
theorem Counting.wordCount_run (h : Counting body) (content : List UInt8) (s : Counts) :
    (run body content s).wordCount =
      s.wordCount + .ofNat (starts isSpace (isspace s.prevCh.toInt32) (content.filter (· ≠ 0))) := by
  induction content generalizing s with
  | nil => exact (Int32.add_zero _).symm
  | cons c content ih =>
    have hstep : (run body (c :: content) s).wordCount = (body c.toInt8 s).wordCount +
        .ofNat (starts isSpace (isspace (body c.toInt8 s).prevCh.toInt32) (content.filter (· ≠ 0))) := ih _
    rw [hstep]
    by_cases hc : c = 0
    · have hnul : body c.toInt8 s = { s with charCount := s.charCount + 1 } := by
        rw [hc]
        exact h.nul s
      rw [hnul, List.filter_cons_of_neg (by simpa using hc)]
    · rw [h.wordCount c s hc, h.prevCh c s hc, List.filter_cons_of_pos (by simpa using hc), starts, Int32.ofNat_add,
        Int32.add_assoc]
      split_ifs <;> rfl

theorem takeWhile_eq (h : 255 ∉ content) : content.takeWhile (· ≠ 255) = content :=
  List.takeWhile_eq_self_iff.mpr fun _ hc => decide_eq_true fun heq => h (heq ▸ hc)

/-- The loop ends at the first byte that is taken for `EOF`, or at the end. -/
theorem countLoop_eq (h : content.length < fuel) :
    countLoop body fuel ⟨content, false⟩ s =
      some (⟨(content.dropWhile (· ≠ 255)).tail, decide (255 ∉ content)⟩, run body (content.takeWhile (· ≠ 255)) s) := by
  induction content generalizing s fuel with
  | nil =>
    obtain ⟨fuel, rfl⟩ := Nat.exists_eq_succ_of_ne_zero (Nat.ne_zero_of_lt h)
    rfl
  | cons c content ih =>
    obtain ⟨fuel, rfl⟩ := Nat.exists_eq_succ_of_ne_zero (Nat.ne_zero_of_lt h)
    simp only [countLoop, Stream.fgetc, char_of_fgetc, eof_iff]
    by_cases hc : c = 255
    · rw [if_pos hc, hc]
      simp [run]
    · rw [if_neg hc, ih (Nat.lt_of_succ_lt_succ h)]
      simp [run, hc, Ne.symm hc]

/-- **Both loops agree**, whatever they read: on where they end, and on what they have counted. -/
theorem loops_agree (content : List UInt8) :
    ∃ file s s', stdinLoop ⟨content, false⟩ = some (file, s) ∧ fileLoop ⟨content, false⟩ = some (file, s') ∧
      s'.lineCount = s.lineCount ∧ s'.wordCount = s.wordCount ∧ s'.charCount = s.charCount := by
  refine ⟨_, _, _, countLoop_eq (Nat.lt_succ_self _), countLoop_eq (Nat.lt_succ_self _), ?_, ?_, ?_⟩
  · rw [counting_fileBody.lineCount_run, counting_stdinBody.lineCount_run]
  · rw [counting_fileBody.wordCount_run, counting_stdinBody.wordCount_run]
  · rw [counting_fileBody.charCount_run, counting_stdinBody.charCount_run]

/-- **What a loop counts**, each number in an `int`. -/
theorem Counting.run_initial (h : Counting body) (content : List UInt8) :
    (run body content initial).lineCount = .ofNat (lines content) ∧
      (run body content initial).wordCount = .ofNat (words content) ∧
      (run body content initial).charCount = .ofNat content.length := by
  rw [h.lineCount_run, h.wordCount_run, h.charCount_run, words, ← starts_eq]
  exact ⟨Int32.zero_add _, Int32.zero_add _, Int32.zero_add _⟩

theorem words_le_length (content : List UInt8) : words content ≤ content.length := by
  rw [words, ← starts_eq]
  exact (starts_le_length _ _).trans (List.length_filter_le _ _)

/-- A number of characters that is right tells that the loop has read them all, and that the counters have room. -/
theorem Counting.charCount_iff (h : Counting body) (content : List UInt8) :
    (run body (content.takeWhile (· ≠ 255)) initial).charCount.toInt = content.length ↔
      255 ∉ content ∧ content.length < 2 ^ 31 := by
  obtain ⟨-, -, hchars⟩ := h.run_initial (content.takeWhile (· ≠ 255))
  rw [hchars]
  constructor
  · intro heq
    have hlt := (Int32.ofNat (content.takeWhile (· ≠ 255)).length).toInt_lt
    rw [heq] at hlt
    have hlen : content.length < 2 ^ 31 := by exact_mod_cast hlt
    have hinit : content.takeWhile (· ≠ 255) <+: content := List.takeWhile_prefix _
    rw [Int32.toInt_ofNat_of_lt (hinit.length_le.trans_lt hlen), Nat.cast_inj] at heq
    refine ⟨fun hmem => ?_, hlen⟩
    rw [← hinit.eq_of_length heq] at hmem
    simpa using List.mem_takeWhile_imp hmem
  · rintro ⟨hmem, hlen⟩
    rw [takeWhile_eq hmem, Int32.toInt_ofNat_of_lt hlen]

/-- If there is room for the characters, there is for the lines and the words. -/
theorem Counting.run_toInt (h : Counting body) (hlen : content.length < 2 ^ 31) :
    (run body content initial).lineCount.toInt = lines content ∧
      (run body content initial).wordCount.toInt = words content ∧
      (run body content initial).charCount.toInt = content.length := by
  obtain ⟨hlines, hwords, hchars⟩ := h.run_initial content
  have hlt : lines content < 2 ^ 31 := List.count_le_length.trans_lt hlen
  rw [hlines, hwords, hchars, Int32.toInt_ofNat_of_lt hlt, Int32.toInt_ofNat_of_lt hlen,
    Int32.toInt_ofNat_of_lt ((words_le_length content).trans_lt hlen)]
  exact ⟨rfl, rfl, rfl⟩

theorem Counting.countLoop_iff (h : Counting body) (hfuel : content.length < fuel) :
    Counted content (countLoop body fuel ⟨content, false⟩ initial) ↔ 255 ∉ content ∧ content.length < 2 ^ 31 := by
  rw [countLoop_eq hfuel]
  constructor
  · rintro ⟨s, hs, -, -, hchars⟩
    obtain ⟨-, rfl⟩ := Prod.mk.inj (Option.some.inj hs)
    exact (h.charCount_iff content).mp hchars
  · rintro ⟨hmem, hlen⟩
    have hrest : content.dropWhile (· ≠ 255) = [] :=
      List.dropWhile_eq_nil_iff.mpr fun _ hc => decide_eq_true fun heq => hmem (heq ▸ hc)
    rw [takeWhile_eq hmem, hrest, decide_eq_true hmem]
    exact ⟨_, rfl, h.run_toInt hlen⟩

/-- **`wc` counts what it has been given** exactly if there is no byte 255 in it, and less than `2 ^ 31` bytes. -/
theorem counted_iff (content : List UInt8) :
    Counted content (stdinLoop ⟨content, false⟩) ∧ Counted content (fileLoop ⟨content, false⟩) ↔
      255 ∉ content ∧ content.length < 2 ^ 31 := by
  have hstdin := @Counting.countLoop_iff _ content _ counting_stdinBody (Nat.lt_succ_self _)
  have hfile := @Counting.countLoop_iff _ content _ counting_fileBody (Nat.lt_succ_self _)
  exact (and_congr hstdin hfile).trans and_self_iff

/-- Behind a byte 255 nothing is counted. -/
theorem not_counted : ¬ ∀ content : List UInt8,
    Counted content (stdinLoop ⟨content, false⟩) ∧ Counted content (fileLoop ⟨content, false⟩) := by
  intro h
  obtain ⟨⟨s, hs, -⟩, -⟩ := h [97, 255, 98]
  have hstops : stdinLoop ⟨[97, 255, 98], false⟩ = some (⟨[98], false⟩, ⟨0, 1, 1, 97⟩) := rfl
  rw [hstops] at hs
  exact Bool.false_ne_true (congrArg Stream.eof (congrArg Prod.fst (Option.some.inj hs)))

/-! ## What is printed -/

/-- What there is to print: the numbers, if they have room. -/
def correct (content : List UInt8) : List UInt8 :=
  line (decimal (lines content)) (decimal (words content)) (decimal content.length)

/-- A string that is a word. -/
def IsWord (x : CString) : Prop := x.bytes ≠ [] ∧ ∀ c ∈ x.bytes, isSpace c = false

theorem isWord_decimal (n : ℕ) : IsWord (decimal n) := by
  refine ⟨decimal_ne_nil n, fun c hc => ?_⟩
  exact decide_eq_false (digit_of_mem_decimal hc).2.1

theorem isWord_formatInt (n : Int32) : IsWord (formatInt n) := by
  rw [formatInt]
  split_ifs
  · refine ⟨List.append_ne_nil_of_right_ne_nil _ (decimal_ne_nil _), fun c hc => ?_⟩
    rcases List.mem_append.mp hc with hsign | hdigit
    · obtain rfl := List.mem_singleton.mp hsign
      rfl
    · exact (isWord_decimal _).2 c hdigit
  · exact isWord_decimal _

/-- The words of a line are its numbers. -/
theorem pieces_line {x y z : CString} (hx : IsWord x) (hy : IsWord y) (hz : IsWord z) :
    pieces isSpace (line x y z) = [x.bytes, y.bytes, z.bytes] := by
  rw [line, pieces_append_cons hx.1 hx.2 rfl, pieces_append_cons hy.1 hy.2 rfl, pieces_eq_singleton hz.1 hz.2]

theorem formatInt_eq_decimal_iff (n : Int32) (k : ℕ) : formatInt n = decimal k ↔ n.toInt = k := by
  constructor
  · intro h
    rw [← atoi_formatInt, h, atoi_decimal]
  · intro h
    have hnonneg : ¬ n < 0 := by
      rw [Int32.lt_iff_toInt_lt, h]
      exact not_lt.mpr (Int.natCast_nonneg k)
    rw [formatInt, if_neg hnonneg, h, Int.toNat_natCast]

/-- The three numbers can be read off what is printed. -/
theorem report_eq_correct_iff (s : Counts) (content : List UInt8) :
    report s = correct content ↔ s.lineCount.toInt = lines content ∧ s.wordCount.toInt = words content ∧
      s.charCount.toInt = content.length := by
  have hreport := pieces_line (isWord_formatInt s.lineCount) (isWord_formatInt s.wordCount) (isWord_formatInt s.charCount)
  have hcorrect := pieces_line (isWord_decimal (lines content)) (isWord_decimal (words content))
    (isWord_decimal content.length)
  constructor
  · intro h
    have hpieces := hreport.symm.trans ((congrArg (pieces isSpace) h).trans hcorrect)
    obtain ⟨hlines, hrest⟩ := List.cons.inj hpieces
    obtain ⟨hwords, hrest⟩ := List.cons.inj hrest
    obtain ⟨hchars, -⟩ := List.cons.inj hrest
    refine ⟨?_, ?_, ?_⟩
    · exact (formatInt_eq_decimal_iff _ _).mp (CString.ext hlines)
    · exact (formatInt_eq_decimal_iff _ _).mp (CString.ext hwords)
    · exact (formatInt_eq_decimal_iff _ _).mp (CString.ext hchars)
  · rintro ⟨hlines, hwords, hchars⟩
    rw [report, correct, (formatInt_eq_decimal_iff _ _).mpr hlines, (formatInt_eq_decimal_iff _ _).mpr hwords,
      (formatInt_eq_decimal_iff _ _).mpr hchars]

theorem Counting.report_iff (h : Counting body) (content : List UInt8) :
    report (run body (content.takeWhile (· ≠ 255)) initial) = correct content ↔
      255 ∉ content ∧ content.length < 2 ^ 31 := by
  rw [report_eq_correct_iff]
  constructor
  · rintro ⟨-, -, hchars⟩
    exact (h.charCount_iff content).mp hchars
  · rintro ⟨hmem, hlen⟩
    rw [takeWhile_eq hmem]
    exact h.run_toInt hlen

variable {argv : List CString} {stdin : List UInt8} {fopen : CString → Option (List UInt8)} {name : CString}

/-- **What `wc` prints** of the standard input. -/
theorem main_stdin_iff (hargc : argv.length ≤ 1) :
    main argv stdin fopen = some (correct stdin ++ [Ascii.lf]) ↔ 255 ∉ stdin ∧ stdin.length < 2 ^ 31 := by
  rw [main, if_pos hargc, stdinLoop, countLoop_eq (Nat.lt_succ_self _), Option.bind_eq_bind, Option.bind_some,
    Option.some_inj, List.append_left_inj]
  exact counting_stdinBody.report_iff stdin

/-- **What `wc` prints** of a file: of its second argument, if there are two. -/
theorem main_file_iff (hargc : ¬ argv.length ≤ 1) (hname : fileName argv = some name) (hopens : fopen name = some content) :
    main argv stdin fopen = some (correct content ++ Ascii.space :: name.bytes ++ [Ascii.lf]) ↔
      255 ∉ content ∧ content.length < 2 ^ 31 := by
  rw [main, if_neg hargc, hname, Option.bind_eq_bind, Option.bind_some, hopens, Option.bind_eq_bind, Option.bind_some,
    fileLoop, countLoop_eq (Nat.lt_succ_self _), Option.bind_eq_bind, Option.bind_some, Option.some_inj,
    List.append_left_inj, List.append_left_inj]
  exact counting_fileBody.report_iff content

end

end Cs162Hw.Wc
