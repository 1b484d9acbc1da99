import Cs162Hw.Library.Directory
import Cs162Hw.Library.Program
import Cs162Hw.Kv.Message

/-!
# The two-phase-commit log

`hw4/src/tpclog.c`, and `parse_log` of `kvserver.c`. The log is the files `0.log`,
`1.log`, … of the follower's directory, and in memory the number of the next file
and the position of the iteration over them.

`tpclog_log` opens the next file with `O_CREAT` and then writes the record into it.
It is given twice: `tpclogLog`, in which creating and writing the file are one
operation, and `tpclogLogTorn`, in which they are two and a crash may fall between
them. The file is created with mode `S_IRUSR`, so it cannot be opened for writing
again: `tpclog_log` fails on a number that is in use.

A file is `none` when it has been created and not written. `tpclog_load_entry`
cannot read a record from it, and `tpclog_iterate_next` returns `NULL` for it, while
`tpclog_iterate_has_next`, which only calls `stat`, reports it.
-/

namespace Cs162Hw.Kv

open Library
open Library.Program (read perform Performs)

/-- `logentry_t`, with the bytes that follow it. -/
structure LogEntry where
  /-- The type of the message. -/
  type : MsgType
  /-- The number of bytes in `data`. -/
  length : ℕ
  /-- The key and the value, as far as the type has them, each with its terminator. -/
  data : List UInt8
  deriving DecidableEq

/-- The record `tpclog_log` builds; `none` when it takes `strlen` of a `NULL` string. -/
def LogEntry.make (type : MsgType) (key value : Option CString) : Option LogEntry := do
  let keydata ← if type = .putReq ∨ type = .delReq then key.map CString.stored else some []
  let valdata ← if type = .putReq then value.map CString.stored else some []
  return ⟨type, keydata.length + valdata.length, keydata ++ valdata⟩

/-- `parse_log`: what follows the first NUL of the first `len` bytes. -/
def parseLog : List UInt8 → ℕ → Option (List UInt8)
  | b :: rest, len + 1 => if b = 0 then some rest else parseLog rest len
  | _, _ => none

/-- `tpclog_t`, with the log files of its directory. -/
@[ext]
structure TpcLog where
  /-- The log files: what was written into each, `none` before it is. -/
  files : Directory ℕ (Option LogEntry)
  /-- The number of the next file. -/
  nextid : ℕ
  /-- The position of the current iteration. -/
  iterpos : ℕ

/-- What a log function does, one step at a time. -/
inductive LogOp where
  /-- Create the file, empty. -/
  | createLog (id : ℕ)
  /-- Write the record into the file, creating it if need be. -/
  | writeLog (id : ℕ) (entry : LogEntry)
  /-- `remove`. -/
  | removeLog (id : ℕ)
  /-- Set `nextid`. -/
  | setNextid (n : ℕ)
  /-- Set `iterpos`. -/
  | setIterpos (n : ℕ)
  deriving DecidableEq

instance : Effect LogOp TpcLog where
  exec
    | .createLog id, log => { log with files := log.files.write id none }
    | .writeLog id entry, log => { log with files := log.files.write id (some entry) }
    | .removeLog id, log => { log with files := log.files.remove id }
    | .setNextid n, log => { log with nextid := n }
    | .setIterpos n, log => { log with iterpos := n }

/-- The types of message that are logged. -/
def Loggable (type : MsgType) : Prop := type = .putReq ∨ type = .delReq ∨ type = .abort ∨ type = .commit

instance (type : MsgType) : Decidable (Loggable type) := inferInstanceAs (Decidable (_ ∨ _ ∨ _ ∨ _))

/-- `tpclog_init`: the next number is the first that is free. -/
def tpclogInit : Program LogOp TpcLog Int := do
  let log ← read
  perform (.setNextid (log.files.firstFree (fun i => i) 0))
  return 0

/-- `tpclog_log`, the file created and written in one operation. -/
def tpclogLog (type : MsgType) (key value : Option CString) : Program LogOp TpcLog Int :=
  if ¬ Loggable type then return errInvldMsg
  else do
    let log ← read
    if log.files.stat log.nextid then return errFilAccess
    else match LogEntry.make type key value with
      | none => .fault
      | some entry => do
        perform (.writeLog log.nextid entry)
        perform (.setNextid (log.nextid + 1))
        return 0

/-- `tpclog_log`, the file created and then written. -/
def tpclogLogTorn (type : MsgType) (key value : Option CString) : Program LogOp TpcLog Int :=
  if ¬ Loggable type then return errInvldMsg
  else do
    let log ← read
    if log.files.stat log.nextid then return errFilAccess
    else do
      perform (.createLog log.nextid)
      perform (.setNextid (log.nextid + 1))
      match LogEntry.make type key value with
      | none => .fault
      | some entry => do
        perform (.writeLog log.nextid entry)
        return 0

/-- `tpclog_load_entry`: the record in the file, if it can be read. -/
def tpclogLoadEntry (log : TpcLog) (id : ℕ) : Option LogEntry := (log.files.file id).join

/-- `tpclog_iterate_begin`. -/
def tpclogIterateBegin : Program LogOp TpcLog Unit := perform (.setIterpos 0)

/-- `tpclog_iterate_has_next`. -/
def tpclogIterateHasNext (log : TpcLog) : Bool := log.files.stat log.iterpos

/-- `tpclog_iterate_next`; `none` is `NULL`. -/
def tpclogIterateNext : Program LogOp TpcLog (Option LogEntry) := do
  let log ← read
  if ¬ tpclogIterateHasNext log then return none
  else
    perform (.setIterpos (log.iterpos + 1))
    return tpclogLoadEntry log log.iterpos

/-- The loop of `tpclog_clear_log`: remove `count.log` and the files after it, up to the
first number that is free. -/
def tpclogClearFrom : ℕ → ℕ → Program LogOp TpcLog Unit
  | 0, _ => return
  | fuel + 1, count => do
    let log ← read
    if log.files.stat count then
      perform (.removeLog count)
      tpclogClearFrom fuel (count + 1)
    else return

/-- `tpclog_clear_log`. There are no more files to remove than the directory has. -/
def tpclogClearLog : Program LogOp TpcLog Int := do
  let log ← read
  tpclogClearFrom (log.files.names.card + 1) 0
  perform (.setNextid 0)
  return 0

/-! ### What the log functions do -/

/-- A log in memory and on disk holding exactly the files `l`, the next number being the
first that is free. -/
def TpcLog.holding (l : List (Option LogEntry)) (iterpos : ℕ) : TpcLog := ⟨.ofList l, l.length, iterpos⟩

theorem tpclogInit_performs {log : TpcLog} {l : List (Option LogEntry)} (h : log.files = .ofList l) :
    Performs tpclogInit log [.setNextid l.length] 0 ⟨.ofList l, l.length, log.iterpos⟩ := by
  refine .read_bind ?_
  have hfree : log.files.firstFree (fun i => i) 0 = l.length := by
    rw [h]; exact Directory.firstFree_ofList l (Nat.zero_le _)
  rw [hfree]
  refine Performs.congr (.perform_bind (.pure _ _)) rfl ?_
  simp [Effect.exec, h]

theorem tpclogLog_performs {type : MsgType} {key value : Option CString} {entry : LogEntry} (ht : Loggable type)
    (he : LogEntry.make type key value = some entry) (l : List (Option LogEntry)) (pos : ℕ) :
    Performs (tpclogLog type key value) (.holding l pos) [.writeLog l.length entry, .setNextid (l.length + 1)] 0
      (.holding (l ++ [some entry]) pos) := by
  rw [tpclogLog, if_neg (by simpa using ht)]
  refine .read_bind (.ite_neg (by simp [TpcLog.holding]) ?_)
  rw [he]
  refine Performs.congr (.perform_bind (.perform_bind (.pure _ _))) rfl ?_
  ext1
  · exact Directory.write_ofList l (some entry)
  · simp [TpcLog.holding, Effect.exec]
  · rfl

theorem tpclogLogTorn_performs {type : MsgType} {key value : Option CString} {entry : LogEntry} (ht : Loggable type)
    (he : LogEntry.make type key value = some entry) (l : List (Option LogEntry)) (pos : ℕ) :
    Performs (tpclogLogTorn type key value) (.holding l pos)
      [.createLog l.length, .setNextid (l.length + 1), .writeLog l.length entry] 0
      (.holding (l ++ [some entry]) pos) := by
  rw [tpclogLogTorn, if_neg (by simpa using ht)]
  refine .read_bind (.ite_neg (by simp [TpcLog.holding]) (.perform_bind (.perform_bind ?_)))
  rw [he]
  refine Performs.congr (.perform_bind (.pure _ _)) rfl ?_
  ext1
  · exact (Directory.write_write _ _ _ _).trans (Directory.write_ofList l (some entry))
  · simp [TpcLog.holding, Effect.exec]
  · rfl

/-- The iteration at position `i` of a log that holds `l` yields its file number `i`. -/
theorem tpclogIterateNext_performs {log : TpcLog} {l : List (Option LogEntry)} (hl : log.files = .ofList l)
    {f : Option LogEntry} (hf : l[log.iterpos]? = some f) :
    Performs tpclogIterateNext log [.setIterpos (log.iterpos + 1)] f { log with iterpos := log.iterpos + 1 } := by
  have hstat : tpclogIterateHasNext log = true := by
    rw [tpclogIterateHasNext, Directory.stat, hl, Directory.file_ofList, hf]
    rfl
  have hload : tpclogLoadEntry log log.iterpos = f := by
    rw [tpclogLoadEntry, hl, Directory.file_ofList, hf]
    rfl
  refine .read_bind (.ite_neg (by simp [hstat]) ?_)
  rw [hload]
  exact .perform_bind (.pure _ _)

theorem tpclogIterateHasNext_eq {log : TpcLog} {l : List (Option LogEntry)} (hl : log.files = .ofList l) :
    tpclogIterateHasNext log = decide (log.iterpos < l.length) := by
  rw [tpclogIterateHasNext, hl, Directory.stat_ofList]

/-- The numbers `i`, …, `n-1` in order: what clearing `n` files from `i` on removes. -/
def removals (i n : ℕ) : List LogOp := (List.range' i (n - i)).map .removeLog

@[simp] theorem removals_self (n : ℕ) : removals n n = [] := by simp [removals]

theorem removals_of_lt {i n : ℕ} (h : i < n) : removals i n = .removeLog i :: removals (i + 1) n := by
  unfold removals
  rw [show n - i = (n - (i + 1)) + 1 by omega, List.range'_succ, List.map_cons]

/-- Removing files in ascending order changes nothing but those files. -/
theorem execAll_removals (i n : ℕ) (log : TpcLog) :
    (Program.execAll (removals i n) log).nextid = log.nextid ∧
      (Program.execAll (removals i n) log).iterpos = log.iterpos ∧
      ∀ j, (Program.execAll (removals i n) log).files.file j =
        if i ≤ j ∧ j < n then none else log.files.file j := by
  rcases Nat.lt_or_ge i n with hlt | hge
  · obtain ⟨k, rfl⟩ : ∃ k, n = i + k := ⟨n - i, by omega⟩
    clear hlt
    induction k generalizing i log with
    | zero => simp only [Nat.add_zero, removals_self, Program.execAll_nil]; simp
    | succ k ih =>
      rw [removals_of_lt (by omega), Program.execAll_cons, show i + (k + 1) = i + 1 + k by omega]
      obtain ⟨h₁, h₂, h₃⟩ := ih (i + 1) (Effect.exec (LogOp.removeLog i) log)
      refine ⟨h₁, h₂, fun j => ?_⟩
      rw [h₃]
      show (if i + 1 ≤ j ∧ j < i + 1 + k then none else (log.files.remove i).file j) = _
      rw [Directory.file_remove]
      by_cases hij : j = i
      · subst hij
        rw [if_pos rfl, ite_self, if_pos (by omega)]
      · rw [if_neg hij]
        exact if_congr (by omega) rfl rfl
  · have hnil : removals i n = [] := by simp [removals, Nat.sub_eq_zero_of_le hge]
    rw [hnil]
    refine ⟨rfl, rfl, fun j => ?_⟩
    rw [if_neg (by omega)]
    rfl

theorem tpclogClearFrom_performs {n : ℕ} (fuel count : ℕ) (log : TpcLog)
    (hl : ∀ j, count ≤ j → (log.files.stat j = true ↔ j < n)) (hc : count ≤ n) (hf : n < count + fuel) :
    Performs (tpclogClearFrom fuel count) log (removals count n) () (Program.execAll (removals count n) log) := by
  induction fuel generalizing count log with
  | zero => omega
  | succ k ih =>
    refine .read_bind ?_
    rcases Nat.lt_or_eq_of_le hc with hlt | rfl
    · refine .ite_pos ((hl count le_rfl).mpr hlt) ?_
      rw [removals_of_lt hlt]
      refine .perform_bind (ih (count + 1) _ (fun j hj => ?_) (by omega) (by omega))
      rw [← hl j (by omega)]
      show (log.files.remove count).stat j = true ↔ _
      rw [Directory.stat, Directory.file_remove_of_ne (by omega), Directory.stat]
    · rw [removals_self]
      exact .ite_neg (fun h => absurd ((hl count le_rfl).mp h) (lt_irrefl count)) (.pure _ _)

/-- **`tpclog_clear_log`** removes all the files of a gapless log, in ascending order. -/
theorem tpclogClearLog_performs {log : TpcLog} {l : List (Option LogEntry)} (hl : log.files = .ofList l) :
    Performs tpclogClearLog log (removals 0 l.length ++ [.setNextid 0]) 0 (.holding [] log.iterpos) := by
  refine .read_bind ?_
  have hclear := tpclogClearFrom_performs (n := l.length) (log.files.names.card + 1) 0 log
    (fun j _ => by simp [hl]) (Nat.zero_le _) (by simp [hl])
  refine Performs.congr (hclear.bind (.perform_bind (.pure _ _))) rfl ?_
  obtain ⟨-, h₂, h₃⟩ := execAll_removals 0 l.length log
  ext1
  · ext j : 1
    show (Program.execAll (removals 0 l.length) log).files.file j = _
    rw [h₃]
    simp only [TpcLog.holding, Directory.file_ofList]
    split_ifs with h
    · simp
    · rw [hl, Directory.file_ofList, List.getElem?_eq_none (by omega)]
      simp
  · rfl
  · exact h₂

/-! ### Records -/

@[simp] theorem make_putReq (key value : CString) : LogEntry.make .putReq (some key) (some value) =
    some ⟨.putReq, key.strlen + 1 + (value.strlen + 1), key.stored ++ value.stored⟩ := by
  simp [LogEntry.make]

@[simp] theorem make_delReq (key : CString) (value : Option CString) : LogEntry.make .delReq (some key) value =
    some ⟨.delReq, key.strlen + 1, key.stored⟩ := by
  simp [LogEntry.make]

@[simp] theorem make_commit (key value : Option CString) : LogEntry.make .commit key value = some ⟨.commit, 0, []⟩ := by
  simp [LogEntry.make]

@[simp] theorem make_abort (key value : Option CString) : LogEntry.make .abort key value = some ⟨.abort, 0, []⟩ := by
  simp [LogEntry.make]

/-- `parse_log` finds the value behind the key of a record. -/
theorem parseLog_stored (key : CString) (rest : List UInt8) {len : ℕ} (h : key.strlen < len) :
    parseLog (key.stored ++ rest) len = some rest := by
  obtain ⟨bytes, hnul⟩ := key
  simp only [CString.strlen, CString.stored, List.append_assoc, List.singleton_append] at h ⊢
  induction bytes generalizing len with
  | nil =>
    obtain ⟨k, rfl⟩ : ∃ k, len = k + 1 := ⟨len - 1, by simp at h; omega⟩
    simp [parseLog]
  | cons b bs ih =>
    obtain ⟨k, rfl⟩ : ∃ k, len = k + 1 := ⟨len - 1, by simp at h; omega⟩
    have hb : b ≠ 0 := by rintro rfl; simp at hnul
    rw [List.cons_append, parseLog, if_neg hb]
    exact ih (by simp at hnul; exact hnul.2) (by simpa using h)

end Cs162Hw.Kv
