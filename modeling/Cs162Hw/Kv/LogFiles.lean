import Cs162Hw.Library.Buffer
import Cs162Hw.Library.Bytes
import Cs162Hw.Library.Run
import Cs162Hw.Kv.Log

/-!
# The log, byte by byte

`hw4/src/tpclog.c`, with the bytes that are in the log files and the integers the source counts them with. A record
is a header of two integers, its type and the length of what follows, and the strings; it is read back in two steps,
the header first.

* `LogItem` is what `tpclog_log` can be asked to log, and `LogRecord.recovered` what its reader makes of a record: the
  type, the string it begins with, and the one that `parse_log` finds behind that.
* `TpcLog.inBytes` is the log of `Log.lean` as it is in its files: `init_inBytes`, `log_inBytes`, `clear_inBytes` and
  `iterateNext_inBytes` say that each function does to the bytes what it does there to the records, a record's length
  being an `int`.
* **`log_is_list`**: over any calls to the log, its files are numbered from `0` to before `nextid`, and an iteration
  yields what was logged since it was last cleared, as long as the strings of a record have room in an `int`.
  `log_long_record` is a record whose strings have not.
-/

namespace Cs162Hw.Kv

open Library
open Library.Program (Performs perform)

/-! ## Records in files -/

/-- The number of a message type in `msgtype_t`. -/
def MsgType.code : MsgType → UInt32
  | index => 0
  | getReq => 1
  | putReq => 2
  | delReq => 3
  | register => 4
  | commit => 5
  | abort => 6
  | getResp => 7
  | success => 8
  | error => 9
  | vote => 10
  | ack => 11
  | empty => 12

/-- `logentry_t`, as it was read from a file, with the bytes that follow it. -/
structure LogRecord where
  /-- The number of the type. -/
  type : UInt32
  /-- The number of bytes in `data`. -/
  length : Int32
  /-- The key and the value. -/
  data : List UInt8
  deriving DecidableEq

/-- `tpclog_t`, with the bytes of the log files of its directory. -/
structure LogFiles where
  /-- The log files. -/
  files : Directory ℕ (List UInt8)
  /-- The number of the next file. -/
  nextid : ℕ
  /-- The position of the current iteration. -/
  iterpos : ℕ

/-- An `int` as a `size_t`. -/
def intSize (n : Int32) : UInt64 := n.toInt64.toUInt64

/-- What `tpclog_log` copies of its key. -/
def keyBytes (type : MsgType) (key : Option CString) : Option (List UInt8) :=
  if type = .putReq ∨ type = .delReq then key.map CString.stored else some []

/-- What `tpclog_log` copies of its value. -/
def valueBytes (type : MsgType) (value : Option CString) : Option (List UInt8) :=
  if type = .putReq then value.map CString.stored else some []

namespace LogFiles

/-- `tpclog_init`. -/
def init (log : LogFiles) : LogFiles := { log with nextid := log.files.firstFree (fun i => i) 0 }

/-- `tpclog_log`: what it returns, and the log after it; nothing if the process dies. -/
def log (log : LogFiles) (type : MsgType) (key value : Option CString) : Option (Int × LogFiles) :=
  if ¬ Loggable type then some (errInvldMsg, log)
  else if log.files.stat log.nextid then some (errFilAccess, log)
  else do
    let keydata ← keyBytes type key
    let valdata ← valueBytes type value
    let keylen : Int32 := .ofNat keydata.length
    let vallen : Int32 := .ofNat valdata.length
    let size : UInt64 := 8 + intSize keylen + intSize vallen
    -- there is no block of that size, or `strcpy` runs over its end
    if 2 ^ 63 ≤ size.toNat ∨ size.toNat < 8 + keydata.length + valdata.length then none
    else
      let entry := toBytes 4 type.code.toNat ++ toBytes 4 (keylen + vallen).toUInt32.toNat ++ (keydata ++ valdata)
      return (0, { log with files := log.files.write log.nextid entry, nextid := log.nextid + 1 })

/-- `tpclog_load_entry`, on a file with these bytes: refused if they are too few. -/
def loadEntry (bytes : List UInt8) : Parse LogRecord :=
  if bytes.length < 8 then .reject
  else
    let type : UInt32 := .ofNat (ofBytes (bytes.take 4))
    let length : Int32 := (UInt32.ofNat (ofBytes ((bytes.drop 4).take 4))).toInt32
    -- a negative length leaves no room for the header, or asks for a block there is not
    if length.toInt < 0 then .fault
    else if bytes.length < 8 + length.toInt.toNat then .reject
    else .ok ⟨type, length, (bytes.drop 8).take length.toInt.toNat⟩

/-- `tpclog_iterate_begin`. -/
def iterateBegin (log : LogFiles) : LogFiles := { log with iterpos := 0 }

/-- `tpclog_iterate_has_next`. -/
def iterateHasNext (log : LogFiles) : Bool := log.files.stat log.iterpos

/-- `tpclog_iterate_next`, where `none` is `NULL`; nothing if the process dies. -/
def iterateNext (log : LogFiles) : Option (Option LogRecord × LogFiles) :=
  match log.files.file log.iterpos with
  | none => some (none, log)
  | some bytes =>
    match loadEntry bytes with
    | .fault => none
    | .reject => some (none, { log with iterpos := log.iterpos + 1 })
    | .ok entry => some (some entry, { log with iterpos := log.iterpos + 1 })

/-- `tpclog_iterate_next`, while `tpclog_iterate_has_next`; nothing if the process dies, or there is no end to it. -/
def iterateFrom : ℕ → LogFiles → Option (List (Option LogRecord))
  | 0, _ => none
  | fuel + 1, log =>
    if log.iterateHasNext then do
      let (entry, log) ← log.iterateNext
      let entries ← iterateFrom fuel log
      return entry :: entries
    else return []

/-- What an iteration over the log yields. -/
def iterate (log : LogFiles) : Option (List (Option LogRecord)) := iterateFrom (log.files.names.card + 1) log.iterateBegin

/-- The loop of `tpclog_clear_log`. -/
def clearFrom : ℕ → ℕ → Directory ℕ (List UInt8) → Directory ℕ (List UInt8)
  | 0, _, files => files
  | fuel + 1, count, files => if files.stat count then clearFrom fuel (count + 1) (files.remove count) else files

/-- `tpclog_clear_log`. -/
def clear (log : LogFiles) : LogFiles := { log with files := clearFrom (log.files.names.card + 1) 0 log.files, nextid := 0 }

end LogFiles

/-! ## What is logged -/

/-- What `tpclog_log` can be asked to log. -/
inductive LogItem where
  /-- A `PUTREQ`. -/
  | put (key value : CString)
  /-- A `DELREQ`. -/
  | del (key : CString)
  /-- A `COMMIT`. -/
  | commit
  /-- An `ABORT`. -/
  | abort
  deriving DecidableEq

namespace LogItem

/-- Its type. -/
def type : LogItem → MsgType
  | put _ _ => .putReq
  | del _ => .delReq
  | commit => .commit
  | abort => .abort

/-- Its key. -/
def key : LogItem → Option CString
  | put key _ => some key
  | del key => some key
  | _ => none

/-- Its value. -/
def value : LogItem → Option CString
  | put _ value => some value
  | _ => none

/-- Its record. -/
def entry (item : LogItem) : LogEntry :=
  let data := (item.key.elim [] CString.stored) ++ item.value.elim [] CString.stored
  ⟨item.type, data.length, data⟩

/-- The lengths of its strings, terminators included, add up to an `int`. -/
def Fits (item : LogItem) : Prop := item.entry.length < 2 ^ 31

theorem loggable (item : LogItem) : Loggable item.type := by
  cases item <;> simp [Loggable, type]

/-- It is the record that `tpclog_log` of `Log.lean` builds. -/
theorem make_entry (item : LogItem) : LogEntry.make item.type item.key item.value = some item.entry := by
  cases item <;> simp [type, key, value, entry]

end LogItem

/-- A record as it is written into a file. -/
def LogEntry.bytes (entry : LogEntry) : List UInt8 :=
  toBytes 4 entry.type.code.toNat ++ toBytes 4 (Int32.ofNat entry.length).toUInt32.toNat ++ entry.data

/-- A record as it is read from one. -/
def LogEntry.read (entry : LogEntry) : LogRecord := ⟨entry.type.code, .ofNat entry.length, entry.data⟩

/-- What its reader makes of a record: it has a type, begins with the key, and `parse_log` finds the value. -/
def LogRecord.recovered (record : LogRecord) : Option LogItem :=
  if record.type = MsgType.putReq.code then
    (parseLog record.data record.length.toInt.toNat).map fun value => .put (.read record.data) (.read value)
  else if record.type = MsgType.delReq.code then some (.del (.read record.data))
  else if record.type = MsgType.commit.code then some .commit
  else if record.type = MsgType.abort.code then some .abort
  else none

/-! ## A record and its file -/

theorem intSize_ofNat {n : ℕ} (h : n < 2 ^ 31) : (intSize (.ofNat n)).toNat = n := by
  have hint : (Int32.ofNat n).toInt64.toInt = n := by rw [Int32.toInt_toInt64, Int32.toInt_ofNat_of_lt h]
  have hnonneg : 0 ≤ (Int32.ofNat n).toInt64 := by
    rw [Int64.le_iff_toInt_le, hint]
    exact Int.natCast_nonneg n
  rw [intSize, Int64.toNat_toUInt64_of_le hnonneg, Int64.toNatClampNeg, hint, Int.toNat_natCast]

namespace LogEntry

/-- **What was written into a file is loaded from it**: the header in a first read, and as many bytes as it says in a second. -/
theorem loadEntry_bytes {entry : LogEntry} (hlen : entry.length < 2 ^ 31) (hdata : entry.data.length = entry.length) :
    LogFiles.loadEntry entry.bytes = .ok entry.read := by
  have hsize : entry.bytes.length = 8 + entry.length := by
    rw [bytes, List.length_append, List.length_append, length_toBytes, length_toBytes, hdata]
  have htype : ofBytes (entry.bytes.take 4) = entry.type.code.toNat := by
    rw [bytes, List.append_assoc, List.take_left' (length_toBytes ..)]
    exact ofBytes_toBytes_of_lt entry.type.code.toNat_lt
  have hlength : ofBytes ((entry.bytes.drop 4).take 4) = (Int32.ofNat entry.length).toUInt32.toNat := by
    rw [bytes, List.append_assoc, List.drop_left' (length_toBytes ..), List.take_left' (length_toBytes ..)]
    exact ofBytes_toBytes_of_lt (Int32.ofNat entry.length).toUInt32.toNat_lt
  have hrest : entry.bytes.drop 8 = entry.data :=
    List.drop_left' (by rw [List.length_append, length_toBytes, length_toBytes])
  have hint : (Int32.ofNat entry.length).toInt = entry.length := Int32.toInt_ofNat_of_lt hlen
  simp only [LogFiles.loadEntry, htype, hlength, hrest, UInt32.ofNat_toNat, Int32.toInt32_toUInt32, hint, Int.toNat_natCast]
  rw [if_neg (by omega), if_neg (by omega), if_neg (by omega), List.take_of_length_le hdata.le]
  rfl

end LogEntry

namespace LogItem

@[simp] theorem entry_put (key value : CString) :
    (put key value).entry = ⟨.putReq, (key.stored ++ value.stored).length, key.stored ++ value.stored⟩ := rfl

@[simp] theorem entry_del (key : CString) : (del key).entry = ⟨.delReq, key.stored.length, key.stored⟩ := by
  simp [entry, LogItem.key, LogItem.value, type]

/-- **A record is read as what was logged**, its strings taken apart where the first of them ends. -/
theorem recovered_read {item : LogItem} (h : item.Fits) : item.entry.read.recovered = some item := by
  cases item with
  | put key value =>
    rw [Fits, entry_put] at h
    rw [entry_put, LogEntry.read]
    simp only [LogRecord.recovered]
    have hparse : parseLog (key.stored ++ value.stored) (key.stored ++ value.stored).length = some value.stored :=
      parseLog_stored key value.stored (by rw [List.length_append, CString.stored_length]; omega)
    have hvalue : CString.read value.stored = value := by
      rw [← value.stored.append_nil, CString.read_stored]
    rw [if_pos trivial, Int32.toInt_ofNat_of_lt h, Int.toNat_natCast, hparse, Option.map_some, CString.read_stored, hvalue]
  | del key =>
    rw [entry_del, LogEntry.read]
    simp only [LogRecord.recovered]
    have hkey : CString.read key.stored = key := by
      rw [← key.stored.append_nil, CString.read_stored]
    have hne : MsgType.delReq.code ≠ MsgType.putReq.code := by decide
    rw [if_neg hne, if_pos trivial, hkey]
  | commit => rfl
  | abort => rfl

end LogItem

/-! ## The log of `Log.lean`, in bytes -/

/-- A log of records, as it is in its files: one that was created and not written has no bytes. -/
def TpcLog.inBytes (log : TpcLog) : LogFiles :=
  ⟨log.files.map fun entry => entry.elim [] LogEntry.bytes, log.nextid, log.iterpos⟩

/-- `tpclog_init` finds the same number. -/
theorem init_inBytes (log : TpcLog) : log.inBytes.init = (((tpclogInit.run log).2).inBytes) := by
  rw [LogFiles.init, TpcLog.inBytes, Directory.firstFree_map]
  rfl

theorem make_eq_some {type : MsgType} {key value : Option CString} {entry : LogEntry}
    (h : LogEntry.make type key value = some entry) : ∃ keydata valdata, keyBytes type key = some keydata ∧
      valueBytes type value = some valdata ∧ entry = ⟨type, keydata.length + valdata.length, keydata ++ valdata⟩ := by
  have hmake : LogEntry.make type key value = (keyBytes type key).bind fun keydata => (valueBytes type value).bind fun valdata =>
      some ⟨type, keydata.length + valdata.length, keydata ++ valdata⟩ := by
    unfold LogEntry.make keyBytes valueBytes
    split_ifs <;> rfl
  rw [hmake] at h
  obtain ⟨keydata, hkey, h⟩ := Option.bind_eq_some_iff.mp h
  obtain ⟨valdata, hval, h⟩ := Option.bind_eq_some_iff.mp h
  exact ⟨keydata, valdata, hkey, hval, (Option.some.inj h).symm⟩

theorem log_of_bytes {log : LogFiles} {type : MsgType} {key value : Option CString} {keydata valdata : List UInt8}
    (ht : Loggable type) (hfree : log.files.stat log.nextid = false) (hkey : keyBytes type key = some keydata)
    (hval : valueBytes type value = some valdata) (hlen : keydata.length + valdata.length < 2 ^ 31) :
    log.log type key value = some (0, { log with
      files := log.files.write log.nextid (LogEntry.bytes ⟨type, keydata.length + valdata.length, keydata ++ valdata⟩)
      nextid := log.nextid + 1 }) := by
  have hsize : (8 + intSize (.ofNat keydata.length) + intSize (.ofNat valdata.length)).toNat =
      8 + keydata.length + valdata.length := by
    have hkeylen := intSize_ofNat (n := keydata.length) (by omega)
    have hvallen := intSize_ofNat (n := valdata.length) (by omega)
    rw [UInt64.toNat_add, UInt64.toNat_add, hkeylen, hvallen]
    simp
    omega
  rw [LogFiles.log, if_neg (not_not_intro ht), if_neg (by rw [hfree]; exact Bool.false_ne_true), hkey, hval]
  simp only [Option.bind_eq_bind, Option.bind_some, hsize]
  rw [if_neg (by omega), LogEntry.bytes, Int32.ofNat_add]
  rfl

/-- `tpclog_log` writes the bytes of the record it builds, if the length of that record is an `int`. -/
theorem log_inBytes {type : MsgType} {key value : Option CString} {entry : LogEntry} (log : TpcLog) (ht : Loggable type)
    (he : LogEntry.make type key value = some entry) (hlen : entry.length < 2 ^ 31) (hfree : log.files.stat log.nextid = false) :
    log.inBytes.log type key value = some (0, ((tpclogLog type key value).run log).2.inBytes) := by
  have hperforms : Performs (tpclogLog type key value) log [.writeLog log.nextid entry, .setNextid (log.nextid + 1)] 0
      { log with files := log.files.write log.nextid (some entry), nextid := log.nextid + 1 } := by
    rw [tpclogLog, if_neg (not_not_intro ht)]
    refine .read_bind (.ite_neg (by rw [hfree]; exact Bool.false_ne_true) ?_)
    rw [he]
    exact .perform_bind (.perform_bind (.pure _ _))
  have hstat : log.inBytes.files.stat log.inBytes.nextid = false := (Directory.stat_map ..).trans hfree
  obtain ⟨keydata, valdata, hkey, hval, rfl⟩ := make_eq_some he
  rw [log_of_bytes ht hstat hkey hval hlen, hperforms.run_eq]
  simp only [TpcLog.inBytes, Directory.map_write]
  rfl

/-- The loop of `tpclog_clear_log` removes the same files. -/
theorem clearFrom_inBytes (fuel count : ℕ) (log : TpcLog) : ∃ log', (tpclogClearFrom fuel count).run log = (some (), log') ∧
    { log.inBytes with files := LogFiles.clearFrom fuel count log.inBytes.files } = log'.inBytes := by
  induction fuel generalizing count log with
  | zero => exact ⟨log, rfl, rfl⟩
  | succ fuel ih =>
    have hstat : log.inBytes.files.stat count = log.files.stat count := Directory.stat_map ..
    rw [LogFiles.clearFrom, hstat]
    show ∃ log', (if log.files.stat count then perform (.removeLog count) >>= fun _ => tpclogClearFrom fuel (count + 1)
      else pure () : Program LogOp TpcLog Unit).run log = (some (), log') ∧ _
    by_cases h : log.files.stat count = true
    · obtain ⟨log', hrun, hfiles⟩ := ih (count + 1) { log with files := log.files.remove count }
      rw [if_pos h, if_pos h]
      refine ⟨log', hrun, hfiles ▸ ?_⟩
      rw [TpcLog.inBytes, TpcLog.inBytes, Directory.map_remove]
    · rw [if_neg h, if_neg h]
      exact ⟨log, rfl, rfl⟩

/-- `tpclog_clear_log`. -/
theorem clear_inBytes (log : TpcLog) : log.inBytes.clear = (tpclogClearLog.run log).2.inBytes := by
  obtain ⟨log', hrun, hfiles⟩ := clearFrom_inBytes (log.files.names.card + 1) 0 log
  have hclear : tpclogClearLog.run log = (some 0, { log' with nextid := 0 }) := by
    show ((tpclogClearFrom (log.files.names.card + 1) 0) >>= fun _ =>
      perform (.setNextid 0) >>= fun _ => pure (0 : Int)).run log = _
    rw [Program.run_bind, hrun]
    rfl
  rw [hclear]
  exact congrArg (fun files : LogFiles => { files with nextid := 0 }) hfiles

/-- A file of the log, if it was written, holds a record whose length is an `int`. -/
def Loadable (file : Option LogEntry) : Prop :=
  ∀ entry, file = some entry → entry.length < 2 ^ 31 ∧ entry.data.length = entry.length

/-- `tpclog_iterate_next` yields the record as it is read, and `NULL` for a file that was not written. -/
theorem iterateNext_inBytes (log : TpcLog) {l : List (Option LogEntry)} (hl : log.files = .ofList l) {file : Option LogEntry}
    (hf : l[log.iterpos]? = some file) (h : Loadable file) :
    log.inBytes.iterateNext = some (file.map LogEntry.read, { log with iterpos := log.iterpos + 1 }.inBytes) := by
  have hbytes : log.inBytes.files.file log.inBytes.iterpos = some (file.elim [] LogEntry.bytes) := by
    rw [TpcLog.inBytes, Directory.file_map, hl, Directory.file_ofList, hf, Option.map_some]
  rw [LogFiles.iterateNext, hbytes]
  cases file with
  | none => rfl
  | some entry =>
    obtain ⟨hlen, hdata⟩ := h entry rfl
    simp only [Option.elim_some, LogEntry.loadEntry_bytes hlen hdata]
    rfl

/-- From the position `pre.length` on. -/
theorem iterateFrom_inBytes {l : List (Option LogEntry)} (h : ∀ file ∈ l, Loadable file) (pre : List (Option LogEntry)) (n : ℕ)
    {fuel : ℕ} (hfuel : l.length < fuel) :
    LogFiles.iterateFrom fuel (TpcLog.inBytes ⟨.ofList (pre ++ l), n, pre.length⟩) = some (l.map (·.map LogEntry.read)) := by
  induction l generalizing pre fuel with
  | nil =>
    obtain ⟨fuel, rfl⟩ := Nat.exists_eq_succ_of_ne_zero (Nat.ne_of_gt hfuel)
    have hend : (TpcLog.inBytes ⟨.ofList (pre ++ []), n, pre.length⟩).iterateHasNext = false := by
      simp [LogFiles.iterateHasNext, TpcLog.inBytes]
    rw [LogFiles.iterateFrom, if_neg (by rw [hend]; exact Bool.false_ne_true)]
    rfl
  | cons file l ih =>
    obtain ⟨fuel, rfl⟩ := Nat.exists_eq_succ_of_ne_zero (Nat.ne_of_gt (Nat.zero_lt_of_lt hfuel))
    have hmore : (TpcLog.inBytes ⟨.ofList (pre ++ file :: l), n, pre.length⟩).iterateHasNext = true := by
      simp [LogFiles.iterateHasNext, TpcLog.inBytes]
    have hnext := iterateNext_inBytes ⟨.ofList (pre ++ file :: l), n, pre.length⟩ rfl (by simp)
      (h file List.mem_cons_self)
    have hrest := ih (fun file hfile => h file (List.mem_cons_of_mem _ hfile)) (pre ++ [file]) (Nat.lt_of_succ_lt_succ hfuel)
    rw [List.append_assoc, List.singleton_append, List.length_append, List.length_singleton] at hrest
    rw [LogFiles.iterateFrom, if_pos hmore, hnext]
    simp only [Option.bind_eq_bind, Option.bind_some]
    rw [hrest]
    rfl

/-- **The records of a log, oldest first**, are what an iteration over its files yields. -/
theorem iterate_inBytes {l : List (Option LogEntry)} (h : ∀ file ∈ l, Loadable file) (pos : ℕ) :
    (TpcLog.holding l pos).inBytes.iterate = some (l.map (·.map LogEntry.read)) := by
  have hcard : (TpcLog.holding l pos).inBytes.files.names.card = l.length := Directory.card_names_ofList l
  rw [LogFiles.iterate, hcard]
  exact iterateFrom_inBytes h [] l.length (Nat.lt_succ_self _)

/-! ## Calls to the log -/

/-- A call to the log. -/
inductive LogCall where
  /-- `tpclog_log`. -/
  | log (item : LogItem)
  /-- `tpclog_clear_log`. -/
  | clear
  /-- `tpclog_init`, in another life of the process, on what its memory then holds. -/
  | init (nextid iterpos : ℕ)

namespace LogCall

/-- What has been logged since the log was last cleared. -/
def after (items : List LogItem) : LogCall → List LogItem
  | log item => items ++ [item]
  | clear => []
  | init _ _ => items

/-- What it logs, fits. -/
def Fits : LogCall → Prop
  | log item => item.Fits
  | _ => True

end LogCall

namespace LogFiles

/-- The log after the call; nothing if the process dies. -/
def call (log : LogFiles) : LogCall → Option LogFiles
  | .log item => (log.log item.type item.key item.value).map Prod.snd
  | .clear => some log.clear
  | .init nextid iterpos => some (init ⟨log.files, nextid, iterpos⟩)

/-- A call, if the process still lives. -/
def step (state : Option LogFiles) (call : LogCall) : Option LogFiles := state.bind (·.call call)

/-- The log in an empty directory. -/
def start : LogFiles := init ⟨.empty, 0, 0⟩

end LogFiles

/-- **The log is a list**: after these calls, its files are those numbered from `0` to before `nextid`, and an iteration
yields a record for each item that was logged since it was last cleared, oldest first, which is read as that item. -/
def Faithful (calls : List LogCall) : Prop := ∃ log, run LogFiles.step (some .start) calls = some log ∧
  (∀ id, log.files.stat id = true ↔ id < log.nextid) ∧
  ∃ records : List LogRecord, log.iterate = some (records.map some) ∧
    records.map LogRecord.recovered = (run LogCall.after [] calls).map some

/-- The log whose files hold these. -/
def LogFiles.holding (items : List LogItem) (iterpos : ℕ) : LogFiles :=
  (TpcLog.holding (items.map fun item => some item.entry) iterpos).inBytes

theorem start_eq : LogFiles.start = .holding [] 0 := by
  have hperforms := @tpclogInit_performs ⟨.ofList [], 0, 0⟩ _ rfl
  have hinit := init_inBytes ⟨.ofList [], 0, 0⟩
  have hempty : (TpcLog.inBytes ⟨.ofList [], 0, 0⟩).files = .empty := by
    rw [TpcLog.inBytes, Directory.ofList_nil]
    ext id : 1
    rfl
  rw [hperforms.run_eq] at hinit
  rw [LogFiles.start, ← hempty]
  exact hinit

/-- Each call does to the files what it does to the list. -/
theorem call_holding (items : List LogItem) {call : LogCall} (h : call.Fits) (pos : ℕ) :
    ∃ pos', (LogFiles.holding items pos).call call = some (.holding (call.after items) pos') := by
  cases call with
  | log item =>
    have hperforms := tpclogLog_performs item.loggable item.make_entry (items.map fun item => some item.entry) pos
    have hlog := log_inBytes (.holding (items.map fun item => some item.entry) pos) item.loggable item.make_entry h
      (by simp [TpcLog.holding])
    rw [hperforms.run_eq] at hlog
    refine ⟨pos, ?_⟩
    rw [LogFiles.call, LogFiles.holding, hlog]
    simp [LogCall.after, LogFiles.holding]
  | clear =>
    have hperforms := @tpclogClearLog_performs (.holding (items.map fun item => some item.entry) pos) _ rfl
    refine ⟨pos, ?_⟩
    rw [LogFiles.call, LogFiles.holding, clear_inBytes, hperforms.run_eq]
    rfl
  | init nextid iterpos =>
    have hperforms := @tpclogInit_performs ⟨.ofList (items.map fun item => some item.entry), nextid, iterpos⟩ _ rfl
    refine ⟨iterpos, ?_⟩
    have hinit := init_inBytes ⟨.ofList (items.map fun item => some item.entry), nextid, iterpos⟩
    rw [hperforms.run_eq] at hinit
    exact congrArg some hinit

/-- And so do all the calls. -/
theorem run_holding (items : List LogItem) {calls : List LogCall} (h : ∀ call ∈ calls, call.Fits) (pos : ℕ) :
    ∃ pos', run LogFiles.step (some (.holding items pos)) calls = some (.holding (run LogCall.after items calls) pos') := by
  induction calls generalizing items pos with
  | nil => exact ⟨pos, rfl⟩
  | cons call calls ih =>
    obtain ⟨pos', hcall⟩ := call_holding items (h call List.mem_cons_self) pos
    obtain ⟨pos'', hrun⟩ := ih (call.after items) (fun call hmem => h call (List.mem_cons_of_mem _ hmem)) pos'
    refine ⟨pos'', ?_⟩
    rw [run_cons, LogFiles.step, Option.bind_some, hcall, hrun, run_cons]

/-- What was logged, fits. -/
theorem fits_after {calls : List LogCall} (h : ∀ call ∈ calls, call.Fits) : ∀ item ∈ run LogCall.after [] calls, item.Fits := by
  have halong : Along LogCall.after (fun _ call => call.Fits) [] calls := along_of_forall fun call hcall _ => h call hcall
  refine halong.invariant (I := fun items => ∀ item ∈ items, item.Fits) (by simp) ?_
  intro items call hitems hcall
  cases call with
  | log item => simpa [LogCall.after, or_imp, forall_and] using ⟨hitems, hcall⟩
  | clear => simp [LogCall.after]
  | init _ _ => exact hitems

/-- The files of a list of items that fit are yielded in its order. -/
theorem iterate_holding {items : List LogItem} (h : ∀ item ∈ items, item.Fits) (pos : ℕ) :
    (LogFiles.holding items pos).iterate = some ((items.map fun item => item.entry.read).map some) := by
  have hread : ∀ file ∈ items.map fun item => some item.entry, Loadable file := by
    intro file hfile
    obtain ⟨item, hitem, rfl⟩ := List.mem_map.mp hfile
    rintro entry ⟨⟩
    exact ⟨h item hitem, rfl⟩
  rw [LogFiles.holding, iterate_inBytes hread, List.map_map, List.map_map]
  rfl

theorem log_is_list (calls : List LogCall) (h : ∀ call ∈ calls, call.Fits) : Faithful calls := by
  obtain ⟨pos, hrun⟩ := run_holding [] h 0
  rw [← start_eq] at hrun
  refine ⟨_, hrun, fun id => ?_, _, iterate_holding (fits_after h) pos, ?_⟩
  · rw [LogFiles.holding, TpcLog.inBytes, Directory.stat_map]
    simp [TpcLog.holding]
  · rw [List.map_map]
    exact List.map_congr_left fun item hitem => LogItem.recovered_read (fits_after h item hitem)

/-- A log that was written to, cleared, and found by another process. -/
theorem log_is_list_found :
    (∀ call ∈ [LogCall.log .commit, .clear, .log (.put (.ofString "a") .empty), .init 7 3, .log .abort], call.Fits) ∧
      Faithful [.log .commit, .clear, .log (.put (.ofString "a") .empty), .init 7 3, .log .abort] := by
  have h : ∀ call ∈ [LogCall.log .commit, .clear, .log (.put (.ofString "a") .empty), .init 7 3, .log .abort], call.Fits := by
    simp only [List.forall_mem_cons, List.not_mem_nil, false_imp_iff, implies_true, and_true]
    refine ⟨?_, trivial, ?_, trivial, ?_⟩
    · exact (by decide : LogItem.commit.entry.length < 2 ^ 31)
    · exact (by decide : (LogItem.put (.ofString "a") .empty).entry.length < 2 ^ 31)
    · exact (by decide : LogItem.abort.entry.length < 2 ^ 31)
  exact ⟨h, log_is_list _ h⟩

/-- Where an `int` cannot count the bytes of a key, `tpclog_log` asks for a block that there is not. -/
theorem log_dies {log : LogFiles} {key : CString} (hfree : log.files.stat log.nextid = false) (hkey : key.strlen = 2 ^ 31 - 1) :
    log.log .delReq (some key) none = none := by
  have hlen : key.stored.length = 2 ^ 31 := (CString.stored_length key).trans (by rw [hkey]; norm_num)
  have hsize : 2 ^ 63 ≤ (8 + intSize (.ofNat (2 ^ 31)) + intSize (.ofNat 0)).toNat := by decide
  have hbytes : keyBytes .delReq (some key) = some key.stored := rfl
  have hnone : valueBytes .delReq none = some [] := rfl
  rw [LogFiles.log, if_neg (by decide), if_neg (by rw [hfree]; exact Bool.false_ne_true), hbytes, hnone]
  simp only [Option.bind_eq_bind, Option.bind_some, hlen, List.length_nil]
  rw [if_pos (.inl hsize)]

theorem not_faithful_of_long {key : CString} (hkey : key.strlen = 2 ^ 31 - 1) : ¬ Faithful [.log (.del key)] := by
  rintro ⟨log, hrun, -⟩
  have hdies : LogFiles.start.call (.log (.del key)) = none := congrArg (Option.map Prod.snd) (log_dies rfl hkey)
  rw [run_cons, LogFiles.step, Option.bind_some, hdies] at hrun
  cases hrun

/-- A key that, with its terminator, is one byte too long for an `int`. -/
def hugeKey : CString := ⟨List.replicate (2 ^ 31 - 1) 97, fun h => absurd (List.eq_of_mem_replicate h) (by decide)⟩

theorem strlen_hugeKey : hugeKey.strlen = 2 ^ 31 - 1 := List.length_replicate

theorem log_long_record : ¬ Faithful [.log (.del hugeKey)] := not_faithful_of_long strlen_hugeKey

end Cs162Hw.Kv
