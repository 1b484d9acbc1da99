import Mathlib.Data.PNat.Defs
import Cs162Hw.Httpserver.Request
import Cs162Hw.Kv.Numerals

/-!
# The file server

`handle_files_request` of `hw2/httpserver.c`: a file, the `index.html` of a directory, the links of a directory that has none, or
an error. The length of a file goes from `stat` through an `int` and `"%d"` into a header; its bytes go one by one, as a
`char`, from `fgetc` to `http_send_data`, whose `write` may write less than it is asked to.

Files do not change meanwhile, and reading one that is open does not fail. `dprintf` writes all of it.

* `printLoop_eq`: what is sent is the file, of any bytes and however little `write` writes.
* **`contentLength_iff`**: the length that is announced is the number of bytes that are sent exactly if that is an `int`.
-/

namespace Cs162Hw.Httpserver

open Library Kv

/-! ## The socket -/

/-- What the client gets. -/
structure Socket where
  /-- What has been written. -/
  sent : List UInt8
  /-- How often `write` has been called. -/
  calls : ℕ

/-- Before anything is written. -/
def Socket.start : Socket := ⟨[], 0⟩

/-- What `write` does each time it is called: it writes no more than so many bytes of those it is asked to, or returns `-1`. -/
abbrev Writes := ℕ → Option ℕ+

/-- `dprintf`. -/
def dprintf (s : Socket) (text : List UInt8) : Socket := { s with sent := s.sent ++ text }

/-- The loop of `http_send_data`. -/
def sendLoop (writes : Writes) : ℕ → Socket → List UInt8 → Option Socket
  | _, s, [] => some s
  | 0, _, _ :: _ => none
  | fuel + 1, s, c :: data =>
    match writes s.calls with
    | none => some { s with calls := s.calls + 1 }
    | some n => sendLoop writes fuel ⟨s.sent ++ (c :: data).take n, s.calls + 1⟩ ((c :: data).drop n)

/-- `http_send_data`: each turn writes something. -/
def httpSendData (writes : Writes) (s : Socket) (data : List UInt8) : Option Socket := sendLoop writes data.length s data

/-- `http_send_string`. -/
def httpSendString (writes : Writes) (s : Socket) (data : CString) : Option Socket := httpSendData writes s data.bytes

/-- `http_get_response_message`. -/
def httpGetResponseMessage : ℕ → CString
  | 100 => .ofString "Continue"
  | 200 => .ofString "OK"
  | 301 => .ofString "Moved Permanently"
  | 302 => .ofString "Found"
  | 304 => .ofString "Not Modified"
  | 400 => .ofString "Bad Request"
  | 401 => .ofString "Unauthorized"
  | 403 => .ofString "Forbidden"
  | 404 => .ofString "Not Found"
  | 405 => .ofString "Method Not Allowed"
  | _ => .ofString "Internal Server Error"

/-- `http_start_response`. -/
def httpStartResponse (s : Socket) (statusCode : ℕ) : Socket :=
  dprintf s (lit "HTTP/1.0 " ++ (decimal statusCode).bytes ++ lit " " ++ (httpGetResponseMessage statusCode).bytes ++ lit "\r\n")

/-- `http_send_header`. -/
def httpSendHeader (s : Socket) (key value : CString) : Socket :=
  dprintf s (key.bytes ++ lit ": " ++ value.bytes ++ lit "\r\n")

/-- `http_end_headers`. -/
def httpEndHeaders (s : Socket) : Socket := dprintf s (lit "\r\n")

/-- `'.'`. -/
abbrev dot : UInt8 := 46

/-- `strrchr(file_name, '.')`. -/
def fileExtension : List UInt8 → Option (List UInt8)
  | [] => none
  | c :: s => (fileExtension s).or (if c = dot then some (c :: s) else none)

/-- `http_get_mime_type`. -/
def httpGetMimeType (fileName : CString) : CString :=
  match fileExtension fileName.bytes with
  | none => .ofString "text/plain"
  | some e =>
    if e = lit ".html" ∨ e = lit ".htm" then .ofString "text/html"
    else if e = lit ".jpg" ∨ e = lit ".jpeg" then .ofString "image/jpeg"
    else if e = lit ".png" then .ofString "image/png"
    else if e = lit ".css" then .ofString "text/css"
    else if e = lit ".js" then .ofString "application/javascript"
    else if e = lit ".pdf" then .ofString "application/pdf"
    else .ofString "text/plain"

/-! ## Files -/

/-- A regular file. -/
structure RegularFile where
  /-- What it holds. -/
  content : List UInt8
  /-- Its size is an `off_t`. -/
  length_lt : content.length < 2 ^ 63
  /-- Can it be opened? -/
  opens : Bool

/-- What a path leads to. -/
inductive Node where
  /-- A regular file. -/
  | regular (file : RegularFile)
  /-- A directory: what `readdir` returns, if it can be opened. -/
  | directory (names : Option (List CString))
  /-- Anything else. -/
  | other

/-- The files. -/
abbrev FileSystem := CString → Option Node

/-- Two strings, one behind the other. -/
def append (s t : CString) : CString where
  bytes := s.bytes ++ t.bytes
  nul h := (List.mem_append.mp h).elim s.nul t.nul

/-- `concate`. Of a path that ends in a `/` it drops the first character of the other. -/
def concate (serverPath clientPath : CString) : Option CString :=
  match serverPath.bytes.getLast? with
  | none => none
  | some c =>
    if c = Ascii.slash then some (append serverPath ⟨clientPath.bytes.drop 1, fun h => clientPath.nul (List.mem_of_mem_drop h)⟩)
    else some (append serverPath clientPath)

/-- `is_a_dir`, and `*file_size`. -/
def isADir (fs : FileSystem) (path : CString) (fileSize : Int32) : ℤ × Int32 :=
  match fs path with
  | none => (-1, fileSize)
  | some (.directory _) => (1, fileSize)
  | some (.regular file) =>
    let stSize : Int64 := .ofNat file.content.length
    (0, stSize.toInt32)
  | some .other => (-1, fileSize)

/-- `has_a_index`, and `*file_size`. -/
def hasAIndex (fs : FileSystem) (path : CString) (fileSize : Int32) : Option (Bool × Int32) := do
  let newPath ← concate path (.ofString "/index.html")
  let (id, fileSize) := isADir fs newPath fileSize
  some (id = 0, fileSize)

/-- `FILE`: what has not been read, and whether the end has been met. -/
structure Stream where
  /-- What has not been read. -/
  rest : List UInt8
  /-- `feof`. -/
  eof : Bool

/-- `fgetc`. -/
def Stream.fgetc (file : Stream) : Int32 × Stream :=
  match file.rest with
  | [] => (-1, { file with eof := true })
  | c :: rest => (.ofNat c.toNat, { file with rest := rest })

/-- The loop of `read_from_a_file_print`. -/
def printLoop (writes : Writes) : ℕ → Stream → Socket → Option Socket
  | 0, _, _ => none
  | fuel + 1, file, s => do
    let (c, file) := file.fgetc
    let content : Int8 := c.toInt8
    if file.eof then some s
    else
      let s ← httpSendData writes s [content.toUInt8]
      printLoop writes fuel file s

/-- `read_from_a_file_print`. -/
def readFromAFilePrint (fs : FileSystem) (writes : Writes) (path : CString) (s : Socket) : Option Socket :=
  match fs path with
  | some (.regular file) =>
    if file.opens then printLoop writes (file.content.length + 1) ⟨file.content, false⟩ s else none
  | _ => none

/-- What is sent for a name in a directory. -/
def linkLine (name : CString) : CString :=
  let parent : CString := .ofString ".."
  let linkName := if name = parent then .ofString "Parent directory" else name
  let tmp := append (.ofString "<p><a href=\"") name
  let tmp := append tmp (if name = parent then .ofString "/\">" else .ofString "\">")
  append (append tmp linkName) (.ofString "</a></p>")

/-- The loop of `read_dir_print`. -/
def linkLoop (writes : Writes) : List CString → Socket → Option Socket
  | [], s => some s
  | name :: names, s =>
    if name = .ofString "." then linkLoop writes names s
    else do
      let s ← httpSendString writes s (linkLine name)
      linkLoop writes names s

/-- `read_dir_print`. -/
def readDirPrint (fs : FileSystem) (writes : Writes) (path : CString) (s : Socket) : Option Socket := do
  let s ← httpSendString writes s (.ofString "<center><h1>links are:</h1><hr>")
  match fs path with
  | some (.directory (some names)) =>
    let s ← linkLoop writes names s
    httpSendString writes s (.ofString "</center>")
  | _ => none

/-! ## Requests -/

/-- `"%d"`. -/
def formatInt (n : Int32) : CString :=
  if n < 0 then append (.ofString "-") (decimal (-n.toInt).toNat) else decimal n.toInt.toNat

/-- The response with a file, its size as `stat` has left it in an `int`. -/
def sendFile (fs : FileSystem) (writes : Writes) (path : CString) (fileSize : Int32) (s : Socket) : Option Socket :=
  let s := httpStartResponse s 200
  let s := httpSendHeader s (.ofString "Content-type") (httpGetMimeType path)
  let s := httpSendHeader s (.ofString "Content-length") (formatInt fileSize)
  let s := httpEndHeaders s
  readFromAFilePrint fs writes path s

/-- A response in HTML, without the text. -/
def startHtml (s : Socket) (statusCode : ℕ) : Socket :=
  let s := httpStartResponse s statusCode
  let s := httpSendHeader s (.ofString "Content-type") (.ofString "text/html")
  httpEndHeaders s

/-- `handle_files_request`. It takes for granted that the request can be parsed. -/
def handleFilesRequest (fs : FileSystem) (serverFilesDirectory : CString) (writes : Writes) (readBuffer : ReadBuffer) :
    Option Socket :=
  match httpRequestParse readBuffer with
  | .ok request => do
    let newPath ← concate serverFilesDirectory request.path
    if request.method = .ofString "GET" then
      let (id, fileSize) := isADir fs newPath 0
      if id = 0 then sendFile fs writes newPath fileSize .start
      else if id = 1 then do
        let (hasIndex, fileSize) ← hasAIndex fs newPath fileSize
        if hasIndex then do
          let updatedPath ← concate newPath (.ofString "/index.html")
          sendFile fs writes updatedPath fileSize .start
        else readDirPrint fs writes newPath (startHtml .start 200)
      else
        httpSendString writes (startHtml .start 404)
          (.ofString "<center><h1>404 ERROR!</h1><hr><p>Nothing's here yet.</p></center>")
    else some .start
  | _ => none

/-! ## What is sent -/

section

variable {s : Socket} {data content : List UInt8} {fuel : ℕ}

/-- However little is written at a time, all of it is. -/
theorem sendLoop_eq (writes : ℕ → ℕ+) (h : data.length ≤ fuel) :
    ∃ calls, sendLoop (fun k => some (writes k)) fuel s data = some ⟨s.sent ++ data, calls⟩ := by
  induction fuel generalizing s data with
  | zero =>
    obtain rfl := List.eq_nil_of_length_eq_zero (Nat.le_zero.mp h)
    refine ⟨s.calls, ?_⟩
    rw [sendLoop, List.append_nil]
  | succ fuel ih =>
    cases data with
    | nil =>
      refine ⟨s.calls, ?_⟩
      rw [sendLoop, List.append_nil]
    | cons c data =>
      have hpos := (writes s.calls).pos
      have hlen : ((c :: data).drop (writes s.calls)).length ≤ fuel := by
        rw [List.length_drop]
        omega
      obtain ⟨calls, hsent⟩ := @ih ⟨s.sent ++ (c :: data).take (writes s.calls), s.calls + 1⟩ _ hlen
      refine ⟨calls, ?_⟩
      rw [sendLoop]
      refine hsent.trans ?_
      rw [List.append_assoc, List.take_append_drop]

theorem httpSendData_eq (writes : ℕ → ℕ+) (s : Socket) (data : List UInt8) :
    ∃ calls, httpSendData (fun k => some (writes k)) s data = some ⟨s.sent ++ data, calls⟩ := sendLoop_eq writes le_rfl

/-- A byte comes through `fgetc` and a `char`, whichever it is. -/
theorem byte_of_fgetc (c : UInt8) : (Int32.ofNat c.toNat).toInt8.toUInt8 = c := by
  rw [Int32.toInt8_ofNat', Int8.toUInt8_ofNat', UInt8.ofNat_toNat]

/-- **What `read_from_a_file_print` sends** is the file, up to the end that `feof` tells of. -/
theorem printLoop_eq (writes : ℕ → ℕ+) (h : content.length < fuel) :
    ∃ calls, printLoop (fun k => some (writes k)) fuel ⟨content, false⟩ s = some ⟨s.sent ++ content, calls⟩ := by
  induction content generalizing s fuel with
  | nil =>
    obtain ⟨fuel, rfl⟩ := Nat.exists_eq_succ_of_ne_zero (Nat.ne_zero_of_lt h)
    refine ⟨s.calls, ?_⟩
    rw [List.append_nil]
    rfl
  | cons c content ih =>
    obtain ⟨fuel, rfl⟩ := Nat.exists_eq_succ_of_ne_zero (Nat.ne_zero_of_lt h)
    obtain ⟨calls, hsend⟩ := httpSendData_eq writes s [c]
    obtain ⟨calls', hloop⟩ := @ih ⟨s.sent ++ [c], calls⟩ fuel (Nat.lt_of_succ_lt_succ h)
    refine ⟨calls', ?_⟩
    simp only [printLoop, Stream.fgetc, byte_of_fgetc, Bool.false_eq_true, if_false, hsend, Option.bind_eq_bind, Option.bind_some]
    rw [hloop, List.append_assoc]
    rfl

/-- A number that was printed is read back. -/
theorem atoi_formatInt (n : Int32) : atoi (formatInt n) = n.toInt := by
  have hlt : n < 0 ↔ n.toInt < 0 := Int32.lt_iff_toInt_lt
  rw [formatInt]
  by_cases h : n < 0
  · rw [if_pos h]
    have hneg := hlt.mp h
    show -(number (decimal (-n.toInt).toNat).bytes : ℤ) = _
    rw [number_decimal]
    omega
  · rw [if_neg h, atoi_decimal]
    have hnonneg := mt hlt.mpr h
    omega

/-! ## The length -/

/-- A response with a file. -/
def fileResponse (mimeType length : CString) (body : List UInt8) : List UInt8 :=
  lit "HTTP/1.0 200 OK\r\n" ++ lit "Content-type: " ++ mimeType.bytes ++ lit "\r\n" ++ lit "Content-length: " ++
    (length.bytes ++ (lit "\r\n\r\n" ++ body))

theorem fileResponse_inj {mimeType length length' : CString} {body : List UInt8}
    (h : fileResponse mimeType length body = fileResponse mimeType length' body) : length = length' :=
  CString.ext (List.append_cancel_right (List.append_cancel_left h))

variable {fs : FileSystem} {serverFilesDirectory clientPath path : CString} {file : RegularFile} {readBuffer : ReadBuffer}
  {request : HttpRequest}

/-- The head of a response with a file. -/
theorem head_sent (mimeType length : CString) (body : List UInt8) :
    (httpEndHeaders (httpSendHeader (httpSendHeader (httpStartResponse .start 200) (.ofString "Content-type") mimeType)
      (.ofString "Content-length") length)).sent ++ body = fileResponse mimeType length body := by
  have hstatus : lit "HTTP/1.0 " ++ (decimal 200).bytes ++ lit " " ++ (httpGetResponseMessage 200).bytes ++ lit "\r\n" =
      lit "HTTP/1.0 200 OK\r\n" := by
    rw [show (decimal 200).bytes = lit "200" by simp [decimal]; decide]
    decide
  have htype : (CString.ofString "Content-type").bytes ++ lit ": " = lit "Content-type: " := by decide
  have hlength : (CString.ofString "Content-length").bytes ++ lit ": " = lit "Content-length: " := by decide
  have hend : lit "\r\n\r\n" = lit "\r\n" ++ lit "\r\n" := by decide
  rw [fileResponse, ← hstatus, ← htype, ← hlength, hend]
  simp only [httpEndHeaders, httpSendHeader, httpStartResponse, dprintf, Socket.start, List.nil_append, List.append_assoc]

theorem sendFile_eq (writes : ℕ → ℕ+) (hfile : fs path = some (.regular file)) (hopens : file.opens = true) (fileSize : Int32) :
    ∃ calls, sendFile fs (fun k => some (writes k)) path fileSize .start =
      some ⟨fileResponse (httpGetMimeType path) (formatInt fileSize) file.content, calls⟩ := by
  obtain ⟨calls, hloop⟩ := printLoop_eq writes (Nat.lt_succ_self file.content.length)
  refine ⟨calls, ?_⟩
  rw [← head_sent, sendFile, readFromAFilePrint, hfile]
  simp only [hopens, if_true]
  exact hloop

/-- The request leads to a regular file, directly or as the `index.html` of a directory, and the file can be opened. -/
inductive Answers (fs : FileSystem) (serverFilesDirectory clientPath : CString) : CString → RegularFile → Prop where
  /-- Directly. -/
  | file {path : CString} {file : RegularFile} : concate serverFilesDirectory clientPath = some path →
      fs path = some (.regular file) → file.opens = true → Answers fs serverFilesDirectory clientPath path file
  /-- As `index.html`. -/
  | index {directory path : CString} {names : Option (List CString)} {file : RegularFile} :
      concate serverFilesDirectory clientPath = some directory → fs directory = some (.directory names) →
      concate directory (.ofString "/index.html") = some path → fs path = some (.regular file) → file.opens = true →
      Answers fs serverFilesDirectory clientPath path file

/-- **What is sent for a regular file**: its bytes, behind what `"%d"` makes of its size. -/
theorem handleFilesRequest_eq (writes : ℕ → ℕ+) (hparse : httpRequestParse readBuffer = .ok request)
    (hget : request.method = .ofString "GET") (h : Answers fs serverFilesDirectory request.path path file) :
    ∃ calls, handleFilesRequest fs serverFilesDirectory (fun k => some (writes k)) readBuffer =
      some ⟨fileResponse (httpGetMimeType path) (formatInt (.ofNat file.content.length)) file.content, calls⟩ := by
  have hisADir : ∀ {path : CString} {file : RegularFile} (fileSize : Int32), fs path = some (.regular file) →
      isADir fs path fileSize = (0, .ofNat file.content.length) := by
    intro path file fileSize hfile
    rw [isADir, hfile]
    exact congrArg (Prod.mk 0) (Int64.toInt32_ofNat' ..)
  rw [handleFilesRequest, hparse]
  cases h with
  | file hpath hfile hopens =>
    obtain ⟨calls, hsend⟩ := sendFile_eq writes hfile hopens (.ofNat file.content.length)
    refine ⟨calls, ?_⟩
    simp only [hpath, Option.bind_eq_bind, Option.bind_some, hget, if_true, hisADir 0 hfile]
    exact hsend
  | @index directory path names file hdirectory hdir hpath hfile hopens =>
    obtain ⟨calls, hsend⟩ := sendFile_eq writes hfile hopens (.ofNat file.content.length)
    refine ⟨calls, ?_⟩
    have hisADirectory : isADir fs directory 0 = (1, 0) := by rw [isADir, hdir]
    have hindex : hasAIndex fs directory 0 = some (true, .ofNat file.content.length) := by
      simp only [hasAIndex, hpath, Option.bind_eq_bind, Option.bind_some, hisADir 0 hfile]
      rfl
    simp only [hdirectory, Option.bind_eq_bind, Option.bind_some, hget, if_true, hisADirectory, one_ne_zero, if_false, hindex,
      hpath]
    exact hsend

/-- **The length that is announced** is the number of bytes that are sent exactly if that is an `int`. -/
theorem contentLength_iff (writes : ℕ → ℕ+) (hparse : httpRequestParse readBuffer = .ok request)
    (hget : request.method = .ofString "GET") (h : Answers fs serverFilesDirectory request.path path file) :
    (∃ calls, handleFilesRequest fs serverFilesDirectory (fun k => some (writes k)) readBuffer =
      some ⟨fileResponse (httpGetMimeType path) (decimal file.content.length) file.content, calls⟩) ↔
      file.content.length < 2 ^ 31 := by
  obtain ⟨calls, hsent⟩ := handleFilesRequest_eq writes hparse hget h
  constructor
  · rintro ⟨calls', hsent'⟩
    have heq := congrArg Socket.sent (Option.some.inj (hsent.symm.trans hsent'))
    have hlen := congrArg atoi (fileResponse_inj heq)
    rw [atoi_formatInt, atoi_decimal] at hlen
    have hlt := (Int32.ofNat file.content.length).toInt_lt
    omega
  · intro hlt
    refine ⟨calls, ?_⟩
    have hnonneg : ¬ Int32.ofNat file.content.length < 0 := by
      rw [Int32.lt_iff_toInt_lt, Int32.toInt_ofNat_of_lt hlt]
      exact Int.not_lt.mpr (Int.natCast_nonneg _)
    rw [hsent, formatInt, if_neg hnonneg, Int32.toInt_ofNat_of_lt hlt, Int.toNat_natCast]

end

/-! ## A file that is too long -/

/-- The request `GET /a`. -/
def getA : ReadBuffer := ⟨lit "GET /a HTTP/1.0\r\n", by decide⟩

/-- One file, `/srv/a`. -/
def oneFile (file : RegularFile) : FileSystem := fun path =>
  if path = .ofString "/srv/a" then some (.regular file) else none

theorem oneFile_answers {file : RegularFile} (h : file.opens = true) :
    httpRequestParse getA = .ok ⟨.ofString "GET", .ofString "/a"⟩ ∧
      Answers (oneFile file) (.ofString "/srv") (.ofString "/a") (.ofString "/srv/a") file :=
  ⟨by decide, .file (by decide) (if_pos rfl) h⟩

/-- Two bytes, and the length that is announced is 2. -/
theorem contentLength_twoBytes : ∃ calls,
    handleFilesRequest (oneFile ⟨[255, 10], by decide, true⟩) (.ofString "/srv") (fun _ => some 1) getA =
      some ⟨fileResponse (httpGetMimeType (.ofString "/srv/a")) (decimal 2) [255, 10], calls⟩ := by
  obtain ⟨hparse, h⟩ := @oneFile_answers ⟨[255, 10], by decide, true⟩ rfl
  exact (contentLength_iff (fun _ => 1) hparse rfl h).mpr (by decide)

/-- A file of `2 ^ 31` bytes. -/
def longFile : RegularFile := ⟨List.replicate (2 ^ 31) 0, by rw [List.length_replicate]; decide, true⟩

/-- The length that is announced for it is negative. -/
theorem longFile_announced : Answers (oneFile longFile) (.ofString "/srv") (.ofString "/a") (.ofString "/srv/a") longFile ∧
    ¬ ∃ calls, handleFilesRequest (oneFile longFile) (.ofString "/srv") (fun _ => some 1) getA =
      some ⟨fileResponse (httpGetMimeType (.ofString "/srv/a")) (decimal longFile.content.length) longFile.content, calls⟩ := by
  obtain ⟨hparse, h⟩ := @oneFile_answers longFile rfl
  refine ⟨h, ?_⟩
  rintro ⟨calls', hsent'⟩
  obtain ⟨calls, hsent⟩ := handleFilesRequest_eq (fun _ => 1) hparse rfl h
  have hlen : longFile.content.length = 2 ^ 31 := List.length_replicate
  have heq := congrArg Socket.sent (Option.some.inj (hsent.symm.trans hsent'))
  have hread := congrArg atoi (fileResponse_inj heq)
  rw [atoi_formatInt, atoi_decimal, hlen] at hread
  exact absurd hread (by decide)

end Cs162Hw.Httpserver
