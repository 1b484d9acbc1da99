import Cs162Hw.Library.Chunks
import Cs162Hw.Httpserver.Files

/-!
# What the file server answers

The comment before `handle_files_request` of `hw2/httpserver.c` names four cases: a file, the `index.html` of a directory, the
links of a directory that has none, and an error. `page` is this, `Page.head` and `Page.chunks` what is to be written for each:
a head, and then the chunks that `http_send_data` is called with, one for each byte of a file or one for each link. A call of
`write` that fails ends the chunk, and nobody is told.

* `Answered`: a page that has been written, as far as `write` let it through.
* **`handleFilesRequest_page`**: whatever is requested, `handle_files_request` dies, or writes the head of the page and a
  beginning of each chunk; all of each exactly if no call fails.
-/

namespace Cs162Hw.Httpserver

open Library Kv

/-! ## Pages -/

/-- What a request leads to. -/
inductive Page where
  /-- A regular file, at this path. -/
  | regular (path : CString) (file : RegularFile)
  /-- A directory with these names. -/
  | links (names : List CString)
  /-- Nothing. -/
  | notFound
  /-- It is no `GET`. -/
  | ignored

/-- What a path leads to that a `GET` is about; `none` if it cannot be opened. -/
def pageAt (fs : FileSystem) (path : CString) : Option Page :=
  match fs path with
  | some (.regular file) => if file.opens then some (.regular path file) else none
  | some (.directory names) =>
    (concate path (.ofString "/index.html")).bind fun index =>
      match fs index with
      | some (.regular file) => if file.opens then some (.regular index file) else none
      | _ => names.map .links
  | _ => some .notFound

/-- What a request leads to; `none` if it cannot be parsed, or there is no directory to serve. -/
def page (fs : FileSystem) (serverFilesDirectory : CString) (readBuffer : ReadBuffer) : Option Page :=
  match httpRequestParse readBuffer with
  | .ok request =>
    (concate serverFilesDirectory request.path).bind fun path =>
      if request.method = .ofString "GET" then pageAt fs path else some .ignored
  | _ => none

namespace Page

/-- The first bytes of the response. -/
def head : Page → List UInt8
  | .regular path file => fileResponse (httpGetMimeType path) (formatInt (.ofNat file.content.length)) []
  | .links _ => lit "HTTP/1.0 200 OK\r\nContent-type: text/html\r\n\r\n"
  | .notFound => lit "HTTP/1.0 404 Not Found\r\nContent-type: text/html\r\n\r\n"
  | .ignored => []

/-- The chunks of its body. -/
def chunks : Page → List (List UInt8)
  | .regular _ file => file.content.map fun c => [c]
  | .links names => lit "<center><h1>links are:</h1><hr>" ::
      ((names.filter (· ≠ .ofString ".")).map fun name => (linkLine name).bytes) ++ [lit "</center>"]
  | .notFound => [lit "<center><h1>404 ERROR!</h1><hr><p>Nothing's here yet.</p></center>"]
  | .ignored => []

end Page

/-! ## Chunks -/

section

variable {writes : Writes} {s : Socket} {fuel : ℕ}

/-- What `write` does each time has done with the chunks what it can. -/
def Sent (writes : Writes) (s : Socket) (chunks : List (List UInt8)) (s' : Socket) : Prop :=
  ∃ sent, s'.sent = s.sent ++ sent ∧ Through (fun k => writes k = none) s.calls s'.calls chunks sent

theorem Sent.nil : Sent writes s [] s := ⟨[], (List.append_nil _).symm, .nil⟩

theorem Sent.append {s' s'' : Socket} {chunks chunks' : List (List UInt8)} (h : Sent writes s chunks s')
    (h' : Sent writes s' chunks' s'') : Sent writes s (chunks ++ chunks') s'' := by
  obtain ⟨sent, hsent, hthrough⟩ := h
  obtain ⟨sent', hsent', hthrough'⟩ := h'
  exact ⟨sent ++ sent', by rw [hsent', hsent, List.append_assoc], hthrough.append hthrough'⟩

/-- **One chunk**: a beginning of it is written, and all of it exactly if no call fails. -/
theorem sendLoop_sent {data : List UInt8} (h : data.length ≤ fuel) :
    ∃ s', sendLoop writes fuel s data = some s' ∧ Sent writes s [data] s' := by
  have hdone : sendLoop writes fuel s [] = some s ∧ Sent writes s [[]] s := by
    refine ⟨by cases fuel <;> rfl, [], (List.append_nil _).symm, .nil_singleton⟩
  induction fuel generalizing s data with
  | zero =>
    obtain rfl := List.eq_nil_of_length_eq_zero (Nat.le_zero.mp h)
    exact ⟨s, hdone⟩
  | succ fuel ih =>
    cases data with
    | nil => exact ⟨s, hdone⟩
    | cons c data =>
      rw [sendLoop]
      cases hwrite : writes s.calls with
      | none => exact ⟨_, rfl, [], (List.append_nil _).symm, .failed hwrite⟩
      | some n =>
        have hpos := n.pos
        have hlen : ((c :: data).drop n).length ≤ fuel := by
          rw [List.length_drop]
          omega
        have hok : ¬ writes s.calls = none := by
          rw [hwrite]
          exact Option.some_ne_none n
        obtain ⟨s', hs', sent, hsent, hthrough⟩ := @ih ⟨s.sent ++ (c :: data).take n, s.calls + 1⟩ _ hlen
          ⟨by cases fuel <;> rfl, [], (List.append_nil _).symm, .nil_singleton⟩
        refine ⟨s', hs', (c :: data).take n ++ sent, by rw [hsent, List.append_assoc], ?_⟩
        have hpiece : Through _ _ _ [(c :: data).take n ++ (c :: data).drop n] ((c :: data).take n ++ sent) :=
          hthrough.piece hok
        rwa [List.take_append_drop] at hpiece

theorem httpSendData_sent (writes : Writes) (s : Socket) (data : List UInt8) :
    ∃ s', httpSendData writes s data = some s' ∧ Sent writes s [data] s' := sendLoop_sent le_rfl

/-- A file, byte by byte. -/
theorem printLoop_sent {content : List UInt8} (h : content.length < fuel) :
    ∃ s', printLoop writes fuel ⟨content, false⟩ s = some s' ∧ Sent writes s (content.map fun c => [c]) s' := by
  induction content generalizing s fuel with
  | nil =>
    obtain ⟨fuel, rfl⟩ := Nat.exists_eq_succ_of_ne_zero (Nat.ne_zero_of_lt h)
    exact ⟨s, rfl, .nil⟩
  | cons c content ih =>
    obtain ⟨fuel, rfl⟩ := Nat.exists_eq_succ_of_ne_zero (Nat.ne_zero_of_lt h)
    obtain ⟨s₁, hsend, hsent⟩ := httpSendData_sent writes s [c]
    obtain ⟨s', hloop, hrest⟩ := @ih s₁ fuel (Nat.lt_of_succ_lt_succ h)
    refine ⟨s', ?_, hsent.append hrest⟩
    simp only [printLoop, Stream.fgetc, byte_of_fgetc, Bool.false_eq_true, if_false, hsend, Option.bind_eq_bind, Option.bind_some]
    exact hloop

/-- A directory, link by link. -/
theorem linkLoop_sent (writes : Writes) (names : List CString) (s : Socket) : ∃ s', linkLoop writes names s = some s' ∧
    Sent writes s ((names.filter (· ≠ .ofString ".")).map fun name => (linkLine name).bytes) s' := by
  induction names generalizing s with
  | nil => exact ⟨s, rfl, .nil⟩
  | cons name names ih =>
    by_cases hself : name = .ofString "."
    · obtain ⟨s', hloop, hsent⟩ := ih s
      refine ⟨s', ?_, ?_⟩
      · rw [linkLoop, if_pos hself]
        exact hloop
      · rwa [List.filter_cons_of_neg (by simpa using hself)]
    · obtain ⟨s₁, hsend, hfirst⟩ := httpSendData_sent writes s (linkLine name).bytes
      obtain ⟨s', hloop, hrest⟩ := ih s₁
      refine ⟨s', ?_, ?_⟩
      · rw [linkLoop, if_neg hself, httpSendString, hsend]
        exact hloop
      · rw [List.filter_cons_of_pos (by simpa using hself)]
        exact hfirst.append hrest

end

/-! ## Responses -/

section

variable {fs : FileSystem} {path : CString} {file : RegularFile} {s : Socket}

/-- A page that has been written: its head, and of the chunks what `write` let through. -/
def Answered (writes : Writes) (page : Page) (s : Socket) : Prop :=
  ∃ s₀ : Socket, s₀.sent = page.head ∧ s₀.calls = 0 ∧ Sent writes s₀ page.chunks s

/-- The head of a response in HTML. -/
theorem startHtml_sent (statusCode : ℕ) : (startHtml .start statusCode).sent =
    lit "HTTP/1.0 " ++ (decimal statusCode).bytes ++ lit " " ++ (httpGetResponseMessage statusCode).bytes ++ lit "\r\n" ++
      lit "Content-type: text/html\r\n\r\n" := by
  have htype : (CString.ofString "Content-type").bytes ++ lit ": " ++ (CString.ofString "text/html").bytes ++ lit "\r\n" ++
      lit "\r\n" = lit "Content-type: text/html\r\n\r\n" := by decide
  rw [← htype]
  simp only [startHtml, httpEndHeaders, httpSendHeader, httpStartResponse, dprintf, Socket.start, List.nil_append,
    List.append_assoc]

theorem startHtml_found (names : List CString) : (startHtml .start 200).sent = (Page.links names).head := by
  have hcode : (decimal 200).bytes = lit "200" := by
    simp [decimal]
    decide
  rw [startHtml_sent, hcode]
  rfl

theorem startHtml_notFound : (startHtml .start 404).sent = Page.notFound.head := by
  have hcode : (decimal 404).bytes = lit "404" := by
    simp [decimal]
    decide
  rw [startHtml_sent, hcode]
  rfl

/-- A file that cannot be opened ends the process. -/
theorem sendFile_answered (writes : Writes) (hfile : fs path = some (.regular file)) :
    Option.Rel (Answered writes) (if file.opens then some (.regular path file) else none)
      (sendFile fs writes path (.ofNat file.content.length) .start) := by
  have hhead := head_sent (httpGetMimeType path) (formatInt (.ofNat file.content.length)) []
  rw [List.append_nil] at hhead
  rw [sendFile, readFromAFilePrint, hfile]
  cases hopens : file.opens with
  | false =>
    simp only [hopens, Bool.false_eq_true, if_false]
    exact .none
  | true =>
    simp only [hopens, if_true]
    obtain ⟨s, hloop, hsent⟩ := printLoop_sent (Nat.lt_succ_self file.content.length)
    rw [hloop]
    exact .some ⟨_, hhead, rfl, hsent⟩

/-- A directory that cannot be opened ends the process, though the head has been written. -/
theorem readDirPrint_answered (writes : Writes) {names : Option (List CString)} (hdir : fs path = some (.directory names)) :
    Option.Rel (Answered writes) (names.map .links) (readDirPrint fs writes path (startHtml .start 200)) := by
  obtain ⟨s₁, htop, hfirst⟩ : ∃ s₁, httpSendString writes (startHtml .start 200)
      (.ofString "<center><h1>links are:</h1><hr>") = some s₁ ∧ Sent writes (startHtml .start 200) [_] s₁ :=
    httpSendData_sent writes _ _
  simp only [readDirPrint, htop, hdir, Option.bind_eq_bind, Option.bind_some]
  cases names with
  | none => exact .none
  | some names =>
    obtain ⟨s₂, hloop, hlinks⟩ := linkLoop_sent writes names s₁
    obtain ⟨s₃, hbottom, hlast⟩ : ∃ s₃, httpSendString writes s₂ (.ofString "</center>") = some s₃ ∧ Sent writes s₂ [_] s₃ :=
      httpSendData_sent writes _ _
    simp only [hloop, Option.bind_some, hbottom]
    exact .some ⟨_, startHtml_found names, rfl, (hfirst.append hlinks).append hlast⟩

theorem isADir_regular (hfile : fs path = some (.regular file)) (fileSize : Int32) :
    isADir fs path fileSize = (0, .ofNat file.content.length) := by
  rw [isADir, hfile]
  exact congrArg (Prod.mk 0) (Int64.toInt32_ofNat' ..)

/-- `is_a_dir` returns 0 for a regular file only. -/
theorem isADir_eq_zero_iff {fileSize : Int32} : (isADir fs path fileSize).1 = 0 ↔ ∃ file, fs path = some (.regular file) := by
  rw [isADir]
  rcases fs path with - | (_ | _ | _) <;> simp

variable {serverFilesDirectory : CString} {readBuffer : ReadBuffer} {request : HttpRequest}

/-- What a `GET` does, as the path leads to nothing, to a file or to a directory. -/
theorem get_answered (writes : Writes) (hparse : httpRequestParse readBuffer = .ok request)
    (hpath : concate serverFilesDirectory request.path = some path) (hget : request.method = .ofString "GET") :
    Option.Rel (Answered writes) (pageAt fs path) (handleFilesRequest fs serverFilesDirectory writes readBuffer) := by
  simp only [handleFilesRequest, hparse, hpath, Option.bind_eq_bind, Option.bind_some, hget, if_true]
  have hmissing : Option.Rel (Answered writes) (some .notFound) (httpSendString writes (startHtml .start 404)
      (.ofString "<center><h1>404 ERROR!</h1><hr><p>Nothing's here yet.</p></center>")) := by
    obtain ⟨s, hsend, hsent⟩ : ∃ s, httpSendString writes (startHtml .start 404)
        (.ofString "<center><h1>404 ERROR!</h1><hr><p>Nothing's here yet.</p></center>") = some s ∧
          Sent writes (startHtml .start 404) [_] s := httpSendData_sent writes _ _
    rw [hsend]
    exact .some ⟨_, startHtml_notFound, rfl, hsent⟩
  cases hnode : fs path with
  | none =>
    simp only [pageAt, isADir, hnode]
    exact hmissing
  | some node =>
    cases node with
    | other =>
      simp only [pageAt, isADir, hnode]
      exact hmissing
    | regular file =>
      simp only [pageAt, hnode, isADir_regular hnode, if_true]
      exact sendFile_answered writes hnode
    | directory names =>
      have hisADir : isADir fs path 0 = (1, 0) := by simp only [isADir, hnode]
      simp only [pageAt, hnode, hisADir, one_ne_zero, if_false, if_true, hasAIndex]
      cases hindex : concate path (.ofString "/index.html") with
      | none => exact .none
      | some index =>
        simp only [Option.bind_eq_bind, Option.bind_some, decide_eq_true_eq]
        have hlinks := readDirPrint_answered writes hnode
        split
        · rename_i file hfile
          simp only [isADir_regular hfile, if_true]
          exact sendFile_answered writes hfile
        · rename_i hother
          rw [if_neg]
          · exact hlinks
          · rw [isADir_eq_zero_iff]
            rintro ⟨file, hfile⟩
            exact hother file hfile

/-- Every request is answered with its page. -/
theorem handleFilesRequest_answered (fs : FileSystem) (serverFilesDirectory : CString) (writes : Writes) (readBuffer : ReadBuffer) :
    Option.Rel (Answered writes) (page fs serverFilesDirectory readBuffer)
      (handleFilesRequest fs serverFilesDirectory writes readBuffer) := by
  rw [page]
  cases hparse : httpRequestParse readBuffer with
  | fault =>
    rw [handleFilesRequest, hparse]
    exact .none
  | reject =>
    rw [handleFilesRequest, hparse]
    exact .none
  | ok request =>
    cases hpath : concate serverFilesDirectory request.path with
    | none =>
      simp only [handleFilesRequest, hparse, hpath, Option.bind_eq_bind, Option.bind_none]
      exact .none
    | some path =>
      by_cases hget : request.method = .ofString "GET"
      · simp only [hpath, Option.bind_some, if_pos hget]
        exact get_answered writes hparse hpath hget
      · simp only [hpath, Option.bind_some, if_neg hget, handleFilesRequest, hparse, Option.bind_eq_bind]
        exact .some ⟨_, rfl, rfl, .nil⟩

/-- **What is answered**, whatever is requested and whatever `write` does. -/
theorem handleFilesRequest_page (fs : FileSystem) (serverFilesDirectory : CString) (writes : Writes) (readBuffer : ReadBuffer) :
    match page fs serverFilesDirectory readBuffer with
    | none => handleFilesRequest fs serverFilesDirectory writes readBuffer = none
    | some page => ∃ s parts, handleFilesRequest fs serverFilesDirectory writes readBuffer = some s ∧
        List.Forall₂ (· <+: ·) parts page.chunks ∧ s.sent = page.head ++ parts.flatten ∧
        (s.sent = page.head ++ page.chunks.flatten ↔ ∀ k < s.calls, writes k ≠ none) := by
  have hanswered := handleFilesRequest_answered fs serverFilesDirectory writes readBuffer
  generalize page fs serverFilesDirectory readBuffer = answer at hanswered ⊢
  generalize handleFilesRequest fs serverFilesDirectory writes readBuffer = s at hanswered ⊢
  cases hanswered with
  | none => rfl
  | @some page s h =>
    obtain ⟨s₀, hhead, hcalls, sent, hsent, hthrough⟩ := h
    have hall := hthrough.eq_flatten_iff
    obtain ⟨parts, hparts, rfl, -⟩ := hthrough
    rw [hhead] at hsent
    refine ⟨s, parts, rfl, hparts, hsent, ?_⟩
    rw [hsent, List.append_cancel_left_eq, hall, hcalls]
    exact ⟨fun h k => h k (Nat.zero_le k), fun h k _ => h k⟩

end

/-- A call that fails in the middle of a file of three bytes: the one in the middle is missing. -/
example : (handleFilesRequest (oneFile ⟨[1, 2, 3], by decide, true⟩) (.ofString "/srv") (fun k => if k = 1 then none else some 1)
    getA).map (fun s => s.sent.drop 64) = some [1, 3] := by
  decide

end Cs162Hw.Httpserver
