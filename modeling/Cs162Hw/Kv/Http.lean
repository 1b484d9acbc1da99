import Cs162Hw.Kv.Numerals

/-!
# HTTP

`hw4/src/libhttp.c`: `http_request_parse`, `http_response_parse`, and the functions that put a message
together. A parser takes what is pending at its socket, reads once, and goes through the buffer it has read
into; the message under construction has room for everything that is added to it here, and all of it is
written.

* `httpRequestParse_sent`: a request line that was sent is parsed into its method and its URL.
* `httpResponseParse_sent`: a response that was sent is parsed into its status and its body, whatever the
  body is: line ends and colons are looked for in the whole buffer, but those of the head come first.
-/

namespace Cs162Hw.Kv

open Library

/-- `LIBHTTP_MESSAGE_MAX_SIZE`. -/
def libhttpMessageMaxSize : ℕ := 8192

/-! ## Requests -/

/-- `struct http_request`. -/
structure HttpRequest where
  /-- The method. -/
  method : CString
  /-- The path, with everything up to the next blank. -/
  path : CString
  deriving DecidableEq

/-- `valid_methods`. -/
def validMethods : List CString := ["GET", "PUT", "DELETE", "POST"].map .ofString

/-- `http_is_valid_method`: the `len` characters at position `method` begin a method. -/
def httpIsValidMethod (b : List UInt8) (method len : ℕ) : Parse Bool :=
  validMethods.anyM fun m => strneq b method m.bytes len

/-- `http_request_parse`. -/
def httpRequestParse (pending : List UInt8) : Parse HttpRequest := do
  let readBuffer := pending.take libhttpMessageMaxSize
  if readBuffer = [] then .reject
  else
    match ← strchr readBuffer 0 Ascii.space with
    | none => .reject
    | some methodEnd =>
      if !(← httpIsValidMethod readBuffer 0 methodEnd) then .reject
      else
        let readStart := methodEnd + 1
        if (← charAt readBuffer readStart) ≠ Ascii.slash then .reject
        else
          let readEnd ← skipWhile readBuffer (readStart + 1) fun c => c ≠ Ascii.space ∧ c ≠ Ascii.lf ∧ c ≠ 0
          if (← charAt readBuffer readEnd) = 0 then .reject
          else if readEnd = readStart then .reject
          else return ⟨.read (slice readBuffer 0 methodEnd), .read (slice readBuffer readStart readEnd)⟩

/-- `http_start_request`; nothing if the method is not a valid one. -/
def httpStartRequest (method url : CString) : Option (List UInt8) :=
  if method ∈ validMethods then some (method.bytes ++ lit " " ++ url.bytes ++ lit " HTTP/1.1\r\n") else none

/-- `http_end_headers`. -/
def httpEndHeaders (msg : List UInt8) : List UInt8 := msg ++ lit "\r\n"

section

variable {pending : List UInt8} {method url : CString} {rest : List UInt8}

theorem httpIsValidMethod_eq {b w s : List UInt8} {p : ℕ} (h : Rest b p (w ++ s)) (h0 : 0 ∉ w) :
    httpIsValidMethod b p w.length = .ok (validMethods.any fun m => decide (w <+: m.bytes)) := by
  refine Parse.anyM_eq fun m _ => ?_
  rw [h.strneq, untilNul_append h0, List.take_left]
  simp only [← List.prefix_iff_eq_take]

/-- A URL that can stand in a request line: it begins with a `/`, and holds no blank and no line end. -/
structure Inline (url : CString) : Prop where
  slash : ∃ path, url.bytes = Ascii.slash :: path
  space : Ascii.space ∉ url.bytes
  lf : Ascii.lf ∉ url.bytes

/-- **What `http_request_parse` comes to**: it never faults, and the path it returns can stand in a request line. -/
theorem httpRequestParse_cases (pending : List UInt8) :
    httpRequestParse pending = .reject ∨ ∃ req, httpRequestParse pending = .ok req ∧ Inline req.path := by
  unfold httpRequestParse
  generalize pending.take libhttpMessageMaxSize = b
  by_cases hb : b = []
  · exact Or.inl (if_pos hb)
  simp only [if_neg hb]
  rcases (Rest.start b).strchr_cases (c := Ascii.space) (by decide) with hnone | ⟨w, s, hs, -, hw0, hfind⟩
  · left
    rw [hnone]
    rfl
  have hstart : Rest b 0 (w ++ Ascii.space :: s) := hs ▸ Rest.start b
  have hspace := hstart.advance
  rw [Nat.zero_add] at hspace
  simp only [hfind, Parse.ok_bind, Nat.zero_add, httpIsValidMethod_eq hstart hw0]
  cases validMethods.any fun m => decide (w <+: m.bytes) with
  | false => exact Or.inl rfl
  | true =>
    simp only [Bool.not_true, Bool.false_eq_true, if_false]
    rcases hspace.next.charAt_cases with hnul | ⟨d, t, rfl, hd⟩
    · left
      rw [hnul]
      rfl
    by_cases hslash : d = Ascii.slash
    · subst hslash
      obtain ⟨path, t', rfl, hpath, hpath0, hskip⟩ := hspace.next.next.skipWhile_cases fun c =>
        decide (c ≠ Ascii.space ∧ c ≠ Ascii.lf ∧ c ≠ 0)
      have hend := (hspace.next.next).advance
      simp only [hd, Parse.ok_bind, ne_eq, not_true_eq_false, if_false, hskip]
      rcases hend.charAt_cases with hnul | ⟨d, t, -, hd⟩
      · left
        rw [hnul]
        rfl
      by_cases hd0 : d = 0
      · left
        rw [hd, hd0]
        rfl
      right
      have hne : w.length + 1 + 1 + path.length ≠ w.length + 1 := by omega
      have hslice : slice b (w.length + 1) (w.length + 1 + 1 + path.length) = Ascii.slash :: path := by
        have := Rest.slice (w := Ascii.slash :: path) hspace.next
        rwa [List.length_cons, Nat.add_comm path.length, ← Nat.add_assoc] at this
      have hbytes : (CString.read (Ascii.slash :: path)).bytes = Ascii.slash :: path :=
        CString.read_bytes fun hmem => (List.mem_cons.mp hmem).elim (by decide) hpath0
      simp only [hd, Parse.ok_bind, if_neg hd0, if_neg hne, hslice]
      refine ⟨_, rfl, ⟨⟨path, hbytes⟩, ?_, ?_⟩⟩
      · intro hmem
        rw [hbytes, List.mem_cons] at hmem
        exact hmem.elim (by decide) fun hmem => by simpa using hpath _ hmem
      · intro hmem
        rw [hbytes, List.mem_cons] at hmem
        exact hmem.elim (by decide) fun hmem => by simpa using hpath _ hmem
    · left
      simp only [hd, Parse.ok_bind, ne_eq, hslash, not_false_eq_true, if_true]

/-- **A request line that was sent.** -/
theorem httpRequestParse_sent (hm : method ∈ validMethods) (hurl : Inline url)
    (hlen : (method.bytes ++ Ascii.space :: url.bytes ++ Ascii.space :: rest).length ≤ libhttpMessageMaxSize) :
    httpRequestParse (method.bytes ++ Ascii.space :: url.bytes ++ Ascii.space :: rest) = .ok ⟨method, url⟩ := by
  unfold httpRequestParse
  rw [List.take_of_length_le hlen]
  generalize hb : method.bytes ++ Ascii.space :: url.bytes ++ Ascii.space :: rest = b
  have hne : b ≠ [] := by simp [← hb]
  have hspace : Ascii.space ∉ method.bytes := by
    have hall : ∀ m ∈ validMethods, Ascii.space ∉ m.bytes := by decide
    exact hall method hm
  have hstart : Rest b 0 (method.bytes ++ Ascii.space :: (url.bytes ++ Ascii.space :: rest)) := by
    rw [← List.cons_append, ← List.append_assoc, hb]
    exact Rest.start b
  have hfind := hstart.strchr_eq hspace method.nul (by decide)
  have hmethod := Rest.slice hstart
  have hsp := hstart.advance
  simp only [Nat.zero_add] at hfind hmethod hsp
  have hvalid : (validMethods.any fun m => decide (method.bytes <+: m.bytes)) = true :=
    List.any_eq_true.mpr ⟨method, hm, by simp⟩
  obtain ⟨path, hpath⟩ := hurl.slash
  have hslice := Rest.slice hsp.next
  have hpathRest : Rest b (method.bytes.length + 1) (Ascii.slash :: (path ++ Ascii.space :: rest)) := by
    rw [← List.cons_append, ← hpath]
    exact hsp.next
  have hskip := hpathRest.next.skipWhile_eq (f := fun c => decide (c ≠ Ascii.space ∧ c ≠ Ascii.lf ∧ c ≠ 0))
    (fun c hc => by
      have hspace : c ≠ Ascii.space := by rintro rfl; exact hurl.space (hpath ▸ List.mem_cons_of_mem _ hc)
      have hlf : c ≠ Ascii.lf := by rintro rfl; exact hurl.lf (hpath ▸ List.mem_cons_of_mem _ hc)
      have hnul : c ≠ 0 := by rintro rfl; exact url.nul (hpath ▸ List.mem_cons_of_mem _ hc)
      exact decide_eq_true ⟨hspace, hlf, hnul⟩)
    (fun hmem => url.nul (hpath ▸ List.mem_cons_of_mem _ hmem)) (by rw [untilNul_cons (by decide)]; simp)
  have hposition : method.bytes.length + 1 + 1 + path.length = method.bytes.length + 1 + url.bytes.length := by
    rw [hpath, List.length_cons]
    omega
  have hend := (hsp.next).advance.charAt_cons
  have hpos : method.bytes.length + 1 + url.bytes.length ≠ method.bytes.length + 1 := by
    rw [← hposition]
    omega
  rw [if_neg hne, hfind]
  simp only [Parse.ok_bind, httpIsValidMethod_eq hstart method.nul, hvalid, hpathRest.charAt_cons, hskip, hposition, hend]
  rw [if_neg (by decide), if_neg (by simp), if_neg (by decide), if_neg hpos, hmethod, hslice, CString.read_self, CString.read_self]
  rfl

end

/-! ## Responses -/

/-- `struct http_response`. -/
structure HttpResponse where
  /-- The status code. -/
  status : Int16
  /-- The body. -/
  body : CString
  deriving DecidableEq

/-- `http_get_response_message`. -/
def httpGetResponseMessage : ℤ → Option CString
  | 100 => some (.ofString "Continue")
  | 200 => some (.ofString "OK")
  | 201 => some (.ofString "Created")
  | 202 => some (.ofString "Accepted")
  | 204 => some (.ofString "No Content")
  | 301 => some (.ofString "Moved Permanently")
  | 302 => some (.ofString "Found")
  | 304 => some (.ofString "Not Modified")
  | 400 => some (.ofString "Bad Request")
  | 401 => some (.ofString "Unauthorized")
  | 403 => some (.ofString "Forbidden")
  | 404 => some (.ofString "Not Found")
  | 405 => some (.ofString "Method Not Allowed")
  | 500 => some (.ofString "Internal Server Error")
  | _ => none

/-- Where the line at position `p` ends: before the next `"\r\n"`, or else before the next `"\n"`. -/
def lineEnd (b : List UInt8) (p : ℕ) : Parse (Option ℕ) := do
  match ← strstr b p (lit "\r\n") with
  | some e => return some e
  | none => strstr b p (lit "\n")

/-- The loop of `http_response_parse` over the headers, from `read_end` on: where they end, and the last
`content_length`. -/
def httpHeadersFrom (b : List UInt8) : ℕ → ℕ → Int32 → Parse (ℕ × Int32)
  | 0, _, _ => .fault
  | fuel + 1, readEnd, contentLength => do
    if (← strneq b readEnd (lit "\n\n") 2) || (← strneq b readEnd (lit "\r\n\r\n") 4) then return (readEnd, contentLength)
    else
      let readStart := readEnd + 2
      match ← lineEnd b readStart with
      | none => .reject
      | some readLimit =>
        match ← strstr b readStart (lit ": ") with
        | none => .reject
        | some readEnd =>
          if readEnd > readLimit then .reject
          else if ← strneq b readStart (lit "Content-Length") (readEnd - readStart) then do
            let (number, readEnd) ← strtol b (readEnd + 2)
            let readEnd ← skipWhile b readEnd fun c => c = Ascii.space
            if readEnd ≠ readLimit then .reject
            else httpHeadersFrom b fuel readLimit (.ofInt number)
          else httpHeadersFrom b fuel readLimit contentLength

/-- `http_response_parse`. -/
def httpResponseParse (pending : List UInt8) : Parse HttpResponse := do
  let readBuffer := pending.take libhttpMessageMaxSize
  if readBuffer = [] then .reject
  else
    match ← strchr readBuffer 0 Ascii.space with
    | none => .reject
    | some readEnd =>
      if readEnd ≠ 8 then .reject
      else if !(← strneq readBuffer 0 (lit "HTTP/1.1") 8) && !(← strneq readBuffer 0 (lit "HTTP/1.0") 8) then .reject
      else do
        let readStart := readEnd + 1
        let (number, readEnd) ← strtol readBuffer readStart
        let status : Int16 := .ofInt number
        if status = 0 || readEnd ≠ readStart + 3 || (← charAt readBuffer readEnd) ≠ Ascii.space then .reject
        else
          let readStart := readEnd + 1
          match ← lineEnd readBuffer readStart with
          | none => .reject
          | some readEnd =>
            match httpGetResponseMessage status.toInt with
            | none => .fault
            | some message =>
              if !(← strneq readBuffer readStart message.bytes (readEnd - readStart)) then .reject
              else do
                let (readEnd, contentLength) ← httpHeadersFrom readBuffer (readBuffer.length + 1) readEnd (-1)
                let body ← strAt readBuffer (readEnd + 4)
                -- the block of `content_length + 1` bytes has room for the body and its terminator
                if (body.length + 1 : ℤ) ≤ (contentLength + 1).toInt then return ⟨status, .read body⟩
                else .fault

/-- `http_start_response`; nothing if the code is unknown. -/
def httpStartResponse (statusCode : ℤ) : Option (List UInt8) :=
  (httpGetResponseMessage statusCode).map fun status =>
    lit "HTTP/1.1 " ++ (decimal statusCode.toNat).bytes ++ lit " " ++ status.bytes ++ lit "\r\n"

/-- `http_add_header`. -/
def httpAddHeader (msg : List UInt8) (key value : CString) : List UInt8 :=
  msg ++ key.bytes ++ lit ": " ++ value.bytes ++ lit "\r\n"

/-- `http_add_string`; `none` is `NULL`. -/
def httpAddString (msg : List UInt8) (data : Option CString) : List UInt8 :=
  match data with
  | none => msg
  | some data => msg ++ data.bytes

/-! ### Parsing a response that was sent -/

theorem lit_space : lit " " = [Ascii.space] := by decide

theorem lit_lf : lit "\n" = [Ascii.lf] := by decide

theorem lit_crlf : lit "\r\n" = [Ascii.cr, Ascii.lf] := by decide

theorem lit_lf_lf : lit "\n\n" = [Ascii.lf, Ascii.lf] := by decide

theorem lit_crlf_crlf : lit "\r\n\r\n" = [Ascii.cr, Ascii.lf, Ascii.cr, Ascii.lf] := by decide

section

variable {b w s : List UInt8} {p : ℕ}

/-- A line that ends with CR LF and holds no CR. -/
theorem lineEnd_eq (h : Rest b p (w ++ Ascii.cr :: Ascii.lf :: s)) (hcr : Ascii.cr ∉ w) (h0 : 0 ∉ w) :
    lineEnd b p = .ok (some (p + w.length)) := by
  have hfind := @Rest.strstr_eq _ b s w p Ascii.cr _ _ [Ascii.lf] (by simpa using h) hcr
    fun hmem => (List.mem_append.mp hmem).elim h0 (by decide)
  rw [lineEnd, lit_crlf, hfind]
  rfl

/-- What follows the code, for every code there is a text for. -/
theorem httpGetResponseMessage_known {statusCode : ℤ} {status : CString} (h : httpGetResponseMessage statusCode = some status) :
    ((statusCode.toNat : ℤ) = statusCode ∧ statusCode < 1000 ∧ (decimal statusCode.toNat).bytes.length = 3) ∧
      (Int16.ofInt statusCode).toInt = statusCode ∧ Int16.ofInt statusCode ≠ 0 ∧ Ascii.cr ∉ status.bytes := by
  unfold httpGetResponseMessage at h
  split at h <;> cases h
  all_goals
    exact ⟨⟨by decide, by decide, length_decimal_eq_three (by decide) (by decide)⟩, by decide, by decide, by decide⟩

/-- What the head of a response says about the length of the body. -/
def contentLengthLine (n : ℕ) : List UInt8 := lit "Content-Length" ++ lit ": " ++ (decimal n).bytes

theorem notMem_contentLengthLine (n : ℕ) : 0 ∉ contentLengthLine n ∧ Ascii.cr ∉ contentLengthLine n := by
  simp only [contentLengthLine, List.mem_append, not_or]
  exact ⟨⟨⟨by decide, by decide⟩, (decimal n).nul⟩, ⟨by decide, by decide⟩,
    fun hmem => absurd (isDigit_of_mem_decimal hmem) (by decide)⟩

/-- The test of the loop, where the line goes on with a header. -/
theorem headers_go_on {n : ℕ} (h : Rest b p (Ascii.cr :: Ascii.lf :: (contentLengthLine n ++ s))) :
    strneq b p (lit "\n\n") 2 = .ok false ∧ strneq b p (lit "\r\n\r\n") 4 = .ok false := by
  obtain ⟨t, ht⟩ : ∃ t, untilNul (Ascii.cr :: Ascii.lf :: (contentLengthLine n ++ s)) = Ascii.cr :: Ascii.lf :: 67 :: t := by
    have hlit : lit "Content-Length" = 67 :: lit "ontent-Length" := by decide
    refine ⟨untilNul (lit "ontent-Length" ++ lit ": " ++ (decimal n).bytes ++ s), ?_⟩
    rw [contentLengthLine, hlit]
    simp only [List.cons_append]
    rw [untilNul_cons (by decide), untilNul_cons (by decide), untilNul_cons (by decide)]
  rw [h.strneq, h.strneq, ht, lit_lf_lf, lit_crlf_crlf]
  exact ⟨by simp [Ascii.cr, Ascii.lf], by simp [Ascii.cr]⟩

/-- The test of the loop, where the head ends. -/
theorem headers_end (h : Rest b p (Ascii.cr :: Ascii.lf :: Ascii.cr :: Ascii.lf :: s)) :
    strneq b p (lit "\n\n") 2 = .ok false ∧ strneq b p (lit "\r\n\r\n") 4 = .ok true := by
  rw [h.strneq, h.strneq, untilNul_cons (by decide), untilNul_cons (by decide), untilNul_cons (by decide),
    untilNul_cons (by decide), lit_lf_lf, lit_crlf_crlf]
  exact ⟨by simp [Ascii.cr, Ascii.lf], by simp [Ascii.cr]⟩

/-- The loop over the headers, at a length. -/
theorem httpHeadersFrom_pass {n : ℕ} (hn : n < 2 ^ 31) {c : Int32}
    (h : Rest b p (Ascii.cr :: Ascii.lf :: (contentLengthLine n ++ Ascii.cr :: Ascii.lf :: s))) (fuel : ℕ) :
    ∃ q, httpHeadersFrom b (fuel + 1) p c = httpHeadersFrom b fuel q (.ofInt n) ∧ Rest b q (Ascii.cr :: Ascii.lf :: s) := by
  have hline : Rest b (p + 2) (contentLengthLine n ++ Ascii.cr :: Ascii.lf :: s) := h.next.next
  obtain ⟨hnul, hcr⟩ := notMem_contentLengthLine n
  have hlimit := lineEnd_eq hline hcr hnul
  have hend := hline.advance
  have hcolon : lit ": " = [Ascii.colon, Ascii.space] := by decide
  have hname : Rest b (p + 2) (lit "Content-Length" ++ (Ascii.colon :: [Ascii.space]) ++
      ((decimal n).bytes ++ Ascii.cr :: Ascii.lf :: s)) := by
    rw [contentLengthLine, hcolon] at hline
    simpa only [List.append_assoc] using hline
  have hfound := hname.strstr_eq (by decide) (by decide)
  have hsame := Rest.strneq_self ((List.append_assoc ..) ▸ hname) (by decide)
  have hvalue := hname.advance
  have hnumber := Rest.strtol_decimal hvalue (by omega) (by rw [untilNul_cons (by decide)]; rintro c ⟨⟩; decide)
  have hskip := Rest.skipWhile_eq (w := []) (f := fun c => decide (c = Ascii.space)) hend (by simp) (by simp)
    (by rw [untilNul_cons (by decide)]; rintro c ⟨⟩; decide)
  have hlen : (contentLengthLine n).length = (lit "Content-Length").length + 2 + (decimal n).bytes.length := by
    simp only [contentLengthLine, hcolon, List.length_append]
    rfl
  have hvalueStart : p + 2 + (lit "Content-Length" ++ Ascii.colon :: [Ascii.space]).length =
      p + 2 + (lit "Content-Length").length + 2 := by
    simp only [List.length_append, List.length_cons, List.length_nil]
    omega
  have hvalueEnd : p + 2 + (lit "Content-Length").length + 2 + (decimal n).bytes.length = p + 2 + (contentLengthLine n).length := by
    omega
  rw [hvalueStart, hvalueEnd] at hnumber
  obtain ⟨hgo₂, hgo₄⟩ := headers_go_on h
  refine ⟨_, ?_, hend⟩
  rw [httpHeadersFrom, hgo₂, hgo₄]
  simp only [Parse.ok_bind, Bool.or_self, Bool.false_eq_true, if_false]
  rw [hlimit, hcolon, hfound]
  simp only [Parse.ok_bind]
  rw [if_neg (by omega), Nat.add_sub_cancel_left, hsame, hnumber]
  simp only [Parse.ok_bind, if_true, hskip, List.length_nil, Nat.add_zero, ne_eq, not_true_eq_false, if_false]

/-- The loop over the headers, where a length is the only one. -/
theorem httpHeadersFrom_contentLength {n : ℕ} (hn : n < 2 ^ 31) {c : Int32}
    (h : Rest b p (Ascii.cr :: Ascii.lf :: (contentLengthLine n ++ Ascii.cr :: Ascii.lf :: Ascii.cr :: Ascii.lf :: s))) (fuel : ℕ) :
    ∃ q, httpHeadersFrom b (fuel + 2) p c = .ok (q, .ofInt n) ∧ Rest b q (Ascii.cr :: Ascii.lf :: Ascii.cr :: Ascii.lf :: s) := by
  obtain ⟨q, hpass, hend⟩ := httpHeadersFrom_pass (c := c) hn h (fuel + 1)
  obtain ⟨hend₂, hend₄⟩ := headers_end hend
  refine ⟨q, ?_, hend⟩
  rw [hpass, httpHeadersFrom, hend₂, hend₄]
  rfl

/-- What the parser finds where a response begins. -/
structure StatusFound (b : List UInt8) (statusCode : ℤ) (status : CString) (s : List UInt8) : Prop where
  space : strchr b 0 Ascii.space = .ok (some 8)
  version : strneq b 0 (lit "HTTP/1.1") 8 = .ok true
  number : strtol b 9 = .ok (statusCode, 12)
  numberEnd : charAt b 12 = .ok Ascii.space
  line : lineEnd b 13 = .ok (some (13 + status.bytes.length))
  text : strneq b 13 status.bytes status.bytes.length = .ok true
  rest : Rest b (13 + status.bytes.length) (Ascii.cr :: Ascii.lf :: s)

/-- It finds what was sent. -/
theorem statusFound_sent {statusCode : ℤ} {status : CString} (hstatus : httpGetResponseMessage statusCode = some status)
    (h : Rest b 0 (lit "HTTP/1.1" ++ Ascii.space :: ((decimal statusCode.toNat).bytes ++ Ascii.space ::
      (status.bytes ++ Ascii.cr :: Ascii.lf :: s)))) : StatusFound b statusCode status s := by
  obtain ⟨⟨hcode, hlt, hdigits⟩, -, -, hcr⟩ := httpGetResponseMessage_known hstatus
  have hversionLen : (lit "HTTP/1.1").length = 8 := by decide
  have hspace := h.strchr_eq (by decide) (by decide) (by decide)
  have hversion := h.strneq_self (by decide)
  have hcodeRest := h.advance.next
  rw [Nat.zero_add, hversionLen] at hspace hcodeRest
  rw [hversionLen] at hversion
  have hnumber := Rest.strtol_decimal hcodeRest (by omega) (by rw [untilNul_cons (by decide)]; rintro c ⟨⟩; decide)
  have hcodeEnd := hcodeRest.advance
  rw [hdigits] at hnumber hcodeEnd
  rw [hcode] at hnumber
  have htext := hcodeEnd.next
  exact ⟨hspace, hversion, hnumber, hcodeEnd.charAt_cons, lineEnd_eq htext hcr status.nul, htext.strneq_self status.nul,
    htext.advance⟩

/-- A response with no more of a body than was announced. -/
theorem httpResponseParse_announced {statusCode : ℤ} {status body : CString} {n : ℕ}
    (hstatus : httpGetResponseMessage statusCode = some status) (hbody : body.strlen ≤ n) (hn : n < 2 ^ 31 - 1)
    {msg : List UInt8} (hmsg : msg = lit "HTTP/1.1" ++ Ascii.space :: ((decimal statusCode.toNat).bytes ++ Ascii.space ::
      (status.bytes ++ Ascii.cr :: Ascii.lf :: (contentLengthLine n ++
        Ascii.cr :: Ascii.lf :: Ascii.cr :: Ascii.lf :: body.bytes)))) (hlen : msg.length ≤ libhttpMessageMaxSize) :
    httpResponseParse msg = .ok ⟨.ofInt statusCode, body⟩ := by
  obtain ⟨-, hint, hne0, -⟩ := httpGetResponseMessage_known hstatus
  have hfound := statusFound_sent hstatus (Rest.of_eq hmsg)
  have hlength := congrArg List.length hmsg
  simp only [List.length_append, List.length_cons] at hlength
  obtain ⟨fuel, hfuel⟩ : ∃ fuel, msg.length + 1 = fuel + 2 := ⟨msg.length - 1, by omega⟩
  obtain ⟨q, hheaders, hend⟩ := httpHeadersFrom_contentLength (c := -1) (by omega) hfound.rest fuel
  have hrest := hend.next.next.next.next.strAt
  rw [untilNul_eq_self body.nul] at hrest
  have hroom : ((body.bytes.length : ℤ) + 1) ≤ (Int32.ofInt n + 1).toInt := by
    have hone : (1 : Int32) = .ofInt 1 := by decide
    have hle : body.bytes.length ≤ n := hbody
    rw [hone, ← Int32.ofInt_add, Int32.toInt_ofInt_of_le (by omega) (by omega)]
    omega
  have hne : msg ≠ [] := by
    rintro rfl
    simp at hlength
  have hold := (Rest.start msg).strneq (lit "HTTP/1.0") 8
  unfold httpResponseParse
  rw [List.take_of_length_le hlen, if_neg hne, hfound.space]
  simp only [Parse.ok_bind]
  rw [if_neg (by simp), hfound.version, hold]
  simp only [Parse.ok_bind, Bool.not_true, Bool.false_and, Bool.false_eq_true, if_false]
  rw [hfound.number]
  simp only [Parse.ok_bind, hfound.numberEnd, hne0, decide_false, ne_eq, not_true_eq_false, Bool.or_self,
    Bool.false_eq_true, if_false, hfound.line, hint, hstatus, Nat.add_sub_cancel_left, hfound.text, Bool.not_true]
  rw [hfuel, hheaders]
  simp only [Parse.ok_bind]
  rw [hrest]
  simp only [Parse.ok_bind]
  rw [if_pos hroom, CString.read_self]
  rfl

/-- **A response that was sent.** -/
theorem httpResponseParse_sent {statusCode : ℤ} {status body : CString} (hstatus : httpGetResponseMessage statusCode = some status)
    {msg : List UInt8} (hmsg : msg = lit "HTTP/1.1" ++ Ascii.space :: ((decimal statusCode.toNat).bytes ++ Ascii.space ::
      (status.bytes ++ Ascii.cr :: Ascii.lf :: (contentLengthLine body.strlen ++
        Ascii.cr :: Ascii.lf :: Ascii.cr :: Ascii.lf :: body.bytes)))) (hlen : msg.length ≤ libhttpMessageMaxSize) :
    httpResponseParse msg = .ok ⟨.ofInt statusCode, body⟩ := by
  have hlength := congrArg List.length hmsg
  simp only [List.length_append, List.length_cons] at hlength
  have hbound : body.strlen < 2 ^ 31 - 1 := by
    rw [libhttpMessageMaxSize] at hlen
    have : body.strlen = body.bytes.length := rfl
    omega
  exact httpResponseParse_announced hstatus le_rfl hbound hmsg hlen

end

end Cs162Hw.Kv
