import Cs162Hw.Kv.ResponseHead
import Cs162Hw.Kv.Wire

/-!
# Messages that arrive in part

`http_request_parse` and `http_response_parse` of `hw4/src/libhttp.c` call `read` once, and `read` may return any number of
the bytes that were sent. What the two make of the beginning of a message is read off here.

* `httpRequestParse_cut`, `httpResponseParse_cut`: a request line that is cut before its second blank is refused, and so is
  a response that is cut in its head.
* `kvrequestRecieve_take`: of a request nothing is received, or all of it.
* `kvresponseRecieve_take`: of a response nothing is received, or its type and the beginning of its body. Nobody looks
  at the length that was announced.
* **`received_in_part`**: the two of them, for every message that can be sent.
-/

namespace Cs162Hw.Kv

open Library

/-! ## Requests -/

/-- A parser of requests reads no more than its buffer holds. -/
theorem httpRequestParse_take (pending : List UInt8) :
    httpRequestParse (pending.take libhttpMessageMaxSize) = httpRequestParse pending := by
  rw [httpRequestParse, httpRequestParse, List.take_take, min_self]

/-- A request line that is cut before its second blank. -/
theorem httpRequestParse_cut {method url : CString} (hm : method ∈ validMethods) (hurl : Inline url) (k : ℕ) :
    httpRequestParse ((method.bytes ++ Ascii.space :: url.bytes).take k) = .reject := by
  have hspace : Ascii.space ∉ method.bytes := by
    have hall : ∀ m ∈ validMethods, Ascii.space ∉ m.bytes := by decide
    exact hall method hm
  rw [← httpRequestParse_take, List.take_take]
  rcases take_append_cons method.bytes url.bytes Ascii.space (min libhttpMessageMaxSize k) with ⟨-, hcut⟩ | ⟨j, hj, hcut⟩
  · -- in the method
    rw [hcut]
    have hnone : strchr (method.bytes.take (min libhttpMessageMaxSize k)) 0 Ascii.space = .ok none :=
      (Rest.start _).strchr_eq_none fun hmem =>
        hspace (List.take_subset _ _ ((untilNul_isInitial _).subset hmem))
    have hlen : (method.bytes.take (min libhttpMessageMaxSize k)).length ≤ libhttpMessageMaxSize := by
      rw [List.length_take]
      omega
    rw [httpRequestParse, List.take_of_length_le hlen, hnone]
    simp only [Parse.ok_bind, ite_self]
  · -- in the URL
    rw [hcut]
    have hlen : (method.bytes ++ Ascii.space :: url.bytes.take j).length ≤ libhttpMessageMaxSize := by
      simp only [List.length_append, List.length_cons, List.length_take]
      omega
    have hstart := Rest.start (method.bytes ++ Ascii.space :: url.bytes.take j)
    have hfind := hstart.strchr_eq hspace method.nul (by decide)
    have hpath := hstart.advance.next
    rw [Nat.zero_add] at hfind hpath
    have hvalid : (validMethods.any fun m => decide (method.bytes <+: m.bytes)) = true :=
      List.any_eq_true.mpr ⟨method, hm, by simp⟩
    have hne : method.bytes ++ Ascii.space :: url.bytes.take j ≠ [] := by simp
    rw [httpRequestParse, List.take_of_length_le hlen, if_neg hne, hfind]
    simp only [Parse.ok_bind, httpIsValidMethod_eq hstart method.nul, hvalid, Bool.not_true, Bool.false_eq_true, if_false]
    obtain ⟨path, hslash⟩ := hurl.slash
    cases j with
    | zero =>
      rw [List.take_zero] at hpath ⊢
      rw [hpath.charAt_nil]
      rfl
    | succ j =>
      rw [hslash, List.take_succ_cons] at hpath ⊢
      have hall : ∀ c ∈ path.take j, decide (c ≠ Ascii.space ∧ c ≠ Ascii.lf ∧ c ≠ 0) = true := by
        intro c hc
        have hmem : c ∈ url.bytes := hslash ▸ List.mem_cons_of_mem _ (List.take_subset _ _ hc)
        exact decide_eq_true ⟨fun h => hurl.space (h ▸ hmem), fun h => hurl.lf (h ▸ hmem), fun h => url.nul (h ▸ hmem)⟩
      have hnul : 0 ∉ path.take j := fun hmem => by simpa using hall 0 hmem
      have hin : Rest (method.bytes ++ Ascii.space :: Ascii.slash :: path.take j) (method.bytes.length + 1 + 1)
          (path.take j ++ []) := by
        rw [List.append_nil]
        exact hpath.next
      have hskip := hin.skipWhile_eq hall hnul (fun d hd => by cases hd)
      simp only [hpath.charAt_cons, Parse.ok_bind, ne_eq, not_true_eq_false, if_false, hskip, hin.advance.charAt_nil, if_true]

/-- What does not fit the buffer might as well not have been sent. -/
theorem kvrequestRecieve_min (msg : List UInt8) (n : ℕ) :
    kvrequestRecieve (msg.take n) = kvrequestRecieve (msg.take (min n libhttpMessageMaxSize)) := by
  rw [kvrequestRecieve, kvrequestRecieve, ← httpRequestParse_take, List.take_take, min_comm]

/-- **Of a request** that is complete and needs no escaping nothing is received, or all of it. -/
theorem kvrequestRecieve_take {req : KvRequest} (hc : req.Complete) (hs : req.Sendable) (htype : req.type ≠ .index) :
    ∃ method, httpMethodForRequestType req.type = some method ∧
      kvrequestSend req = some (req.line method ++ Ascii.space :: lit "HTTP/1.1\r\n\r\n") ∧
      ∀ n, kvrequestRecieve ((req.line method ++ Ascii.space :: lit "HTTP/1.1\r\n\r\n").take n) =
        if (req.line method).length < min n libhttpMessageMaxSize then .ok req else .reject := by
  obtain ⟨method, hmethod, hvalid, hinline, hsend, hreceived⟩ := kvrequestSend_line hc hs htype
  refine ⟨method, hmethod, hsend, fun n => ?_⟩
  rw [kvrequestRecieve_min]
  have hle : min n libhttpMessageMaxSize ≤ libhttpMessageMaxSize := min_le_right ..
  generalize min n libhttpMessageMaxSize = k at hle
  rcases take_append_cons (req.line method) (lit "HTTP/1.1\r\n\r\n") Ascii.space k with ⟨hk, hcut⟩ | ⟨j, rfl, hcut⟩
  · rw [if_neg (not_lt.mpr hk), hcut, kvrequestRecieve, KvRequest.line, httpRequestParse_cut hvalid hinline]
    rfl
  · rw [if_pos (by omega), hcut]
    refine hreceived _ ?_
    rw [List.length_append, List.length_cons, List.length_take]
    omega

/-! ## Responses -/

/-- A parser of responses reads no more than its buffer holds. -/
theorem httpResponseParse_take (pending : List UInt8) :
    httpResponseParse (pending.take libhttpMessageMaxSize) = httpResponseParse pending := by
  rw [httpResponseParse, httpResponseParse, List.take_take, min_self]

/-- The first line of a response, without its LF. -/
def statusLine (statusCode : ℤ) (status : CString) : List UInt8 :=
  lit "HTTP/1.1" ++ Ascii.space :: ((decimal statusCode.toNat).bytes ++ Ascii.space :: (status.bytes ++ [Ascii.cr]))

/-- What a response begins with that announces `n` bytes. -/
def responseHead (statusCode : ℤ) (status : CString) (n : ℕ) : List UInt8 :=
  statusLine statusCode status ++ Ascii.lf :: ((contentLengthLine n ++ [Ascii.cr]) ++ Ascii.lf :: ([Ascii.cr] ++ [Ascii.lf]))

theorem statusLine_append (statusCode : ℤ) (status : CString) (s : List UInt8) :
    statusLine statusCode status ++ Ascii.lf :: s = lit "HTTP/1.1" ++ Ascii.space :: ((decimal statusCode.toNat).bytes ++
      Ascii.space :: (status.bytes ++ Ascii.cr :: Ascii.lf :: s)) := by
  simp only [statusLine, List.append_assoc, List.cons_append, List.nil_append]

section

variable {b s : List UInt8} {p n : ℕ} {statusCode : ℤ} {status : CString}

/-- No line ends where there is no LF. -/
theorem lineEnd_eq_none (h : Rest b p s) (hlf : Ascii.lf ∉ s) : lineEnd b p = .ok none := by
  rw [lineEnd, h.strstr_eq_none (c := Ascii.lf) (by decide) hlf]
  exact h.strstr_eq_none (c := Ascii.lf) (by decide) hlf

/-- The texts hold no LF. -/
theorem lf_notMem_message (hstatus : httpGetResponseMessage statusCode = some status) : Ascii.lf ∉ status.bytes := by
  unfold httpGetResponseMessage at hstatus
  split at hstatus <;> cases hstatus
  all_goals decide

theorem lf_notMem_contentLengthLine (n : ℕ) : Ascii.lf ∉ contentLengthLine n := by
  simp only [contentLengthLine, List.mem_append, not_or]
  exact ⟨⟨by decide, by decide⟩, fun hmem => absurd (isDigit_of_mem_decimal hmem) (by decide)⟩

/-- The status line is cut before its LF. -/
theorem httpStatusLine_cut (hstatus : httpGetResponseMessage statusCode = some status) (k : ℕ) :
    httpStatusLine ((statusLine statusCode status).take k) = .reject := by
  unfold statusLine
  obtain ⟨⟨hcode, hlt, hdigits⟩, hint, hne0, hcr⟩ := httpGetResponseMessage_known hstatus
  have hversion : (lit "HTTP/1.1").length = 8 ∧ Ascii.space ∉ lit "HTTP/1.1" ∧ 0 ∉ lit "HTTP/1.1" := by decide
  rcases take_append_cons (lit "HTTP/1.1") ((decimal statusCode.toNat).bytes ++ Ascii.space :: (status.bytes ++ [Ascii.cr]))
    Ascii.space k with ⟨-, hcut⟩ | ⟨j, -, hcut⟩
  · -- in the version
    rw [hcut, httpStatusLine, (Rest.start _).strchr_eq_none fun hmem =>
      hversion.2.1 (List.take_subset _ _ ((untilNul_isInitial _).subset hmem))]
    rfl
  rw [hcut]
  have hstart := Rest.start (lit "HTTP/1.1" ++ Ascii.space ::
    ((decimal statusCode.toNat).bytes ++ Ascii.space :: (status.bytes ++ [Ascii.cr])).take j)
  have hspace := hstart.strchr_eq hversion.2.1 hversion.2.2 (by decide)
  have hsame := hstart.strneq_self hversion.2.2
  have hrest := hstart.advance.next
  have hold := hstart.strneq (lit "HTTP/1.0") 8
  rw [hversion.1] at hspace hsame hrest
  rw [Nat.zero_add] at hspace hrest
  rw [httpStatusLine, hspace]
  simp only [Parse.ok_bind, ne_eq, not_true_eq_false, if_false, hsame, hold, Bool.not_true, Bool.false_and,
    Bool.false_eq_true]
  rcases take_append_cons (decimal statusCode.toNat).bytes (status.bytes ++ [Ascii.cr]) Ascii.space j with
    ⟨-, hcut⟩ | ⟨i, -, hcut⟩
  · -- in the code: no blank follows it
    rw [hcut] at hrest ⊢
    have hnospace : Ascii.space ∉ (decimal statusCode.toNat).bytes.take j := fun hmem =>
      absurd (isDigit_of_mem_decimal (List.take_subset _ _ hmem)) (by decide)
    obtain ⟨number, q, hnumber, hle, hq⟩ := strtol_cases hrest.le
    obtain ⟨d, hd, hne⟩ := hrest.charAt_ne (by decide) hnospace hle hq
    rw [hnumber]
    simp only [Parse.ok_bind, hd, hne, not_false_eq_true, decide_true, Bool.or_true, if_true]
  · -- in the text
    rw [hcut] at hrest ⊢
    have hnumber := Rest.strtol_decimal hrest (by omega) (by rw [untilNul_cons (by decide)]; rintro c ⟨⟩; decide)
    have hend := hrest.advance
    rw [hdigits] at hnumber hend
    have hlf : Ascii.lf ∉ (status.bytes ++ [Ascii.cr]).take i := by
      intro hmem
      rcases List.mem_append.mp (List.take_subset _ _ hmem) with hmem | hmem
      · exact lf_notMem_message hstatus hmem
      · exact absurd hmem (by decide)
    rw [hnumber]
    simp only [Parse.ok_bind, hend.charAt_cons, lineEnd_eq_none hend.next hlf]
    split_ifs <;> rfl

/-- The status line was sent. -/
theorem httpStatus_sent (hstatus : httpGetResponseMessage statusCode = some status)
    (h : b = statusLine statusCode status ++ Ascii.lf :: s) :
    ∃ q, httpStatus b = .ok (.ofInt statusCode, q) ∧ Rest b q (Ascii.cr :: Ascii.lf :: s) := by
  obtain ⟨-, hint, hne0, -⟩ := httpGetResponseMessage_known hstatus
  have hfound := statusFound_sent hstatus (Rest.of_eq (h.trans (statusLine_append ..)))
  have hold := (Rest.start b).strneq (lit "HTTP/1.0") 8
  refine ⟨_, ?_, hfound.rest⟩
  rw [httpStatus, httpStatusLine, hfound.space]
  simp only [Parse.ok_bind, ne_eq, not_true_eq_false, if_false, hfound.version, hold, Bool.not_true, Bool.false_and,
    Bool.false_eq_true, hfound.number, hfound.numberEnd, hne0, decide_false, Bool.or_self, hfound.line, Parse.pure_eq, hint,
    hstatus, Nat.add_sub_cancel_left, hfound.text]

/-- The loop over the headers, where no line ends after the one it is at. -/
theorem httpHeadersFrom_cut (h : Rest b p (Ascii.cr :: Ascii.lf :: s)) (hlf : Ascii.lf ∉ s) (fuel : ℕ) (c : Int32) :
    httpHeadersFrom b (fuel + 1) p c = .reject := by
  have hend : strneq b p (lit "\n\n") 2 = .ok false ∧ strneq b p (lit "\r\n\r\n") 4 = .ok false := by
    rw [h.strneq, h.strneq, untilNul_cons (by decide), untilNul_cons (by decide), lit_lf_lf, lit_crlf_crlf]
    refine ⟨by simp [Ascii.cr, Ascii.lf], congrArg Parse.ok (decide_eq_false fun heq => hlf ?_)⟩
    have htail : (untilNul s).take 2 = [Ascii.cr, Ascii.lf] := by simpa using heq
    have hmem : Ascii.lf ∈ (untilNul s).take 2 := by rw [htail]; decide
    exact (untilNul_isInitial s).subset (List.take_subset _ _ hmem)
  rw [httpHeadersFrom, hend.1, hend.2]
  simp only [Parse.ok_bind, Bool.or_self, Bool.false_eq_true, if_false, lineEnd_eq_none h.next.next hlf]

/-- A response is refused if its status line is. -/
theorem httpResponseParse_of_statusLine {pending : List UInt8} (hlen : pending.length ≤ libhttpMessageMaxSize)
    (h : httpStatusLine pending = .reject) : httpResponseParse pending = .reject := by
  rw [httpResponseParse_eq, httpResponseRead, List.take_of_length_le hlen]
  dsimp only
  split_ifs
  · rfl
  · rw [httpStatus, h]
    rfl

/-- And if its headers are. -/
theorem httpResponseParse_of_headers {pending : List UInt8} (hlen : pending.length ≤ libhttpMessageMaxSize) {x : Int16 × ℕ}
    (h : httpStatus pending = .ok x) (hheaders : httpHeadersFrom pending (pending.length + 1) x.2 (-1) = .reject) :
    httpResponseParse pending = .reject := by
  have hloop := HeadLoop.httpHeadersFrom_eq pending (pending.length + 1) ⟨x.2, []⟩
  have hnone : HeadLoop.contentLength ⟨x.2, []⟩ = -1 := rfl
  rw [hnone, hheaders] at hloop
  have hrun : HeadLoop.run pending (pending.length + 1) ⟨x.2, []⟩ = .reject := by
    cases hrun : HeadLoop.run pending (pending.length + 1) ⟨x.2, []⟩ with
    | reject => rfl
    | fault => rw [hrun] at hloop; cases hloop
    | ok t => rw [hrun] at hloop; cases hloop
  rw [httpResponseParse_eq, httpResponseRead, List.take_of_length_le hlen]
  dsimp only
  split_ifs
  · rfl
  · rw [h]
    simp only [Parse.ok_bind, hrun, Parse.reject_bind]

/-- **A response that is cut in its head** is refused. -/
theorem httpResponseParse_cut (hstatus : httpGetResponseMessage statusCode = some status) (hn : n < 2 ^ 31) {k : ℕ}
    (hk : k < (responseHead statusCode status n).length) (hlen : k ≤ libhttpMessageMaxSize) :
    httpResponseParse ((responseHead statusCode status n).take k) = .reject := by
  have hfits : ((responseHead statusCode status n).take k).length ≤ libhttpMessageMaxSize := by
    rw [List.length_take]
    omega
  have hline : Ascii.lf ∉ contentLengthLine n ++ [Ascii.cr] := by
    intro hmem
    rcases List.mem_append.mp hmem with hmem | hmem
    · exact lf_notMem_contentLengthLine n hmem
    · exact absurd hmem (by decide)
  unfold responseHead at hk hfits ⊢
  rcases take_append_cons (statusLine statusCode status)
    ((contentLengthLine n ++ [Ascii.cr]) ++ Ascii.lf :: ([Ascii.cr] ++ [Ascii.lf])) Ascii.lf k with ⟨-, hcut⟩ | ⟨j, rfl, hcut⟩
  · -- in the status line
    rw [hcut] at hfits ⊢
    exact httpResponseParse_of_statusLine hfits (httpStatusLine_cut hstatus k)
  rw [hcut] at hfits ⊢
  obtain ⟨q, hq, hrest⟩ := httpStatus_sent hstatus rfl
  refine httpResponseParse_of_headers hfits hq ?_
  rcases take_append_cons (contentLengthLine n ++ [Ascii.cr]) ([Ascii.cr] ++ [Ascii.lf]) Ascii.lf j with
    ⟨-, hcut⟩ | ⟨i, rfl, hcut⟩
  · -- in the line with the length
    rw [hcut] at hrest ⊢
    exact httpHeadersFrom_cut hrest (fun hmem => hline (List.take_subset _ _ hmem)) _ _
  · -- in the blank line
    rw [hcut, List.append_assoc, List.singleton_append] at hrest ⊢
    have hi : i ≤ 1 := by
      simp only [List.length_append, List.length_cons, List.length_nil] at hk
      omega
    have hlf : Ascii.lf ∉ ([Ascii.cr] ++ [Ascii.lf]).take i := by
      rcases Nat.le_one_iff_eq_zero_or_eq_one.mp hi with rfl | rfl <;> decide
    rw [List.length_append, List.length_cons, ← Nat.add_assoc]
    obtain ⟨r, hpass, hrest'⟩ := httpHeadersFrom_pass (c := -1) hn hrest _
    rw [hpass]
    exact httpHeadersFrom_cut hrest' hlf _ _

end

/-- What does not fit the buffer might as well not have been sent. -/
theorem kvresponseRecieve_min (msg : List UInt8) (n : ℕ) :
    kvresponseRecieve (msg.take n) = kvresponseRecieve (msg.take (min n libhttpMessageMaxSize)) := by
  rw [kvresponseRecieve, kvresponseRecieve, ← httpResponseParse_take, List.take_take, min_comm]

/-- **Of a response** nothing is received, or its type and the beginning of its body. -/
theorem kvresponseRecieve_take {res : KvResponse} (htype : res.type ∈ [MsgType.getResp, .success, .error, .vote, .ack])
    (hbody : ∀ body ∈ res.body, body.strlen < 2 ^ 31 - 1) :
    ∃ head, kvresponseSend res = some (head ++ (res.body.getD .empty).bytes) ∧
      ∀ n, kvresponseRecieve ((head ++ (res.body.getD .empty).bytes).take n) =
        if min n libhttpMessageMaxSize < head.length then .reject
        else .ok ⟨res.type, some (.read ((res.body.getD .empty).bytes.take (min n libhttpMessageMaxSize - head.length)))⟩ := by
  obtain ⟨status, hcode, hstatus, hback, hknown⟩ := status_of_sendable htype
  have hlen : (res.body.getD .empty).strlen < 2 ^ 31 - 1 := by
    cases hres : res.body with
    | none => decide
    | some body => exact hbody body (by rw [hres]; rfl)
  have hsend := kvresponseSend_eq hcode hstatus
  generalize res.body.getD .empty = body at hlen hsend ⊢
  have happend : ∀ s, responseHead (httpCodeForResponseType res.type) status body.strlen ++ s =
      lit "HTTP/1.1" ++ Ascii.space :: ((decimal (httpCodeForResponseType res.type).toNat).bytes ++ Ascii.space ::
        (status.bytes ++ Ascii.cr :: Ascii.lf :: (contentLengthLine body.strlen ++
          Ascii.cr :: Ascii.lf :: Ascii.cr :: Ascii.lf :: s))) := by
    intro s
    rw [responseHead, List.append_assoc, List.cons_append, statusLine_append]
    simp only [List.append_assoc, List.cons_append, List.nil_append]
  refine ⟨responseHead (httpCodeForResponseType res.type) status body.strlen, ?_, fun n => ?_⟩
  · rw [hsend, happend]
  rw [kvresponseRecieve_min]
  have hle : min n libhttpMessageMaxSize ≤ libhttpMessageMaxSize := min_le_right ..
  generalize min n libhttpMessageMaxSize = k at hle
  split_ifs with hk
  · -- nothing of the body has arrived
    rw [List.take_append_of_le_length (Nat.le_of_lt hk), kvresponseRecieve, httpResponseParse_cut hstatus (by omega) hk hle]
    rfl
  · -- the head has
    obtain ⟨j, rfl⟩ := Nat.exists_eq_add_of_le (not_lt.mp hk)
    have hnul : 0 ∉ body.bytes.take j := fun hmem => body.nul (List.take_subset _ _ hmem)
    have hbegins : (CString.read (body.bytes.take j)).bytes = body.bytes.take j := CString.read_bytes hnul
    have hshort : (CString.read (body.bytes.take j)).strlen ≤ body.strlen := by
      show (CString.read (body.bytes.take j)).bytes.length ≤ body.bytes.length
      rw [hbegins, List.length_take]
      exact min_le_right ..
    have hfits := happend (CString.read (body.bytes.take j)).bytes
    rw [List.take_length_add_append, Nat.add_sub_cancel_left, kvresponseRecieve]
    rw [hbegins] at hfits
    rw [httpResponseParse_announced hstatus hshort hlen (hfits.trans (by rw [hbegins])) (by
      rw [List.length_append, List.length_take]
      omega)]
    simp only [Parse.ok_bind, (httpGetResponseMessage_known hstatus).2.1, hback, if_neg hknown]
    rfl

/-- **Messages that arrive in part.** Of a request nothing is received up to the blank behind its URL, and with it all of it; of a
response nothing, or its type and the beginning of its body. The announced length of a body is an `int`. -/
theorem received_in_part (req : KvRequest) (hc : req.Complete) (hs : req.Sendable) (hindex : req.type ≠ .index)
    (res : KvResponse) (htype : res.type ∈ [MsgType.getResp, .success, .error, .vote, .ack])
    (hbody : ∀ body ∈ res.body, body.strlen < 2 ^ 31 - 1) :
    (∃ method, httpMethodForRequestType req.type = some method ∧
      kvrequestSend req = some (req.line method ++ Ascii.space :: lit "HTTP/1.1\r\n\r\n") ∧
      ∀ n, kvrequestRecieve ((req.line method ++ Ascii.space :: lit "HTTP/1.1\r\n\r\n").take n) =
        if (req.line method).length < min n libhttpMessageMaxSize then .ok req else .reject) ∧
    ∃ head, kvresponseSend res = some (head ++ (res.body.getD .empty).bytes) ∧
      ∀ n, kvresponseRecieve ((head ++ (res.body.getD .empty).bytes).take n) =
        if min n libhttpMessageMaxSize < head.length then .reject
        else .ok ⟨res.type, some (.read ((res.body.getD .empty).bytes.take (min n libhttpMessageMaxSize - head.length)))⟩ :=
  ⟨kvrequestRecieve_take hc hs hindex, kvresponseRecieve_take htype hbody⟩

/-- A `PUT`, and the response to a `GET`. -/
theorem received_in_part_put :
    (∃ method, httpMethodForRequestType .putReq = some method ∧
      kvrequestSend (putA "1") = some ((putA "1").line method ++ Ascii.space :: lit "HTTP/1.1\r\n\r\n") ∧
      ∀ n, kvrequestRecieve (((putA "1").line method ++ Ascii.space :: lit "HTTP/1.1\r\n\r\n").take n) =
        if ((putA "1").line method).length < min n libhttpMessageMaxSize then .ok (putA "1") else .reject) ∧
    ∃ head, kvresponseSend ⟨.getResp, some (.ofString "value")⟩ = some (head ++ (CString.ofString "value").bytes) ∧
      ∀ n, kvresponseRecieve ((head ++ (CString.ofString "value").bytes).take n) =
        if min n libhttpMessageMaxSize < head.length then .reject
        else .ok ⟨.getResp, some (.read ((CString.ofString "value").bytes.take (min n libhttpMessageMaxSize - head.length)))⟩ :=
  received_in_part (putA "1") ⟨by decide, by decide⟩
    ⟨by rintro _ ⟨⟩; exact ⟨by decide, by decide, by decide⟩, by rintro _ ⟨⟩; exact ⟨by decide, by decide, by decide⟩⟩ (by decide)
    ⟨.getResp, some (.ofString "value")⟩ (by decide) (by rintro _ ⟨⟩; decide)

end Cs162Hw.Kv
