import Cs162Hw.Kv.Http
import Cs162Hw.Kv.Url

/-!
# Messages as bytes

The functions of `hw4/src/kvmessage.c` between messages and bytes: `kvrequest_recieve`, `kvrequest_send`,
`kvresponse_recieve` and `kvresponse_send`. A receiver takes what is pending at its socket; a sender returns
what it writes, `none` if it writes nothing.

* `kvrequestRecieve_cases`: whatever is pending, a request is decoded or refused, and a decoded one has the
  strings its type needs, with no blank, no line end and no `&` in them. This is why nothing has to be
  escaped when it is sent on: **`forward_lossless`**.
* **`response_lossless`**: a response is received as it was sent, whatever its body is. `received_eq_wire` says
  the same of `KvResponse.received`, in terms of which the exchanges between servers are modelled.
-/

namespace Cs162Hw.Kv

open Library

/-! ## Requests -/

/-- `kvrequest_recieve`. -/
def kvrequestRecieve (pending : List UInt8) : Parse KvRequest := do
  let req ← httpRequestParse pending
  let params ← urlDecode req.path
  if req.method = .ofString "GET" then
    return ⟨if params.key = none then .index else .getReq, params.key, params.val⟩
  else if req.method = .ofString "PUT" then
    if params.key = none ∨ params.val = none then .reject
    else return ⟨.putReq, params.key, params.val⟩
  else if req.method = .ofString "DELETE" then
    if params.key = none then .reject
    else return ⟨.delReq, params.key, params.val⟩
  else if req.method = .ofString "POST" then
    if params.path = none then .reject
    else if params.path = some (.ofString "register") then
      if params.key = none ∨ params.val = none then .reject
      else return ⟨.register, params.key, params.val⟩
    else if params.path = some msgCommit then return ⟨.commit, params.key, params.val⟩
    else if params.path = some (.ofString "abort") then return ⟨.abort, params.key, params.val⟩
    else .reject
  else .reject

/-- `http_method_for_request_type`. -/
def httpMethodForRequestType : MsgType → Option CString
  | .getReq => some (.ofString "GET")
  | .putReq => some (.ofString "PUT")
  | .delReq => some (.ofString "DELETE")
  | .register | .commit | .abort => some (.ofString "POST")
  | _ => none

/-- `path_for_request_type`. -/
def pathForRequestType : MsgType → Option CString
  | .register => some (.ofString "register")
  | .commit => some (.ofString "commit")
  | .abort => some (.ofString "abort")
  | _ => none

/-- `kvrequest_send`. -/
def kvrequestSend (kvreq : KvRequest) : Option (List UInt8) :=
  match httpMethodForRequestType kvreq.type with
  | none => none
  | some method =>
    let url := urlEncode ⟨pathForRequestType kvreq.type, kvreq.key, kvreq.val⟩
    (httpStartRequest method url).map httpEndHeaders

namespace KvRequest

/-- A request has the strings that its type needs. -/
def Complete (req : KvRequest) : Prop :=
  match req.type with
  | .index => req.key = none
  | .getReq | .delReq => req.key ≠ none
  | .putReq | .register => req.key ≠ none ∧ req.val ≠ none
  | .commit | .abort => True
  | _ => False

/-- A request about a key has it. -/
theorem Complete.key_ne_none {req : KvRequest} (h : req.Complete)
    (htype : req.type = .getReq ∨ req.type = .putReq ∨ req.type = .delReq) : req.key ≠ none := by
  obtain ⟨type, key, val⟩ := req
  rcases htype with rfl | rfl | rfl
  · exact h
  · exact h.1
  · exact h

/-- A string that needs no escaping in a URL. -/
def Unescaped (s : CString) : Prop := Ascii.space ∉ s.bytes ∧ Ascii.lf ∉ s.bytes ∧ Ascii.ampersand ∉ s.bytes

/-- Its strings need no escaping. -/
def Sendable (req : KvRequest) : Prop := (∀ key ∈ req.key, Unescaped key) ∧ ∀ val ∈ req.val, Unescaped val

end KvRequest

/-- **What `kvrequest_recieve` comes to.** -/
theorem kvrequestRecieve_cases (pending : List UInt8) :
    kvrequestRecieve pending = .reject ∨ ∃ req, kvrequestRecieve pending = .ok req ∧ req.Complete ∧ req.Sendable := by
  rcases httpRequestParse_cases pending with hreject | ⟨req, hreq, hinline⟩
  · left
    rw [kvrequestRecieve, hreject]
    rfl
  have hwithin := decoded_within req.path.bytes
  have hparams := urlDecode_eq req.path
  generalize decoded req.path.bytes = params at hwithin hparams
  obtain ⟨path, key, val⟩ := params
  have hsend : ∀ s, key = some s ∨ val = some s → KvRequest.Unescaped s := fun s hs =>
    ⟨fun hmem => hinline.space ((hwithin s hs).2 hmem), fun hmem => hinline.lf ((hwithin s hs).2 hmem), (hwithin s hs).1⟩
  have hsendable : ∀ type, KvRequest.Sendable ⟨type, key, val⟩ := fun _ =>
    ⟨fun s hs => hsend s (Or.inl hs), fun s hs => hsend s (Or.inr hs)⟩
  have hdecoded : ∀ type, KvRequest.Complete ⟨type, key, val⟩ → (pure ⟨type, key, val⟩ : Parse KvRequest) = .reject ∨
      ∃ req, (pure ⟨type, key, val⟩ : Parse KvRequest) = .ok req ∧ req.Complete ∧ req.Sendable := by
    intro type hc
    exact Or.inr ⟨_, rfl, hc, hsendable type⟩
  have htested : ∀ (missing : Prop) [Decidable missing] (type : MsgType), (¬ missing → KvRequest.Complete ⟨type, key, val⟩) →
      (if missing then .reject else pure ⟨type, key, val⟩ : Parse KvRequest) = .reject ∨
        ∃ req, (if missing then .reject else pure ⟨type, key, val⟩ : Parse KvRequest) = .ok req ∧ req.Complete ∧ req.Sendable := by
    intro missing _ type hc
    by_cases h : missing
    · exact Or.inl (if_pos h)
    · rw [if_neg h]
      exact hdecoded type (hc h)
  rw [kvrequestRecieve, hreq]
  simp only [Parse.ok_bind, hparams]
  by_cases hget : req.method = .ofString "GET"
  · rw [if_pos hget]
    by_cases hkey : key = none
    · rw [if_pos hkey]
      exact hdecoded .index hkey
    · rw [if_neg hkey]
      exact hdecoded .getReq hkey
  rw [if_neg hget]
  by_cases hput : req.method = .ofString "PUT"
  · rw [if_pos hput]
    exact htested _ .putReq not_or.mp
  rw [if_neg hput]
  by_cases hdel : req.method = .ofString "DELETE"
  · rw [if_pos hdel]
    exact htested _ .delReq id
  rw [if_neg hdel]
  by_cases hpost : req.method = .ofString "POST"
  · rw [if_pos hpost]
    by_cases hpath : path = none
    · exact Or.inl (if_pos hpath)
    rw [if_neg hpath]
    by_cases hregister : path = some (.ofString "register")
    · rw [if_pos hregister]
      exact htested _ .register not_or.mp
    rw [if_neg hregister]
    by_cases hcommit : path = some msgCommit
    · rw [if_pos hcommit]
      exact hdecoded .commit trivial
    rw [if_neg hcommit]
    by_cases habort : path = some (.ofString "abort")
    · rw [if_pos habort]
      exact hdecoded .abort trivial
    · exact Or.inl (if_neg habort)
  · exact Or.inl (if_neg hpost)

/-! ### Sending a request on -/

/-- The URL of a request can stand in a request line. -/
theorem inline_urlEncode {params : UrlParams} (hpath : ∀ path ∈ params.path, Ascii.space ∉ path.bytes ∧ Ascii.lf ∉ path.bytes)
    (hkey : ∀ key ∈ params.key, KvRequest.Unescaped key) (hval : ∀ val ∈ params.val, KvRequest.Unescaped val) :
    Inline (urlEncode params) := by
  have hchars : ∀ c, c ∉ lit "/?key=val&" → (∀ path ∈ params.path, c ∉ path.bytes) → (∀ key ∈ params.key, c ∉ key.bytes) →
      (∀ val ∈ params.val, c ∉ val.bytes) → c ∉ (urlEncode params).bytes := by
    intro c hlit hp hk hv hmem
    rw [urlEncode_bytes] at hmem
    rcases mem_urlBuf (List.dropLast_subset _ hmem) with h | ⟨s, hs, h⟩ | ⟨s, hs, h⟩ | ⟨s, hs, h⟩
    · exact hlit h
    · exact hp s hs h
    · exact hk s hs h
    · exact hv s hs h
  refine ⟨?_, hchars _ (by decide) (fun p hp => (hpath p hp).1) (fun k hk => (hkey k hk).1) fun v hv => (hval v hv).1,
    hchars _ (by decide) (fun p hp => (hpath p hp).2) (fun k hk => (hkey k hk).2.1) fun v hv => (hval v hv).2.1⟩
  rw [urlEncode_bytes, urlBuf_eq, pathText, List.cons_append, List.dropLast_cons_of_ne_nil (by simp)]
  exact ⟨_, rfl⟩

/-- The URL of a request. -/
def KvRequest.url (req : KvRequest) : CString := urlEncode ⟨pathForRequestType req.type, req.key, req.val⟩

/-- What is sent of a request before its second blank. -/
def KvRequest.line (method : CString) (req : KvRequest) : List UInt8 := method.bytes ++ Ascii.space :: req.url.bytes

/-- The request line of a request that is complete and needs no escaping. Whatever follows its second blank, the request
is received as it was sent. -/
theorem kvrequestSend_line {req : KvRequest} (hc : req.Complete) (hs : req.Sendable) (htype : req.type ≠ .index) :
    ∃ method, httpMethodForRequestType req.type = some method ∧ method ∈ validMethods ∧ Inline req.url ∧
      kvrequestSend req = some (req.line method ++ Ascii.space :: lit "HTTP/1.1\r\n\r\n") ∧
      ∀ rest, (req.line method ++ Ascii.space :: rest).length ≤ libhttpMessageMaxSize →
        kvrequestRecieve (req.line method ++ Ascii.space :: rest) = .ok req := by
  obtain ⟨type, key, val⟩ := req
  obtain ⟨method, hmethod, hvalid⟩ : ∃ method, httpMethodForRequestType type = some method ∧ method ∈ validMethods := by
    cases type <;> first
      | exact ⟨_, rfl, by decide⟩
      | exact absurd rfl htype
      | exact hc.elim
  have hpath : ∀ path ∈ pathForRequestType type, path ≠ .empty ∧ Ascii.question ∉ path.bytes ∧ Ascii.space ∉ path.bytes ∧
      Ascii.lf ∉ path.bytes := by
    cases type <;> rintro path ⟨⟩ <;> decide
  have hplain : UrlParams.Plain ⟨pathForRequestType type, key, val⟩ :=
    ⟨fun p hp => ⟨(hpath p hp).1, (hpath p hp).2.1⟩, fun k hk => (hs.1 k hk).2.2, fun v hv => (hs.2 v hv).2.2⟩
  have hinline : Inline (urlEncode ⟨pathForRequestType type, key, val⟩) :=
    inline_urlEncode (fun p hp => (hpath p hp).2.2) hs.1 hs.2
  have hdecode := urlDecode_urlEncode hplain
  simp only [KvRequest.line, KvRequest.url]
  generalize hurl : urlEncode ⟨pathForRequestType type, key, val⟩ = url at hinline hdecode ⊢
  refine ⟨method, hmethod, hvalid, hinline, ?_, fun rest hlen => ?_⟩
  · have hend : lit " HTTP/1.1\r\n" ++ lit "\r\n" = Ascii.space :: lit "HTTP/1.1\r\n\r\n" := by decide
    simp only [kvrequestSend, hmethod, hurl, httpStartRequest, if_pos hvalid, Option.map_some, httpEndHeaders]
    rw [List.append_assoc, hend, lit_space, List.append_assoc method.bytes, List.singleton_append]
  · rw [kvrequestRecieve, httpRequestParse_sent hvalid hinline hlen]
    simp only [Parse.ok_bind, hdecode]
    cases type with
    | getReq =>
      obtain rfl := Option.some.inj hmethod
      rw [if_pos rfl, if_neg hc]
      rfl
    | putReq =>
      obtain rfl := Option.some.inj hmethod
      rw [if_neg (by decide), if_pos rfl, if_neg (not_or.mpr hc)]
      rfl
    | delReq =>
      obtain rfl := Option.some.inj hmethod
      rw [if_neg (by decide), if_neg (by decide), if_pos rfl, if_neg hc]
      rfl
    | register =>
      obtain rfl := Option.some.inj hmethod
      rw [if_neg (by decide), if_neg (by decide), if_neg (by decide), if_pos rfl, if_neg (by decide), if_pos (by decide),
        if_neg (not_or.mpr hc)]
      rfl
    | commit =>
      obtain rfl := Option.some.inj hmethod
      rw [if_neg (by decide), if_neg (by decide), if_neg (by decide), if_pos rfl, if_neg (by decide), if_neg (by decide),
        if_pos (by decide)]
      rfl
    | abort =>
      obtain rfl := Option.some.inj hmethod
      rw [if_neg (by decide), if_neg (by decide), if_neg (by decide), if_pos rfl, if_neg (by decide), if_neg (by decide),
        if_neg (by decide), if_pos (by decide)]
      rfl
    | _ => cases hmethod

/-- A request that is complete and needs no escaping is received as it was sent. -/
theorem kvrequestRecieve_sent {req : KvRequest} (hc : req.Complete) (hs : req.Sendable) (htype : req.type ≠ .index) :
    ∃ msg, kvrequestSend req = some msg ∧ (msg.length ≤ libhttpMessageMaxSize → kvrequestRecieve msg = .ok req) := by
  obtain ⟨method, -, -, -, hsend, hreceived⟩ := kvrequestSend_line hc hs htype
  exact ⟨_, hsend, hreceived _⟩

/-- **Sending a request on loses nothing.** -/
theorem forward_lossless (bytes : List UInt8) (req : KvRequest) (h : kvrequestRecieve bytes = .ok req)
    (htype : req.type ∈ [MsgType.getReq, .putReq, .delReq, .register, .commit, .abort]) :
    ∃ msg, kvrequestSend req = some msg ∧ (msg.length ≤ libhttpMessageMaxSize → kvrequestRecieve msg = .ok req) := by
  rcases kvrequestRecieve_cases bytes with hreject | ⟨req', hreq, hc, hs⟩
  · rw [hreject] at h
    cases h
  · obtain rfl : req = req' := by
      rw [hreq] at h
      exact (Parse.ok.inj h).symm
    exact kvrequestRecieve_sent hc hs (by rintro hindex; rw [hindex] at htype; simp at htype)

/-- A key that holds what would have to be escaped, and an empty value: the message fits. -/
theorem forward_lossless_put :
    ∃ msg, kvrequestSend ⟨.putReq, some (.ofString "a=b?c/%"), some .empty⟩ = some msg ∧
      msg.length ≤ libhttpMessageMaxSize ∧ kvrequestRecieve msg = .ok ⟨.putReq, some (.ofString "a=b?c/%"), some .empty⟩ := by
  obtain ⟨msg, hsend, hreceived⟩ := forward_lossless (lit "PUT /x?x=y&val=&key=a=b?c/% ")
    ⟨.putReq, some (.ofString "a=b?c/%"), some .empty⟩ (by decide +kernel) (by decide)
  have hfits : ∀ msg, kvrequestSend ⟨.putReq, some (.ofString "a=b?c/%"), some .empty⟩ = some msg →
      msg.length ≤ libhttpMessageMaxSize := by
    rintro _ ⟨⟩
    decide +kernel
  exact ⟨msg, hsend, hfits msg hsend, hreceived (hfits msg hsend)⟩

/-! ## Responses -/

/-- `kvresponse_recieve`. -/
def kvresponseRecieve (pending : List UInt8) : Parse KvResponse := do
  let res ← httpResponseParse pending
  let type := kvresponseGetStatusCode res.status.toInt
  if type = .empty then .reject
  else return ⟨type, some res.body⟩

/-- `kvresponse_send`. -/
def kvresponseSend (kvres : KvResponse) : Option (List UInt8) :=
  let code := httpCodeForResponseType kvres.type
  if code < 0 then none
  else
    match httpStartResponse code with
    | none => none
    | some msg =>
      let lenbuf := match kvres.body with
        | some body => decimal body.strlen
        | none => .ofString "0"
      let msg := httpAddHeader msg (.ofString "Content-Length") lenbuf
      some (httpAddString (httpEndHeaders msg) kvres.body)

/-- What is sent of a response. -/
theorem kvresponseSend_eq {res : KvResponse} {status : CString} (hcode : ¬ httpCodeForResponseType res.type < 0)
    (hstatus : httpGetResponseMessage (httpCodeForResponseType res.type) = some status) :
    kvresponseSend res = some (lit "HTTP/1.1" ++ Ascii.space :: ((decimal (httpCodeForResponseType res.type).toNat).bytes ++
      Ascii.space :: (status.bytes ++ Ascii.cr :: Ascii.lf :: (contentLengthLine (res.body.getD .empty).strlen ++
        Ascii.cr :: Ascii.lf :: Ascii.cr :: Ascii.lf :: (res.body.getD .empty).bytes)))) := by
  have hversion : lit "HTTP/1.1 " = lit "HTTP/1.1" ++ [Ascii.space] := by decide
  have hname : (CString.ofString "Content-Length").bytes = lit "Content-Length" := rfl
  have hlenbuf : (match res.body with
      | some body => decimal body.strlen
      | none => .ofString "0") = decimal (res.body.getD .empty).strlen := by
    cases res.body with
    | none => decide
    | some body => rfl
  have hbody : ∀ msg, httpAddString msg res.body = msg ++ (res.body.getD .empty).bytes := by
    intro msg
    cases res.body with
    | none => exact (List.append_nil msg).symm
    | some body => rfl
  simp only [kvresponseSend, if_neg hcode, httpStartResponse, hstatus, Option.map_some, hlenbuf, hbody, httpAddHeader,
    httpEndHeaders, hname]
  rw [hversion, lit_space, lit_crlf, contentLengthLine]
  simp only [List.append_assoc, List.cons_append, List.nil_append]

/-- The types of the responses that can be sent. -/
theorem status_of_sendable {type : MsgType} (htype : type ∈ [MsgType.getResp, .success, .error, .vote, .ack]) :
    ∃ status, ¬ httpCodeForResponseType type < 0 ∧ httpGetResponseMessage (httpCodeForResponseType type) = some status ∧
      kvresponseGetStatusCode (httpCodeForResponseType type) = type ∧ type ≠ .empty := by
  cases type <;> first
    | exact ⟨_, by decide, rfl, by decide, by decide⟩
    | exact absurd htype (by decide)

/-- What was sent is received. -/
theorem kvresponseRecieve_sent {res : KvResponse} {status : CString} {msg : List UInt8}
    (hstatus : httpGetResponseMessage (httpCodeForResponseType res.type) = some status)
    (hback : kvresponseGetStatusCode (httpCodeForResponseType res.type) = res.type) (hknown : res.type ≠ .empty)
    (hcode : ¬ httpCodeForResponseType res.type < 0) (hsend : kvresponseSend res = some msg)
    (hlen : msg.length ≤ libhttpMessageMaxSize) :
    kvresponseRecieve msg = .ok ⟨res.type, some (res.body.getD .empty)⟩ := by
  rw [kvresponseSend_eq hcode hstatus] at hsend
  obtain rfl := Option.some.inj hsend
  rw [kvresponseRecieve, httpResponseParse_sent hstatus rfl hlen]
  simp only [Parse.ok_bind, (httpGetResponseMessage_known hstatus).2.1, hback, if_neg hknown]
  rfl

/-- **A response is received as it was sent**, a `NULL` body as the empty string. -/
theorem response_lossless (res : KvResponse) (htype : res.type ∈ [MsgType.getResp, .success, .error, .vote, .ack]) :
    ∃ msg, kvresponseSend res = some msg ∧
      (msg.length ≤ libhttpMessageMaxSize → kvresponseRecieve msg = .ok ⟨res.type, some (res.body.getD .empty)⟩) := by
  obtain ⟨status, hcode, hstatus, hback, hknown⟩ := status_of_sendable htype
  have hsend := kvresponseSend_eq hcode hstatus
  exact ⟨_, hsend, kvresponseRecieve_sent hstatus hback hknown hcode hsend⟩

/-- A body that looks like a head: the message fits. -/
theorem response_lossless_head :
    ∃ msg, kvresponseSend ⟨.getResp, some (.ofString "\r\n\r\nContent-Length: 7\r\n")⟩ = some msg ∧
      msg.length ≤ libhttpMessageMaxSize ∧
      kvresponseRecieve msg = .ok ⟨.getResp, some (.ofString "\r\n\r\nContent-Length: 7\r\n")⟩ := by
  obtain ⟨msg, hsend, hreceived⟩ := response_lossless ⟨.getResp, some (.ofString "\r\n\r\nContent-Length: 7\r\n")⟩ (by decide)
  have hfits : ∀ msg, kvresponseSend ⟨.getResp, some (.ofString "\r\n\r\nContent-Length: 7\r\n")⟩ = some msg →
      msg.length ≤ libhttpMessageMaxSize := by
    rintro _ ⟨⟩
    decide +kernel
  exact ⟨msg, hsend, hfits msg hsend, hreceived (hfits msg hsend)⟩

/-- The model of an exchange between servers, `KvResponse.received`, is what goes over the wire. -/
theorem received_eq_wire {res : KvResponse} (hlen : ∀ msg ∈ kvresponseSend res, msg.length ≤ libhttpMessageMaxSize) :
    res.received = (kvresponseSend res).bind fun msg =>
      match kvresponseRecieve msg with
      | .ok res => some res
      | _ => none := by
  by_cases htype : res.type ∈ [MsgType.getResp, .success, .error, .vote, .ack]
  · obtain ⟨status, hcode, hstatus, hback, hknown⟩ := status_of_sendable htype
    have hsend := kvresponseSend_eq hcode hstatus
    rw [KvResponse.received_eq (not_lt.mp hcode), hsend, Option.bind_some,
      kvresponseRecieve_sent hstatus hback hknown hcode hsend (hlen _ hsend)]
  · have hcode : httpCodeForResponseType res.type = -1 := by
      generalize res.type = type at htype
      cases type <;> first
        | rfl
        | exact absurd (by decide) htype
    have hsend : kvresponseSend res = none := by
      simp only [kvresponseSend, hcode]
      rfl
    simp only [KvResponse.received, hcode, hsend]
    rfl

end Cs162Hw.Kv
