import Cs162Hw.Kv.Server
import Cs162Hw.Kv.Wire

/-!
# Arrays that are printed into

`url_encode` prints a URL into an array of 128 bytes, `http_start_request` and `http_end_headers` a message into
one of `LIBHTTP_MESSAGE_MAX_SIZE + 1`, and `tpcleader_register` the string `PORT:HOST` into one of as many bytes as
the two strings have characters. Nothing is checked: `sprintf` writes the text and a terminator, however long it is.
`Scratch` is such an array, with the number of its bytes that have been written.

**`arrays_fit_iff`** says for which requests there is room. The limits for keys and values, 1024 each, are far
above what `url_encode` has room for, and `PORT:HOST` never has room: neither the colon nor the terminator is counted.
-/

namespace Cs162Hw.Kv

open Library

/-- An array that strings are printed into, one behind the other. -/
structure Scratch where
  /-- The text in it. -/
  text : List UInt8
  /-- How many of its bytes have been written. -/
  written : ℕ

namespace Scratch

/-- Nothing has been printed. -/
def empty : Scratch := ⟨[], 0⟩

/-- `end += sprintf(buf + end, …)`, `s` being what is printed: the text goes behind what is there, and a
terminator behind it. -/
def print (a : Scratch) (s : List UInt8) : Scratch := ⟨a.text ++ s, max a.written (a.text.length + s.length + 1)⟩

/-- A text, and its terminator. -/
def Holds (a : Scratch) (s : List UInt8) : Prop := a.text = s ∧ a.written = s.length + 1

theorem holds_print (s : List UInt8) : (empty.print s).Holds s := by simp [Holds, print, empty]

theorem Holds.print {a : Scratch} {s : List UInt8} (h : a.Holds s) (t : List UInt8) : (a.print t).Holds (s ++ t) := by
  obtain ⟨htext, hwritten⟩ := h
  refine ⟨by rw [Scratch.print, htext], ?_⟩
  simp only [Scratch.print, htext, hwritten, List.length_append]
  omega

end Scratch

/-- `buf` of `url_encode`, everything having been printed. -/
def urlEncodeBuf (params : UrlParams) : Scratch :=
  let buf := match params.path with
    | some path => Scratch.empty.print (Ascii.slash :: path.bytes ++ [Ascii.question])
    | none => Scratch.empty.print (lit "/?")
  let buf := match params.key with
    | some key => buf.print (lit "key=" ++ key.bytes ++ [Ascii.ampersand])
    | none => buf
  match params.val with
  | some val => buf.print (lit "val=" ++ val.bytes ++ [Ascii.ampersand])
  | none => buf

/-- `msg->body` after `http_start_request` and `http_end_headers`. -/
def requestBody (method url : CString) : Scratch :=
  (Scratch.empty.print (method.bytes ++ lit " " ++ url.bytes ++ lit " HTTP/1.1\r\n")).print (lit "\r\n")

/-- `address` of `tpcleader_register`. -/
def addressBuf (host val : CString) : Scratch := Scratch.empty.print (colon val host).bytes

/-- It holds what `url_encode` returns, up to the last character. -/
theorem urlEncodeBuf_holds (params : UrlParams) : (urlEncodeBuf params).Holds (urlBuf params) := by
  have hoptional : ∀ {a : Scratch} {s : List UInt8} (o : Option CString) (f : CString → List UInt8), a.Holds s →
      (match o with
        | some t => a.print (f t)
        | none => a).Holds (s ++ match o with
        | some t => f t
        | none => []) := by
    intro a s o f h
    cases o with
    | none => rwa [List.append_nil]
    | some t => exact h.print _
  refine hoptional _ _ (hoptional _ _ ?_)
  cases params.path <;> exact Scratch.holds_print _

/-- It holds what is sent. -/
theorem requestBody_holds {method url : CString} {msg : List UInt8}
    (h : (httpStartRequest method url).map httpEndHeaders = some msg) :
    (requestBody method url).Holds msg := by
  unfold httpStartRequest at h
  split_ifs at h
  · rw [← Option.some.inj h]
    exact (Scratch.holds_print _).print _
  · cases h

/-! ## Which requests there is room for -/

/-- `sizeof(buf)` in `url_encode`. -/
def urlBufSize : ℕ := 128

/-- The leader sends the request on to the followers. -/
def KvRequest.Forwarded (req : KvRequest) : Prop := req.type = .getReq ∨ req.type = .putReq ∨ req.type = .delReq

instance (req : KvRequest) : Decidable req.Forwarded := inferInstanceAs (Decidable (_ ∨ _ ∨ _))

/-- What is printed for the request fits the arrays it is printed into: by `kvrequest_send`, if the leader sends it on, and
by `tpcleader_register`. -/
def ArraysFit (req : KvRequest) : Prop :=
  (req.Forwarded → ∀ method, httpMethodForRequestType req.type = some method →
    let params : UrlParams := ⟨pathForRequestType req.type, req.key, req.val⟩
    (urlEncodeBuf params).written ≤ urlBufSize ∧
      (requestBody method (urlEncode params)).written ≤ libhttpMessageMaxSize + 1) ∧
  (req.type = .register → ∀ host val, req.key = some host → req.val = some val →
    (addressBuf host val).written ≤ host.strlen + val.strlen)

/-- What a parameter takes in a URL: its name of three letters, a `=`, its value and a `&`. -/
def paramLength (param : Option CString) : ℕ := param.elim 0 fun s => s.strlen + 5

/-- The request is no registration, and its strings leave room for `"/?"` and a terminator. -/
def KvRequest.Short (req : KvRequest) : Prop :=
  req.type ≠ .register ∧ paramLength req.key + paramLength req.val + 3 ≤ urlBufSize

instance (req : KvRequest) : Decidable req.Short := inferInstanceAs (Decidable (_ ∧ _))

/-- The length of the URL of a request that is sent on. -/
theorem urlBuf_length {req : KvRequest} (h : req.Forwarded) :
    (urlBuf ⟨pathForRequestType req.type, req.key, req.val⟩).length = paramLength req.key + paramLength req.val + 2 := by
  have hpath : pathForRequestType req.type = none := by rcases h with h | h | h <;> rw [h] <;> rfl
  have hlit : (lit "/?").length = 2 ∧ (lit "key=").length = 4 ∧ (lit "val=").length = 4 := by decide
  obtain ⟨type, key, val⟩ := req
  simp only at hpath
  cases key <;> cases val <;>
    simp only [hpath, urlBuf, paramLength, CString.strlen, Option.elim_none, Option.elim_some, List.length_append, List.length_cons,
      List.length_nil, hlit] <;> omega

/-- A method has no more than six letters. -/
theorem method_length {type : MsgType} {method : CString} (h : httpMethodForRequestType type = some method) :
    method.bytes.length ≤ 6 := by
  cases type <;> cases h <;> decide

/-- A request line with a short URL is shorter than the array it is printed into. -/
theorem requestBody_fits {req : KvRequest} {method : CString} (hforward : req.Forwarded)
    (hmethod : httpMethodForRequestType req.type = some method) (hvalid : method ∈ validMethods) (hshort : req.Short) :
    (requestBody method (urlEncode ⟨pathForRequestType req.type, req.key, req.val⟩)).written ≤ libhttpMessageMaxSize + 1 := by
  have hbody := @requestBody_holds method (urlEncode ⟨pathForRequestType req.type, req.key, req.val⟩) _
    (by rw [httpStartRequest, if_pos hvalid]; rfl)
  have hurl := congrArg List.length (urlEncode_bytes ⟨pathForRequestType req.type, req.key, req.val⟩)
  rw [List.length_dropLast, urlBuf_length hforward] at hurl
  have hlen := method_length hmethod
  have hlit : (lit " ").length = 1 ∧ (lit " HTTP/1.1\r\n").length = 11 ∧ (lit "\r\n").length = 2 := by decide
  have hroom := hshort.2
  rw [hbody.2]
  simp only [httpEndHeaders, List.length_append, hlit, hurl]
  rw [urlBufSize] at hroom
  rw [libhttpMessageMaxSize]
  omega

/-- For the terminator and the colon between host and port there is never room. -/
theorem not_arraysFit_of_register {req : KvRequest} (hc : req.Complete) (hregister : req.type = .register) : ¬ ArraysFit req := by
  intro h
  rw [KvRequest.Complete, hregister] at hc
  obtain ⟨host, hhost⟩ := Option.ne_none_iff_exists'.mp hc.1
  obtain ⟨val, hval⟩ := Option.ne_none_iff_exists'.mp hc.2
  have hfits := h.2 hregister host val hhost hval
  rw [addressBuf, (Scratch.holds_print _).2] at hfits
  simp only [colon, CString.strlen, List.length_append, List.length_cons] at hfits
  omega

/-- **There is room for what is printed** for a request that is decoded, and sent on or registered, exactly if it is no
registration and its strings are short. -/
theorem arrays_fit_iff {pending : List UInt8} {req : KvRequest} (hreq : kvrequestRecieve pending = .ok req)
    (htype : req.Forwarded ∨ req.type = .register) : ArraysFit req ↔ req.Short := by
  rcases htype with hforward | hregister
  · have hne : req.type ≠ .register := by rcases hforward with h | h | h <;> rw [h] <;> decide
    obtain ⟨method, hmethod, hvalid⟩ : ∃ method, httpMethodForRequestType req.type = some method ∧ method ∈ validMethods := by
      rcases hforward with h | h | h <;> rw [h] <;> exact ⟨_, rfl, by decide⟩
    have hbuf := urlEncodeBuf_holds ⟨pathForRequestType req.type, req.key, req.val⟩
    rw [Scratch.Holds, urlBuf_length hforward] at hbuf
    constructor
    · intro h
      have hfits := (h.1 hforward method hmethod).1
      rw [hbuf.2] at hfits
      exact ⟨hne, hfits⟩
    · intro hshort
      constructor
      · intro _ method' hmethod'
        refine ⟨?_, requestBody_fits hforward hmethod' ?_ hshort⟩
        · rw [hbuf.2]
          exact hshort.2
        · rwa [← Option.some.inj (hmethod.symm.trans hmethod')]
      · intro h
        exact absurd h hne
  · rcases kvrequestRecieve_cases pending with hreject | ⟨req', hreq', hc, -⟩
    · cases hreject.symm.trans hreq
    · obtain rfl := Parse.ok.inj (hreq.symm.trans hreq')
      exact iff_of_false (not_arraysFit_of_register hc hregister) fun hshort => hshort.1 hregister

/-- A short `PUT`. -/
theorem arrays_fit_put : ArraysFit ⟨.putReq, some (.ofString "a"), some (.ofString "1")⟩ ↔
    KvRequest.Short ⟨.putReq, some (.ofString "a"), some (.ofString "1")⟩ :=
  @arrays_fit_iff (lit "PUT /?key=a&val=1 ") _ (by decide +kernel) (by decide)

/-- A key of 115 letters, which a follower admits. -/
def longKey : CString := .read (List.replicate 115 97)

/-- A `PUT` with this key, and the registration of a follower. -/
theorem arrays_overflow :
    (kvrequestRecieve (lit "PUT /?key=" ++ longKey.bytes ++ lit "&val=1 ") = .ok ⟨.putReq, some longKey, some (.ofString "1")⟩ ∧
      kvserverPutCheck longKey (.ofString "1") = 0 ∧
      (urlEncodeBuf ⟨none, some longKey, some (.ofString "1")⟩).written = 129 ∧
      ¬ ArraysFit ⟨.putReq, some longKey, some (.ofString "1")⟩) ∧
    kvrequestRecieve (lit "POST /register?key=localhost&val=8001 ") =
        .ok ⟨.register, some (.ofString "localhost"), some (.ofString "8001")⟩ ∧
      (addressBuf (.ofString "localhost") (.ofString "8001")).written = 15 ∧
      ¬ ArraysFit ⟨.register, some (.ofString "localhost"), some (.ofString "8001")⟩ := by
  have hput : kvrequestRecieve (lit "PUT /?key=" ++ longKey.bytes ++ lit "&val=1 ") =
      .ok ⟨.putReq, some longKey, some (.ofString "1")⟩ := by decide +kernel
  have hregister : kvrequestRecieve (lit "POST /register?key=localhost&val=8001 ") =
      .ok ⟨.register, some (.ofString "localhost"), some (.ofString "8001")⟩ := by decide +kernel
  have hwritten : (urlEncodeBuf ⟨none, some longKey, some (.ofString "1")⟩).written = 129 := by decide +kernel
  have haddress : (addressBuf (.ofString "localhost") (.ofString "8001")).written = 15 := by decide +kernel
  refine ⟨⟨hput, by decide +kernel, hwritten, fun h => ?_⟩, hregister, haddress, fun h => ?_⟩
  · have hfits := (h.1 (by decide) (.ofString "PUT") rfl).1
    have : (129 : ℕ) ≤ 128 := hwritten ▸ hfits
    omega
  · have hfits := h.2 rfl _ _ rfl rfl
    rw [haddress] at hfits
    exact absurd hfits (by decide)

end Cs162Hw.Kv
