import Cs162Hw.Kv.ResponseHead

/-!
# Line ends

`http_response_parse` of `hw4/src/libhttp.c` looks for a CR LF at the end of each line of the head, and for a LF alone if
there is none. But whichever it has found, it goes on two characters behind the line end, and four behind the blank
line: where lines end in LF, it drops the first character of each header, and the first two of the body.

* `Reached.lines`: where the loop gets to, in a message of either kind, is the end of one of its lines.
* `httpResponseParse_body`: what either form can give is the body from the third byte on, or from the first.
* `lineEndings_matter`: so no message gives the same in both.
-/

namespace Cs162Hw.Kv

open Library

/-! ## Messages of two kinds -/

/-- How the lines of the head end. -/
inductive LineEnding where
  /-- In LF alone. -/
  | lf
  /-- In CR LF. -/
  | crlf
  deriving DecidableEq

/-- What they end in. -/
def LineEnding.bytes : LineEnding → List UInt8
  | .lf => [Ascii.lf]
  | .crlf => [Ascii.cr, Ascii.lf]

/-- A well-formed header. -/
structure Header where
  /-- Its name. -/
  name : CString
  /-- What is behind the colon and the blank. -/
  value : CString
  /-- There is a name. -/
  named : name.bytes ≠ []
  /-- It ends at the colon. -/
  colon : Ascii.colon ∉ name.bytes
  /-- The name is on one line. -/
  nameLine : Ascii.cr ∉ name.bytes ∧ Ascii.lf ∉ name.bytes
  /-- So is the value. -/
  valueLine : Ascii.cr ∉ value.bytes ∧ Ascii.lf ∉ value.bytes

/-- A response. -/
structure ResponseMessage where
  /-- The version. -/
  version : CString
  /-- It is one of two. -/
  versionKnown : version.bytes = lit "HTTP/1.1" ∨ version.bytes = lit "HTTP/1.0"
  /-- The status. -/
  status : ℤ
  /-- Its text. -/
  text : CString
  /-- The status is known. -/
  statusKnown : httpGetResponseMessage status = some text
  /-- The headers. -/
  headers : List Header
  /-- The body. -/
  body : CString
  /-- One header gives its length. -/
  announced : (headers.filter fun h => h.name.bytes = lit "Content-Length").map Header.value = [decimal body.strlen]

/-- A header without its line end. -/
def Header.line (h : Header) : List UInt8 := h.name.bytes ++ lit ": " ++ h.value.bytes

/-- Headers with their line ends. -/
def headerLines (eol : LineEnding) (headers : List Header) : List UInt8 := headers.flatMap fun h => h.line ++ eol.bytes

/-- A response whose lines end in `eol`. -/
def ResponseMessage.bytes (m : ResponseMessage) (eol : LineEnding) : List UInt8 :=
  m.version.bytes ++ Ascii.space :: ((decimal m.status.toNat).bytes ++ Ascii.space ::
    (m.text.bytes ++ (eol.bytes ++ (headerLines eol m.headers ++ (eol.bytes ++ m.body.bytes)))))

/-- Both forms of a response give the same status and body. -/
def ResponseMessage.SameResponse (m : ResponseMessage) : Prop :=
  ∃ res, httpResponseParse (m.bytes .lf) = .ok res ∧ httpResponseParse (m.bytes .crlf) = .ok res

/-! ## Lines -/

section

variable {b w s body : List UInt8} {p e : ℕ} {eol : LineEnding} {headers : List Header} {m : ResponseMessage}

/-- There is no CR LF from a position on. -/
def NoCrlf (b : List UInt8) (p : ℕ) : Prop := find [Ascii.cr, Ascii.lf] (b.drop p) = none

theorem NoCrlf.mono {q : ℕ} (h : NoCrlf b p) (hpq : p ≤ q) : NoCrlf b q := by
  have hdrop : ∀ (k : ℕ) (s : List UInt8), find [Ascii.cr, Ascii.lf] s = none → find [Ascii.cr, Ascii.lf] (s.drop k) = none := by
    intro k
    induction k with
    | zero => exact fun s hs => hs
    | succ k ih =>
      intro s hs
      cases s with
      | nil => exact hs
      | cons c s =>
        rw [find] at hs
        split_ifs at hs
        exact ih s (Option.map_eq_none_iff.mp hs)
  have := hdrop (q - p) _ h
  rwa [List.drop_drop, Nat.add_sub_cancel' hpq] at this

/-- A line of either kind ends where it ends, if no CR LF comes behind a LF. -/
theorem lineEnd_line (h : Rest b p (w ++ (eol.bytes ++ s))) (h0 : 0 ∉ b) (hcr : Ascii.cr ∉ w) (hlf : Ascii.lf ∉ w)
    (hno : eol = .lf → NoCrlf b p) : lineEnd b p = .ok (some (p + w.length)) := by
  have hw0 : 0 ∉ w := fun hmem => h0 (List.drop_subset p b (h.drop ▸ List.mem_append_left _ hmem))
  cases eol with
  | crlf => exact lineEnd_eq h hcr hw0
  | lf =>
    have hnone : strstr b p (lit "\r\n") = .ok none := by
      have hnul : 0 ∉ b.drop p := fun hmem => h0 (List.drop_subset p b hmem)
      have hfind : find (lit "\r\n") (b.drop p) = none := hno rfl
      rw [strstr_of_le h.le, untilNul_eq_self hnul, hfind]
      rfl
    rw [lineEnd, hnone, lit_lf]
    exact @Rest.strstr_eq _ b s w p Ascii.lf _ _ [] (by simpa [LineEnding.bytes] using h) hlf
      fun hmem => (List.mem_append.mp hmem).elim hw0 (by decide)

theorem Header.line_clean (h : Header) : Ascii.cr ∉ h.line ∧ Ascii.lf ∉ h.line := by
  simp only [Header.line, List.mem_append, not_or]
  exact ⟨⟨⟨h.nameLine.1, by decide⟩, h.valueLine.1⟩, ⟨h.nameLine.2, by decide⟩, h.valueLine.2⟩

/-- A header begins with a character. -/
theorem Header.line_cons (h : Header) : ∃ c t, h.line = c :: t ∧ c ≠ Ascii.cr ∧ c ≠ Ascii.lf := by
  obtain ⟨c, t, hct⟩ := List.exists_cons_of_ne_nil h.named
  refine ⟨c, t ++ lit ": " ++ h.value.bytes, by rw [Header.line, hct]; rfl, ?_, ?_⟩
  · rintro rfl
    exact h.nameLine.1 (hct ▸ List.mem_cons_self)
  · rintro rfl
    exact h.nameLine.2 (hct ▸ List.mem_cons_self)

theorem headerLines_cons (h : Header) : headerLines eol (h :: headers) = h.line ++ (eol.bytes ++ headerLines eol headers) := by
  simp [headerLines]

/-- What the loop tests, where it is at a line end before these headers: whether there are none. -/
theorem ends_headers {r : HeadLoop} (h : Rest b r.readEnd (eol.bytes ++ (headerLines eol headers ++ (eol.bytes ++ body)))) :
    r.ends b = .ok true ↔ headers = [] := by
  rw [HeadLoop.ends_iff h.le, h.drop, lit_lf_lf, lit_crlf_crlf]
  cases headers with
  | nil =>
    refine iff_of_true ?_ rfl
    cases eol with
    | lf => exact Or.inl (List.prefix_append ..)
    | crlf => exact Or.inr (List.prefix_append ..)
  | cons header headers =>
    obtain ⟨c, t, hct, hcr, hlf⟩ := header.line_cons
    refine iff_of_false ?_ (List.cons_ne_nil header headers)
    rw [headerLines_cons, hct]
    cases eol with
    | lf => simp [LineEnding.bytes, hlf.symm, Ascii.cr, Ascii.lf]
    | crlf => simp [LineEnding.bytes, hcr.symm, Ascii.cr, Ascii.lf]

/-- Two characters behind a line end, it is on the next line. -/
theorem rest_next {header : Header}
    (h : Rest b p (eol.bytes ++ (headerLines eol (header :: headers) ++ (eol.bytes ++ body)))) :
    ∃ w, Rest b (p + 2) (w ++ (eol.bytes ++ (headerLines eol headers ++ (eol.bytes ++ body)))) ∧ Ascii.cr ∉ w ∧ Ascii.lf ∉ w := by
  obtain ⟨hcr, hlf⟩ := header.line_clean
  rw [headerLines_cons, List.append_assoc, List.append_assoc] at h
  cases eol with
  | lf =>
    obtain ⟨c, t, hct, -, -⟩ := header.line_cons
    rw [hct] at h hcr hlf
    exact ⟨t, h.next.next, fun hmem => hcr (List.mem_cons_of_mem _ hmem), fun hmem => hlf (List.mem_cons_of_mem _ hmem)⟩
  | crlf => exact ⟨header.line, h.next.next, hcr, hlf⟩

/-- A pass of the loop goes to the end of the line that is two characters behind. -/
theorem pass_readEnd {r t : HeadLoop} (h : r.pass b = .ok t) : lineEnd b (r.readEnd + 2) = .ok (some t.readEnd) := by
  rw [HeadLoop.pass] at h
  obtain ⟨_ | readLimit, hlimit, h⟩ := Parse.bind_eq_ok.mp h
  · cases h
  obtain ⟨_ | readEnd, -, h⟩ := Parse.bind_eq_ok.mp h
  · cases h
  dsimp only at h
  split_ifs at h
  obtain ⟨same, -, h⟩ := Parse.bind_eq_ok.mp h
  cases same with
  | false =>
    obtain rfl := Parse.ok.inj h
    exact hlimit
  | true =>
    obtain ⟨⟨number, numberEnd⟩, -, h⟩ := Parse.bind_eq_ok.mp h
    obtain ⟨numberEnd, -, h⟩ := Parse.bind_eq_ok.mp h
    split_ifs at h
    obtain rfl := Parse.ok.inj h
    exact hlimit

/-! ## The status line -/

/-- A status line that is accepted: its text begins at position 13. -/
theorem httpStatusLine_line {status : Int16} {readStart : ℕ} (h : httpStatusLine b = .ok (status, readStart, e)) :
    readStart = 13 ∧ lineEnd b 13 = .ok (some e) := by
  rw [httpStatusLine] at h
  obtain ⟨_ | readEnd, -, h⟩ := Parse.bind_eq_ok.mp h
  · cases h
  dsimp only at h
  split_ifs at h with height
  obtain rfl := not_not.mp height
  obtain ⟨x, -, h⟩ := Parse.bind_eq_ok.mp h
  obtain ⟨y, -, h⟩ := Parse.bind_eq_ok.mp h
  split_ifs at h
  obtain ⟨⟨number, numberEnd⟩, -, h⟩ := Parse.bind_eq_ok.mp h
  obtain ⟨c, -, h⟩ := Parse.bind_eq_ok.mp h
  split_ifs at h with htest
  obtain rfl : numberEnd = 12 := by
    simp only [Bool.or_eq_true, decide_eq_true_eq, not_or, not_not] at htest
    exact htest.1.2
  obtain ⟨_ | readEnd, hend, h⟩ := Parse.bind_eq_ok.mp h
  · cases h
  obtain ⟨-, rfl, rfl⟩ : _ ∧ 13 = readStart ∧ readEnd = e := by simpa using Parse.ok.inj h
  exact ⟨rfl, hend⟩

/-- Its text is the one of the status. -/
theorem httpStatus_line {status : Int16} (h : httpStatus b = .ok (status, e)) :
    lineEnd b 13 = .ok (some e) ∧
      ∃ message, httpGetResponseMessage status.toInt = some message ∧ strneq b 13 message.bytes (e - 13) = .ok true := by
  rw [httpStatus] at h
  obtain ⟨⟨status', readStart, readEnd⟩, hline, h⟩ := Parse.bind_eq_ok.mp h
  obtain ⟨rfl, hend⟩ := httpStatusLine_line hline
  cases hmessage : httpGetResponseMessage status'.toInt with
  | none =>
    simp only [hmessage] at h
    cases h
  | some message =>
    simp only [hmessage] at h
    obtain ⟨same, hsame, h⟩ := Parse.bind_eq_ok.mp h
    cases same with
    | false => cases h
    | true =>
      obtain ⟨rfl, rfl⟩ := Prod.mk.inj (Parse.ok.inj h)
      exact ⟨hend, message, hmessage, hsame⟩

/-- No text of a status holds a LF. -/
theorem httpGetResponseMessage_lf {statusCode : ℤ} {status : CString} (h : httpGetResponseMessage statusCode = some status) :
    Ascii.lf ∉ status.bytes := by
  unfold httpGetResponseMessage at h
  split at h <;> cases h
  all_goals decide

/-- Where the text of the status begins. -/
theorem ResponseMessage.rest_text (hb : b = m.bytes eol) :
    Rest b 13 (m.text.bytes ++ (eol.bytes ++ (headerLines eol m.headers ++ (eol.bytes ++ m.body.bytes)))) := by
  obtain ⟨⟨-, -, hdigits⟩, -⟩ := httpGetResponseMessage_known m.statusKnown
  have hversion : m.version.bytes.length = 8 := by
    rcases m.versionKnown with h | h <;> rw [h] <;> decide
  have htext := (Rest.of_eq hb).advance.next.advance.next
  rwa [hversion, hdigits] at htext

theorem LineEnding.nul (eol : LineEnding) : 0 ∉ eol.bytes := by
  cases eol <;> decide

/-- There is no terminator in a message. -/
theorem ResponseMessage.nul (m : ResponseMessage) (eol : LineEnding) : 0 ∉ m.bytes eol := by
  have hlines : 0 ∉ headerLines eol m.headers := by
    intro hmem
    obtain ⟨h, -, hmem⟩ := List.mem_flatMap.mp hmem
    rcases List.mem_append.mp hmem with hmem | hmem
    · rcases List.mem_append.mp hmem with hmem | hmem
      · exact (List.mem_append.mp hmem).elim h.name.nul (by decide)
      · exact h.value.nul hmem
    · exact eol.nul hmem
  have hspace : (0 : UInt8) ≠ Ascii.space := by decide
  simp only [ResponseMessage.bytes, List.mem_append, List.mem_cons, hspace, m.version.nul, (decimal _).nul, m.text.nul,
    eol.nul, hlines, m.body.nul, or_self, not_false_eq_true]

/-- The status line that is accepted ends where it does; and where lines end in LF, there is no CR LF in the message. -/
theorem httpStatus_end (hb : b = m.bytes eol) {status : Int16} (h : httpStatus b = .ok (status, e)) :
    Rest b e (eol.bytes ++ (headerLines eol m.headers ++ (eol.bytes ++ m.body.bytes))) ∧ (eol = .lf → NoCrlf b 13) := by
  obtain ⟨hline, message, hmessage, hsame⟩ := httpStatus_line h
  have htext := m.rest_text hb
  have h0 : 0 ∉ b := hb ▸ m.nul eol
  have hcr := (httpGetResponseMessage_known m.statusKnown).2.2.2
  have hlf := httpGetResponseMessage_lf m.statusKnown
  have hno : eol = .lf → NoCrlf b 13 := by
    rintro rfl
    by_contra hcrlf
    have hnul : 0 ∉ b.drop 13 := fun hmem => h0 (List.drop_subset 13 b hmem)
    obtain ⟨n, hn⟩ := Option.ne_none_iff_exists'.mp hcrlf
    have hfind : strstr b 13 (lit "\r\n") = .ok (some (13 + n)) := by
      rw [strstr_of_le htext.le, untilNul_eq_self hnul, lit_crlf, hn]
      rfl
    rw [lineEnd, hfind] at hline
    obtain rfl : 13 + n = e := by simpa using hline
    have hat := find_eq_some hn
    rw [htext.strneq, untilNul_eq_self (htext.drop ▸ hnul), Nat.add_sub_cancel_left, Parse.ok.injEq, decide_eq_true_iff] at hsame
    rw [htext.drop] at hat
    have hlt : m.text.bytes.length < n := by
      by_contra hle
      rw [List.drop_append_of_le_length (by omega)] at hat
      cases hdrop : m.text.bytes.drop n with
      | nil => simp [hdrop, LineEnding.bytes, Ascii.cr, Ascii.lf] at hat
      | cons c t =>
        rw [hdrop, List.cons_append] at hat
        obtain ⟨rfl, -⟩ := List.cons_prefix_cons.mp hat
        exact hcr (List.drop_subset n _ (hdrop ▸ List.mem_cons_self))
    have hmem : Ascii.lf ∈
        (m.text.bytes ++ (LineEnding.lf.bytes ++ (headerLines .lf m.headers ++ (LineEnding.lf.bytes ++ m.body.bytes)))).take n := by
      rw [List.take_append, List.mem_append]
      right
      obtain ⟨k, hk⟩ : ∃ k, n - m.text.bytes.length = k + 1 := ⟨n - m.text.bytes.length - 1, by omega⟩
      rw [hk]
      exact List.mem_cons_self
    rw [hsame] at hmem
    exact httpGetResponseMessage_lf hmessage (List.take_subset n _ hmem)
  have hend := lineEnd_line htext h0 hcr hlf hno
  rw [hline] at hend
  obtain rfl : e = 13 + m.text.bytes.length := by simpa using hend
  exact ⟨htext.advance, hno⟩

/-! ## The loop -/

/-- **Where the loop gets to** is the end of a line of the head. -/
theorem HeadLoop.Reached.lines (hb : b = m.bytes eol) {r : HeadLoop} (hr : HeadLoop.Reached b r) :
    (∃ rest, Rest b r.readEnd (eol.bytes ++ (headerLines eol rest ++ (eol.bytes ++ m.body.bytes)))) ∧
      13 ≤ r.readEnd ∧ (eol = .lf → NoCrlf b 13) := by
  have h0 : 0 ∉ b := hb ▸ m.nul eol
  induction hr with
  | start h =>
    obtain ⟨hrest, hno⟩ := httpStatus_end hb h
    have hline := (httpStatus_line h).1
    refine ⟨⟨m.headers, hrest⟩, ?_, hno⟩
    rcases lineEnd_cases (m.rest_text hb).le with hnone | ⟨e, he, hle, -⟩
    · rw [hline] at hnone
      cases hnone
    · rw [hline] at he
      cases he
      exact hle
  | pass hs hgo h ih =>
    obtain ⟨⟨rest, hrest⟩, hle, hno⟩ := ih
    cases rest with
    | nil =>
      rw [(ends_headers hrest).mpr rfl] at hgo
      cases hgo
    | cons header rest =>
      obtain ⟨w, hw, hcr, hlf⟩ := rest_next hrest
      have hline := lineEnd_line hw h0 hcr hlf fun heol => (hno heol).mono (by omega)
      rw [pass_readEnd h] at hline
      have heq := Option.some.inj (Parse.ok.inj hline)
      refine ⟨⟨rest, heq ▸ hw.advance⟩, by omega, hno⟩

/-- **The body that is copied**: from its first byte on where lines end in CR LF, from its third where they end in LF. -/
theorem httpResponseParse_body (hlen : (m.bytes eol).length ≤ libhttpMessageMaxSize) {res : HttpResponse}
    (h : httpResponseParse (m.bytes eol) = .ok res) :
    4 ≤ 2 * eol.bytes.length + m.body.bytes.length ∧ res.body.bytes = m.body.bytes.drop (4 - 2 * eol.bytes.length) := by
  have hb := (List.take_of_length_le hlen).symm
  rw [httpResponseParse_eq] at h
  rcases hread : httpResponseRead (m.bytes eol) with _ | _ | r
  · rw [hread] at h
    cases h
  · rw [hread] at h
    cases h
  obtain ⟨hr, hends, hin, hbody⟩ := httpResponseRead_ok hb hread
  obtain ⟨⟨rest, hrest⟩, -, -⟩ := hr.lines rfl
  obtain rfl := (ends_headers hrest).mp hends
  have hlength := hrest.length
  have hdrop : (m.bytes eol).drop (r.head.readEnd + 4) = m.body.bytes.drop (4 - 2 * eol.bytes.length) := by
    rw [← List.drop_drop, hrest.drop]
    cases eol <;> rfl
  have hcopied : res.body.bytes = r.body := by
    rw [hread] at h
    simp only [Parse.ok_bind] at h
    split_ifs at h
    rw [← Parse.ok.inj h, CString.read_bytes]
    rw [hbody]
    exact notMem_untilNul _
  refine ⟨?_, ?_⟩
  · simp only [headerLines, List.flatMap_nil, List.nil_append, List.length_append] at hlength
    omega
  · rw [hcopied, hbody, HeadLoop.body, hdrop]
    exact untilNul_eq_self fun hmem => m.body.nul (List.drop_subset _ _ hmem)

/-- **Line ends matter.** Whatever the status, the headers and the body are, the two forms of a message that fits into the
buffer do not give the same status and body. -/
theorem lineEndings_matter (m : ResponseMessage) (hlen : (m.bytes .crlf).length ≤ libhttpMessageMaxSize) :
    ¬ m.SameResponse := by
  rintro ⟨res, hlf, hcrlf⟩
  have hshort : (m.bytes .lf).length ≤ (m.bytes .crlf).length := by
    have hlines : ∀ headers, (headerLines .lf headers).length ≤ (headerLines .crlf headers).length := by
      intro headers
      induction headers with
      | nil => exact le_rfl
      | cons header headers ih =>
        simp only [headerLines_cons, List.length_append, LineEnding.bytes, List.length_cons, List.length_nil]
        omega
    have := hlines m.headers
    simp only [ResponseMessage.bytes, List.length_append, List.length_cons, LineEnding.bytes, List.length_nil]
    omega
  obtain ⟨htwo, hthird⟩ := httpResponseParse_body (hshort.trans hlen) hlf
  obtain ⟨-, hfirst⟩ := httpResponseParse_body hlen hcrlf
  have hlength := congrArg List.length (hthird.symm.trans hfirst)
  simp only [List.length_drop, LineEnding.bytes, List.length_cons, List.length_nil] at hlength htwo
  omega

end

/-- Two bytes, with a length. -/
def twoBytes : ResponseMessage where
  version := .ofString "HTTP/1.1"
  versionKnown := Or.inl (by decide)
  status := 200
  text := .ofString "OK"
  statusKnown := rfl
  headers := [⟨.ofString "Content-Length", .ofString "2", by decide, by decide, by decide, by decide⟩]
  body := .ofString "ab"
  announced := by decide

/-- `lineEndings_matter` for it. -/
theorem lineEndings_matter_twoBytes : ¬ twoBytes.SameResponse := lineEndings_matter twoBytes (by decide)

/-- It is read where lines end in CR LF. Where they end in LF, the length is not found, and the body is taken to begin behind
its end. -/
theorem twoBytes_differ :
    httpResponseParse (twoBytes.bytes .crlf) = .ok ⟨200, .ofString "ab"⟩ ∧ httpResponseParse (twoBytes.bytes .lf) = .fault ∧
      ¬ twoBytes.SameResponse := by
  have hlf : httpResponseParse (twoBytes.bytes .lf) = .fault := by decide +kernel
  refine ⟨by decide +kernel, hlf, ?_⟩
  rintro ⟨res, h, -⟩
  rw [hlf] at h
  cases h

end Cs162Hw.Kv
