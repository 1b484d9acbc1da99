import Cs162Hw.Kv.Http

/-!
# The head of a response

`hw4/src/libhttp.c`: what `http_response_parse` makes of bytes nobody promises anything about. Its loop over
the headers goes from one line end to the next; it passes over a line end as if that were two characters, and over a
blank line as if that were four, and it takes every header for a `Content-Length` whose name is a beginning of
that word.

* `httpResponseParse_eq`: the parser reads, and then copies the body.
* `HeadLoop.Reached`: the line ends the loop gets to, with the lengths announced so far.
* `httpResponseParse_returns_iff`: it returns exactly if every line end has the characters that are passed over, there is a
  text for the status, and there is room for the body.
* `httpResponseRead_announced`: the body it copies is the one that was announced exactly if the message is complete.
-/

namespace Cs162Hw.Kv

open Library

/-! ## The parser, line end by line end -/

/-- A header that is taken for a `Content-Length`. -/
structure LengthHeader where
  /-- Its name. -/
  name : List UInt8
  /-- The number behind its name. -/
  number : ℤ
  deriving DecidableEq

/-- Where the loop of `http_response_parse` over the headers is. -/
structure HeadLoop where
  /-- `read_end`: a line end. -/
  readEnd : ℕ
  /-- The headers taken for a `Content-Length`, the last one first. -/
  lengths : List LengthHeader
  deriving DecidableEq

namespace HeadLoop

/-- `content_length`. -/
def contentLength (s : HeadLoop) : Int32 :=
  match s.lengths with
  | [] => -1
  | header :: _ => .ofInt header.number

/-- The test of the loop: is there a blank line? -/
def ends (b : List UInt8) (s : HeadLoop) : Parse Bool := do
  return (← strneq b s.readEnd (lit "\n\n") 2) || (← strneq b s.readEnd (lit "\r\n\r\n") 4)

/-- One pass of the loop. -/
def pass (b : List UInt8) (s : HeadLoop) : Parse HeadLoop := do
  let readStart := s.readEnd + 2
  match ← lineEnd b readStart with
  | none => .reject
  | some readLimit =>
    match ← strstr b readStart (lit ": ") with
    | none => .reject
    | some readEnd =>
      if readEnd > readLimit then .reject
      else if ← strneq b readStart (lit "Content-Length") (readEnd - readStart) then do
        let (number, numberEnd) ← strtol b (readEnd + 2)
        let numberEnd ← skipWhile b numberEnd fun c => c = Ascii.space
        if numberEnd ≠ readLimit then .reject
        else return ⟨readLimit, ⟨slice b readStart readEnd, number⟩ :: s.lengths⟩
      else return ⟨readLimit, s.lengths⟩

/-- The loop. -/
def run (b : List UInt8) : ℕ → HeadLoop → Parse HeadLoop
  | 0, _ => .fault
  | fuel + 1, s => do
    if ← s.ends b then return s
    else run b fuel (← s.pass b)

theorem httpHeadersFrom_eq (b : List UInt8) (fuel : ℕ) (s : HeadLoop) :
    httpHeadersFrom b fuel s.readEnd s.contentLength = run b fuel s >>= fun t => .ok (t.readEnd, t.contentLength) := by
  induction fuel generalizing s with
  | zero => rfl
  | succ fuel ih =>
    rw [httpHeadersFrom, run, ends, pass]
    simp only [Parse.bind_assoc]
    refine Parse.bind_congr fun x => Parse.bind_congr fun y => ?_
    simp only [Parse.ok_bind, Parse.pure_eq]
    split_ifs
    · rfl
    simp only [Parse.bind_assoc]
    refine Parse.bind_congr fun limit => ?_
    rcases limit with _ | readLimit
    · rfl
    simp only [Parse.bind_assoc]
    refine Parse.bind_congr fun colon => ?_
    rcases colon with _ | readEnd
    · rfl
    dsimp only
    split_ifs
    · rfl
    simp only [Parse.bind_assoc]
    refine Parse.bind_congr fun same => ?_
    cases same with
    | false => exact ih ⟨readLimit, s.lengths⟩
    | true =>
      simp only [if_true, Parse.bind_assoc]
      refine Parse.bind_congr fun number => Parse.bind_congr fun numberEnd => ?_
      split_ifs
      · rfl
      · exact ih ⟨readLimit, ⟨slice b (s.readEnd + 2) readEnd, number.1⟩ :: s.lengths⟩

end HeadLoop

/-- `http_response_parse`, the status line: the status, and where its text begins and ends. -/
def httpStatusLine (b : List UInt8) : Parse (Int16 × ℕ × ℕ) := do
  match ← strchr b 0 Ascii.space with
  | none => .reject
  | some readEnd =>
    if readEnd ≠ 8 then .reject
    else if !(← strneq b 0 (lit "HTTP/1.1") 8) && !(← strneq b 0 (lit "HTTP/1.0") 8) then .reject
    else do
      let readStart := readEnd + 1
      let (number, readEnd) ← strtol b readStart
      let status : Int16 := .ofInt number
      if status = 0 || readEnd ≠ readStart + 3 || (← charAt b readEnd) ≠ Ascii.space then .reject
      else
        let readStart := readEnd + 1
        match ← lineEnd b readStart with
        | none => .reject
        | some readEnd => return (status, readStart, readEnd)

/-- `http_response_parse`, the status line and the comparison of its text: the status, and where the line ends. -/
def httpStatus (b : List UInt8) : Parse (Int16 × ℕ) := do
  let (status, readStart, readEnd) ← httpStatusLine b
  match httpGetResponseMessage status.toInt with
  | none => .fault
  | some message =>
    if !(← strneq b readStart message.bytes (readEnd - readStart)) then .reject
    else return (status, readEnd)

/-- What `http_response_parse` has read when it copies the body. -/
structure HttpRead where
  /-- The status. -/
  status : Int16
  /-- The loop over the headers, at its end. -/
  head : HeadLoop
  /-- The string that is copied. -/
  body : List UInt8
  deriving DecidableEq

/-- `http_response_parse`, up to the copy of the body. -/
def httpResponseRead (pending : List UInt8) : Parse HttpRead := do
  let readBuffer := pending.take libhttpMessageMaxSize
  if readBuffer = [] then .reject
  else do
    let (status, readEnd) ← httpStatus readBuffer
    let head ← HeadLoop.run readBuffer (readBuffer.length + 1) ⟨readEnd, []⟩
    let body ← strAt readBuffer (head.readEnd + 4)
    return ⟨status, head, body⟩

/-- `http_response_parse` reads, and then copies the body into a block of `content_length + 1` bytes. -/
theorem httpResponseParse_eq (pending : List UInt8) :
    httpResponseParse pending = httpResponseRead pending >>= fun r =>
      if (r.body.length + 1 : ℤ) ≤ (r.head.contentLength + 1).toInt then .ok ⟨r.status, .read r.body⟩ else .fault := by
  rw [httpResponseParse, httpResponseRead]
  generalize pending.take libhttpMessageMaxSize = b
  dsimp only
  split_ifs with hb
  · rfl
  rw [httpStatus, httpStatusLine]
  simp only [Parse.bind_assoc]
  refine Parse.bind_congr fun space => ?_
  rcases space with _ | readEnd
  · rfl
  dsimp only
  split_ifs
  · rfl
  simp only [Parse.bind_assoc]
  refine Parse.bind_congr fun x => Parse.bind_congr fun y => ?_
  split_ifs
  · rfl
  simp only [Parse.bind_assoc]
  refine Parse.bind_congr fun number => Parse.bind_congr fun c => ?_
  split_ifs
  · rfl
  simp only [Parse.bind_assoc]
  refine Parse.bind_congr fun limit => ?_
  rcases limit with _ | readEnd
  · rfl
  simp only [Parse.ok_bind, Parse.pure_eq]
  rcases httpGetResponseMessage (Int16.ofInt number.1).toInt with _ | message
  · rfl
  simp only [Parse.bind_assoc]
  refine Parse.bind_congr fun same => ?_
  split_ifs
  · rfl
  have hloop := HeadLoop.httpHeadersFrom_eq b (b.length + 1) ⟨readEnd, []⟩
  have hnone : HeadLoop.contentLength ⟨readEnd, []⟩ = -1 := rfl
  rw [hnone] at hloop
  rw [hloop]
  simp only [Parse.ok_bind, Parse.bind_assoc]

/-! ## Where the loop looks -/

section

variable {b : List UInt8} {p : ℕ}

/-- The end of a line is a character of the buffer. -/
theorem lineEnd_cases (h : p ≤ b.length) :
    lineEnd b p = .ok none ∨ ∃ e, lineEnd b p = .ok (some e) ∧ p ≤ e ∧ e < b.length := by
  rw [lineEnd]
  rcases hcrlf : strstr b p (lit "\r\n") with _ | _ | _ | e
  · rw [strstr_of_le h] at hcrlf
    cases hcrlf
  · rw [strstr_of_le h] at hcrlf
    cases hcrlf
  · rcases hlf : strstr b p (lit "\n") with _ | _ | _ | e
    · rw [strstr_of_le h] at hlf
      cases hlf
    · rw [strstr_of_le h] at hlf
      cases hlf
    · exact Or.inl rfl
    · obtain ⟨hle, hat⟩ := strstr_eq_some h hlf
      exact Or.inr ⟨e, rfl, hle, length_le_of_drop hat (by decide)⟩
  · obtain ⟨hle, hat⟩ := strstr_eq_some h hcrlf
    have hlen : e + 2 ≤ b.length := length_le_of_drop hat (by decide)
    exact Or.inr ⟨e, rfl, hle, by omega⟩

theorem strtol_cases (h : p ≤ b.length) : ∃ number q, strtol b p = .ok (number, q) ∧ p ≤ q ∧ q ≤ b.length := by
  have hlen : (untilNul (b.drop p)).length ≤ b.length - p := by
    rw [← List.length_drop]
    exact (untilNul_isInitial _).length_le
  rw [strtol, strAt_of_le h]
  simp only [Parse.ok_bind]
  generalize untilNul (b.drop p) = s at hlen
  have hblanks := (List.takeWhile_prefix isSpace (l := s)).length_le
  generalize (s.takeWhile isSpace).length = blanks at hblanks
  have hdigits (k : ℕ) : (((s.drop blanks).drop k).takeWhile isDigit).length ≤ s.length - blanks - k := by
    have := (List.takeWhile_prefix isDigit (l := (s.drop blanks).drop k)).length_le
    rwa [List.length_drop, List.length_drop] at this
  have hsigned := hdigits 1
  have hunsigned := hdigits 0
  split
  all_goals
    dsimp only
    split_ifs with hnone
    · exact ⟨_, _, rfl, le_rfl, h⟩
    · have hpos := List.length_pos_iff.mpr hnone
      exact ⟨_, _, rfl, by omega, by omega⟩

/-- The status line, where it is well formed, is in the buffer. -/
theorem httpStatusLine_cases (b : List UInt8) : httpStatusLine b = .reject ∨
    ∃ status text e, httpStatusLine b = .ok (status, text, e) ∧ text ≤ e ∧ e < b.length := by
  rw [httpStatusLine, strchr_of_le (Nat.zero_le _), strneq_of_le (Nat.zero_le _), strneq_of_le (Nat.zero_le _)]
  simp only [Parse.ok_bind]
  rcases hspace : ((untilNul (b.drop 0)).idxOf? Ascii.space).map (0 + ·) with _ | readEnd
  · exact Or.inl rfl
  have hlt := (strchr_eq_some (b := b) (Nat.zero_le _) ((strchr_of_le (Nat.zero_le _) _).trans (congrArg Parse.ok hspace))).2
  simp only
  split_ifs
  · exact Or.inl rfl
  · exact Or.inl rfl
  obtain ⟨number, numberEnd, hnumber, -, hle⟩ := strtol_cases (b := b) (p := readEnd + 1) hlt
  rw [hnumber]
  simp only [Parse.ok_bind, charAt_of_le hle]
  split_ifs with htest
  · exact Or.inl rfl
  have hne : numberEnd ≠ b.length := by
    rintro rfl
    exact htest (by simp [Ascii.space])
  rcases lineEnd_cases (b := b) (p := numberEnd + 1) (by omega) with hnone | ⟨e, hline, hpe, he⟩
  · left
    rw [hnone]
    rfl
  · right
    rw [hline]
    exact ⟨_, _, _, rfl, hpe, he⟩

/-- The comparison of the text of the status faults only if there is no text to compare with. -/
theorem httpStatus_cases (b : List UInt8) :
    httpStatus b = .reject ∨ (∃ status e, httpStatus b = .ok (status, e) ∧ e < b.length) ∨
      httpStatus b = .fault ∧
        ∃ status text e, httpStatusLine b = .ok (status, text, e) ∧ httpGetResponseMessage status.toInt = none := by
  rw [httpStatus]
  rcases httpStatusLine_cases b with hreject | ⟨status, text, e, hline, htext, he⟩
  · left
    rw [hreject]
    rfl
  rw [hline]
  simp only [Parse.ok_bind]
  rcases hmessage : httpGetResponseMessage status.toInt with _ | message
  · exact Or.inr (Or.inr ⟨rfl, status, text, e, rfl, hmessage⟩)
  simp only [strneq_of_le (b := b) (p := text) (by omega), Parse.ok_bind]
  split_ifs
  · exact Or.inl rfl
  · exact Or.inr (Or.inl ⟨status, e, rfl, he⟩)

end

namespace HeadLoop

variable {b : List UInt8} {s : HeadLoop}

theorem ends_eq (h : s.readEnd ≤ b.length) : ∃ last, s.ends b = .ok last := by
  rw [ends, strneq_of_le h, strneq_of_le h]
  exact ⟨_, rfl⟩

/-- A pass that has the two characters it passes over gets to a later line end, if it gets anywhere. -/
theorem pass_cases (h : s.readEnd + 2 ≤ b.length) :
    s.pass b = .reject ∨ ∃ t, s.pass b = .ok t ∧ s.readEnd + 2 ≤ t.readEnd ∧ t.readEnd < b.length := by
  rw [pass]
  rcases lineEnd_cases h with hnone | ⟨readLimit, hline, hle, hlt⟩
  · left
    rw [hnone]
    rfl
  rw [hline]
  simp only [Parse.ok_bind]
  rcases hcolon : strstr b (s.readEnd + 2) (lit ": ") with _ | _ | _ | readEnd
  · rw [strstr_of_le h] at hcolon
    cases hcolon
  · rw [strstr_of_le h] at hcolon
    cases hcolon
  · exact Or.inl rfl
  have hvalue : readEnd + 2 ≤ b.length := length_le_of_drop (strstr_eq_some h hcolon).2 (by decide)
  simp only [strneq_of_le h, Parse.ok_bind]
  split_ifs
  · exact Or.inl rfl
  · obtain ⟨number, numberEnd, hnumber, -, hnumberEnd⟩ := strtol_cases hvalue
    simp only [hnumber, Parse.ok_bind, skipWhile_of_le hnumberEnd]
    split_ifs
    · exact Or.inl rfl
    · exact Or.inr ⟨_, rfl, hle, hlt⟩
  · exact Or.inr ⟨_, rfl, hle, hlt⟩

/-- One that has not, looks where the buffer is not. -/
theorem pass_fault (h : b.length < s.readEnd + 2) : s.pass b = .fault := by
  rw [pass, lineEnd, strstr, strAt_of_lt h]
  rfl

/-- One that gets anywhere has the characters it passes over, and gets to a line end behind them. -/
theorem pass_ok {t : HeadLoop} (h : s.pass b = .ok t) : s.readEnd + 2 ≤ t.readEnd ∧ t.readEnd < b.length := by
  rcases Nat.lt_or_ge b.length (s.readEnd + 2) with hout | hin
  · cases (pass_fault hout).symm.trans h
  · rcases pass_cases hin with hreject | ⟨t', hok, hle, hlt⟩
    · cases hreject.symm.trans h
    · cases hok.symm.trans h
      exact ⟨hle, hlt⟩

/-- The loop gets to these line ends. -/
inductive Reached (b : List UInt8) : HeadLoop → Prop
  /-- The end of the status line. -/
  | start {status : Int16} {e : ℕ} (h : httpStatus b = .ok (status, e)) : Reached b ⟨e, []⟩
  /-- The end of a header. -/
  | pass {s t : HeadLoop} (hs : Reached b s) (hgo : s.ends b = .ok false) (h : s.pass b = .ok t) : Reached b t

namespace Reached

theorem lt (hs : Reached b s) : s.readEnd < b.length := by
  cases hs with
  | start h =>
    rcases httpStatus_cases b with hreject | ⟨status, e, hok, hlt⟩ | ⟨hfault, -⟩
    · cases hreject.symm.trans h
    · cases hok.symm.trans h
      exact hlt
    · cases hfault.symm.trans h
  | pass hs hgo h => exact (pass_ok h).2

/-- The loop goes on from where it gets to, and has fuel enough for the rest of the buffer. -/
theorem run_eq (hs : Reached b s) : ∃ status e fuel, httpStatus b = .ok (status, e) ∧ b.length < s.readEnd + fuel ∧
    run b (b.length + 1) ⟨e, []⟩ = run b fuel s := by
  induction hs with
  | @start status e h => exact ⟨status, e, b.length + 1, h, by omega, rfl⟩
  | @pass s t hs hgo h ih =>
    obtain ⟨status, e, fuel, hstatus, hfuel, hrun⟩ := ih
    have hlt := hs.lt
    obtain ⟨fuel, rfl⟩ : ∃ n, fuel = n + 1 := ⟨fuel - 1, by omega⟩
    have hlater := (pass_ok h).1
    refine ⟨status, e, fuel, hstatus, by omega, ?_⟩
    rw [hrun, run, hgo, h]
    rfl

/-- **What the loop comes to**, with fuel enough: it faults only at a line end that has not got the characters it passes over. -/
theorem run_cases {fuel : ℕ} (hs : Reached b s) (hfuel : b.length < s.readEnd + fuel) :
    run b fuel s = .reject ∨ (∃ t, run b fuel s = .ok t ∧ Reached b t ∧ t.ends b = .ok true) ∨
      run b fuel s = .fault ∧ ∃ t, Reached b t ∧ t.ends b = .ok false ∧ b.length < t.readEnd + 2 := by
  induction fuel generalizing s with
  | zero => exact absurd hs.lt (by omega)
  | succ fuel ih =>
    obtain ⟨last, hlast⟩ := ends_eq hs.lt.le
    rw [run, hlast]
    cases last with
    | true => exact Or.inr (Or.inl ⟨s, rfl, hs, hlast⟩)
    | false =>
      simp only [Parse.ok_bind, Bool.false_eq_true, if_false]
      rcases Nat.lt_or_ge b.length (s.readEnd + 2) with hout | hin
      · rw [pass_fault hout]
        exact Or.inr (Or.inr ⟨rfl, s, hs, hlast, hout⟩)
      · rcases pass_cases hin with hreject | ⟨t, hok, hle, -⟩
        · left
          rw [hreject]
          rfl
        · rw [hok]
          exact ih (hs.pass hlast hok) (by omega)

end Reached

end HeadLoop

/-! ## The parser returns -/

/-- The string behind the four characters that are passed over where the head ends. -/
def HeadLoop.body (b : List UInt8) (s : HeadLoop) : List UInt8 := untilNul (b.drop (s.readEnd + 4))

/-- The bytes that `http_response_parse` gets through. -/
structure Regular (b : List UInt8) : Prop where
  /-- There is a text for the status of a well-formed status line. -/
  known : ∀ status text e, httpStatusLine b = .ok (status, text, e) → httpGetResponseMessage status.toInt ≠ none
  /-- A line end that a header follows has the two characters that are passed over. -/
  lines : ∀ s, HeadLoop.Reached b s → s.ends b = .ok false → s.readEnd + 2 ≤ b.length
  /-- One that a blank line follows has four, and the last length announced is enough for the string behind them. -/
  blank : ∀ s, HeadLoop.Reached b s → s.ends b = .ok true →
    s.readEnd + 4 ≤ b.length ∧ ((s.body b).length + 1 : ℤ) ≤ (s.contentLength + 1).toInt

section

variable {pending b : List UInt8} {s : HeadLoop}

/-- The parser, from a line end on that the loop gets to. -/
theorem httpResponseRead_eq (hb : b = pending.take libhttpMessageMaxSize) (hs : HeadLoop.Reached b s) :
    ∃ status fuel, b.length < s.readEnd + fuel ∧ httpResponseRead pending = (HeadLoop.run b fuel s >>= fun head =>
      strAt b (head.readEnd + 4) >>= fun body => .ok ⟨status, head, body⟩) := by
  obtain ⟨status, e, fuel, hstatus, hfuel, hrun⟩ := hs.run_eq
  have hne : b ≠ [] := by
    rintro rfl
    exact absurd hs.lt (Nat.not_lt_zero _)
  refine ⟨status, fuel, hfuel, ?_⟩
  rw [httpResponseRead, ← hb]
  dsimp only
  rw [if_neg hne, hstatus]
  simp only [Parse.ok_bind]
  rw [hrun]
  rfl

/-- Where the head ends, it remains to copy the body. -/
theorem httpResponseRead_ends (hb : b = pending.take libhttpMessageMaxSize) (hs : HeadLoop.Reached b s)
    (hends : s.ends b = .ok true) :
    ∃ status, httpResponseRead pending = strAt b (s.readEnd + 4) >>= fun body => .ok ⟨status, s, body⟩ := by
  obtain ⟨status, fuel, hfuel, hread⟩ := httpResponseRead_eq hb hs
  have hlt := hs.lt
  obtain ⟨fuel, rfl⟩ : ∃ n, fuel = n + 1 := ⟨fuel - 1, by omega⟩
  refine ⟨status, ?_⟩
  rw [hread, HeadLoop.run, hends]
  rfl

/-- **What reading comes to**: it faults only at a status without a text, at a line end that has not got the characters that are
passed over, and at the end of a head that has not. -/
theorem httpResponseRead_cases (hb : b = pending.take libhttpMessageMaxSize) :
    httpResponseRead pending = .reject ∨
      (∃ r, httpResponseRead pending = .ok r ∧ HeadLoop.Reached b r.head ∧ r.head.ends b = .ok true ∧
        r.head.readEnd + 4 ≤ b.length ∧ r.body = r.head.body b) ∨
      httpResponseRead pending = .fault ∧
        ((∃ status text e, httpStatusLine b = .ok (status, text, e) ∧ httpGetResponseMessage status.toInt = none) ∨
          (∃ s, HeadLoop.Reached b s ∧ s.ends b = .ok false ∧ b.length < s.readEnd + 2) ∨
          ∃ s, HeadLoop.Reached b s ∧ s.ends b = .ok true ∧ b.length < s.readEnd + 4) := by
  rw [httpResponseRead, ← hb]
  dsimp only
  split_ifs with hne
  · exact Or.inl rfl
  rcases httpStatus_cases b with hreject | ⟨status, e, hstatus, he⟩ | ⟨hfault, hunknown⟩
  · left
    rw [hreject]
    rfl
  · have hstart := HeadLoop.Reached.start hstatus
    have hlt := hstart.lt
    have hfuel : b.length < e + (b.length + 1) := by omega
    rw [hstatus]
    simp only [Parse.ok_bind]
    rcases hstart.run_cases hfuel with hreject | ⟨t, hrun, ht, hends⟩ | ⟨hfault, hline⟩
    · left
      rw [hreject]
      rfl
    · rw [hrun]
      simp only [Parse.ok_bind]
      rcases Nat.lt_or_ge b.length (t.readEnd + 4) with hout | hin
      · rw [strAt_of_lt hout]
        exact Or.inr (Or.inr ⟨rfl, Or.inr (Or.inr ⟨t, ht, hends, hout⟩)⟩)
      · rw [strAt_of_le hin]
        exact Or.inr (Or.inl ⟨_, rfl, ht, hends, hin, rfl⟩)
    · rw [hfault]
      exact Or.inr (Or.inr ⟨rfl, Or.inr (Or.inl hline)⟩)
  · rw [hfault]
    exact Or.inr (Or.inr ⟨rfl, Or.inl hunknown⟩)

/-- What is read has been read up to the end of the head. -/
theorem httpResponseRead_ok {r : HttpRead} (hb : b = pending.take libhttpMessageMaxSize) (h : httpResponseRead pending = .ok r) :
    HeadLoop.Reached b r.head ∧ r.head.ends b = .ok true ∧ r.head.readEnd + 4 ≤ b.length ∧ r.body = r.head.body b := by
  rcases httpResponseRead_cases hb with hreject | ⟨r', hread, hr⟩ | ⟨hfault, -⟩
  · cases hreject.symm.trans h
  · cases hread.symm.trans h
    exact hr
  · cases hfault.symm.trans h

/-- A status without a text is compared with `NULL`. -/
theorem httpResponseRead_unknown {status : Int16} {text e : ℕ} (hb : b = pending.take libhttpMessageMaxSize)
    (hline : httpStatusLine b = .ok (status, text, e)) (hmessage : httpGetResponseMessage status.toInt = none) :
    httpResponseRead pending = .fault := by
  have hne : b ≠ [] := by
    rintro rfl
    have hreject : httpStatusLine [] = .reject := by decide
    cases hreject.symm.trans hline
  rw [httpResponseRead, ← hb]
  dsimp only
  rw [if_neg hne, httpStatus, hline]
  simp only [Parse.ok_bind, hmessage]
  rfl

/-- Behind a line end that the loop goes on from, two characters are passed over. -/
theorem httpResponseRead_goes_on (hb : b = pending.take libhttpMessageMaxSize) (hs : HeadLoop.Reached b s)
    (hgo : s.ends b = .ok false) (hout : b.length < s.readEnd + 2) : httpResponseRead pending = .fault := by
  obtain ⟨status, fuel, hfuel, heq⟩ := httpResponseRead_eq hb hs
  have hlt := hs.lt
  obtain ⟨fuel, rfl⟩ : ∃ n, fuel = n + 1 := ⟨fuel - 1, by omega⟩
  rw [heq, HeadLoop.run, hgo, HeadLoop.pass_fault hout]
  rfl

/-- **`http_response_parse` returns**, with a response or with none, exactly if the bytes are regular. -/
theorem httpResponseParse_returns_iff (pending : List UInt8) :
    (httpResponseParse pending = .reject ∨ ∃ res, httpResponseParse pending = .ok res) ↔
      Regular (pending.take libhttpMessageMaxSize) := by
  rw [← Parse.ne_fault_iff]
  generalize hb : pending.take libhttpMessageMaxSize = b
  have hb := hb.symm
  constructor
  · intro hreturns
    have hread : httpResponseRead pending ≠ .fault := by
      intro h
      refine hreturns ?_
      rw [httpResponseParse_eq, h]
      rfl
    constructor
    case known =>
      intro status text e hline hmessage
      exact hread (httpResponseRead_unknown hb hline hmessage)
    case lines =>
      intro s hs hgo
      by_contra hout
      exact hread (httpResponseRead_goes_on hb hs hgo (Nat.not_le.mp hout))
    case blank =>
      intro s hs hends
      obtain ⟨status, heq⟩ := httpResponseRead_ends hb hs hends
      have hin : s.readEnd + 4 ≤ b.length := by
        by_contra hout
        rw [heq, strAt_of_lt (Nat.not_le.mp hout)] at hread
        exact hread rfl
      refine ⟨hin, ?_⟩
      by_contra hroom
      refine hreturns ?_
      rw [httpResponseParse_eq, heq, strAt_of_le hin]
      exact if_neg hroom
  · rintro ⟨hknown, hlines, hblank⟩ hfault
    rw [httpResponseParse_eq] at hfault
    rcases httpResponseRead_cases hb with hreject | ⟨r, hread, hs, hends, -, hbody⟩ | ⟨-, hcause⟩
    · rw [hreject] at hfault
      cases hfault
    · rw [hread] at hfault
      simp only [Parse.ok_bind] at hfault
      rw [if_pos (hbody ▸ (hblank r.head hs hends).2)] at hfault
      cases hfault
    · rcases hcause with ⟨status, text, e, hline, hmessage⟩ | ⟨s, hs, hgo, hout⟩ | ⟨s, hs, hends, hout⟩
      · exact hknown status text e hline hmessage
      · exact absurd (hlines s hs hgo) (Nat.not_le.mpr hout)
      · exact absurd (hblank s hs hends).1 (Nat.not_le.mpr hout)

/-- A status without a text, and a status line that ends with the buffer. -/
theorem httpResponseParse_faults :
    (httpStatusLine (lit "HTTP/1.1 999 X\r\n") = .ok (999, 13, 14) ∧ httpGetResponseMessage 999 = none ∧
      httpResponseParse (lit "HTTP/1.1 999 X\r\n") = .fault) ∧
    HeadLoop.Reached (lit "HTTP/1.1 200 OK\n") ⟨15, []⟩ ∧ (lit "HTTP/1.1 200 OK\n").length = 16 ∧
      httpResponseParse (lit "HTTP/1.1 200 OK\n") = .fault := by
  refine ⟨⟨by decide +kernel, rfl, by decide +kernel⟩, ?_, by decide, by decide +kernel⟩
  exact @HeadLoop.Reached.start _ 200 15 (by decide +kernel)

end

/-! ## The body that was announced -/

/-- What is behind the blank line where the head ends. -/
def HeadLoop.behind (b : List UInt8) (s : HeadLoop) : List UInt8 :=
  if lit "\n\n" <+: b.drop s.readEnd then b.drop (s.readEnd + 2) else b.drop (s.readEnd + 4)

/-- The body that `http_response_parse` copies is the one that was announced: a header named `Content-Length` gives the
number of the bytes behind the blank line, these are copied, and there is room for them. -/
def HttpRead.AsAnnounced (b : List UInt8) (r : HttpRead) : Prop :=
  ∃ s, HeadLoop.Reached b s ∧ s.ends b = .ok true ∧
    (∃ header ∈ s.lengths, header.name = lit "Content-Length" ∧ 0 ≤ header.number ∧ ((s.behind b).length : ℤ) = header.number) ∧
    r.body = s.behind b ∧ (r.body.length + 1 : ℤ) ≤ (r.head.contentLength + 1).toInt

/-- The head ends with two CR LF, there is no terminator behind it, a header named `Content-Length` announces what is there, and
the last header that is taken for one announces no less. -/
def Complete (b : List UInt8) : Prop :=
  ∃ s, HeadLoop.Reached b s ∧ lit "\r\n\r\n" <+: b.drop s.readEnd ∧ 0 ∉ b.drop (s.readEnd + 4) ∧
    (∃ header ∈ s.lengths, header.name = lit "Content-Length" ∧ header.number = (b.drop (s.readEnd + 4)).length) ∧
    ((b.drop (s.readEnd + 4)).length : ℤ) ≤ s.contentLength.toInt ∧ s.contentLength.toInt < 2 ^ 31 - 1

section

variable {pending b : List UInt8} {s : HeadLoop}

/-- `content_length + 1` has room for `n + 1` characters. -/
theorem contentLength_room {n : ℕ} {c : Int32} : (n + 1 : ℤ) ≤ (c + 1).toInt ↔ (n : ℤ) ≤ c.toInt ∧ c.toInt < 2 ^ 31 - 1 := by
  have hlt := c.toInt_lt
  have hle := c.le_toInt
  have hone : (1 : Int32).toInt = 1 := by decide
  rw [Int32.toInt_add, hone, Int.bmod_def]
  constructor
  · intro h
    split_ifs at h <;> omega
  · rintro ⟨hn, hc⟩
    split_ifs <;> omega

theorem HeadLoop.ends_iff (h : s.readEnd ≤ b.length) :
    s.ends b = .ok true ↔ lit "\n\n" <+: b.drop s.readEnd ∨ lit "\r\n\r\n" <+: b.drop s.readEnd := by
  have hlf := strneq_iff (w := lit "\n\n") h (by decide)
  have hcrlf := strneq_iff (w := lit "\r\n\r\n") h (by decide)
  have htwo : (lit "\n\n").length = 2 := by decide
  have hfour : (lit "\r\n\r\n").length = 4 := by decide
  rw [htwo, strneq_of_le h, Parse.ok.injEq] at hlf
  rw [hfour, strneq_of_le h, Parse.ok.injEq] at hcrlf
  rw [HeadLoop.ends, strneq_of_le h, strneq_of_le h]
  simp only [Parse.ok_bind, Parse.pure_eq, Parse.ok.injEq, Bool.or_eq_true, hlf, hcrlf]

/-- The head has one end. -/
theorem httpResponseRead_head {r : HttpRead} (hb : b = pending.take libhttpMessageMaxSize)
    (hread : httpResponseRead pending = .ok r)
    (hs : HeadLoop.Reached b s) (hends : s.ends b = .ok true) : r.head = s := by
  obtain ⟨status, heq⟩ := httpResponseRead_ends hb hs hends
  rw [hread] at heq
  rcases hstr : strAt b (s.readEnd + 4) with _ | _ | body
  · rw [hstr] at heq
    cases heq
  · rw [hstr] at heq
    cases heq
  · rw [hstr] at heq
    cases heq
    rfl

/-- **The body that is copied is the one that was announced** exactly if the message is complete. -/
theorem httpResponseRead_announced {r : HttpRead} (hread : httpResponseRead pending = .ok r) :
    r.AsAnnounced (pending.take libhttpMessageMaxSize) ↔ Complete (pending.take libhttpMessageMaxSize) := by
  generalize hb : pending.take libhttpMessageMaxSize = b
  have hb := hb.symm
  obtain ⟨hr, hends, hin, hbody⟩ := httpResponseRead_ok hb hread
  constructor
  · rintro ⟨s, hs, hends, ⟨header, hmem, hname, -, hnumber⟩, hcopied, hroom⟩
    obtain rfl := httpResponseRead_head hb hread hs hends
    have hshort : r.body.length ≤ b.length - (r.head.readEnd + 4) := by
      rw [hbody, ← List.length_drop]
      exact (untilNul_isInitial _).length_le
    have hlf : ¬ lit "\n\n" <+: b.drop r.head.readEnd := by
      intro hlf
      rw [HeadLoop.behind, if_pos hlf] at hcopied
      have hlen := congrArg List.length hcopied
      rw [List.length_drop] at hlen
      omega
    have hcrlf := ((HeadLoop.ends_iff hs.lt.le).mp hends).resolve_left hlf
    rw [HeadLoop.behind, if_neg hlf] at hcopied hnumber
    rw [hcopied] at hroom
    refine ⟨r.head, hs, hcrlf, ?_, ⟨header, hmem, hname, hnumber.symm⟩, contentLength_room.mp hroom⟩
    rw [← hcopied, hbody]
    exact notMem_untilNul _
  · rintro ⟨s, hs, hcrlf, hnul, ⟨header, hmem, hname, hnumber⟩, hroom⟩
    have hends' := (HeadLoop.ends_iff hs.lt.le).mpr (Or.inr hcrlf)
    obtain rfl := httpResponseRead_head hb hread hs hends'
    have hlf : ¬ lit "\n\n" <+: b.drop r.head.readEnd := by
      intro hlf
      exact (List.prefix_or_prefix_of_prefix hlf hcrlf).elim (by decide) (by decide)
    have hcopied : r.body = r.head.behind b := by
      rw [hbody, HeadLoop.body, untilNul_eq_self hnul, HeadLoop.behind, if_neg hlf]
    refine ⟨r.head, hs, hends', ⟨header, hmem, hname, ?_, ?_⟩, hcopied, ?_⟩
    · rw [hnumber]
      exact Int.natCast_nonneg _
    · rw [HeadLoop.behind, if_neg hlf, hnumber]
    · rw [hcopied, HeadLoop.behind, if_neg hlf]
      exact contentLength_room.mpr hroom

/-- A message that is complete. -/
theorem httpResponseRead_announced_complete :
    let pending := lit "HTTP/1.1 200 OK\r\nContent-Length: 2\r\n\r\nab"
    HttpRead.AsAnnounced (pending.take libhttpMessageMaxSize) ⟨200, ⟨34, [⟨lit "Content-Length", 2⟩]⟩, lit "ab"⟩ ↔
      Complete (pending.take libhttpMessageMaxSize) :=
  httpResponseRead_announced (by decide +kernel)

/-- One that is cut short is returned as if it were complete. -/
theorem httpResponseRead_truncated :
    let pending := lit "HTTP/1.1 200 OK\r\nContent-Length: 5\r\n\r\nab"
    let r : HttpRead := ⟨200, ⟨34, [⟨lit "Content-Length", 5⟩]⟩, lit "ab"⟩
    httpResponseRead pending = .ok r ∧ httpResponseParse pending = .ok ⟨200, .ofString "ab"⟩ ∧
      ¬ r.AsAnnounced (pending.take libhttpMessageMaxSize) := by
  intro pending r
  have hread : httpResponseRead pending = .ok r := by decide +kernel
  refine ⟨hread, by decide +kernel, ?_⟩
  rintro ⟨s, hs, hends, ⟨header, hmem, -, -, hnumber⟩, -⟩
  obtain rfl := httpResponseRead_head rfl hread hs hends
  obtain rfl := List.mem_singleton.mp hmem
  exact absurd hnumber (by decide +kernel)

end

end Cs162Hw.Kv
