import Mathlib.Data.UInt
import Cs162Hw.Library.Buffer
import Cs162Hw.Kv.Message

/-!
# Requests to the file server

`http_request_parse` of `hw2/libhttp.c`. It reads once, puts a terminator behind what it has read, and goes through that
with one cursor and three loops: over the method, over the path, and over the rest of the line.

* `httpRequestParse_line`: what it makes of a request line.
* **`httpRequestParse_iff`**: it never leaves the buffer, and it returns a request exactly if the buffer starts with a request
  line.
-/

namespace Cs162Hw.Httpserver

open Library Kv

/-- `LIBHTTP_REQUEST_MAX_SIZE`. -/
def libhttpRequestMaxSize : ℕ := 8192

/-- What `read` has put into `read_buffer`: there is room behind it for the terminator. -/
structure ReadBuffer where
  /-- The bytes. -/
  bytes : List UInt8
  /-- No more than were asked for. -/
  fits : bytes.length ≤ libhttpRequestMaxSize

/-- `struct http_request`. -/
structure HttpRequest where
  /-- The method. -/
  method : CString
  /-- The path. -/
  path : CString
  deriving DecidableEq

/-- `*read_end >= 'A' && *read_end <= 'Z'`. -/
def inMethod (c : UInt8) : Bool := c ≥ 65 && c ≤ 90

/-- `*read_end != '\0' && *read_end != ' ' && *read_end != '\n'`. -/
def inPath (c : UInt8) : Bool := c ≠ 0 && c ≠ Ascii.space && c ≠ Ascii.lf

/-- `*read_end != '\0' && *read_end != '\n'`. -/
def inLine (c : UInt8) : Bool := c ≠ 0 && c ≠ Ascii.lf

/-- `http_request_parse`. -/
def httpRequestParse (readBuffer : ReadBuffer) : Parse HttpRequest := do
  let b := readBuffer.bytes
  let readEnd ← scan b 0 inMethod
  if readEnd = 0 then .reject
  else
    let method : CString := .read (slice b 0 readEnd)
    if (← charAt b readEnd) ≠ Ascii.space then .reject
    else
      let readStart := readEnd + 1
      let readEnd ← scan b readStart inPath
      if readEnd - readStart = 0 then .reject
      else
        let path : CString := .read (slice b readStart readEnd)
        let readEnd ← scan b readEnd inLine
        if (← charAt b readEnd) ≠ Ascii.lf then .reject
        else return ⟨method, path⟩

/-- The grammar in the comments of `http_request_parse`: `[A-Z]*` and `[^ \n]*`, neither empty, with a space in between, and the
rest of the line. -/
structure RequestLine (b method path line rest : List UInt8) : Prop where
  /-- They follow each other. -/
  eq : b = method ++ Ascii.space :: (path ++ (line ++ Ascii.lf :: rest))
  /-- The method is not empty. -/
  method_ne : method ≠ []
  /-- The method. -/
  method : ∀ c ∈ method, inMethod c
  /-- The path is not empty. -/
  path_ne : path ≠ []
  /-- The path. -/
  path : ∀ c ∈ path, inPath c
  /-- The rest of the line. -/
  line : ∀ c ∈ line, inLine c

section

variable {readBuffer : ReadBuffer} {b method path line rest : List UInt8}

theorem takeWhile_append_eq {f : UInt8 → Bool} {l m : List UInt8} (hl : ∀ c ∈ l, f c) (hm : ∀ c ∈ m.head?, f c = false) :
    (l ++ m).takeWhile f = l := by
  rw [List.takeWhile_append_of_pos hl]
  cases m with
  | nil => simp
  | cons c m => simp [hm c rfl]

/-- A class that the terminator is not in has none of it. -/
theorem notMem_of_inMethod (h : ∀ c ∈ method, inMethod c) : 0 ∉ method := fun h0 => absurd (h 0 h0) (by decide)

theorem notMem_of_inPath (h : ∀ c ∈ path, inPath c) : 0 ∉ path := fun h0 => absurd (h 0 h0) (by decide)

/-- In a request line whose path goes on as long as it can, method and path are the runs that the buffer begins with. -/
theorem RequestLine.runs (h : RequestLine b method path line rest) (hmax : ∀ c ∈ line.head?, inPath c = false) :
    b.takeWhile inMethod = method ∧ (b.drop (method.length + 1)).takeWhile inPath = path := by
  rw [h.eq]
  constructor
  · refine takeWhile_append_eq h.method fun c hc => ?_
    obtain rfl := Option.some.inj hc
    rfl
  · rw [← List.drop_drop, List.drop_left]
    refine takeWhile_append_eq h.path fun c hc => ?_
    cases line with
    | nil =>
      obtain rfl := Option.some.inj hc
      rfl
    | cons d line => exact hmax c hc

/-- **What becomes of a request line**, if the path goes on as long as it can. -/
theorem httpRequestParse_line (h : RequestLine readBuffer.bytes method path line rest)
    (hmax : ∀ c ∈ line.head?, inPath c = false) : httpRequestParse readBuffer = .ok ⟨.read method, .read path⟩ := by
  obtain ⟨hmethodRun, hpathRun⟩ := h.runs hmax
  have hstart : Rest readBuffer.bytes 0 (method ++ Ascii.space :: (path ++ (line ++ Ascii.lf :: rest))) := .of_eq h.eq
  have hspace := hstart.advance
  have hmethod : scan readBuffer.bytes 0 inMethod = .ok (0 + method.length) := by
    rw [(Rest.start _).scan_eq rfl, hmethodRun]
  have hpath : scan readBuffer.bytes (0 + method.length + 1) inPath = .ok (0 + method.length + 1 + path.length) := by
    rw [hspace.next.scan_eq rfl, ← hspace.next.drop, Nat.zero_add, hpathRun]
  have hend := hspace.next.advance
  have hline : scan readBuffer.bytes (0 + method.length + 1 + path.length) inLine =
      .ok (0 + method.length + 1 + path.length + line.length) := by
    rw [hend.scan_eq rfl, takeWhile_append_eq h.line fun c hc => ?_]
    obtain rfl := Option.some.inj hc
    rfl
  have hm := List.length_pos_iff.mpr h.method_ne
  have hp := List.length_pos_iff.mpr h.path_ne
  have hm' : 0 + method.length ≠ 0 := by omega
  have hp' : 0 + method.length + 1 + path.length - (0 + method.length + 1) ≠ 0 := by omega
  simp only [httpRequestParse, hmethod, Parse.ok_bind, if_neg hm', hspace.charAt_cons, ne_eq, not_true_eq_false, if_false, hpath,
    if_neg hp', hline, hend.advance.charAt_cons, hstart.slice, hspace.next.slice]
  rfl

/-- What `http_request_parse` comes to. -/
theorem httpRequestParse_cases (readBuffer : ReadBuffer) : httpRequestParse readBuffer = .reject ∨
    ∃ method path line rest, RequestLine readBuffer.bytes method path line rest ∧ ∀ c ∈ line.head?, inPath c = false := by
  obtain ⟨b, -⟩ := readBuffer
  obtain ⟨method, s, rfl, hmethod, -, hscan⟩ := (Rest.start b).scan_cases (f := inMethod) rfl
  have hstart := Rest.start (method ++ s)
  simp only [httpRequestParse, hscan, Parse.ok_bind]
  by_cases hm : 0 + method.length = 0
  · exact .inl (if_pos hm)
  rw [if_neg hm]
  rcases hstart.advance.charAt_cases with hnul | ⟨c, s, rfl, hc⟩
  · left
    rw [hnul]
    rfl
  by_cases hspace : c = Ascii.space
  case neg =>
    left
    rw [hc]
    exact if_pos hspace
  subst hspace
  simp only [hc, Parse.ok_bind, ne_eq, not_true_eq_false, if_false]
  obtain ⟨path, s, rfl, hpath, hmax, hscan⟩ := hstart.advance.next.scan_cases (f := inPath) rfl
  simp only [hscan, Parse.ok_bind]
  by_cases hp : 0 + method.length + 1 + path.length - (0 + method.length + 1) = 0
  · exact .inl (if_pos hp)
  rw [if_neg hp]
  obtain ⟨line, s, rfl, hline, -, hscan⟩ := hstart.advance.next.advance.scan_cases (f := inLine) rfl
  simp only [hscan, Parse.ok_bind]
  rcases hstart.advance.next.advance.advance.charAt_cases with hnul | ⟨c, rest, rfl, hc⟩
  · left
    rw [hnul]
    rfl
  by_cases hlf : c = Ascii.lf
  case neg =>
    left
    rw [hc]
    exact if_pos hlf
  subst hlf
  right
  refine ⟨method, path, line, rest, ⟨rfl, ?_, hmethod, ?_, hpath, hline⟩, fun c hc => ?_⟩
  · rintro rfl
    exact hm rfl
  · rintro rfl
    exact hp (Nat.sub_self _)
  · exact hmax c (List.head?_append.trans (by rw [Option.mem_def.mp hc]; rfl))

/-- In a request line the path may go on, into what follows. -/
theorem RequestLine.maximal (h : RequestLine b method path line rest) :
    ∃ path line, RequestLine b method path line rest ∧ ∀ c ∈ line.head?, inPath c = false := by
  refine ⟨path ++ line.takeWhile inPath, line.dropWhile inPath, ⟨?_, h.method_ne, h.method, ?_, ?_, ?_⟩, ?_⟩
  · rw [List.append_assoc, ← List.append_assoc (line.takeWhile inPath), List.takeWhile_append_dropWhile]
    exact h.eq
  · exact List.append_ne_nil_of_left_ne_nil h.path_ne _
  · rintro c hc
    rcases List.mem_append.mp hc with hc | hc
    · exact h.path c hc
    · exact List.mem_takeWhile_imp hc
  · exact fun c hc => h.line c ((List.dropWhile_suffix inPath).subset hc)
  · intro c hc
    have hnot := List.head?_dropWhile_not inPath line
    rw [Option.mem_def.mp hc] at hnot
    simpa using hnot

/-- **The grammar of requests**: `http_request_parse` never looks outside the buffer; it returns a request exactly if the buffer
starts with a request line, and then the method is all the letters that the buffer starts with, and the path is all that
can be in a path from behind the space on. -/
theorem httpRequestParse_iff (readBuffer : ReadBuffer) :
    httpRequestParse readBuffer ≠ .fault ∧
      ((∃ request, httpRequestParse readBuffer = .ok request) ↔
        ∃ method path line rest, RequestLine readBuffer.bytes method path line rest) ∧
      ∀ request, httpRequestParse readBuffer = .ok request →
        request.method.bytes = readBuffer.bytes.takeWhile inMethod ∧
          request.path.bytes = (readBuffer.bytes.drop (request.method.bytes.length + 1)).takeWhile inPath := by
  rcases httpRequestParse_cases readBuffer with hreject | ⟨method, path, line, rest, h, hmax⟩
  · refine ⟨by simp [hreject], ?_, fun request hok => ?_⟩
    · constructor
      · rintro ⟨request, hok⟩
        rw [hreject] at hok
        cases hok
      · rintro ⟨method, path, line, rest, h⟩
        obtain ⟨path, line, h, hmax⟩ := h.maximal
        exact ⟨_, httpRequestParse_line h hmax⟩
    · rw [hreject] at hok
      cases hok
  · have hok := httpRequestParse_line h hmax
    refine ⟨by simp [hok], iff_of_true ⟨_, hok⟩ ⟨_, _, _, _, h⟩, fun request hrequest => ?_⟩
    obtain rfl := Parse.ok.inj (hok.symm.trans hrequest)
    obtain ⟨hmethod, hpath⟩ := h.runs hmax
    rw [CString.read_bytes (notMem_of_inMethod h.method), CString.read_bytes (notMem_of_inPath h.path)]
    exact ⟨hmethod.symm, hpath.symm⟩

end

example : httpRequestParse ⟨lit "GET /a HTTP/1.0\r\n", by decide⟩ = .ok ⟨.ofString "GET", .ofString "/a"⟩ := by decide

example : httpRequestParse ⟨lit "GET  /a HTTP/1.0\r\n", by decide⟩ = .reject := by decide

end Cs162Hw.Httpserver
