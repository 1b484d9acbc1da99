import Mathlib.Data.UInt
import Cs162Hw.Library.Buffer
import Cs162Hw.Kv.Message

/-!
# URLs

`hw4/src/liburl.c`: `url_decode` takes a URL apart into its path and the parameters `key` and `val`,
`url_encode` puts one together. Nothing is escaped. The array in which `url_encode` works has room for the
URL here.

* **`urlDecode_eq`**: `url_decode` returns, for every URL. What it returns is read off the pieces between
  the `&`, one after the other (`UrlParams.assign`), although its loop looks for the next `=` and the next
  `&` independently.
* **`urlDecode_urlEncode`**: decoding what was encoded, for any path without a `?` and any key and value
  without a `&`.
-/

namespace Cs162Hw.Kv

open Library

/-! ## The functions -/

/-- `struct url_params`. -/
structure UrlParams where
  /-- The path, or `NULL`. -/
  path : Option CString
  /-- The parameter `key`, or `NULL`. -/
  key : Option CString
  /-- The parameter `val`, or `NULL`. -/
  val : Option CString
  deriving DecidableEq

/-- The parameters there are fields for. -/
inductive Param where
  | key | val
  deriving DecidableEq

/-- `*struct_param_ptr = value`. -/
def UrlParams.store (params : UrlParams) : Param → CString → UrlParams
  | .key, value => { params with key := some value }
  | .val, value => { params with val := some value }

/-- `param_ptr`: the field for the name of `keylen` characters at position `key`. -/
def paramPtr (b : List UInt8) (key keylen : ℕ) : Parse (Option Param) := do
  if ← strneq b key (lit "key") keylen then return some .key
  else if ← strneq b key (lit "val") keylen then return some .val
  else return none

/-- The loop of `url_decode`. -/
def urlDecodeFrom (b : List UInt8) : ℕ → ℕ → ℕ → UrlParams → Parse UrlParams
  | 0, _, _, _ => .fault
  | fuel + 1, url, readEnd, params => do
    if (← charAt b readEnd) = 0 then return params
    else
      match ← strchr b url Ascii.equals with
      | none => return params
      | some keyEnd => do
        let readEnd := (← strchr b url Ascii.ampersand).getD (url + (← strAt b url).length)
        match ← paramPtr b url (keyEnd - url) with
        | none =>
          if (← charAt b url) = 0 then return params
          else urlDecodeFrom b fuel (readEnd + 1) readEnd params
        | some param =>
          -- the block of `read_end - key_end` bytes has room for the value and its terminator
          if readEnd ≤ keyEnd then .fault
          else
            urlDecodeFrom b fuel (readEnd + 1) readEnd
              (params.store param (.read (slice b (keyEnd + 1) readEnd)))

/-- `url_decode`. A URL has fewer `&` than characters. -/
def urlDecode (url : CString) : Parse UrlParams := do
  let b := url.bytes
  match ← strchr b 0 Ascii.question with
  | none => return ⟨if url.strlen > 1 then some (.read (b.drop 1)) else none, none, none⟩
  | some readEnd =>
    -- the path must have more characters than just '/'
    let path := if readEnd > 1 then some (.read (slice b 1 readEnd)) else none
    urlDecodeFrom b (b.length + 2) (readEnd + 1) readEnd ⟨path, none, none⟩

/-- What `url_encode` prints. -/
def urlBuf (params : UrlParams) : List UInt8 :=
  (match params.path with
    | some path => Ascii.slash :: path.bytes ++ [Ascii.question]
    | none => lit "/?") ++
  (match params.key with
    | some key => lit "key=" ++ key.bytes ++ [Ascii.ampersand]
    | none => []) ++
  (match params.val with
    | some val => lit "val=" ++ val.bytes ++ [Ascii.ampersand]
    | none => [])

/-- `url_encode`: the last character printed is overwritten by the terminator. -/
def urlEncode (params : UrlParams) : CString := .read (urlBuf params).dropLast

/-! ## What `url_decode` returns -/

/-- The field a name is taken for. -/
def Param.named (name : List UInt8) : Option Param :=
  if name <+: lit "key" then some .key else if name <+: lit "val" then some .val else none

/-- What the text between two `&` does to the parameters. -/
def UrlParams.assign (params : UrlParams) (piece : List UInt8) : UrlParams :=
  let name := piece.takeWhile (· ≠ Ascii.equals)
  match piece.drop name.length with
  | [] => params
  | _ :: value => (Param.named name).elim params fun param => params.store param (.read value)

variable {b name piece s t value : List UInt8} {params : UrlParams} {url : ℕ}

theorem takeWhile_ne {c : UInt8} (hw : c ∉ name) : (name ++ c :: t).takeWhile (· ≠ c) = name := by
  have hall : ∀ d ∈ name, decide (d ≠ c) = true := by
    intro d hd
    have hne : d ≠ c := by rintro rfl; exact hw hd
    simpa using hne
  rw [List.takeWhile_append_of_pos hall]
  simp

theorem takeWhile_ne_of_notMem {c : UInt8} (hs : c ∉ s) : s.takeWhile (· ≠ c) = s :=
  List.takeWhile_eq_self_iff.mpr fun d hd => by
    have hne : d ≠ c := by rintro rfl; exact hs hd
    simpa using hne

/-- A piece without a `=` does nothing. -/
theorem UrlParams.assign_of_notMem (h : Ascii.equals ∉ piece) : params.assign piece = params := by
  rw [assign, takeWhile_ne_of_notMem h]
  simp only [List.drop_length]

/-- Any other piece is a name and a value. -/
theorem UrlParams.assign_append (h : Ascii.equals ∉ name) : params.assign (name ++ Ascii.equals :: value) =
    (Param.named name).elim params fun param => params.store param (.read value) := by
  rw [assign, takeWhile_ne h]
  simp only [List.drop_left]

theorem Param.notMem_of_named {param : Param} (h : Param.named name = some param) : Ascii.ampersand ∉ name := by
  unfold Param.named at h
  split_ifs at h with hkey hval
  · exact fun hmem => absurd (hkey.subset hmem) (by decide)
  · exact fun hmem => absurd (hval.subset hmem) (by decide)

theorem paramPtr_eq (h : Rest b url (name ++ t)) (h0 : 0 ∉ name) : paramPtr b url name.length = .ok (Param.named name) := by
  have hname : ∀ l : List UInt8, strneq b url l name.length = .ok (decide (name <+: l)) := by
    intro l
    rw [h.strneq, untilNul_append h0, List.take_left]
    simp only [← List.prefix_iff_eq_take]
  simp only [paramPtr, hname, Parse.ok_bind, Param.named, decide_eq_true_eq, Parse.pure_eq]
  split_ifs <;> rfl

/-- The pieces between the separators hold no separator, and nothing that the text does not hold. -/
theorem mem_splitOn {c : UInt8} (h : piece ∈ s.splitOn c) : c ∉ piece ∧ piece ⊆ s := by
  induction hn : s.length using Nat.strong_induction_on generalizing s with
  | _ n ih =>
    by_cases hc : c ∈ s
    · obtain ⟨first, rest, rfl, hfirst⟩ := List.eq_append_cons_of_mem hc
      rw [List.splitOn_append_cons_self_of_not_mem hfirst] at h
      rcases List.mem_cons.mp h with rfl | h
      · exact ⟨hfirst, List.subset_append_left _ _⟩
      · obtain ⟨hmem, hsub⟩ := ih rest.length (by simp at hn; omega) h rfl
        exact ⟨hmem, fun d hd => List.mem_append_right _ (List.mem_cons_of_mem _ (hsub hd))⟩
    · rw [List.splitOn_eq_singleton hc, List.mem_singleton] at h
      exact ⟨h.symm ▸ hc, h.symm ▸ List.Subset.refl _⟩

/-- Without a `=` no piece does anything. -/
theorem foldl_assign_of_notMem (h : Ascii.equals ∉ s) :
    (s.splitOn Ascii.ampersand).foldl UrlParams.assign params = params := by
  have hpieces : ∀ l : List (List UInt8), (∀ piece ∈ l, Ascii.equals ∉ piece) → l.foldl UrlParams.assign params = params := by
    intro l
    induction l with
    | nil => exact fun _ => rfl
    | cons piece l ih =>
      intro hl
      rw [List.foldl_cons, UrlParams.assign_of_notMem (hl _ List.mem_cons_self)]
      exact ih fun p hp => hl p (List.mem_cons_of_mem _ hp)
  exact hpieces _ fun piece hp hmem => h ((mem_splitOn hp).2 hmem)

/-- The text from `url` on begins with a piece, which ends where the loop finds the next `&` or the end. -/
structure Piece (b : List UInt8) (url : ℕ) (s piece : List UInt8) (more : List (List UInt8)) : Prop where
  /-- It is the first, of all those to come. -/
  split : s.splitOn Ascii.ampersand = piece :: more
  /-- The loop finds its end. -/
  found : ∃ e, strchr b url Ascii.ampersand = .ok e ∧ e.getD (url + s.length) = url + piece.length
  /-- Either it is the last, or there is a text behind it. -/
  next : more = [] ∧ s = piece ∨ ∃ rest, more = rest.splitOn Ascii.ampersand ∧ s = piece ++ Ascii.ampersand :: rest

theorem Piece.exists (h : Rest b url s) (h0 : 0 ∉ s) : ∃ piece more, Piece b url s piece more := by
  by_cases hamp : Ascii.ampersand ∈ s
  · obtain ⟨piece, rest, rfl, hpiece⟩ := List.eq_append_cons_of_mem hamp
    have hfound := h.strchr_eq hpiece (fun hmem => h0 (List.mem_append_left _ hmem)) (by decide)
    refine ⟨piece, rest.splitOn Ascii.ampersand, List.splitOn_append_cons_self_of_not_mem hpiece rest, ⟨_, hfound, rfl⟩,
      Or.inr ⟨rest, rfl, rfl⟩⟩
  · refine ⟨s, [], List.splitOn_eq_singleton hamp, ⟨none, ?_, rfl⟩, Or.inl ⟨rfl, rfl⟩⟩
    exact h.strchr_eq_none (by rwa [untilNul_eq_self h0])

/-- The first `=` of a text lies in its first piece, or behind a `&`. -/
theorem piece_cases {rest : List UInt8} (h : name ++ Ascii.equals :: t = piece ++ Ascii.ampersand :: rest)
    (hname : Ascii.equals ∉ name) :
    (∃ value, piece = name ++ Ascii.equals :: value) ∨ Ascii.equals ∉ piece ∧ Ascii.ampersand ∈ name := by
  rcases List.append_eq_append_iff.mp h with ⟨as, rfl, has⟩ | ⟨bs, rfl, hbs⟩
  · left
    cases as with
    | nil => exact absurd (List.cons.inj has).1 (by decide)
    | cons c as =>
      obtain ⟨rfl, -⟩ := List.cons.inj has
      exact ⟨as, rfl⟩
  · right
    refine ⟨fun hmem => hname (List.mem_append_left _ hmem), List.mem_append_right _ ?_⟩
    cases bs with
    | nil => exact absurd (List.cons.inj hbs).1 (by decide)
    | cons c bs =>
      obtain ⟨rfl, -⟩ := List.cons.inj hbs
      exact List.mem_cons_self

theorem Piece.cases {more : List (List UInt8)} (hp : Piece b url (name ++ Ascii.equals :: t) piece more)
    (hname : Ascii.equals ∉ name) :
    (∃ value, piece = name ++ Ascii.equals :: value) ∨ Ascii.equals ∉ piece ∧ Ascii.ampersand ∈ name := by
  rcases hp.next with ⟨-, hs⟩ | ⟨rest, -, hs⟩
  · exact Or.inl ⟨t, hs.symm⟩
  · exact piece_cases hs hname

/-- The value of a piece is copied. -/
theorem Piece.slice {more : List (List UInt8)} (hp : Piece b url s (name ++ Ascii.equals :: value) more) (h : Rest b url s) :
    slice b (url + name.length + 1) (url + (name ++ Ascii.equals :: value).length) = value := by
  have hvalue : ∃ rest, Rest b (url + name.length + 1) (value ++ rest) := by
    rcases hp.next with ⟨-, rfl⟩ | ⟨rest, -, rfl⟩
    · exact ⟨[], by rw [List.append_nil]; exact h.advance.next⟩
    · rw [List.append_assoc] at h
      exact ⟨Ascii.ampersand :: rest, h.advance.next⟩
  obtain ⟨rest, hrest⟩ := hvalue
  have hposition : url + (name ++ Ascii.equals :: value).length = url + name.length + 1 + value.length := by
    simp only [List.length_append, List.length_cons]
    omega
  rw [hposition, hrest.slice]

/-- One pass of the loop does what the first piece does; `hcont` is what the next passes make of any parameters. -/
theorem urlDecodeFrom_pass {fuel readEnd : ℕ} {c : UInt8} {more : List (List UInt8)} (h : Rest b url (name ++ Ascii.equals :: t))
    (h0 : 0 ∉ name ++ Ascii.equals :: t) (hname : Ascii.equals ∉ name) (hc : charAt b readEnd = .ok c) (hne : c ≠ 0)
    (hp : Piece b url (name ++ Ascii.equals :: t) piece more)
    (hcont : ∀ params', urlDecodeFrom b fuel (url + piece.length + 1) (url + piece.length) params' =
      .ok (more.foldl UrlParams.assign params')) :
    urlDecodeFrom b (fuel + 1) url readEnd params = .ok (more.foldl UrlParams.assign (params.assign piece)) := by
  have hname0 : 0 ∉ name := fun hmem => h0 (List.mem_append_left _ hmem)
  obtain ⟨e, he, hreadEnd⟩ := hp.found
  rw [urlDecodeFrom, hc]
  simp only [Parse.ok_bind, if_neg hne, h.strchr_eq hname hname0 (by decide), Nat.add_sub_cancel_left, paramPtr_eq h hname0,
    he, h.strAt, untilNul_eq_self h0, hreadEnd]
  cases hnamed : Param.named name with
  | none =>
    have hassign : params.assign piece = params := by
      rcases hp.cases hname with ⟨value, rfl⟩ | ⟨hpiece, -⟩
      · rw [UrlParams.assign_append hname, hnamed]
        rfl
      · exact UrlParams.assign_of_notMem hpiece
    have hchar : ∃ d, charAt b url = .ok d ∧ d ≠ 0 := by
      cases name with
      | nil => exact ⟨_, h.charAt_cons, by decide⟩
      | cons d name => exact ⟨d, Rest.charAt_cons h, fun hd => hname0 (hd ▸ List.mem_cons_self)⟩
    obtain ⟨d, hd, hd0⟩ := hchar
    simp only [hd, Parse.ok_bind, if_neg hd0, hcont, hassign]
  | some param =>
    obtain ⟨value, rfl⟩ := (hp.cases hname).resolve_right fun hamp => Param.notMem_of_named hnamed hamp.2
    have hlt : ¬ url + (name ++ Ascii.equals :: value).length ≤ url + name.length := by
      simp only [List.length_append, List.length_cons]
      omega
    simp only [if_neg hlt, hcont, hp.slice h, UrlParams.assign_append hname, hnamed]
    rfl

/-- **The loop reads off the pieces.** `url` is just behind the `?` or a `&`. -/
theorem urlDecodeFrom_eq (hb : 0 ∉ b) {fuel readEnd : ℕ} {c : UInt8} (h : Rest b url s) (hc : charAt b readEnd = .ok c)
    (hne : c ≠ 0) (hfuel : s.length + 2 ≤ fuel) :
    urlDecodeFrom b fuel url readEnd params = .ok ((s.splitOn Ascii.ampersand).foldl UrlParams.assign params) := by
  induction fuel generalizing url s params readEnd c with
  | zero => omega
  | succ fuel ih =>
    have h0 : 0 ∉ s := fun hmem => hb (List.mem_of_mem_drop (h.drop ▸ hmem))
    by_cases heq : Ascii.equals ∈ s
    · obtain ⟨name, t, rfl, hname⟩ := List.eq_append_cons_of_mem heq
      obtain ⟨piece, more, hpiece⟩ := Piece.exists h h0
      rw [hpiece.split, List.foldl_cons]
      refine urlDecodeFrom_pass h h0 hname hc hne hpiece fun params' => ?_
      rcases hpiece.next with ⟨rfl, hs⟩ | ⟨rest, rfl, hs⟩
      · obtain ⟨fuel, rfl⟩ := Nat.exists_eq_succ_of_ne_zero (n := fuel) (by simp at hfuel; omega)
        rw [urlDecodeFrom, ← hs, h.length, Rest.charAt_end]
        rfl
      · rw [hs] at h hfuel
        have hlen : rest.length + 2 ≤ fuel := by simp at hfuel; omega
        exact ih h.advance.next h.advance.charAt_cons (by decide) hlen
    · rw [urlDecodeFrom, hc, foldl_assign_of_notMem heq]
      simp only [Parse.ok_bind, if_neg hne, h.strchr_eq_none (by rwa [untilNul_eq_self h0])]
      rfl

/-- The path before the parameters. -/
def pathOf (text : List UInt8) : Option CString := if text.length > 1 then some (.read text.tail) else none

/-- What `url_decode` returns. -/
def decoded (url : List UInt8) : UrlParams :=
  let text := url.takeWhile (· ≠ Ascii.question)
  ((url.drop (text.length + 1)).splitOn Ascii.ampersand).foldl UrlParams.assign ⟨pathOf text, none, none⟩

/-- **`url_decode` returns**, and this. -/
theorem urlDecode_eq (url : CString) : urlDecode url = .ok (decoded url.bytes) := by
  have hstart := Rest.start url.bytes
  by_cases hq : Ascii.question ∈ url.bytes
  · obtain ⟨text, query, hurl, htext⟩ := List.eq_append_cons_of_mem hq
    have hnul : 0 ∉ text ++ Ascii.question :: query := hurl ▸ url.nul
    have htake : url.bytes.takeWhile (· ≠ Ascii.question) = text := by rw [hurl, takeWhile_ne htext]
    rw [hurl] at hstart
    have hrest : Rest url.bytes text.length (Ascii.question :: query) := by
      have := hstart.advance
      rwa [← hurl, Nat.zero_add] at this
    have hfind := hstart.strchr_eq htext (fun hmem => hnul (List.mem_append_left _ hmem)) (by decide)
    rw [← hurl, Nat.zero_add] at hfind
    have hpath : (if text.length > 1 then some (CString.read (slice url.bytes 1 text.length)) else none) = pathOf text := by
      unfold pathOf
      split_ifs with hlen
      · rw [hurl, slice, List.drop_append_of_le_length (by omega), List.take_append_of_le_length (by simp),
          List.drop_one, List.take_of_length_le (by simp)]
      · rfl
    have hlen := hrest.next.length
    unfold urlDecode
    simp only [hfind, Parse.ok_bind, hpath]
    rw [urlDecodeFrom_eq url.nul hrest.next hrest.charAt_cons (by decide) (by omega), decoded, htake, ← hrest.next.drop]
  · have hfind := hstart.strchr_eq_none (c := Ascii.question) (by rwa [untilNul_eq_self url.nul])
    have htake := takeWhile_ne_of_notMem hq
    have hdrop : url.bytes.drop (url.bytes.length + 1) = [] := List.drop_eq_nil_of_le (by omega)
    unfold urlDecode
    simp only [hfind, Parse.ok_bind, decoded, htake, hdrop, List.splitOn_nil, List.foldl_cons, List.foldl_nil,
      UrlParams.assign_of_notMem (List.not_mem_nil), List.drop_one]
    rfl

/-- Key and value are parts of the text, without a `&`. -/
def UrlParams.Within (params : UrlParams) (text : List UInt8) : Prop :=
  ∀ s : CString, params.key = some s ∨ params.val = some s → Ascii.ampersand ∉ s.bytes ∧ s.bytes ⊆ text

theorem UrlParams.Within.store {text : List UInt8} (h : params.Within text) (param : Param) {s : CString}
    (hamp : Ascii.ampersand ∉ s.bytes) (hsub : s.bytes ⊆ text) : (params.store param s).Within text := by
  intro s' hs'
  cases param with
  | key =>
    rcases hs' with hs' | hs'
    · exact Option.some.inj hs' ▸ ⟨hamp, hsub⟩
    · exact h s' (Or.inr hs')
  | val =>
    rcases hs' with hs' | hs'
    · exact h s' (Or.inl hs')
    · exact Option.some.inj hs' ▸ ⟨hamp, hsub⟩

theorem UrlParams.Within.assign {text : List UInt8} (h : params.Within text) (hamp : Ascii.ampersand ∉ piece)
    (hsub : piece ⊆ text) : (params.assign piece).Within text := by
  by_cases heq : Ascii.equals ∈ piece
  · obtain ⟨name, value, rfl, hname⟩ := List.eq_append_cons_of_mem heq
    rw [assign_append hname]
    cases Param.named name with
    | none => exact h
    | some param =>
      have hread : (CString.read value).bytes ⊆ name ++ Ascii.equals :: value :=
        fun c hc => List.mem_append_right _ (List.mem_cons_of_mem _ ((List.takeWhile_prefix _).subset hc))
      exact h.store param (fun hmem => hamp (hread hmem)) fun c hc => hsub (hread hc)
  · rwa [assign_of_notMem heq]

/-- What `url_decode` returns is part of the URL. -/
theorem decoded_within (url : List UInt8) : (decoded url).Within url := by
  have hfold : ∀ (l : List (List UInt8)) (params : UrlParams), (∀ piece ∈ l, Ascii.ampersand ∉ piece ∧ piece ⊆ url) →
      params.Within url → (l.foldl UrlParams.assign params).Within url := by
    intro l
    induction l with
    | nil => exact fun _ _ h => h
    | cons piece l ih =>
      intro params hl h
      obtain ⟨hamp, hsub⟩ := hl piece List.mem_cons_self
      exact ih _ (fun p hp => hl p (List.mem_cons_of_mem _ hp)) (h.assign hamp hsub)
  refine hfold _ _ (fun piece hp => ⟨(mem_splitOn hp).1, fun c hc => List.drop_subset _ _ ((mem_splitOn hp).2 hc)⟩) ?_
  rintro s (hs | hs) <;> cases hs

/-! ## Decoding what was encoded -/

theorem decoded_query {text query : List UInt8} (h : Ascii.question ∉ text) : decoded (text ++ Ascii.question :: query) =
    (query.splitOn Ascii.ampersand).foldl UrlParams.assign ⟨pathOf text, none, none⟩ := by
  have hdrop : (text ++ Ascii.question :: query).drop (text.length + 1) = query := by
    rw [← List.drop_drop, List.drop_left]
    rfl
  simp only [decoded, takeWhile_ne h, hdrop]

theorem decoded_text {text : List UInt8} (h : Ascii.question ∉ text) : decoded text = ⟨pathOf text, none, none⟩ := by
  have hdrop : text.drop (text.length + 1) = [] := List.drop_eq_nil_of_le (by omega)
  simp only [decoded, takeWhile_ne_of_notMem h, hdrop, List.splitOn_nil, List.foldl_cons, List.foldl_nil,
    UrlParams.assign_of_notMem (List.not_mem_nil)]

theorem assign_key (params : UrlParams) (key : CString) :
    params.assign (lit "key=" ++ key.bytes) = { params with key := some key } := by
  have hname : lit "key=" = lit "key" ++ [Ascii.equals] := by decide
  have hnamed : Param.named (lit "key") = some .key := by decide
  rw [hname, List.append_assoc, List.singleton_append, UrlParams.assign_append (by decide), hnamed, CString.read_self]
  rfl

theorem assign_val (params : UrlParams) (val : CString) :
    params.assign (lit "val=" ++ val.bytes) = { params with val := some val } := by
  have hname : lit "val=" = lit "val" ++ [Ascii.equals] := by decide
  have hnamed : Param.named (lit "val") = some .val := by decide
  rw [hname, List.append_assoc, List.singleton_append, UrlParams.assign_append (by decide), hnamed, CString.read_self]
  rfl

/-- The parameters can be told apart in a URL: the path has a character and no `?`, and there is no `&` in the key
or the value. -/
structure UrlParams.Plain (params : UrlParams) : Prop where
  path : ∀ path ∈ params.path, path ≠ .empty ∧ Ascii.question ∉ path.bytes
  key : ∀ key ∈ params.key, Ascii.ampersand ∉ key.bytes
  val : ∀ val ∈ params.val, Ascii.ampersand ∉ val.bytes

/-- The path as `url_encode` prints it. -/
def pathText (path : Option CString) : List UInt8 := Ascii.slash :: (path.getD .empty).bytes

theorem pathOf_pathText {path : Option CString} (h : path ≠ some .empty) : pathOf (pathText path) = path := by
  cases path with
  | none => decide
  | some path =>
    have hlen : (pathText (some path)).length > 1 := by
      have hne : path.bytes ≠ [] := fun hnil => h (congrArg some (CString.ext hnil))
      have := List.length_pos_iff.mpr hne
      simp only [pathText, Option.getD_some, List.length_cons]
      omega
    rw [pathOf, if_pos hlen]
    exact congrArg some (CString.read_self path)

theorem urlBuf_eq (params : UrlParams) : urlBuf params = pathText params.path ++ Ascii.question ::
    ((params.key.elim [] fun key => lit "key=" ++ key.bytes ++ [Ascii.ampersand]) ++
      params.val.elim [] fun val => lit "val=" ++ val.bytes ++ [Ascii.ampersand]) := by
  obtain ⟨path, key, val⟩ := params
  cases path <;> cases key <;> cases val <;> simp [urlBuf, pathText, CString.empty] <;> rfl

/-- The characters of a URL. -/
theorem mem_urlBuf {params : UrlParams} {c : UInt8} (h : c ∈ urlBuf params) : c ∈ lit "/?key=val&" ∨
    (∃ path ∈ params.path, c ∈ path.bytes) ∨ (∃ key ∈ params.key, c ∈ key.bytes) ∨ ∃ val ∈ params.val, c ∈ val.bytes := by
  have hlit : ∀ text : List UInt8, text ⊆ lit "/?key=val&" → c ∈ text → c ∈ lit "/?key=val&" := fun _ hsub hc => hsub hc
  obtain ⟨path, key, val⟩ := params
  simp only [urlBuf, List.mem_append] at h
  rcases h with (h | h) | h
  · cases path with
    | none => exact Or.inl (hlit _ (by decide) h)
    | some path =>
      simp only [List.cons_append, List.mem_cons, List.mem_append, List.not_mem_nil, or_false] at h
      rcases h with rfl | h | rfl
      · exact Or.inl (by decide)
      · exact Or.inr (Or.inl ⟨path, rfl, h⟩)
      · exact Or.inl (by decide)
  · cases key with
    | none => cases h
    | some key =>
      simp only [List.mem_append, List.mem_singleton] at h
      rcases h with (h | h) | rfl
      · exact Or.inl (hlit _ (by decide) h)
      · exact Or.inr (Or.inr (Or.inl ⟨key, rfl, h⟩))
      · exact Or.inl (by decide)
  · cases val with
    | none => cases h
    | some val =>
      simp only [List.mem_append, List.mem_singleton] at h
      rcases h with (h | h) | rfl
      · exact Or.inl (hlit _ (by decide) h)
      · exact Or.inr (Or.inr (Or.inr ⟨val, rfl, h⟩))
      · exact Or.inl (by decide)

theorem urlEncode_bytes (params : UrlParams) : (urlEncode params).bytes = (urlBuf params).dropLast := by
  refine CString.read_bytes fun hmem => ?_
  rcases mem_urlBuf (List.dropLast_subset _ hmem) with h | ⟨s, -, h⟩ | ⟨s, -, h⟩ | ⟨s, -, h⟩
  · exact absurd h (by decide)
  · exact s.nul h
  · exact s.nul h
  · exact s.nul h

/-- **Decoding what was encoded.** -/
theorem urlDecode_urlEncode {params : UrlParams} (h : params.Plain) : urlDecode (urlEncode params) = .ok params := by
  have hpath : pathOf (pathText params.path) = params.path := pathOf_pathText fun heq => (h.path .empty heq).1 rfl
  have hq : Ascii.question ∉ pathText params.path := by
    intro hmem
    rcases List.mem_cons.mp hmem with hslash | hmem
    · exact absurd hslash (by decide)
    · cases hp : params.path with
      | none => rw [hp] at hmem; cases hmem
      | some path => rw [hp] at hmem; exact (h.path path hp).2 hmem
  have hkey : ∀ key ∈ params.key, Ascii.ampersand ∉ lit "key=" ++ key.bytes := fun key hkey hmem =>
    (List.mem_append.mp hmem).elim (by decide) (h.key key hkey)
  have hval : ∀ val ∈ params.val, Ascii.ampersand ∉ lit "val=" ++ val.bytes := fun val hval hmem =>
    (List.mem_append.mp hmem).elim (by decide) (h.val val hval)
  rw [urlDecode_eq, urlEncode_bytes, urlBuf_eq]
  obtain ⟨path, key, val⟩ := params
  simp only at hpath hq hkey hval ⊢
  have hlast : ∀ text query : List UInt8, (text ++ Ascii.question :: (query ++ [Ascii.ampersand])).dropLast =
      text ++ Ascii.question :: query := by
    intro text query
    rw [← List.cons_append, ← List.append_assoc, List.dropLast_concat]
  cases key with
  | none =>
    cases val with
    | none =>
      rw [Option.elim_none, Option.elim_none, List.append_nil, List.dropLast_concat, decoded_text hq, hpath]
    | some val =>
      rw [Option.elim_none, Option.elim_some, List.nil_append, hlast, decoded_query hq, hpath,
        List.splitOn_eq_singleton (hval val rfl), List.foldl_cons, List.foldl_nil, assign_val]
  | some key =>
    cases val with
    | none =>
      rw [Option.elim_none, Option.elim_some, List.append_nil, hlast, decoded_query hq, hpath,
        List.splitOn_eq_singleton (hkey key rfl), List.foldl_cons, List.foldl_nil, assign_key]
    | some val =>
      rw [Option.elim_some, Option.elim_some, ← List.append_assoc, hlast, decoded_query hq, hpath, List.append_assoc,
        List.singleton_append, List.splitOn_append_cons_self_of_not_mem (hkey key rfl),
        List.splitOn_eq_singleton (hval val rfl), List.foldl_cons, List.foldl_cons, List.foldl_nil, assign_key, assign_val]

end Cs162Hw.Kv
