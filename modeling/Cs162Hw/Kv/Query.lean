import Cs162Hw.Kv.Wire

/-!
# What a URL says, and what `url_decode` makes of it

A URL says of a parameter what the last piece with its name says: `urlMeaning`. `url_decode` compares the first
letters of a name only, as many as there are before the `=`, and so takes every beginning of `key` for `key`, the
empty name included, and every other beginning of `val` for `val`.

* **`urlDecode_exact`** — `url_decode` returns what the URL says exactly if no abbreviated name has the last word.
* **`urlDecode_safe`** — it returns whatever the URL is, and every pass of its loop stays inside the string. When the
  loop is left the variable `url` may point behind the terminator; nothing is read there, because the loop tests the
  character at `read_end`. The `=` may lie behind the `&`, but not where a value is copied: a name that holds a
  `&` is not the beginning of `key` or `val` (`Param.notMem_of_named`).
-/

namespace Cs162Hw.Kv

open Library

/-! ## What a URL says -/

/-- A piece with a `=` has a name and a value. -/
def pairOf (piece : List UInt8) : Option (List UInt8 × List UInt8) :=
  let name := piece.takeWhile (· ≠ Ascii.equals)
  match piece.drop name.length with
  | [] => none
  | _ :: value => some (name, value)

/-- The names and values behind the first `?` of a URL, in order. -/
def pairsOf (url : List UInt8) : List (List UInt8 × List UInt8) :=
  ((url.drop ((url.takeWhile (· ≠ Ascii.question)).length + 1)).splitOn Ascii.ampersand).filterMap pairOf

/-- The value of the last pair whose name passes the test. -/
def lastOf (test : List UInt8 → Bool) (pairs : List (List UInt8 × List UInt8)) : Option CString :=
  (pairs.reverse.find? fun pair => test pair.1).map fun pair => .read pair.2

/-- The name of a parameter. -/
def Param.text : Param → List UInt8
  | .key => lit "key"
  | .val => lit "val"

/-- The value of the last pair that has the name of the parameter. -/
def lastNamed (param : Param) (pairs : List (List UInt8 × List UInt8)) : Option CString :=
  lastOf (fun name => name = param.text) pairs

/-- The text between the first `/` and the first `?`, `NULL` if it is empty. -/
def pathMeaning (url : List UInt8) : Option CString :=
  match (url.takeWhile (· ≠ Ascii.question)).tail with
  | [] => none
  | path => some (.read path)

/-- What a URL says. -/
def urlMeaning (url : List UInt8) : UrlParams where
  path := pathMeaning url
  key := lastNamed .key (pairsOf url)
  val := lastNamed .val (pairsOf url)

/-! ## What `url_decode` reads off the pairs -/

section

variable {pairs : List (List UInt8 × List UInt8)} {test : List UInt8 → Bool}

theorem lastOf_concat (pair : List UInt8 × List UInt8) :
    lastOf test (pairs ++ [pair]) = if test pair.1 then some (.read pair.2) else lastOf test pairs := by
  simp only [lastOf, List.reverse_append, List.reverse_singleton, List.singleton_append, List.find?_cons]
  cases test pair.1 <;> rfl

/-- Where the last pair with such a name stands. -/
theorem lastOf_eq_some {value : CString} (h : lastOf test pairs = some value) :
    ∃ pre pair post, pairs = pre ++ pair :: post ∧ test pair.1 = true ∧ (∀ x ∈ post, test x.1 = false) ∧ value = .read pair.2 := by
  obtain ⟨pair, hfind, rfl⟩ := Option.map_eq_some_iff.mp h
  obtain ⟨htest, post, pre, hsplit, hpost⟩ := List.find?_eq_some_iff_append.mp hfind
  refine ⟨pre.reverse, pair, post.reverse, ?_, htest, fun x hx => ?_, rfl⟩
  · have := congrArg List.reverse hsplit
    simpa using this
  · simpa using hpost x (List.mem_reverse.mp hx)

theorem lastOf_of_last {pre post : List (List UInt8 × List UInt8)} {pair : List UInt8 × List UInt8} (htest : test pair.1 = true)
    (hpost : ∀ x ∈ post, test x.1 = false) : lastOf test (pre ++ pair :: post) = some (.read pair.2) := by
  have hnone : post.reverse.find? (fun x => test x.1) = none := by
    refine List.find?_eq_none.mpr fun x hx => ?_
    simp [hpost x (List.mem_reverse.mp hx)]
  simp [lastOf, hnone, htest]

theorem lastOf_eq_none : lastOf test pairs = none ↔ ∀ x ∈ pairs, test x.1 = false := by
  simp [lastOf]

end

/-- The field of a parameter. -/
def UrlParams.get (params : UrlParams) : Param → Option CString
  | .key => params.key
  | .val => params.val

theorem UrlParams.get_store (params : UrlParams) (param param' : Param) (value : CString) :
    (params.store param value).get param' = if param = param' then some value else params.get param' := by
  cases param <;> cases param' <;> rfl

theorem UrlParams.path_store (params : UrlParams) (param : Param) (value : CString) :
    (params.store param value).path = params.path := by
  cases param <;> rfl

/-- The value of the last pair whose name is taken for the name of the parameter. -/
def lastTaken (param : Param) (pairs : List (List UInt8 × List UInt8)) : Option CString :=
  lastOf (fun name => Param.named name = some param) pairs

/-- What a piece does, it does by its pair. -/
theorem assign_pairOf (params : UrlParams) (piece : List UInt8) : params.assign piece =
    ((pairOf piece).bind fun pair => (Param.named pair.1).map fun param => params.store param (.read pair.2)).getD params := by
  unfold UrlParams.assign pairOf
  generalize piece.takeWhile (· ≠ Ascii.equals) = name
  simp only
  cases piece.drop name.length with
  | nil => rfl
  | cons c value =>
    simp only [Option.bind_some]
    cases Param.named name <;> rfl

/-- The pieces together. -/
theorem foldl_assign (params : UrlParams) (pieces : List (List UInt8)) :
    (pieces.foldl UrlParams.assign params).path = params.path ∧ ∀ param,
      (pieces.foldl UrlParams.assign params).get param = (lastTaken param (pieces.filterMap pairOf)).or (params.get param) := by
  induction pieces using List.reverseRecOn with
  | nil => exact ⟨rfl, fun param => rfl⟩
  | append_singleton pieces piece ih =>
    obtain ⟨hpath, hget⟩ := ih
    rw [List.foldl_append, List.foldl_cons, List.foldl_nil, assign_pairOf, List.filterMap_append]
    cases hpair : pairOf piece with
    | none => simpa [hpair] using ⟨hpath, hget⟩
    | some pair =>
      rw [Option.bind_some, List.filterMap_cons, hpair, List.filterMap_nil]
      cases hnamed : Param.named pair.1 with
      | none =>
        refine ⟨hpath, fun param => ?_⟩
        rw [lastTaken, lastOf_concat, if_neg (by simp [hnamed])]
        exact hget param
      | some taken =>
        refine ⟨(UrlParams.path_store ..).trans hpath, fun param => ?_⟩
        rw [Option.map_some, Option.getD_some, UrlParams.get_store, lastTaken, lastOf_concat]
        by_cases heq : taken = param
        · simp [hnamed, heq]
        · rw [if_neg heq, if_neg (by simp [hnamed, heq])]
          exact hget param

/-- What `url_decode` returns, parameter by parameter. -/
theorem decoded_get (url : List UInt8) :
    (decoded url).path = pathMeaning url ∧ ∀ param, (decoded url).get param = lastTaken param (pairsOf url) := by
  obtain ⟨hpath, hget⟩ := foldl_assign ⟨pathOf (url.takeWhile (· ≠ Ascii.question)), none, none⟩
    ((url.drop ((url.takeWhile (· ≠ Ascii.question)).length + 1)).splitOn Ascii.ampersand)
  refine ⟨hpath.trans ?_, fun param => (hget param).trans ?_⟩
  · simp only [pathMeaning, pathOf]
    cases url.takeWhile (· ≠ Ascii.question) with
    | nil => rfl
    | cons c path => cases path <;> rfl
  · cases param <;> exact Option.or_none

/-! ## Names that are spelled out -/

/-- No abbreviated name has the last word: the last pair whose name is taken for a parameter has its full name, or
the value that the last pair with the full name has. -/
def SpelledOut (pairs : List (List UInt8 × List UInt8)) : Prop :=
  ∀ param pre pair post, pairs = pre ++ pair :: post → Param.named pair.1 = some param →
    (∀ x ∈ post, Param.named x.1 ≠ some param) → pair.1 = param.text ∨ lastNamed param pairs = some (.read pair.2)

theorem Param.named_text (param : Param) : Param.named param.text = some param := by cases param <;> decide

theorem lastTaken_eq_iff (pairs : List (List UInt8 × List UInt8)) :
    (∀ param, lastTaken param pairs = lastNamed param pairs) ↔ SpelledOut pairs := by
  constructor
  · rintro h param pre pair post rfl hnamed hpost
    right
    rw [← h param]
    exact lastOf_of_last (by simpa using hnamed) fun x hx => by simpa using hpost x hx
  · intro h param
    cases htaken : lastTaken param pairs with
    | none =>
      refine (lastOf_eq_none.mpr fun x hx => ?_).symm
      have := lastOf_eq_none.mp htaken x hx
      simp only [decide_eq_false_iff_not] at this ⊢
      exact fun heq => this (heq ▸ Param.named_text param)
    | some value =>
      obtain ⟨pre, pair, post, rfl, hnamed, hpost, rfl⟩ := lastOf_eq_some htaken
      have hnamed : Param.named pair.1 = some param := by simpa using hnamed
      have hpost : ∀ x ∈ post, Param.named x.1 ≠ some param := fun x hx => by simpa using hpost x hx
      rcases h param pre pair post rfl hnamed hpost with hfull | hvalue
      · refine (lastOf_of_last (by simpa using hfull) fun x hx => ?_).symm
        have := hpost x hx
        simp only [decide_eq_false_iff_not]
        exact fun heq => this (heq ▸ Param.named_text param)
      · exact hvalue.symm

/-- `url_decode` returns what the URL says, and `kvrequest_recieve` accepts a `PUT` of it only if it names a key and a
value. -/
def DecodesExactly (url : CString) : Prop :=
  urlDecode url = .ok (urlMeaning url.bytes) ∧
    ∀ pending req, httpRequestParse pending = .ok ⟨.ofString "PUT", url⟩ → kvrequestRecieve pending = .ok req →
      (urlMeaning url.bytes).key ≠ none ∧ (urlMeaning url.bytes).val ≠ none

/-- A `PUT` that is accepted has a key and a value. -/
theorem put_accepted {pending : List UInt8} {url : CString} {params : UrlParams} {req : KvRequest}
    (hparse : httpRequestParse pending = .ok ⟨.ofString "PUT", url⟩) (hdecode : urlDecode url = .ok params)
    (hreq : kvrequestRecieve pending = .ok req) : params.key ≠ none ∧ params.val ≠ none := by
  rw [kvrequestRecieve, hparse] at hreq
  simp only [Parse.ok_bind, hdecode] at hreq
  rw [if_neg (by decide), if_pos trivial] at hreq
  split_ifs at hreq with hnull
  exact not_or.mp hnull

/-- **`url_decode` returns what the URL says** exactly if no abbreviated name has the last word. -/
theorem urlDecode_exact (url : CString) : DecodesExactly url ↔ SpelledOut (pairsOf url.bytes) := by
  obtain ⟨hpath, hget⟩ := decoded_get url.bytes
  have hmeaning : decoded url.bytes = urlMeaning url.bytes ↔ SpelledOut (pairsOf url.bytes) := by
    rw [← lastTaken_eq_iff]
    constructor
    · intro h param
      rw [← hget param, h]
      cases param <;> rfl
    · intro h
      have hkey := (hget .key).trans (h .key)
      have hval := (hget .val).trans (h .val)
      revert hpath hkey hval
      rcases decoded url.bytes with ⟨path, key, val⟩
      rintro rfl rfl rfl
      rfl
  unfold DecodesExactly
  rw [urlDecode_eq, Parse.ok.injEq, hmeaning]
  refine and_iff_left_of_imp fun hspelled pending req hparse hreq => ?_
  rw [← hmeaning.mpr hspelled]
  exact put_accepted hparse (urlDecode_eq url) hreq

/-- The URL names neither a key nor a value, and `url_decode` finds both; a `PUT` of it is accepted. -/
theorem urlDecode_abbreviated :
    urlMeaning (CString.ofString "/?k=1&v=2").bytes = ⟨none, none, none⟩ ∧
      urlDecode (.ofString "/?k=1&v=2") = .ok ⟨none, some (.ofString "1"), some (.ofString "2")⟩ ∧
      kvrequestRecieve (lit "PUT /?k=1&v=2 ") = .ok ⟨.putReq, some (.ofString "1"), some (.ofString "2")⟩ ∧
      ¬ DecodesExactly (.ofString "/?k=1&v=2") := by
  have hmeaning : urlMeaning (CString.ofString "/?k=1&v=2").bytes = ⟨none, none, none⟩ := by decide +kernel
  have hdecode : urlDecode (.ofString "/?k=1&v=2") = .ok ⟨none, some (.ofString "1"), some (.ofString "2")⟩ := by decide +kernel
  refine ⟨hmeaning, hdecode, by decide +kernel, fun h => ?_⟩
  have := h.1
  rw [hmeaning, hdecode] at this
  exact absurd this (by decide)

/-! ## Inside the string -/

/-- The variables of the loop of `url_decode`. -/
structure UrlLoop where
  /-- `url`. -/
  url : ℕ
  /-- `read_end`. -/
  readEnd : ℕ
  /-- `*params`. -/
  params : UrlParams

namespace UrlLoop

/-- `read_end` after the search for the `&`. -/
def pieceEnd (b : List UInt8) (s : UrlLoop) : Parse ℕ := do
  return (← strchr b s.url Ascii.ampersand).getD (s.url + (← strAt b s.url).length)

/-- One pass of the loop: its variables after it, or nothing if the loop is left. -/
def pass (b : List UInt8) (s : UrlLoop) : Parse (Option UrlLoop) := do
  if (← charAt b s.readEnd) = 0 then return none
  else
    match ← strchr b s.url Ascii.equals with
    | none => return none
    | some keyEnd => do
      let readEnd ← s.pieceEnd b
      match ← paramPtr b s.url (keyEnd - s.url) with
      | none => if (← charAt b s.url) = 0 then return none else return some ⟨readEnd + 1, readEnd, s.params⟩
      | some param =>
        if readEnd ≤ keyEnd then .fault
        else return some ⟨readEnd + 1, readEnd, s.params.store param (.read (slice b (keyEnd + 1) readEnd))⟩

/-- The loop makes one pass after the other. -/
theorem urlDecodeFrom_succ (b : List UInt8) (fuel : ℕ) (s : UrlLoop) :
    urlDecodeFrom b (fuel + 1) s.url s.readEnd s.params = s.pass b >>= fun next =>
      match next with
      | none => .ok s.params
      | some t => urlDecodeFrom b fuel t.url t.readEnd t.params := by
  rw [urlDecodeFrom, pass, pieceEnd]
  simp only [Parse.bind_assoc]
  refine Parse.bind_congr fun c => ?_
  split_ifs
  · rfl
  simp only [Parse.bind_assoc]
  refine Parse.bind_congr fun equals => ?_
  rcases equals with _ | keyEnd
  · rfl
  simp only [Parse.bind_assoc]
  refine Parse.bind_congr fun e => Parse.bind_congr fun text => ?_
  simp only [Parse.ok_bind, Parse.pure_eq]
  refine Parse.bind_congr fun param => ?_
  rcases param with _ | param
  · simp only [Parse.bind_assoc]
    refine Parse.bind_congr fun c => ?_
    split_ifs <;> rfl
  · dsimp only
    split_ifs <;> rfl

/-- The loop gets to these values of its variables. -/
inductive Reached (url : CString) : UrlLoop → Prop
  /-- When it begins. -/
  | start {q : ℕ} (h : strchr url.bytes 0 Ascii.question = .ok (some q)) :
    Reached url ⟨q + 1, q, ⟨if q > 1 then some (.read (slice url.bytes 1 q)) else none, none, none⟩⟩
  /-- After a pass. -/
  | pass {s t : UrlLoop} (hs : Reached url s) (h : s.pass url.bytes = .ok (some t)) : Reached url t

/-- Where the loop looks at the string `b` in a pass from `s` on. -/
structure Inside (b : List UInt8) (s : UrlLoop) : Prop where
  /-- The character it tests is in the string, the terminator included. -/
  test : s.readEnd ≤ b.length
  /-- So is the place from which it searches, if it goes on. -/
  searches : charAt b s.readEnd ≠ .ok 0 → s.url ≤ b.length
  /-- The name it compares ends before a `=` of the string. -/
  compares : ∀ keyEnd, charAt b s.readEnd ≠ .ok 0 → strchr b s.url Ascii.equals = .ok (some keyEnd) →
    s.url ≤ keyEnd ∧ keyEnd < b.length
  /-- The piece ends at a place in the string. -/
  ends : charAt b s.readEnd ≠ .ok 0 → ∃ readEnd, s.pieceEnd b = .ok readEnd ∧ s.url ≤ readEnd ∧ readEnd ≤ b.length
  /-- Where a value is copied, the `=` comes before the end of the piece: there is room for the terminator. -/
  copies : ∀ keyEnd readEnd param, charAt b s.readEnd ≠ .ok 0 → strchr b s.url Ascii.equals = .ok (some keyEnd) →
    s.pieceEnd b = .ok readEnd → paramPtr b s.url (keyEnd - s.url) = .ok (some param) →
    keyEnd < readEnd ∧ (slice b (keyEnd + 1) readEnd).length = readEnd - keyEnd - 1
  /-- It does not look anywhere else. -/
  returns : ∃ next, s.pass b = .ok next

/-- Behind a character of the string there is a text. -/
theorem exists_rest {b : List UInt8} {p : ℕ} (h : p ≤ b.length) : ∃ s, Rest b p s :=
  ⟨b.drop p, b.take p, (List.take_append_drop p b).symm, List.length_take_of_le h⟩

/-- The search for the end of the piece. -/
theorem pieceEnd_eq {b text piece : List UInt8} {s : UrlLoop} {more : List (List UInt8)} (h : Rest b s.url text) (h0 : 0 ∉ text)
    (hp : Piece b s.url text piece more) : s.pieceEnd b = .ok (s.url + piece.length) := by
  obtain ⟨e, he, hend⟩ := hp.found
  simp only [pieceEnd, he, Parse.ok_bind, h.strAt, untilNul_eq_self h0, hend]
  rfl

theorem Piece.length_le {b text piece : List UInt8} {url : ℕ} {more : List (List UInt8)} (hp : Piece b url text piece more) :
    piece.length ≤ text.length := by
  rcases hp.next with ⟨-, rfl⟩ | ⟨rest, -, rfl⟩
  · exact le_rfl
  · simp

/-- A pass whose two variables stand next to each other stays inside the string. -/
theorem inside_of_next {b : List UInt8} (hb : 0 ∉ b) {s : UrlLoop} (hurl : s.url = s.readEnd + 1) (hle : s.readEnd ≤ b.length) :
    s.Inside b ∧ ∀ t, s.pass b = .ok (some t) → t.url = t.readEnd + 1 ∧ t.readEnd ≤ b.length := by
  rcases Nat.lt_or_eq_of_le hle with hlt | heq
  · have hle' : s.url ≤ b.length := by omega
    obtain ⟨text, htext⟩ := exists_rest hle'
    have h0 : 0 ∉ text := fun hmem => hb (List.mem_of_mem_drop (htext.drop ▸ hmem))
    obtain ⟨piece, more, hpiece⟩ := Piece.exists htext h0
    have hend := pieceEnd_eq htext h0 hpiece
    have hlen := htext.length
    have hplen := Piece.length_le hpiece
    obtain ⟨c, hc⟩ : ∃ c, charAt b s.readEnd = .ok c := ⟨_, if_pos hle⟩
    have hkey : ∀ {name t : List UInt8}, text = name ++ Ascii.equals :: t → Ascii.equals ∉ name →
        strchr b s.url Ascii.equals = .ok (some (s.url + name.length)) ∧
          paramPtr b s.url name.length = .ok (Param.named name) ∧ s.url + name.length < b.length := by
      rintro name t rfl hname
      have hname0 : 0 ∉ name := fun hmem => h0 (List.mem_append_left _ hmem)
      refine ⟨htext.strchr_eq hname hname0 (by decide), paramPtr_eq htext hname0, ?_⟩
      simp only [List.length_append, List.length_cons] at hlen
      omega
    have hcopy : ∀ {name t : List UInt8} {param : Param}, text = name ++ Ascii.equals :: t → Ascii.equals ∉ name →
        Param.named name = some param → s.url + name.length < s.url + piece.length := by
      rintro name t param rfl hname hnamed
      obtain ⟨value, rfl⟩ := (hpiece.cases hname).resolve_right fun hamp => Param.notMem_of_named hnamed hamp.2
      simp only [List.length_append, List.length_cons]
      omega
    have hfound : ∀ keyEnd, strchr b s.url Ascii.equals = .ok (some keyEnd) → ∃ name t, text = name ++ Ascii.equals :: t ∧
        Ascii.equals ∉ name ∧ keyEnd = s.url + name.length := by
      intro keyEnd hkeyEnd
      rcases htext.strchr_cases (c := Ascii.equals) (by decide) with hnone | ⟨name, t, ht, hname, -, hsome⟩
      · rw [hnone] at hkeyEnd
        cases hkeyEnd
      · rw [hsome] at hkeyEnd
        exact ⟨name, t, ht, hname, (Option.some.inj (Parse.ok.inj hkeyEnd)).symm⟩
    have hpass : ∃ next, s.pass b = .ok next ∧ ∀ t, next = some t → t.url = t.readEnd + 1 ∧ t.readEnd ≤ b.length := by
      rw [pass, hc]
      simp only [Parse.ok_bind]
      by_cases hc0 : c = 0
      · rw [if_pos hc0]
        exact ⟨none, rfl, fun t ht => by cases ht⟩
      rw [if_neg hc0]
      rcases htext.strchr_cases (c := Ascii.equals) (by decide) with hnone | ⟨name, t, ht, hname, hname0, -⟩
      · rw [hnone]
        exact ⟨none, rfl, fun t ht => by cases ht⟩
      obtain ⟨hfind, hparam, -⟩ := hkey ht hname
      rw [hfind, hend]
      simp only [Parse.ok_bind, Nat.add_sub_cancel_left, hparam]
      cases hnamed : Param.named name with
      | none =>
        obtain ⟨d, hd⟩ : ∃ d, charAt b s.url = .ok d := ⟨_, if_pos hle'⟩
        simp only [hd, Parse.ok_bind]
        split_ifs
        · exact ⟨none, rfl, fun t ht => by cases ht⟩
        · exact ⟨_, rfl, fun t ht => by rw [← Option.some.inj ht]; exact ⟨rfl, by simp only; omega⟩⟩
      | some param =>
        have hlt' := hcopy ht hname hnamed
        simp only
        rw [if_neg (by omega)]
        exact ⟨_, rfl, fun t ht => by rw [← Option.some.inj ht]; exact ⟨rfl, by simp only; omega⟩⟩
    obtain ⟨next, hnext, hgoes⟩ := hpass
    refine ⟨⟨hle, fun _ => hle', fun keyEnd _ hkeyEnd => ?_, fun _ => ⟨_, hend, by omega, by omega⟩,
      fun keyEnd readEnd param _ hkeyEnd hreadEnd hparam => ?_, next, hnext⟩, fun t ht => hgoes t ?_⟩
    · obtain ⟨name, t, ht, hname, rfl⟩ := hfound keyEnd hkeyEnd
      exact ⟨by omega, (hkey ht hname).2.2⟩
    · obtain ⟨name, t, ht, hname, rfl⟩ := hfound keyEnd hkeyEnd
      obtain rfl := Parse.ok.inj (hreadEnd.symm.trans hend)
      rw [Nat.add_sub_cancel_left, (hkey ht hname).2.1] at hparam
      have hlt' := hcopy ht hname (Parse.ok.inj hparam)
      refine ⟨hlt', ?_⟩
      rw [slice, List.length_take, List.length_drop]
      omega
    · exact Parse.ok.inj (hnext.symm.trans ht)
  · -- the terminator: the loop is left
    have hend : charAt b s.readEnd = .ok 0 := heq ▸ Rest.charAt_end b
    have hpass : s.pass b = .ok none := by
      rw [pass, hend]
      rfl
    exact ⟨⟨hle, fun h => absurd hend h, fun _ h => absurd hend h, fun h => absurd hend h, fun _ _ _ h => absurd hend h, _, hpass⟩,
      fun t ht => by rw [hpass] at ht; cases ht⟩

/-- The variables stand next to each other whenever the loop begins a pass. -/
theorem Reached.next {url : CString} {s : UrlLoop} (h : Reached url s) : s.url = s.readEnd + 1 ∧ s.readEnd ≤ url.bytes.length := by
  induction h with
  | start hq =>
    refine ⟨rfl, ?_⟩
    rcases (Rest.start url.bytes).strchr_cases (c := Ascii.question) (by decide) with hnone | ⟨w, t, ht, -, -, hsome⟩
    · rw [hnone] at hq
      cases hq
    · rw [hsome, Nat.zero_add] at hq
      rw [← Option.some.inj (Parse.ok.inj hq), ht]
      simp
  | pass _ hpass ih => exact (inside_of_next url.nul ih.1 ih.2).2 _ hpass

/-- The loop that goes on from there is the one of `url_decode`. -/
theorem Reached.left {url : CString} {s : UrlLoop} (h : Reached url s) :
    ∃ fuel, urlDecodeFrom url.bytes fuel s.url s.readEnd s.params = urlDecode url := by
  induction h with
  | start hq =>
    refine ⟨url.bytes.length + 2, ?_⟩
    rw [urlDecode]
    simp only [hq, Parse.ok_bind]
  | @pass s t _ hpass ih =>
    obtain ⟨fuel, hleft⟩ := ih
    cases fuel with
    | zero =>
      rw [urlDecode_eq] at hleft
      cases hleft
    | succ fuel =>
      rw [urlDecodeFrom_succ, hpass] at hleft
      exact ⟨fuel, hleft⟩

end UrlLoop

/-- **`url_decode` is safe**: whatever the URL is, it returns, and no pass of its loop leaves the string. What is left of the loop
when it begins a pass is what `url_decode` returns. -/
theorem urlDecode_safe (url : CString) :
    (∃ params, urlDecode url = .ok params) ∧
      ∀ s, UrlLoop.Reached url s →
        s.Inside url.bytes ∧ ∃ fuel, urlDecodeFrom url.bytes fuel s.url s.readEnd s.params = urlDecode url :=
  ⟨⟨_, urlDecode_eq url⟩, fun _ h => ⟨(UrlLoop.inside_of_next url.nul h.next.1 h.next.2).1, h.left⟩⟩

end Cs162Hw.Kv
