import Mathlib.Data.Nat.Digits.Lemmas
import Cs162Hw.Library.CharArray
import Cs162Hw.Httpserver.Files

/-!
# The arrays of the file server

`handle_files_request` once more, with the arrays it puts its strings into: the path, which `concate` copies character by
character, in an array for `malloc`'s number of characters; the path of the `index.html`, twice; the length of a file; and a
link, one `strcat` after the other. Nothing is checked, so that each array has to be large enough for whatever is asked for.

* `concateInto_eq`: what `concate` leaves in an array that has room.
* `linkInto_eq`: the array of a link. For the parent directory there is not a character to spare.
* **`handleFilesRequestIn_eq`**: the handler with its arrays does what the handler of strings does; so that what `Files` and
  `Answers` say of that one is true of this.
-/

namespace Cs162Hw.Httpserver

open Library Kv

/-! ## `concate` -/

/-- The string in an array. -/
def stringIn (a : CharArray) : Option CString := a.text.map .read

/-- `s[i]`, up to the terminator. -/
def charOf (s : CString) (i : ℕ) : UInt8 := s.bytes.getD i 0

/-- The loops of `concate`: so many more turns, `newPath[j] = f(i)`, and one more for `i` and `j`. -/
def copyLoop (f : ℕ → UInt8) : ℕ → ℕ → ℕ → CharArray → Option CharArray
  | 0, _, _, newPath => some newPath
  | left + 1, i, j, newPath => do
    let newPath ← newPath.set j (f i)
    copyLoop f left (i + 1) (j + 1) newPath

/-- `concate`. The last character of an empty path is not one of the path's. -/
def concateInto (serverPath clientPath : CString) (newPath : CharArray) : Option CharArray := do
  let c ← serverPath.bytes.getLast?
  let newPath ← newPath.strcpy serverPath.bytes
  let j ← newPath.strlen
  if c = Ascii.slash then
    copyLoop (fun i => if i ≠ clientPath.strlen - 1 then charOf clientPath (i + 1) else 0) clientPath.strlen 0 j newPath
  else
    copyLoop (fun i => if i ≠ clientPath.strlen then charOf clientPath i else 0) (clientPath.strlen + 1) 0 j newPath

/-! ## The functions -/

/-- `has_a_index`. -/
def hasAIndexIn (fs : FileSystem) (path : CString) (fileSize : Int32) : Option (Bool × Int32) := do
  let newPath := CharArray.zeroed (path.strlen + 12 + 1)
  let newPath ← concateInto path (.ofString "/index.html") newPath
  let newPath ← stringIn newPath
  let (id, fileSize) := isADir fs newPath fileSize
  some (id = 0, fileSize)

/-- `tmp` of `read_dir_print`. -/
def linkInto (name : CString) : Option CString := do
  let parent : CString := .ofString ".."
  let linkName := if name = parent then .ofString "Parent directory" else name
  let tmp := CharArray.zeroed (2 * name.strlen + 38)
  let tmp ← tmp.strcpy (lit "<p><a href=\"")
  let tmp ← tmp.strcat name.bytes
  let tmp ← tmp.strcat (if name = parent then lit "/\">" else lit "\">")
  let tmp ← tmp.strcat linkName.bytes
  let tmp ← tmp.strcat (lit "</a></p>")
  stringIn tmp

/-- The loop of `read_dir_print`. -/
def linkLoopIn (writes : Writes) : List CString → Socket → Option Socket
  | [], s => some s
  | name :: names, s =>
    if name = .ofString "." then linkLoopIn writes names s
    else do
      let tmp ← linkInto name
      let s ← httpSendString writes s tmp
      linkLoopIn writes names s

/-- `read_dir_print`. -/
def readDirPrintIn (fs : FileSystem) (writes : Writes) (path : CString) (s : Socket) : Option Socket := do
  let s ← httpSendString writes s (.ofString "<center><h1>links are:</h1><hr>")
  match fs path with
  | some (.directory (some names)) =>
    let s ← linkLoopIn writes names s
    httpSendString writes s (.ofString "</center>")
  | _ => none

/-- The response with a file, its size printed into `file_size_tmp`. -/
def sendFileIn (fs : FileSystem) (writes : Writes) (path : CString) (fileSize : Int32) (s : Socket) : Option Socket := do
  let fileSizeTmp ← (CharArray.uninit 288).strcpy (formatInt fileSize).bytes
  let fileSizeTmp ← stringIn fileSizeTmp
  let s := httpStartResponse s 200
  let s := httpSendHeader s (.ofString "Content-type") (httpGetMimeType path)
  let s := httpSendHeader s (.ofString "Content-length") fileSizeTmp
  let s := httpEndHeaders s
  readFromAFilePrint fs writes path s

/-- `handle_files_request`. It takes for granted that the request can be parsed. -/
def handleFilesRequestIn (fs : FileSystem) (serverFilesDirectory : CString) (writes : Writes) (readBuffer : ReadBuffer) :
    Option Socket :=
  match httpRequestParse readBuffer with
  | .ok request => do
    let newPath := CharArray.uninit (request.path.strlen + serverFilesDirectory.strlen + 1)
    let newPath ← concateInto serverFilesDirectory request.path newPath
    let newPath ← stringIn newPath
    if request.method = .ofString "GET" then
      let (id, fileSize) := isADir fs newPath 0
      if id = 0 then sendFileIn fs writes newPath fileSize .start
      else if id = 1 then do
        let (hasIndex, fileSize) ← hasAIndexIn fs newPath fileSize
        if hasIndex then do
          let updatedPath := CharArray.uninit (newPath.strlen + 12 + 4)
          let updatedPath ← concateInto newPath (.ofString "/index.html") updatedPath
          let updatedPath ← stringIn updatedPath
          sendFileIn fs writes updatedPath fileSize .start
        else readDirPrintIn fs writes newPath (startHtml .start 200)
      else
        httpSendString writes (startHtml .start 404)
          (.ofString "<center><h1>404 ERROR!</h1><hr><p>Nothing's here yet.</p></center>")
    else some .start
  | _ => none

/-! ## What is in the arrays -/

section

variable {serverPath clientPath path : CString} {newPath a : CharArray} {s : CString}

theorem stringIn_eq (h : a.Holds s.bytes) : stringIn a = some s := by
  rw [stringIn, h.text s.nul, Option.map_some, CString.read_self]

/-- A loop of `concate` writes what `f` gives, one behind the other. -/
theorem copyLoop_eq (f : ℕ → UInt8) (left i j : ℕ) (newPath : CharArray) :
    copyLoop f left i j newPath = newPath.write j ((List.range' i left).map f) := by
  induction left generalizing i j newPath with
  | zero => rfl
  | succ left ih =>
    rw [copyLoop, List.range'_succ, List.map_cons, CharArray.write]
    exact congrArg _ (funext fun newPath => ih ..)

/-- The characters of a string from `k` on, and behind the last of them the terminator. -/
theorem map_charOf (s : CString) {k : ℕ} (hk : k ≤ s.strlen) :
    (List.range' 0 (s.strlen + 1 - k)).map (fun i => if i ≠ s.strlen - k then charOf s (i + k) else 0) = s.bytes.drop k ++ [0] := by
  have hlen : s.bytes.length = s.strlen := rfl
  refine List.ext_getElem ?_ fun i hi hi' => ?_
  · simp only [List.length_map, List.length_range', List.length_append, List.length_drop, List.length_singleton]
    omega
  · simp only [List.length_map, List.length_range'] at hi
    rw [List.getElem_map, List.getElem_range', Nat.zero_add, Nat.one_mul]
    by_cases hlast : i = s.strlen - k
    · subst hlast
      rw [if_neg (not_not.mpr rfl), List.getElem_append_right (by simp; omega)]
      simp [hlen]
    · rw [if_pos hlast, List.getElem_append_left (by simp; omega), List.getElem_drop, charOf, List.getD_eq_getElem?_getD,
        List.getElem?_eq_getElem (by omega), Option.getD_some]
      congr 1
      exact Nat.add_comm i k

/-- What `concate` needs room for. -/
def concateSize (serverPath clientPath : CString) : ℕ :=
  if serverPath.bytes.getLast? = some Ascii.slash then serverPath.strlen + max 1 clientPath.strlen
  else serverPath.strlen + clientPath.strlen + 1

theorem concateSize_le (serverPath clientPath : CString) :
    concateSize serverPath clientPath ≤ serverPath.strlen + clientPath.strlen + 1 := by
  rw [concateSize]
  split_ifs <;> omega

/-- **What `concate` leaves** in an array that has room. -/
theorem concateInto_eq (hconcate : concate serverPath clientPath = some path)
    (hroom : concateSize serverPath clientPath ≤ newPath.size) :
    ∃ a, concateInto serverPath clientPath newPath = some a ∧ a.Holds path.bytes := by
  have hserver : serverPath.bytes.length = serverPath.strlen := rfl
  have hclient : clientPath.bytes.length = clientPath.strlen := rfl
  rw [concate] at hconcate
  rw [concateSize] at hroom
  cases hlast : serverPath.bytes.getLast? with
  | none =>
    rw [hlast] at hconcate
    cases hconcate
  | some c =>
    obtain ⟨a, hcopy, hholds, hsize⟩ := @CharArray.strcpy_holds newPath serverPath.bytes (by split_ifs at hroom <;> omega)
    simp only [hlast, Option.some.injEq] at hconcate hroom
    simp only [concateInto, hlast, Option.bind_eq_bind, Option.bind_some, hcopy, hholds.strlen serverPath.nul]
    by_cases hslash : c = Ascii.slash
    · rw [if_pos hslash] at hconcate hroom ⊢
      rw [copyLoop_eq, ← Option.some.inj hconcate]
      rcases Nat.eq_zero_or_pos clientPath.strlen with hempty | hpos
      · -- an empty path: the loop does nothing, and the terminator is there already
        have hbytes : clientPath.bytes = [] := List.length_eq_zero_iff.mp hempty
        refine ⟨a, by rw [hempty]; rfl, ?_⟩
        simpa only [append, hbytes, List.drop_nil, List.append_nil] using hholds
      · have hchars := map_charOf clientPath hpos
        rw [Nat.add_sub_cancel] at hchars
        rw [hchars]
        obtain ⟨a', hwrite, hholds', -⟩ := hholds.write (t := clientPath.bytes.drop 1) (by rw [List.length_drop]; omega)
        exact ⟨a', hwrite, hholds'⟩
    · rw [if_neg hslash] at hconcate hroom ⊢
      have hchars := map_charOf clientPath (Nat.zero_le _)
      simp only [Nat.sub_zero, Nat.add_zero, List.drop_zero] at hchars
      rw [copyLoop_eq, ← Option.some.inj hconcate, hchars]
      obtain ⟨a', hwrite, hholds', -⟩ := hholds.write (t := clientPath.bytes) (by omega)
      exact ⟨a', hwrite, hholds'⟩

theorem concateInto_none (hconcate : concate serverPath clientPath = none) : concateInto serverPath clientPath newPath = none := by
  rw [concate] at hconcate
  rw [concateInto]
  cases hlast : serverPath.bytes.getLast? with
  | none => rfl
  | some c =>
    rw [hlast] at hconcate
    dsimp only at hconcate
    split_ifs at hconcate

/-- With its array, as a string. -/
theorem concateInto_bind (h : serverPath.strlen + clientPath.strlen + 1 ≤ newPath.size) :
    (concateInto serverPath clientPath newPath).bind stringIn = concate serverPath clientPath := by
  cases hconcate : concate serverPath clientPath with
  | none => rw [concateInto_none hconcate, Option.bind_none]
  | some path =>
    obtain ⟨a, hinto, hholds⟩ := concateInto_eq hconcate ((concateSize_le ..).trans h)
    rw [hinto, Option.bind_some, stringIn_eq hholds]

/-! ## Links -/

theorem strlen_append (s t : CString) : (append s t).strlen = s.strlen + t.strlen := List.length_append

/-- Strings that are put behind each other with `strcat`. -/
theorem strcat_append {s t : CString} (h : a.Holds s.bytes) (hroom : s.strlen + t.strlen + 1 ≤ a.size) :
    ∃ a', a.strcat t.bytes = some a' ∧ a'.Holds (append s t).bytes ∧ a'.size = a.size := h.strcat s.nul hroom

/-- **The array of a link** is large enough, whatever the name is. -/
theorem linkInto_eq (name : CString) : linkInto name = some (linkLine name) := by
  set quote : CString := if name = .ofString ".." then .ofString "/\">" else .ofString "\">" with hquote
  set linkName : CString := if name = .ofString ".." then .ofString "Parent directory" else name with hlinkName
  have hroom : quote.strlen + linkName.strlen + 21 ≤ name.strlen + 38 := by
    rw [hquote, hlinkName]
    by_cases hparent : name = .ofString ".."
    · -- `..` and its text fill the array
      rw [if_pos hparent, if_pos hparent, hparent]
      decide
    · rw [if_neg hparent, if_neg hparent]
      have htwo : (CString.ofString "\">").strlen = 2 := by decide
      omega
  have hhead : (CString.ofString "<p><a href=\"").strlen = 12 := by decide
  have htail : (CString.ofString "</a></p>").strlen = 8 := by decide
  obtain ⟨a₁, h₁, hholds₁, hsize₁⟩ := @CharArray.strcpy_holds (.zeroed (2 * name.strlen + 38))
    (CString.ofString "<p><a href=\"").bytes
    (by rw [CharArray.size_zeroed]; exact le_trans (by decide) (Nat.le_add_left 38 _))
  rw [CharArray.size_zeroed] at hsize₁
  obtain ⟨a₂, h₂, hholds₂, hsize₂⟩ := @strcat_append a₁ _ name hholds₁ (by omega)
  obtain ⟨a₃, h₃, hholds₃, hsize₃⟩ := @strcat_append a₂ _ quote hholds₂ (by rw [strlen_append]; omega)
  obtain ⟨a₄, h₄, hholds₄, hsize₄⟩ := @strcat_append a₃ _ linkName hholds₃ (by rw [strlen_append, strlen_append]; omega)
  obtain ⟨a₅, h₅, hholds₅, -⟩ := @strcat_append a₄ _ (.ofString "</a></p>") hholds₄
    (by rw [strlen_append, strlen_append, strlen_append]; omega)
  have hbytes : (if name = .ofString ".." then lit "/\">" else lit "\">") = quote.bytes := by
    rw [hquote]
    split_ifs <;> rfl
  have htext := stringIn_eq hholds₅
  rw [linkInto]
  simp only [hbytes, ← hlinkName]
  erw [h₁]
  simp only [Option.bind_eq_bind, Option.bind_some, h₂, h₃, h₄]
  erw [h₅]
  exact htext

/-! ## The handler -/

variable {fs : FileSystem} {writes : Writes}

/-- A number of ten digits at most and a sign. -/
theorem strlen_formatInt (n : Int32) : (formatInt n).strlen ≤ 11 := by
  have hdigits : ∀ k, k < 10 ^ 10 → (decimal k).strlen ≤ 10 := by
    intro k hk
    by_cases hzero : k = 0
    · subst hzero
      exact (by decide : (1 : ℕ) ≤ 10)
    · have hlen : (decimal k).strlen = (Nat.digits 10 k).length := by
        simp [CString.strlen, decimal, hzero]
      rw [hlen]
      exact (Nat.digits_length_le_iff (by decide) k).mpr hk
  have hlt := n.toInt_lt
  have hle := n.le_toInt
  rw [formatInt]
  split_ifs
  · rw [strlen_append]
    have hsign : (CString.ofString "-").strlen = 1 := by decide
    have := hdigits (-n.toInt).toNat (by omega)
    omega
  · exact (hdigits _ (by omega)).trans (by decide)

/-- The size of a file fits its array. -/
theorem sendFileIn_eq (path : CString) (fileSize : Int32) (s : Socket) :
    sendFileIn fs writes path fileSize s = sendFile fs writes path fileSize s := by
  obtain ⟨a, hcopy, hholds, -⟩ := @CharArray.strcpy_holds (.uninit 288) (formatInt fileSize).bytes
    (by rw [CharArray.size_uninit]; exact (Nat.succ_le_succ (strlen_formatInt fileSize)).trans (by decide))
  rw [sendFileIn, hcopy, Option.bind_eq_bind, Option.bind_some, stringIn_eq hholds]
  rfl

/-- A path of an `index.html` fits its array. -/
theorem concateInto_index {path : CString} {newPath : CharArray}
    (h : newPath.size = path.strlen + 12 + 1 ∨ newPath.size = path.strlen + 12 + 4) :
    (concateInto path (.ofString "/index.html") newPath).bind stringIn = concate path (.ofString "/index.html") := by
  have hindex : (CString.ofString "/index.html").strlen = 11 := by decide
  refine concateInto_bind ?_
  rw [hindex]
  omega

theorem hasAIndexIn_eq (path : CString) (fileSize : Int32) : hasAIndexIn fs path fileSize = hasAIndex fs path fileSize := by
  rw [hasAIndexIn, hasAIndex, ← concateInto_index (.inl (CharArray.size_zeroed _))]
  simp only [Option.bind_eq_bind, Option.bind_assoc]

theorem linkLoopIn_eq (names : List CString) (s : Socket) : linkLoopIn writes names s = linkLoop writes names s := by
  induction names generalizing s with
  | nil => rfl
  | cons name names ih =>
    rw [linkLoopIn, linkLoop]
    split_ifs
    · exact ih s
    · rw [linkInto_eq, Option.bind_eq_bind, Option.bind_some]
      exact congrArg _ (funext ih)

theorem readDirPrintIn_eq (path : CString) (s : Socket) : readDirPrintIn fs writes path s = readDirPrint fs writes path s := by
  have hloop : linkLoopIn writes = linkLoop writes := funext fun names => funext (linkLoopIn_eq names)
  rw [readDirPrintIn, hloop]
  rfl

/-- **Every string fits.** For any files, any directory that is served, any request and whatever `write` does, the handler with
its arrays does what the handler of strings does. Wherever that one gets to its end, then, no array is written or read behind
its end, nor read where nothing has been written. -/
theorem handleFilesRequestIn_eq (fs : FileSystem) (serverFilesDirectory : CString) (writes : Writes) (readBuffer : ReadBuffer) :
    handleFilesRequestIn fs serverFilesDirectory writes readBuffer =
      handleFilesRequest fs serverFilesDirectory writes readBuffer := by
  rw [handleFilesRequestIn, handleFilesRequest]
  cases httpRequestParse readBuffer with
  | ok request =>
    have hpath := @concateInto_bind serverFilesDirectory request.path
      (.uninit (request.path.strlen + serverFilesDirectory.strlen + 1)) (by rw [CharArray.size_uninit]; omega)
    have hindex : ∀ newPath, (concateInto newPath (.ofString "/index.html") (.uninit (newPath.strlen + 12 + 4))).bind stringIn =
        concate newPath (.ofString "/index.html") := fun _ => concateInto_index (.inr (CharArray.size_uninit _))
    simp only [Option.bind_eq_bind, sendFileIn_eq, hasAIndexIn_eq, readDirPrintIn_eq, ← hpath, ← hindex, Option.bind_assoc]
  | _ => rfl

end

end Cs162Hw.Httpserver
