import Mathlib.Data.List.TakeWhile

/-!
# Constants and messages

`hw4/src/kvconstants.h` and the two records of `kvmessage.h`: C strings, message
types, the states of two-phase commit, error codes with their texts, requests and
responses.

A C string is the bytes before its terminating NUL, so it holds no NUL; reading
one out of a buffer (`CString.read`) stops at the first NUL. `strhash64` is MD5
cut to 64 bits; nothing about the servers depends on which function it is, so it
is a parameter, the class `StrHash`.
-/

namespace Cs162Hw.Kv

/-- A C string: the bytes before the terminating NUL. -/
structure CString where
  /-- The bytes. -/
  bytes : List UInt8
  /-- None of them is the terminator. -/
  nul : 0 ∉ bytes
  deriving DecidableEq

namespace CString

/-- `strlen`. -/
def strlen (s : CString) : ℕ := s.bytes.length

/-- The string that starts a buffer: everything before the first NUL. -/
def read (data : List UInt8) : CString where
  bytes := data.takeWhile (· ≠ 0)
  nul h := by simpa using List.mem_takeWhile_imp h

/-- The string as it lies in memory, with its terminator. -/
def stored (s : CString) : List UInt8 := s.bytes ++ [0]

/-- A string literal. -/
def ofString (s : String) : CString := read (s.toList.map fun c => UInt8.ofNat c.toNat)

/-- The empty string. -/
def empty : CString := ⟨[], by simp⟩

@[ext]
theorem ext {s t : CString} (h : s.bytes = t.bytes) : s = t := by
  cases s; cases t; simp_all

@[simp] theorem stored_length (s : CString) : s.stored.length = s.strlen + 1 := by simp [stored, strlen]

/-- Reading back a stored string stops at its own terminator. -/
@[simp] theorem read_stored (s : CString) (rest : List UInt8) : read (s.stored ++ rest) = s := by
  ext1
  have hall : ∀ b ∈ s.bytes, decide (b ≠ 0) = true := by
    intro b hb
    have hne : b ≠ 0 := by rintro rfl; exact s.nul hb
    simpa using hne
  simp only [read, stored, List.append_assoc]
  rw [List.takeWhile_append_of_pos hall]
  simp

/-- A buffer without a terminator is read to its end. -/
theorem read_bytes {data : List UInt8} (h : 0 ∉ data) : (read data).bytes = data :=
  List.takeWhile_eq_self_iff.mpr fun b hb => by
    have hne : b ≠ 0 := by rintro rfl; exact h hb
    simpa using hne

@[simp] theorem read_self (s : CString) : read s.bytes = s := by
  ext1
  exact read_bytes s.nul

end CString

/-- The characters of a string literal. -/
def lit (s : String) : List UInt8 := (CString.ofString s).bytes

namespace Ascii

/-- `'\n'`. -/
abbrev lf : UInt8 := 10

/-- `'\r'`. -/
abbrev cr : UInt8 := 13

/-- `' '`. -/
abbrev space : UInt8 := 32

/-- `'&'`. -/
abbrev ampersand : UInt8 := 38

/-- `'/'`. -/
abbrev slash : UInt8 := 47

/-- `':'`. -/
abbrev colon : UInt8 := 58

/-- `'='`. -/
abbrev equals : UInt8 := 61

/-- `'?'`. -/
abbrev question : UInt8 := 63

end Ascii

/-- The string hash, an arbitrary function of the string. -/
class StrHash where
  /-- `strhash64`. -/
  strhash64 : CString → UInt64

export StrHash (strhash64)

/-- What `strhash64` makes of the strings that occur in the examples. -/
@[reducible] def md5Sample : StrHash where
  strhash64 s :=
    if s = .ofString "a" then 0xa8b6f1c0b975c10c
    else if s = .ofString "8001:localhost" then 0x241da110c4e622e8
    else if s = .ofString "8002:localhost" then 0xff562d24e66a5fad
    else 0

/-- `MAX_KEYLEN`. -/
def maxKeylen : ℕ := 1024

/-- `MAX_VALLEN`. -/
def maxVallen : ℕ := 1024

/-- `msgtype_t`. -/
inductive MsgType where
  | index | getReq | putReq | delReq | register | commit | abort
  | getResp | success | error | vote | ack
  | empty
  deriving DecidableEq

/-- `tpc_state_t`. -/
inductive TpcState where
  | init | wait | ready | abort | commit
  deriving DecidableEq

/-! ### Error codes and texts -/

/-- `ERRKEYLEN`. -/
def errKeyLen : Int := -11

/-- `ERRVALLEN`. -/
def errValLen : Int := -12

/-- `ERRNOKEY`. -/
def errNoKey : Int := -13

/-- `ERRINVLDMSG`. -/
def errInvldMsg : Int := -14

/-- `ERRFILACCESS`. -/
def errFilAccess : Int := -17

/-- `MSG_COMMIT`. -/
def msgCommit : CString := .ofString "commit"

/-- `ERRMSG_NO_KEY`. -/
def errmsgNoKey : CString := .ofString "error: no key"

/-- `ERRMSG_KEY_LEN`. -/
def errmsgKeyLen : CString := .ofString "error: improper key length"

/-- `ERRMSG_VAL_LEN`. -/
def errmsgValLen : CString := .ofString "error: value too long"

/-- `ERRMSG_INVALID_REQUEST`. -/
def errmsgInvalidRequest : CString := .ofString "error: invalid request"

/-- `ERRMSG_NOT_AT_CAPACITY`. -/
def errmsgNotAtCapacity : CString := .ofString "error: follower_capacity not yet full"

/-- `ERRMSG_FOLLOWER_CAPACITY`. -/
def errmsgFollowerCapacity : CString := .ofString "error: follower capacity already full"

/-- `ERRMSG_GENERIC_ERROR`. -/
def errmsgGenericError : CString := .ofString "error: unable to process request"

/-- `GETMSG`: the text for an error code. -/
def getMsg (error : Int) : CString :=
  if error = errKeyLen then errmsgKeyLen
  else if error = errValLen then errmsgValLen
  else if error = errNoKey then errmsgNoKey
  else errmsgGenericError

/-- No error text can be taken for a vote to commit. -/
theorem getMsg_ne_msgCommit (error : Int) : getMsg error ≠ msgCommit := by
  unfold getMsg
  split_ifs <;> decide

/-! ### Requests and responses -/

/-- `kvrequest_t`. -/
structure KvRequest where
  /-- The type of the request. -/
  type : MsgType
  /-- The key, or `NULL`. -/
  key : Option CString
  /-- The value, or `NULL`. -/
  val : Option CString
  deriving DecidableEq

/-- `kvresponse_t`. -/
structure KvResponse where
  /-- The type of the response. -/
  type : MsgType
  /-- The body, or `NULL`. -/
  body : Option CString
  deriving DecidableEq

/-- `PUT a v`, in the examples. -/
def putA (v : String) : KvRequest := ⟨.putReq, some (.ofString "a"), some (.ofString v)⟩

/-- A response as `calloc` leaves it. -/
def KvResponse.blank : KvResponse := ⟨.index, none⟩

/-- `http_code_for_response_type`. -/
def httpCodeForResponseType : MsgType → Int
  | .getResp => 200
  | .success => 201
  | .error => 500
  | .vote => 202
  | .ack => 204
  | _ => -1

/-- `kvresponse_get_status_code`. -/
def kvresponseGetStatusCode (status : Int) : MsgType :=
  if status = 200 then .getResp
  else if status = 201 then .success
  else if status = 500 then .error
  else if status = 202 then .vote
  else if status = 204 then .ack
  else .empty

/-- What `kvresponse_recieve` makes of a response that `kvresponse_send` has sent; nothing if it sends
nothing. It writes no bytes for a `NULL` body, and `http_response_parse` always allocates one. -/
def KvResponse.received (res : KvResponse) : Option KvResponse :=
  let code := httpCodeForResponseType res.type
  if code < 0 then none
  else if kvresponseGetStatusCode code = .empty then none
  else some ⟨kvresponseGetStatusCode code, some (res.body.getD .empty)⟩

/-- A response that has a code arrives as it was sent. -/
theorem KvResponse.received_eq {res : KvResponse} (h : 0 ≤ httpCodeForResponseType res.type) :
    res.received = some ⟨res.type, some (res.body.getD .empty)⟩ := by
  obtain ⟨type, body⟩ := res
  cases type <;> first | rfl | simp [httpCodeForResponseType] at h

end Cs162Hw.Kv
