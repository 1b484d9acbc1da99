import Cs162Hw.Library.Directory
import Cs162Hw.Library.Program
import Cs162Hw.Kv.Message

/-!
# The store of a follower

`hw4/src/kvstore.c`. A store is a directory of entry files named
`hash(key)-chainpos.entry`: the keys with one hash form a chain with positions
`0, 1, 2, …`. A lookup walks the chain until `stat` fails, an insertion writes over
the entry it found or at the first free position, and a deletion moves the last
entry of the chain into the hole.

The functions that only look at the directory are functions of it. `kvstore_put` and
`kvstore_del` are programs (`Library.Program`) whose operations are the calls that
change the directory: writing one entry file (`fopen` with `"w"`, `fwrite`,
`fclose`), one `remove` and one `rename`. Each first calls `find_entry`, which takes
the read lock for itself, and then works under the write lock; the second part is a
definition of its own (`kvstorePutAt`, `kvstoreDelAt`).

File-system calls succeed here, and the directory made by `kvstore_init` stays where
it is, so the `stat` of the directory itself never fails. The counters, `int` and
`unsigned int` in the source, are natural numbers.
-/

namespace Cs162Hw.Kv

open Library
open Library.Program (read perform)

/-- `kventry_t`, with the bytes that follow it. -/
structure KvEntry where
  /-- The number of bytes in `data`. -/
  length : ℕ
  /-- The key and the value, each with its terminator. -/
  data : List UInt8
  deriving DecidableEq

namespace KvEntry

/-- The entry `kvstore_put` builds. -/
def make (key value : CString) : KvEntry :=
  ⟨key.strlen + value.strlen + 2, key.stored ++ value.stored⟩

/-- `entry->data`, read as a string. -/
def key (entry : KvEntry) : CString := .read entry.data

/-- `entry->data + strlen(entry->data) + 1`, read as a string. -/
def value (entry : KvEntry) : CString := .read (entry.data.drop (entry.key.strlen + 1))

@[simp] theorem key_make (key value : CString) : (make key value).key = key :=
  CString.read_stored key value.stored

@[simp] theorem value_make (key value : CString) : (make key value).value = value := by
  have hdrop : (make key value).data.drop (key.strlen + 1) = value.stored := by
    simp only [make]
    rw [← CString.stored_length, List.drop_left]
  rw [KvEntry.value, key_make, hdrop]
  simpa using CString.read_stored value []

end KvEntry

/-- `kvstore_t`: the directory of entries. -/
@[ext]
structure KvStore where
  /-- The entry file of each hash and chain position. -/
  entries : Directory (UInt64 × ℕ) KvEntry

/-- The calls that change a store's directory. -/
inductive StoreOp where
  /-- Write one entry file. -/
  | writeEntry (name : UInt64 × ℕ) (entry : KvEntry)
  /-- `remove`. -/
  | removeEntry (name : UInt64 × ℕ)
  /-- `rename`. -/
  | renameEntry (src dst : UInt64 × ℕ)
  deriving DecidableEq

instance : Effect StoreOp KvStore where
  exec
    | .writeEntry name entry, store => ⟨store.entries.write name entry⟩
    | .removeEntry name, store => ⟨store.entries.remove name⟩
    | .renameEntry src dst, store => ⟨store.entries.rename src dst⟩

/-- The names along the chain of a hash. -/
def chain (hashval : UInt64) (chainpos : ℕ) : UInt64 × ℕ := (hashval, chainpos)

theorem chain_injective (hashval : UInt64) : Function.Injective (chain hashval) :=
  fun _ _ h => (Prod.mk.injEq ..).mp h |>.2

variable [StrHash]

/-- The loop of `find_entry`: the position of the key at or after `counter` in its
chain, and its value. -/
def findEntryFrom (store : KvStore) (hashval : UInt64) (key : CString) : ℕ → ℕ → Int × Option CString
  | 0, _ => (errNoKey, none)
  | fuel + 1, counter =>
    match store.entries.file (chain hashval counter) with
    | none => (errNoKey, none)
    | some entry =>
      if key = entry.key then (counter, some entry.value)
      else findEntryFrom store hashval key fuel (counter + 1)

/-- `find_entry`: where in its chain the key is, or a negative error code; and the value
it would store through `VALUE`. The chain is no longer than the directory has files. -/
def findEntry (store : KvStore) (key : CString) : Int × Option CString :=
  if key.strlen > maxKeylen then (errKeyLen, none)
  else findEntryFrom store (strhash64 key) key (store.entries.names.card + 1) 0

/-- `kvstore_haskey`. -/
def kvstoreHaskey (store : KvStore) (key : CString) : Bool := 0 ≤ (findEntry store key).1

/-- `kvstore_get`. -/
def kvstoreGet (store : KvStore) (key : CString) : Int × Option CString :=
  let (ret, value) := findEntry store key
  if ret < 0 then (ret, none) else (0, value)

omit [StrHash] in
/-- `kvstore_put_check`. -/
def kvstorePutCheck (key value : CString) : Int :=
  if key.strlen > maxKeylen then errKeyLen
  else if value.strlen > maxVallen then errValLen
  else 0

/-- `kvstore_del_check`. -/
def kvstoreDelCheck (store : KvStore) (key : CString) : Int :=
  if key.strlen > maxKeylen then errKeyLen
  else if !kvstoreHaskey store key then errNoKey
  else 0

/-- `kvstore_put` under the write lock, `find_entry` having returned `counter`. -/
def kvstorePutAt (key value : CString) (counter : Int) : Program StoreOp KvStore Int := do
  let store ← read
  let hashval := strhash64 key
  let pos := if counter ≥ 0 then counter.toNat else store.entries.firstFree (chain hashval) 0
  perform (.writeEntry (chain hashval pos) (.make key value))
  return 0

/-- `kvstore_put`. -/
def kvstorePut (key value : CString) : Program StoreOp KvStore Int := do
  let check := kvstorePutCheck key value
  if check < 0 then return check
  else
    let store ← read
    kvstorePutAt key value (findEntry store key).1

/-- `kvstore_del` under the write lock, `find_entry` having returned `chainpos`. -/
def kvstoreDelAt (key : CString) (chainpos : ℕ) : Program StoreOp KvStore Int := do
  let store ← read
  let hashval := strhash64 key
  let counter := store.entries.firstFree (chain hashval) (chainpos + 1)
  if counter = chainpos + 1 then
    perform (.removeEntry (chain hashval chainpos))
  else
    -- the last element of the chain goes into the hole
    perform (.renameEntry (chain hashval (counter - 1)) (chain hashval chainpos))
  return 0

/-- `kvstore_del`. -/
def kvstoreDel (key : CString) : Program StoreOp KvStore Int := do
  let store ← read
  let chainpos := (findEntry store key).1
  if chainpos < 0 then return chainpos
  else kvstoreDelAt key chainpos.toNat

end Cs162Hw.Kv
