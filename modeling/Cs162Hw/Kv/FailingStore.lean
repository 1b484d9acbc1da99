import Mathlib.Data.Nat.Find
import Cs162Hw.Library.Run
import Cs162Hw.Kv.StoreMap

/-!
# A store whose calls fail

`kvstore_put` and `kvstore_del` of `hw4/src/kvstore.c`, when the calls they make may fail. An entry file whose
`fwrite` failed is there, and has not got what `find_entry` reads from it: such a file is damaged, and a lookup that comes to
it goes by what happened to be in memory.

* `KvStore.whole`: the store of `Store.lean`, none of its files damaged. With calls that succeed the functions do there
  what those of `Store.lean` do (`kvstorePutFailing_succeed`, `kvstoreDelFailing_succeed`).
* `FailingStore.visible` is the map that lookups see.
* **`failing_store_atomic`**: every call to the store does all of what it says it does, or nothing, exactly as long as no
  insertion is confused by an entry that cannot be opened or written, and no deletion by one that cannot be taken away.
-/

namespace Cs162Hw.Kv

open Library
open Library.Program (Performs)

/-! ## The functions, when their calls fail -/

/-- A store's directory; an entry file that is `none` is damaged. -/
@[ext]
structure FailingStore where
  /-- The entry file of each hash and chain position. -/
  entries : Directory (UInt64 × ℕ) (Option KvEntry)

/-- Which of the calls of one function fail. -/
structure StoreCalls where
  /-- `fopen` in `find_entry`, at each position of the chain. -/
  openRead : ℕ → Bool
  /-- `fopen` in `kvstore_put`. -/
  openWrite : Bool
  /-- `fwrite`. -/
  write : Bool
  /-- `remove`. -/
  remove : Bool
  /-- `rename`. -/
  rename : Bool
  /-- `errno`, after one that fails. -/
  errno : Int
  /-- It is positive. -/
  errno_pos : 0 < errno

/-- None does. -/
def StoreCalls.succeed : StoreCalls := ⟨fun _ => false, false, false, false, false, 1, by decide⟩

section

variable [StrHash] (calls : StoreCalls) (store : FailingStore)

omit [StrHash] in
/-- The loop of `find_entry`; nothing if it compares what was not read from a file. -/
def findEntryFailingFrom (hashval : UInt64) (key : CString) : ℕ → ℕ → Option (Int × Option CString)
  | 0, _ => some (errNoKey, none)
  | fuel + 1, counter =>
    match store.entries.file (chain hashval counter) with
    | none => some (errNoKey, none)
    | some file =>
      if calls.openRead counter then some (errFilAccess, none)
      else match file with
        | none => none
        | some entry =>
          if key = entry.key then some (counter, some entry.value)
          else findEntryFailingFrom hashval key fuel (counter + 1)

/-- `find_entry`. -/
def findEntryFailing (key : CString) : Option (Int × Option CString) :=
  if key.strlen > maxKeylen then some (errKeyLen, none)
  else findEntryFailingFrom calls store (strhash64 key) key (store.entries.names.card + 1) 0

/-- `kvstore_put`: what it returns, and the store after it. -/
def kvstorePutFailing (key value : CString) : Option (Int × FailingStore) := do
  let check := kvstorePutCheck key value
  if check < 0 then return (check, store)
  else
    let (counter, _) ← findEntryFailing calls store key
    let hashval := strhash64 key
    let pos := if counter ≥ 0 then counter.toNat else store.entries.firstFree (chain hashval) 0
    if calls.openWrite then return (errFilAccess, store)
    -- the file is there, and empty; what `fwrite` returns is not looked at
    else if calls.write then return (0, ⟨store.entries.write (chain hashval pos) none⟩)
    else return (0, ⟨store.entries.write (chain hashval pos) (some (.make key value))⟩)

/-- `kvstore_del`. -/
def kvstoreDelFailing (key : CString) : Option (Int × FailingStore) := do
  let (chainpos, _) ← findEntryFailing calls store key
  if chainpos < 0 then return (chainpos, store)
  else
    let chainpos := chainpos.toNat
    let hashval := strhash64 key
    let counter := store.entries.firstFree (chain hashval) (chainpos + 1)
    if counter = chainpos + 1 then
      if calls.remove then return (calls.errno, store)
      else return (0, ⟨store.entries.remove (chain hashval chainpos)⟩)
    else
      if calls.rename then return (calls.errno, store)
      else return (0, ⟨store.entries.rename (chain hashval (counter - 1)) (chain hashval chainpos)⟩)

/-- The map that lookups see whose calls succeed; nothing at a key for which they come to a damaged file. -/
def FailingStore.visible (key : CString) : Option (Option CString) :=
  (findEntryFailing .succeed store key).map fun r => if r.1 < 0 then none else r.2

end

/-! ## On a store without a damaged file -/

/-- The store as one whose files may be damaged, and are not. -/
def KvStore.whole (store : KvStore) : FailingStore := ⟨store.entries.map some⟩

section

variable [StrHash] {store : KvStore} {calls : StoreCalls} {key value : CString}

omit [StrHash] in
theorem findEntryFailingFrom_succeed (store : KvStore) (hashval : UInt64) (key : CString) (fuel counter : ℕ) :
    findEntryFailingFrom .succeed store.whole hashval key fuel counter = some (findEntryFrom store hashval key fuel counter) := by
  induction fuel generalizing counter with
  | zero => rfl
  | succ fuel ih =>
    rw [findEntryFailingFrom, findEntryFrom, KvStore.whole, Directory.file_map]
    cases store.entries.file (chain hashval counter) with
    | none => rfl
    | some entry =>
      have hopen : StoreCalls.succeed.openRead counter = false := rfl
      simp only [Option.map_some, hopen, Bool.false_eq_true, if_false]
      split_ifs
      · rfl
      · exact ih (counter + 1)

theorem findEntryFailing_succeed (store : KvStore) (key : CString) :
    findEntryFailing .succeed store.whole key = some (findEntry store key) := by
  rw [findEntryFailing, findEntry]
  split_ifs
  · rfl
  · exact findEntryFailingFrom_succeed store _ key _ 0

theorem visible_whole (store : KvStore) (key : CString) : store.whole.visible key = some (store.contents key) := by
  rw [FailingStore.visible, findEntryFailing_succeed, KvStore.contents, kvstoreGet]
  simp only [Option.map_some]
  split_ifs <;> rfl

/-- Past its checks, `kvstore_put` goes by what `find_entry` returns. -/
theorem kvstorePutFailing_eq {s : FailingStore} {counter : Int} {v : Option CString} (hcheck : ¬ kvstorePutCheck key value < 0)
    (hfind : findEntryFailing calls s key = some (counter, v)) {pos : ℕ}
    (hpos : (if counter ≥ 0 then counter.toNat else s.entries.firstFree (chain (strhash64 key)) 0) = pos) :
    kvstorePutFailing calls s key value = some (if calls.openWrite then (errFilAccess, s)
      else (0, ⟨s.entries.write (chain (strhash64 key) pos) (if calls.write then none else some (.make key value))⟩)) := by
  subst hpos
  rw [kvstorePutFailing, if_neg hcheck, hfind]
  dsimp only [bind, Option.bind]
  split_ifs <;> rfl

/-- `kvstore_del` does, too. -/
theorem kvstoreDelFailing_eq {s : FailingStore} {chainpos counter : ℕ} {v : Option CString}
    (hfind : findEntryFailing calls s key = some ((chainpos : Int), v))
    (hfree : s.entries.firstFree (chain (strhash64 key)) (chainpos + 1) = counter) :
    kvstoreDelFailing calls s key = some (if counter = chainpos + 1 then
        if calls.remove then (calls.errno, s) else (0, ⟨s.entries.remove (chain (strhash64 key) chainpos)⟩)
      else
        if calls.rename then (calls.errno, s)
        else (0, ⟨s.entries.rename (chain (strhash64 key) (counter - 1)) (chain (strhash64 key) chainpos)⟩)) := by
  subst hfree
  rw [kvstoreDelFailing, hfind]
  dsimp only [bind, Option.bind]
  rw [if_neg (by omega), Int.toNat_natCast]
  split_ifs <;> rfl

theorem kvstoreDelFailing_neg {s : FailingStore} {code : Int} {v : Option CString}
    (hfind : findEntryFailing calls s key = some (code, v)) (hcode : code < 0) :
    kvstoreDelFailing calls s key = some (code, s) := by
  rw [kvstoreDelFailing, hfind]
  dsimp only [bind, Option.bind]
  rw [if_pos hcode]
  rfl

/-- With calls that succeed, `kvstore_put` does what it does in `Store.lean`. -/
theorem kvstorePutFailing_succeed (store : KvStore) (key value : CString) :
    kvstorePutFailing .succeed store.whole key value =
      ((kvstorePut key value).run store).1.map fun ret => (ret, ((kvstorePut key value).run store).2.whole) := by
  rw [kvstorePut]
  by_cases hcheck : kvstorePutCheck key value < 0
  · rw [kvstorePutFailing, if_pos hcheck, if_pos hcheck]
    rfl
  · rw [kvstorePutFailing_eq hcheck (findEntryFailing_succeed store key) rfl, if_neg hcheck]
    refine congrArg (fun s => some ((0 : Int), s)) (FailingStore.ext ?_)
    have hfree := Directory.firstFree_map some store.entries (chain (strhash64 key)) 0
    rw [KvStore.whole, hfree]
    exact (Directory.map_write ..).symm

/-- So does `kvstore_del`. -/
theorem kvstoreDelFailing_succeed (store : KvStore) (key : CString) :
    kvstoreDelFailing .succeed store.whole key =
      ((kvstoreDel key).run store).1.map fun ret => (ret, ((kvstoreDel key).run store).2.whole) := by
  have hfind := findEntryFailing_succeed store key
  have hrun : (kvstoreDel key).run store = ((if (findEntry store key).1 < 0 then pure (findEntry store key).1
      else kvstoreDelAt key (findEntry store key).1.toNat) : Program StoreOp KvStore Int).run store := rfl
  by_cases hneg : (findEntry store key).1 < 0
  · rw [hrun, if_pos hneg, kvstoreDelFailing_neg hfind hneg]
    rfl
  · obtain ⟨chainpos, hpos⟩ : ∃ n : ℕ, (findEntry store key).1 = n := ⟨_, (Int.toNat_of_nonneg (not_lt.mp hneg)).symm⟩
    have hfree : store.whole.entries.firstFree (chain (strhash64 key)) (chainpos + 1) = _ := Directory.firstFree_map ..
    have hat : findEntryFailing .succeed store.whole key = some ((chainpos : Int), (findEntry store key).2) := by
      rw [hfind, ← hpos]
    rw [hrun, if_neg hneg, hpos, Int.toNat_natCast, kvstoreDelFailing_eq hat hfree]
    by_cases hlast : store.entries.firstFree (chain (strhash64 key)) (chainpos + 1) = chainpos + 1
    · have hdel : Performs (kvstoreDelAt key chainpos) store [.removeEntry (chain (strhash64 key) chainpos)] 0
          ⟨store.entries.remove (chain (strhash64 key) chainpos)⟩ := by
        refine .read_bind ?_
        simp only [if_pos hlast]
        exact .perform_bind (.pure _ _)
      rw [hdel.run_eq, if_pos hlast]
      refine congrArg (fun s => some ((0 : Int), s)) (FailingStore.ext ?_)
      exact (Directory.map_remove ..).symm
    · obtain ⟨counter, hcounter⟩ : ∃ n, store.entries.firstFree (chain (strhash64 key)) (chainpos + 1) = n := ⟨_, rfl⟩
      rw [hcounter] at hlast ⊢
      have hdel : Performs (kvstoreDelAt key chainpos) store
          [.renameEntry (chain (strhash64 key) (counter - 1)) (chain (strhash64 key) chainpos)] 0
          ⟨store.entries.rename (chain (strhash64 key) (counter - 1)) (chain (strhash64 key) chainpos)⟩ := by
        refine .read_bind ?_
        simp only [hcounter, if_neg hlast]
        exact .perform_bind (.pure _ _)
      rw [hdel.run_eq, if_neg hlast]
      refine congrArg (fun s => some ((0 : Int), s)) (FailingStore.ext ?_)
      exact (Directory.map_rename ..).symm

end

/-! ## What a lookup finds -/

section

variable [StrHash] {store : KvStore} {s : FailingStore} {calls : StoreCalls} {key value : CString} {i m : ℕ}

omit [StrHash] in
/-- The walk passes over the entries of other keys that can be opened. -/
theorem findEntryFailingFrom_reach {hashval : UInt64}
    (hpass : ∀ j < i, ∃ entry, s.entries.file (chain hashval j) = some (some entry) ∧
      key ≠ entry.key ∧ calls.openRead j = false) (fuel : ℕ) :
    findEntryFailingFrom calls s hashval key (fuel + 1 + i) 0 = findEntryFailingFrom calls s hashval key (fuel + 1) i := by
  induction i generalizing fuel with
  | zero => rfl
  | succ i ih =>
    obtain ⟨entry, hfile, hkey, hopen⟩ := hpass i (Nat.lt_succ_self i)
    have hreach := ih (fun j hj => hpass j (Nat.lt_succ_of_lt hj)) (fuel + 1)
    rw [← Nat.add_assoc, Nat.add_right_comm, hreach, findEntryFailingFrom, hfile]
    simp only [hopen, Bool.false_eq_true, if_false, if_neg hkey]

/-- So it comes to the first position where that is not so, if there is an entry. -/
theorem findEntryFailing_reach (calls : StoreCalls) (hlen : key.strlen ≤ maxKeylen) (hpass : ∀ j < i, ∃ entry,
      s.entries.file (chain (strhash64 key) j) = some (some entry) ∧ key ≠ entry.key ∧ calls.openRead j = false) :
    ∃ fuel, findEntryFailing calls s key = findEntryFailingFrom calls s (strhash64 key) key (fuel + 1) i := by
  have hcard : i ≤ s.entries.names.card :=
    Directory.le_card_of_taken (chain_injective (strhash64 key)) (i := 0) fun j _ hj => by
      obtain ⟨entry, hfile, -⟩ := hpass j (by omega)
      rw [Directory.stat, hfile]
      rfl
  refine ⟨s.entries.names.card - i, ?_⟩
  rw [findEntryFailing, if_neg (by omega), ← findEntryFailingFrom_reach hpass]
  congr 1
  omega

/-- In a chained store the entries in front of the key's are those of other keys. -/
theorem KvStore.Chained.file_of_lt (hc : store.Chained) {v : CString} (h : store.Holds key i v) {j : ℕ} (hj : j < i) :
    ∃ entry, store.entries.file (chain (strhash64 key) j) = some entry ∧ key ≠ entry.key := by
  obtain ⟨m, hm⟩ := hc.gapless (strhash64 key)
  obtain ⟨entry, he⟩ := Option.isSome_iff_exists.mp ((hm j).mpr (hj.trans (h.lt hm)))
  refine ⟨entry, he, fun hkey => hj.ne ?_⟩
  exact (hc.holds_unique (hc.holds_of_key he hkey.symm) h).1

omit [StrHash] in
theorem file_whole {hashval : UInt64} {entry : KvEntry} (h : store.entries.file (chain hashval i) = some entry) :
    store.whole.entries.file (chain hashval i) = some (some entry) := by
  rw [KvStore.whole, Directory.file_map, h]
  rfl

/-- The key is found if its entry and those in front of it can be opened. -/
theorem findEntryFailing_of_holds (calls : StoreCalls) (hc : store.Chained) {v : CString} (h : store.Holds key i v)
    (hlen : key.strlen ≤ maxKeylen) (hopen : ∀ j ≤ i, calls.openRead j = false) :
    findEntryFailing calls store.whole key = some ((i : Int), some v) := by
  obtain ⟨fuel, heq⟩ := @findEntryFailing_reach _ store.whole key i calls hlen fun j hj => by
    obtain ⟨entry, he, hkey⟩ := hc.file_of_lt h hj
    exact ⟨entry, file_whole he, hkey, hopen j hj.le⟩
  rw [heq, findEntryFailingFrom, file_whole h]
  simp [hopen i le_rfl]

/-- It is not if one of them cannot. -/
theorem findEntryFailing_blocked (hc : store.Chained) {v : CString} (h : store.Holds key i v) (hlen : key.strlen ≤ maxKeylen)
    (hopen : ¬ ∀ j ≤ i, calls.openRead j = false) : findEntryFailing calls store.whole key = some (errFilAccess, none) := by
  obtain ⟨j, hj, hfail, hfirst⟩ : ∃ j ≤ i, calls.openRead j = true ∧ ∀ k < j, calls.openRead k = false := by
    have hex : ∃ j, j ≤ i ∧ calls.openRead j = true := by simpa using hopen
    refine ⟨Nat.find hex, (Nat.find_spec hex).1, (Nat.find_spec hex).2, fun k hk => ?_⟩
    have := Nat.find_min hex hk
    simpa [(hk.trans_le (Nat.find_spec hex).1).le] using this
  obtain ⟨fuel, heq⟩ := @findEntryFailing_reach _ store.whole key j calls hlen fun k hk => by
    obtain ⟨entry, he, hkey⟩ := hc.file_of_lt h (hk.trans_le hj)
    exact ⟨entry, file_whole he, hkey, hfirst k hk⟩
  obtain ⟨entry, he⟩ : ∃ entry, store.entries.file (chain (strhash64 key) j) = some entry := by
    rcases hj.lt_or_eq with hlt | rfl
    · obtain ⟨entry, he, -⟩ := hc.file_of_lt h hlt
      exact ⟨entry, he⟩
    · exact ⟨_, h⟩
  rw [heq, findEntryFailingFrom, file_whole he]
  simp [hfail]

omit [StrHash] in
theorem errFilAccess_neg : errFilAccess < 0 := by decide

/-- A key that is not there is not found. -/
theorem findEntryFailing_absent (calls : StoreCalls) (hc : store.Chained) (hno : ∀ i v, ¬ store.Holds key i v) :
    ∃ code, findEntryFailing calls store.whole key = some (code, none) ∧ code < 0 := by
  have hloop (fuel counter : ℕ) :
      ∃ code, findEntryFailingFrom calls store.whole (strhash64 key) key fuel counter = some (code, none) ∧ code < 0 := by
    induction fuel generalizing counter with
    | zero => exact ⟨_, rfl, by decide⟩
    | succ fuel ih =>
      rw [findEntryFailingFrom, KvStore.whole, Directory.file_map]
      cases he : store.entries.file (chain (strhash64 key) counter) with
      | none => exact ⟨_, rfl, by decide⟩
      | some entry =>
        simp only [Option.map_some]
        split_ifs with hfail hkey
        · exact ⟨_, rfl, errFilAccess_neg⟩
        · exact absurd (hc.holds_of_key he hkey.symm) (hno _ _)
        · exact ih (counter + 1)
  rw [findEntryFailing]
  split_ifs
  · exact ⟨_, rfl, by decide⟩
  · exact hloop _ 0

/-- What a lookup comes to. -/
theorem findEntryFailing_cases (hc : store.Chained) (calls : StoreCalls) (key : CString) :
    (∃ i v, store.Holds key i v ∧ key.strlen ≤ maxKeylen ∧ (∀ j ≤ i, calls.openRead j = false) ∧
      findEntryFailing calls store.whole key = some ((i : Int), some v)) ∨
    ∃ code, findEntryFailing calls store.whole key = some (code, none) ∧ code < 0 := by
  rcases Nat.lt_or_ge maxKeylen key.strlen with hlong | hlen
  · exact Or.inr ⟨errKeyLen, if_pos hlong, by decide⟩
  by_cases hex : ∃ i v, store.Holds key i v
  · obtain ⟨i, v, h⟩ := hex
    by_cases hopen : ∀ j ≤ i, calls.openRead j = false
    · exact Or.inl ⟨i, v, h, hlen, hopen, findEntryFailing_of_holds calls hc h hlen hopen⟩
    · exact Or.inr ⟨_, findEntryFailing_blocked hc h hlen hopen, errFilAccess_neg⟩
  · exact Or.inr (findEntryFailing_absent calls hc fun i v h => hex ⟨i, v, h⟩)

end

/-! ## Calls to the store -/

/-- A call to the store, and the calls that fail in it. -/
inductive FailingCall where
  /-- `kvstore_put`. -/
  | put (key value : CString) (calls : StoreCalls)
  /-- `kvstore_del`. -/
  | del (key : CString) (calls : StoreCalls)

/-- Its key. -/
def FailingCall.key : FailingCall → CString
  | put key _ _ => key
  | del key _ => key

/-- What the map is to have at its key. -/
def FailingCall.result : FailingCall → Option CString
  | put _ value _ => some value
  | del _ _ => none

/-- The calls that fail in it. -/
def FailingCall.calls : FailingCall → StoreCalls
  | put _ _ calls => calls
  | del _ calls => calls

namespace FailingStore

section

variable [StrHash]

/-- What a call returns, and the store after it; nothing if it compares what was not read from a file. -/
def call (s : FailingStore) : FailingCall → Option (Int × FailingStore)
  | .put key value calls => kvstorePutFailing calls s key value
  | .del key calls => kvstoreDelFailing calls s key

/-- The store after a call. -/
def step (s : FailingStore) (c : FailingCall) : FailingStore := ((s.call c).map Prod.snd).getD s

/-- The call returns `0` and has done what it is to do, or returns a negative code and has done nothing. -/
def Atomic (s : FailingStore) (c : FailingCall) : Prop :=
  ∃ ret s', s.call c = some (ret, s') ∧
    (ret = 0 ∧ s'.visible = Function.update s.visible c.key (some c.result) ∨ ret < 0 ∧ s'.visible = s.visible)

/-- The entry of the key is at position `i`. -/
def HasEntry (s : FailingStore) (key : CString) (i : ℕ) : Prop :=
  ∃ entry, s.entries.file (chain (strhash64 key) i) = some (some entry) ∧ entry.key = key

/-- The calls that fail do no harm: in `kvstore_put` its `fopen` is one of them, or neither `fwrite` is, nor an `fopen`
of `find_entry` up to the entry of a key that is there; in `kvstore_del` an `fopen` of `find_entry` up to the key's entry
is one of them, or the call that is to take it away is not. -/
def Sound (s : FailingStore) : FailingCall → Prop
  | .put key value calls => kvstorePutCheck key value = 0 → calls.openWrite = true ∨
      calls.write = false ∧ ∀ i, s.HasEntry key i → ∀ j ≤ i, calls.openRead j = false
  | .del key calls => key.strlen ≤ maxKeylen → ∀ i, s.HasEntry key i → (∀ j ≤ i, calls.openRead j = false) →
      if s.entries.stat (chain (strhash64 key) (i + 1)) then calls.rename = false else calls.remove = false

/-- The invariant: no file is damaged, and the store is chained. -/
def Inv (s : FailingStore) : Prop := ∃ store : KvStore, s = store.whole ∧ store.Chained

variable {store : KvStore} {s s' : FailingStore} {c : FailingCall} {key value : CString} {calls : StoreCalls} {ret : Int} {i m : ℕ}

theorem step_eq (h : s.call c = some (ret, s')) : s.step c = s' := by
  rw [step, h]
  rfl

/-- A call that returns an error and leaves the store as it is. -/
theorem atomic_of_neg (hs : s.Inv) (h : s.call c = some (ret, s)) (hret : ret < 0) : s.Atomic c ∧ (s.step c).Inv := by
  rw [step_eq h]
  exact ⟨⟨ret, s, h, Or.inr ⟨hret, rfl⟩⟩, hs⟩

/-- One that does what it is to do, on a store without a damaged file. -/
theorem atomic_of_whole {store' : KvStore} (h : store.whole.call c = some (0, store'.whole)) (hc : store'.Chained)
    (hm : store'.contents = Function.update store.contents c.key c.result) :
    store.whole.Atomic c ∧ (store.whole.step c).Inv := by
  rw [step_eq h]
  refine ⟨⟨0, _, h, Or.inl ⟨rfl, ?_⟩⟩, _, rfl, hc⟩
  funext key
  rw [visible_whole, hm]
  by_cases hkey : key = c.key
  · rw [hkey, Function.update_self, Function.update_self]
  · rw [Function.update_of_ne hkey, Function.update_of_ne hkey, visible_whole]

theorem hasEntry_whole (hc : store.Chained) : store.whole.HasEntry key i ↔ ∃ v, store.Holds key i v := by
  constructor
  · rintro ⟨entry, hfile, hkey⟩
    rw [KvStore.whole, Directory.file_map] at hfile
    obtain ⟨entry', he, heq⟩ := Option.map_eq_some_iff.mp hfile
    exact ⟨_, hc.holds_of_key he (by rw [Option.some.inj heq, hkey])⟩
  · rintro ⟨v, h⟩
    exact ⟨_, file_whole h, KvEntry.key_make ..⟩

omit [StrHash] in
theorem strlen_le_of_putCheck (hcheck : kvstorePutCheck key value = 0) : key.strlen ≤ maxKeylen ∧ value.strlen ≤ maxVallen := by
  rw [kvstorePutCheck] at hcheck
  split_ifs at hcheck with h₁ h₂
  · exact absurd hcheck (by decide)
  · exact absurd hcheck (by decide)
  · omega

/-- `kvstore_put` that finds what it would find if no call failed, and can write. -/
theorem put_atomic (hc : store.Chained) (hcheck : kvstorePutCheck key value = 0) (hopen : calls.openWrite = false)
    (hwrite : calls.write = false) (hread : ∀ i, store.whole.HasEntry key i → ∀ j ≤ i, calls.openRead j = false) :
    store.whole.Atomic (.put key value calls) ∧ (store.whole.step (.put key value calls)).Inv := by
  have hlens := strlen_le_of_putCheck hcheck
  have hneg : ¬ kvstorePutCheck key value < 0 := by omega
  have hsame : kvstorePutFailing calls store.whole key value = kvstorePutFailing .succeed store.whole key value := by
    by_cases hex : ∃ i v, store.Holds key i v
    · obtain ⟨i, v, h⟩ := hex
      have hfind := findEntryFailing_of_holds calls hc h hlens.1 (hread i ((hasEntry_whole hc).mpr ⟨v, h⟩))
      have hfind' := findEntryFailing_of_holds .succeed hc h hlens.1 fun _ _ => rfl
      rw [kvstorePutFailing_eq hneg hfind rfl, kvstorePutFailing_eq hneg hfind' rfl, hopen, hwrite]
      rfl
    · have hno : ∀ i v, ¬ store.Holds key i v := fun i v h => hex ⟨i, v, h⟩
      obtain ⟨code, hfind, hcode⟩ := findEntryFailing_absent calls hc hno
      obtain ⟨code', hfind', hcode'⟩ := findEntryFailing_absent .succeed hc hno
      rw [kvstorePutFailing_eq hneg hfind (if_neg (by omega)), kvstorePutFailing_eq hneg hfind' (if_neg (by omega)), hopen, hwrite]
      rfl
  obtain ⟨pos, hperf, hc', hm⟩ := KvStore.kvstorePut_performs hc hlens.1 hlens.2
  refine atomic_of_whole ?_ hc' hm
  rw [call, hsame, kvstorePutFailing_succeed, hperf.run_eq]
  rfl

/-- `kvstore_del` of an entry that it finds, at position `i` of a chain of `m + 1`. -/
theorem del_eq (hfind : findEntryFailing calls s key = some ((i : Int), some value))
    (hm : s.entries.Fills (chain (strhash64 key)) (m + 1)) (hi : i ≤ m) : kvstoreDelFailing calls s key = some (if i = m then
        if calls.remove then (calls.errno, s) else (0, ⟨s.entries.remove (chain (strhash64 key) i)⟩)
      else
        if calls.rename then (calls.errno, s)
        else (0, ⟨s.entries.rename (chain (strhash64 key) m) (chain (strhash64 key) i)⟩)) := by
  have hfree := hm.firstFree_eq (chain_injective _) (show i + 1 ≤ m + 1 by omega)
  rw [kvstoreDelFailing_eq hfind hfree]
  refine congrArg some ?_
  by_cases him : i = m
  · rw [if_pos him, if_pos (by omega)]
  · rw [if_neg him, if_neg (by omega), Nat.add_sub_cancel]

/-- The chain of a key that is there, in the store as one whose files may be damaged. -/
theorem fills_whole (hc : store.Chained) (h : store.Holds key i value) :
    ∃ m, store.whole.entries.Fills (chain (strhash64 key)) (m + 1) ∧ i ≤ m := by
  obtain ⟨m, hm⟩ := hc.gapless (strhash64 key)
  have hi := h.lt hm
  refine ⟨m - 1, fun j => ?_, by omega⟩
  rw [KvStore.whole, Directory.stat_map, hm j]
  omega

/-- `kvstore_del` that can take the entry away. -/
theorem del_atomic (hc : store.Chained) {v : CString} (h : store.Holds key i v) (hlen : key.strlen ≤ maxKeylen)
    (hread : ∀ j ≤ i, calls.openRead j = false)
    (hcall : if store.whole.entries.stat (chain (strhash64 key) (i + 1)) then calls.rename = false else calls.remove = false) :
    store.whole.Atomic (.del key calls) ∧ (store.whole.step (.del key calls)).Inv := by
  obtain ⟨m, hm, hi⟩ := fills_whole hc h
  have hfind := findEntryFailing_of_holds calls hc h hlen hread
  have hfind' := findEntryFailing_of_holds .succeed hc h hlen fun _ _ => rfl
  have hsame : kvstoreDelFailing calls store.whole key = kvstoreDelFailing .succeed store.whole key := by
    rw [del_eq hfind hm hi, del_eq hfind' hm hi]
    by_cases him : i = m
    · rw [if_neg (by rw [hm]; omega)] at hcall
      rw [if_pos him, if_pos him, hcall]
      rfl
    · rw [if_pos (by rw [hm]; omega)] at hcall
      rw [if_neg him, if_neg him, hcall]
      rfl
  obtain ⟨o, -, hperf, hc', hm'⟩ := KvStore.kvstoreDel_performs hc h hlen
  refine atomic_of_whole ?_ hc' hm'
  rw [call, hsame, kvstoreDelFailing_succeed, hperf.run_eq]
  rfl

/-- **A call in which no harmful call fails** does all of what it is to do, or nothing. -/
theorem Inv.sound (h : s.Inv) (hsound : s.Sound c) : s.Atomic c ∧ (s.step c).Inv := by
  have hinv := h
  obtain ⟨store, rfl, hc⟩ := h
  cases c with
  | put key value calls =>
    by_cases hneg : kvstorePutCheck key value < 0
    · exact atomic_of_neg hinv (by rw [call, kvstorePutFailing, if_pos hneg]; rfl) hneg
    have hcheck : kvstorePutCheck key value = 0 := by
      rw [kvstorePutCheck] at hneg ⊢
      split_ifs at hneg ⊢ with h₁ h₂
      · exact absurd (by decide) hneg
      · exact absurd (by decide) hneg
      · rfl
    cases hopen : calls.openWrite with
    | true =>
      have hput : store.whole.call (.put key value calls) = some (errFilAccess, store.whole) := by
        rcases findEntryFailing_cases hc calls key with ⟨_, _, -, -, -, hfind⟩ | ⟨_, hfind, -⟩ <;>
          rw [call, kvstorePutFailing_eq hneg hfind rfl, hopen] <;> rfl
      exact atomic_of_neg hinv hput errFilAccess_neg
    | false =>
      obtain ⟨hwrite, hread⟩ := (hsound hcheck).resolve_left (by simp [hopen])
      exact put_atomic hc hcheck hopen hwrite hread
  | del key calls =>
    rcases findEntryFailing_cases hc calls key with ⟨i, v, h, hlen, hopen, -⟩ | ⟨code, hfind, hcode⟩
    · exact del_atomic hc h hlen hopen (hsound hlen i ((hasEntry_whole hc).mpr ⟨v, h⟩) hopen)
    · exact atomic_of_neg hinv (kvstoreDelFailing_neg hfind hcode) hcode

/-- What a lookup sees whose walk comes to position `i`. -/
theorem visible_reach (hlen : key.strlen ≤ maxKeylen) (hpass : ∀ j < i, ∃ entry,
      s.entries.file (chain (strhash64 key) j) = some (some entry) ∧ key ≠ entry.key) {file : Option KvEntry}
    (hfile : s.entries.file (chain (strhash64 key) i) = some file) (hkey : ∀ entry ∈ file, entry.key = key) :
    s.visible key = file.map fun entry => some entry.value := by
  obtain ⟨fuel, heq⟩ := @findEntryFailing_reach _ s key i .succeed hlen fun j hj => by
    obtain ⟨entry, he, hne⟩ := hpass j hj
    exact ⟨entry, he, hne, rfl⟩
  have hopen : StoreCalls.succeed.openRead i = false := rfl
  rw [visible, heq, findEntryFailingFrom, hfile]
  simp only [hopen, Bool.false_eq_true, if_false]
  cases file with
  | none => rfl
  | some entry => simp [hkey entry rfl]

omit [StrHash] in
theorem chain_ne {hashval : UInt64} {j : ℕ} (h : j ≠ i) : chain hashval j ≠ chain hashval i := fun he => h (chain_injective _ he)

/-- An insertion whose `fwrite` fails where the key is to be found returns `0`, and the key's file is damaged. -/
theorem put_not_atomic (hc : store.Chained) (hcheck : kvstorePutCheck key value = 0) (hopen : calls.openWrite = false)
    (hwrite : calls.write = true) (hread : ∀ i, store.whole.HasEntry key i → ∀ j ≤ i, calls.openRead j = false) :
    ¬ store.whole.Atomic (.put key value calls) := by
  have hlen := (strlen_le_of_putCheck hcheck).1
  have hneg : ¬ kvstorePutCheck key value < 0 := by omega
  obtain ⟨pos, hput, hbefore⟩ : ∃ pos, kvstorePutFailing calls store.whole key value =
      some (0, ⟨store.whole.entries.write (chain (strhash64 key) pos) none⟩) ∧
      ∀ j < pos, ∃ entry, store.entries.file (chain (strhash64 key) j) = some entry ∧ key ≠ entry.key := by
    by_cases hex : ∃ i v, store.Holds key i v
    · obtain ⟨i, v, h⟩ := hex
      have hfind := findEntryFailing_of_holds calls hc h hlen (hread i ((hasEntry_whole hc).mpr ⟨v, h⟩))
      refine ⟨i, ?_, fun j hj => hc.file_of_lt h hj⟩
      rw [kvstorePutFailing_eq hneg hfind (if_pos (by omega)), hopen, hwrite]
      rfl
    · have hno : ∀ i v, ¬ store.Holds key i v := fun i v h => hex ⟨i, v, h⟩
      obtain ⟨code, hfind, hcode⟩ := findEntryFailing_absent calls hc hno
      obtain ⟨m, hm⟩ := hc.gapless (strhash64 key)
      have hfree : store.whole.entries.firstFree (chain (strhash64 key)) 0 = m := by
        rw [KvStore.whole, Directory.firstFree_map, hm.firstFree_eq (chain_injective _) (Nat.zero_le m)]
      refine ⟨m, ?_, fun j hj => ?_⟩
      · rw [kvstorePutFailing_eq hneg hfind ((if_neg (by omega)).trans hfree), hopen, hwrite]
        rfl
      · obtain ⟨entry, he⟩ := Option.isSome_iff_exists.mp ((hm j).mpr hj)
        exact ⟨entry, he, fun hkey => hno _ _ (hc.holds_of_key he hkey.symm)⟩
  rintro ⟨ret, s', hcall, hatomic⟩
  obtain ⟨rfl, rfl⟩ : (0 : Int) = ret ∧ _ = s' := Prod.mk.inj (Option.some.inj (hput.symm.trans hcall))
  obtain ⟨-, hvisible⟩ := hatomic.resolve_right fun h => absurd h.1 (lt_irrefl 0)
  have hdamaged : FailingStore.visible ⟨store.whole.entries.write (chain (strhash64 key) pos) none⟩ key = none := by
    refine @visible_reach _ _ key pos hlen (fun j hj => ?_) none (Directory.file_write_self ..) nofun
    obtain ⟨entry, he, hne⟩ := hbefore j hj
    exact ⟨entry, (Directory.file_write_of_ne (chain_ne hj.ne)).trans (file_whole he), hne⟩
  have hat := congrFun hvisible key
  rw [hdamaged] at hat
  simp [FailingCall.key, FailingCall.result] at hat

/-- One that does not find a key that is there, because an entry cannot be opened, puts another entry behind it: what
then deletes the key only brings that one to light. -/
theorem put_del_not_atomic (hc : store.Chained) (hcheck : kvstorePutCheck key value = 0) (hopen : calls.openWrite = false)
    {v : CString}
    (h : store.Holds key i v) (hread : ¬ ∀ j ≤ i, calls.openRead j = false) :
    ¬ (store.whole.step (.put key value calls)).Atomic (.del key .succeed) := by
  have hlen := (strlen_le_of_putCheck hcheck).1
  obtain ⟨m, hm⟩ := hc.gapless (strhash64 key)
  have hi := h.lt hm
  have hfree : store.whole.entries.firstFree (chain (strhash64 key)) 0 = m := by
    rw [KvStore.whole, Directory.firstFree_map, hm.firstFree_eq (chain_injective _) (Nat.zero_le m)]
  obtain ⟨file, hput, hfilekey⟩ : ∃ file : Option KvEntry, kvstorePutFailing calls store.whole key value =
      some (0, ⟨store.whole.entries.write (chain (strhash64 key) m) file⟩) ∧ ∀ entry ∈ file, entry.key = key := by
    refine ⟨if calls.write then none else some (.make key value), ?_, ?_⟩
    · rw [kvstorePutFailing_eq (by omega) (findEntryFailing_blocked hc h hlen hread) ((if_neg (by decide)).trans hfree), hopen]
      rfl
    · intro entry hentry
      split_ifs at hentry
      · cases hentry
      · rw [← Option.some.inj hentry, KvEntry.key_make]
  have hcall : store.whole.call (.put key value calls) = _ := hput
  rw [step_eq hcall]
  generalize hs : (⟨store.whole.entries.write (chain (strhash64 key) m) file⟩ : FailingStore) = s
  have hwhole {j : ℕ} (hj : j ≠ m) :
      s.entries.file (chain (strhash64 key) j) = store.whole.entries.file (chain (strhash64 key) j) := by
    rw [← hs]
    exact Directory.file_write_of_ne (chain_ne hj)
  have hlast : s.entries.file (chain (strhash64 key) m) = some file := by
    rw [← hs]
    exact Directory.file_write_self ..
  have hfills : s.entries.Fills (chain (strhash64 key)) (m + 1) := by
    rw [← hs]
    refine Directory.Fills.write_next (chain_injective _) fun j => ?_
    rw [KvStore.whole, Directory.stat_map, hm j]
  have hbefore (j : ℕ) (hj : j < i) : ∃ entry, s.entries.file (chain (strhash64 key) j) = some (some entry) ∧ key ≠ entry.key := by
    obtain ⟨entry, he, hne⟩ := hc.file_of_lt h hj
    exact ⟨entry, (hwhole (by omega)).trans (file_whole he), hne⟩
  have hfind : findEntryFailing .succeed s key = some ((i : Int), some v) := by
    obtain ⟨fuel, heq⟩ := @findEntryFailing_reach _ s key i .succeed hlen fun j hj => by
      obtain ⟨entry, he, hne⟩ := hbefore j hj
      exact ⟨entry, he, hne, rfl⟩
    have hopen : StoreCalls.succeed.openRead i = false := rfl
    rw [heq, findEntryFailingFrom, hwhole (by omega), file_whole h]
    simp [hopen]
  have hdel : s.call (.del key .succeed) = some (0, ⟨s.entries.rename (chain (strhash64 key) m) (chain (strhash64 key) i)⟩) := by
    rw [call, del_eq hfind hfills hi.le, if_neg hi.ne]
    rfl
  rintro ⟨ret, s', hcall, hatomic⟩
  obtain ⟨rfl, rfl⟩ : (0 : Int) = ret ∧ _ = s' := Prod.mk.inj (Option.some.inj (hdel.symm.trans hcall))
  obtain ⟨-, hvisible⟩ := hatomic.resolve_right fun h => absurd h.1 (lt_irrefl 0)
  have hmoved : FailingStore.visible ⟨s.entries.rename (chain (strhash64 key) m) (chain (strhash64 key) i)⟩ key =
      file.map fun entry => some entry.value := by
    refine visible_reach (i := i) hlen (fun j hj => ?_) ?_ hfilekey
    · obtain ⟨entry, he, hne⟩ := hbefore j hj
      refine ⟨entry, ?_, hne⟩
      rw [Directory.file_rename hlast, if_neg (chain_ne hj.ne), if_neg (chain_ne (by omega)), he]
    · rw [Directory.file_rename hlast, if_pos rfl]
  have hat := congrFun hvisible key
  rw [hmoved] at hat
  cases file with
  | none => simp [FailingCall.key, FailingCall.result] at hat
  | some entry => simp [FailingCall.key, FailingCall.result] at hat

/-- **A harmful call that fails** shows in the call it fails in, or in the next deletion of the key. -/
theorem Inv.not_sound (h : s.Inv) (hsound : ¬ s.Sound c) : ¬ Along step Atomic s [c, .del c.key .succeed] := by
  obtain ⟨store, rfl, hc⟩ := h
  rintro ⟨hatomic, hnext, -⟩
  cases c with
  | put key value calls =>
    simp only [Sound, Classical.not_imp, not_or, Bool.not_eq_true, not_and] at hsound
    obtain ⟨hcheck, hopen, hharm⟩ := hsound
    by_cases hread : ∀ i, store.whole.HasEntry key i → ∀ j ≤ i, calls.openRead j = false
    · have hwrite : calls.write = true := by
        by_contra hwrite
        exact hharm (by simpa using hwrite) hread
      exact put_not_atomic hc hcheck hopen hwrite hread hatomic
    · obtain ⟨i, hentry, hblocked⟩ : ∃ i, store.whole.HasEntry key i ∧ ¬ ∀ j ≤ i, calls.openRead j = false := by
        simpa only [not_forall, exists_prop] using hread
      obtain ⟨v, h⟩ := (hasEntry_whole hc).mp hentry
      exact put_del_not_atomic hc hcheck hopen h hblocked hnext
  | del key calls =>
    simp only [Sound, Classical.not_imp, not_forall] at hsound
    obtain ⟨hlen, i, hentry, hread, hharm⟩ := hsound
    obtain ⟨v, h⟩ := (hasEntry_whole hc).mp hentry
    obtain ⟨m, hm, hi⟩ := fills_whole hc h
    have hdel : store.whole.call (.del key calls) = some (calls.errno, store.whole) := by
      rw [call, del_eq (findEntryFailing_of_holds calls hc h hlen hread) hm hi]
      by_cases him : i = m
      · rw [if_neg (by rw [hm]; omega)] at hharm
        rw [if_pos him, if_pos (by simpa using hharm)]
      · rw [if_pos (by rw [hm]; omega)] at hharm
        rw [if_neg him, if_pos (by simpa using hharm)]
    obtain ⟨ret, s', hcall, hret⟩ := hatomic
    obtain ⟨rfl, -⟩ := Prod.mk.inj (Option.some.inj (hdel.symm.trans hcall))
    have hpos := calls.errno_pos
    omega

/-- Calls that all succeed do no harm. -/
theorem sound_succeed (h : c.calls = .succeed) (s : FailingStore) : s.Sound c := by
  cases c with
  | put key value calls =>
    obtain rfl : calls = .succeed := h
    exact fun _ => Or.inr ⟨rfl, fun _ _ _ _ => rfl⟩
  | del key calls =>
    obtain rfl : calls = .succeed := h
    intro _ _ _ _
    split_ifs <;> rfl

end

end FailingStore

section

variable [StrHash]

/-- **Every call to the store does all of what it is to do, or nothing**, in a run and however it goes on without
further failures, exactly if the calls that fail in it do no harm. -/
theorem failing_store_atomic (store : KvStore) (hc : store.Chained) (events : List FailingCall) :
    (∀ pre more, pre <+: events → (∀ c ∈ more, c.calls = .succeed) →
      Along FailingStore.step FailingStore.Atomic store.whole (pre ++ more)) ↔
      Along FailingStore.step FailingStore.Sound store.whole events := by
  have hinv : store.whole.Inv := ⟨store, rfl, hc⟩
  refine along_iff_of_probe hinv (fun h hsound => h.sound hsound) (fun {s c} h hsound => ?_) fun c h => FailingStore.sound_succeed h
  refine ⟨[.del c.key .succeed], fun c' hmem => ?_, h.not_sound hsound⟩
  rw [List.mem_singleton.mp hmem]
  rfl

end

section

attribute [local instance] md5Sample

/-- Insertions and deletions, among them one that cannot open the file it is to write, and one that cannot open the entry
it is to delete. -/
theorem failing_store_atomic_put :
    let events : List FailingCall := [.put (.ofString "a") (.ofString "1") .succeed,
      .put (.ofString "a") (.ofString "2") { StoreCalls.succeed with openWrite := true },
      .del (.ofString "a") { StoreCalls.succeed with openRead := fun i => i = 0 }, .del (.ofString "a") .succeed]
    (∀ pre more, pre <+: events → (∀ c ∈ more, c.calls = .succeed) →
      Along FailingStore.step FailingStore.Atomic (KvStore.whole ⟨.empty⟩) (pre ++ more)) ↔
      Along FailingStore.step FailingStore.Sound (KvStore.whole ⟨.empty⟩) events :=
  failing_store_atomic ⟨.empty⟩ KvStore.chained_empty _

/-- An insertion whose `fwrite` fails returns `0`, and a deletion whose `remove` does returns what `errno` is. -/
theorem failing_store_harms :
    let put : FailingCall := .put (.ofString "a") (.ofString "1") { StoreCalls.succeed with write := true }
    let s := FailingStore.step (KvStore.whole ⟨.empty⟩) (.put (.ofString "a") (.ofString "1") .succeed)
    let del : FailingCall := .del (.ofString "a") { StoreCalls.succeed with remove := true, errno := 13, errno_pos := by decide }
    ((FailingStore.call (KvStore.whole ⟨.empty⟩) put).map Prod.fst = some 0 ∧
      (FailingStore.step (KvStore.whole ⟨.empty⟩) put).visible (.ofString "a") = none ∧
      ¬ FailingStore.Atomic (KvStore.whole ⟨.empty⟩) put) ∧
    (s.call del).map Prod.fst = some 13 ∧ ¬ s.Atomic del := by
  intro put s del
  have hput : (FailingStore.call (KvStore.whole ⟨.empty⟩) put).map Prod.fst = some 0 := by decide +kernel
  have hdamaged : (FailingStore.step (KvStore.whole ⟨.empty⟩) put).visible (.ofString "a") = none := by decide +kernel
  have hdel : (s.call del).map Prod.fst = some 13 := by decide +kernel
  refine ⟨⟨hput, hdamaged, ?_⟩, hdel, ?_⟩
  · rintro ⟨ret, s', hcall, hret⟩
    rw [hcall] at hput
    rw [FailingStore.step_eq hcall] at hdamaged
    obtain rfl : ret = 0 := Option.some.inj hput
    obtain ⟨-, hvisible⟩ := hret.resolve_right fun h => absurd h.1 (lt_irrefl 0)
    rw [hvisible] at hdamaged
    cases hdamaged
  · rintro ⟨ret, s', hcall, hret⟩
    rw [hcall] at hdel
    obtain rfl : ret = 13 := Option.some.inj hdel
    omega

end

end Cs162Hw.Kv
