import Cs162Hw.Kv.Store

/-!
# The store is a map

The directory of `Store.lean` read as a map from keys to values, for any hash
function, colliding or not.

* `Chained` is the invariant of the directory: every chain occupies the positions
  `0, …, m-1` ("Chains should always be complete", `kvstore.h`), every entry is one
  that `kvstore_put` built for a key of that hash, and no key occurs twice.
* `contents` is the map: what `kvstore_get` returns.
* `kvstorePut_performs` and `kvstoreDel_performs` say that each of the two changes
  the directory by one call, which keeps `Chained` and updates `contents` at its key and
  nowhere else.
-/

namespace Cs162Hw.Kv

open Library
open Library.Program (Performs)

/-- What a store is for: a map from keys to values. -/
abbrev KvMap := CString → Option CString

namespace KvStore

variable [StrHash]

/-- The invariant of a store's directory. -/
structure Chained (store : KvStore) : Prop where
  /-- A chain has no gap. -/
  gapless : ∀ hashval, ∃ m, store.entries.Fills (chain hashval) m
  /-- Every entry was built for a key of its chain's hash. -/
  made : ∀ hashval i entry, store.entries.file (chain hashval i) = some entry →
    ∃ key value, entry = .make key value ∧ strhash64 key = hashval
  /-- No key is at two positions. -/
  unique : ∀ hashval i j e e', store.entries.file (chain hashval i) = some e →
    store.entries.file (chain hashval j) = some e' → e.key = e'.key → i = j

/-- The entry of `key` is at position `i` of its chain and holds `value`. -/
def Holds (store : KvStore) (key : CString) (i : ℕ) (value : CString) : Prop :=
  store.entries.file (chain (strhash64 key) i) = some (.make key value)

/-- The map a store represents: what `kvstore_get` finds. -/
def contents (store : KvStore) : KvMap := fun key => (kvstoreGet store key).2

theorem chained_empty : Chained ⟨.empty⟩ where
  gapless _ := ⟨0, Directory.fills_empty _⟩
  made _ _ _ h := by simp at h
  unique _ _ _ _ _ h := by simp at h

variable {store : KvStore}

/-- An entry with the key `key`, wherever it is, is the entry of `key`. -/
theorem Chained.holds_of_key (hc : Chained store) {i : ℕ} {entry : KvEntry} {key : CString}
    (h : store.entries.file (chain (strhash64 key) i) = some entry) (hk : entry.key = key) :
    Holds store key i entry.value := by
  obtain ⟨key', value, rfl, -⟩ := hc.made _ _ _ h
  rw [KvEntry.key_make] at hk
  subst hk
  simpa [Holds] using h

theorem Holds.value_eq {key : CString} {i : ℕ} {v w : CString} (h : Holds store key i v) (h' : Holds store key i w) :
    v = w := by
  have := h.symm.trans h'
  simpa using congrArg KvEntry.value (Option.some.inj this)

theorem Chained.holds_unique (hc : Chained store) {key : CString} {i j : ℕ} {v w : CString}
    (h : Holds store key i v) (h' : Holds store key j w) : i = j ∧ v = w := by
  obtain rfl := hc.unique _ _ _ _ _ h h' (by simp)
  exact ⟨rfl, h.value_eq h'⟩

theorem Holds.lt {key : CString} {i : ℕ} {v : CString} (h : Holds store key i v) {m : ℕ}
    (hm : store.entries.Fills (chain (strhash64 key)) m) : i < m :=
  (hm i).mp (by rw [Directory.stat, h]; rfl)

/-! ### The loop of `find_entry` -/

/-- The walk finds the key if it starts no later than the key's position and has fuel to
get there. -/
theorem Chained.findEntryFrom_of_holds (hc : Chained store) {key v : CString} {i : ℕ} (h : Holds store key i v)
    (fuel counter : ℕ) (hle : counter ≤ i) (hlt : i < counter + fuel) :
    findEntryFrom store (strhash64 key) key fuel counter = ((i : Int), some v) := by
  induction fuel generalizing counter with
  | zero => omega
  | succ n ih =>
    obtain ⟨m, hm⟩ := hc.gapless (strhash64 key)
    have hstat := (hm counter).mpr (lt_of_le_of_lt hle (h.lt hm))
    obtain ⟨entry, he⟩ := Option.isSome_iff_exists.mp hstat
    rw [findEntryFrom, he]
    by_cases hk : key = entry.key
    · -- found: it can only be here
      obtain ⟨rfl, rfl⟩ := hc.holds_unique (hc.holds_of_key he hk.symm) h
      simp [hk]
    · have hne : counter ≠ i := by
        rintro rfl
        rw [h] at he
        obtain rfl := Option.some.inj he
        simp at hk
      simp only [if_neg hk]
      exact ih (counter + 1) (by omega) (by omega)

/-- The walk finds nothing if the key is nowhere. -/
theorem Chained.findEntryFrom_of_absent (hc : Chained store) {key : CString} (h : ∀ i v, ¬ Holds store key i v)
    (fuel counter : ℕ) : findEntryFrom store (strhash64 key) key fuel counter = (errNoKey, none) := by
  induction fuel generalizing counter with
  | zero => rfl
  | succ n ih =>
    rw [findEntryFrom]
    cases he : store.entries.file (chain (strhash64 key) counter) with
    | none => rfl
    | some entry =>
      have hk : key ≠ entry.key := fun hk => h counter _ (hc.holds_of_key he hk.symm)
      simp only [if_neg hk]
      exact ih (counter + 1)

theorem Chained.findEntry_of_holds (hc : Chained store) {key v : CString} {i : ℕ} (h : Holds store key i v)
    (hlen : key.strlen ≤ maxKeylen) : findEntry store key = ((i : Int), some v) := by
  rw [findEntry, if_neg (by omega)]
  refine hc.findEntryFrom_of_holds h _ _ (Nat.zero_le i) ?_
  obtain ⟨m, hm⟩ := hc.gapless (strhash64 key)
  have hi := h.lt hm
  have hcard : i ≤ store.entries.names.card :=
    Directory.le_card_of_taken (chain_injective _) (i := 0) fun j _ hj => (hm j).mpr (by omega)
  omega

theorem Chained.findEntry_of_absent (hc : Chained store) {key : CString} (h : ∀ i v, ¬ Holds store key i v)
    (hlen : key.strlen ≤ maxKeylen) : findEntry store key = (errNoKey, none) := by
  rw [findEntry, if_neg (by omega)]
  exact hc.findEntryFrom_of_absent h _ _

/-! ### The map -/

theorem contents_of_long {key : CString} (hlen : maxKeylen < key.strlen) : store.contents key = none := by
  simp [contents, kvstoreGet, findEntry, hlen, errKeyLen]

theorem Chained.contents_of_holds (hc : Chained store) {key v : CString} {i : ℕ} (h : Holds store key i v)
    (hlen : key.strlen ≤ maxKeylen) : store.contents key = some v := by
  rw [contents, kvstoreGet, hc.findEntry_of_holds h hlen]
  exact congrArg Prod.snd (if_neg (by omega))

theorem Chained.contents_of_absent (hc : Chained store) {key : CString} (h : ∀ i v, ¬ Holds store key i v) :
    store.contents key = none := by
  rcases Nat.lt_or_ge maxKeylen key.strlen with hlen | hlen
  · exact contents_of_long hlen
  · rw [contents, kvstoreGet, hc.findEntry_of_absent h hlen]
    simp [errNoKey]

/-- An empty directory holds nothing. -/
theorem contents_empty : contents ⟨.empty⟩ = fun _ => none :=
  funext fun _ => chained_empty.contents_of_absent fun i v h => by simp [Holds] at h

/-- The map has the value `v` at `key` exactly when the key's entry holds `v`. -/
theorem Chained.contents_eq_some_iff (hc : Chained store) {key v : CString} :
    store.contents key = some v ↔ key.strlen ≤ maxKeylen ∧ ∃ i, Holds store key i v := by
  constructor
  · intro h
    rcases Nat.lt_or_ge maxKeylen key.strlen with hlen | hlen
    · simp [contents_of_long hlen] at h
    · refine ⟨hlen, ?_⟩
      by_contra hno
      by_cases hex : ∃ i w, Holds store key i w
      · obtain ⟨i, w, hw⟩ := hex
        rw [hc.contents_of_holds hw hlen] at h
        exact hno ⟨i, Option.some.inj h ▸ hw⟩
      · rw [hc.contents_of_absent fun i w hw => hex ⟨i, w, hw⟩] at h
        cases h
  · rintro ⟨hlen, i, h⟩
    exact hc.contents_of_holds h hlen

/-- `kvstore_get` in terms of the map. -/
theorem Chained.kvstoreGet_eq (hc : Chained store) (key : CString) :
    kvstoreGet store key =
      if key.strlen > maxKeylen then (errKeyLen, none)
      else match store.contents key with
        | some v => (0, some v)
        | none => (errNoKey, none) := by
  split_ifs with hlen
  · simp [kvstoreGet, findEntry, hlen, errKeyLen]
  · by_cases hex : ∃ i v, Holds store key i v
    · obtain ⟨i, v, h⟩ := hex
      rw [hc.contents_of_holds h (by omega), kvstoreGet, hc.findEntry_of_holds h (by omega)]
      simp
    · have hno : ∀ i v, ¬ Holds store key i v := fun i v h => hex ⟨i, v, h⟩
      rw [hc.contents_of_absent hno, kvstoreGet, hc.findEntry_of_absent hno (by omega)]
      simp [errNoKey]

/-- `kvstore_del_check` in terms of the map. -/
theorem Chained.kvstoreDelCheck_eq (hc : Chained store) (key : CString) :
    kvstoreDelCheck store key =
      if key.strlen > maxKeylen then errKeyLen
      else if store.contents key = none then errNoKey
      else 0 := by
  unfold kvstoreDelCheck
  split_ifs with hlen hhas hnone hnone
  · rfl
  · rfl
  · -- not found by `kvstore_haskey`, yet in the map
    exfalso
    obtain ⟨v, hv⟩ := Option.ne_none_iff_exists'.mp hnone
    obtain ⟨-, i, h⟩ := hc.contents_eq_some_iff.mp hv
    simp [kvstoreHaskey, hc.findEntry_of_holds h (by omega)] at hhas
  · exfalso
    have hno : ∀ i v, ¬ Holds store key i v := by
      intro i v h
      rw [hc.contents_of_holds h (by omega)] at hnone
      cases hnone
    simp [kvstoreHaskey, hc.findEntry_of_absent hno (by omega), errNoKey] at hhas
  · rfl

/-- Two chained stores whose entries are related as `f` says represent related maps. -/
theorem Chained.contents_eq_of_holds {store' : KvStore} (hc : Chained store) (hc' : Chained store') {key : CString}
    (h : ∀ v, (∃ i, Holds store' key i v) ↔ ∃ i, Holds store key i v) : store'.contents key = store.contents key := by
  refine Option.ext fun v => ?_
  rw [hc'.contents_eq_some_iff, hc.contents_eq_some_iff, h]

/-! ### Insertion -/

/-- Writing an entry of `key` where it stands, or at the end of its chain, keeps the
directory chained. -/
theorem Chained.writeEntry (hc : Chained store) {key : CString} (value : CString) {pos m : ℕ}
    (hm : store.entries.Fills (chain (strhash64 key)) m) (hpos : pos ≤ m)
    (hfree : ∀ i v, Holds store key i v → i = pos)
    (hself : pos < m → ∃ v, Holds store key pos v) :
    Chained ⟨store.entries.write (chain (strhash64 key) pos) (.make key value)⟩ where
  gapless := by
    intro hashval
    by_cases hh : hashval = strhash64 key
    · subst hh
      rcases Nat.lt_or_eq_of_le hpos with hlt | rfl
      · exact ⟨m, hm.write_of_stat (Or.inl ((hm pos).mpr hlt))⟩
      · exact ⟨pos + 1, hm.write_next (chain_injective _)⟩
    · obtain ⟨k, hk⟩ := hc.gapless hashval
      exact ⟨k, hk.write_of_stat (Or.inr fun i h => hh (Prod.mk.inj h).1)⟩
  made := by
    intro hashval i entry h
    simp only [Directory.file_write] at h
    split_ifs at h with heq
    · obtain ⟨rfl, -⟩ := Prod.mk.inj heq
      exact ⟨key, value, (Option.some.inj h).symm, rfl⟩
    · exact hc.made _ _ _ h
  unique := by
    intro hashval i j e e' he he' hk
    simp only [Directory.file_write] at he he'
    have hkey : ∀ {i : ℕ} {e : KvEntry}, store.entries.file (chain (strhash64 key) i) = some e →
        e.key = key → i = pos := fun he hk => hfree _ _ (hc.holds_of_key he hk)
    split_ifs at he he' with h₁ h₂ h₂
    · exact (Prod.mk.inj h₁).2.trans (Prod.mk.inj h₂).2.symm
    · obtain ⟨rfl, rfl⟩ := Prod.mk.inj h₁
      obtain rfl := Option.some.inj he
      exact (hkey he' (by simpa using hk.symm)).symm
    · obtain ⟨rfl, rfl⟩ := Prod.mk.inj h₂
      obtain rfl := Option.some.inj he'
      exact hkey he (by simpa using hk)
    · exact hc.unique _ _ _ _ _ he he' hk

/-- After writing an entry of `key` the map has the value there, and is as before
elsewhere. -/
theorem Chained.contents_writeEntry (hc : Chained store) {key value : CString} {pos : ℕ}
    (hc' : Chained ⟨store.entries.write (chain (strhash64 key) pos) (.make key value)⟩)
    (hfree : ∀ e, store.entries.file (chain (strhash64 key) pos) = some e → e.key = key)
    (hlen : key.strlen ≤ maxKeylen) :
    contents ⟨store.entries.write (chain (strhash64 key) pos) (.make key value)⟩ =
      Function.update store.contents key (some value) := by
  funext key'
  by_cases hk : key' = key
  · subst hk
    rw [Function.update_self]
    exact hc'.contents_of_holds (i := pos) (by simp [Holds]) hlen
  · rw [Function.update_of_ne hk]
    refine hc.contents_eq_of_holds hc' fun v => exists_congr fun i => ?_
    simp only [Holds, Directory.file_write]
    split_ifs with heq
    · constructor
      · intro h
        have := congrArg KvEntry.key (Option.some.inj h)
        simp only [KvEntry.key_make] at this
        exact absurd this.symm hk
      · intro h
        rw [heq] at h
        have := hfree _ h
        simp only [KvEntry.key_make] at this
        exact absurd this hk
    · rfl

/-- **`kvstore_put`** of a key and value within their bounds writes one entry, and the
map changes at that key only. -/
theorem kvstorePut_performs (hc : Chained store) {key value : CString} (hk : key.strlen ≤ maxKeylen)
    (hv : value.strlen ≤ maxVallen) :
    ∃ pos, let o := StoreOp.writeEntry (chain (strhash64 key) pos) (.make key value)
      Performs (kvstorePut key value) store [o] 0 (Effect.exec o store) ∧ Chained (Effect.exec o store) ∧
        contents (Effect.exec o store) = Function.update store.contents key (some value) := by
  have hcheck : kvstorePutCheck key value = 0 := by
    rw [kvstorePutCheck, if_neg (by omega), if_neg (by omega)]
  have hput : ∀ (counter : Int) (pos : ℕ), findEntry store key = (counter, (findEntry store key).2) →
      (if counter ≥ 0 then counter.toNat else store.entries.firstFree (chain (strhash64 key)) 0) = pos →
      Performs (kvstorePut key value) store [.writeEntry (chain (strhash64 key) pos) (.make key value)] 0
        (Effect.exec (StoreOp.writeEntry (chain (strhash64 key) pos) (.make key value)) store) := by
    intro counter pos hfind hpos
    simp only [kvstorePut, hcheck, lt_irrefl, if_false, kvstorePutAt]
    refine .read_bind (.read_bind ?_)
    rw [hfind]
    simp only [hpos]
    exact .perform_bind (.pure _ _)
  obtain ⟨m, hm⟩ := hc.gapless (strhash64 key)
  by_cases hex : ∃ i v, Holds store key i v
  · -- the key is there: its entry is written over
    obtain ⟨i, v, h⟩ := hex
    have hc' := hc.writeEntry value hm (h.lt hm).le
      (fun j w hw => (hc.holds_unique hw h).1) fun _ => ⟨v, h⟩
    refine ⟨i, hput i i (by rw [hc.findEntry_of_holds h hk]) (by simp), hc', ?_⟩
    refine hc.contents_writeEntry hc' (fun e he => ?_) hk
    rw [h] at he
    rw [← Option.some.inj he, KvEntry.key_make]
  · -- it is not: the entry goes to the end of the chain
    have hno : ∀ i v, ¬ Holds store key i v := fun i v h => hex ⟨i, v, h⟩
    have hc' := hc.writeEntry value hm le_rfl (fun i v h => absurd h (hno i v))
      fun h => absurd h (lt_irrefl m)
    refine ⟨m, hput errNoKey m (by rw [hc.findEntry_of_absent hno hk]) ?_, hc', ?_⟩
    · rw [if_neg (by decide), hm.firstFree_eq (chain_injective _) (Nat.zero_le m)]
    · refine hc.contents_writeEntry hc' (fun e he => ?_) hk
      have := (hm m).mp (by rw [Directory.stat, he]; rfl)
      exact absurd this (lt_irrefl m)

/-! ### Deletion -/

omit [StrHash] in
/-- What `kvstore_del` makes of a chain of `m` entries: the last one is in the hole `i`,
and the chain is one shorter. -/
structure Compacted (store store' : KvStore) (hashval : UInt64) (i m : ℕ) : Prop where
  /-- The chain itself. -/
  here : ∀ j, store'.entries.file (chain hashval j) =
    if j < m - 1 then store.entries.file (chain hashval (if j = i then m - 1 else j)) else none
  /-- Everything else. -/
  other : ∀ hashval' j, hashval' ≠ hashval →
    store'.entries.file (chain hashval' j) = store.entries.file (chain hashval' j)

omit [StrHash] in
/-- Where an entry stood before the hole was filled: not in the hole. -/
theorem Compacted.origin {store' : KvStore} {hashval hashval' : UInt64} {i m j : ℕ} {entry : KvEntry}
    (hcp : Compacted store store' hashval i m) (h : store'.entries.file (chain hashval' j) = some entry) :
    ∃ j', store.entries.file (chain hashval' j') = some entry ∧
      j' = (if hashval' = hashval ∧ j = i then m - 1 else j) ∧ (hashval' = hashval → j < m - 1) := by
  by_cases hh : hashval' = hashval
  · subst hh
    rw [hcp.here] at h
    split_ifs at h with hlt hji
    · exact ⟨m - 1, h, by simp [hji], fun _ => hlt⟩
    · exact ⟨j, h, by simp [hji], fun _ => hlt⟩
  · rw [hcp.other _ _ hh] at h
    exact ⟨j, h, by simp [hh], fun e => absurd e hh⟩

theorem Chained.compacted {store' : KvStore} (hc : Chained store) {hashval : UInt64} {i m : ℕ}
    (hm : store.entries.Fills (chain hashval) m) (hi : i < m) (hcp : Compacted store store' hashval i m) :
    Chained store' where
  gapless := by
    intro hashval'
    by_cases hh : hashval' = hashval
    · subst hh
      refine ⟨m - 1, fun j => ?_⟩
      rw [Directory.stat, hcp.here]
      split_ifs with hlt hji
      · exact iff_of_true ((hm (m - 1)).mpr (by omega)) hlt
      · exact iff_of_true ((hm j).mpr (by omega)) hlt
      · exact iff_of_false (by simp) hlt
    · obtain ⟨k, hk⟩ := hc.gapless hashval'
      refine ⟨k, fun j => ?_⟩
      rw [Directory.stat, hcp.other _ _ hh]
      exact hk j
  made := by
    intro hashval' j entry h
    obtain ⟨j', h', -⟩ := hcp.origin h
    exact hc.made _ _ _ h'
  unique := by
    intro hashval' j k e e' he he' hk
    obtain ⟨j', hj, rfl, hjlt⟩ := hcp.origin he
    obtain ⟨k', hk', rfl, hklt⟩ := hcp.origin he'
    have heq := hc.unique _ _ _ _ _ hj hk' hk
    split_ifs at heq with h₁ h₂ h₂
    · exact h₁.2.trans h₂.2.symm
    · have := hklt h₁.1; omega
    · have := hjlt h₂.1; omega
    · exact heq

/-- After the hole of `key` is filled the map has nothing at `key`, and is as before
elsewhere. -/
theorem Chained.contents_compacted {store' : KvStore} (hc : Chained store) {key value : CString} {i m : ℕ}
    (hm : store.entries.Fills (chain (strhash64 key)) m) (h : Holds store key i value)
    (hcp : Compacted store store' (strhash64 key) i m) :
    contents store' = Function.update store.contents key none := by
  have hi := h.lt hm
  have hc' := hc.compacted hm hi hcp
  funext key'
  by_cases hk : key' = key
  · subst hk
    rw [Function.update_self]
    refine hc'.contents_of_absent fun j w hw => ?_
    obtain ⟨j', hj', hj, hlt⟩ := hcp.origin hw
    have hji := (hc.holds_unique hj' h).1
    have := hlt rfl
    split_ifs at hj with hc₁
    · omega
    · exact hc₁ ⟨rfl, by omega⟩
  · rw [Function.update_of_ne hk]
    refine hc.contents_eq_of_holds hc' fun w => ⟨fun ⟨j, hw⟩ => ?_, fun ⟨j, hw⟩ => ?_⟩
    · obtain ⟨j', hj', -⟩ := hcp.origin hw
      exact ⟨j', hj'⟩
    · by_cases hh : strhash64 key' = strhash64 key
      · -- the entry stays, unless it was the last: then it is in the hole
        have hji : j ≠ i := by
          rintro rfl
          rw [Holds, hh, h] at hw
          have := congrArg KvEntry.key (Option.some.inj hw)
          simp only [KvEntry.key_make] at this
          exact hk this.symm
        have hjm := hw.lt (hh ▸ hm)
        rw [Holds, hh] at hw
        by_cases hlast : j = m - 1
        · refine ⟨i, ?_⟩
          rw [Holds, hh, hcp.here, if_pos (by omega), if_pos rfl, ← hlast, hw]
        · refine ⟨j, ?_⟩
          rw [Holds, hh, hcp.here, if_pos (by omega), if_neg hji, hw]
      · exact ⟨j, by rw [Holds, hcp.other _ _ hh]; exact hw⟩

omit [StrHash] in
theorem compacted_remove {hashval : UInt64} {m : ℕ} (hm : store.entries.Fills (chain hashval) (m + 1)) :
    Compacted store (Effect.exec (StoreOp.removeEntry (chain hashval m)) store) hashval m (m + 1) where
  here := by
    intro j
    show (store.entries.remove _).file _ = _
    rw [Directory.file_remove]
    rcases lt_trichotomy j m with hlt | rfl | hgt
    · rw [if_neg (by simp [chain]; omega), if_pos (by omega), if_neg (by omega)]
    · simp
    · rw [if_neg (by simp [chain]; omega), if_neg (by omega)]
      have := (hm j).not.mpr (by omega)
      simpa [Directory.stat] using this
  other := by
    intro hashval' j hh
    exact Directory.file_remove_of_ne (by simp [chain, hh])

omit [StrHash] in
theorem compacted_rename {hashval : UInt64} {i m : ℕ} (hm : store.entries.Fills (chain hashval) (m + 1)) (hi : i < m) :
    Compacted store (Effect.exec (StoreOp.renameEntry (chain hashval m) (chain hashval i)) store) hashval i (m + 1) := by
  obtain ⟨e, he⟩ := Option.isSome_iff_exists.mp ((hm m).mpr (by omega))
  refine ⟨fun j => ?_, fun hashval' j hh => ?_⟩
  · show (store.entries.rename _ _).file _ = _
    rw [Directory.file_rename he]
    rcases lt_trichotomy j m with hlt | rfl | hgt
    · rw [if_pos (show j < m + 1 - 1 by omega), if_neg (show ¬ chain hashval j = chain hashval m by simp [chain]; omega)]
      by_cases hji : j = i
      · subst hji
        simp [he]
      · rw [if_neg (show ¬ chain hashval j = chain hashval i by simp [chain, hji]), if_neg hji]
    · rw [if_neg (show ¬ chain hashval j = chain hashval i by simp [chain]; omega), if_pos rfl, if_neg (by omega)]
    · rw [if_neg (show ¬ chain hashval j = chain hashval i by simp [chain]; omega),
        if_neg (show ¬ chain hashval j = chain hashval m by simp [chain]; omega), if_neg (by omega)]
      have := (hm j).not.mpr (by omega)
      simpa [Directory.stat] using this
  · show (store.entries.rename _ _).file _ = _
    rw [Directory.file_rename he, if_neg (by simp [chain, hh]), if_neg (by simp [chain, hh])]

/-- The call by which `kvstore_del` takes away the entry at `name`: it removes that file, or
moves another over it. -/
def Deletes (name : UInt64 × ℕ) (o : StoreOp) : Prop :=
  o = .removeEntry name ∨ ∃ src, o = .renameEntry src name

/-- **`kvstore_del`** of a key that is there takes its entry away by one call, and the map
changes at that key only. -/
theorem kvstoreDel_performs (hc : Chained store) {key value : CString} {i : ℕ} (h : Holds store key i value)
    (hk : key.strlen ≤ maxKeylen) :
    ∃ o, Deletes (chain (strhash64 key) i) o ∧ Performs (kvstoreDel key) store [o] 0 (Effect.exec o store) ∧
      Chained (Effect.exec o store) ∧
      contents (Effect.exec o store) = Function.update store.contents key none := by
  obtain ⟨m, hm⟩ := hc.gapless (strhash64 key)
  have hi := h.lt hm
  obtain ⟨m, rfl⟩ : ∃ k, m = k + 1 := ⟨m - 1, by omega⟩
  have hend : store.entries.firstFree (chain (strhash64 key)) (i + 1) = m + 1 :=
    hm.firstFree_eq (chain_injective _) (by omega)
  have hdel : ∀ o : StoreOp, (i = m → o = .removeEntry (chain (strhash64 key) i)) →
      (i ≠ m → o = .renameEntry (chain (strhash64 key) m) (chain (strhash64 key) i)) →
      Performs (kvstoreDel key) store [o] 0 (Effect.exec o store) := by
    intro o h₁ h₂
    refine .read_bind ?_
    rw [hc.findEntry_of_holds h hk]
    refine .ite_neg (by omega) (.read_bind ?_)
    simp only [Int.toNat_natCast, hend, Nat.add_right_cancel_iff, Nat.add_sub_cancel]
    by_cases him : i = m
    · obtain rfl := h₁ him
      simp only [if_pos him.symm]
      exact .perform_bind (.pure _ _)
    · obtain rfl := h₂ him
      simp only [if_neg (Ne.symm him)]
      exact .perform_bind (.pure _ _)
  rcases Nat.lt_or_eq_of_le (show i ≤ m by omega) with hlt | rfl
  · have hcp := compacted_rename hm hlt
    exact ⟨_, Or.inr ⟨_, rfl⟩, hdel _ (fun h => by omega) (fun _ => rfl), hc.compacted hm hi hcp,
      hc.contents_compacted hm h hcp⟩
  · have hcp := compacted_remove hm
    exact ⟨_, Or.inl rfl, hdel _ (fun _ => rfl) (fun h => absurd rfl h), hc.compacted hm hi hcp,
      hc.contents_compacted hm h hcp⟩

end KvStore

end Cs162Hw.Kv
