import Cs162Hw.Kv.StoreMap

/-!
# Callers of a store

Sequences of calls of `kvstore_put`, `kvstore_get`, `kvstore_del` and `kvstore_haskey`, whatever
`strhash64` makes of their keys.

* **`store_refines`** — one at a time: on an empty directory the calls do what they would do to a map,
  chains stay without gaps, and no key occurs twice.
* **`callers_linear`** — any number at a time. A call looks for its key under the read lock and does its
  writing under the write lock, in a section of its own, at the position it has found. As long as
  `find_entry` would find no other position when that section begins (`Callers.Undisturbed`), every
  call does what it would do alone at the moment at which it ends. `same_key_twice` — two
  `kvstore_put`s of one key that both find nothing.
-/

namespace Cs162Hw.Kv

open Library

/-! ## One at a time -/

/-- A call. -/
inductive StoreCall where
  /-- `kvstore_put`. -/
  | put (key value : CString)
  /-- `kvstore_get`. -/
  | get (key : CString)
  /-- `kvstore_del`. -/
  | del (key : CString)
  /-- `kvstore_haskey`. -/
  | haskey (key : CString)
  deriving DecidableEq

/-- What a call returns: the code, and what it stores through `VALUE`. -/
abbrev StoreResult := Int × Option CString

namespace StoreCall

/-- The key it is about. -/
def key : StoreCall → CString
  | put key _ => key
  | get key => key
  | del key => key
  | haskey key => key

/-- Key and value are not too long. -/
def Valid : StoreCall → Prop
  | put key value => key.strlen ≤ maxKeylen ∧ value.strlen ≤ maxVallen
  | get key => key.strlen ≤ maxKeylen
  | del key => key.strlen ≤ maxKeylen
  | haskey key => key.strlen ≤ maxKeylen

instance (call : StoreCall) : Decidable call.Valid :=
  match call with
  | put _ _ => inferInstanceAs (Decidable (_ ∧ _))
  | get _ => inferInstanceAs (Decidable (_ ≤ _))
  | del _ => inferInstanceAs (Decidable (_ ≤ _))
  | haskey _ => inferInstanceAs (Decidable (_ ≤ _))

/-- What a map makes of it. -/
def spec (m : KvMap) : StoreCall → StoreResult × KvMap
  | put key value => ((0, none), Function.update m key (some value))
  | get key =>
    match m key with
    | some value => ((0, some value), m)
    | none => ((errNoKey, none), m)
  | del key => if m key = none then ((errNoKey, none), m) else ((0, none), Function.update m key none)
  | haskey key => ((if m key = none then 0 else 1, none), m)

/-- An operation on one key does not touch another. -/
theorem spec_of_ne (m : KvMap) {call : StoreCall} {k : CString} (h : k ≠ call.key) : (call.spec m).2 k = m k := by
  cases call with
  | put key value => exact Function.update_of_ne h ..
  | get key => simp only [spec]; split <;> rfl
  | del key =>
    simp only [spec]
    split_ifs
    · rfl
    · exact Function.update_of_ne h ..
  | haskey key => rfl

end StoreCall

section

variable [StrHash]

/-- What the store makes of it; no result if the process dies. -/
def StoreCall.run (store : KvStore) : StoreCall → Option StoreResult × KvStore
  | .put key value =>
    let (ret, store') := (kvstorePut key value).run store
    (ret.map (·, none), store')
  | .get key => (some (kvstoreGet store key), store)
  | .del key =>
    let (ret, store') := (kvstoreDel key).run store
    (ret.map (·, none), store')
  | .haskey key => (some (if kvstoreHaskey store key then 1 else 0, none), store)

/-- The results of a sequence of calls, and the store after it. -/
def KvStore.calls (store : KvStore) : List StoreCall → List (Option StoreResult) × KvStore
  | [] => ([], store)
  | call :: rest =>
    let (res, store') := call.run store
    let (results, last) := store'.calls rest
    (res :: results, last)

omit [StrHash] in
/-- The same of a map. -/
def specCalls (m : KvMap) : List StoreCall → List StoreResult × KvMap
  | [] => ([], m)
  | call :: rest =>
    let (res, m') := call.spec m
    let (results, last) := specCalls m' rest
    (res :: results, last)

namespace KvStore

variable {store : KvStore}

theorem Chained.absent_of_contents (hc : Chained store) {key : CString} (hlen : key.strlen ≤ maxKeylen)
    (h : store.contents key = none) (i : ℕ) (v : CString) : ¬ Holds store key i v := by
  intro hv
  rw [hc.contents_of_holds hv hlen] at h
  cases h

/-- `kvstore_haskey` in terms of the map. -/
theorem Chained.kvstoreHaskey_eq (hc : Chained store) {key : CString} (hlen : key.strlen ≤ maxKeylen) :
    kvstoreHaskey store key = decide (store.contents key ≠ none) := by
  cases hm : store.contents key with
  | none =>
    rw [kvstoreHaskey, hc.findEntry_of_absent (hc.absent_of_contents hlen hm) hlen]
    decide
  | some v =>
    obtain ⟨-, i, hi⟩ := hc.contents_eq_some_iff.mp hm
    rw [kvstoreHaskey, hc.findEntry_of_holds hi hlen]
    simp

/-- `kvstore_del` of a key that is not there. -/
theorem Chained.run_del_of_absent (hc : Chained store) {key : CString} (hlen : key.strlen ≤ maxKeylen)
    (h : store.contents key = none) : (kvstoreDel key).run store = (some errNoKey, store) := by
  have hrun : Program.Performs (kvstoreDel key) store [] errNoKey store := by
    refine .read_bind ?_
    rw [hc.findEntry_of_absent (hc.absent_of_contents hlen h) hlen]
    exact .ite_pos (by decide) (.pure _ _)
  exact hrun.run_eq

/-- **One call**: the store does what the map does, and stays chained. -/
theorem Chained.run_call (hc : Chained store) {call : StoreCall} (h : call.Valid) :
    (call.run store).1 = some (call.spec store.contents).1 ∧ Chained (call.run store).2 ∧
      (call.run store).2.contents = (call.spec store.contents).2 := by
  cases call with
  | put key value =>
    obtain ⟨pos, hput, hc', hm⟩ := kvstorePut_performs hc h.1 h.2
    simp only [StoreCall.run, hput.run_eq]
    exact ⟨rfl, hc', hm⟩
  | get key =>
    have hget := hc.kvstoreGet_eq key
    rw [if_neg (Nat.not_lt.mpr h)] at hget
    simp only [StoreCall.run, hget, StoreCall.spec]
    cases store.contents key with
    | none => exact ⟨rfl, hc, rfl⟩
    | some v => exact ⟨rfl, hc, rfl⟩
  | del key =>
    by_cases hnone : store.contents key = none
    · simp only [StoreCall.run, hc.run_del_of_absent h hnone, StoreCall.spec, if_pos hnone]
      exact ⟨rfl, hc, trivial⟩
    · obtain ⟨value, hvalue⟩ := Option.ne_none_iff_exists'.mp hnone
      obtain ⟨-, i, hi⟩ := hc.contents_eq_some_iff.mp hvalue
      obtain ⟨o, -, hdel, hc', hm⟩ := kvstoreDel_performs hc hi h
      simp only [StoreCall.run, hdel.run_eq, StoreCall.spec, if_neg hnone]
      exact ⟨rfl, hc', hm⟩
  | haskey key =>
    simp only [StoreCall.run, hc.kvstoreHaskey_eq h, StoreCall.spec]
    refine ⟨?_, hc, trivial⟩
    by_cases hnone : store.contents key = none <;> simp [hnone]

/-- A sequence of calls. -/
theorem Chained.run_calls (hc : Chained store) {cs : List StoreCall} (h : ∀ call ∈ cs, call.Valid) :
    (store.calls cs).1 = (specCalls store.contents cs).1.map some ∧ Chained (store.calls cs).2 ∧
      (store.calls cs).2.contents = (specCalls store.contents cs).2 := by
  induction cs generalizing store with
  | nil => exact ⟨rfl, hc, rfl⟩
  | cons call cs ih =>
    obtain ⟨hres, hc', hm⟩ := hc.run_call (h call List.mem_cons_self)
    obtain ⟨hrest, hlast, hmlast⟩ := ih hc' fun c hcall => h c (List.mem_cons_of_mem _ hcall)
    rw [hm] at hrest hmlast
    simp only [calls, specCalls, hres, hrest, hmlast]
    exact ⟨rfl, hlast, trivial⟩

end KvStore

/-- **A store is a map.** On an empty directory any calls with keys and values that are not too long return what they
would return on an empty map, and leave a store that represents what they would leave of the map; its chains have no gaps,
their entries the right hashes, and no key occurs twice; and the next call touches no key but its own. -/
theorem store_refines (calls : List StoreCall) (h : ∀ call ∈ calls, call.Valid) :
    let (results, store) := KvStore.calls ⟨.empty⟩ calls
    let (expected, m) := specCalls (fun _ => none) calls
    results = expected.map some ∧ store.contents = m ∧ store.Chained ∧
      ∀ call : StoreCall, call.Valid → ∀ k, k ≠ call.key → (call.run store).2.contents k = store.contents k := by
  obtain ⟨hres, hc, hm⟩ := KvStore.chained_empty.run_calls h
  rw [KvStore.contents_empty] at hres hm
  refine ⟨hres, hm, hc, fun call hcall k hk => ?_⟩
  rw [(hc.run_call hcall).2.2]
  exact StoreCall.spec_of_ne _ hk

/-! ## Any number at a time -/

omit [StrHash] in
/-- `ENOENT`. -/
def enoent : Int := 2

/-- The position at which `kvstore_put` writes its entry, `find_entry` having returned `counter`. -/
def putPos (store : KvStore) (key : CString) (counter : Int) : ℕ :=
  if counter ≥ 0 then counter.toNat else store.entries.firstFree (chain (strhash64 key)) 0

/-- `kvstore_del` under the write lock when the entry may be gone: `remove` of a file that is not there returns its
error. (`rename` finds its file, the last that `stat` has found.) -/
def kvstoreDelGone (store : KvStore) (key : CString) (chainpos : ℕ) : Option Int × KvStore :=
  if store.entries.firstFree (chain (strhash64 key)) (chainpos + 1) = chainpos + 1 ∧
      store.entries.file (chain (strhash64 key) chainpos) = none then (some enoent, store)
  else (kvstoreDelAt key chainpos).run store

/-- The first section of a call, its `find_entry`: it returns the position found to the call, or ends it. -/
def StoreCall.begin (store : KvStore) : StoreCall → Int ⊕ StoreResult
  | put key value =>
    let check := kvstorePutCheck key value
    if check < 0 then .inr (check, none) else .inl (findEntry store key).1
  | get key => .inr (kvstoreGet store key)
  | del key =>
    let chainpos := (findEntry store key).1
    if chainpos < 0 then .inr (chainpos, none) else .inl chainpos
  | haskey key => .inr (if kvstoreHaskey store key then 1 else 0, none)

/-- A call between its two sections. -/
structure Midway where
  /-- The call. -/
  call : StoreCall
  /-- What `find_entry` has returned. -/
  found : Int
  deriving DecidableEq

namespace Midway

/-- The second section, under the write lock. -/
def write (store : KvStore) (m : Midway) : Option StoreResult × KvStore :=
  match m.call with
  | .put key value =>
    let (ret, store') := (kvstorePutAt key value m.found).run store
    (ret.map (·, none), store')
  | .del key =>
    let (ret, store') := kvstoreDelGone store key m.found.toNat
    (ret.map (·, none), store')
  -- these have one section only
  | .get _ => (none, store)
  | .haskey _ => (none, store)

/-- The position found is not out of date: the section works at the position at which it would if `find_entry` were
called again. -/
def Fresh (store : KvStore) (m : Midway) : Prop :=
  match m.call with
  | .put key _ => putPos store key m.found = putPos store key (findEntry store key).1
  | .del key => m.found = (findEntry store key).1
  | .get _ => True
  | .haskey _ => True

instance (store : KvStore) (m : Midway) : Decidable (m.Fresh store) :=
  match m with
  | ⟨.put _ _, _⟩ => inferInstanceAs (Decidable (_ = _))
  | ⟨.del _, _⟩ => inferInstanceAs (Decidable (_ = _))
  | ⟨.get _, _⟩ => inferInstanceAs (Decidable True)
  | ⟨.haskey _, _⟩ => inferInstanceAs (Decidable True)

end Midway

/-- A store and its callers. -/
structure Callers where
  /-- The store. -/
  store : KvStore
  /-- The calls that have found their position and wait for the write lock. -/
  midway : List Midway
  /-- The calls that have returned and their results, in the order of their last sections. -/
  finished : List (StoreCall × Option StoreResult)

/-- One section of a call. -/
inductive CallerEvent where
  /-- The first section of another call. -/
  | start (call : StoreCall)
  /-- The second section of one that waits. -/
  | write (i : ℕ)

namespace Callers

/-- A store that nobody has called yet. -/
def start (store : KvStore) : Callers := ⟨store, [], []⟩

/-- One section. -/
def step (s : Callers) : CallerEvent → Callers
  | .start call =>
    match call.begin s.store with
    | .inl found => { s with midway := s.midway ++ [⟨call, found⟩] }
    | .inr res => { s with finished := s.finished ++ [(call, some res)] }
  | .write i =>
    match s.midway[i]? with
    | none => s
    | some m =>
      let (res, store') := m.write s.store
      ⟨store', s.midway.eraseIdx i, s.finished ++ [(m.call, res)]⟩

/-- Sections in some order. -/
def run (s : Callers) (events : List CallerEvent) : Callers := events.foldl step s

/-- No write section begins with a position that is out of date. -/
def Undisturbed (s : Callers) : List CallerEvent → Prop
  | [] => True
  | e :: events =>
    (match e with
      | .start _ => True
      | .write i => ∀ m ∈ s.midway[i]?, m.Fresh s.store) ∧ Undisturbed (s.step e) events

instance undisturbedDecidable (s : Callers) : (events : List CallerEvent) → Decidable (s.Undisturbed events)
  | [] => inferInstanceAs (Decidable True)
  | .start call :: events =>
    have := undisturbedDecidable (s.step (.start call)) events
    inferInstanceAs (Decidable (True ∧ (s.step (.start call)).Undisturbed events))
  | .write i :: events =>
    have := undisturbedDecidable (s.step (.write i)) events
    inferInstanceAs (Decidable ((∀ m ∈ s.midway[i]?, m.Fresh s.store) ∧ (s.step (.write i)).Undisturbed events))

/-- The store is as it should be, and so are the results: the calls that have returned, each taken at the moment of its
last section, do one after another what they have done, with these results. -/
structure Linear (store₀ : KvStore) (s : Callers) : Prop where
  /-- The chains. -/
  chained : s.store.Chained
  /-- The calls. -/
  calls : store₀.calls (s.finished.map Prod.fst) = (s.finished.map Prod.snd, s.store)

end Callers

namespace KvStore

variable {store : KvStore}

/-- One more call. -/
theorem calls_concat (cs : List StoreCall) (call : StoreCall) :
    store.calls (cs ++ [call]) =
      ((store.calls cs).1 ++ [(call.run (store.calls cs).2).1], (call.run (store.calls cs).2).2) := by
  induction cs generalizing store with
  | nil => rfl
  | cons c cs ih => simp only [List.cons_append, KvStore.calls, ih]

/-- `kvstore_put` of what does not pass its check. -/
theorem run_put_of_check {key value : CString} (h : kvstorePutCheck key value < 0) :
    (kvstorePut key value).run store = (some (kvstorePutCheck key value), store) := by
  simp only [kvstorePut, if_pos h]
  rfl

/-- `kvstore_put` of what does: its second section, at the position found now. -/
theorem run_put_of_not_check {key value : CString} (h : ¬ kvstorePutCheck key value < 0) :
    (kvstorePut key value).run store = (kvstorePutAt key value (findEntry store key).1).run store := by
  simp only [kvstorePut, if_neg h]
  rfl

/-- `kvstore_del` of a key that is not found. -/
theorem run_del_of_neg {key : CString} (h : (findEntry store key).1 < 0) :
    (kvstoreDel key).run store = (some (findEntry store key).1, store) := by
  have hrun : Program.Performs (kvstoreDel key) store [] (findEntry store key).1 store :=
    .read_bind (.ite_pos h (.pure _ _))
  exact hrun.run_eq

/-- `kvstore_del` of one that is: its second section, at the position found now. -/
theorem run_del_of_nonneg {key : CString} (h : ¬ (findEntry store key).1 < 0) :
    (kvstoreDel key).run store = (kvstoreDelAt key (findEntry store key).1.toNat).run store := by
  show Program.run (if (findEntry store key).1 < 0 then _ else _) store = _
  rw [if_neg h]

/-- A call leaves a store chained, whatever its arguments. -/
theorem Chained.run (hc : Chained store) (call : StoreCall) : Chained (call.run store).2 := by
  by_cases hv : call.Valid
  · exact (hc.run_call hv).2.1
  · cases call with
    | put key value =>
      have hcheck : kvstorePutCheck key value < 0 := by
        simp only [StoreCall.Valid, not_and_or, Nat.not_le] at hv
        rw [kvstorePutCheck]
        split_ifs with hk hval
        · decide
        · decide
        · exact absurd hv (not_or.mpr ⟨hk, hval⟩)
      simp only [StoreCall.run, run_put_of_check hcheck]
      exact hc
    | get key => exact hc
    | del key =>
      have hlong : (findEntry store key).1 = errKeyLen := by
        rw [findEntry, if_pos (Nat.not_le.mp hv)]
      simp only [StoreCall.run, run_del_of_neg (show (findEntry store key).1 < 0 by rw [hlong]; decide)]
      exact hc
    | haskey key => exact hc

/-- A position found is that of an entry. -/
theorem Chained.file_of_findEntry (hc : Chained store) {key : CString} {i : ℕ} (h : (findEntry store key).1 = i) :
    store.entries.file (chain (strhash64 key) i) ≠ none := by
  rcases Nat.lt_or_ge maxKeylen key.strlen with hlong | hlen
  · rw [findEntry, if_pos hlong] at h
    exact absurd h (by simp only [errKeyLen]; omega)
  · by_cases hex : ∃ j v, Holds store key j v
    · obtain ⟨j, v, hj⟩ := hex
      rw [hc.findEntry_of_holds hj hlen] at h
      obtain rfl : j = i := Int.ofNat.inj h
      rw [hj]
      exact Option.some_ne_none _
    · rw [hc.findEntry_of_absent (fun j v hj => hex ⟨j, v, hj⟩) hlen] at h
      exact absurd h (by simp only [errNoKey]; omega)

end KvStore

/-- A call that ends with its first section has done all that it does alone. -/
theorem StoreCall.run_of_begin_inr {store : KvStore} {call : StoreCall} {res : StoreResult}
    (h : call.begin store = .inr res) : call.run store = (some res, store) := by
  cases call with
  | put key value =>
    simp only [begin] at h
    split at h
    · next hcheck =>
      obtain rfl := Sum.inr.inj h
      simp only [run, KvStore.run_put_of_check hcheck, Option.map_some]
    · cases h
  | get key =>
    obtain rfl := Sum.inr.inj h
    rfl
  | del key =>
    simp only [begin] at h
    split at h
    · next hneg =>
      obtain rfl := Sum.inr.inj h
      simp only [run, KvStore.run_del_of_neg hneg, Option.map_some]
    · cases h
  | haskey key =>
    obtain rfl := Sum.inr.inj h
    rfl

/-- A second section at a position that is not out of date does all that the call does alone. -/
theorem Midway.write_of_fresh {store : KvStore} (hc : store.Chained) {m : Midway} {store' : KvStore}
    (hm : m.call.begin store' = .inl m.found) (hf : m.Fresh store) : m.write store = m.call.run store := by
  obtain ⟨call, found⟩ := m
  cases call with
  | put key value =>
    have hcheck : ¬ kvstorePutCheck key value < 0 := by
      intro hneg
      simp [StoreCall.begin, hneg] at hm
    have hpos : putPos store key found = putPos store key (findEntry store key).1 := hf
    have hat : ∀ counter, (kvstorePutAt key value counter).run store =
        (some 0, Effect.exec
          (StoreOp.writeEntry (chain (strhash64 key) (putPos store key counter)) (.make key value)) store) :=
      fun _ => rfl
    simp only [write, StoreCall.run, KvStore.run_put_of_not_check hcheck, hat, hpos]
  | get key => cases hm
  | del key =>
    have hpos : found = (findEntry store key).1 := hf
    have hfound : ¬ found < 0 := by
      intro hneg
      simp only [StoreCall.begin] at hm
      split at hm
      · cases hm
      · next hn => exact hn (Sum.inl.inj hm ▸ hneg)
    have hfile : store.entries.file (chain (strhash64 key) found.toNat) ≠ none :=
      hc.file_of_findEntry (by rw [← hpos]; omega)
    simp only [write, StoreCall.run, kvstoreDelGone, hfile, and_false, if_false,
      KvStore.run_del_of_nonneg (hpos ▸ hfound), ← hpos]
  | haskey key => cases hm

namespace Callers

variable {store₀ : KvStore} {s : Callers}

/-- What every section keeps: the calls that have returned are in order, and those that wait have found their position
in some store. -/
structure Inv (store₀ : KvStore) (s : Callers) : Prop extends Linear store₀ s where
  /-- The calls midway. -/
  begun : ∀ m ∈ s.midway, ∃ store, m.call.begin store = .inl m.found

theorem Inv.start (hc : store₀.Chained) : Inv store₀ (start store₀) where
  chained := hc
  calls := rfl
  begun _ h := absurd h List.not_mem_nil

/-- A call that returns, having done what it does alone. -/
theorem Inv.finish (h : Inv store₀ s) (call : StoreCall) {midway : List Midway} (hm : midway ⊆ s.midway) :
    Inv store₀ ⟨(call.run s.store).2, midway, s.finished ++ [(call, (call.run s.store).1)]⟩ where
  chained := h.chained.run call
  calls := by simp only [List.map_append, List.map_cons, List.map_nil, KvStore.calls_concat, h.calls]
  begun m hmem := h.begun m (hm hmem)

/-- **One section.** -/
theorem Inv.step (h : Inv store₀ s) {e : CallerEvent} {events : List CallerEvent} (hu : s.Undisturbed (e :: events)) :
    Inv store₀ (s.step e) := by
  cases e with
  | start call =>
    simp only [Callers.step]
    cases hb : call.begin s.store with
    | inl found =>
      refine ⟨⟨h.chained, h.calls⟩, fun m hm => ?_⟩
      rcases List.mem_append.mp hm with hm | hm
      · exact h.begun m hm
      · obtain rfl := List.mem_singleton.mp hm
        exact ⟨s.store, hb⟩
    | inr res =>
      have hfin := h.finish call (List.Subset.refl s.midway)
      rwa [StoreCall.run_of_begin_inr hb] at hfin
  | write i =>
    simp only [Callers.step]
    cases hi : s.midway[i]? with
    | none => exact h
    | some m =>
      obtain ⟨store', hb⟩ := h.begun m (List.mem_of_getElem? hi)
      have hfresh : m.Fresh s.store := hu.1 m hi
      have hw := Midway.write_of_fresh h.chained hb hfresh
      simp only [hw]
      exact h.finish m.call (List.eraseIdx_subset)

/-- Sections in any order. -/
theorem Inv.run (h : Inv store₀ s) {events : List CallerEvent} (hu : s.Undisturbed events) :
    Inv store₀ (s.run events) := by
  induction events generalizing s with
  | nil => exact h
  | cons e events ih => exact ih (h.step hu) hu.2

end Callers

/-- **Callers of a store.** As long as no call begins its write section with a position that is out of date, however the
sections of any number of calls alternate: the chains are without gaps and no key occurs twice, and each call that has
returned has done what it would do alone at the moment of its last section, and returned what it would. -/
theorem callers_linear (store : KvStore) (hc : store.Chained) (events : List CallerEvent)
    (h : (Callers.start store).Undisturbed events) : ((Callers.start store).run events).Linear store :=
  ((Callers.Inv.start hc).run h).toLinear

end

section

attribute [local instance] md5Sample

/-- Calls on two keys; here both have one hash. -/
def twoKeys : List StoreCall :=
  [.put (.ofString "b") (.ofString "1"), .put (.ofString "c") (.ofString "2"), .del (.ofString "b"),
    .get (.ofString "c"), .get (.ofString "b")]

/-- `store_refines` for them. -/
theorem store_refines_colliding :
    let (results, store) := KvStore.calls ⟨.empty⟩ twoKeys
    let (expected, m) := specCalls (fun _ => none) twoKeys
    results = expected.map some ∧ store.contents = m ∧ store.Chained ∧
      ∀ call : StoreCall, call.Valid → ∀ k, k ≠ call.key → (call.run store).2.contents k = store.contents k :=
  store_refines twoKeys (by decide +kernel)

/-- `callers_linear` for a `kvstore_put` and a `kvstore_del` of two keys with one hash, another `kvstore_put` midway. -/
theorem callers_linear_colliding :
    ((Callers.start ⟨.empty⟩).run [.start (.put (.ofString "b") (.ofString "1")),
      .start (.put (.ofString "c") (.ofString "2")), .write 0, .start (.del (.ofString "b")), .write 1, .write 0,
      .start (.get (.ofString "c"))]).Linear ⟨.empty⟩ :=
  callers_linear ⟨.empty⟩ KvStore.chained_empty _ (by decide +kernel)

/-- Two calls of `kvstore_put` with one key: both look for it before either writes. -/
theorem same_key_twice :
    ¬ ((Callers.start ⟨.empty⟩).run [.start (.put (.ofString "a") (.ofString "1")),
      .start (.put (.ofString "a") (.ofString "2")), .write 0, .write 0]).Linear ⟨.empty⟩ := by
  intro h
  have htwice := h.chained.unique (strhash64 (.ofString "a")) 0 1
    (.make (.ofString "a") (.ofString "1")) (.make (.ofString "a") (.ofString "2"))
    (by decide +kernel) (by decide +kernel) (by decide +kernel)
  exact absurd htwice (by decide)

end

end Cs162Hw.Kv
