import Cs162Hw.Kv.Exchanges
import Cs162Hw.Kv.Placement

/-!
# One map on many followers

The whole system of `hw4` when nothing fails: followers that have registered, and clients whose requests are handled one
at a time.

* `TpcLeader.share`: the part of a map that a follower is to hold.
* `handle_write` and `handle_get`: one request. The replies are those of the map, and afterwards every follower holds its
  part.
* **`replicated_map`**: over any sequence of requests the leader and its followers are one map.
-/

namespace Cs162Hw.Kv

open Library
open Library.TwoPhase (Operations Phase Unanimous)
open Library.TwoPhase.Operations (apply check)

/-! ## Followers at their addresses -/

/-- What the follower at an address registers with (`kvserver_register_leader`): its host, and its port in decimal. -/
def Address.offer (a : Address) : Offer := ⟨a.1, decimal a.2.toNat⟩

theorem toUInt16_atoi_decimal (port : UInt16) : (UInt32.ofInt (atoi (decimal port.toNat))).toUInt16 = port := by
  have hlt := port.toNat_lt
  have hmod : ((port.toNat : ℤ) % 2 ^ 32).toNat = port.toNat := by omega
  rw [atoi_decimal]
  show (UInt32.ofNat ((port.toNat : ℤ) % 2 ^ 32).toNat).toUInt16 = port
  rw [hmod, UInt32.toUInt16_ofNat', UInt16.ofNat_toNat]

section

variable [StrHash]

/-- The leader of these followers, each of which has registered once. -/
def leaderOf (followers : List Address) (redundancy : ℕ) : TpcLeader :=
  (tpcleaderInit followers.length redundancy).registered ((followers.map Address.offer).map Offer.request)

variable {followers : List Address} {redundancy : ℕ}

omit [StrHash] in
theorem distinct_of_nodup {α : Type} [DecidableEq α] {l : List α} (h : l.Nodup) : distinct l = l := by
  induction l using List.reverseRecOn with
  | nil => rfl
  | append_singleton l a ih =>
    obtain ⟨hl, -, hdisjoint⟩ := List.nodup_append.mp h
    rw [distinct_concat, ih hl, if_neg fun hmem => hdisjoint a hmem a (List.mem_singleton_self a) rfl]

theorem mem_of_mem_accepted {capacity : ℕ} {offers : List Offer} {offer : Offer} (h : offer ∈ accepted capacity offers) :
    offer ∈ offers := by
  induction offers using List.reverseRecOn with
  | nil => exact h
  | append_singleton offers last ih =>
    rw [accepted_concat] at h
    split_ifs at h
    · exact List.mem_append_left _ (ih h)
    · exact (List.mem_append.mp h).elim (fun h => List.mem_append_left _ (ih h)) fun h => List.mem_append_right _ h

/-- A node of the leader's list has the id with which the follower at its address has registered. -/
theorem Ring.registered_id {l : List ℕ} (h : Ring (leaderOf followers redundancy) l) {i : ℕ} (hi : i ∈ l) :
    ((leaderOf followers redundancy).nodes i).id = (((leaderOf followers redundancy).nodes i).address).offer.id := by
  obtain ⟨-, -, l', hring, hperm⟩ := ring_registered followers.length redundancy (followers.map Address.offer)
  obtain rfl : l = l' := h.walk_eq.symm.trans hring.walk_eq
  obtain ⟨offer, hoffer, heq⟩ := List.mem_map.mp (hperm.subset (List.mem_map_of_mem hi))
  obtain ⟨a, -, rfl⟩ := List.mem_map.mp (mem_of_mem_accepted hoffer)
  obtain ⟨hid, hrest⟩ := Prod.mk.inj heq
  obtain ⟨hhost, hport⟩ := Prod.mk.inj hrest
  have haddress : ((leaderOf followers redundancy).nodes i).address = a :=
    Prod.ext hhost.symm ((congrArg UInt32.toUInt16 hport.symm).trans (toUInt16_atoi_decimal a.2))
  rw [haddress]
  exact hid.symm

/-- No two replicas of a key are at the same address. -/
theorem addresses_nodup (hfull : Full (leaderOf followers redundancy)) (key : CString) :
    (addresses (leaderOf followers redundancy) key).Nodup := by
  obtain ⟨pri, t, l, -, hring, hrot, heq, -⟩ := hfull.replicas key
  have hmem : ∀ i ∈ (leaderOf followers redundancy).replicas key, i ∈ l := by
    intro i hi
    rw [heq] at hi
    exact hrot.perm.mem_iff.mpr (List.mem_of_mem_take hi)
  refine (List.nodup_map_iff_inj_on (hfull.replicas_nodup key)).mpr fun i hi j hj haddress => ?_
  refine hring.eq_of_id (hmem i hi) (hmem j hj) ?_
  rw [hring.registered_id (hmem i hi), hring.registered_id (hmem j hj), haddress]

/-- With ids of their own, all followers are taken, and the leader is full. -/
theorem full_leaderOf (hne : 1 ≤ followers.length) (hred : 1 ≤ redundancy)
    (hids : (followers.map fun a => a.offer.id).Nodup) : Full (leaderOf followers redundancy) := by
  refine full_registered hne hred ?_
  obtain ⟨-, -, l, hring, hperm⟩ := ring_registered followers.length redundancy (followers.map Address.offer)
  have hids' : ((followers.map Address.offer).map Offer.id).Nodup := by rwa [List.map_map]
  have hlen := hperm.length_eq
  rw [labels, List.length_map, List.length_map, ← List.length_map (f := Offer.id), accepted_ids, distinct_of_nodup hids',
    List.length_take, List.length_map, List.length_map, Nat.min_self] at hlen
  exact hring.count.trans hlen

/-! ## One request -/

omit [StrHash] in
/-- A client's request for a key, as the leader has decoded it. -/
inductive ClientRequest where
  /-- A `GET`; what else the client sends with it is not looked at. -/
  | get (key : CString) (val : Option CString)
  /-- A `PUT` or `DELETE`. -/
  | write (w : Write)

/-- `tpcleader_handle_tpc` and the followers, all of which answer: two exchanges with each replica. -/
def TpcCall.finish (leader : TpcLeader) (req : KvRequest) (net : Address → KvServer) : TpcCall × (Address → KvServer) :=
  (fun s => s.1.exchange leader req handleRequest .answered s.2)^[2 * leader.redundancy] (start leader req, net)

/-- `tpcleader_handle_get` and the followers, all of which answer: an exchange with each replica, or with fewer. -/
def GetCall.finish (leader : TpcLeader) (req : KvRequest) (net : Address → KvServer) : GetCall × (Address → KvServer) :=
  (fun s => s.1.exchange leader req handleRequest .answered s.2)^[leader.redundancy] (start leader req, net)

/-- What the leader makes of a request: its response, if the handler has returned, and the followers after it. -/
def ClientRequest.handle (leader : TpcLeader) (net : Address → KvServer) : ClientRequest → Option KvResponse × (Address → KvServer)
  | .get key val =>
    match GetCall.finish leader ⟨.getReq, some key, val⟩ net with
    | (.returned res, net) => (some res, net)
    | (_, net) => (none, net)
  | .write w =>
    match TpcCall.finish leader w.req net with
    | (.returned res, net) => (some res, net)
    | (_, net) => (none, net)

omit [StrHash] in
/-- Is the operation within the bounds, and is there something to delete? -/
def Update.Allowed (m : KvMap) : Update → Prop
  | .put key value => 1 ≤ key.strlen ∧ key.strlen ≤ maxKeylen ∧ value.strlen ≤ maxVallen
  | .del key => 1 ≤ key.strlen ∧ key.strlen ≤ maxKeylen ∧ m key ≠ none

omit [StrHash] in
instance (m : KvMap) : (u : Update) → Decidable (u.Allowed m)
  | .put _ _ => inferInstanceAs (Decidable (_ ∧ _))
  | .del _ => inferInstanceAs (Decidable (_ ∧ _))

omit [StrHash] in
/-- What is to be made of it: a map answers, and changes. -/
def ClientRequest.spec (m : KvMap) : ClientRequest → KvResponse × KvMap
  | .get key _ =>
    (match m key with
      | some value => ⟨.getResp, some value⟩
      | none => ⟨.error, some errmsgNoKey⟩, m)
  | .write w =>
    if w.op.Allowed m then
      (⟨.success, none⟩,
        match w.op with
        | .put key value => Function.update m key (some value)
        | .del key => Function.update m key none)
    else (⟨.error, some (.ofString "abort the command")⟩, m)

/-- The part of a map that a follower is to hold: the keys of which it is a replica. -/
def TpcLeader.share (leader : TpcLeader) (m : KvMap) (a : Address) : KvMap :=
  fun key => if (addresses leader key).contains a then m key else none

section

variable {leader : TpcLeader} {m : KvMap} {net : Address → KvServer}

theorem share_of_mem {a : Address} {key : CString} (h : a ∈ addresses leader key) : leader.share m a key = m key :=
  if_pos (List.contains_iff_mem.mpr h)

theorem share_of_notMem {a : Address} {key : CString} (h : a ∉ addresses leader key) : leader.share m a key = none :=
  if_neg fun hc => h (List.contains_iff_mem.mp hc)

/-- An operation changes the parts of the replicas. -/
theorem share_apply (u : Update) (a : Address) :
    leader.share (apply u m) a = if a ∈ addresses leader u.key then apply u (leader.share m a) else leader.share m a := by
  funext key
  by_cases hkey : key = u.key
  · subst hkey
    by_cases ha : a ∈ addresses leader u.key
    · rw [share_of_mem ha, if_pos ha]
      cases u <;> simp [apply, Update.key]
    · rw [if_neg ha, share_of_notMem ha, share_of_notMem ha]
  · split_ifs with ha
    · rw [Update.apply_of_ne hkey]
      simp only [TpcLeader.share, Update.apply_of_ne hkey]
    · simp only [TpcLeader.share, Update.apply_of_ne hkey]

omit [StrHash] in
/-- It is checked on the value of its key. -/
theorem Update.check_congr {m m' : KvMap} {u : Update} (h : m u.key = m' u.key) : check u m = check u m' := by
  have hcode : u.checkCode m = u.checkCode m' := by
    cases u with
    | put key value => rfl
    | del key => simp only [checkCode, show m key = m' key from h]
  exact congrArg (fun code => decide (code = 0)) hcode

omit [StrHash] in
theorem Update.check_iff (u : Update) (m : KvMap) : check u m = true ↔ u.Allowed m := by
  have hcheck : check u m = true ↔ u.checkCode m = 0 := decide_eq_true_iff
  have hlen : errKeyLen ≠ 0 ∧ errValLen ≠ 0 ∧ errNoKey ≠ 0 := by decide
  rw [hcheck]
  cases u with
  | put key value =>
    simp only [checkCode, Allowed]
    split_ifs with hkey hval
    · exact iff_of_false hlen.1 (by omega)
    · exact iff_of_false hlen.2.1 (by omega)
    · exact iff_of_true rfl (by omega)
  | del key =>
    simp only [checkCode, Allowed]
    split_ifs with hkey hval
    · exact iff_of_false hlen.1 (by omega)
    · exact iff_of_false hlen.2.2 fun h => h.2.2 hval
    · exact iff_of_true rfl ⟨by omega, by omega, hval⟩

/-- All replicas vote for an operation on their parts of a map exactly if the map allows it. -/
theorem unanimous_share_iff (hfull : Full leader) {u : Update} (hnodup : (addresses leader u.key).Nodup) :
    Unanimous (leader.share m) u (addresses leader u.key) ↔ u.Allowed m := by
  have hcheck : ∀ a ∈ addresses leader u.key, check u (leader.share m a) = check u m := fun a ha =>
    Update.check_congr (share_of_mem ha)
  rw [← Update.check_iff]
  constructor
  · intro h
    have hpos : 0 < (addresses leader u.key).length := by
      rw [hfull.addresses_length]
      exact hfull.redundancy
    rw [← hcheck _ (List.getElem_mem hpos)]
    exact h.2 _ (List.getElem_mem hpos)
  · exact fun h => ⟨hnodup, fun a ha => (hcheck a ha).trans h⟩

/-- The followers hold their parts of the map, and nothing is pending. -/
def Replicates (leader : TpcLeader) (m : KvMap) (net : Address → KvServer) : Prop :=
  ∀ a, Quiescent (net a) (leader.share m a)

/-- Followers that are started on empty directories hold the empty map. -/
theorem replicates_start (leader : TpcLeader) : Replicates leader (fun _ => none) fun _ => KvServer.start ⟨.empty⟩ := fun a =>
  have hempty : leader.share (fun _ => none) a = KvStore.contents ⟨.empty⟩ :=
    (funext fun _ => ite_self none).trans KvStore.contents_empty.symm
  hempty.symm ▸ start_refines KvStore.chained_empty

/-- Followers that hold their parts go through a `PUT` or `DELETE` in so many exchanges. -/
theorem underway_iterate (hfull : Full leader) (h : Replicates leader m net) (w : Write) {n : ℕ} (hn : n ≤ 2 * leader.redundancy) :
    ∃ φ, Underway leader w (leader.share m) φ
        ((fun s => s.1.exchange leader w.req handleRequest .answered s.2)^[n] (TpcCall.start leader w.req, net)).1
        ((fun s => s.1.exchange leader w.req handleRequest .answered s.2)^[n] (TpcCall.start leader w.req, net)).2 ∧
      φ.left leader.redundancy + n = 2 * leader.redundancy := by
  induction n with
  | zero => exact ⟨_, Underway.start hfull h w, Phase.left_start⟩
  | succ n ih =>
    obtain ⟨φ, hunderway, hleft⟩ := ih (by omega)
    obtain ⟨φ', hnext, hless, -⟩ := hunderway.exchange hfull (by omega)
    rw [Function.iterate_succ_apply']
    exact ⟨φ', hnext, by omega⟩

omit [StrHash] in
/-- What a `PUT` or `DELETE` is to do, in the terms of the protocol. -/
theorem ClientRequest.spec_write (m : KvMap) (w : Write) : (ClientRequest.write w).spec m =
    if w.op.Allowed m then (tpcResponse true, apply w.op m) else (tpcResponse false, m) := by
  obtain ⟨req, op, hreq⟩ := w
  cases op <;> rfl

/-- A `PUT` or `DELETE`. -/
theorem handle_write (hfull : Full leader) (h : Replicates leader m net) (w : Write) (hnodup : (addresses leader w.op.key).Nodup) :
    ((ClientRequest.write w).handle leader net).1 = some ((ClientRequest.write w).spec m).1 ∧
      Replicates leader ((ClientRequest.write w).spec m).2 ((ClientRequest.write w).handle leader net).2 := by
  obtain ⟨φ, hunderway, hleft⟩ := underway_iterate hfull h w le_rfl
  obtain ⟨commit, hcall, hcommit, hquiet⟩ := hunderway.finished hfull (by omega)
  rw [unanimous_share_iff hfull hnodup] at hcommit
  have hhandle : (ClientRequest.write w).handle leader net =
      (some (tpcResponse commit), (TpcCall.finish leader w.req net).2) := by
    have heq : TpcCall.finish leader w.req net = (.returned (tpcResponse commit), (TpcCall.finish leader w.req net).2) :=
      Prod.ext hcall rfl
    rw [ClientRequest.handle, heq]
  rw [hhandle, ClientRequest.spec_write]
  by_cases hallowed : w.op.Allowed m
  · obtain rfl : commit = true := hcommit.mpr hallowed
    rw [if_pos hallowed]
    refine ⟨rfl, fun a => ?_⟩
    have hq := hquiet a
    simp only [true_and] at hq
    rw [share_apply]
    exact hq
  · obtain rfl : commit = false := Bool.eq_false_iff.mpr fun hc => hallowed (hcommit.mp hc)
    rw [if_neg hallowed]
    refine ⟨rfl, fun a => ?_⟩
    have hq := hquiet a
    rw [if_neg fun hc => Bool.false_ne_true hc.1] at hq
    exact hq

/-- From a replica on, `tpcleader_handle_get` returns what the map has. -/
theorem getCall_iterate (hfull : Full leader) (h : Replicates leader m net) (key : CString) (val : Option CString) {n pri i : ℕ}
    (hpri : (leader.replicas key)[i]? = some pri) (hn : leader.redundancy ≤ i + n) :
    (fun s => s.1.exchange leader ⟨.getReq, some key, val⟩ handleRequest .answered s.2)^[n] (GetCall.ask pri i, net) =
      (.returned (getResponse (m key)), net) := by
  induction n generalizing pri i with
  | zero =>
    have hlt := (List.getElem?_eq_some_iff.mp hpri).1
    rw [hfull.replicas_length] at hlt
    omega
  | succ n ih =>
    have hmem : (leader.nodes pri).address ∈ addresses leader key := List.mem_map_of_mem (List.mem_of_getElem? hpri)
    have hq := h (leader.nodes pri).address
    have hvalue : (net (leader.nodes pri).address).store.contents key = m key := by rw [hq.contents, share_of_mem hmem]
    have hstep := GetCall.exchange_eq key val i hq.chained
    have hfixed : ∀ res, (fun s : GetCall × (Address → KvServer) =>
        s.1.exchange leader ⟨.getReq, some key, val⟩ handleRequest .answered s.2)^[n] (.returned res, net) = (.returned res, net) :=
      fun res => Function.iterate_fixed rfl n
    rw [Function.iterate_succ_apply, hstep, hvalue]
    cases hm : m key with
    | some value => exact hfixed _
    | none =>
      simp only [GetCall.askFrom]
      split_ifs with hlt
      · rw [ih (hfull.replicas_succ hpri hlt) (by omega), hm]
      · exact hfixed _

/-- A `GET`. -/
theorem handle_get (hfull : Full leader) (h : Replicates leader m net) (key : CString) (val : Option CString) :
    (ClientRequest.get key val).handle leader net = (some ((ClientRequest.get key val).spec m).1, net) := by
  obtain ⟨pri, hpri, hstart⟩ := GetCall.start_eq hfull key val
  have hfinish := getCall_iterate hfull h key val hpri (n := leader.redundancy) (by omega)
  rw [ClientRequest.handle, GetCall.finish, hstart, hfinish]
  cases hm : m key with
  | some value => simp only [ClientRequest.spec, getResponse, hm]
  | none => simp only [ClientRequest.spec, getResponse, hm]

/-! ## Any number of requests -/

/-- The responses to a sequence of requests, and the followers after it. -/
def TpcLeader.serve (leader : TpcLeader) (net : Address → KvServer) :
    List ClientRequest → List (Option KvResponse) × (Address → KvServer)
  | [] => ([], net)
  | req :: reqs =>
    let (res, net) := req.handle leader net
    let (rest, net) := leader.serve net reqs
    (res :: rest, net)

omit [StrHash] in
/-- The answers of a map to them, and the map after it. -/
def KvMap.serve (m : KvMap) : List ClientRequest → List KvResponse × KvMap
  | [] => ([], m)
  | req :: reqs =>
    let (res, m) := req.spec m
    let (rest, m) := KvMap.serve m reqs
    (res :: rest, m)

/-- One request after the other. -/
theorem serve_replicates (hfull : Full leader) (hnodup : ∀ key, (addresses leader key).Nodup) (h : Replicates leader m net)
    (reqs : List ClientRequest) : (leader.serve net reqs).1 = (m.serve reqs).1.map some ∧
      Replicates leader (m.serve reqs).2 (leader.serve net reqs).2 := by
  induction reqs generalizing m net with
  | nil => exact ⟨rfl, h⟩
  | cons req reqs ih =>
    obtain ⟨hres, hnext⟩ : (req.handle leader net).1 = some (req.spec m).1 ∧
        Replicates leader (req.spec m).2 (req.handle leader net).2 := by
      cases req with
      | get key val =>
        rw [handle_get hfull h key val]
        exact ⟨rfl, h⟩
      | write w => exact handle_write hfull h w (hnodup _)
    obtain ⟨hrest, hlast⟩ := ih hnext
    simp only [TpcLeader.serve, KvMap.serve]
    exact ⟨by rw [hres, hrest]; rfl, hlast⟩

end

/-- **The system is a map.** Followers with ids of their own, whose stores and logs are empty, have registered with a leader
that has room for just them. Then to any sequence of requests the leader's replies are those of one map; and every
follower holds the keys of which it is a replica, with their values, and no others, and has nothing pending. -/
theorem replicated_map (followers : List Address) (hne : 1 ≤ followers.length) (redundancy : ℕ) (hred : 1 ≤ redundancy)
    (hids : (followers.map fun a => a.offer.id).Nodup) (reqs : List ClientRequest) :
    let leader := leaderOf followers redundancy
    let served := leader.serve (fun _ => KvServer.start ⟨.empty⟩) reqs
    let spec := KvMap.serve (fun _ => none) reqs
    served.1 = spec.1.map some ∧ ∀ a, Quiescent (served.2 a) (leader.share spec.2 a) := by
  intro leader served spec
  have hfull : Full leader := full_leaderOf hne hred hids
  have hempty : ∀ a, leader.share (fun _ => none) a = KvStore.contents ⟨.empty⟩ := fun a =>
    (funext fun _ => ite_self none).trans KvStore.contents_empty.symm
  have hstart : Replicates leader (fun _ => none) fun _ => KvServer.start ⟨.empty⟩ := fun a =>
    (hempty a).symm ▸ start_refines KvStore.chained_empty
  obtain ⟨hreplies, hlast⟩ := serve_replicates hfull (fun key => addresses_nodup hfull key) hstart reqs
  exact ⟨hreplies, hlast⟩

end

section

attribute [local instance] md5Sample

/-- Two followers. -/
def twoFollowers : List Address := [(.ofString "localhost", 8001), (.ofString "localhost", 8002)]

/-- A `PUT`, a `GET` and another `PUT` of a key. -/
def putGetPut : List ClientRequest := [.write (writeA "1"), .get (.ofString "a") none, .write (writeA "2")]

/-- `replicated_map` for them, every key being kept by one of the two. -/
theorem replicated_map_put :
    let leader := leaderOf twoFollowers 1
    let served := leader.serve (fun _ => KvServer.start ⟨.empty⟩) putGetPut
    let spec := KvMap.serve (fun _ => none) putGetPut
    served.1 = spec.1.map some ∧ ∀ a, Quiescent (served.2 a) (leader.share spec.2 a) :=
  replicated_map twoFollowers (by decide) 1 (by decide) (by decide +kernel) putGetPut

end

end Cs162Hw.Kv
