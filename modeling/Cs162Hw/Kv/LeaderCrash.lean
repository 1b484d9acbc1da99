import Cs162Hw.Library.Resumed
import Cs162Hw.Kv.Replicated

/-!
# When the leader dies

`tpcleader.h` takes it that the leader never fails; this is what becomes of the followers if it does. What it knows of a `PUT`
or `DELETE` is in the variables of `tpcleader_handle_tpc`, and what it knows of its followers is in its list: it writes no log.
When its process dies in the handler, nobody goes on with the transaction, and followers that have voted yes stay in
`TPC_READY`, through crashes of their own, until they hear from a later transaction. What they hear then is an `ABORT`. The
leader starts again with an empty list (`tpcleader_init`), and a follower comes into it only when that follower is itself
started again (`main/kvfollower.c`).

* `abandoned`: the followers when the handler gets no further than so many exchanges.
* `started`: a follower is started and registers. `handle_not_full`: before all have been, every request is refused.
  `addresses_started`: afterwards each key has the replicas it had.
* **`handle_write_any`**: a `PUT` or `DELETE` on followers that hold anything, with operations pending or not.
* `inDoubt`: those that have voted and not heard; `abandoned_refines`: what the followers hold then.
* **`leader_crash`**: when all followers have been started again, the next `PUT` or `DELETE` of the key is refused; the replicas
  that had been sent the `COMMIT` keep the operation, and the others lose it. They agree afterwards only if none had been sent
  it, or if it made no difference.
-/

namespace Cs162Hw.Kv

open Library
open Library.TwoPhase (Operations Phase Steady Unanimous Resumed AllReady)
open Library.TwoPhase.Operations (apply check)

section

variable [StrHash]

/-- The followers after the first `n` exchanges of `tpcleader_handle_tpc`, all answered, if there is no other. -/
def abandoned (leader : TpcLeader) (w : Write) (n : ℕ) (net : Address → KvServer) : Address → KvServer :=
  ((fun s => s.1.exchange leader w.req handleRequest .answered s.2)^[n] (TpcCall.start leader w.req, net)).2

/-- The followers after these have crashed and gone through `kvserver_init`, one after the other. -/
def restarted (net : Address → KvServer) (restarts : List Address) : Address → KvServer :=
  restarts.foldl (fun net a => Function.update net a (net a).restart) net

/-- A follower is started, as `main/kvfollower.c` has it: `kvserver_init`, and it registers with the leader. -/
def started (s : TpcLeader × (Address → KvServer)) (a : Address) : TpcLeader × (Address → KvServer) :=
  ((tpcleaderRegister s.1 a.offer.request).2, Function.update s.2 a (s.2 a).restart)

theorem foldl_started (leader : TpcLeader) (net : Address → KvServer) (starts : List Address) :
    starts.foldl started (leader, net) =
      (leader.registered ((starts.map Address.offer).map Offer.request), restarted net starts) := by
  induction starts generalizing leader net with
  | nil => rfl
  | cons a starts ih => exact ih _ _

variable {leader : TpcLeader} {net : Address → KvServer} {spec : Address → MapParticipant}

/-- They hold what they held. -/
theorem restarted_refines (h : ∀ a, Refines (net a) (spec a)) (restarts : List Address) :
    ∀ a, Refines (restarted net restarts a) (spec a) := by
  induction restarts generalizing net with
  | nil => exact h
  | cons b restarts ih =>
    refine ih fun a => ?_
    show Refines (Function.update net b (net b).restart a) (spec a)
    by_cases hab : a = b
    · subst hab
      rw [Function.update_self]
      exact restart_refines (h a)
    · rw [Function.update_of_ne hab]
      exact h a

/-! ## The leader comes back -/

/-- A leader that knows fewer followers than it is to have refuses every request about a key, and speaks to no follower. -/
theorem handle_not_full (h : leader.followerCount < leader.followerCapacity) (net : Address → KvServer) (req : ClientRequest) :
    ∃ text, req.handle leader net = (some ⟨.error, some text⟩, net) := by
  cases req with
  | get key val =>
    have hstart : GetCall.start leader ⟨.getReq, some key, val⟩ = .returned ⟨.error, some errmsgNoKey⟩ := by
      simp only [GetCall.start, primaryOf, tpcleaderGetPrimary, if_pos h]
    refine ⟨errmsgNoKey, ?_⟩
    rw [ClientRequest.handle, GetCall.finish, hstart, Function.iterate_fixed rfl]
  | write w =>
    have hstart : TpcCall.start leader w.req = .returned ⟨.error, some errmsgNotAtCapacity⟩ := if_pos h.ne
    refine ⟨errmsgNotAtCapacity, ?_⟩
    rw [ClientRequest.handle, TpcCall.finish, hstart, Function.iterate_fixed rfl]

section

variable {followers starts : List Address} {redundancy : ℕ}

/-- If a follower has not been started, the leader has room for it. -/
theorem count_started_lt (hids : (followers.map fun a => a.offer.id).Nodup) (hstarts : ∀ a ∈ starts, a ∈ followers)
    (hmissing : ∃ a ∈ followers, a ∉ starts) :
    ((tpcleaderInit followers.length redundancy).registered ((starts.map Address.offer).map Offer.request)).followerCount <
      followers.length := by
  obtain ⟨b, hb, hnot⟩ := hmissing
  obtain ⟨-, -, l, hring, hperm⟩ := ring_registered followers.length redundancy (starts.map Address.offer)
  have hids' : ((starts.map Address.offer).map Offer.id) = starts.map fun a => a.offer.id := List.map_map
  have hcount : l.length = ((distinct (starts.map fun a => a.offer.id)).take followers.length).length := by
    rw [← hids', ← accepted_ids, List.length_map, ← List.length_map (f := Offer.label), ← hperm.length_eq, labels,
      List.length_map]
  have hsub : b.offer.id :: distinct (starts.map fun a => a.offer.id) ⊆ followers.map fun a => a.offer.id := by
    intro id hid
    rcases List.mem_cons.mp hid with rfl | hid
    · exact List.mem_map_of_mem hb
    · obtain ⟨a, ha, rfl⟩ := List.mem_map.mp (mem_distinct.mp hid)
      exact List.mem_map_of_mem (hstarts a ha)
  have hnew : b.offer.id ∉ distinct (starts.map fun a => a.offer.id) := by
    intro hmem
    obtain ⟨a, ha, hid⟩ := List.mem_map.mp (mem_distinct.mp hmem)
    exact hnot (List.inj_on_of_nodup_map hids (hstarts a ha) hb hid ▸ ha)
  have hle := (List.Nodup.cons hnew (nodup_distinct _)).length_le_of_subset hsub
  rw [List.length_cons, List.length_map] at hle
  rw [hring.count, hcount, List.length_take]
  omega

/-- If all have been, the leader has accepted them all again. -/
theorem accepted_started (hids : (followers.map fun a => a.offer.id).Nodup) (hstarts : ∀ a ∈ starts, a ∈ followers)
    (hall : ∀ a ∈ followers, a ∈ starts) :
    (accepted followers.length (starts.map Address.offer)).Perm (followers.map Address.offer) := by
  have hids' : ((followers.map Address.offer).map Offer.id).Nodup := by rwa [List.map_map]
  have hperm : (distinct ((starts.map Address.offer).map Offer.id)).Perm ((followers.map Address.offer).map Offer.id) := by
    refine (List.perm_ext_iff_of_nodup (nodup_distinct _) hids').mpr fun id => ?_
    rw [mem_distinct, List.map_map, List.map_map, List.mem_map, List.mem_map]
    exact ⟨fun ⟨a, ha, h⟩ => ⟨a, hstarts a ha, h⟩, fun ⟨a, ha, h⟩ => ⟨a, hall a ha, h⟩⟩
  have htaken := accepted_ids followers.length (starts.map Address.offer)
  rw [List.take_of_length_le (by rw [hperm.length_eq, List.length_map, List.length_map])] at htaken
  rw [← htaken] at hperm
  have hnodup : ((accepted followers.length (starts.map Address.offer)).map Offer.id).Nodup := hperm.nodup_iff.mpr hids'
  have hmem : ∀ offer ∈ accepted followers.length (starts.map Address.offer), offer ∈ followers.map Address.offer := by
    intro offer hoffer
    obtain ⟨a, ha, rfl⟩ := List.mem_map.mp (mem_of_mem_accepted hoffer)
    exact List.mem_map_of_mem (hstarts a ha)
  refine (List.perm_ext_iff_of_nodup hnodup.of_map hids'.of_map).mpr fun offer => ⟨hmem offer, fun hoffer => ?_⟩
  obtain ⟨offer', hoffer', hid⟩ := List.mem_map.mp (hperm.mem_iff.mpr (List.mem_map_of_mem hoffer))
  exact List.inj_on_of_nodup_map hids' (hmem offer' hoffer') hoffer hid ▸ hoffer'

/-- Two leaders that say the same of their followers, in the order of the rings, have the same replicas for a key. -/
theorem addresses_congr {leader leader' : TpcLeader} {l l' : List ℕ} (h : Ring leader l) (h' : Ring leader' l') (hne : l ≠ [])
    (hfull : leader.followerCount = leader.followerCapacity) (hfull' : leader'.followerCount = leader'.followerCapacity)
    (hred : leader.redundancy ≤ l.length) (heq : leader'.redundancy = leader.redundancy)
    (hlabels : labels leader' l' = labels leader l) (key : CString) : addresses leader' key = addresses leader key := by
  have hlen : l'.length = l.length := by simpa [labels] using congrArg List.length hlabels
  have hne' : l' ≠ [] := fun hnil => hne (List.length_eq_zero_iff.mp (hlen ▸ congrArg List.length hnil))
  have hlook : ∀ {leader : TpcLeader} {l : List ℕ}, Ring leader l → l ≠ [] → leader.followerCount = leader.followerCapacity →
      leader.redundancy ≤ l.length → addresses leader key =
        ((((labels leader l).dropWhile fun x => !decide (x.1 > strhash64 key)) ++
          ((labels leader l).takeWhile fun x => !decide (x.1 > strhash64 key))).take leader.redundancy).map
            fun x => (x.2.1, x.2.2.toUInt16) := by
    intro leader l h hne hfull hred
    rw [addresses, h.replicas_eq hne hfull hred, labels, List.dropWhile_map, List.takeWhile_map, ← List.map_append,
      ← List.map_take, List.map_map]
    rfl
  rw [hlook h hne hfull hred, hlook h' hne' hfull' (by omega), hlabels, heq]

/-- When all followers have been started again, each key has the replicas that it had. -/
theorem addresses_started (hne : 1 ≤ followers.length) (hred : 1 ≤ redundancy)
    (hids : (followers.map fun a => a.offer.id).Nodup) (hstarts : ∀ a ∈ starts, a ∈ followers)
    (hall : ∀ a ∈ followers, a ∈ starts) :
    let leader := (tpcleaderInit followers.length redundancy).registered ((starts.map Address.offer).map Offer.request)
    Full leader ∧ ∀ key, addresses leader key = addresses (leaderOf followers redundancy) key := by
  intro leader
  obtain ⟨hcap', hred', l', hring', hperm'⟩ := ring_registered followers.length redundancy (starts.map Address.offer)
  obtain ⟨hcap, hred₀, l, hring, hperm⟩ : (leaderOf followers redundancy).followerCapacity = followers.length ∧
      (leaderOf followers redundancy).redundancy = min redundancy followers.length ∧
      ∃ l, Ring (leaderOf followers redundancy) l ∧ (labels (leaderOf followers redundancy) l).Perm
        ((accepted followers.length (followers.map Address.offer)).map Offer.label) :=
    ring_registered followers.length redundancy (followers.map Address.offer)
  have haccepted := accepted_started hids hstarts hall
  have haccepted₀ := accepted_started hids (fun _ ha => ha) (fun _ ha => ha)
  have hsame : (labels leader l').Perm (labels (leaderOf followers redundancy) l) :=
    (hperm'.trans ((haccepted.trans haccepted₀.symm).map Offer.label)).trans hperm.symm
  have hcount' : leader.followerCount = followers.length := by
    have hlen := (hperm'.trans (haccepted.map Offer.label)).length_eq
    simp only [labels, List.length_map] at hlen
    exact hring'.count.trans hlen
  have hfull₀ : Full (leaderOf followers redundancy) := full_leaderOf hne hred hids
  refine ⟨full_registered hne hred hcount', addresses_congr hring hring' ?_ hfull₀.count (hcount'.trans hcap'.symm) ?_
    (hred'.trans hred₀.symm) ?_⟩
  · rintro rfl
    have hzero := hcap.symm.trans (hfull₀.count.symm.trans hring.count)
    rw [List.length_nil] at hzero
    omega
  · rw [← hring.count, hfull₀.count]
    exact hfull₀.redundancy_le
  · have hsorted : ∀ {leader : TpcLeader} {l : List ℕ}, Ring leader l → (labels leader l).Pairwise fun x y => x.1 < y.1 :=
      fun h => List.pairwise_map.mpr h.sorted
    exact hsame.eq_of_pairwise (fun x y _ _ h₁ h₂ => absurd (UInt64.lt_trans h₁ h₂) (UInt64.lt_irrefl _)) (hsorted hring')
      (hsorted hring)

end

/-! ## A transaction begun in any state -/

/-- Followers that hold anything go through a `PUT` or `DELETE` in so many exchanges. -/
theorem resumed_iterate (hfull : Full leader) (h : ∀ a, Refines (net a) (spec a)) (w : Write) {n : ℕ}
    (hn : n ≤ 2 * leader.redundancy) :
    ∃ (φ : Phase) (spec' : Address → MapParticipant),
      ((fun s => s.1.exchange leader w.req handleRequest .answered s.2)^[n] (TpcCall.start leader w.req, net)).1.Stands leader
        w.op.key φ ∧
      (∀ a, Refines
        (((fun s => s.1.exchange leader w.req handleRequest .answered s.2)^[n] (TpcCall.start leader w.req, net)).2 a) (spec' a)) ∧
      Resumed w.op spec (addresses leader w.op.key) φ spec' ∧ φ.left leader.redundancy + n = 2 * leader.redundancy := by
  have hlen := hfull.addresses_length w.op.key
  induction n with
  | zero =>
    refine ⟨_, spec, TpcCall.start_stands hfull w.key_eq w.type_eq, h, ?_, Phase.left_start⟩
    rw [← hlen]
    exact Resumed.start
  | succ n ih =>
    obtain ⟨φ, spec', hstands, hrefines, hresumed, hleft⟩ := ih (by omega)
    obtain ⟨i, hi, hlt⟩ := hresumed.index (by rw [hlen]; omega)
    obtain ⟨m, hm⟩ : ∃ m, φ.message w.op = some m := by
      cases φ with
      | voting _ _ => exact ⟨_, rfl⟩
      | deciding _ _ _ => exact ⟨_, rfl⟩
      | done _ => cases hi
    obtain ⟨pri, hpri⟩ : ∃ pri, (leader.replicas w.op.key)[i]? = some pri := by
      rw [hlen, ← hfull.replicas_length w.op.key] at hlt
      exact ⟨_, List.getElem?_eq_getElem hlt⟩
    have ha : (addresses leader w.op.key)[i]? = some (leader.nodes pri).address := by
      rw [addresses, List.getElem?_map, hpri]
      rfl
    obtain ⟨hstands', hrefines'⟩ :=
      TpcCall.exchange_simulates hfull w.key_eq (server_simulates w.asks) hstands hrefines hi hpri hm .answered
    obtain ⟨hresumed', hleft'⟩ := hresumed.exchange hi ha hm
    rw [hlen] at hresumed' hleft'
    rw [Function.iterate_succ_apply']
    exact ⟨_, _, hstands', hrefines', hresumed', by omega⟩

/-- A handler at the end of a transaction has returned. -/
theorem TpcCall.Stands.eq_returned {key : CString} {call : TpcCall} {commit : Bool} (h : call.Stands leader key (.done commit)) :
    call = .returned (tpcResponse commit) := by
  cases h
  rfl

/-- **A write on followers in any state.** It is answered, `SUCCESS` exactly if every replica was ready for it, and has then
been carried out at each; otherwise at none. The replicas have nothing pending afterwards: an operation that a transaction
before this had left pending there is forgotten, whatever becomes of this one. The other followers are as they were. -/
theorem handle_write_any (hfull : Full leader) (h : ∀ a, Refines (net a) (spec a)) (w : Write) :
    ∃ commit, ((ClientRequest.write w).handle leader net).1 = some (tpcResponse commit) ∧
      (commit = true ↔ AllReady w.op spec (addresses leader w.op.key)) ∧
      ∀ a, Refines (((ClientRequest.write w).handle leader net).2 a)
        (if a ∈ addresses leader w.op.key then ⟨if commit then apply w.op (spec a).data else (spec a).data, none⟩
          else spec a) := by
  obtain ⟨φ, spec', hstands, hrefines, hresumed, hleft⟩ := resumed_iterate hfull h w le_rfl
  obtain ⟨commit, rfl, hcommit, hout, hall⟩ := hresumed.finished (by rw [hfull.addresses_length]; omega)
  have hcall : (TpcCall.finish leader w.req net).1 = .returned (tpcResponse commit) := hstands.eq_returned
  have hhandle : (ClientRequest.write w).handle leader net =
      (some (tpcResponse commit), (TpcCall.finish leader w.req net).2) := by
    have heq : TpcCall.finish leader w.req net = (.returned (tpcResponse commit), (TpcCall.finish leader w.req net).2) :=
      Prod.ext hcall rfl
    rw [ClientRequest.handle, heq]
  rw [hhandle]
  refine ⟨commit, rfl, hcommit, fun a => ?_⟩
  by_cases ha : a ∈ addresses leader w.op.key
  · rw [if_pos ha, ← hall a ha]
    exact hrefines a
  · rw [if_neg ha, ← hout a ha]
    exact hrefines a

/-! ## What is left of an abandoned transaction -/

omit [StrHash] in
/-- The replicas, of a transaction abandoned after `n` exchanges, that have voted and not heard of the decision. -/
def inDoubt (rs : List Address) (n : ℕ) : List Address := (rs.take n).drop (n - rs.length)

omit [StrHash] in
/-- Until the last of them has heard there are some. -/
theorem exists_inDoubt {rs : List Address} {n : ℕ} (hpos : 0 < n) (hn : n < 2 * rs.length) : ∃ a, a ∈ inDoubt rs n := by
  have hlt : 0 < (inDoubt rs n).length := by
    simp only [inDoubt, List.length_drop, List.length_take]
    omega
  exact ⟨_, List.getElem_mem hlt⟩

omit [StrHash] in
theorem mem_of_mem_inDoubt {rs : List Address} {n : ℕ} {a : Address} (h : a ∈ inDoubt rs n) : a ∈ rs :=
  List.mem_of_mem_take (List.mem_of_mem_drop h)

omit [StrHash] in
/-- In a list without repetitions, what is not dropped was taken. -/
theorem mem_drop_iff {rs : List Address} (h : rs.Nodup) (i : ℕ) (a : Address) : a ∈ rs.drop i ↔ a ∈ rs ∧ a ∉ rs.take i := by
  have hdisjoint := (List.nodup_append.mp ((List.take_append_drop i rs).symm ▸ h)).2.2
  have hmem : a ∈ rs ↔ a ∈ rs.take i ∨ a ∈ rs.drop i := by rw [← List.mem_append, List.take_append_drop]
  constructor
  · exact fun ha => ⟨hmem.mpr (Or.inr ha), fun htake => hdisjoint a htake a ha rfl⟩
  · exact fun ⟨ha, hnot⟩ => (hmem.mp ha).resolve_left hnot

/-- What a follower holds of it. -/
def abandonedSpec (leader : TpcLeader) (m : KvMap) (u : Update) (n : ℕ) (a : Address) : MapParticipant :=
  let rs := addresses leader u.key
  ⟨if (rs.take (n - rs.length)).contains a then apply u (leader.share m a) else leader.share m a,
    if (inDoubt rs n).contains a then some u else none⟩

variable {m : KvMap} {w : Write}

theorem abandonedSpec_eq (leader : TpcLeader) (m : KvMap) (u : Update) (n : ℕ) (a : Address) :
    abandonedSpec leader m u n a =
      ⟨if a ∈ (addresses leader u.key).take (n - (addresses leader u.key).length) then apply u (leader.share m a)
          else leader.share m a,
        if a ∈ inDoubt (addresses leader u.key) n then some u else none⟩ := by
  simp only [abandonedSpec, List.contains_iff_mem]

/-- The followers of an abandoned transaction, of an operation that the map allows. -/
theorem abandoned_refines (hfull : Full leader) (hnodup : (addresses leader w.op.key).Nodup) (h : Replicates leader m net)
    (hallowed : w.op.Allowed m) {n : ℕ} (hn : n ≤ 2 * leader.redundancy) (a : Address) :
    Refines (abandoned leader w n net a) (abandonedSpec leader m w.op n a) := by
  obtain ⟨φ, ⟨-, spec, hrefines, hout, hsteady⟩, hleft⟩ := underway_iterate hfull h w hn
  have hunanimous := (unanimous_share_iff hfull hnodup).mpr hallowed
  have hlen := hfull.addresses_length w.op.key
  have hvoted : ∀ a ∈ addresses leader w.op.key,
      TwoPhase.voted (leader.share m) w.op a = ⟨leader.share m a, some w.op⟩ := fun a ha => if_pos (hunanimous.2 a ha)
  suffices hspec : spec a = abandonedSpec leader m w.op n a by
    rw [← hspec]
    exact hrefines a
  rw [abandonedSpec_eq, inDoubt]
  by_cases ha : a ∈ addresses leader w.op.key
  swap
  · rw [hout a ha, if_neg fun hc => ha (List.mem_of_mem_take hc),
      if_neg fun hc => ha (List.mem_of_mem_take (List.mem_of_mem_drop hc))]
    rfl
  cases φ with
  | voting i ok =>
    -- nobody has heard yet
    obtain ⟨hi, -, htake, hrest⟩ := hsteady
    simp only [Phase.left] at hleft
    obtain rfl : n = i := by omega
    rw [show n - (addresses leader w.op.key).length = 0 by omega, List.take_zero, List.drop_zero, if_neg (List.not_mem_nil)]
    split_ifs with hmem
    · rw [htake a hmem, hvoted a ha]
    · rw [hrest a hmem]
      rfl
  | deciding commit i acked =>
    obtain ⟨hi, -, hcommit, htake, hrest⟩ := hsteady
    obtain rfl : commit = true := hcommit.mpr hunanimous
    simp only [Phase.left] at hleft
    rw [show n - (addresses leader w.op.key).length = i by omega,
      List.take_of_length_le (show (addresses leader w.op.key).length ≤ n by omega)]
    simp only [mem_drop_iff hnodup]
    by_cases hmem : a ∈ (addresses leader w.op.key).take i
    · rw [htake a hmem, if_pos hmem, if_neg fun hc => hc.2 hmem]
      rfl
    · rw [hrest a ha hmem, hvoted a ha, if_neg hmem, if_pos ⟨ha, hmem⟩]
  | done commit =>
    obtain ⟨hcommit, hall⟩ := hsteady
    obtain rfl : commit = true := hcommit.mpr hunanimous
    simp only [Phase.left] at hleft
    rw [List.take_of_length_le (show (addresses leader w.op.key).length ≤ n by omega),
      List.take_of_length_le (show (addresses leader w.op.key).length ≤ n - (addresses leader w.op.key).length by omega),
      List.drop_eq_nil_of_le (show (addresses leader w.op.key).length ≤ n - (addresses leader w.op.key).length by omega),
      if_pos ha, if_neg (List.not_mem_nil), hall a ha]
    rfl

/-! ## The next transaction -/

/-- After an abandoned transaction of an operation that the map allows, the next one of its key is refused while some replica is
in doubt, by whatever leader has the replicas that the first one had. The replicas that were told keep the operation; the others
lose it, and nothing is pending. -/
theorem handle_after_abandoned (hfull : Full leader) {leader' : TpcLeader} (hfull' : Full leader')
    (haddresses : ∀ key, addresses leader' key = addresses leader key) (hnodup : (addresses leader w.op.key).Nodup)
    (h : Replicates leader m net) (hallowed : w.op.Allowed m) {n : ℕ} (hpos : 0 < n) (hn : n < 2 * leader.redundancy)
    (restarts : List Address) {w' : Write} (hkey : w'.op.key = w.op.key) :
    let next := (ClientRequest.write w').handle leader' (restarted (abandoned leader w n net) restarts)
    next.1 = some (tpcResponse false) ∧ ∀ a, Quiescent (next.2 a)
      (if a ∈ (addresses leader w.op.key).take (n - leader.redundancy) then leader.share (apply w.op m) a
        else leader.share m a) := by
  intro next
  have hlen := hfull.addresses_length w.op.key
  have hheld := restarted_refines (abandoned_refines hfull hnodup h hallowed (n := n) (by omega)) restarts
  obtain ⟨commit, hres, hcommit, hnext⟩ := handle_write_any hfull' hheld w'
  rw [hkey, haddresses] at hcommit hnext
  obtain ⟨b, hb⟩ := exists_inDoubt hpos (show n < 2 * (addresses leader w.op.key).length by omega)
  obtain rfl : commit = false := by
    refine Bool.eq_false_iff.mpr fun hc => ?_
    have hready := ((hcommit.mp hc).2 b (mem_of_mem_inDoubt hb)).1
    simp only [abandonedSpec_eq, if_pos hb] at hready
    cases hready
  refine ⟨hres, fun a => ?_⟩
  have ha := hnext a
  have hdata : (abandonedSpec leader m w.op n a).data =
      if a ∈ (addresses leader w.op.key).take (n - leader.redundancy) then leader.share (apply w.op m) a
        else leader.share m a := by
    simp only [abandonedSpec_eq, hlen]
    split_ifs with htold
    · rw [share_apply, if_pos (List.mem_of_mem_take htold)]
    · rfl
  have hspec : (if a ∈ addresses leader w.op.key then
        (⟨if (false : Bool) = true then apply w'.op (abandonedSpec leader m w.op n a).data
          else (abandonedSpec leader m w.op n a).data, none⟩ : MapParticipant)
      else abandonedSpec leader m w.op n a) = ⟨(abandonedSpec leader m w.op n a).data, none⟩ := by
    by_cases hmem : a ∈ addresses leader w.op.key
    · rw [if_pos hmem]
      rfl
    · rw [if_neg hmem]
      have hnone : (abandonedSpec leader m w.op n a).pending = none := by
        rw [abandonedSpec_eq]
        exact if_neg fun hc => hmem (mem_of_mem_inDoubt hc)
      exact TwoPhase.Participant.ext rfl hnone
  rw [hspec, hdata] at ha
  exact ha

/-- When some replicas hold one map and the others another that differs at a key of theirs, they hold parts of no one map. -/
theorem exists_replicates_iff (hfull : Full leader) {u : Update} {i : ℕ} (hi : i < leader.redundancy)
    (hnodup : (addresses leader u.key).Nodup)
    (h : ∀ a, Quiescent (net a)
      (if a ∈ (addresses leader u.key).take i then leader.share (apply u m) a else leader.share m a)) :
    (∃ m', Replicates leader m' net) ↔ i = 0 ∨ apply u m = m := by
  have hlen := hfull.addresses_length u.key
  constructor
  · rintro ⟨m', hm'⟩
    by_contra hno
    rw [not_or] at hno
    have hzero : 0 < (addresses leader u.key).length := by omega
    have hlt : i < (addresses leader u.key).length := by omega
    have hfirst : (addresses leader u.key)[0] ∈ (addresses leader u.key).take i :=
      List.mem_take_iff_getElem.mpr ⟨0, by omega, rfl⟩
    have hlast : (addresses leader u.key)[i] ∉ (addresses leader u.key).take i :=
      ((mem_drop_iff hnodup i _).mp (List.mem_drop_iff_getElem.mpr ⟨0, by omega, by simp⟩)).2
    have htold := h (addresses leader u.key)[0]
    have huntold := h (addresses leader u.key)[i]
    rw [if_pos hfirst] at htold
    rw [if_neg hlast] at huntold
    have hvalue : ∀ {a : Address} {m'' : KvMap}, a ∈ addresses leader u.key → Quiescent (net a) (leader.share m'' a) →
        m'' u.key = m' u.key := fun {a m''} ha hq => by
      have heq : leader.share m'' a = leader.share m' a := hq.contents.symm.trans (hm' a).contents
      have hat := congrFun heq u.key
      rwa [share_of_mem ha, share_of_mem ha] at hat
    refine hno.2 (funext fun key => ?_)
    by_cases hkey : key = u.key
    · rw [hkey, hvalue (List.getElem_mem _) htold, hvalue (List.getElem_mem _) huntold]
    · exact Update.apply_of_ne hkey
  · rintro (rfl | hsame)
    · exact ⟨m, fun a => by simpa using h a⟩
    · refine ⟨m, fun a => ?_⟩
      have ha := h a
      rwa [hsame, ite_self] at ha

/-- **When the leader dies.** Followers have registered, and the leader has handled any number of requests. In handling a `PUT` or
`DELETE`, of a key and value that are allowed, it dies after some of the exchanges, not all. Followers may be started again while
there is no leader, which comes to nothing but `kvserver_init`; then the leader is started, with an empty list, and after it
followers, which register, in any order and any number of times each.

* As long as one of them has not been started again, every request about a key is refused, and no follower hears of it.
* When all have been, each key has the replicas it had. A `PUT` or `DELETE` of that key that comes next is answered `ERROR`,
  whatever it asks for. Afterwards nothing is pending, and the replicas that had been sent the `COMMIT` hold the operation, and no
  other follower does; so that the followers hold parts of one map exactly if none of them had been sent the `COMMIT`, or the
  operation makes no difference to the map. -/
theorem leader_crash (followers : List Address) (hne : 1 ≤ followers.length) (redundancy : ℕ) (hred : 1 ≤ redundancy)
    (hids : (followers.map fun a => a.offer.id).Nodup) (reqs : List ClientRequest) (w w' : Write)
    (hkey : w'.op.key = w.op.key) (n : ℕ) (hpos : 0 < n) (hn : n < 2 * (leaderOf followers redundancy).redundancy)
    (early starts : List Address) (hstarts : ∀ a ∈ starts, a ∈ followers) :
    let leader := leaderOf followers redundancy
    let m := (KvMap.serve (fun _ => none) reqs).2
    let net := (leader.serve (fun _ => KvServer.start ⟨.empty⟩) reqs).2
    let back := starts.foldl started
      (tpcleaderInit followers.length redundancy, restarted (abandoned leader w n net) early)
    w.op.Allowed m →
      ((∃ a ∈ followers, a ∉ starts) →
        ∀ req : ClientRequest, ∃ text, req.handle back.1 back.2 = (some ⟨.error, some text⟩, back.2)) ∧
      ((∀ a ∈ followers, a ∈ starts) →
        let next := (ClientRequest.write w').handle back.1 back.2
        (∀ key, addresses back.1 key = addresses leader key) ∧
        next.1 = some (tpcResponse false) ∧
        (∀ a, Quiescent (next.2 a)
          (if a ∈ (addresses leader w.op.key).take (n - leader.redundancy) then leader.share (apply w.op m) a
            else leader.share m a)) ∧
        ((∃ m', Replicates leader m' next.2) ↔ n ≤ leader.redundancy ∨ apply w.op m = m)) := by
  intro leader m net back hallowed
  have hback : back = ((tpcleaderInit followers.length redundancy).registered ((starts.map Address.offer).map Offer.request),
      restarted (abandoned leader w n net) (early ++ starts)) := by
    rw [show back = _ from foldl_started .., restarted, restarted, restarted, List.foldl_append]
  rw [hback]
  constructor
  · intro hmissing req
    obtain ⟨hcap, -⟩ := ring_registered followers.length redundancy (starts.map Address.offer)
    exact handle_not_full ((count_started_lt hids hstarts hmissing).trans_eq hcap.symm) _ req
  · intro hall next
    have hfull : Full leader := full_leaderOf hne hred hids
    obtain ⟨hfull', haddresses⟩ := addresses_started hne hred hids hstarts hall
    obtain ⟨-, hreplicates⟩ := serve_replicates hfull (fun key => addresses_nodup hfull key) (replicates_start leader) reqs
    have hnodup := addresses_nodup hfull w.op.key
    obtain ⟨hres, hquiet⟩ :=
      handle_after_abandoned hfull hfull' haddresses hnodup hreplicates hallowed hpos hn (early ++ starts) hkey
    refine ⟨haddresses, hres, hquiet, ?_⟩
    have hlt : n < 2 * leader.redundancy := hn
    rw [exists_replicates_iff hfull (show n - leader.redundancy < leader.redundancy by omega) hnodup hquiet,
      Nat.sub_eq_zero_iff_le]

end

section

attribute [local instance] md5Sample

/-- `leader_crash`, with two replicas: the leader dies when one of them has been sent the `COMMIT`. One of them is started too
early, then one after the leader, then both. -/
theorem leader_crash_put :
    let leader := leaderOf twoFollowers 2
    let m := (KvMap.serve (fun _ => none) putGetPut).2
    let net := (leader.serve (fun _ => KvServer.start ⟨.empty⟩) putGetPut).2
    let back := fun starts : List Address => starts.foldl started
      (tpcleaderInit 2 2, restarted (abandoned leader (writeA "3") 3 net) [(.ofString "localhost", 8001)])
    let one := back [(.ofString "localhost", 8001)]
    let both := back twoFollowers.reverse
    let next := (ClientRequest.write (writeA "4")).handle both.1 both.2
    (∀ req : ClientRequest, ∃ text, req.handle one.1 one.2 = (some ⟨.error, some text⟩, one.2)) ∧
      (∀ key, addresses both.1 key = addresses leader key) ∧
      next.1 = some (tpcResponse false) ∧
      (∀ a, Quiescent (next.2 a)
        (if a ∈ (addresses leader (.ofString "a")).take (3 - leader.redundancy) then
          leader.share (apply (Update.put (.ofString "a") (.ofString "3")) m) a
          else leader.share m a)) ∧
      ((∃ m', Replicates leader m' next.2) ↔
        3 ≤ leader.redundancy ∨ apply (Update.put (.ofString "a") (.ofString "3")) m = m) := by
  have hallowed : (writeA "3").op.Allowed (KvMap.serve (fun _ => none) putGetPut).2 :=
    ⟨by decide, by decide, by decide⟩
  have hcrash := fun starts hstarts => leader_crash twoFollowers (by decide) 2 (by decide) (by decide +kernel) putGetPut
    (writeA "3") (writeA "4") rfl 3 (by decide) (by decide +kernel) [(.ofString "localhost", 8001)] starts hstarts hallowed
  exact ⟨(hcrash [(.ofString "localhost", 8001)] (by decide)).1 ⟨(.ofString "localhost", 8002), by decide, by decide⟩,
    (hcrash twoFollowers.reverse fun _ h => List.mem_reverse.mp h).2 fun _ h => List.mem_reverse.mpr h⟩

end

end Cs162Hw.Kv
