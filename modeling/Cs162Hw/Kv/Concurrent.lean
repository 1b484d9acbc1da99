import Cs162Hw.Kv.Cluster

/-!
# Workers side by side

The cluster when any number of workers of the leader are in `tpcleader_handle_tpc` at the same time. All
followers are up and no message is lost (`Cluster.Reliable`), so that nothing but the order of the
exchanges is open.

A follower that has agreed to one worker's operation declines every other's, and then has an `ABORT`
from each worker it has declined. It takes this for the `ABORT` of the operation it holds.

* **`concurrent_sound`** — as long as no `ABORT` finds a follower holding another worker's operation
  (`Cluster.Matched`), the cluster is sound, and every `COMMIT` finds the operation it is for.
* `crossed_puts` — two `PUT`s to one follower: the `ABORT` of the second ends the first, which is
  answered `SUCCESS` all the same.
-/

namespace Cs162Hw.Kv

open Library
open Library.TwoPhase (System Transaction)

section

variable [StrHash]

namespace Cluster

variable (leader : TpcLeader)

omit [StrHash] in
/-- All followers are up, no receive times out and no message is lost. -/
def Reliable (_ : Cluster) : ClusterEvent → Prop
  | .arrive _ => True
  | .exchange _ o => o = .answered
  | .deliver _ => False
  | .restart _ => False

omit [StrHash] in
/-- A worker that sends `ABORT` to a follower in `TPC_READY` is the one whose operation the follower holds. -/
def Matched (c : Cluster) : ClusterEvent → Prop
  | .exchange t _ => ∀ worker ∈ c.workers[t]?, ∀ x ∈ worker.call.asks worker.write.req, x.2 = resClient false →
      ∀ owner ∈ (c.net (leader.nodes x.1).address).owner, owner.1 = t
  | _ => True

omit [StrHash] in
instance (c : Cluster) : (e : ClusterEvent) → Decidable (Reliable c e)
  | .arrive _ => .isTrue trivial
  | .exchange _ o => inferInstanceAs (Decidable (o = .answered))
  | .deliver _ => .isFalse id
  | .restart _ => .isFalse id

omit [StrHash] in
instance (c : Cluster) : (e : ClusterEvent) → Decidable (Matched leader c e)
  | .arrive _ => .isTrue trivial
  | .exchange t _ => inferInstanceAs (Decidable (∀ worker ∈ c.workers[t]?, ∀ x ∈ worker.call.asks worker.write.req,
      x.2 = resClient false → ∀ owner ∈ (c.net (leader.nodes x.1).address).owner, owner.1 = t))
  | .deliver _ => .isTrue trivial
  | .restart _ => .isTrue trivial

variable {leader} {c : Cluster} {m : Address → KvMap}

/-- What holds of a cluster in which nothing fails. -/
structure ConcurrentWf (leader : TpcLeader) (m : Address → KvMap) (c : Cluster) : Prop where
  wf : c.Wf leader
  tied : ∀ a, TwoPhase.Tied (m a) ((c.spec leader).net a)
  concurrent : System.ConcurrentInv (c.spec leader)

omit [StrHash] in
/-- What a worker sends tells what it has decided. -/
theorem asks_decision {worker : Worker} {pri : ℕ} {msg : KvRequest}
    (h : worker.call.asks worker.write.req = some (pri, msg)) (commit : Bool) :
    worker.call.phase.decided = some commit ↔ msg = resClient commit := by
  obtain ⟨w, call⟩ := worker
  cases call with
  | poll n i ok =>
    obtain ⟨-, rfl⟩ := Prod.mk.inj (Option.some.inj h)
    refine iff_of_false nofun fun hreq => ?_
    have htype := w.type_eq
    rw [hreq] at htype
    cases commit <;> simp [resClient] at htype
  | decide c n i acked =>
    obtain ⟨-, rfl⟩ := Prod.mk.inj (Option.some.inj h)
    cases c <;> cases commit <;> simp [TpcCall.phase, TwoPhase.Phase.decided, resClient]
  | returned res => cases h
  | faulted => cases h

/-- The transaction of a worker, and its next message. -/
theorem Wf.next (h : c.Wf leader) {t : ℕ} {worker : Worker} (hworker : c.workers[t]? = some worker) :
    (c.spec leader).transactions[t]? = some (worker.spec leader) ∧
      (worker.spec leader).next t = (worker.call.asks worker.write.req).map fun x =>
        ((leader.nodes x.1).address, messageOf t x.2) := by
  refine ⟨?_, (h.stands worker (List.mem_of_getElem? hworker)).next⟩
  rw [spec, List.getElem?_map, hworker]
  rfl

/-- An event in which nothing fails, and no `ABORT` goes astray. -/
theorem ConcurrentWf.step (hfull : Full leader) (h : ConcurrentWf leader m c) {e : ClusterEvent} (hreliable : c.Reliable e)
    (hmatched : Matched leader c e) : ConcurrentWf leader m (c.step leader e) := by
  obtain ⟨hwf, hspec⟩ := h.wf.step hfull e
  refine ⟨hwf, h.wf.tied hfull h.tied e, ?_⟩
  rw [hspec]
  cases e with
  | arrive w => exact h.concurrent.start _ _
  | exchange t o =>
    refine h.concurrent.step ⟨hreliable, fun T hT hdecided y hy x hx => ?_⟩
    simp only [Option.mem_def, spec, List.getElem?_map, Option.map_eq_some_iff] at hT
    obtain ⟨worker, hworker, rfl⟩ := hT
    rw [(h.wf.next hworker).2, Option.mem_map] at hy
    obtain ⟨⟨pri, msg⟩, hasks, rfl⟩ := hy
    exact hmatched worker hworker _ hasks ((asks_decision hasks false).mp hdecided) x hx
  | deliver i => exact hreliable.elim
  | restart a => exact hreliable.elim

theorem concurrentWf_start {servers : Address → KvServer} (hquiet : ∀ a, Quiescent (servers a) (m a)) :
    ConcurrentWf leader m (start servers) := by
  obtain ⟨hwf, hspec⟩ : (start servers).Wf leader ∧ (start servers).spec leader = System.init m := wf_start hquiet
  refine ⟨hwf, fun a => ?_, ?_⟩
  · rw [hspec]
    rfl
  · rw [hspec]
    exact System.concurrentInv_init m

/-- A `COMMIT` finds the operation of its worker. -/
theorem ConcurrentWf.commit_meets (h : ConcurrentWf leader m c) {t : ℕ} {worker : Worker}
    (hworker : c.workers[t]? = some worker) {pri : ℕ} (hasks : worker.call.asks worker.write.req = some (pri, resClient true)) :
    (c.net (leader.nodes pri).address).owner = some (t, worker.write.op) := by
  obtain ⟨htrans, hnext⟩ := h.wf.next hworker
  rw [hasks] at hnext
  exact h.concurrent.commit_meets htrans hnext ((asks_decision hasks true).mpr rfl)

end Cluster

/-- **Workers side by side.** Any number of `PUT`s and `DELETE`s reach a full leader, and their workers have their
exchanges in any order; nothing fails. As long as no `ABORT` reaches a follower that holds another worker's
operation, what was answered `SUCCESS` has been applied once at every replica, what was or will be answered `ERROR`
nowhere, and every `COMMIT` finds the operation it is for. -/
theorem concurrent_sound {leader : TpcLeader} (hfull : Full leader) {servers : Address → KvServer} {m : Address → KvMap}
    (hquiet : ∀ a, Quiescent (servers a) (m a)) {events : List ClusterEvent}
    (hreliable : Cluster.Along leader Cluster.Reliable (Cluster.start servers) events)
    (hmatched : Cluster.Along leader (Cluster.Matched leader) (Cluster.start servers) events) :
    let c := (Cluster.start servers).run leader events
    c.Sound leader m ∧
      ∀ (t : ℕ) (worker : Worker), c.workers[t]? = some worker → ∀ pri,
        worker.call.asks worker.write.req = some (pri, resClient true) →
        (c.net (leader.nodes pri).address).owner = some (t, worker.write.op) := by
  intro c
  have hinv : Cluster.ConcurrentWf leader m c :=
    Cluster.Along.run leader (fun h he => h.step hfull he.1 he.2) (Cluster.concurrentWf_start hquiet)
      (hreliable.and leader hmatched)
  exact ⟨hinv.wf.sound hinv.concurrent.sound hinv.tied, fun t worker hworker pri hasks => hinv.commit_meets hworker hasks⟩

end

section

attribute [local instance] md5Sample

/-- Two `PUT`s to one follower. It declines the second, and gets its `ABORT` after the `COMMIT` of the first. -/
theorem concurrent_sound_two :
    let c := (Cluster.start fun _ => newServer).run (localLeader ["8001"])
      [.arrive (writeA "1"), .arrive (writeA "2"), .exchange 0 .answered, .exchange 1 .answered, .exchange 0 .answered,
        .exchange 1 .answered]
    c.Sound (localLeader ["8001"]) (fun _ => KvStore.contents ⟨.empty⟩) ∧
      ∀ (t : ℕ) (worker : Worker), c.workers[t]? = some worker → ∀ pri,
        worker.call.asks worker.write.req = some (pri, resClient true) →
        (c.net ((localLeader ["8001"]).nodes pri).address).owner = some (t, worker.write.op) :=
  concurrent_sound full_localLeader (fun _ => quiescent_newServer) (by decide +kernel) (by decide +kernel)

/-! ## Two that cross -/

/-- Two `PUT`s to one follower. It declines the second, and gets its `ABORT` before the `COMMIT` of the first. -/
def crossedPuts : List ClusterEvent :=
  [.arrive (writeA "1"), .arrive (writeA "2"), .exchange 0 .answered, .exchange 1 .answered, .exchange 1 .answered,
    .exchange 0 .answered]

/-- Nothing fails, and the first is answered `SUCCESS`, but the follower has not applied it. -/
theorem crossed_puts :
    let c := (Cluster.start fun _ => newServer).run (localLeader ["8001"]) crossedPuts
    Cluster.Along (localLeader ["8001"]) Cluster.Reliable (Cluster.start fun _ => newServer) crossedPuts ∧
      c.workers.map Worker.call = [.returned (tpcResponse true), .returned (tpcResponse false)] ∧
      (∀ a ∈ addresses (localLeader ["8001"]) (.ofString "a"), (c.net a).applied = []) ∧
      ¬ c.Sound (localLeader ["8001"]) (fun _ => KvStore.contents ⟨.empty⟩) := by
  intro c
  have happlied : ∀ a ∈ addresses (localLeader ["8001"]) (.ofString "a"), (c.net a).applied = [] := by decide +kernel
  refine ⟨by decide +kernel, by decide +kernel, happlied, fun hsound => ?_⟩
  have hmem := hsound.applied_of_success 0 (writeA "1").op (by decide +kernel) (.ofString "localhost", 8001)
    (by decide +kernel)
  rw [happlied _ (by decide +kernel)] at hmem
  cases hmem

end

end Cs162Hw.Kv
