import Cs162Hw.Library.Steady
import Cs162Hw.Kv.Cluster

/-!
# Handlers whose exchanges are answered

The leader's handlers when every follower can be reached and no message is lost.

* `Underway`: where `tpcleader_handle_tpc` stands, and what the followers hold then. **`Underway.exchange`** — the next
  exchange, and what is left; `Underway.finished` — its response.
* `GetCall.exchange_eq` — an exchange of `tpcleader_handle_get` with a follower that holds a value for the key, or none.
-/

namespace Cs162Hw.Kv

open Library
open Library.TwoPhase (Operations Phase Steady Unanimous Outcome)
open Library.TwoPhase.Operations (apply check)

variable [StrHash]

/-- The followers' handler. -/
abbrev handleRequest (req : KvRequest) (server : KvServer) : Option KvResponse × KvServer := server.handle req

/-! ## `tpcleader_handle_tpc` -/

/-- The handler of `w` has come to `call`, a stage `φ` of a transaction on followers that held `d` before it, and the
followers are `net`. -/
structure Underway (leader : TpcLeader) (w : Write) (d : Address → KvMap) (φ : Phase) (call : TpcCall)
    (net : Address → KvServer) : Prop where
  stands : call.Stands leader w.op.key φ
  followers : ∃ spec : Address → MapParticipant, (∀ a, Refines (net a) (spec a)) ∧
    Steady d w.op (addresses leader w.op.key) φ spec

variable {leader : TpcLeader} {w : Write} {d : Address → KvMap} {φ : Phase} {call : TpcCall} {net : Address → KvServer}

/-- It starts when nothing is pending. -/
theorem Underway.start (hfull : Full leader) (hquiet : ∀ a, Quiescent (net a) (d a)) (w : Write) :
    Underway leader w d (.afterVotes leader.redundancy 0 true) (.start leader w.req) net := by
  refine ⟨TpcCall.start_stands hfull w.key_eq w.type_eq, fun a => ⟨d a, none⟩, hquiet, ?_⟩
  rw [← hfull.addresses_length w.op.key]
  exact Steady.start fun _ => rfl

/-- **Its next exchange.** One exchange less is left, and the decision stands, if there was one. -/
theorem Underway.exchange (hfull : Full leader) (h : Underway leader w d φ call net) (hleft : 0 < φ.left leader.redundancy) :
    ∃ φ', Underway leader w d φ' (call.exchange leader w.req handleRequest .answered net).1
        (call.exchange leader w.req handleRequest .answered net).2 ∧
      φ'.left leader.redundancy + 1 = φ.left leader.redundancy ∧
      φ'.heard leader.redundancy = (if φ.decided.isSome then φ.heard leader.redundancy + 1 else 0) ∧
      ∀ commit, φ.decided = some commit → φ'.decided = some commit := by
  obtain ⟨hstands, spec, hrefines, hsteady⟩ := h
  have hlen := hfull.addresses_length w.op.key
  obtain ⟨i, hi, hlt⟩ := hsteady.index (hlen.symm ▸ hleft)
  obtain ⟨m, hm⟩ : ∃ m, φ.message w.op = some m := by
    cases φ with
    | voting _ _ => exact ⟨_, rfl⟩
    | deciding _ _ _ => exact ⟨_, rfl⟩
    | done _ => cases hi
  obtain ⟨n, hn⟩ : ∃ n, (leader.replicas w.op.key)[i]? = some n := by
    rw [hlen, ← hfull.replicas_length w.op.key] at hlt
    exact ⟨_, List.getElem?_eq_getElem hlt⟩
  have ha : (addresses leader w.op.key)[i]? = some (leader.nodes n).address := by
    rw [addresses, List.getElem?_map, hn]
    rfl
  obtain ⟨hstands', hrefines'⟩ := TpcCall.exchange_simulates hfull w.key_eq (server_simulates w.asks) hstands hrefines hi hn hm
    .answered
  have hsteady' := hsteady.exchange hi ha hm
  have hleft' := @Steady.left_exchange _ _ _ _ _ _ _ _ _ hsteady i hi (leader.nodes n).address m hm
  have hheard' := @Steady.heard_exchange _ _ _ _ _ _ _ _ _ hsteady i hi (leader.nodes n).address m hm
  rw [hlen] at hsteady' hleft' hheard'
  exact ⟨_, ⟨hstands', _, hrefines', hsteady'⟩, hleft', hheard', fun commit hc => Phase.decided_resume hc _ _⟩

/-- What the followers hold. -/
theorem Underway.contents (hfull : Full leader) (h : Underway leader w d φ call net) (a : Address) :
    (net a).store.Chained ∧ (net a).store.contents =
      if φ.decided = some true ∧ a ∈ (addresses leader w.op.key).take (φ.heard leader.redundancy) then apply w.op (d a)
      else d a := by
  obtain ⟨-, spec, hrefines, hsteady⟩ := h
  refine ⟨(hrefines a).chained, ?_⟩
  rw [(hrefines a).contents, hsteady.data a, hfull.addresses_length]
  split_ifs <;> rfl

/-- When no exchange is left it has returned, and the followers hold what it has decided. -/
theorem Underway.finished (hfull : Full leader) (h : Underway leader w d φ call net) (hleft : φ.left leader.redundancy = 0) :
    ∃ commit, call = .returned (tpcResponse commit) ∧
      (commit = true ↔ Unanimous d w.op (addresses leader w.op.key)) ∧
      ∀ a, Quiescent (net a) (if commit = true ∧ a ∈ addresses leader w.op.key then apply w.op (d a) else d a) := by
  obtain ⟨hstands, spec, hrefines, hsteady⟩ := h
  obtain ⟨commit, rfl⟩ := hsteady.eq_done (by rw [hfull.addresses_length, hleft])
  obtain ⟨hout, hcommit, hall⟩ := hsteady
  refine ⟨commit, ?_, hcommit, fun a => ?_⟩
  · cases hstands with
    | returned => rfl
  · have hspec : spec a = ⟨if commit = true ∧ a ∈ addresses leader w.op.key then apply w.op (d a) else d a, none⟩ := by
      by_cases ha : a ∈ addresses leader w.op.key
      · rw [hall a ha]
        simp [TwoPhase.settled, ha]
      · rw [hout a ha]
        simp [TwoPhase.idle, ha]
    have hr := hrefines a
    rw [hspec] at hr
    exact hr

/-! ## `tpcleader_handle_get` -/

omit [StrHash] in
/-- The response to a `GET` of a key that has this value, or none. -/
def getResponse : Option CString → KvResponse
  | some value => ⟨.getResp, some value⟩
  | none => ⟨.error, some errmsgNoKey⟩

/-- It starts at the first replica. -/
theorem GetCall.start_eq (hfull : Full leader) (key : CString) (val : Option CString) :
    ∃ pri, (leader.replicas key)[0]? = some pri ∧ start leader ⟨.getReq, some key, val⟩ = .ask pri 0 := by
  obtain ⟨pri, hpri, -⟩ := hfull.primary key
  refine ⟨pri, hfull.replicas_zero hpri, ?_⟩
  simp only [start, primaryOf, hpri, askFrom]
  exact if_pos hfull.redundancy

/-- An exchange with a follower that is asked for a key it may hold. -/
theorem GetCall.exchange_eq (key : CString) (val : Option CString) {pri : ℕ} (i : ℕ)
    (hc : (net (leader.nodes pri).address).store.Chained) :
    (GetCall.ask pri i).exchange leader ⟨.getReq, some key, val⟩ handleRequest .answered net =
      (match (net (leader.nodes pri).address).store.contents key with
        | some value => .returned (getResponse (some value))
        | none => askFrom leader (tpcleaderGetSuccessor leader pri) (i + 1), net) := by
  set a := (leader.nodes pri).address
  have hget := handle_get_eq hc key val
  have hnet : Function.update net a ((net a).handle ⟨.getReq, some key, val⟩).2 = net := by
    rw [hget]
    exact Function.update_eq_self ..
  have hreply : ∀ res, (net a).store.contents.get key = res → 0 ≤ httpCodeForResponseType res.type →
      (GetCall.ask pri i).exchange leader ⟨.getReq, some key, val⟩ handleRequest .answered net =
        (resume leader (.ask pri i) (.answered ⟨res.type, some (res.body.getD .empty)⟩), net) := by
    intro res hres hcode
    have hreceived : (handleRequest ⟨.getReq, some key, val⟩ (net a)).1.bind KvResponse.received =
        some ⟨res.type, some (res.body.getD .empty)⟩ := by
      rw [handleRequest, hget, hres]
      exact KvResponse.received_eq hcode
    have heq := Kv.exchange_eq hreceived .answered
    simp only [GetCall.exchange, asks]
    rw [heq]
    exact congrArg _ hnet
  cases hvalue : (net a).store.contents key with
  | some value =>
    have hlen : ¬ key.strlen > maxKeylen := fun hlong =>
      Option.some_ne_none value (hvalue.symm.trans (KvStore.contents_of_long hlong))
    have hres : (net a).store.contents.get key = ⟨.getResp, some value⟩ := by
      rw [KvMap.get, if_neg hlen, hvalue]
    rw [hreply _ hres (show 0 ≤ httpCodeForResponseType .getResp by decide)]
    rfl
  | none =>
    obtain ⟨body, hres⟩ : ∃ body, (net a).store.contents.get key = ⟨.error, some body⟩ := by
      rw [KvMap.get, hvalue]
      split_ifs
      · exact ⟨_, rfl⟩
      · exact ⟨_, rfl⟩
    rw [hreply _ hres (show 0 ≤ httpCodeForResponseType .error by decide)]
    rfl

end Cs162Hw.Kv
