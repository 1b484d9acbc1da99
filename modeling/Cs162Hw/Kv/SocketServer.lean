import Cs162Hw.Library.Descriptors
import Cs162Hw.Kv.WorkQueue

/-!
# The threads of a server and its descriptors

`hw4/src/socket_server.c`, as the leader uses it. The main thread, here thread 0, accepts connections (`server_run`) and hands
their descriptors over to workers by the queue of `WorkQueue.lean`; a worker has a connection handled and closes it
(`handle_leader`), and the handler connects to followers in the meantime (`connect_to`). The process has one table of
descriptors.

`connect_to` opens a socket first, and does not close it where it returns `-1`. A descriptor is a number, and the queue and the
workers have nothing else: if one was closed too early, the next connection would get its number.

`server_stop` is called by nobody and left out, and so is what comes before the loop of `server_run`; it leaves the table with
which a run starts. The handlers are represented by the sockets they open and close, in any order.

* **`server_connections`**: whatever the threads do and in which order, every connection waits in the queue, or is
  handled by one worker, under a descriptor that is still its own, or has been closed, once; and what `connect_to` has left
  open is what is missing of the table.
* **`server_exhausted`**: a follower that cannot be reached takes all of it, and then nothing is accepted any more, and
  no follower reached, be they up again or not.
-/

namespace Cs162Hw.Kv.SocketServer

open Cs162Hw.Library (Descriptors)
open Cs162Hw.Library.Steps
open WorkQueue (WqState WqEvent Thread)

/-- What is open. -/
inductive Socket where
  /-- The standard streams, and the socket that the server listens on. -/
  | own
  /-- A connection, by its number among those that were pushed. -/
  | client (n : ℕ)
  /-- A worker's connection to a follower. -/
  | peer (thread : ℕ)
  /-- A socket whose descriptor nobody has. -/
  | abandoned
  deriving DecidableEq

/-- Where a thread is, apart from the functions of the queue. -/
inductive Stage where
  /-- In its loop. -/
  | loop
  /-- In the handler. -/
  | handling (sockfd : ℕ)
  /-- In the handler, connected to a follower. -/
  | talking (sockfd socketid : ℕ)
  deriving DecidableEq

/-- The connection that a thread has that is there. -/
def jobOf : Thread ℕ → Stage → Option ℕ
  | .popped _ sockfd, _ => some sockfd
  | _, .loop => none
  | _, .handling sockfd => some sockfd
  | _, .talking sockfd _ => some sockfd

/-- Is the handler connected to no follower? -/
def Stage.isHandling : Stage → Bool
  | .handling _ => true
  | _ => false

/-- Is it connected to one? -/
def Stage.isTalking : Stage → Bool
  | .talking _ _ => true
  | _ => false

theorem Stage.isHandling_iff (stage : Stage) : stage.isHandling = true ↔ ∃ sockfd, stage = .handling sockfd := by
  cases stage <;> simp [isHandling]

theorem Stage.isTalking_iff (stage : Stage) : stage.isTalking = true ↔ ∃ sockfd socketid, stage = .talking sockfd socketid := by
  cases stage <;> simp [isTalking]

/-- The server. -/
structure State where
  /-- `server->wq`, and the threads in it. -/
  queue : WqState ℕ
  /-- What is open. -/
  table : Descriptors Socket
  /-- The threads. -/
  stages : ℕ → Stage
  /-- What the workers have closed, first to last: what was open under the descriptor. -/
  closed : List (Option Socket)
  /-- How many descriptors were given out that nobody has. -/
  lost : ℕ

/-- What happens. -/
inductive Event where
  /-- A connection arrives, and `accept` returns; `node` is what `calloc` returns if it is pushed. -/
  | accept (node : ℕ)
  /-- A worker calls `wq_pop`. -/
  | pop (thread : ℕ)
  /-- It returns from `pthread_cond_wait`. -/
  | wake (thread : ℕ)
  /-- It returns from `wq_pop`, and calls the handler. -/
  | begin (thread : ℕ)
  /-- The handler calls `connect_to`: whether there is such a host, and whether it can be reached. -/
  | connectTo (thread : ℕ) (resolves reaches : Bool)
  /-- The handler closes its connection to a follower. -/
  | hangUp (thread : ℕ)
  /-- The handler has returned, and the worker closes the connection. -/
  | done (thread : ℕ)

/-- `connect_to`. The socket it opens is known to the caller only if it returns it. -/
def connectTo (thread : ℕ) (resolves reaches : Bool) (t : Descriptors Socket) : Option ℕ × Descriptors Socket :=
  if resolves && reaches then t.opened (some (.peer thread)) else (none, (t.opened (some .abandoned)).2)

namespace State

/-- At the start of the loop of `server_run`. -/
def start (t : Descriptors Socket) : State := ⟨.start, t, fun _ => .loop, [], 0⟩

/-- One step of a thread. -/
def step (s : State) : Event → Option State
  | .accept node =>
    match s.table.opened (some (.client s.queue.pushed.length)) with
    | (none, _) => some s
    | (some 0, _) => some { s with table := (s.table.opened (some .abandoned)).2, lost := s.lost + 1 }
    | (some clientSock, table) => do
      let queue ← s.queue.step (.push 0 clientSock node)
      some { s with queue := queue, table := table }
  | .pop thread => do
    let queue ← s.queue.step (.pop thread)
    some { s with queue := queue }
  | .wake thread => do
    let queue ← s.queue.step (.wake thread)
    some { s with queue := queue }
  | .begin thread =>
    match s.queue.threads thread with
    | .popped _ sockfd => do
      let queue ← s.queue.step (.finish thread)
      some { s with queue := queue, stages := Function.update s.stages thread (.handling sockfd) }
    | _ => none
  | .connectTo thread resolves reaches =>
    match s.stages thread with
    | .handling sockfd =>
      match connectTo thread resolves reaches s.table with
      | (some socketid, table) =>
        some { s with table := table, stages := Function.update s.stages thread (.talking sockfd socketid) }
      | (none, table) => some { s with table := table, lost := s.lost + (s.table.free.card - table.free.card) }
    | _ => none
  | .hangUp thread =>
    match s.stages thread with
    | .talking sockfd socketid =>
      some { s with table := s.table.close (some socketid), stages := Function.update s.stages thread (.handling sockfd) }
    | _ => none
  | .done thread =>
    match s.stages thread with
    | .handling sockfd => some { s with
        table := s.table.close (some sockfd)
        stages := Function.update s.stages thread .loop
        closed := s.closed ++ [s.table.file sockfd] }
    | _ => none

/-- The thread is where it does this, and memory that `calloc` returns was free. -/
def Allowed (s : State) : Event → Prop
  | .accept node => s.queue.Allowed (.push 0 0 node)
  | .pop thread => thread ≠ 0 ∧ s.stages thread = .loop ∧ s.queue.Allowed (.pop thread)
  | .wake thread => s.queue.Allowed (.wake thread)
  | .begin thread => (s.queue.threads thread).wqItem ≠ none
  | .connectTo thread _ _ => ∃ sockfd, s.stages thread = .handling sockfd
  | .hangUp thread => ∃ sockfd socketid, s.stages thread = .talking sockfd socketid
  | .done thread => ∃ sockfd, s.stages thread = .handling sockfd

/-- Whether a step is allowed can be computed. -/
instance decidableAllowed (s : State) : (e : Event) → Decidable (s.Allowed e)
  | .accept node => inferInstanceAs (Decidable (s.queue.Allowed (.push 0 0 node)))
  | .pop thread => inferInstanceAs (Decidable (_ ∧ _ ∧ s.queue.Allowed (.pop thread)))
  | .wake thread => inferInstanceAs (Decidable (s.queue.Allowed (.wake thread)))
  | .begin _ => inferInstanceAs (Decidable (_ ≠ _))
  | .connectTo thread _ _ => decidable_of_iff ((s.stages thread).isHandling = true) (s.stages thread).isHandling_iff
  | .hangUp thread => decidable_of_iff ((s.stages thread).isTalking = true) (s.stages thread).isTalking_iff
  | .done thread => decidable_of_iff ((s.stages thread).isHandling = true) (s.stages thread).isHandling_iff

/-- The connection that a thread has, from the time it has popped it. -/
def job (s : State) (thread : ℕ) : Option ℕ := jobOf (s.queue.threads thread) (s.stages thread)

theorem job_update (s s' : State) {t : ℕ} {thread : Thread ℕ} {stage : Stage}
    (hthreads : s'.queue.threads = Function.update s.queue.threads t thread)
    (hstages : s'.stages = Function.update s.stages t stage) : s'.job = Function.update s.job t (jobOf thread stage) := by
  funext t'
  simp only [job, hthreads, hstages, Function.update_apply]
  split_ifs
  · rfl
  · rfl

/-- A thread that is in no function of the queue. -/
theorem job_stage {s : State} {t : ℕ} {stage : Stage} {table : Descriptors Socket} {closed : List (Option Socket)} {lost : ℕ}
    (h : s.queue.threads t = .outside) :
    job ⟨s.queue, table, Function.update s.stages t stage, closed, lost⟩ = Function.update s.job t (jobOf .outside stage) :=
  job_update s _ (by rw [← h, Function.update_eq_self]) rfl

end State

/-! ## The connections -/

/-- Is a connection open there? -/
def isClient : Option Socket → Bool
  | some (.client _) => true
  | _ => false

/-- Is it a worker's connection to a follower? -/
def isPeer : Option Socket → Bool
  | some (.peer _) => true
  | _ => false

/-- What becomes of connections: `pushed` are the descriptors of all of them, `taken` of those that have been popped, and `job`
says which a thread has. The server has started with the table `t₀`. -/
structure Accounts (t₀ : Descriptors Socket) (pushed taken : List ℕ) (table : Descriptors Socket) (job : ℕ → Option ℕ)
    (closed : List (Option Socket)) (lost : ℕ) : Prop where
  /-- No descriptor is beyond the limit. -/
  bounded : table.Bounded
  /-- A connection is open under the descriptor that was pushed. -/
  named : ∀ fd k, table.file fd = some (.client k) → pushed[k]? = some fd
  /-- One that has not been popped is open. -/
  queued : ∀ k fd, taken.length ≤ k → pushed[k]? = some fd → table.file fd = some (.client k)
  /-- What a thread has, is a connection that was popped, and open. -/
  held : ∀ t fd, job t = some fd → ∃ k < taken.length, table.file fd = some (.client k)
  /-- No other thread has it. -/
  once : ∀ t t' fd, job t = some fd → job t' = some fd → t = t'
  /-- One that was popped and is open, is had by a thread. -/
  owner : ∀ fd k, table.file fd = some (.client k) → k < taken.length → ∃ t, job t = some fd
  /-- What was closed is a connection that was popped, -/
  closed_mem : ∀ x ∈ closed, ∃ k < taken.length, x = some (.client k)
  /-- and was closed once; -/
  closed_nodup : closed.Nodup
  /-- and is not open any more. -/
  closed_iff : ∀ k < taken.length, some (.client k) ∈ closed ↔ ∀ fd, table.file fd ≠ some (.client k)
  /-- The descriptors that are gone. -/
  capacity : table.free.card + lost + table.count isPeer + table.count isClient = t₀.free.card
  /-- The connections. -/
  total : closed.length + table.count isClient = pushed.length

namespace Accounts

variable {t₀ table : Descriptors Socket} {pushed taken : List ℕ} {job : ℕ → Option ℕ} {closed : List (Option Socket)}
  {lost : ℕ} {fd t k : ℕ}

theorem client_lt (h : Accounts t₀ pushed taken table job closed lost) (hfd : table.file fd = some (.client k)) :
    k < pushed.length := (List.getElem?_eq_some_iff.mp (h.named fd k hfd)).1

/-- A socket that is no connection is opened or closed. -/
theorem set_other (h : Accounts t₀ pushed taken table job closed lost) (hlt : fd < table.limit)
    (hold : isClient (table.file fd) = false) {f : Option Socket} (hnew : isClient f = false) {lost' : ℕ}
    (hcapacity : (table.set fd f).free.card + lost' + (table.set fd f).count isPeer =
      table.free.card + lost + table.count isPeer) :
    Accounts t₀ pushed taken (table.set fd f) job closed lost' := by
  have hclient : ∀ fd' k, (table.set fd f).file fd' = some (.client k) ↔ table.file fd' = some (.client k) := by
    intro fd' k
    by_cases heq : fd' = fd
    · subst heq
      rw [Descriptors.set_file_self]
      refine iff_of_false ?_ ?_
      · rintro rfl
        cases hnew
      · intro hfd
        rw [hfd] at hold
        cases hold
    · rw [Descriptors.set_file_of_ne heq]
  have hcount := Descriptors.count_set hlt f isClient
  rw [hold, hnew] at hcount
  have hcapacity₀ := h.capacity
  have htotal := h.total
  refine ⟨h.bounded.set hlt f, ?_, ?_, ?_, h.once, ?_, h.closed_mem, h.closed_nodup, ?_, by omega, by omega⟩
  · simpa only [hclient] using h.named
  · simpa only [hclient] using h.queued
  · simpa only [hclient] using h.held
  · simpa only [hclient] using h.owner
  · simpa only [ne_eq, hclient] using h.closed_iff

/-- A connection is accepted and pushed. -/
theorem accept (h : Accounts t₀ pushed taken table job closed lost) (htaken : taken.length ≤ pushed.length)
    (hfd : fd ∈ table.free) :
    Accounts t₀ (pushed ++ [fd]) taken (table.set fd (some (.client pushed.length))) job closed lost := by
  obtain ⟨hlt, hnone⟩ := Descriptors.mem_free.mp hfd
  have hother : ∀ {fd' k}, table.file fd' = some (.client k) → fd' ≠ fd := by
    rintro fd' k hfile rfl
    rw [hnone] at hfile
    cases hfile
  have hkeep : ∀ {fd' k}, table.file fd' = some (.client k) →
      (table.set fd (some (.client pushed.length))).file fd' = some (.client k) := by
    intro fd' k hfile
    rwa [Descriptors.set_file_of_ne (hother hfile)]
  have hback : ∀ {fd' k}, k ≠ pushed.length → (table.set fd (some (.client pushed.length))).file fd' = some (.client k) →
      table.file fd' = some (.client k) := by
    intro fd' k hk hfile
    by_cases heq : fd' = fd
    · subst heq
      rw [Descriptors.set_file_self] at hfile
      cases hfile
      exact absurd rfl hk
    · rwa [Descriptors.set_file_of_ne heq] at hfile
  have hfree := Descriptors.count_set hlt (some (.client pushed.length)) Option.isNone
  have hpeer := Descriptors.count_set hlt (some (.client pushed.length)) isPeer
  have hcount := Descriptors.count_set hlt (some (.client pushed.length)) isClient
  rw [hnone] at hfree hpeer hcount
  simp only [Descriptors.count_isNone, isPeer, isClient, Option.isNone_none, Option.isNone_some, Bool.toNat_true,
    Bool.toNat_false] at hfree hpeer hcount
  have hcapacity := h.capacity
  have htotal := h.total
  refine ⟨h.bounded.set hlt _, fun fd' k hfile => ?_, fun k fd' hk hpushed => ?_, fun t fd' hjob => ?_, h.once,
    fun fd' k hfile hk => ?_, h.closed_mem, h.closed_nodup, fun k hk => ?_, by omega, ?_⟩
  · by_cases hk : k = pushed.length
    · subst hk
      have heq : fd' = fd := by
        by_contra hne
        rw [Descriptors.set_file_of_ne hne] at hfile
        exact absurd (h.client_lt hfile) (Nat.lt_irrefl _)
      rw [heq, List.getElem?_concat_length]
    · have hfile' := hback hk hfile
      rw [List.getElem?_append_left (h.client_lt hfile')]
      exact h.named fd' k hfile'
  · by_cases hlast : k = pushed.length
    · subst hlast
      rw [List.getElem?_concat_length] at hpushed
      rw [← Option.some.inj hpushed, Descriptors.set_file_self]
    · have hlt' : k < pushed.length := by
        have := (List.getElem?_eq_some_iff.mp hpushed).1
        rw [List.length_append, List.length_singleton] at this
        omega
      rw [List.getElem?_append_left hlt'] at hpushed
      exact hkeep (h.queued k fd' hk hpushed)
  · obtain ⟨k, hk, hfile⟩ := h.held t fd' hjob
    exact ⟨k, hk, hkeep hfile⟩
  · exact h.owner fd' k (hback (by omega) hfile) hk
  · rw [h.closed_iff k hk]
    exact forall_congr' fun fd' => not_congr ⟨hkeep, hback (by omega)⟩
  · rw [List.length_append, List.length_singleton]
    omega

/-- A thread pops one. -/
theorem take (h : Accounts t₀ pushed taken table job closed lost) (hpushed : pushed[taken.length]? = some fd)
    (hjob : job t = none) : Accounts t₀ pushed (taken ++ [fd]) table (Function.update job t (some fd)) closed lost := by
  have hlen : (taken ++ [fd]).length = taken.length + 1 := by rw [List.length_append, List.length_singleton]
  have hopen := h.queued taken.length fd le_rfl hpushed
  have hnobody : ∀ t', job t' ≠ some fd := by
    intro t' hjob'
    obtain ⟨k, hk, hfile⟩ := h.held t' fd hjob'
    rw [hopen] at hfile
    cases hfile
    exact Nat.lt_irrefl _ hk
  have hcases : ∀ {t' fd'}, Function.update job t (some fd) t' = some fd' → (t' = t ∧ fd' = fd) ∨ (t' ≠ t ∧ job t' = some fd') := by
    intro t' fd' hjob'
    by_cases heq : t' = t
    · subst heq
      rw [Function.update_self] at hjob'
      exact Or.inl ⟨rfl, (Option.some.inj hjob').symm⟩
    · rw [Function.update_of_ne heq] at hjob'
      exact Or.inr ⟨heq, hjob'⟩
  refine ⟨h.bounded, h.named, fun k fd' hk => h.queued k fd' (by omega), fun t' fd' hjob' => ?_, fun t₁ t₂ fd' h₁ h₂ => ?_,
    fun fd' k hfile hk => ?_, fun x hx => ?_, h.closed_nodup, fun k hk => ?_, h.capacity, h.total⟩
  · rcases hcases hjob' with ⟨-, rfl⟩ | ⟨-, hjob'⟩
    · exact ⟨taken.length, by omega, hopen⟩
    · obtain ⟨k, hk, hfile⟩ := h.held t' fd' hjob'
      exact ⟨k, by omega, hfile⟩
  · rcases hcases h₁ with ⟨ht₁, hfd₁⟩ | ⟨-, hjob₁⟩
    · rcases hcases h₂ with ⟨ht₂, -⟩ | ⟨-, hjob₂⟩
      · rw [ht₁, ht₂]
      · exact absurd (hfd₁ ▸ hjob₂) (hnobody t₂)
    · rcases hcases h₂ with ⟨-, hfd₂⟩ | ⟨-, hjob₂⟩
      · exact absurd (hfd₂ ▸ hjob₁) (hnobody t₁)
      · exact h.once t₁ t₂ fd' hjob₁ hjob₂
  · by_cases hlast : k = taken.length
    · subst hlast
      refine ⟨t, ?_⟩
      rw [Function.update_self, ← hpushed]
      exact h.named fd' _ hfile
    · obtain ⟨t', hjob'⟩ := h.owner fd' k hfile (by omega)
      refine ⟨t', ?_⟩
      have hne : t' ≠ t := by
        rintro rfl
        rw [hjob] at hjob'
        cases hjob'
      rwa [Function.update_of_ne hne]
  · obtain ⟨k, hk, heq⟩ := h.closed_mem x hx
    exact ⟨k, by omega, heq⟩
  · by_cases hlast : k = taken.length
    · subst hlast
      refine iff_of_false (fun hmem => ?_) fun hall => hall fd hopen
      obtain ⟨k, hk, heq⟩ := h.closed_mem _ hmem
      cases heq
      exact Nat.lt_irrefl _ hk
    · exact h.closed_iff k (by omega)

/-- A thread closes the one it has. -/
theorem close (h : Accounts t₀ pushed taken table job closed lost) (hjob : job t = some fd) :
    Accounts t₀ pushed taken (table.set fd none) (Function.update job t none) (closed ++ [table.file fd]) lost := by
  obtain ⟨n, hn, hopen⟩ := h.held t fd hjob
  have hlt : fd < table.limit := h.bounded fd (by rw [hopen]; exact Option.some_ne_none _)
  have hfree := Descriptors.count_set hlt none Option.isNone
  have hpeer := Descriptors.count_set hlt none isPeer
  have hcount := Descriptors.count_set hlt none isClient
  rw [hopen] at hfree hpeer hcount
  simp only [Descriptors.count_isNone, isPeer, isClient, Option.isNone_none, Option.isNone_some, Bool.toNat_true,
    Bool.toNat_false] at hfree hpeer hcount
  have hcapacity := h.capacity
  have htotal := h.total
  have hclient : ∀ fd' k, (table.set fd none).file fd' = some (.client k) ↔ table.file fd' = some (.client k) ∧ fd' ≠ fd := by
    intro fd' k
    by_cases heq : fd' = fd
    · subst heq
      rw [Descriptors.set_file_self]
      exact iff_of_false (by rintro ⟨⟩) fun hc => hc.2 rfl
    · rw [Descriptors.set_file_of_ne heq]
      exact (and_iff_left heq).symm
  have honly : ∀ {fd'}, table.file fd' = some (.client n) → fd' = fd := fun hfile =>
    Option.some.inj ((h.named _ n hfile).symm.trans (h.named fd n hopen))
  have hcases : ∀ {t' fd'}, Function.update job t none t' = some fd' → t' ≠ t ∧ job t' = some fd' := by
    intro t' fd' hjob'
    by_cases heq : t' = t
    · subst heq
      rw [Function.update_self] at hjob'
      cases hjob'
    · rw [Function.update_of_ne heq] at hjob'
      exact ⟨heq, hjob'⟩
  have hnot : some (Socket.client n) ∉ closed := fun hmem => (h.closed_iff n hn).mp hmem fd hopen
  refine ⟨h.bounded.set hlt none, fun fd' k hfile => h.named fd' k ((hclient fd' k).mp hfile).1, fun k fd' hk hpushed => ?_,
    fun t' fd' hjob' => ?_, fun t₁ t₂ fd' h₁ h₂ => h.once t₁ t₂ fd' (hcases h₁).2 (hcases h₂).2, fun fd' k hfile hk => ?_,
    fun x hx => ?_, ?_, fun k hk => ?_, by omega, ?_⟩
  · have hfile := h.queued k fd' hk hpushed
    refine (hclient fd' k).mpr ⟨hfile, ?_⟩
    rintro rfl
    rw [hopen] at hfile
    cases hfile
    omega
  · obtain ⟨hne, hjob'⟩ := hcases hjob'
    obtain ⟨k, hk, hfile⟩ := h.held t' fd' hjob'
    refine ⟨k, hk, (hclient fd' k).mpr ⟨hfile, ?_⟩⟩
    rintro rfl
    exact hne (h.once t' t fd' hjob' hjob)
  · obtain ⟨hfile, hne⟩ := (hclient fd' k).mp hfile
    obtain ⟨t', hjob'⟩ := h.owner fd' k hfile hk
    refine ⟨t', ?_⟩
    have hne' : t' ≠ t := by
      rintro rfl
      exact hne (Option.some.inj (hjob'.symm.trans hjob))
    rwa [Function.update_of_ne hne']
  · rcases List.mem_append.mp hx with hx | hx
    · exact h.closed_mem x hx
    · exact ⟨n, hn, (List.mem_singleton.mp hx).trans hopen⟩
  · rw [hopen, ← List.concat_eq_append, List.nodup_concat]
    exact ⟨hnot, h.closed_nodup⟩
  · rw [List.mem_append, List.mem_singleton, h.closed_iff k hk, hopen]
    simp only [ne_eq, hclient, not_and, not_not]
    constructor
    · rintro (hall | heq)
      · exact fun fd' hfile => absurd hfile (hall fd')
      · cases heq
        exact fun fd' hfile => honly hfile
    · intro hall
      by_cases hkn : k = n
      · exact Or.inr (by rw [hkn])
      · refine Or.inl fun fd' hfile => hkn ?_
        rw [hall fd' hfile, hopen] at hfile
        cases hfile
        rfl
  · rw [List.length_append, List.length_singleton]
    omega

end Accounts

/-! ## Every interleaving -/

/-- What holds of the server, at any time. -/
structure Inv (t₀ : Descriptors Socket) (s : State) : Prop where
  /-- The queue. -/
  queue : ∃ l, WqState.Inv s.queue l
  /-- A thread is in `wq_pop` or in the handler. -/
  apart : ∀ t, s.stages t = .loop ∨ s.queue.threads t = .outside
  /-- A worker's connection to a follower is its own. -/
  peers : ∀ t sockfd socketid, s.stages t = .talking sockfd socketid → s.table.file socketid = some (.peer t)
  /-- The connections. -/
  accounts : Accounts t₀ s.queue.pushed s.queue.taken s.table s.job s.closed s.lost

/-- The server is started with this: no descriptor is beyond the limit, and what is open is its own. -/
def Fresh (t₀ : Descriptors Socket) : Prop := t₀.Bounded ∧ ∀ fd, t₀.file fd = none ∨ t₀.file fd = some .own

variable {t₀ : Descriptors Socket} {s : State}

theorem count_eq_zero {p : Option Socket → Bool} (h : Fresh t₀) (hnone : p none = false) (hown : p (some .own) = false) :
    t₀.count p = 0 := by
  rw [Descriptors.count, Finset.card_eq_zero, Finset.filter_eq_empty_iff]
  intro fd _
  rcases h.2 fd with hfd | hfd
  · simp [hfd, hnone]
  · simp [hfd, hown]

theorem Inv.start (h : Fresh t₀) : Inv t₀ (.start t₀) := by
  have hclient : ∀ fd k, t₀.file fd ≠ some (.client k) := by
    intro fd k hfile
    rcases h.2 fd with hfd | hfd
    · rw [hfd] at hfile
      cases hfile
    · rw [hfd] at hfile
      cases hfile
  refine ⟨⟨[], WqState.Inv.start⟩, fun t => Or.inl rfl, fun t sockfd socketid ht => (by cases ht), ?_⟩
  refine ⟨h.1, fun fd k hfile => absurd hfile (hclient fd k), fun k fd _ hpushed => (by cases hpushed),
    fun t fd hjob => (by cases hjob), fun t t' fd hjob => (by cases hjob), fun fd k hfile => absurd hfile (hclient fd k),
    fun x hx => (by cases hx), List.nodup_nil, fun k hk => (by cases hk), ?_, ?_⟩
  · show t₀.free.card + 0 + t₀.count isPeer + t₀.count isClient = t₀.free.card
    rw [count_eq_zero h rfl rfl, count_eq_zero h rfl rfl]
    rfl
  · show 0 + t₀.count isClient = 0
    rw [count_eq_zero h rfl rfl]

theorem Inv.taken_le (hi : Inv t₀ s) : s.queue.taken.length ≤ s.queue.pushed.length := by
  obtain ⟨l, hl⟩ := hi.queue
  rw [← hl.fifo, List.length_append]
  omega

/-- What `wq_push` leaves as it is. -/
theorem push_eq {q q' : WqState ℕ} {t fd node : ℕ} (h : q.step (.push t fd node) = some q') :
    q'.pushed = q.pushed ++ [fd] ∧ q'.taken = q.taken ∧ q'.threads = q.threads := by
  obtain ⟨wq, -, h⟩ := Option.bind_eq_some_iff.mp h
  obtain rfl := Option.some.inj h
  exact ⟨rfl, rfl, rfl⟩

/-- A worker calls `wq_pop`, or returns from its wait. -/
theorem Inv.test (hi : Inv t₀ s) {t : ℕ} (hstage : s.stages t = .loop) (hjob : s.job t = none) :
    ∃ queue, s.queue.test t = some queue ∧ Inv t₀ { s with queue := queue } := by
  obtain ⟨l, hl⟩ := hi.queue
  obtain ⟨queue, htest, l', hl'⟩ := hl.test t
  have hstages : s.stages = Function.update s.stages t .loop := by rw [← hstage, Function.update_eq_self]
  have hapart : ∀ {thread}, ∀ t', s.stages t' = .loop ∨ Function.update s.queue.threads t thread t' = .outside := by
    intro thread t'
    by_cases heq : t' = t
    · exact Or.inl (heq ▸ hstage)
    · rw [Function.update_of_ne heq]
      exact hi.apart t'
  have hjobs : ∀ q thread, q.threads = Function.update s.queue.threads t thread →
      State.job { s with queue := q } = Function.update s.job t (jobOf thread .loop) :=
    fun _ _ hq => State.job_update s _ hq hstages
  refine ⟨queue, htest, ?_⟩
  rcases WqState.test_cases htest with rfl | ⟨wqItem, sockfd, wq, rfl⟩
  · refine ⟨⟨l', hl'⟩, hapart, hi.peers, ?_⟩
    rw [hjobs _ .waiting rfl, show jobOf .waiting .loop = s.job t from hjob.symm, Function.update_eq_self]
    exact hi.accounts
  · refine ⟨⟨l', hl'⟩, hapart, hi.peers, ?_⟩
    rw [hjobs _ (.popped wqItem sockfd) rfl]
    refine hi.accounts.take ?_ hjob
    have hfifo : s.queue.taken ++ [sockfd] ++ l'.map Prod.snd = s.queue.pushed := hl'.fifo
    rw [← hfifo, List.append_assoc, List.getElem?_append_right le_rfl, Nat.sub_self]
    rfl

/-- One thread is somewhere else, and not in a function of the queue. -/
theorem Inv.apart_update (hi : Inv t₀ s) {t : ℕ} {stage : Stage} {threads : ℕ → Thread ℕ} (ht : threads t = .outside)
    (hthreads : ∀ t', t' ≠ t → threads t' = s.queue.threads t') (t' : ℕ) :
    Function.update s.stages t stage t' = .loop ∨ threads t' = .outside := by
  by_cases heq : t' = t
  · exact Or.inr (heq ▸ ht)
  · rw [Function.update_of_ne heq, hthreads t' heq]
    exact hi.apart t'

/-- One thread is somewhere else, and the others keep their connections to followers. -/
theorem Inv.peers_update (hi : Inv t₀ s) {t : ℕ} {stage : Stage} {table : Descriptors Socket}
    (hself : ∀ sockfd socketid, stage = .talking sockfd socketid → table.file socketid = some (.peer t))
    (hrest : ∀ t' socketid, t' ≠ t → s.table.file socketid = some (.peer t') → table.file socketid = some (.peer t'))
    (t' sockfd socketid : ℕ) (ht' : Function.update s.stages t stage t' = .talking sockfd socketid) :
    table.file socketid = some (.peer t') := by
  by_cases heq : t' = t
  · subst heq
    rw [Function.update_self] at ht'
    exact hself sockfd socketid ht'
  · rw [Function.update_of_ne heq] at ht'
    exact hrest t' socketid heq (hi.peers t' sockfd socketid ht')

/-- A thread in the handler. -/
theorem Inv.outside (hi : Inv t₀ s) {t : ℕ} (h : s.stages t ≠ .loop) :
    s.queue.threads t = .outside ∧ s.job t = jobOf .outside (s.stages t) := by
  have hthread := (hi.apart t).resolve_left h
  exact ⟨hthread, by rw [State.job, hthread]⟩

/-- **One step of a thread** has a result, and keeps the invariant. -/
theorem Inv.step (hi : Inv t₀ s) {e : Event} (ha : s.Allowed e) : ∃ s', s.step e = some s' ∧ Inv t₀ s' := by
  obtain ⟨l, hl⟩ := hi.queue
  have hkeep : ∀ {fd : ℕ} {f : Option Socket}, fd ∈ s.table.free → ∀ t socketid, s.table.file socketid = some (.peer t) →
      (s.table.set fd f).file socketid = some (.peer t) := by
    intro fd f hfd t socketid hfile
    rwa [Descriptors.set_file_of_ne]
    rintro rfl
    rw [(Descriptors.mem_free.mp hfd).2] at hfile
    cases hfile
  have hpeers : ∀ {fd : ℕ} {f : Option Socket}, fd ∈ s.table.free → ∀ t sockfd socketid, s.stages t = .talking sockfd socketid →
      (s.table.set fd f).file socketid = some (.peer t) := fun hfd t sockfd socketid ht =>
    hkeep hfd t socketid (hi.peers t sockfd socketid ht)
  have hcard : ∀ {fd : ℕ} (f : Socket), fd ∈ s.table.free → (s.table.set fd (some f)).free.card + 1 = s.table.free.card :=
    fun f hfd => Descriptors.card_free_set_some_add_one hfd f
  have hpeer : ∀ {fd : ℕ} (f : Socket), fd ∈ s.table.free →
      (s.table.set fd (some f)).count isPeer = s.table.count isPeer + (isPeer (some f)).toNat := by
    intro fd f hfd
    obtain ⟨hlt, hnone⟩ := Descriptors.mem_free.mp hfd
    have hcount := Descriptors.count_set hlt (some f) isPeer
    rw [hnone] at hcount
    exact hcount
  have hnotClient : ∀ {fd : ℕ}, fd ∈ s.table.free → isClient (s.table.file fd) = false := by
    intro fd hfd
    rw [(Descriptors.mem_free.mp hfd).2]
    rfl
  cases e with
  | accept node =>
    rcases s.table.opened_cases with ⟨-, hopened⟩ | ⟨fd, hfd, hopened⟩
    · exact ⟨s, by rw [State.step, hopened], hi⟩
    · cases fd with
      | zero =>
        refine ⟨{ s with table := s.table.set 0 (some .abandoned), lost := s.lost + 1 }, ?_, hi.queue, hi.apart, hpeers hfd, ?_⟩
        · simp only [State.step, hopened]
        · refine hi.accounts.set_other (Descriptors.mem_free.mp hfd).1 (hnotClient hfd) rfl ?_
          have hfree := hcard .abandoned hfd
          rw [hpeer .abandoned hfd]
          simp only [isPeer, Bool.toNat_false]
          omega
      | succ fd =>
        obtain ⟨queue, hpush, hl', -, -⟩ := hl.push 0 (fd + 1) ha.2
        obtain ⟨hpushed, htaken, hthreads⟩ := push_eq hpush
        refine ⟨{ s with queue := queue, table := s.table.set (fd + 1) (some (.client s.queue.pushed.length)) }, ?_, ⟨_, hl'⟩,
          ?_, hpeers hfd, ?_⟩
        · simp only [State.step, hopened, hpush]
          rfl
        · rw [show queue.threads = s.queue.threads from hthreads]
          exact hi.apart
        · have hjob : State.job { s with
              queue := queue
              table := s.table.set (fd + 1) (some (.client s.queue.pushed.length)) } = s.job := by
            funext t
            simp only [State.job, hthreads]
          rw [hjob]
          simp only [hpushed, htaken]
          exact hi.accounts.accept hi.taken_le hfd
  | pop t =>
    obtain ⟨-, hstage, hthread⟩ := ha
    have hthread : s.queue.threads t = .outside := hthread
    obtain ⟨queue, htest, hnext⟩ := hi.test hstage (show jobOf _ _ = none by rw [hthread, hstage]; rfl)
    exact ⟨_, by simp only [State.step, WqState.step, htest]; rfl, hnext⟩
  | wake t =>
    have hthread : s.queue.threads t = .waiting := ha
    have hstage : s.stages t = .loop := (hi.apart t).resolve_right (by rw [hthread]; rintro ⟨⟩)
    obtain ⟨queue, htest, hnext⟩ := hi.test hstage (show jobOf _ _ = none by rw [hthread, hstage]; rfl)
    exact ⟨_, by simp only [State.step, WqState.step, htest]; rfl, hnext⟩
  | begin t =>
    obtain ⟨wqItem, sockfd, hthread⟩ := (s.queue.threads t).wqItem_ne_none.mp ha
    obtain ⟨queue, hstep, l', hl'⟩ := hl.step (e := .finish t) ⟨wqItem, sockfd, hthread⟩
    have hstep' := hstep
    simp only [WqState.step, hthread] at hstep'
    obtain rfl := Option.some.inj hstep'
    have hstage : s.stages t = .loop := (hi.apart t).resolve_right (by rw [hthread]; rintro ⟨⟩)
    refine ⟨{ s with
        queue := { s.queue with
          wq := s.queue.wq.free wqItem
          threads := Function.update s.queue.threads t .outside }
        stages := Function.update s.stages t (.handling sockfd) },
      by simp only [State.step, hthread, hstep]; rfl, ⟨l', hl'⟩,
      hi.apart_update (Function.update_self ..) fun t' hne => Function.update_of_ne hne ..,
      hi.peers_update (fun _ _ h => by cases h) fun _ _ _ hfile => hfile, ?_⟩
    have hjob : s.job t = some sockfd := by
      rw [State.job, hthread]
      rfl
    have hjobs := State.job_update s { s with
        queue := { s.queue with
          wq := s.queue.wq.free wqItem
          threads := Function.update s.queue.threads t .outside }
        stages := Function.update s.stages t (.handling sockfd) } rfl rfl
    rw [hjobs, show jobOf .outside (.handling sockfd) = s.job t from hjob.symm, Function.update_eq_self]
    exact hi.accounts
  | connectTo t resolves reaches =>
    obtain ⟨sockfd, hstage⟩ := ha
    obtain ⟨hthread, hjob⟩ := hi.outside (t := t) (by rw [hstage]; rintro ⟨⟩)
    rw [hstage] at hjob
    rcases s.table.opened_cases with ⟨-, hopened⟩ | ⟨fd, hfd, hopened⟩
    · -- there is none for `socket`, and `connect` fails
      have hconnect : connectTo t resolves reaches s.table = (none, s.table) := by
        simp only [connectTo, hopened, ite_self]
      exact ⟨s, by simp only [State.step, hstage, hconnect, Nat.sub_self, Nat.add_zero], hi⟩
    · by_cases hreached : (resolves && reaches) = true
      · have hconnect : connectTo t resolves reaches s.table = (some fd, s.table.set fd (some (.peer t))) := by
          rw [connectTo, if_pos hreached, hopened]
        refine ⟨{ s with
            table := s.table.set fd (some (.peer t))
            stages := Function.update s.stages t (.talking sockfd fd) },
          by simp only [State.step, hstage, hconnect], hi.queue, hi.apart_update hthread fun _ _ => rfl,
          hi.peers_update (fun _ _ h => ?_) fun t' socketid _ => hkeep hfd t' socketid, ?_⟩
        · obtain ⟨-, rfl⟩ := Stage.talking.inj h
          exact Descriptors.set_file_self ..
        · rw [State.job_stage hthread, show jobOf .outside (.talking sockfd fd) = s.job t from hjob.symm, Function.update_eq_self]
          refine hi.accounts.set_other (Descriptors.mem_free.mp hfd).1 (hnotClient hfd) rfl ?_
          have hfree := hcard (.peer t) hfd
          rw [hpeer (.peer t) hfd]
          simp only [isPeer, Bool.toNat_true]
          omega
      · have hconnect : connectTo t resolves reaches s.table = (none, s.table.set fd (some .abandoned)) := by
          rw [connectTo, if_neg hreached, hopened]
        refine ⟨{ s with
            table := s.table.set fd (some .abandoned)
            lost := s.lost + (s.table.free.card - (s.table.set fd (some .abandoned)).free.card) },
          by simp only [State.step, hstage, hconnect], hi.queue, hi.apart, hpeers hfd, ?_⟩
        refine hi.accounts.set_other (Descriptors.mem_free.mp hfd).1 (hnotClient hfd) rfl ?_
        have hfree := hcard .abandoned hfd
        rw [hpeer .abandoned hfd]
        simp only [isPeer, Bool.toNat_false]
        omega
  | hangUp t =>
    obtain ⟨sockfd, socketid, hstage⟩ := ha
    obtain ⟨hthread, hjob⟩ := hi.outside (t := t) (by rw [hstage]; rintro ⟨⟩)
    rw [hstage] at hjob
    have hfile := hi.peers t sockfd socketid hstage
    have hlt : socketid < s.table.limit := hi.accounts.bounded socketid (by rw [hfile]; exact Option.some_ne_none _)
    refine ⟨{ s with
        table := s.table.set socketid none
        stages := Function.update s.stages t (.handling sockfd) },
      by simp only [State.step, hstage, Descriptors.close], hi.queue, hi.apart_update hthread fun _ _ => rfl,
      hi.peers_update (fun _ _ h => by cases h) fun t' socketid' hne hfile' => ?_, ?_⟩
    · rw [Descriptors.set_file_of_ne, hfile']
      rintro rfl
      rw [hfile] at hfile'
      cases hfile'
      exact hne rfl
    · rw [State.job_stage hthread, show jobOf .outside (.handling sockfd) = s.job t from hjob.symm, Function.update_eq_self]
      have hfree := Descriptors.count_set hlt none Option.isNone
      have hcount := Descriptors.count_set hlt none isPeer
      rw [hfile] at hfree hcount
      simp only [Descriptors.count_isNone, isPeer, Option.isNone_none, Option.isNone_some, Bool.toNat_true,
        Bool.toNat_false] at hfree hcount
      have hcapacity : (s.table.set socketid none).free.card + s.lost + (s.table.set socketid none).count isPeer =
          s.table.free.card + s.lost + s.table.count isPeer := by omega
      exact hi.accounts.set_other hlt (by rw [hfile]; rfl) rfl hcapacity
  | done t =>
    obtain ⟨sockfd, hstage⟩ := ha
    obtain ⟨hthread, hjob⟩ := hi.outside (t := t) (by rw [hstage]; rintro ⟨⟩)
    rw [hstage] at hjob
    obtain ⟨k, -, hfile⟩ := hi.accounts.held t sockfd hjob
    refine ⟨{ s with
        table := s.table.set sockfd none
        stages := Function.update s.stages t .loop
        closed := s.closed ++ [s.table.file sockfd] },
      by simp only [State.step, hstage, Descriptors.close], hi.queue, hi.apart_update hthread fun _ _ => rfl,
      hi.peers_update (fun _ _ h => by cases h) fun t' socketid _ hfile' => ?_, ?_⟩
    · rw [Descriptors.set_file_of_ne, hfile']
      rintro rfl
      rw [hfile] at hfile'
      cases hfile'
    · rw [State.job_stage hthread]
      exact hi.accounts.close hjob

/-- The thread has the connection `k`, which is open under the descriptor it has. -/
def State.Has (s : State) (t k : ℕ) : Prop := ∃ fd, s.job t = some fd ∧ s.table.file fd = some (.client k)

variable {events : List Event}

/-- **Every connection is handled once.** Whatever the threads do and in which order: connections are popped in the order in
which they were accepted. What a worker has is a connection that it has popped, and the descriptor still stands for it. Each
connection that was accepted waits in the queue, or is had by one worker, or was closed, once. The descriptors that could be
given out at the start are free, or lost, or a worker's to a follower, or stand for a connection that is not closed. -/
theorem server_connections (h : Fresh t₀) (ha : Along State.step State.Allowed (.start t₀) events) :
    ∃ s, run State.step (.start t₀) events = some s ∧ s.queue.taken <+: s.queue.pushed ∧
      (∀ t fd, s.job t = some fd → ∃ k < s.queue.taken.length, s.queue.pushed[k]? = some fd ∧ s.table.file fd = some (.client k)) ∧
      (∀ k < s.queue.pushed.length,
        (s.queue.taken.length ≤ k ∧ (∀ t, ¬ s.Has t k) ∧ some (.client k) ∉ s.closed) ∨
        (k < s.queue.taken.length ∧ (∃! t, s.Has t k) ∧ some (.client k) ∉ s.closed) ∨
        (k < s.queue.taken.length ∧ (∀ t, ¬ s.Has t k) ∧ s.closed.count (some (.client k)) = 1)) ∧
      s.table.free.card + s.lost + s.table.count isPeer + (s.queue.pushed.length - s.closed.length) = t₀.free.card := by
  obtain ⟨s, hrun, hi⟩ := ha.run_total (Inv.start h) fun hi ha => hi.step ha
  obtain ⟨l, hl⟩ := hi.queue
  have hacc := hi.accounts
  have hcapacity := hacc.capacity
  have htotal := hacc.total
  refine ⟨s, hrun, ⟨l.map Prod.snd, hl.fifo⟩, fun t fd hjob => ?_, fun k hk => ?_, by omega⟩
  · obtain ⟨k, hk, hfile⟩ := hacc.held t fd hjob
    exact ⟨k, hk, hacc.named fd k hfile, hfile⟩
  · by_cases hwaits : s.queue.taken.length ≤ k
    · refine Or.inl ⟨hwaits, ?_, fun hmem => ?_⟩
      · rintro t ⟨fd, hjob, hfile⟩
        obtain ⟨k', hk', hfile'⟩ := hacc.held t fd hjob
        rw [hfile] at hfile'
        cases hfile'
        omega
      · obtain ⟨k', hk', heq⟩ := hacc.closed_mem _ hmem
        cases heq
        omega
    · have hlt : k < s.queue.taken.length := Nat.lt_of_not_le hwaits
      by_cases hopen : ∃ fd, s.table.file fd = some (.client k)
      · obtain ⟨fd, hfile⟩ := hopen
        obtain ⟨t, hjob⟩ := hacc.owner fd k hfile hlt
        refine Or.inr (Or.inl ⟨hlt, ⟨t, ⟨fd, hjob, hfile⟩, ?_⟩, fun hmem => (hacc.closed_iff k hlt).mp hmem fd hfile⟩)
        rintro t' ⟨fd', hjob', hfile'⟩
        obtain rfl : fd' = fd := Option.some.inj ((hacc.named fd' k hfile').symm.trans (hacc.named fd k hfile))
        exact hacc.once t' t fd' hjob' hjob
      · have hnone : ∀ fd, s.table.file fd ≠ some (.client k) := fun fd hfile => hopen ⟨fd, hfile⟩
        refine Or.inr (Or.inr ⟨hlt, fun t ⟨fd, _, hfile⟩ => hnone fd hfile, ?_⟩)
        exact List.count_eq_one_of_mem hacc.closed_nodup ((hacc.closed_iff k hlt).mpr hnone)

/-! ## Followers that cannot be reached -/

/-- What a step does to the threads, and to what is lost: only a thread that closes its connection is back in its loop. -/
theorem step_cases {s s' : State} {e : Event} (hstep : s.step e = some s') : s.lost ≤ s'.lost ∧
    (s'.stages = s.stages ∨
      ∃ t stage, s'.stages = Function.update s.stages t stage ∧ (stage = .loop → e = .done t)) := by
  cases e with
  | accept node =>
    simp only [State.step] at hstep
    split at hstep
    · obtain rfl := Option.some.inj hstep
      exact ⟨le_rfl, Or.inl rfl⟩
    · obtain rfl := Option.some.inj hstep
      exact ⟨Nat.le_succ _, Or.inl rfl⟩
    · obtain ⟨queue, -, hstep⟩ := Option.bind_eq_some_iff.mp hstep
      obtain rfl := Option.some.inj hstep
      exact ⟨le_rfl, Or.inl rfl⟩
  | pop t =>
    obtain ⟨queue, -, hstep⟩ := Option.bind_eq_some_iff.mp hstep
    obtain rfl := Option.some.inj hstep
    exact ⟨le_rfl, Or.inl rfl⟩
  | wake t =>
    obtain ⟨queue, -, hstep⟩ := Option.bind_eq_some_iff.mp hstep
    obtain rfl := Option.some.inj hstep
    exact ⟨le_rfl, Or.inl rfl⟩
  | begin t =>
    simp only [State.step] at hstep
    split at hstep
    · obtain ⟨queue, -, hstep⟩ := Option.bind_eq_some_iff.mp hstep
      obtain rfl := Option.some.inj hstep
      exact ⟨le_rfl, Or.inr ⟨t, _, rfl, by rintro ⟨⟩⟩⟩
    · cases hstep
  | connectTo t resolves reaches =>
    simp only [State.step] at hstep
    split at hstep
    · split at hstep
      · obtain rfl := Option.some.inj hstep
        exact ⟨le_rfl, Or.inr ⟨t, _, rfl, by rintro ⟨⟩⟩⟩
      · obtain rfl := Option.some.inj hstep
        exact ⟨Nat.le_add_right .., Or.inl rfl⟩
    · cases hstep
  | hangUp t =>
    simp only [State.step] at hstep
    split at hstep
    · obtain rfl := Option.some.inj hstep
      exact ⟨le_rfl, Or.inr ⟨t, _, rfl, by rintro ⟨⟩⟩⟩
    · cases hstep
  | done t =>
    simp only [State.step] at hstep
    split at hstep
    · obtain rfl := Option.some.inj hstep
      exact ⟨le_rfl, Or.inr ⟨t, _, rfl, fun _ => rfl⟩⟩
    · cases hstep

/-- A thread in the handler stays there until it has closed its connection. -/
theorem stages_step {s s' : State} {e : Event} {t : ℕ} (h : s.stages t ≠ .loop) (hstep : s.step e = some s') (he : e ≠ .done t) :
    s'.stages t ≠ .loop := by
  rcases (step_cases hstep).2 with hstages | ⟨t', stage, hstages, hloop⟩
  · rwa [hstages]
  · rw [hstages]
    by_cases heq : t = t'
    · subst heq
      rw [Function.update_self]
      exact fun hstage => he (hloop hstage)
    · rwa [Function.update_of_ne heq]

/-- As many connections are open as threads are in the handler, at least. -/
theorem Inv.card_le (hi : Inv t₀ s) {waiting : Finset ℕ} (hw : ∀ t ∈ waiting, s.stages t ≠ .loop) :
    waiting.card ≤ s.table.count isClient := by
  have hjob : ∀ t ∈ waiting, ∃ fd, s.job t = some fd := by
    intro t ht
    rw [(hi.outside (hw t ht)).2]
    have hstage := hw t ht
    cases hcase : s.stages t with
    | loop => exact absurd hcase hstage
    | handling sockfd => exact ⟨sockfd, rfl⟩
    | talking sockfd socketid => exact ⟨sockfd, rfl⟩
  have hget : ∀ t ∈ waiting, s.job t = some ((s.job t).getD 0) := by
    intro t ht
    obtain ⟨fd, hfd⟩ := hjob t ht
    rw [hfd]
    rfl
  refine Finset.card_le_card_of_injOn (fun t => (s.job t).getD 0) (fun t ht => ?_) fun t ht t' ht' heq => ?_
  · obtain ⟨k, -, hfile⟩ := hi.accounts.held t _ (hget t ht)
    simp only [Finset.coe_filter, Finset.mem_range, Set.mem_ofPred_eq]
    exact ⟨hi.accounts.bounded _ (by rw [hfile]; exact Option.some_ne_none _), by rw [hfile]; rfl⟩
  · have heq : (s.job t).getD 0 = (s.job t').getD 0 := heq
    exact hi.accounts.once t t' _ (hget t ht) (heq ▸ hget t' ht')

/-- When there is no descriptor, no connection is accepted. -/
theorem pushed_step {s s' : State} {e : Event} (hstep : s.step e = some s') (hfree : s.table.free.card = 0) :
    s'.queue.pushed = s.queue.pushed := by
  have htest : ∀ {t queue}, s.queue.test t = some queue → queue.pushed = s.queue.pushed := by
    intro t queue h
    rcases WqState.test_cases h with rfl | ⟨wqItem, job, wq, rfl⟩
    · rfl
    · rfl
  cases e with
  | accept node =>
    rcases s.table.opened_cases with ⟨-, hopened⟩ | ⟨fd, hfd, -⟩
    · simp only [State.step, hopened] at hstep
      rw [Option.some.inj hstep]
    · rw [Finset.card_eq_zero.mp hfree] at hfd
      exact absurd hfd (Finset.notMem_empty fd)
  | pop t =>
    obtain ⟨queue, hqueue, hstep⟩ := Option.bind_eq_some_iff.mp hstep
    obtain rfl := Option.some.inj hstep
    exact htest hqueue
  | wake t =>
    obtain ⟨queue, hqueue, hstep⟩ := Option.bind_eq_some_iff.mp hstep
    obtain rfl := Option.some.inj hstep
    exact htest hqueue
  | begin t =>
    simp only [State.step] at hstep
    split at hstep
    · next wqItem sockfd hthread =>
      obtain ⟨queue, hqueue, hstep⟩ := Option.bind_eq_some_iff.mp hstep
      obtain rfl := Option.some.inj hstep
      simp only [WqState.step, hthread] at hqueue
      rw [← Option.some.inj hqueue]
    · cases hstep
  | connectTo t resolves reaches =>
    simp only [State.step] at hstep
    split at hstep
    · split at hstep
      · rw [← Option.some.inj hstep]
      · rw [← Option.some.inj hstep]
    · cases hstep
  | hangUp t =>
    simp only [State.step] at hstep
    split at hstep
    · rw [← Option.some.inj hstep]
    · cases hstep
  | done t =>
    simp only [State.step] at hstep
    split at hstep
    · rw [← Option.some.inj hstep]
    · cases hstep

/-- Where a worker is connected to a follower, a descriptor stands for that. -/
theorem Inv.count_pos (hi : Inv t₀ s) {t sockfd socketid : ℕ} (ht : s.stages t = .talking sockfd socketid) :
    0 < s.table.count isPeer := by
  have hfile := hi.peers t sockfd socketid ht
  refine Finset.card_pos.mpr ⟨socketid, Finset.mem_filter.mpr ⟨Finset.mem_range.mpr ?_, by rw [hfile]; rfl⟩⟩
  exact hi.accounts.bounded _ (by rw [hfile]; exact Option.some_ne_none _)

/-- **The server dies with its descriptors.** Some workers are in the handler, and each of the descriptors that could be given
out at the start is lost, or stands for the connection of one of these. Then whatever happens, be it that the followers can be
reached again, as long as these handlers do not return no connection is accepted and no follower reached; and the handler of a
`GET` does not return as long as the follower is not reached. -/
theorem server_exhausted {more : List Event} (h : Fresh t₀) (ha : Along State.step State.Allowed (.start t₀) events)
    (hs : run State.step (.start t₀) events = some s) (waiting : Finset ℕ) (hw : ∀ t ∈ waiting, s.stages t ≠ .loop)
    (hlost : s.lost + waiting.card = t₀.free.card) (hmore : Along State.step State.Allowed s more)
    (hdone : ∀ e ∈ more, ∀ t ∈ waiting, e ≠ .done t) :
    ∃ s', run State.step s more = some s' ∧ s'.queue.pushed = s.queue.pushed ∧ s'.lost = s.lost ∧
      ∀ t sockfd socketid, s'.stages t ≠ .talking sockfd socketid := by
  have hi : Inv t₀ s := by
    obtain ⟨s₁, hrun, hi⟩ := ha.run_total (Inv.start h) fun hi ha => hi.step ha
    exact Option.some.inj (hrun.symm.trans hs) ▸ hi
  obtain ⟨s', hrun, hi', hw', hlost', hpushed⟩ := (hmore.and_forall hdone).run_total
    (I := fun s' => Inv t₀ s' ∧ (∀ t ∈ waiting, s'.stages t ≠ .loop) ∧ s'.lost = s.lost ∧ s'.queue.pushed = s.queue.pushed)
    ⟨hi, hw, rfl, rfl⟩ fun {s₁ e} ⟨hi₁, hw₁, hlost₁, hpushed₁⟩ ⟨hallowed, hdone⟩ => by
      obtain ⟨s₂, hstep, hi₂⟩ := hi₁.step hallowed
      have hw₂ : ∀ t ∈ waiting, s₂.stages t ≠ .loop := fun t ht => stages_step (hw₁ t ht) hstep (hdone t ht)
      have hcapacity₁ := hi₁.accounts.capacity
      have hcapacity₂ := hi₂.accounts.capacity
      have hcard₁ := hi₁.card_le hw₁
      have hcard₂ := hi₂.card_le hw₂
      have hle := (step_cases hstep).1
      exact ⟨s₂, hstep, hi₂, hw₂, by omega, (pushed_step hstep (by omega)).trans hpushed₁⟩
  refine ⟨s', hrun, hpushed, hlost', fun t sockfd socketid ht => ?_⟩
  have hpos := hi'.count_pos ht
  have hcapacity := hi'.accounts.capacity
  have hcard := hi'.card_le hw'
  omega

/-! ## A small server -/

/-- Six descriptors, of which the standard streams and the socket that it listens on take four. -/
def smallTable : Descriptors Socket := ⟨6, fun fd => if fd < 4 then some .own else none⟩

theorem fresh_smallTable : Fresh smallTable := by
  refine ⟨fun fd hfd => ?_, fun fd => ?_⟩
  · simp only [smallTable, ne_eq, ite_eq_right_iff, not_forall] at hfd
    obtain ⟨hlt, -⟩ := hfd
    exact Nat.lt_of_lt_of_le hlt (by decide)
  · simp only [smallTable]
    split_ifs
    · exact Or.inr rfl
    · exact Or.inl rfl

/-- A connection, a worker that handles it, and an attempt to reach a follower that cannot be reached. -/
def oneAttempt : List Event := [.accept 10, .pop 1, .begin 1, .connectTo 1 true false]

/-- `server_connections` for that. -/
theorem server_connections_oneAttempt :
    ∃ s, run State.step (.start smallTable) oneAttempt = some s ∧ s.queue.taken <+: s.queue.pushed ∧
      (∀ t fd, s.job t = some fd → ∃ k < s.queue.taken.length, s.queue.pushed[k]? = some fd ∧ s.table.file fd = some (.client k)) ∧
      (∀ k < s.queue.pushed.length,
        (s.queue.taken.length ≤ k ∧ (∀ t, ¬ s.Has t k) ∧ some (.client k) ∉ s.closed) ∨
        (k < s.queue.taken.length ∧ (∃! t, s.Has t k) ∧ some (.client k) ∉ s.closed) ∨
        (k < s.queue.taken.length ∧ (∀ t, ¬ s.Has t k) ∧ s.closed.count (some (.client k)) = 1)) ∧
      s.table.free.card + s.lost + s.table.count isPeer + (s.queue.pushed.length - s.closed.length) = smallTable.free.card :=
  server_connections fresh_smallTable (by decide)

/-- The state after it. -/
def afterAttempt : State := (run State.step (.start smallTable) oneAttempt).getD (.start smallTable)

/-- `server_exhausted`: the follower is up again, and another client comes. -/
theorem server_exhausted_oneAttempt :
    ∃ s', run State.step afterAttempt [.accept 11, .connectTo 1 true true, .pop 2, .accept 12] = some s' ∧
      s'.queue.pushed = afterAttempt.queue.pushed ∧ s'.lost = afterAttempt.lost ∧
      ∀ t sockfd socketid, s'.stages t ≠ .talking sockfd socketid :=
  server_exhausted fresh_smallTable (show Along State.step State.Allowed (.start smallTable) oneAttempt by decide) rfl {1}
    (by decide) (by decide) (by decide) (by simp)

end Cs162Hw.Kv.SocketServer
