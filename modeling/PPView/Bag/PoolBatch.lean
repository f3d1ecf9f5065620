import Mathlib.Data.Finset.Card
import PPView.Bag.MyThreadPool

/-!
# Batches of the thread pool

Seen from the caller, a batch of workers is done at once, in some order: when `wait_worker_done`
returns, each of its workers has been worked once, by one thread, and no thread works any more.
-/

namespace PPView.MyThreadPool

open Threads

variable {I P J D : Type*} [DecidableEq I] [DecidableEq P]

/-! ## The batch -/

/-- A batch, with the jobs that are still to be added and those that wait for a thread. -/
structure Batch (P J D : Type*) where
  running : Bool := false
  rest : List J := []
  pending : P → Option J := fun _ => none
  pools : List D

def batches (doWork : J → D → D) (pools : List D) : Spec (Batch P J D) (Event P J D) where
  start := { pools := pools }
  next
    | q, .begun jobs _ => { q with running := true, rest := jobs }
    | q, .added worker job =>
      { q with rest := q.rest.tail, pending := Function.update q.pending worker (some job) }
    | q, .worked threadID worker job => { q with
        pending := Function.update q.pending worker none
        pools := q.pools.modify threadID (doWork job) }
    | q, .returned _ => { q with running := false }
    | q, .changed pools => { q with pools := pools }
    | q, _ => q
  Allows
    | q, .begun _ pools => q.running = false ∧ pools = q.pools
    | q, .added worker job =>
      q.running = true ∧ q.rest.head? = some job ∧ q.pending worker = none
    | q, .worked threadID worker job =>
      q.running = true ∧ q.pending worker = some job ∧ threadID < q.pools.length
    | q, .returned pools =>
      q.running = true ∧ q.rest = [] ∧ (∀ worker, q.pending worker = none) ∧ pools = q.pools
    | q, .changed pools => q.running = false ∧ pools.length = q.pools.length
    | _, .silent => True
    | _, .fault => False

section Next

variable {doWork : J → D → D} {start : List D} (q : Batch P J D)

@[simp] theorem next_begun (jobs : List J) (pools : List D) :
    (batches doWork start).next q (.begun jobs pools) = { q with running := true, rest := jobs } :=
  rfl

@[simp] theorem next_added (worker : P) (job : J) :
    (batches doWork start).next q (.added worker job) =
      { q with rest := q.rest.tail, pending := Function.update q.pending worker (some job) } := rfl

@[simp] theorem next_worked (threadID : ℕ) (worker : P) (job : J) :
    (batches doWork start).next q (.worked threadID worker job) = { q with
      pending := Function.update q.pending worker none
      pools := q.pools.modify threadID (doWork job) } := rfl

@[simp] theorem next_returned (pools : List D) :
    (batches doWork start).next q (.returned pools) = { q with running := false } := rfl

@[simp] theorem next_changed (pools : List D) :
    (batches doWork start).next q (.changed pools) = { q with pools := pools } := rfl

@[simp] theorem next_silent : (batches doWork start).next q .silent = q := rfl

end Next

/-! ## Who has a worker -/

inductive Owner (I : Type*) where
  | taskList
  | thread (t : I) (worked : Bool)
  /-- The worker is done. -/
  | client

/-- The job of a worker that has not been worked. -/
def Owner.job (w : MyWorker J) : Owner I → Option J
  | .taskList | .thread _ false => some w.job
  | .thread _ true | .client => none

/-- The worker of a thread, and whether it has been worked. -/
def Thread.worker : Thread P → Option (P × Bool)
  | .work worker => some (worker, false)
  | .finish worker => some (worker, true)
  | .start | .top | .waiting | .ended => none

/-- Each worker that has not been deleted has one owner. The workers in the list are `nodes`. -/
structure Owned (nodes : List P) (owner : P → Option (Owner I)) (memory : P → Option (MyWorker J))
    (thread : I → Thread P) : Prop where
  memory : ∀ p, (memory p).isSome ↔ (owner p).isSome
  taskList : ∀ p, owner p = some .taskList ↔ p ∈ nodes
  thread : ∀ p t worked, owner p = some (.thread t worked) ↔ (thread t).worker = some (p, worked)

variable {nodes : List P} {owner : P → Option (Owner I)} {s : State I P J D} {q : Batch P J D}
  {p worker : P} {t : I} {doWork : J → D → D} {pools : List D}

omit [DecidableEq I] [DecidableEq P] in
theorem Owned.exists_memory {memory : P → Option (MyWorker J)} {thread : I → Thread P}
    (h : Owned nodes owner memory thread) {o : Owner I} (howner : owner p = some o) :
    ∃ w, memory p = some w := by
  rw [← Option.isSome_iff_exists, h.memory, howner]
  rfl

omit [DecidableEq I] [DecidableEq P] in
/-- A worker that is with a thread or done is not in the list. -/
theorem Owned.mem_nodes_iff {memory : P → Option (MyWorker J)} {thread : I → Thread P}
    (h : Owned nodes owner memory thread) {o : Owner I} (howner : owner worker = some o)
    (ho : o ≠ .taskList) (p : P) : p ∈ nodes ↔ p ∈ nodes ∧ p ≠ worker := by
  refine ⟨fun hp => ⟨hp, ?_⟩, And.left⟩
  rintro rfl
  rw [(h.taskList p).mpr hp] at howner
  exact ho (Option.some.inj howner).symm

/-- A worker passes through a thread. -/
theorem Owned.move {memory memory' : P → Option (MyWorker J)} {thread : I → Thread P}
    (h : Owned nodes owner memory thread) {o o' : Owner I} (howner : owner worker = some o)
    (hmemory : ∀ p, (memory' p).isSome ↔ (memory p).isSome) {nodes' : List P}
    (hnodes : ∀ p, p ∈ nodes' ↔ p ∈ nodes ∧ p ≠ worker) {next : Thread P}
    (hthread : ∀ p worked, (thread t).worker = some (p, worked) → p = worker)
    (hother : ∀ t' worked, o = .thread t' worked → t' = t)
    (hnext : ∀ p worked, next.worker = some (p, worked) ↔ p = worker ∧ o' = .thread t worked)
    (ho' : o' = .client ∨ ∃ worked, o' = .thread t worked) :
    Owned nodes' (Function.update owner worker (some o')) memory'
      (Function.update thread t next) where
  memory p := by
    rcases eq_or_ne p worker with rfl | hne
    · obtain ⟨w, hw⟩ := h.exists_memory howner
      simp [hmemory, hw]
    · rw [Function.update_of_ne hne, hmemory, h.memory]
  taskList p := by
    rw [hnodes]
    rcases eq_or_ne p worker with rfl | hne
    · rcases ho' with rfl | ⟨worked, rfl⟩ <;> simp
    · simp [hne, h.taskList]
  thread p t' worked := by
    have hp := h.thread p t' worked
    rcases eq_or_ne t' t with rfl | ht <;> rcases eq_or_ne p worker with rfl | hne
    · simp [hnext]
    · rw [Function.update_self, hnext, Function.update_of_ne hne, hp]
      exact ⟨fun hw => absurd (hthread p worked hw) hne, fun hw => absurd hw.1 hne⟩
    · rw [Function.update_self, Function.update_of_ne ht, ← hp, howner]
      refine ⟨fun heq => ?_, fun heq => absurd (hother t' worked (Option.some.inj heq)) ht⟩
      rcases ho' with rfl | ⟨worked', rfl⟩
      · simp at heq
      · simp only [Option.some.injEq, Owner.thread.injEq] at heq
        exact absurd heq.1.symm ht
    · rw [Function.update_of_ne hne, Function.update_of_ne ht, hp]

/-! ## The code is in step with the batch -/

def Client.jobs : Client P J → List P
  | .add _ jobs | .wait _ jobs | .merge jobs | .delete jobs => jobs
  | .idle | .stopped => []

def Client.rest : Client P J → List J
  | .add rest _ => rest
  | _ => []

def Client.running : Client P J → Bool
  | .add _ _ | .wait _ _ => true
  | _ => false

/-- The workers that the caller knows to be done. -/
def Client.checked : Client P J → List P
  | .add _ _ => []
  | .wait i jobs => jobs.take i
  | .merge jobs | .delete jobs => jobs
  | .idle | .stopped => []

/-- The nodes of the list are the newest first. -/
structure Implements (nodes : List P) (owner : P → Option (Owner I)) (s : State I P J D)
    (q : Batch P J D) : Prop where
  list : Threads.Implements s.taskList ⟨nodes, s.taskList.alive⟩
  nodup : nodes.Nodup
  owned : Owned nodes owner s.memory s.thread
  alive : s.taskList.alive = false → s.client = .stopped
  done : ∀ p w, s.memory p = some w → (w.done = true ↔ owner p = some .client)
  jobs : ∀ p, (s.memory p).isSome ↔ p ∈ s.client.jobs
  jobsNodup : s.client.jobs.Nodup
  checked : ∀ p ∈ s.client.checked, owner p = some .client
  pending : ∀ p, q.pending p = (s.memory p).bind fun w => (owner p).bind (Owner.job w)
  rest : q.rest = s.client.rest
  running : q.running = s.client.running
  pools : q.pools = s.m_tmPoolList

namespace Implements

omit [DecidableEq I] [DecidableEq P]

theorem pending_of_owner (h : Implements nodes owner s q) {o : Owner I} {w : MyWorker J}
    (howner : owner p = some o) (hw : s.memory p = some w) : q.pending p = o.job w := by
  rw [h.pending, hw, howner]
  rfl

/-- While a worker is not done, its batch is running. -/
theorem running_of_owner (h : Implements nodes owner s q) {o : Owner I}
    (howner : owner p = some o) (ho : o ≠ .client) : q.running = true := by
  have hjobs : p ∈ s.client.jobs := (h.jobs p).mp ((h.owned.memory p).mpr (by simp [howner]))
  have hchecked : p ∉ s.client.checked := fun hp => by
    have hclient := h.checked p hp
    rw [howner] at hclient
    exact ho (Option.some.inj hclient)
  rw [h.running]
  cases hc : s.client <;> simp_all [Client.jobs, Client.checked, Client.running]

theorem ne_of_checked (h : Implements nodes owner s q) {o : Owner I}
    (howner : owner worker = some o) (ho : o ≠ .client) (hp : p ∈ s.client.checked) :
    p ≠ worker := by
  rintro rfl
  have hclient := h.checked p hp
  rw [howner] at hclient
  exact ho (Option.some.inj hclient)

/-- Only the place of the caller in the code changes. -/
theorem client_next (h : Implements nodes owner s q) (client : Client P J)
    (halive : s.client ≠ .stopped) (hjobs : client.jobs = s.client.jobs)
    (hchecked : ∀ p ∈ client.checked, owner p = some .client)
    {rest : List J} (hrest : rest = client.rest) {running : Bool}
    (hrunning : running = client.running) :
    Implements nodes owner { s with client := client }
      { q with rest := rest, running := running } := by
  refine { h with
    alive := fun hdead => absurd (h.alive hdead) halive
    jobs := fun p => ?_
    jobsNodup := ?_
    checked := hchecked
    rest := hrest
    running := hrunning }
  · rw [hjobs]
    exact h.jobs p
  · rw [hjobs]
    exact h.jobsNodup

end Implements

/-! ## The threads -/

omit [DecidableEq P] in
/-- A thread without a worker goes on. -/
theorem Implements.thread_next (h : Implements nodes owner s q) {thread : Thread P}
    (hthread : (s.thread t).worker = none) (hthread' : thread.worker = none) :
    Implements nodes owner (s.setThread t thread) q := by
  refine { h with owned := { h.owned with thread := fun p t' worked => ?_ } }
  have hp := h.owned.thread p t' worked
  rcases eq_or_ne t' t with rfl | hne
  · simpa [State.setThread, hthread, hthread'] using hp
  · simpa [State.setThread, hne] using hp

/-- The oldest worker goes from the list to a thread. -/
theorem take_implements (h : Implements nodes owner s q) (hthread : (s.thread t).worker = none)
    {taskList : WaitList P} (halive : taskList.alive = s.taskList.alive)
    (hlist : Threads.Implements taskList ⟨nodes.erase worker, taskList.alive⟩)
    (hworker : worker ∈ nodes) :
    Implements (nodes.erase worker) (Function.update owner worker (some (.thread t false)))
      ({ s with taskList := taskList }.setThread t (.work worker)) q := by
  have howner : owner worker = some .taskList := (h.owned.taskList worker).mpr hworker
  obtain ⟨w, hw⟩ := h.owned.exists_memory howner
  refine { h with
    list := hlist
    alive := fun hdead => h.alive (halive ▸ hdead)
    nodup := h.nodup.erase worker
    owned := h.owned.move howner (fun _ => Iff.rfl) (fun p => ?_) ?_ (by simp) ?_ (.inr ⟨_, rfl⟩)
    done := fun p w' hw' => ?_
    checked := fun p hp => ?_
    pending := fun p => ?_ }
  · rw [h.nodup.mem_erase_iff, and_comm]
  · simp [hthread]
  · simp [Thread.worker, eq_comm]
  · have hdone := h.done p w' hw'
    rcases eq_or_ne p worker with rfl | hne
    · simpa [howner] using hdone
    · simpa [hne] using hdone
  · rw [Function.update_of_ne (h.ne_of_checked howner (by simp) hp)]
    exact h.checked p hp
  · have hpending := h.pending p
    rcases eq_or_ne p worker with rfl | hne
    · simpa [State.setThread, howner, hw, Owner.job] using hpending
    · simpa [State.setThread, hne] using hpending

variable (doWork pools) in
/-- A thread gets the oldest worker, or waits, or ends. -/
theorem get_implements (h : Implements nodes owner s q) (hthread : (s.thread t).worker = none) :
    (batches doWork pools).Allows q (s.get t).2 ∧ ∃ nodes owner,
      Implements nodes owner (s.get t).1 ((batches doWork pools).next q (s.get t).2) := by
  obtain ⟨hallows, hlist⟩ := Threads.tryGet_implements h.list .get
  have hevent := tryGet_event s.taskList .get
  unfold State.get
  cases hget : s.taskList.tryGet .get with
  | mk taskList event =>
    simp only [hget] at hallows hlist hevent
    have hof : ∀ {thread : Thread P}, thread.worker = none →
        Threads.Implements taskList ⟨nodes, s.taskList.alive⟩ →
        Implements nodes owner ({ s with taskList := taskList }.setThread t thread) q :=
      fun hthread' hlist => by
        have halive : taskList.alive = s.taskList.alive := hlist.alive
        have hnext := h.thread_next hthread hthread'
        exact { hnext with
          list := halive ▸ hlist
          alive := fun hdead => h.alive (halive ▸ hdead) }
    rcases hevent with rfl | ⟨ret, rfl⟩ | rfl
    · exact ⟨trivial, nodes, owner, hof rfl hlist⟩
    · cases ret with
      | none => exact ⟨trivial, nodes, owner, hof rfl hlist⟩
      | some worker =>
        have halive : taskList.alive = s.taskList.alive := hlist.alive
        refine ⟨trivial, _, _, take_implements h hthread halive (halive ▸ hlist) ?_⟩
        exact List.mem_of_getLast? hallows.2
    · exact hallows.elim

variable (doWork pools) in
/-- A thread works its worker on its own pool. -/
theorem work_implements (h : Implements nodes owner s q) (hthread : s.thread t = .work worker)
    {threadID : ℕ} (hthreadID : s.threadID t = some threadID)
    (hlt : threadID < s.m_tmPoolList.length) :
    (batches doWork pools).Allows q (s.work doWork t worker).2 ∧ ∃ owner,
      Implements nodes owner (s.work doWork t worker).1
        ((batches doWork pools).next q (s.work doWork t worker).2) := by
  have howner : owner worker = some (.thread t false) :=
    (h.owned.thread worker t false).mpr (by rw [hthread]; rfl)
  obtain ⟨w, hw⟩ := h.owned.exists_memory howner
  have hpending := h.pending_of_owner howner hw
  have hrunning := h.running_of_owner howner (by simp)
  unfold State.work
  simp only [hw, hthreadID, hlt, if_true]
  refine ⟨⟨hrunning, hpending, by rwa [h.pools]⟩,
    Function.update owner worker (some (.thread t true)), { h with
      owned := h.owned.move howner (fun _ => Iff.rfl)
        (h.owned.mem_nodes_iff howner (by simp)) ?_ (by simp) ?_ (.inr ⟨_, rfl⟩)
      done := fun p w' hw' => ?_
      checked := fun p hp => ?_
      pending := fun p => ?_
      pools := ?_ }⟩
  · simp [hthread, Thread.worker]
  · simp [Thread.worker, eq_comm]
  · have hdone := h.done p w' hw'
    rcases eq_or_ne p worker with rfl | hne
    · simpa [howner] using hdone
    · simpa [hne] using hdone
  · rw [Function.update_of_ne (h.ne_of_checked howner (by simp) hp)]
    exact h.checked p hp
  · have hpend := h.pending p
    rcases eq_or_ne p worker with rfl | hne
    · simp [State.setThread, hw, Owner.job]
    · simpa [State.setThread, hne] using hpend
  · simp [State.setThread, h.pools]

variable (doWork pools) in
/-- A thread gives a worker back to the caller. -/
theorem finish_implements (h : Implements nodes owner s q) (hthread : s.thread t = .finish worker) :
    (batches doWork pools).Allows q (s.finish t worker).2 ∧ ∃ owner,
      Implements nodes owner (s.finish t worker).1
        ((batches doWork pools).next q (s.finish t worker).2) := by
  have howner : owner worker = some (.thread t true) :=
    (h.owned.thread worker t true).mpr (by rw [hthread]; rfl)
  obtain ⟨w, hw⟩ := h.owned.exists_memory howner
  have hmemory : ∀ p, (Function.update s.memory worker (some { w with done := true }) p).isSome ↔
      (s.memory p).isSome := by
    intro p
    rcases eq_or_ne p worker with rfl | hne
    · simp [hw]
    · simp [hne]
  unfold State.finish
  simp only [hw]
  refine ⟨trivial, Function.update owner worker (some .client), { h with
    owned := h.owned.move howner hmemory
      (h.owned.mem_nodes_iff howner (by simp)) ?_ (by simp) ?_ (.inl rfl)
    done := fun p w' hw' => ?_
    jobs := fun p => (hmemory p).trans (h.jobs p)
    checked := fun p hp => ?_
    pending := fun p => ?_ }⟩
  · simp [hthread, Thread.worker]
  · simp [Thread.worker]
  · rcases eq_or_ne p worker with rfl | hne
    · simp only [State.setThread, Function.update_self, Option.some.injEq] at hw'
      simp [← hw']
    · simp only [State.setThread, Function.update_of_ne hne] at hw'
      simpa [hne] using h.done p w' hw'
  · rw [Function.update_of_ne (h.ne_of_checked howner (by simp) hp)]
    exact h.checked p hp
  · have hpend := h.pending p
    rcases eq_or_ne p worker with rfl | hne
    · simpa [State.setThread, howner, hw, Owner.job] using hpend
    · simpa [State.setThread, hne] using hpend

/-! ## The caller -/

variable (doWork pools) in
omit [DecidableEq I] in
/-- `add_worker`. -/
theorem add_implements (h : Implements nodes owner s q) {job : J} {rest : List J} {jobs : List P}
    (hclient : s.client = .add (job :: rest) jobs) {ptr : P} (hptr : s.memory ptr = none) :
    (batches doWork pools).Allows q (.added ptr job) ∧
      Implements (ptr :: nodes) (Function.update owner ptr (some .taskList))
        { s with
          memory := Function.update s.memory ptr (some { job := job })
          taskList := s.taskList.put ptr
          client := .add rest (jobs ++ [ptr]) }
        ((batches doWork pools).next q (.added ptr job)) := by
  have hfree : owner ptr = none := by
    have hmemory := h.owned.memory ptr
    simpa [hptr] using hmemory
  have hnodes : ptr ∉ nodes := fun hmem => by
    simp [(h.owned.taskList ptr).mpr hmem] at hfree
  have halive : s.taskList.alive = true := by
    by_contra hdead
    simpa [hclient] using h.alive (by simpa using hdead)
  have hput := Threads.put_implements h.list hnodes
  have hputAlive : (s.taskList.put ptr).alive = s.taskList.alive := by simp [WaitList.put, halive]
  have hjobs := h.jobs
  have hjobsNodup := h.jobsNodup
  have hrest := h.rest
  have hrunning := h.running
  simp only [hclient, Client.jobs, Client.rest, Client.running] at hjobs hjobsNodup hrest hrunning
  have hnotMem : ptr ∉ jobs := fun hmem => by simpa [hptr] using (hjobs ptr).mpr hmem
  refine ⟨⟨hrunning, by simp [hrest], by simp [h.pending, hptr]⟩, ?_,
    List.nodup_cons.mpr ⟨hnodes, h.nodup⟩, ⟨fun p => ?_, fun p => ?_, fun p t worked => ?_⟩,
    fun hdead => ?_, fun p w hw => ?_, fun p => ?_, ?_, by simp [Client.checked], fun p => ?_, ?_,
    hrunning, h.pools⟩
  · simpa [Fifo.next, halive, hputAlive] using hput
  · rcases eq_or_ne p ptr with rfl | hne
    · simp
    · simpa [hne] using h.owned.memory p
  · rcases eq_or_ne p ptr with rfl | hne
    · simp
    · simpa [hne] using h.owned.taskList p
  · have hp := h.owned.thread p t worked
    rcases eq_or_ne p ptr with rfl | hne
    · simpa [hfree] using hp
    · simpa [hne] using hp
  · rw [hputAlive, halive] at hdead
    simp at hdead
  · rcases eq_or_ne p ptr with rfl | hne
    · simp only [Function.update_self, Option.some.injEq] at hw
      simp [← hw]
    · simp only [Function.update_of_ne hne] at hw
      simpa [hne] using h.done p w hw
  · rcases eq_or_ne p ptr with rfl | hne
    · simp [Client.jobs]
    · simpa [Client.jobs, hne] using hjobs p
  · simpa [Client.jobs, List.nodup_append, hjobsNodup] using fun p hp (heq : p = ptr) =>
      hnotMem (heq ▸ hp)
  · have hpending := h.pending p
    rcases eq_or_ne p ptr with rfl | hne
    · simp [Owner.job]
    · simpa [hne] using hpending
  · simp [hrest, Client.rest]

omit [DecidableEq I] in
/-- The caller deletes a worker. -/
theorem delete_implements (h : Implements nodes owner s q) {rest : List P}
    (hclient : s.client = .delete (worker :: rest)) :
    Implements nodes (Function.update owner worker none)
      { s with memory := Function.update s.memory worker none, client := .delete rest } q := by
  have howner : owner worker = some .client :=
    h.checked worker (by simp [hclient, Client.checked])
  have hnodes := h.owned.mem_nodes_iff howner (by simp)
  have hjobs := h.jobs
  have hjobsNodup := h.jobsNodup
  have hchecked := h.checked
  have hrest := h.rest
  have hrunning := h.running
  have halive := h.alive
  simp only [hclient, Client.jobs, Client.rest, Client.running, Client.checked, List.mem_cons,
    List.nodup_cons] at hjobs hjobsNodup hrest hrunning hchecked halive
  obtain ⟨w, hw⟩ := h.owned.exists_memory howner
  refine ⟨h.list, h.nodup, ⟨fun p => ?_, fun p => ?_, fun p t worked => ?_⟩,
    fun hdead => by simpa using halive hdead, fun p w' hw' => ?_, fun p => ?_, hjobsNodup.2,
    fun p hp => ?_, fun p => ?_, hrest, hrunning, h.pools⟩
  · rcases eq_or_ne p worker with rfl | hne
    · simp
    · simpa [hne] using h.owned.memory p
  · rcases eq_or_ne p worker with rfl | hne
    · simpa using hnodes p
    · simpa [hne] using h.owned.taskList p
  · have hp := h.owned.thread p t worked
    rcases eq_or_ne p worker with rfl | hne
    · simpa [howner] using hp
    · simpa [hne] using hp
  · rcases eq_or_ne p worker with rfl | hne
    · simp at hw'
    · simp only [Function.update_of_ne hne] at hw'
      simpa [hne] using h.done p w' hw'
  · rcases eq_or_ne p worker with rfl | hne
    · simpa [Client.jobs] using hjobsNodup.1
    · simpa [Client.jobs, hne] using hjobs p
  · have hne : p ≠ worker := by
      rintro rfl
      exact hjobsNodup.1 hp
    simpa [hne] using hchecked p (.inr hp)
  · have hpending := h.pending p
    rcases eq_or_ne p worker with rfl | hne
    · simpa [howner, hw, Owner.job] using hpending
    · simpa [hne] using hpending

omit [DecidableEq I] [DecidableEq P] in
/-- When all workers of the batch are done, no worker is left to be worked. -/
theorem Implements.pending_eq_none (h : Implements nodes owner s q)
    (hall : ∀ p ∈ s.client.jobs, p ∈ s.client.checked) (p : P) : q.pending p = none := by
  rw [h.pending]
  cases hmemory : s.memory p with
  | none => rfl
  | some w =>
    have hchecked := h.checked p (hall p ((h.jobs p).mp (by simp [hmemory])))
    simp [hchecked, Owner.job]

omit [DecidableEq I] in
theorem clientStep_implements (h : Implements nodes owner s q) {ptr : P} {s' : State I P J D}
    {e : Event P J D} (hstep : s.clientStep ptr = some (s', e)) :
    (batches doWork pools).Allows q e ∧ ∃ nodes owner,
      Implements nodes owner s' ((batches doWork pools).next q e) := by
  have hjobs := h.jobs
  have hchecked := h.checked
  have hrest := h.rest
  have hrunning := h.running
  unfold State.clientStep at hstep
  split at hstep
  · rename_i job rest jobs hclient
    simp only [Option.isNone_iff_eq_none, Option.ite_none_right_eq_some, Option.some.injEq,
      Prod.mk.injEq] at hstep
    obtain ⟨hptr, rfl, rfl⟩ := hstep
    obtain ⟨hallows, hnext⟩ := add_implements doWork pools h hclient hptr
    exact ⟨hallows, _, _, hnext⟩
  · rename_i jobs hclient
    obtain ⟨rfl, rfl⟩ := Prod.mk.inj (Option.some.inj hstep)
    rw [hclient] at hrest hrunning
    exact ⟨trivial, nodes, owner, h.client_next (.wait 0 jobs) (by simp [hclient])
      (by rw [hclient]; rfl) (by simp [Client.checked]) hrest hrunning⟩
  · rename_i i jobs hclient
    rw [hclient] at hjobs hchecked hrest hrunning
    split at hstep
    · rename_i worker hworker
      obtain ⟨w, hw⟩ := Option.isSome_iff_exists.mp
        ((hjobs worker).mpr (List.mem_of_getElem? hworker))
      simp only [hw, Option.some.injEq, Prod.mk.injEq] at hstep
      obtain ⟨rfl, rfl⟩ := hstep
      refine ⟨trivial, nodes, owner, h.client_next
        (.wait (if w.done = true then i + 1 else i) jobs) (by simp [hclient]) (by rw [hclient]; rfl)
        (fun p hp => ?_) hrest hrunning⟩
      split_ifs at hp with hdone
      · simp only [Client.checked, List.take_add_one, hworker, Option.toList_some,
          List.mem_append, List.mem_singleton] at hp
        rcases hp with hp | rfl
        · exact hchecked p hp
        · exact (h.done p w hw).mp hdone
      · exact hchecked p hp
    · rename_i hlength
      obtain ⟨rfl, rfl⟩ := Prod.mk.inj (Option.some.inj hstep)
      have htake : jobs.take i = jobs :=
        List.take_of_length_le (List.getElem?_eq_none_iff.mp hlength)
      have hall : ∀ p ∈ s.client.jobs, p ∈ s.client.checked := fun p hp => by
        rw [hclient] at hp ⊢
        simpa [Client.checked, htake, Client.jobs] using hp
      refine ⟨⟨hrunning, hrest, h.pending_eq_none hall, h.pools.symm⟩, nodes, owner,
        h.client_next (.merge jobs) (by simp [hclient]) (by rw [hclient]; rfl) (fun p hp => ?_)
          hrest rfl⟩
      exact hchecked p (by simpa [Client.checked, htake] using hp)
  · rename_i jobs hclient
    obtain ⟨rfl, rfl⟩ := Prod.mk.inj (Option.some.inj hstep)
    rw [hclient] at hchecked hrest hrunning
    exact ⟨trivial, nodes, owner, h.client_next (.delete jobs) (by simp [hclient])
      (by rw [hclient]; rfl) hchecked hrest hrunning⟩
  · rename_i worker rest hclient
    have hmem : worker ∈ s.client.jobs := by simp [hclient, Client.jobs]
    obtain ⟨w, hw⟩ := Option.isSome_iff_exists.mp ((hjobs worker).mpr hmem)
    simp only [hw, Option.some.injEq, Prod.mk.injEq] at hstep
    obtain ⟨rfl, rfl⟩ := hstep
    exact ⟨trivial, nodes, _, delete_implements h hclient⟩
  · rename_i hclient
    obtain ⟨rfl, rfl⟩ := Prod.mk.inj (Option.some.inj hstep)
    rw [hclient] at hrest hrunning
    exact ⟨trivial, nodes, owner, h.client_next .idle (by simp [hclient]) (by rw [hclient]; rfl)
      (by simp [Client.checked]) hrest hrunning⟩
  · simp at hstep
  · simp at hstep

omit [DecidableEq I] in
theorem change_implements (h : Implements nodes owner s q) {pools' : List D}
    {s' : State I P J D} {e : Event P J D} (hstep : s.change pools' = some (s', e)) :
    (batches doWork pools).Allows q e ∧
      Implements nodes owner s' ((batches doWork pools).next q e) := by
  have hrunning := h.running
  have hof : ∀ {s' e}, (if pools'.length = s.m_tmPoolList.length then
      some ({ s with m_tmPoolList := pools' }, Event.changed pools') else none) = some (s', e) →
      s.client.running = false → (batches doWork pools).Allows q e ∧
        Implements nodes owner s' ((batches doWork pools).next q e) := by
    intro s' e heq hclient
    simp only [Option.ite_none_right_eq_some, Option.some.injEq, Prod.mk.injEq] at heq
    obtain ⟨hlength, rfl, rfl⟩ := heq
    exact ⟨⟨hrunning.trans hclient, hlength.trans (congrArg List.length h.pools.symm)⟩,
      { h with pools := rfl }⟩
  unfold State.change at hstep
  split at hstep
  · rename_i hclient
    exact hof hstep (by rw [hclient]; rfl)
  · rename_i hclient
    exact hof hstep (by rw [hclient]; rfl)
  · simp at hstep

end PPView.MyThreadPool
