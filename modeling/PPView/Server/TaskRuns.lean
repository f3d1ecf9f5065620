import PPView.Server.TaskQueue

/-!
# Runs of the task queue

Seen from outside, the server is a queue of requests: each is received once, taken once and in
order, and answered at most once, by the thread that has taken it.
-/

namespace PPView.Server

open Threads MQQueryProcessor

variable {I P : Type*} [DecidableEq I]

/-! ## The queue of requests -/

/-- Requests that have not been answered, the oldest first. -/
structure Jobs (I : Type*) where
  /-- Received but not in the list yet. -/
  held : Option Str := none
  queue : List Str := []
  inWork : I → Option Str := fun _ => none
  alive : Bool := true

/-- The queue, with room for `limit` requests before the last one. -/
def jobs (I : Type*) [DecidableEq I] (limit : ℕ) : Spec (Jobs I) (Event I) where
  start := {}
  next
    | q, .received uri => { q with held := some uri }
    | q, .queued => { q with held := none, queue := q.queue ++ q.held.toList }
    | q, .taken thread uri =>
      { q with queue := q.queue.tail, inWork := Function.update q.inWork thread (some uri) }
    | q, .answered thread _ => { q with inWork := Function.update q.inWork thread none }
    | q, .flushed => { q with alive := false }
    | q, _ => q
  Allows
    | q, .received _ => q.alive ∧ q.held = none ∧ q.queue.length ≤ limit
    | q, .queued => q.held ≠ none ∧ q.queue.length ≤ limit
    | q, .taken thread uri => q.alive ∧ q.inWork thread = none ∧ q.queue.head? = some uri
    | q, .answered thread uri =>
      q.inWork thread = some uri ∧ ∃ fuel, (ParseUri fuel uri).isSome
    | q, .flushed => q.alive ∧ q.held = none
    | _, .silent => True
    | _, .fault => False

/-! ## Who has a worker -/

inductive Owner (I : Type*) where
  | taskList
  | consumer
  | processor (thread : I)

def Consumer.worker : Consumer P → Option P
  | .put worker => some worker
  | _ => none

def Processor.worker : Processor P → Option P
  | .work worker | .delete worker => some worker
  | _ => none

/-- The code is in step with the queue. The workers in the list are `nodes`, the newest first, and
each worker that has not been deleted has one owner. -/
structure Implements (limit : ℕ) (nodes : List P) (owner : P → Option (Owner I)) (s : State I P)
    (q : Jobs I) : Prop where
  list : Threads.Implements s.taskList ⟨nodes, q.alive⟩
  nodup : nodes.Nodup
  queue : nodes.reverse.map s.memory = q.queue.map some
  memory : ∀ p, (s.memory p).isSome ↔ (owner p).isSome
  ownTaskList : ∀ p, owner p = some .taskList ↔ p ∈ nodes
  ownConsumer : ∀ p, owner p = some .consumer ↔ s.consumer.worker = some p
  ownProcessor : ∀ p thread,
    owner p = some (.processor thread) ↔ (s.processor thread).worker = some p
  held : q.held = match s.consumer with
    | .submit uri => some uri
    | .put worker => s.memory worker
    | _ => none
  inWork : ∀ thread, q.inWork thread = match s.processor thread with
    | .work worker => s.memory worker
    | _ => none
  length : q.queue.length ≤ limit + 1
  room : s.consumer ≠ .top → s.consumer ≠ .check → s.consumer ≠ .ended → q.queue.length ≤ limit
  alive : q.alive = false → s.consumer = .ended
  flushed : q.alive = false → s.main = .flushed

variable {limit : ℕ} {nodes : List P} {owner : P → Option (Owner I)} {s : State I P} {q : Jobs I}
  {p : P} {thread : I} {uri : Str}

namespace Implements

omit [DecidableEq I]

theorem length_eq (h : Implements limit nodes owner s q) : nodes.length = q.queue.length := by
  simpa using congrArg List.length h.queue

theorem alive_of_ne (h : Implements limit nodes owner s q) (hconsumer : s.consumer ≠ .ended) :
    q.alive = true := by
  by_contra halive
  exact hconsumer (h.alive (by simpa using halive))

/-- The consumer goes on, without a request. -/
theorem consumer_next (h : Implements limit nodes owner s q) {consumer : Consumer P}
    (hne : s.consumer ≠ .ended) (hworker : s.consumer.worker = none)
    (hworker' : consumer.worker = none) (hheld : q.held = none)
    (hheld' : ∀ uri, consumer ≠ .submit uri)
    (hroom : consumer = .consume → q.queue.length ≤ limit) :
    Implements limit nodes owner { s with consumer := consumer } q := by
  refine { h with ownConsumer := ?_, held := ?_, room := ?_, alive := fun halive => ?_ }
  · simpa [hworker, hworker'] using h.ownConsumer
  · cases consumer <;> simp_all [Consumer.worker]
  · cases consumer <;> simp_all [Consumer.worker]
  · exact absurd (h.alive halive) hne

theorem of_list (h : Implements limit nodes owner s q) {taskList : WaitList P}
    (hlist : Threads.Implements taskList ⟨nodes, q.alive⟩) :
    Implements limit nodes owner { s with taskList := taskList } q :=
  { h with list := hlist }

theorem memory_of_owner (h : Implements limit nodes owner s q) {o : Owner I}
    (howner : owner p = some o) : ∃ uri, s.memory p = some uri := by
  rw [← Option.isSome_iff_exists, h.memory, howner]
  rfl

end Implements

/-! ## The consumer -/

theorem consume_implements (h : Implements limit nodes owner s q)
    (hconsumer : s.consumer = .consume) (uri : Str) :
    (jobs I limit).Allows q (.received uri) ∧
      Implements limit nodes owner { s with consumer := .submit uri }
        ((jobs I limit).next q (.received uri)) := by
  have hheld := h.held
  have hroom := h.room (by simp [hconsumer]) (by simp [hconsumer]) (by simp [hconsumer])
  rw [hconsumer] at hheld
  have halive := h.alive_of_ne (by simp [hconsumer])
  refine ⟨⟨halive, hheld, hroom⟩, ?_⟩
  refine { h with
    ownConsumer := by simpa [hconsumer, Consumer.worker] using h.ownConsumer
    held := rfl
    room := fun _ _ _ => hroom
    alive := fun hdead => by simp [jobs, halive] at hdead
    flushed := fun hdead => by simp [jobs, halive] at hdead }

variable [DecidableEq P]

omit [DecidableEq I] in
/-- `SubmitTask` makes a worker. -/
theorem new_implements (h : Implements limit nodes owner s q) (hconsumer : s.consumer = .submit uri)
    {ptr : P} (hptr : s.memory ptr = none) :
    Implements limit nodes (Function.update owner ptr (some .consumer))
      { s with memory := Function.update s.memory ptr (some uri), consumer := .put ptr } q := by
  have hroom := h.room (by simp [hconsumer]) (by simp [hconsumer]) (by simp [hconsumer])
  have hfree : owner ptr = none := by
    have hmemory := h.memory ptr
    simpa [hptr] using hmemory
  have hnodes : ptr ∉ nodes := fun hmem => by simp [(h.ownTaskList ptr).mpr hmem] at hfree
  refine ⟨h.list, h.nodup, ?_, fun p => ?_, fun p => ?_, fun p => ?_, fun p thread => ?_, ?_, ?_,
    h.length, fun _ _ _ => hroom, fun halive => ?_, h.flushed⟩
  · rw [← h.queue]
    refine List.map_congr_left fun p hp => Function.update_of_ne ?_ _ _
    rintro rfl
    exact hnodes (List.mem_reverse.mp hp)
  · rcases eq_or_ne p ptr with rfl | hne
    · simp
    · simp [hne, h.memory]
  · rcases eq_or_ne p ptr with rfl | hne
    · simp [hnodes]
    · simp [hne, h.ownTaskList]
  · rcases eq_or_ne p ptr with rfl | hne
    · simp [Consumer.worker]
    · have := h.ownConsumer p
      simpa [hconsumer, Consumer.worker, hne, hne.symm] using this
  · have hthread := h.ownProcessor p thread
    rcases eq_or_ne p ptr with rfl | hne
    · simpa [hfree] using hthread
    · simpa [hne] using hthread
  · simpa [hconsumer] using h.held
  · intro thread
    have hwork := h.inWork thread
    have hthread := h.ownProcessor ptr thread
    cases hproc : s.processor thread with
    | work worker =>
      have hne : worker ≠ ptr := by
        rintro rfl
        simp [hproc, Processor.worker, hfree] at hthread
      simpa [hproc, hne] using hwork
    | _ => simpa [hproc] using hwork
  · simpa [hconsumer] using h.alive halive

/-- `SubmitTask` puts the worker into the list. -/
theorem put_implements (h : Implements limit nodes owner s q) {worker : P}
    (hconsumer : s.consumer = .put worker) :
    (jobs I limit).Allows q .queued ∧
      Implements limit (worker :: nodes) (Function.update owner worker (some .taskList))
        { s with taskList := s.taskList.put worker, consumer := .top }
        ((jobs I limit).next q .queued) := by
  have hroom := h.room (by simp [hconsumer]) (by simp [hconsumer]) (by simp [hconsumer])
  have halive := h.alive_of_ne (by simp [hconsumer])
  have howner : owner worker = some .consumer := (h.ownConsumer worker).mpr (by simp [hconsumer,
    Consumer.worker])
  have hnodes : worker ∉ nodes := fun hmem => by
    simp [(h.ownTaskList worker).mpr hmem] at howner
  obtain ⟨uri, huri⟩ := h.memory_of_owner howner
  have hheld : q.held = some uri := by simpa [hconsumer, huri] using h.held
  have hput := Threads.put_implements h.list hnodes
  refine ⟨⟨by simp [hheld], hroom⟩, ?_, List.nodup_cons.mpr ⟨hnodes, h.nodup⟩, ?_, fun p => ?_,
    fun p => ?_, fun p => ?_, fun p thread => ?_, rfl, h.inWork, ?_, by simp, fun hdead => ?_,
    fun hdead => ?_⟩
  · simpa [Fifo.next, halive, jobs] using hput
  · simp [jobs, hheld, huri, ← h.queue]
  · rcases eq_or_ne p worker with rfl | hne
    · simp [huri]
    · simp [hne, h.memory]
  · rcases eq_or_ne p worker with rfl | hne
    · simp
    · simp [hne, h.ownTaskList]
  · rcases eq_or_ne p worker with rfl | hne
    · simp [Consumer.worker]
    · have := h.ownConsumer p
      simpa [hconsumer, Consumer.worker, hne, hne.symm] using this
  · have hthread := h.ownProcessor p thread
    rcases eq_or_ne p worker with rfl | hne
    · simpa [howner] using hthread
    · simpa [hne] using hthread
  · simpa [jobs, hheld] using hroom
  · simp [jobs, halive] at hdead
  · simp [jobs, halive] at hdead

/-! ## The processors -/

omit [DecidableEq P] in
/-- A processor without a worker goes on. -/
theorem Implements.processor_next (h : Implements limit nodes owner s q) {processor : Processor P}
    (hworker : (s.processor thread).worker = none) (hworker' : processor.worker = none) :
    Implements limit nodes owner (s.setProcessor thread processor) q := by
  refine { h with ownProcessor := fun p t => ?_, inWork := fun t => ?_ }
  · rcases eq_or_ne t thread with rfl | hne
    · simpa [State.setProcessor, hworker, hworker'] using h.ownProcessor p t
    · simpa [State.setProcessor, hne] using h.ownProcessor p t
  · have hwork := h.inWork t
    rcases eq_or_ne t thread with rfl | hne
    · cases hp : s.processor t <;> cases processor <;>
        simp_all [State.setProcessor, Processor.worker]
    · simpa [State.setProcessor, hne] using hwork

/-- The oldest worker goes from the list to a processor. -/
theorem take_implements (h : Implements limit nodes owner s q)
    (hprocessor : (s.processor thread).worker = none) {worker : P} {taskList : WaitList P}
    (hlist : Threads.Implements taskList ⟨nodes.erase worker, q.alive⟩)
    (hlast : nodes.getLast? = some worker) :
    ∃ uri, s.memory worker = some uri ∧ q.inWork thread = none ∧ q.queue.head? = some uri ∧
      Implements limit (nodes.erase worker)
        (Function.update owner worker (some (.processor thread)))
        ({ s with taskList := taskList }.setProcessor thread (.work worker))
        ((jobs I limit).next q (.taken thread uri)) := by
  obtain ⟨front, rfl⟩ := List.getLast?_eq_some_iff.mp hlast
  have hworker : worker ∉ front := by
    have hnodup := h.nodup
    simp only [List.nodup_append, List.mem_singleton] at hnodup
    exact fun hmem => hnodup.2.2 worker hmem worker rfl rfl
  have herase : (front ++ [worker]).erase worker = front := by
    simp [List.erase_append_right _ hworker]
  have howner : owner worker = some .taskList := (h.ownTaskList worker).mpr (by simp)
  obtain ⟨uri, huri⟩ := h.memory_of_owner howner
  have hqueue := h.queue
  rw [List.reverse_append, List.reverse_singleton, List.singleton_append, List.map_cons, huri]
    at hqueue
  obtain ⟨first, rest, hq, hfirst, hrest⟩ := List.map_eq_cons_iff.mp hqueue.symm
  obtain rfl := Option.some.inj hfirst
  have hinWork : q.inWork thread = none := by
    have hwork := h.inWork thread
    cases hp : s.processor thread <;> simp_all [Processor.worker]
  rw [herase] at hlist ⊢
  refine ⟨first, huri, hinWork, by simp [hq], hlist, (List.nodup_append.mp h.nodup).1, ?_,
    fun p => ?_, fun p => ?_, fun p => ?_, fun p t => ?_, ?_, fun t => ?_, ?_, ?_, h.alive,
    h.flushed⟩
  · simp [jobs, hq, hrest, State.setProcessor]
  · rcases eq_or_ne p worker with rfl | hne
    · simp [huri, State.setProcessor]
    · simp [hne, h.memory, State.setProcessor]
  · rcases eq_or_ne p worker with rfl | hne
    · simp [hworker]
    · simp [hne, h.ownTaskList]
  · rcases eq_or_ne p worker with rfl | hne
    · have := h.ownConsumer p
      simpa [howner, State.setProcessor] using this
    · simp [hne, h.ownConsumer, State.setProcessor]
  · have hthread := h.ownProcessor p t
    rcases eq_or_ne p worker with rfl | hp <;> rcases eq_or_ne t thread with rfl | ht
    · simp [State.setProcessor, Processor.worker]
    · simpa [State.setProcessor, ht, ht.symm, howner] using hthread
    · rw [hprocessor] at hthread
      simpa [State.setProcessor, hp, hp.symm, Processor.worker] using hthread
    · simpa [State.setProcessor, hp, ht] using hthread
  · simpa [State.setProcessor, jobs] using h.held
  · have hwork := h.inWork t
    rcases eq_or_ne t thread with rfl | ht
    · simp [jobs, State.setProcessor, huri]
    · simpa [jobs, State.setProcessor, ht] using hwork
  · have := h.length
    simp [jobs]
    omega
  · intro htop hcheck hended
    have := h.room htop hcheck hended
    simp [jobs]
    omega

/-- A processor gets the oldest worker, or waits, or ends. -/
theorem get_implements (h : Implements limit nodes owner s q)
    (hprocessor : (s.processor thread).worker = none) :
    (jobs I limit).Allows q (s.get thread).2 ∧ ∃ nodes owner,
      Implements limit nodes owner (s.get thread).1 ((jobs I limit).next q (s.get thread).2) := by
  obtain ⟨hallows, hlist⟩ := Threads.tryGet_implements h.list .get
  have hevent := tryGet_event s.taskList .get
  unfold State.get
  cases hget : s.taskList.tryGet .get with
  | mk taskList event =>
    simp only [hget] at hallows hlist hevent
    rcases hevent with rfl | ⟨ret, rfl⟩ | rfl
    · exact ⟨trivial, nodes, owner, (h.of_list hlist).processor_next hprocessor (by rfl)⟩
    · cases ret with
      | none =>
        exact ⟨trivial, nodes, owner, (h.of_list hlist).processor_next hprocessor (by rfl)⟩
      | some worker =>
        obtain ⟨uri, huri, hinWork, hhead, hnext⟩ := take_implements h hprocessor hlist hallows.2
        simp only [huri]
        exact ⟨⟨hallows.1, hinWork, hhead⟩, _, _, hnext⟩
    · exact hallows.elim

omit [DecidableEq P] in
theorem answer_implements (h : Implements limit nodes owner s q) {worker : P}
    (hprocessor : s.processor thread = .work worker) {fuel : ℕ} {s' : State I P} {e : Event I}
    (hstep : s.answer thread fuel worker = some (s', e)) :
    (jobs I limit).Allows q e ∧ Implements limit nodes owner s' ((jobs I limit).next q e) := by
  have howner := (h.ownProcessor worker thread).mpr (by rw [hprocessor]; rfl)
  obtain ⟨uri, huri⟩ := h.memory_of_owner howner
  have hwork : q.inWork thread = some uri := by simpa [hprocessor, huri] using h.inWork thread
  unfold State.answer at hstep
  simp only [huri, Option.ite_none_right_eq_some, Option.some.injEq, Prod.mk.injEq] at hstep
  obtain ⟨hparse, rfl, rfl⟩ := hstep
  refine ⟨⟨hwork, fuel, hparse⟩, { h with ownProcessor := fun p t => ?_, inWork := fun t => ?_ }⟩
  · rcases eq_or_ne t thread with rfl | hne
    · simpa [State.setProcessor, hprocessor, Processor.worker] using h.ownProcessor p t
    · simpa [State.setProcessor, hne] using h.ownProcessor p t
  · rcases eq_or_ne t thread with rfl | hne
    · simp [State.setProcessor, jobs]
    · simpa [State.setProcessor, jobs, hne] using h.inWork t

theorem delete_implements (h : Implements limit nodes owner s q) {worker : P}
    (hprocessor : s.processor thread = .delete worker) :
    (jobs I limit).Allows q (s.delete thread worker).2 ∧
      Implements limit nodes (Function.update owner worker none) (s.delete thread worker).1
        ((jobs I limit).next q (s.delete thread worker).2) := by
  have howner := (h.ownProcessor worker thread).mpr (by rw [hprocessor]; rfl)
  obtain ⟨uri, huri⟩ := h.memory_of_owner howner
  have hnodes : worker ∉ nodes := fun hmem => by
    simp [(h.ownTaskList worker).mpr hmem] at howner
  have hconsumer : s.consumer.worker ≠ some worker := fun hw => by
    simp [(h.ownConsumer worker).mpr hw] at howner
  unfold State.delete
  simp only [huri]
  refine ⟨trivial, h.list, h.nodup, ?_, fun p => ?_, fun p => ?_, fun p => ?_, fun p t => ?_, ?_,
    fun t => ?_, h.length, h.room, h.alive, h.flushed⟩
  · refine Eq.trans (List.map_congr_left fun p hp => Function.update_of_ne ?_ _ _) h.queue
    rintro rfl
    exact hnodes (List.mem_reverse.mp hp)
  · rcases eq_or_ne p worker with rfl | hne
    · simp [State.setProcessor]
    · simp [State.setProcessor, hne, h.memory]
  · rcases eq_or_ne p worker with rfl | hne
    · simp [hnodes]
    · simp [hne, h.ownTaskList]
  · rcases eq_or_ne p worker with rfl | hne
    · simp [State.setProcessor, hconsumer]
    · simp [State.setProcessor, hne, h.ownConsumer]
  · have hthread := h.ownProcessor p t
    rcases eq_or_ne t thread with rfl | ht <;> rcases eq_or_ne p worker with rfl | hp
    · simp [State.setProcessor, Processor.worker]
    · simpa [State.setProcessor, hprocessor, Processor.worker, hp, hp.symm] using hthread
    · simpa [State.setProcessor, howner, ht, ht.symm] using hthread
    · simpa [State.setProcessor, ht, hp] using hthread
  · have hheld := h.held
    cases hc : s.consumer with
    | put w =>
      have hne : w ≠ worker := by
        rintro rfl
        simp [hc, Consumer.worker] at hconsumer
      simpa [jobs, State.setProcessor, hc, hne] using hheld
    | _ => simpa [jobs, State.setProcessor, hc] using hheld
  · have hwork := h.inWork t
    rcases eq_or_ne t thread with rfl | ht
    · simpa [jobs, State.setProcessor, hprocessor] using hwork
    · have hthread := h.ownProcessor worker t
      cases hp : s.processor t with
      | work w =>
        have hne : w ≠ worker := by
          rintro rfl
          simp [hp, Processor.worker, howner, ht.symm] at hthread
        simpa [jobs, State.setProcessor, ht, hp, hne] using hwork
      | _ => simpa [jobs, State.setProcessor, ht, hp] using hwork

/-! ## Every step -/

theorem stop_implements (h : Implements limit nodes owner s q) {s' : State I P} {e : Event I}
    (hstep : s.stop = some (s', e)) :
    (jobs I limit).Allows q e ∧ Implements limit nodes owner s' ((jobs I limit).next q e) := by
  unfold State.stop at hstep
  split at hstep
  · obtain ⟨rfl, rfl⟩ := Prod.mk.inj (Option.some.inj hstep)
    rename_i hpause
    have hlive := h.flushed
    rw [hpause] at hlive
    exact ⟨trivial, { h with flushed := fun hdead => by simpa using hlive hdead }⟩
  · rename_i hjoin hconsumer
    obtain ⟨rfl, rfl⟩ := Prod.mk.inj (Option.some.inj hstep)
    have hheld := h.held
    rw [hconsumer] at hheld
    have hlive : q.alive = true := by
      by_contra hdead
      simpa [hjoin] using h.flushed (by simpa using hdead)
    exact ⟨⟨hlive, hheld⟩, { h with
      list := Threads.flush_implements h.list
      alive := fun _ => hconsumer
      flushed := fun _ => rfl }⟩
  · simp at hstep

theorem consumerStep_implements [Fintype I]
    (h : Implements (Fintype.card I * 3) nodes owner s q) {ptr : P} {s' : State I P} {e : Event I}
    (hstep : s.consumerStep ptr = some (s', e)) :
    (jobs I (Fintype.card I * 3)).Allows q e ∧ ∃ nodes owner,
      Implements (Fintype.card I * 3) nodes owner s' ((jobs I (Fintype.card I * 3)).next q e) := by
  have hheld := h.held
  unfold State.consumerStep at hstep
  cases hconsumer : s.consumer with
  | top =>
    rw [hconsumer] at hstep hheld
    obtain ⟨rfl, rfl⟩ := Prod.mk.inj (Option.some.inj hstep)
    refine ⟨trivial, nodes, owner, h.consumer_next ?_ ?_ ?_ hheld ?_ ?_⟩
    · simp [hconsumer]
    · rw [hconsumer]
      rfl
    all_goals split_ifs <;> simp [Consumer.worker]
  | check =>
    rw [hconsumer] at hstep hheld
    obtain ⟨rfl, rfl⟩ := Prod.mk.inj (Option.some.inj hstep)
    refine ⟨trivial, nodes, owner, h.consumer_next ?_ ?_ ?_ hheld ?_ ?_⟩
    · simp [hconsumer]
    · rw [hconsumer]
      rfl
    · split_ifs <;> rfl
    · split_ifs <;> simp
    · split_ifs with hready
      · intro _
        have hnum := h.list.num
        rw [State.IsReady, hnum] at hready
        rw [← h.length_eq]
        exact_mod_cast hready
      · simp
  | submit uri =>
    rw [hconsumer] at hstep
    simp only [Option.ite_none_right_eq_some, Option.some.injEq, Prod.mk.injEq] at hstep
    obtain ⟨hptr, rfl, rfl⟩ := hstep
    exact ⟨trivial, nodes, _, new_implements h hconsumer hptr⟩
  | put worker =>
    rw [hconsumer] at hstep
    obtain ⟨rfl, rfl⟩ := Prod.mk.inj (Option.some.inj hstep)
    obtain ⟨hallows, hnext⟩ := put_implements h hconsumer
    exact ⟨hallows, _, _, hnext⟩
  | consume | ended => simp [hconsumer] at hstep

/-! ## Runs -/

/-- How the threads start behind the barrier. -/
structure State.Started (s : State I P) : Prop where
  taskList : ∃ memory, s.taskList = WaitList.init memory
  memory : ∀ p, s.memory p = none
  consumer : s.consumer = .top
  processor : ∀ thread, s.processor thread = .top
  main : s.main = .pause

def server (I P : Type*) [Fintype I] [DecidableEq I] [DecidableEq P] :
    System (State I P) (Event I) :=
  .ofStep State.Started fun s => s.step

theorem server_simulates [Fintype I] :
    Simulates (server I P) (jobs I (Fintype.card I * 3)) fun s q =>
      ∃ nodes owner, Implements (Fintype.card I * 3) nodes owner s q where
  start s h := by
    replace h : s.Started := h
    obtain ⟨⟨memory, hlist⟩, hmemory, hconsumer, hprocessor, hmain⟩ := h
    refine ⟨[], fun _ => none, ?_, List.nodup_nil, rfl, ?_, ?_, ?_, ?_, ?_, ?_, ?_, ?_, ?_, ?_⟩
    · rw [hlist]
      exact Threads.init_implements memory
    all_goals simp [hmemory, hconsumer, hprocessor, hmain, Consumer.worker, Processor.worker, jobs]
  step s q e s' := by
    rintro ⟨nodes, owner, h⟩ ⟨action, hstep⟩
    cases action with
    | consume uri =>
      simp only [State.step] at hstep
      split at hstep
      · obtain ⟨rfl, rfl⟩ := Prod.mk.inj (Option.some.inj hstep)
        rename_i hconsumer
        obtain ⟨hallows, hnext⟩ := consume_implements h hconsumer uri
        exact ⟨hallows, _, _, hnext⟩
      · simp at hstep
    | consumer ptr => exact consumerStep_implements h hstep
    | get thread =>
      have hget : (s.processor thread).worker = none → some (s.get thread) = some (s', e) →
          _ := fun hprocessor heq => by
        have hget := get_implements h hprocessor
        rwa [Option.some.inj heq] at hget
      simp only [State.step] at hstep
      split at hstep
      · rename_i hprocessor
        exact hget (by rw [hprocessor]; rfl) hstep
      · rename_i hprocessor
        exact hget (by rw [hprocessor]; rfl) hstep
      · simp at hstep
    | answer thread fuel =>
      simp only [State.step] at hstep
      split at hstep
      · rename_i hprocessor
        obtain ⟨hallows, hnext⟩ := answer_implements h hprocessor hstep
        exact ⟨hallows, _, _, hnext⟩
      · simp at hstep
    | delete thread =>
      simp only [State.step] at hstep
      split at hstep
      · rename_i worker hprocessor
        obtain ⟨hallows, hnext⟩ := delete_implements h hprocessor
        rw [Option.some.inj hstep] at hallows hnext
        exact ⟨hallows, _, _, hnext⟩
      · simp at hstep
    | stop =>
      obtain ⟨hallows, hnext⟩ := stop_implements h hstep
      exact ⟨hallows, _, _, hnext⟩

end PPView.Server
