import PPView.Bag.PoolBatch

/-!
# Runs of the thread pool

Every thread has a pool of its own (`Numbered`), and when `wait_worker_done` returns, the pools are
those of the jobs of the batch, done one after the other in some order (`pool_isBatches`).
-/

namespace PPView.MyThreadPool

open Threads

variable {I P J D : Type*} [DecidableEq I] {s s' : State I P J D} {t : I} {doWork : J → D → D}
  {pools : List D} {e : Event P J D}

/-! ## The numbers of the threads -/

structure Numbered [Fintype I] (s : State I P J D) : Prop where
  pools : s.m_tmPoolList.length = Fintype.card I
  count : (Finset.univ.filter fun t => (s.threadID t).isSome).card = s.m_threadID
  lt : ∀ t threadID, s.threadID t = some threadID → threadID < s.m_threadID
  injective : ∀ t t' threadID,
    s.threadID t = some threadID → s.threadID t' = some threadID → t = t'
  started : ∀ t, (s.threadID t).isSome ↔ s.thread t ≠ .start

variable [Fintype I]

omit [DecidableEq I] in
theorem Numbered.lt_length (h : Numbered s) {threadID : ℕ} (ht : s.threadID t = some threadID) :
    threadID < s.m_tmPoolList.length := by
  have hlt := h.lt t threadID ht
  have hcount := h.count
  have hcard := Finset.card_filter_le Finset.univ fun t => (s.threadID t).isSome
  rw [Finset.card_univ] at hcard
  rw [h.pools]
  omega

omit [DecidableEq I] in
theorem Numbered.congr (h : Numbered s) (hthreadID : s'.threadID = s.threadID)
    (hnum : s'.m_threadID = s.m_threadID)
    (hpools : s'.m_tmPoolList.length = s.m_tmPoolList.length)
    (hthread : ∀ t, s'.thread t = .start ↔ s.thread t = .start) : Numbered s' := by
  refine ⟨hpools.trans h.pools, ?_, ?_, ?_, fun t => ?_⟩
  · rw [hthreadID, hnum]
    exact h.count
  · rw [hthreadID, hnum]
    exact h.lt
  · rw [hthreadID]
    exact h.injective
  · rw [hthreadID, h.started, ne_eq, ne_eq, hthread]

theorem Numbered.setThread (h : Numbered s) {thread : Thread P} (hne : s.thread t ≠ .start)
    (hne' : thread ≠ .start) : Numbered (s.setThread t thread) := by
  refine h.congr rfl rfl rfl fun t' => ?_
  rcases eq_or_ne t' t with rfl | ht
  · simp [State.setThread, hne, hne']
  · simp [State.setThread, ht]

/-- `m_threadID++`. -/
theorem Numbered.start (h : Numbered s) (ht : s.thread t = .start) : Numbered (s.start t) := by
  have hnone : s.threadID t = none := by
    have hstarted := h.started t
    simpa [ht] using hstarted
  have hfilter : (Finset.univ.filter fun t' => ((s.start t).threadID t').isSome) =
      insert t (Finset.univ.filter fun t' => (s.threadID t').isSome) := by
    ext t'
    simp only [Finset.mem_filter, Finset.mem_univ, true_and, Finset.mem_insert]
    rcases eq_or_ne t' t with rfl | hne
    · simp [State.start, State.setThread]
    · simp [State.start, State.setThread, hne]
  refine ⟨h.pools, ?_, fun t' threadID => ?_, fun t₁ t₂ threadID => ?_, fun t' => ?_⟩
  · rw [hfilter, Finset.card_insert_of_notMem (by simp [hnone]), h.count]
    rfl
  · intro hid
    rcases eq_or_ne t' t with rfl | hne
    · simp only [State.start, State.setThread, Function.update_self, Option.some.injEq] at hid ⊢
      omega
    · simp only [State.start, State.setThread, Function.update_of_ne hne] at hid ⊢
      have := h.lt t' threadID hid
      omega
  · intro h₁ h₂
    simp only [State.start, State.setThread] at h₁ h₂
    by_cases hne₁ : t₁ = t <;> by_cases hne₂ : t₂ = t
    · rw [hne₁, hne₂]
    · rw [Function.update_of_ne hne₂] at h₂
      have := h.lt t₂ threadID h₂
      simp only [hne₁, Function.update_self, Option.some.injEq] at h₁
      omega
    · rw [Function.update_of_ne hne₁] at h₁
      have := h.lt t₁ threadID h₁
      simp only [hne₂, Function.update_self, Option.some.injEq] at h₂
      omega
    · rw [Function.update_of_ne hne₁] at h₁
      rw [Function.update_of_ne hne₂] at h₂
      exact h.injective t₁ t₂ threadID h₁ h₂
  · rcases eq_or_ne t' t with rfl | hne
    · simp [State.start, State.setThread]
    · simpa [State.start, State.setThread, hne] using h.started t'

variable [DecidableEq P]

theorem Numbered.get (h : Numbered s) (ht : s.thread t ≠ .start) : Numbered (s.get t).1 := by
  have hof : ∀ (taskList : WaitList P) {thread : Thread P}, thread ≠ .start →
      Numbered ({ s with taskList := taskList }.setThread t thread) := by
    intro taskList thread hne
    have hlist : Numbered { s with taskList := taskList } := h.congr rfl rfl rfl fun _ => Iff.rfl
    exact hlist.setThread ht hne
  unfold State.get
  dsimp only
  split
  · exact hof _ (by simp)
  · exact hof _ (by simp)
  · exact hof _ (by simp)
  · exact h.congr rfl rfl rfl fun _ => Iff.rfl

omit [DecidableEq I] in
theorem Numbered.clientStep (h : Numbered s) {ptr : P}
    (hstep : s.clientStep ptr = some (s', e)) : Numbered s' := by
  unfold State.clientStep at hstep
  repeat' split at hstep
  all_goals
    simp only [Option.some.injEq, Prod.mk.injEq, reduceCtorEq] at hstep
    try
      obtain ⟨rfl, -⟩ := hstep
      exact h.congr rfl rfl rfl fun _ => Iff.rfl

omit [DecidableEq P] in
theorem Numbered.work (h : Numbered s) {worker : P} (ht : s.thread t ≠ .start) :
    Numbered (s.work doWork t worker).1 := by
  unfold State.work
  split
  · rename_i w threadID _ _
    have hpools : Numbered { s with
        m_tmPoolList := s.m_tmPoolList.modify threadID (doWork w.job) } :=
      h.congr rfl rfl (List.length_modify ..) fun _ => Iff.rfl
    split_ifs
    · exact hpools.setThread ht (by simp)
    · exact h
  · exact h

theorem Numbered.finish (h : Numbered s) {worker : P} (ht : s.thread t ≠ .start) :
    Numbered (s.finish t worker).1 := by
  unfold State.finish
  split
  · rename_i w _
    have hmemory : Numbered { s with
        memory := Function.update s.memory worker (some { w with done := true }) } :=
      h.congr rfl rfl rfl fun _ => Iff.rfl
    exact hmemory.setThread ht (by simp)
  · exact h

omit [DecidableEq I] [DecidableEq P] in
theorem Numbered.change (h : Numbered s) {pools : List D}
    (hstep : s.change pools = some (s', e)) : Numbered s' := by
  unfold State.change at hstep
  split at hstep
  all_goals
    simp only [Option.ite_none_right_eq_some, Option.some.injEq, Prod.mk.injEq,
      reduceCtorEq] at hstep
  all_goals
    obtain ⟨hlength, rfl, -⟩ := hstep
    exact h.congr rfl rfl hlength fun _ => Iff.rfl

theorem Numbered.step (h : Numbered s) {action : Action I P J D}
    (hstep : s.step doWork action = some (s', e)) : Numbered s' := by
  cases action with
  | client ptr => exact h.clientStep hstep
  | change pools => exact h.change hstep
  | start t =>
    obtain ⟨ht, rfl, -⟩ := State.step_start.mp hstep
    exact h.start ht
  | get t =>
    obtain ⟨ht, heq⟩ := State.step_get.mp hstep
    have hnext : Numbered (s.get t).1 := h.get (by rcases ht with ht | ht <;> simp [ht])
    rwa [heq] at hnext
  | work t =>
    obtain ⟨worker, ht, heq⟩ := State.step_work.mp hstep
    have hnext : Numbered (s.work doWork t worker).1 := h.work (by simp [ht])
    rwa [heq] at hnext
  | finish t =>
    obtain ⟨worker, ht, heq⟩ := State.step_finish.mp hstep
    have hnext : Numbered (s.finish t worker).1 := h.finish (by simp [ht])
    rwa [heq] at hnext
  | begin jobs =>
    obtain ⟨-, rfl, -⟩ := State.step_begin.mp hstep
    exact h.congr rfl rfl rfl fun _ => Iff.rfl
  | stop =>
    obtain ⟨-, rfl, -⟩ := State.step_stop.mp hstep
    exact h.congr rfl rfl rfl fun _ => Iff.rfl

/-! ## Runs -/

/-- The pool behind `open`. -/
structure State.Started (pools : List D) (s : State I P J D) : Prop where
  taskList : ∃ memory, s.taskList = WaitList.init memory
  memory : ∀ p, s.memory p = none
  m_threadID : s.m_threadID = 0
  threadID : ∀ t, s.threadID t = none
  m_tmPoolList : s.m_tmPoolList = pools
  thread : ∀ t, s.thread t = .start
  client : s.client = .idle

omit [DecidableEq I] in
/-- `open` makes a pool for each thread. -/
theorem State.Started.numbered (h : s.Started pools) (hpools : pools.length = Fintype.card I) :
    Numbered s := by
  refine ⟨by rw [h.m_tmPoolList, hpools], ?_, ?_, ?_, ?_⟩
  all_goals simp [h.threadID, h.m_threadID, h.thread]

def pool (I P : Type*) [DecidableEq I] [DecidableEq P] (doWork : J → D → D) (pools : List D) :
    System (State I P J D) (Event P J D) :=
  .ofStep (State.Started pools) fun s => s.step doWork

theorem pool_simulates (hpools : pools.length = Fintype.card I) :
    Simulates (pool I P doWork pools) (batches doWork pools) fun s q =>
      Numbered s ∧ ∃ nodes owner, Implements nodes owner s q where
  start s h := by
    replace h : s.Started pools := h
    refine ⟨h.numbered hpools, ?_⟩
    obtain ⟨⟨memory, hlist⟩, hmemory, -, -, htmPoolList, hthread, hclient⟩ := h
    refine ⟨[], fun _ => none, ?_, List.nodup_nil, ⟨?_, ?_, ?_⟩, ?_, ?_, ?_, ?_, ?_, ?_, ?_, ?_, ?_⟩
    · rw [hlist]
      exact Threads.init_implements memory
    all_goals simp [hlist, WaitList.init, hmemory, hthread, hclient, htmPoolList, Thread.worker,
      Client.jobs, Client.rest, Client.running, Client.checked, batches]
  step s q e s' := by
    rintro ⟨hnumbered, nodes, owner, h⟩ ⟨action, hstep⟩
    have hnext := hnumbered.step hstep
    suffices hstep : (batches doWork pools).Allows q e ∧ ∃ nodes owner,
        Implements nodes owner s' ((batches doWork pools).next q e) from
      ⟨hstep.1, hnext, hstep.2⟩
    cases action with
    | client ptr => exact clientStep_implements h hstep
    | change pools' =>
      obtain ⟨hallows, hnext⟩ := change_implements h hstep
      exact ⟨hallows, _, _, hnext⟩
    | start t =>
      obtain ⟨ht, rfl, rfl⟩ := State.step_start.mp hstep
      have hthread : (s.thread t).worker = none := by
        rw [ht]
        rfl
      have hnext : Implements nodes owner (s.setThread t .top) q := h.thread_next hthread rfl
      exact ⟨trivial, nodes, owner, { hnext with }⟩
    | get t =>
      obtain ⟨ht, heq⟩ := State.step_get.mp hstep
      have hthread : (s.thread t).worker = none := by
        rcases ht with ht | ht
        all_goals
          rw [ht]
          rfl
      have hget := get_implements doWork pools h hthread
      rwa [heq] at hget
    | work t =>
      obtain ⟨worker, ht, heq⟩ := State.step_work.mp hstep
      obtain ⟨threadID, hthreadID⟩ := Option.isSome_iff_exists.mp
        ((hnumbered.started t).mpr (by simp [ht]))
      obtain ⟨hallows, owner, hnext⟩ := work_implements doWork pools h ht
        hthreadID (hnumbered.lt_length hthreadID)
      rw [heq] at hallows hnext
      exact ⟨hallows, _, _, hnext⟩
    | finish t =>
      obtain ⟨worker, ht, heq⟩ := State.step_finish.mp hstep
      obtain ⟨hallows, owner, hnext⟩ := finish_implements doWork pools h ht
      rw [heq] at hallows hnext
      exact ⟨hallows, _, _, hnext⟩
    | begin jobs =>
      obtain ⟨hclient, rfl, rfl⟩ := State.step_begin.mp hstep
      have hrunning := h.running
      rw [hclient] at hrunning
      exact ⟨⟨hrunning, h.pools.symm⟩, nodes, owner, h.client_next (.add jobs [])
        (by simp [hclient]) (by rw [hclient]; rfl) (by simp [Client.checked]) rfl rfl⟩
    | stop =>
      obtain ⟨hclient, rfl, rfl⟩ := State.step_stop.mp hstep
      have hnext := h.client_next .stopped (by simp [hclient]) (by rw [hclient]; rfl)
        (by simp [Client.checked]) (h.rest.trans (by rw [hclient]; rfl))
        (h.running.trans (by rw [hclient]; rfl))
      exact ⟨trivial, nodes, owner, { hnext with
        list := Threads.flush_implements h.list
        alive := fun _ => rfl }⟩

/-! ## What a batch does -/

/-- The jobs in the order in which they are done, each with the number of its thread. -/
def order (trace : List (Event P J D)) : List (ℕ × J) :=
  trace.filterMap fun
    | .worked threadID _ job => some (threadID, job)
    | _ => none

/-- The pools when the jobs are done one after the other. -/
def doAll (doWork : J → D → D) (pools : List D) (order : List (ℕ × J)) : List D :=
  order.foldl (fun pools work => pools.modify work.1 (doWork work.2)) pools

omit [DecidableEq I] [Fintype I]

omit [DecidableEq P] in
@[simp] theorem length_doAll (order : List (ℕ × J)) :
    (doAll doWork pools order).length = pools.length := by
  induction order using List.reverseRecOn with
  | nil => rfl
  | append_singleton order work ih =>
    rw [doAll, List.foldl_append] at *
    simpa using ih

/-- Between batches nothing is to be worked. -/
theorem pending_eq_none {trace : List (Event P J D)} (h : (batches doWork pools).Legal trace)
    (hrunning : ((batches doWork pools).after trace).running = false) (p : P) :
    ((batches doWork pools).after trace).pending p = none := by
  refine Spec.Legal.invariant (fun q => q.running = false → ∀ p, q.pending p = none)
    (fun _ _ => rfl) (fun q e hq hallows hrunning' p => ?_) h hrunning p
  cases e with
  | begun => simp at hrunning'
  | added => simp_all [batches]
  | worked => simp_all [batches]
  | returned => exact hallows.2.2.1 p
  | changed => exact hq hrunning' p
  | silent => exact hq hrunning' p
  | fault => exact hallows.elim

/-- A batch in work. The jobs of `waiting` are those of workers that have been added. -/
structure Working (doWork : J → D → D) (jobs : List J) (pools : List D) (done : List (ℕ × J))
    (waiting : List (P × J)) (q : Batch P J D) : Prop where
  running : q.running = true
  lt : ∀ work ∈ done, work.1 < pools.length
  pools : q.pools = doAll doWork pools done
  nodup : waiting.Nodup
  pending : ∀ p job, q.pending p = some job ↔ (p, job) ∈ waiting
  jobs : (done.map Prod.snd ++ waiting.map Prod.snd ++ q.rest).Perm jobs

variable {pools' : List D} {q : Batch P J D} {jobs : List J} {done : List (ℕ × J)}
  {waiting : List (P × J)}

theorem Working.added (h : Working doWork jobs pools' done waiting q) {worker : P} {job : J}
    (hallows : (batches doWork pools).Allows q (.added worker job)) :
    Working doWork jobs pools' done ((worker, job) :: waiting)
      ((batches doWork pools).next q (.added worker job)) := by
  obtain ⟨hrunning, hhead, hpending⟩ := hallows
  have hworker : ∀ job', (worker, job') ∉ waiting := fun job' hmem => by
    simp [(h.pending worker job').mpr hmem] at hpending
  obtain ⟨rest, hrest⟩ := List.head?_eq_some_iff.mp hhead
  refine { h with
    nodup := List.nodup_cons.mpr ⟨hworker job, h.nodup⟩
    pending := fun p job' => ?_
    jobs := ?_ }
  · rcases eq_or_ne p worker with rfl | hne
    · simp [hworker, eq_comm]
    · simpa [hne] using h.pending p job'
  · refine List.Perm.trans ?_ h.jobs
    simp only [next_added, hrest, List.tail_cons, List.map_cons, List.append_assoc,
      List.cons_append]
    exact List.Perm.append_left _ List.perm_middle.symm

theorem Working.worked (h : Working doWork jobs pools' done waiting q) {threadID : ℕ} {worker : P}
    {job : J} (hallows : (batches doWork pools).Allows q (.worked threadID worker job)) :
    ∃ waiting, Working doWork jobs pools' (done ++ [(threadID, job)]) waiting
      ((batches doWork pools).next q (.worked threadID worker job)) := by
  obtain ⟨hrunning, hpending, hlt⟩ := hallows
  obtain ⟨front, back, rfl⟩ := List.append_of_mem ((h.pending worker job).mp hpending)
  have hother : ∀ job', (worker, job') ∈ front ++ (worker, job) :: back → job' = job :=
    fun job' hmem => by
      have hjob' := (h.pending worker job').mpr hmem
      rw [hpending] at hjob'
      exact (Option.some.inj hjob').symm
  obtain ⟨hnotMem, hnodup⟩ := List.nodup_cons.mp (List.nodup_middle.mp h.nodup)
  refine ⟨front ++ back, hrunning, fun work hwork => ?_, ?_, hnodup, fun p job' => ?_, ?_⟩
  · rcases List.mem_append.mp hwork with hwork | hwork
    · exact h.lt work hwork
    · rw [List.mem_singleton.mp hwork]
      simpa [h.pools] using hlt
  · simp [doAll, h.pools]
  · rcases eq_or_ne p worker with rfl | hne
    · refine iff_of_false (by simp) fun hmem => hnotMem ?_
      have heq := hother job' (by
        rw [List.mem_append] at hmem
        simp only [List.mem_append, List.mem_cons]
        exact hmem.imp id .inr)
      rwa [heq] at hmem
    · simpa [hne] using h.pending p job'
  · refine List.Perm.trans ?_ h.jobs
    simp only [next_worked, List.map_append, List.map_cons, List.map_nil, List.append_assoc,
      List.cons_append, List.nil_append]
    exact List.Perm.append_left _ List.perm_middle.symm

/-- Until `wait_worker_done` returns, a batch is in work. -/
theorem working_of_legal {before middle : List (Event P J D)}
    (h : (batches doWork pools).Legal (before ++ .begun jobs pools' :: middle))
    (hreturned : ∀ pools, .returned pools ∉ middle) :
    ∃ waiting, Working doWork jobs pools' (order middle) waiting
      ((batches doWork pools).after (before ++ .begun jobs pools' :: middle)) := by
  induction middle using List.reverseRecOn with
  | nil =>
    obtain ⟨hlegal, hrunning, hpools⟩ := Spec.legal_concat.mp h
    rw [Spec.after_concat]
    have hpending := pending_eq_none hlegal hrunning
    exact ⟨[], rfl, by simp [order], by simp [order, doAll, hpools], List.nodup_nil,
      by simp [hpending], by simp [order]⟩
  | append_singleton middle e ih =>
    have hassoc : before ++ .begun jobs pools' :: (middle ++ [e]) =
        (before ++ .begun jobs pools' :: middle) ++ [e] := by simp
    rw [hassoc] at h ⊢
    obtain ⟨hlegal, hallows⟩ := Spec.legal_concat.mp h
    obtain ⟨waiting, hworking⟩ :=
      ih hlegal fun pools hmem => hreturned pools (List.mem_append_left _ hmem)
    rw [Spec.after_concat, order, List.filterMap_append, ← order]
    cases e with
    | begun =>
      have := hallows.1
      simp [hworking.running] at this
    | added worker job =>
      exact ⟨_, by simpa [List.filterMap] using hworking.added hallows⟩
    | worked threadID worker job => exact hworking.worked hallows
    | returned pools => exact absurd (by simp) (hreturned pools)
    | changed =>
      have := hallows.1
      simp [hworking.running] at this
    | silent => exact ⟨waiting, by simpa [List.filterMap] using hworking⟩
    | fault => exact hallows.elim

/-- A job is done in a batch only. -/
theorem running_of_legal {trace : List (Event P J D)} (h : (batches doWork pools).Legal trace)
    (hrunning : ((batches doWork pools).after trace).running = true) :
    ∃ before jobs pools' middle, trace = before ++ .begun jobs pools' :: middle ∧
      ∀ pools, .returned pools ∉ middle := by
  induction trace using List.reverseRecOn with
  | nil => simp [batches] at hrunning
  | append_singleton trace e ih =>
    obtain ⟨hlegal, hallows⟩ := Spec.legal_concat.mp h
    rw [Spec.after_concat] at hrunning
    by_cases he : ∃ jobs pools', e = .begun jobs pools'
    · obtain ⟨jobs, pools', rfl⟩ := he
      exact ⟨trace, jobs, pools', [], by simp⟩
    · have hprev : ((batches doWork pools).after trace).running = true ∧
          ∀ pools, e ≠ .returned pools := by
        cases e with
        | begun jobs pools' => exact absurd ⟨jobs, pools', rfl⟩ he
        | returned => simp [batches] at hrunning
        | added | worked | changed | silent => exact ⟨hrunning, by simp⟩
        | fault => exact hallows.elim
      obtain ⟨before, jobs, pools', middle, rfl, hmiddle⟩ := ih hlegal hprev.1
      refine ⟨before, jobs, pools', middle ++ [e], by simp, fun pools hmem => ?_⟩
      rcases List.mem_append.mp hmem with hmem | hmem
      · exact hmiddle pools hmem
      · exact hprev.2 pools (List.mem_singleton.mp hmem).symm

/-- What a trace of the pool shows. -/
structure IsBatches (doWork : J → D → D) (trace : List (Event P J D)) : Prop where
  noFault : .fault ∉ trace
  /-- When `wait_worker_done` returns, each job of the batch has been done once. -/
  returned : ∀ before jobs pools middle pools' behind,
    trace = before ++ .begun jobs pools :: (middle ++ .returned pools' :: behind) →
    (∀ pools, .returned pools ∉ middle) →
    ((order middle).map Prod.snd).Perm jobs ∧ (∀ work ∈ order middle, work.1 < pools.length) ∧
      pools' = doAll doWork pools (order middle)
  /-- No job is done between two batches. -/
  worked : ∀ before threadID worker job behind,
    trace = before ++ .worked threadID worker job :: behind →
    ∃ front jobs pools middle, before = front ++ .begun jobs pools :: middle ∧
      ∀ pools, .returned pools ∉ middle

theorem isBatches_of_legal {trace : List (Event P J D)} (h : (batches doWork pools).Legal trace) :
    IsBatches doWork trace where
  noFault := h.not_mem fun q hq => hq
  returned before jobs pools' middle pools'' behind heq hmiddle := by
    have heq' : trace =
        (before ++ .begun jobs pools' :: middle) ++ .returned pools'' :: behind := by
      simp [heq]
    obtain ⟨-, hrest, hpending, hpools⟩ := h _ _ _ heq'
    obtain ⟨waiting, hworking⟩ := working_of_legal (heq' ▸ h).of_append hmiddle
    obtain rfl : waiting = [] := List.eq_nil_iff_forall_not_mem.mpr fun w hw => by
      have := (hworking.pending w.1 w.2).mpr hw
      simp [hpending] at this
    have hjobs := hworking.jobs
    rw [hrest, List.map_nil, List.append_nil, List.append_nil] at hjobs
    exact ⟨hjobs, hworking.lt, hpools.trans hworking.pools⟩
  worked before threadID worker job behind heq := by
    obtain ⟨hrunning, -⟩ := h _ _ _ heq
    exact running_of_legal (heq ▸ h).of_append hrunning

omit [DecidableEq P] in
/-- Behind `wait_worker_done` no thread has a worker. -/
theorem Implements.worker_eq_none {nodes : List P} {owner : P → Option (Owner I)}
    (h : Implements nodes owner s q) (hrunning : s.client.running = false) (t : I) :
    (s.thread t).worker = none := by
  rw [Option.eq_none_iff_forall_not_mem]
  rintro ⟨worker, worked⟩ hworker
  have howner := (h.owned.thread worker t worked).mpr hworker
  have hbatch := h.running_of_owner howner (by simp)
  rw [h.running, hrunning] at hbatch
  exact Bool.noConfusion hbatch

theorem pool_isBatches [DecidableEq I] [Fintype I] (hpools : pools.length = Fintype.card I)
    {trace : List (Event P J D)} (h : (pool I P doWork pools).Run s trace) :
    IsBatches doWork trace ∧
      (∀ t t' threadID, s.threadID t = some threadID → s.threadID t' = some threadID → t = t') ∧
      (s.client.running = false → ∀ t, (s.thread t).worker = none) ∧
      ∀ p, (s.memory p).isSome ↔ p ∈ s.client.jobs := by
  obtain ⟨hlegal, hnumbered, nodes, owner, himplements⟩ := (pool_simulates hpools).run h
  exact ⟨isBatches_of_legal hlegal, hnumbered.injective, himplements.worker_eq_none,
    himplements.jobs⟩

/-- Two threads do two jobs, the second job first. -/
theorem pool_isBatches_two : IsBatches (P := Bool) (List.cons (α := ℕ))
    [.silent, .silent, .begun [10, 20] [[], []], .added true 10, .silent, .added false 20, .silent,
      .worked 1 false 20, .silent, .silent, .silent, .worked 0 true 10, .silent, .silent, .silent,
      .returned [[10], [20]]] := by
  let start : State Bool Bool ℕ (List ℕ) := ⟨WaitList.init ⟨id, id⟩, fun _ => none, 0,
    fun _ => none, [[], []], fun _ => .start, .idle⟩
  have hstart : (pool Bool Bool (List.cons (α := ℕ)) [[], []]).Run start [] :=
    .start ⟨⟨_, rfl⟩, fun _ => rfl, rfl, fun _ => rfl, rfl, fun _ => rfl, rfl⟩
  have hbegun := ((hstart.step ⟨.start true, rfl⟩).step ⟨.start false, rfl⟩).step
    ⟨.begin [10, 20], rfl⟩
  have hadded := (((hbegun.step ⟨.client true, rfl⟩).step ⟨.get true, rfl⟩).step
    ⟨.client false, rfl⟩).step ⟨.get false, rfl⟩
  have hsecond := (hadded.step ⟨.work false, rfl⟩).step ⟨.finish false, rfl⟩
  have hwaits := (hsecond.step ⟨.client true, rfl⟩).step ⟨.client true, rfl⟩
  have hfirst := (hwaits.step ⟨.work true, rfl⟩).step ⟨.finish true, rfl⟩
  have hreturned := ((hfirst.step ⟨.client true, rfl⟩).step ⟨.client true, rfl⟩).step
    ⟨.client true, rfl⟩
  exact (pool_isBatches (by rfl) hreturned).1

end PPView.MyThreadPool
