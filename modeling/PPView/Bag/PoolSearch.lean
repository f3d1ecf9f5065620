import PPView.Bag.DFSearch
import PPView.Bag.PoolRuns

/-!
# The search on the thread pool

`DFSearch::DoSearch` gives a `DFSWorker` for each rich path to the thread pool. Whatever the
threads do and the timer answers, what it finds behind `wait_worker_done` is what some schedule of
these jobs makes of the pools; where no time-out and no collision of hashes disturbs the jobs, this
is `DFSWorker.runJobs`, and each thread holds the best of its paths (`runJobs_of_run`).
-/

namespace PPView.DFSearch

open MyThreadPool Threads

variable {param : BagParam} {plan : BagPlan}

/-- A `DFSWorker` that no thread has yet. -/
abbrev Worker := DFSWorker.Job Unit

def Worker.on (worker : Worker) (threadID : ℕ) : DFSWorker.Job ℕ :=
  ⟨threadID, worker.richPath, worker.copyVal, worker.timer⟩

def doWork (param : BagParam) (plan : BagPlan) (worker : Worker) (tmPool : Res ThreadMemPool) :
    Res ThreadMemPool :=
  tmPool >>= DFSWorker.doWork param plan worker.timer worker.richPath worker.copyVal

/-- The schedule of the jobs that a pool has done. -/
def schedule (order : List (ℕ × Worker)) : List (DFSWorker.Job ℕ) :=
  order.map fun work => work.2.on work.1

/-- The pools of `n` threads. -/
def poolList (n : ℕ) (pools : ℕ → ThreadMemPool) : List (Res ThreadMemPool) :=
  (List.range n).map fun threadID => .ok (pools threadID)

theorem modify_poolList {n threadID : ℕ} {pools : ℕ → ThreadMemPool}
    {worker : Worker} {tmPool : ThreadMemPool}
    (hwork : DFSWorker.doWork param plan worker.timer worker.richPath worker.copyVal
      (pools threadID) = .ok tmPool) :
    (poolList n pools).modify threadID (doWork param plan worker) =
      poolList n (Function.update pools threadID tmPool) := by
  refine List.ext_getElem (by simp [poolList]) fun i hi hi' => ?_
  simp only [poolList, List.getElem_modify, List.getElem_map, List.getElem_range]
  by_cases heq : threadID = i
  · subst heq
    rw [if_pos rfl, Function.update_self]
    exact hwork
  · rw [if_neg heq, Function.update_of_ne (Ne.symm heq)]

/-- Doing the jobs on the list of pools is running their schedule. -/
theorem doAll_eq_of_runJobs {n : ℕ} {order : List (ℕ × Worker)} {pools pools' : ℕ → ThreadMemPool}
    (hrun : DFSWorker.runJobs param plan pools (schedule order) = .ok pools') :
    doAll (doWork param plan) (poolList n pools) order = poolList n pools' := by
  induction order generalizing pools with
  | nil =>
    obtain rfl := Except.ok.inj hrun
    rfl
  | cons work order ih =>
    rw [schedule, List.map_cons, DFSWorker.runJobs, List.foldlM_cons] at hrun
    obtain ⟨pools'', hfirst, hrun⟩ := bind_ok.mp hrun
    obtain ⟨tmPool, htmPool, hpools''⟩ := bind_ok.mp hfirst
    obtain rfl := Except.ok.inj hpools''
    have hmodify : (poolList n pools).modify work.1 (doWork param plan work.2) =
        poolList n (Function.update pools work.1 tmPool) := modify_poolList htmPool
    rw [doAll, List.foldl_cons, hmodify]
    exact ih hrun

theorem richPath_schedule (order : List (ℕ × Worker)) :
    (schedule order).map DFSWorker.Job.richPath =
      (order.map Prod.snd).map DFSWorker.Job.richPath := by
  simp [schedule, Worker.on, Function.comp_def]

variable {I P : Type*} [DecidableEq I] [DecidableEq P] [Fintype I]

/-- What `DoSearch` finds behind `wait_worker_done` is what its jobs do one after the other in some
schedule. -/
theorem runJobs_of_run {pools : List (Res ThreadMemPool)}
    (hpools : pools.length = Fintype.card I) {s : State I P Worker (Res ThreadMemPool)}
    {trace : List (Event P Worker (Res ThreadMemPool))}
    (hrun : (pool I P (doWork param plan) pools).Run s trace)
    {before middle behind : List (Event P Worker (Res ThreadMemPool))} {workers : List Worker}
    {pools' : List (Res ThreadMemPool)}
    (htrace : trace = before ++ .begun workers (poolList (Fintype.card I) fun _ => {}) ::
      (middle ++ .returned pools' :: behind))
    (hmiddle : ∀ pools, .returned pools ∉ middle) :
    ∃ order : List (ℕ × Worker), (order.map Prod.snd).Perm workers ∧
      (∀ work ∈ order, work.1 < Fintype.card I) ∧
      pools' = doAll (doWork param plan) (poolList (Fintype.card I) fun _ => {}) order ∧
      ((∀ worker ∈ workers, worker.timer = .never) →
        (∀ worker ∈ workers, worker.richPath.Built plan) →
        (∀ worker ∈ workers, ∀ b l, (worker.copyVal b l).Perm l) →
        (∀ hash, DFSWorker.Consistent
          (DFSWorker.allJoined param plan (workers.map DFSWorker.Job.richPath) hash)) →
        ∃ pools, DFSWorker.runJobs param plan (fun _ => {}) (schedule order) = .ok pools ∧
          pools' = poolList (Fintype.card I) pools ∧
          DFSWorker.PoolsHold param plan (schedule order) pools) := by
  obtain ⟨hlegal, -⟩ := (pool_simulates hpools).run hrun
  obtain ⟨hperm, hlt, hdone⟩ :=
    (isBatches_of_legal hlegal).returned before workers _ middle pools' behind htrace hmiddle
  refine ⟨order middle, hperm, fun work hwork => ?_, hdone, fun hto hbuilt hcopy hhash => ?_⟩
  · simpa [poolList] using hlt work hwork
  have hmem : ∀ job ∈ schedule (order middle), ∃ worker ∈ workers, ∃ t, job = worker.on t := by
    intro job hjob
    obtain ⟨work, hwork, rfl⟩ := List.mem_map.mp hjob
    exact ⟨work.2, hperm.mem_iff.mp (List.mem_map_of_mem hwork), work.1, rfl⟩
  -- what holds of the workers holds of the jobs of the schedule
  have hjobs {Q : SPath → (Nat → List SPath → List SPath) → DFSWorker.Timer → Prop}
      (h : ∀ worker ∈ workers, Q worker.richPath worker.copyVal worker.timer) :
      ∀ job ∈ schedule (order middle), Q job.richPath job.copyVal job.timer := by
    intro job hjob
    obtain ⟨worker, hworker, t, rfl⟩ := hmem job hjob
    exact h worker hworker
  have hrich : (schedule (order middle)).map DFSWorker.Job.richPath ⊆
      workers.map DFSWorker.Job.richPath := by
    rw [richPath_schedule]
    exact (hperm.map _).subset
  obtain ⟨pools, hrunJobs, hholds⟩ := DFSWorker.runJobs_spec
    (hjobs (Q := fun _ _ timer => timer = .never) hto) DFSWorker.poolsHold_nil
    (by simpa using hjobs (Q := fun richPath _ _ => richPath.Built plan) hbuilt)
    (hjobs (Q := fun _ copyVal _ => ∀ b l, (copyVal b l).Perm l) hcopy)
    fun hash => (hhash hash).mono (by simpa using DFSWorker.allJoined_mono hrich hash)
  refine ⟨pools, hrunJobs, ?_, by simpa using hholds⟩
  rw [hdone, doAll_eq_of_runJobs hrunJobs]

/-- Two threads search the same rich path. -/
def towerWorkers : List Worker :=
  [⟨(), DFS.towerRich, fun _ l => l, .never⟩, ⟨(), DFS.towerRich, fun _ l => l.reverse, .never⟩]

/-- The second job is done first. -/
def towerMiddle : List (Event Bool Worker (Res ThreadMemPool)) :=
  [.added true ⟨(), DFS.towerRich, fun _ l => l, .never⟩, .silent,
    .added false ⟨(), DFS.towerRich, fun _ l => l.reverse, .never⟩, .silent,
    .worked 1 false ⟨(), DFS.towerRich, fun _ l => l.reverse, .never⟩, .silent,
    .worked 0 true ⟨(), DFS.towerRich, fun _ l => l, .never⟩, .silent, .silent, .silent, .silent]

theorem runJobs_of_run_tower : ∃ order : List (ℕ × Worker), (order.map Prod.snd).Perm towerWorkers ∧
    ∃ pools, DFSWorker.runJobs {} DFS.towerPlan (fun _ => {}) (schedule order) =
        .ok pools ∧
      DFSWorker.PoolsHold {} DFS.towerPlan (schedule order) pools := by
  let start : State Bool Bool Worker (Res ThreadMemPool) := ⟨WaitList.init ⟨id, id⟩,
    fun _ => none, 0, fun _ => none, poolList 2 fun _ => {}, fun _ => .start, .idle⟩
  have hstart : (pool Bool Bool (doWork {} DFS.towerPlan)
      (poolList 2 fun _ => {})).Run start [] :=
    .start ⟨⟨_, rfl⟩, fun _ => rfl, rfl, fun _ => rfl, rfl, fun _ => rfl, rfl⟩
  have hbegun := ((hstart.step ⟨.start true, rfl⟩).step ⟨.start false, rfl⟩).step
    ⟨.begin towerWorkers, rfl⟩
  have hadded := (((hbegun.step ⟨.client true, rfl⟩).step ⟨.get true, rfl⟩).step
    ⟨.client false, rfl⟩).step ⟨.get false, rfl⟩
  have hsecond := (hadded.step ⟨.work false, rfl⟩).step ⟨.finish false, rfl⟩
  have hfirst := (hsecond.step ⟨.work true, rfl⟩).step ⟨.finish true, rfl⟩
  have hwaits := (hfirst.step ⟨.client true, rfl⟩).step ⟨.client true, rfl⟩
  have hreturned := (hwaits.step ⟨.client true, rfl⟩).step ⟨.client true, rfl⟩
  have hbuilt : DFS.towerRich.Built DFS.towerPlan := (SPath.Built.init.pushV 0 2).pushV 0 3
  have hcopy : ∀ worker ∈ towerWorkers, ∀ b l, (worker.copyVal b l).Perm l := by
    intro worker hworker b l
    rcases List.mem_cons.mp hworker with rfl | hworker
    · exact .refl l
    · obtain rfl := List.mem_singleton.mp hworker
      exact List.reverse_perm l
  obtain ⟨order, hperm, -, -, hjobs⟩ := runJobs_of_run (by rfl) hreturned
    (show _ = [.silent, .silent] ++ .begun towerWorkers (poolList 2 fun _ => {}) ::
      (towerMiddle ++ .returned _ :: []) from rfl) (by simp [towerMiddle])
  obtain ⟨pools, hrun, -, hholds⟩ := hjobs (by simp [towerWorkers])
    (by simpa [towerWorkers] using hbuilt) hcopy
    (consistent_towerRich (by simp [towerWorkers]))
  exact ⟨order, hperm, pools, hrun, hholds⟩

end PPView.DFSearch
