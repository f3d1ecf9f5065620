import Mathlib.Data.Fintype.Card
import PPView.Library.Runs
import PPView.Threads.WaitList

/-!
# The thread pool

`MyThreadPool.cpp`: the threads of `svc` take workers out of a list and do their work, each on its
own memory pool. `Client` is a caller such as `DFSearch::DoSearch`: it adds a batch of workers,
waits in `wait_worker_done` until all are done, uses the pools and deletes the workers. `new` may
return any address that is free. A step is what a thread does up to the next point where another
thread can see it.
-/

namespace PPView.MyThreadPool

open Threads

variable {I P J D : Type*}

/-- A `MyWorker`, by what it is to do and `_state`. -/
structure MyWorker (J : Type*) where
  job : J
  done : Bool := false

/-- Where a thread of `svc` is. -/
inductive Thread (P : Type*) where
  /-- Before `m_threadID++`. -/
  | start
  | top
  /-- In `pthread_cond_wait`. -/
  | waiting
  | work (worker : P)
  /-- Before `_state = 1`. -/
  | finish (worker : P)
  | ended

/-- Where the caller is. -/
inductive Client (P J : Type*) where
  | idle
  /-- Adds the workers of `rest` to `jobs`. -/
  | add (rest : List J) (jobs : List P)
  /-- At the worker number `i` in `wait_worker_done`. -/
  | wait (i : ℕ) (jobs : List P)
  /-- Behind `wait_worker_done`. -/
  | merge (jobs : List P)
  | delete (rest : List P)
  | stopped

/-- `threadID` is the local variable of `svc`. -/
structure State (I P J D : Type*) where
  taskList : WaitList P
  memory : P → Option (MyWorker J)
  m_threadID : ℕ
  threadID : I → Option ℕ
  m_tmPoolList : List D
  thread : I → Thread P
  client : Client P J

/-- What a step shows. -/
inductive Event (P J D : Type*) where
  | begun (jobs : List J) (pools : List D)
  | added (worker : P) (job : J)
  | worked (threadID : ℕ) (worker : P) (job : J)
  | returned (pools : List D)
  /-- The caller changes the pools. -/
  | changed (pools : List D)
  | silent
  /-- A use of a pointer or of an index that is not valid. -/
  | fault

inductive Action (I P J D : Type*) where
  | start (thread : I)
  /-- `get`, from its start or after waiting. -/
  | get (thread : I)
  | work (thread : I)
  | finish (thread : I)
  | begin (jobs : List J)
  /-- The next step of the caller. `new` returns `ptr`. -/
  | client (ptr : P)
  | change (pools : List D)
  | stop

namespace State

variable [DecidableEq I] [DecidableEq P] (s : State I P J D) (doWork : J → D → D)

def setThread (t : I) (thread : Thread P) : State I P J D :=
  { s with thread := Function.update s.thread t thread }

def start (t : I) : State I P J D :=
  { s with
    threadID := Function.update s.threadID t (some s.m_threadID)
    m_threadID := s.m_threadID + 1 }.setThread t .top

def get (t : I) : State I P J D × Event P J D :=
  let (taskList, event) := s.taskList.tryGet .get
  let s := { s with taskList := taskList }
  match event with
  | .returned _ (some worker) => (s.setThread t (.work worker), .silent)
  | .returned _ none => (s.setThread t .ended, .silent)
  | .wait _ => (s.setThread t .waiting, .silent)
  | _ => (s, .fault)

/-- `worker->doWork(m_tmPoolList[threadID])`. -/
def work (t : I) (worker : P) : State I P J D × Event P J D :=
  match s.memory worker, s.threadID t with
  | some w, some threadID =>
    if threadID < s.m_tmPoolList.length then
      ({ s with m_tmPoolList := s.m_tmPoolList.modify threadID (doWork w.job) }.setThread t
        (.finish worker), .worked threadID worker w.job)
    else (s, .fault)
  | _, _ => (s, .fault)

/-- `worker->_state = 1`. -/
def finish (t : I) (worker : P) : State I P J D × Event P J D :=
  match s.memory worker with
  | some w =>
    ({ s with memory := Function.update s.memory worker (some { w with done := true }) }.setThread t
      .top, .silent)
  | none => (s, .fault)

def clientStep (ptr : P) : Option (State I P J D × Event P J D) :=
  match s.client with
  | .add (job :: rest) jobs =>
    if (s.memory ptr).isNone then
      some ({ s with
        memory := Function.update s.memory ptr (some { job := job })
        taskList := s.taskList.put ptr
        client := .add rest (jobs ++ [ptr]) }, .added ptr job)
    else none
  | .add [] jobs => some ({ s with client := .wait 0 jobs }, .silent)
  | .wait i jobs =>
    match jobs[i]? with
    | some worker =>
      match s.memory worker with
      | some w => some ({ s with client := .wait (if w.done then i + 1 else i) jobs }, .silent)
      | none => some (s, .fault)
    | none => some ({ s with client := .merge jobs }, .returned s.m_tmPoolList)
  | .merge jobs => some ({ s with client := .delete jobs }, .silent)
  | .delete (worker :: rest) =>
    match s.memory worker with
    | some _ =>
      some ({ s with
        memory := Function.update s.memory worker none
        client := .delete rest }, .silent)
    | none => some (s, .fault)
  | .delete [] => some ({ s with client := .idle }, .silent)
  | .idle | .stopped => none

/-- The pools are changed where no worker is about, and their number stays. -/
def change (pools : List D) : Option (State I P J D × Event P J D) :=
  match s.client with
  | .idle | .merge _ =>
    if pools.length = s.m_tmPoolList.length then
      some ({ s with m_tmPoolList := pools }, .changed pools)
    else none
  | _ => none

def step : Action I P J D → Option (State I P J D × Event P J D)
  | .start t =>
    match s.thread t with
    | .start => some (s.start t, .silent)
    | _ => none
  | .get t =>
    match s.thread t with
    | .top | .waiting => some (s.get t)
    | _ => none
  | .work t =>
    match s.thread t with
    | .work worker => some (s.work doWork t worker)
    | _ => none
  | .finish t =>
    match s.thread t with
    | .finish worker => some (s.finish t worker)
    | _ => none
  | .begin jobs =>
    match s.client with
    | .idle => some ({ s with client := .add jobs [] }, .begun jobs s.m_tmPoolList)
    | _ => none
  | .client ptr => s.clientStep ptr
  | .change pools => s.change pools
  | .stop =>
    match s.client with
    | .idle => some ({ s with taskList := s.taskList.flush, client := .stopped }, .silent)
    | _ => none

/-! ## When a step can be taken -/

variable {s doWork} {s' : State I P J D} {t : I} {e : Event P J D}

theorem step_start : s.step doWork (.start t) = some (s', e) ↔
    s.thread t = .start ∧ s.start t = s' ∧ .silent = e := by
  cases h : s.thread t <;> simp [step, h]

theorem step_get : s.step doWork (.get t) = some (s', e) ↔
    (s.thread t = .top ∨ s.thread t = .waiting) ∧ s.get t = (s', e) := by
  cases h : s.thread t <;> simp [step, h]

theorem step_work : s.step doWork (.work t) = some (s', e) ↔
    ∃ worker, s.thread t = .work worker ∧ s.work doWork t worker = (s', e) := by
  cases h : s.thread t <;> simp [step, h]

theorem step_finish : s.step doWork (.finish t) = some (s', e) ↔
    ∃ worker, s.thread t = .finish worker ∧ s.finish t worker = (s', e) := by
  cases h : s.thread t <;> simp [step, h]

theorem step_begin {jobs : List J} : s.step doWork (.begin jobs) = some (s', e) ↔
    s.client = .idle ∧ { s with client := .add jobs [] } = s' ∧
      .begun jobs s.m_tmPoolList = e := by
  cases h : s.client <;> simp [step, h]

theorem step_stop : s.step doWork .stop = some (s', e) ↔
    s.client = .idle ∧ { s with taskList := s.taskList.flush, client := .stopped } = s' ∧
      .silent = e := by
  cases h : s.client <;> simp [step, h]

end State

end PPView.MyThreadPool
