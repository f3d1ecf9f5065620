import Mathlib.Data.Fintype.Card
import PPView.Library.Runs
import PPView.Server.ParseUri
import PPView.Threads.WaitList

/-!
# The task queue

The threads of the server: the one of `MQConsumer::svc`, which takes requests from the broker and
puts workers into the task list while there are few of them, those of `MQQueryProcessor::svc`, which
take the workers out and publish the replies, and `main`, which stops the first before the others.
`new` may return any address that is free. A step is what a thread does up to the next point where
another thread can see it.
-/

namespace PPView.Server

open Threads MQQueryProcessor

variable {I P : Type*}

/-- Where `MQConsumer::svc` is. -/
inductive Consumer (P : Type*) where
  /-- At the test of `m_svcActive`. -/
  | top
  /-- At the test of `IsReady`. -/
  | check
  | consume
  /-- In `SubmitTask`. -/
  | submit (uri : Str)
  | put (worker : P)
  | ended

/-- Where a thread of `MQQueryProcessor::svc` is. -/
inductive Processor (P : Type*) where
  /-- At `get`. -/
  | top
  /-- In `pthread_cond_wait`. -/
  | waiting
  | work (worker : P)
  | delete (worker : P)
  | ended

/-- Where `main` is from `pause` on. -/
inductive Main where
  | pause
  /-- Joins the thread of the consumer. -/
  | join
  /-- Joins the processors. -/
  | flushed
  deriving DecidableEq

/-- `memory` has the requests of the workers that have not been deleted. -/
structure State (I P : Type*) where
  taskList : WaitList P
  memory : P → Option Str
  m_svcActive : Bool
  consumer : Consumer P
  processor : I → Processor P
  main : Main

/-- What a step shows. -/
inductive Event (I : Type*) where
  | received (uri : Str)
  /-- A worker is put into the list. -/
  | queued
  | taken (thread : I) (uri : Str)
  | answered (thread : I) (uri : Str)
  | flushed
  | silent
  /-- A use of a pointer that is not valid. -/
  | fault
  deriving DecidableEq

inductive Action (I P : Type*) where
  /-- The broker delivers a request. -/
  | consume (uri : Str)
  /-- Any other step of the consumer. `new` returns `ptr`. -/
  | consumer (ptr : P)
  /-- `get`, from its start or after waiting. -/
  | get (thread : I)
  /-- A reply is published, with a loop of at most `fuel` rounds in `ParseUri`. -/
  | answer (thread : I) (fuel : ℕ)
  | delete (thread : I)
  | stop

namespace State

variable [DecidableEq I] [DecidableEq P] (s : State I P)

def setProcessor (thread : I) (processor : Processor P) : State I P :=
  { s with processor := Function.update s.processor thread processor }

def IsReady [Fintype I] : Prop := s.taskList.num ≤ Fintype.card I * 3

instance [Fintype I] : Decidable s.IsReady := inferInstanceAs (Decidable (_ ≤ _))

def consumerStep [Fintype I] (ptr : P) : Option (State I P × Event I) :=
  match s.consumer with
  | .top => some ({ s with consumer := if s.m_svcActive then .check else .ended }, .silent)
  | .check => some ({ s with consumer := if s.IsReady then .consume else .top }, .silent)
  | .submit uri =>
    if s.memory ptr = none then
      some ({ s with
        memory := Function.update s.memory ptr (some uri)
        consumer := .put ptr }, .silent)
    else none
  | .put worker => some ({ s with taskList := s.taskList.put worker, consumer := .top }, .queued)
  | .consume | .ended => none

/-- `get`, with the worker looked at. -/
def get (thread : I) : State I P × Event I :=
  let (taskList, event) := s.taskList.tryGet .get
  let s := { s with taskList := taskList }
  match event with
  | .returned _ (some worker) =>
    match s.memory worker with
    | some uri => (s.setProcessor thread (.work worker), .taken thread uri)
    | none => (s, .fault)
  | .returned _ none => (s.setProcessor thread .ended, .silent)
  | .wait _ => (s.setProcessor thread .waiting, .silent)
  | _ => (s, .fault)

def answer (thread : I) (fuel : ℕ) (worker : P) : Option (State I P × Event I) :=
  match s.memory worker with
  | some uri =>
    if (ParseUri fuel uri).isSome then
      some (s.setProcessor thread (.delete worker), .answered thread uri)
    else none
  | none => some (s, .fault)

def delete (thread : I) (worker : P) : State I P × Event I :=
  match s.memory worker with
  | some _ =>
    ({ s with memory := Function.update s.memory worker none }.setProcessor thread .top, .silent)
  | none => (s, .fault)

/-- The next step of `main`. -/
def stop : Option (State I P × Event I) :=
  match s.main, s.consumer with
  | .pause, _ => some ({ s with m_svcActive := false, main := .join }, .silent)
  | .join, .ended => some ({ s with taskList := s.taskList.flush, main := .flushed }, .flushed)
  | _, _ => none

def step [Fintype I] : Action I P → Option (State I P × Event I)
  | .consume uri =>
    match s.consumer with
    | .consume => some ({ s with consumer := .submit uri }, .received uri)
    | _ => none
  | .consumer ptr => s.consumerStep ptr
  | .get thread =>
    match s.processor thread with
    | .top | .waiting => some (s.get thread)
    | _ => none
  | .answer thread fuel =>
    match s.processor thread with
    | .work worker => s.answer thread fuel worker
    | _ => none
  | .delete thread =>
    match s.processor thread with
    | .delete worker => some (s.delete thread worker)
    | _ => none
  | .stop => s.stop

end State

end PPView.Server
