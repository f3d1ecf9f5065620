import Mathlib.Data.List.Induction
import Mathlib.Data.List.TakeWhile
import PPView.Library.Runs
import PPView.Threads.WaitList

/-!
# Runs of the work queue

A run is any sequence of steps of any threads from the constructor on, in which no node is put
while it is queued. Its trace lists the events, the oldest first. `IsFifo` says that the links and
the counter agree with the trace, and that the trace is one of a queue.
-/

namespace PPView.Threads

variable {I T : Type*} [DecidableEq T]

/-! ## Traces -/

/-- The nodes that the events so far have left in the queue, the newest first. -/
def queued (trace : List (Event T)) : List T := (Fifo.after trace).nodes

/-- The node that is put. -/
def Event.input : Event T → Option T
  | .put node => some node
  | _ => none

/-- The node that is got. -/
def Event.output : Event T → Option T
  | .returned _ ret => ret
  | _ => none

/-- The nodes put before `flush`. -/
def accepted (trace : List (Event T)) : List T :=
  (trace.takeWhile (· ≠ .flush)).filterMap Event.input

/-- The nodes that the threads have got. -/
def delivered (trace : List (Event T)) : List T := trace.filterMap Event.output

/-- Every event is one that the queue allows. -/
def Legal (trace : List (Event T)) : Prop :=
  ∀ before event behind, trace = before ++ event :: behind → (Fifo.after before).Allows event

theorem after_concat (trace : List (Event T)) (event : Event T) :
    Fifo.after (trace ++ [event]) = (Fifo.after trace).next event := by
  simp [Fifo.after]

theorem legal_nil : Legal ([] : List (Event T)) := by
  intro before event behind h
  simp at h

theorem legal_concat {trace : List (Event T)} {event : Event T} :
    Legal (trace ++ [event]) ↔ Legal trace ∧ (Fifo.after trace).Allows event :=
  forall_split_concat

/-- The queue is alive until it is flushed. -/
theorem alive_iff (trace : List (Event T)) : (Fifo.after trace).alive ↔ .flush ∉ trace := by
  induction trace using List.reverseRecOn with
  | nil => simp [Fifo.after]
  | append_singleton trace event ih =>
    rw [after_concat, List.mem_append, List.mem_singleton]
    cases event with
    | put node =>
      rw [Fifo.next]
      split_ifs <;> simpa using ih
    | wait getter => simpa [Fifo.next] using ih
    | returned getter ret => cases ret <;> simpa [Fifo.next] using ih
    | flush => simp [Fifo.next]
    | nullPointer => simpa [Fifo.next] using ih

theorem accepted_concat (trace : List (Event T)) (event : Event T) :
    accepted (trace ++ [event]) =
      accepted trace ++ if (Fifo.after trace).alive then event.input.toList else [] := by
  unfold accepted
  split_ifs with halive
  · have hall : ∀ e ∈ trace, decide (e ≠ .flush) = true := fun e he => by
      have := (alive_iff trace).mp halive
      grind
    rw [List.takeWhile_append_of_pos hall, List.takeWhile_eq_self_iff.mpr hall,
      List.filterMap_append]
    cases event <;> simp [Event.input]
  · -- what comes after `flush` is left out
    have hflush : .flush ∈ trace := by
      by_contra hn
      exact halive ((alive_iff trace).mpr hn)
    have hshort : (trace.takeWhile (· ≠ .flush)).length ≠ trace.length := by
      intro hlen
      have hall := List.takeWhile_eq_self_iff.mp ((List.takeWhile_prefix _).eq_of_length hlen)
      simpa using hall .flush hflush
    rw [List.takeWhile_append, if_neg hshort, List.append_nil]

/-- One event moves a node into the queue or out of it. -/
theorem next_nodes_perm {queue : Fifo T} {event : Event T} (h : queue.Allows event) :
    (event.output.toList ++ (queue.next event).nodes).Perm
      ((if queue.alive then event.input.toList else []) ++ queue.nodes) := by
  cases event with
  | put node =>
    rw [Fifo.next]
    split_ifs <;> exact List.Perm.refl _
  | wait getter => simp [Event.output, Event.input, Fifo.next]
  | returned getter ret =>
    cases ret with
    | none => simp [Event.output, Event.input, Fifo.next]
    | some node =>
      have hperm := (List.perm_cons_erase (Getter.mem_of_pick h.2)).symm
      simpa [Event.output, Event.input, Fifo.next] using hperm
  | flush => simp [Event.output, Event.input, Fifo.next]
  | nullPointer => exact h.elim

/-- What has been put is what has been got and what is left. -/
theorem delivered_queued_perm {trace : List (Event T)} (h : Legal trace) :
    (delivered trace ++ queued trace).Perm (accepted trace) := by
  induction trace using List.reverseRecOn with
  | nil => simp [delivered, queued, accepted, Fifo.after]
  | append_singleton trace event ih =>
    obtain ⟨htrace, hevent⟩ := legal_concat.mp h
    have hstep := next_nodes_perm hevent
    have hdelivered : delivered (trace ++ [event]) = delivered trace ++ event.output.toList := by
      cases heq : event.output <;> simp [delivered, heq]
    rw [accepted_concat, queued, after_concat, hdelivered, List.append_assoc]
    refine (hstep.append_left _).trans (List.perm_append_comm_assoc _ _ _ |>.trans ?_)
    exact (List.perm_append_comm.trans ((ih htrace).append_right _))

theorem not_delivered_of_flush {before behind : List (Event T)}
    (h : Legal (before ++ .flush :: behind)) (getter : Getter) (node : T) :
    .returned getter (some node) ∉ behind := by
  intro hmem
  obtain ⟨front, back, rfl⟩ := List.append_of_mem hmem
  have hallows := h (before ++ .flush :: front) (.returned getter (some node)) back (by simp)
  exact absurd ((alive_iff _).mp hallows.1) (by simp)

/-! ## Runs -/

variable [DecidableEq I]

/-- Runs from the constructor on. Only nodes that are not queued are put. -/
inductive Run (memory : LinkedList T) : State I T → List (Event T) → Prop
  | init : Run memory (State.init memory) []
  | step {s s' : State I T} {trace : List (Event T)} {event : Event T} (action : Action I T)
      (run : Run memory s trace)
      (hput : ∀ thread node, action = .put thread node → node ∉ queued trace)
      (hstep : s.step action = some (s', event)) : Run memory s' (trace ++ [event])

/-- What a thread does to the queue is the same on the first try and after waiting. -/
theorem State.tryGet_implements {s s' : State I T} {queue : Fifo T} {thread : I} {getter : Getter}
    {event : Event T} (h : Implements s.waitList queue)
    (heq : s.tryGet thread getter = (s', event)) :
    queue.Allows event ∧ Implements s'.waitList (queue.next event) := by
  obtain ⟨rfl, rfl⟩ := Prod.mk.inj heq
  exact Threads.tryGet_implements h getter

/-- A thread puts a node, looks at the queue, gives up in time, or flushes. -/
theorem State.step_cases {s s' : State I T} {action : Action I T} {event : Event T}
    (hstep : s.step action = some (s', event)) :
    (∃ thread node, action = .put thread node ∧ s.waiting thread = none ∧
      s' = { s with waitList := s.waitList.put node } ∧ event = .put node) ∨
    (∃ thread getter, (action = .call thread getter ∧ s.waiting thread = none ∨
      action = .wake thread ∧ s.waiting thread = some getter) ∧
      s.tryGet thread getter = (s', event)) ∨
    (∃ thread, action = .timeout thread ∧ s.waiting thread = some .getUntil ∧
      s' = { s with waiting := Function.update s.waiting thread none } ∧
      event = .returned .getUntil none) ∨
    ∃ thread, action = .flush thread ∧ s.waiting thread = none ∧
      s' = { s with waitList := s.waitList.flush } ∧ event = .flush := by
  cases action with
  | put thread node =>
    obtain ⟨hidle, rfl, rfl⟩ : s.waiting thread = none ∧ _ = s' ∧ _ = event := by
      simpa [State.step] using hstep
    exact .inl ⟨thread, node, rfl, hidle, rfl, rfl⟩
  | call thread getter =>
    obtain ⟨hidle, heq⟩ : s.waiting thread = none ∧ s.tryGet thread getter = (s', event) := by
      simpa [State.step] using hstep
    exact .inr (.inl ⟨thread, getter, .inl ⟨rfl, hidle⟩, heq⟩)
  | wake thread =>
    obtain ⟨getter, hwaiting, heq⟩ : ∃ getter, s.waiting thread = some getter ∧
        s.tryGet thread getter = (s', event) := by
      simpa [State.step] using hstep
    exact .inr (.inl ⟨thread, getter, .inr ⟨rfl, hwaiting⟩, heq⟩)
  | timeout thread =>
    obtain ⟨hwaiting, rfl, rfl⟩ : s.waiting thread = some .getUntil ∧ _ = s' ∧ _ = event := by
      simpa [State.step] using hstep
    exact .inr (.inr (.inl ⟨thread, rfl, hwaiting, rfl, rfl⟩))
  | flush thread =>
    obtain ⟨hidle, rfl, rfl⟩ : s.waiting thread = none ∧ _ = s' ∧ _ = event := by
      simpa [State.step] using hstep
    exact .inr (.inr (.inr ⟨thread, rfl, hidle, rfl, rfl⟩))

/-- Each step of a thread is one that the queue allows, and keeps the code in step with it. -/
theorem step_implements {s s' : State I T} {queue : Fifo T} {action : Action I T}
    {event : Event T} (h : Implements s.waitList queue)
    (hput : ∀ thread node, action = .put thread node → node ∉ queue.nodes)
    (hstep : s.step action = some (s', event)) :
    queue.Allows event ∧ Implements s'.waitList (queue.next event) := by
  obtain ⟨thread, node, haction, -, rfl, rfl⟩ | ⟨thread, getter, -, heq⟩ |
    ⟨thread, -, -, rfl, rfl⟩ | ⟨thread, -, -, rfl, rfl⟩ := State.step_cases hstep
  · exact ⟨trivial, put_implements h (hput thread node haction)⟩
  · exact State.tryGet_implements h heq
  · exact ⟨.inr rfl, h⟩
  · exact ⟨trivial, flush_implements h⟩

theorem State.tryGet_waiting (s : State I T) (thread : I) (getter : Getter) :
    (s.tryGet thread getter).1.waiting = Function.update s.waiting thread
      (if (s.tryGet thread getter).2 = .wait getter then some getter else none) := rfl

/-- A thread begins to wait when it looks at the queue. -/
theorem step_waiting {s s' : State I T} {action : Action I T} {event : Event T}
    (hstep : s.step action = some (s', event)) {thread : I} {getter : Getter}
    (hwaiting : s'.waiting thread = some getter) :
    s.waiting thread = some getter ∨ event = .wait getter := by
  obtain ⟨other, node, -, -, rfl, rfl⟩ | ⟨other, asked, -, heq⟩ | ⟨other, -, -, rfl, rfl⟩ |
    ⟨other, -, -, rfl, rfl⟩ := State.step_cases hstep
  · exact .inl hwaiting
  · have hs' := s.tryGet_waiting other asked
    simp only [heq] at hs'
    rw [hs'] at hwaiting
    rcases eq_or_ne thread other with rfl | hthread
    · rw [Function.update_self] at hwaiting
      split_ifs at hwaiting with hwait
      obtain rfl := Option.some.inj hwaiting
      exact .inr hwait
    · exact .inl (by simpa [hthread] using hwaiting)
  · rcases eq_or_ne thread other with rfl | hthread
    · simp at hwaiting
    · exact .inl (by simpa [hthread] using hwaiting)
  · exact .inl hwaiting

/-- `NULL` is returned by a queue that is flushed, or in time by a thread that waits. -/
theorem step_null {s s' : State I T} {action : Action I T} {getter : Getter}
    (hstep : s.step action = some (s', .returned getter none)) :
    s.waitList.alive = false ∨
      getter = .getUntil ∧ ∃ thread, s.waiting thread = some getter := by
  obtain ⟨thread, node, -, -, -, hevent⟩ | ⟨thread, asked, -, heq⟩ |
    ⟨thread, -, hwaiting, -, hevent⟩ | ⟨thread, -, -, -, hevent⟩ := State.step_cases hstep
  · cases hevent
  · have hevent : (s.waitList.tryGet asked).2 = .returned getter none := (Prod.mk.inj heq).2
    rw [WaitList.tryGet] at hevent
    split_ifs at hevent with hwait halive
    · split at hevent <;> simp at hevent
    · exact .inl (by simpa using halive)
  · obtain ⟨rfl, -⟩ := Event.returned.inj hevent
    exact .inr ⟨rfl, thread, hwaiting⟩
  · cases hevent

theorem run_implements {memory : LinkedList T} {s : State I T} {trace : List (Event T)}
    (h : Run memory s trace) : Legal trace ∧ Implements s.waitList (Fifo.after trace) := by
  induction h with
  | init => exact ⟨legal_nil, init_implements memory⟩
  | step action run hput hstep ih =>
    obtain ⟨hallows, himplements⟩ := step_implements ih.2 hput hstep
    rw [after_concat]
    exact ⟨legal_concat.mpr ⟨ih.1, hallows⟩, himplements⟩

/-- A thread that waits has looked at the queue, found it empty, and shown it. -/
theorem run_waiting {memory : LinkedList T} {s : State I T} {trace : List (Event T)}
    (h : Run memory s trace) {thread : I} {getter : Getter}
    (hwaiting : s.waiting thread = some getter) : .wait getter ∈ trace := by
  induction h with
  | init => simp [State.init] at hwaiting
  | @step s s' trace event action run hput hstep ih =>
    rw [List.mem_append, List.mem_singleton]
    rcases step_waiting hstep hwaiting with hbefore | rfl
    · exact .inl (ih hbefore)
    · exact .inr rfl

/-- `NULL` is for a thread that finds the queue flushed, or that has waited for its time. -/
theorem run_null {memory : LinkedList T} {s : State I T} {trace : List (Event T)}
    (h : Run memory s trace) {before behind : List (Event T)} {getter : Getter}
    (heq : trace = before ++ .returned getter none :: behind) :
    .flush ∈ before ∨ getter = .getUntil ∧ .wait getter ∈ before := by
  induction h generalizing behind with
  | init => simp at heq
  | @step s s' trace event action run hput hstep ih =>
    rcases split_concat heq with ⟨rfl, rfl⟩ | ⟨behind', -, heq'⟩
    · rcases step_null hstep with halive | ⟨hgetter, thread, hwaiting⟩
      · rw [(run_implements run).2.alive] at halive
        have := (alive_iff trace).not.mp (by simp [halive])
        exact .inl (not_not.mp this)
      · exact .inr ⟨hgetter, run_waiting run hwaiting⟩
    · exact ih heq'

/-- The queue of the code after the events of `trace`. -/
structure IsFifo (waitList : WaitList T) (trace : List (Event T)) : Prop where
  /-- The ring is the list of what is queued. -/
  ring : waitList.list.Represents (queued trace)
  inverse : ∀ n ∈ none :: (queued trace).map some,
    waitList.list.prev (waitList.list.next n) = n ∧ waitList.list.next (waitList.list.prev n) = n
  num : waitList.num = (queued trace).length
  /-- Whoever looks at the queue next gets what a queue gives: the node of its end, or `NULL` when
  the queue is flushed, and waits only for an empty one. -/
  answers : ∀ getter, (waitList.tryGet getter).2 = (Fifo.after trace).answer getter
  /-- So did everybody before. -/
  legal : Legal trace
  /-- A node that is got is the oldest one, or the newest one for `get_from_head`. -/
  order : ∀ before getter node behind,
    trace = before ++ .returned getter (some node) :: behind →
      getter.pick (queued before) = some node
  waits : ∀ before getter behind, trace = before ++ .wait getter :: behind →
    .flush ∉ before ∧ queued before = []
  null : ∀ before getter behind, trace = before ++ .returned getter none :: behind →
    .flush ∈ before ∨ getter = .getUntil ∧ .wait getter ∈ before
  /-- What has been put before `flush` has been got once or is left. -/
  once : (delivered trace ++ queued trace).Perm (accepted trace)
  flushed : ∀ before behind, trace = before ++ .flush :: behind →
    ∀ getter node, .returned getter (some node) ∉ behind
  noFault : .nullPointer ∉ trace

/-- In every run the ring and the counter are those of a queue, and the threads get what a queue
gives them. -/
theorem run_isFifo {memory : LinkedList T} {s : State I T} {trace : List (Event T)}
    (h : Run memory s trace) : IsFifo s.waitList trace := by
  obtain ⟨hlegal, himplements⟩ := run_implements h
  refine ⟨himplements.ring, Links.IsRing.inverse himplements.ring, himplements.num,
    tryGet_answer himplements, hlegal, ?_, ?_, ?_, delivered_queued_perm hlegal, ?_, ?_⟩
  · intro before getter node behind heq
    exact (hlegal before _ behind heq).2
  · intro before getter behind heq
    obtain ⟨halive, hempty⟩ := hlegal before _ behind heq
    exact ⟨(alive_iff before).mp halive, hempty⟩
  · intro before getter behind heq
    exact run_null h heq
  · rintro before behind rfl
    exact not_delivered_of_flush hlegal
  · intro hmem
    obtain ⟨before, behind, heq⟩ := List.append_of_mem hmem
    exact hlegal before _ behind heq

/-- A thread waits until two nodes are put, and gets the first one; behind `flush` the other one
stays in the queue. -/
theorem run_isFifo_two : ∃ s : State Bool ℕ,
    IsFifo s.waitList [.wait .getUntil, .put 1, .put 2, .returned .getUntil (some 1), .flush,
      .returned .getFromHead none] := by
  have hstart : Run ⟨id, id⟩ (State.init ⟨id, id⟩ : State Bool ℕ) [] := Run.init
  have hwait : Run ⟨id, id⟩ _ [.wait .getUntil] :=
    hstart.step (.call false .getUntil) (by simp) rfl
  have hone := hwait.step (.put true 1) (by simp [queued, Fifo.after, Fifo.next]) rfl
  have htwo := hone.step (.put true 2) (by simp [queued, Fifo.after, Fifo.next]) rfl
  have hget := htwo.step (.wake false) (by simp) rfl
  have hflush := hget.step (.flush true) (by simp) rfl
  have hnull := hflush.step (.call false .getFromHead) (by simp) rfl
  exact ⟨_, run_isFifo hnull⟩

end PPView.Threads
