import Mathlib.Algebra.BigOperators.Group.Finset.Piecewise
import Mathlib.Algebra.Order.BigOperators.Group.Finset
import PPView.Server.TaskRuns

/-!
# What the server answers

However its threads are interleaved, the server loses no request that it has received and answers
none twice. A request that begins with `&` is never answered, and the thread that has taken it does
nothing else any more. As many of them as there are threads stop the server.
-/

namespace PPView.Server

open Threads MQQueryProcessor

variable {I P : Type*}

/-! ## Traces -/

def Event.received? : Event I → Option Str
  | .received uri => some uri
  | _ => none

def Event.taken? : Event I → Option (I × Str)
  | .taken thread uri => some (thread, uri)
  | _ => none

def Event.answered? : Event I → Option (I × Str)
  | .answered thread uri => some (thread, uri)
  | _ => none

/-- The requests that have been received, the oldest first. -/
def received (trace : List (Event I)) : List Str := trace.filterMap Event.received?

/-- The requests that have been taken out of the list, with the threads. -/
def taken (trace : List (Event I)) : List (I × Str) := trace.filterMap Event.taken?

def answered (trace : List (Event I)) : List (I × Str) := trace.filterMap Event.answered?

variable [DecidableEq I] {limit : ℕ} {trace : List (Event I)} {e : Event I}

/-- What one thread has to do with. -/
def ofThread (thread : I) (pairs : List (I × Str)) : List Str :=
  pairs.filterMap fun pair => if pair.1 = thread then some pair.2 else none

section Concat

omit [DecidableEq I]

theorem received_concat : received (trace ++ [e]) = received trace ++ e.received?.toList := by
  cases e <;> simp [received, Event.received?]

theorem taken_concat : taken (trace ++ [e]) = taken trace ++ e.taken?.toList := by
  cases e <;> simp [taken, Event.taken?]

theorem answered_concat : answered (trace ++ [e]) = answered trace ++ e.answered?.toList := by
  cases e <;> simp [answered, Event.answered?]

end Concat

/-! ## The queue of requests -/

/-- Requests are taken in the order in which they come. -/
theorem received_eq (h : (jobs I limit).Legal trace) :
    received trace = (taken trace).map Prod.snd ++
      (((jobs I limit).after trace).queue ++ ((jobs I limit).after trace).held.toList) := by
  induction trace using List.reverseRecOn with
  | nil => rfl
  | append_singleton trace e ih =>
    obtain ⟨htrace, he⟩ := Spec.legal_concat.mp h
    rw [received_concat, taken_concat, Spec.after_concat, ih htrace]
    generalize (jobs I limit).after trace = q at he ⊢
    cases e with
    | received uri =>
      have hheld : q.held = none := he.2.1
      simp [jobs, Event.received?, Event.taken?, hheld]
    | taken thread uri =>
      obtain ⟨rest, hqueue⟩ := List.head?_eq_some_iff.mp he.2.2
      simp [jobs, Event.received?, Event.taken?, hqueue]
    | _ => simp [jobs, Event.received?, Event.taken?]

/-- A thread answers what it has taken, and nothing else until then. -/
theorem ofThread_taken (h : (jobs I limit).Legal trace) (thread : I) :
    ofThread thread (taken trace) = ofThread thread (answered trace) ++
      (((jobs I limit).after trace).inWork thread).toList := by
  induction trace using List.reverseRecOn with
  | nil => rfl
  | append_singleton trace e ih =>
    obtain ⟨htrace, he⟩ := Spec.legal_concat.mp h
    have ih := ih htrace
    rw [taken_concat, answered_concat, Spec.after_concat]
    unfold ofThread at ih ⊢
    rw [List.filterMap_append, List.filterMap_append, ih]
    generalize (jobs I limit).after trace = q at he ⊢
    cases e with
    | taken t uri =>
      rcases eq_or_ne t thread with rfl | hne
      · simp [jobs, Event.taken?, Event.answered?, he.2.1]
      · simp [jobs, Event.taken?, Event.answered?, hne, hne.symm]
    | answered t uri =>
      rcases eq_or_ne t thread with rfl | hne
      · simp [jobs, Event.taken?, Event.answered?, he.1]
      · simp [jobs, Event.taken?, Event.answered?, hne, hne.symm]
    | _ => simp [jobs, Event.taken?, Event.answered?]

/-- What is received fits into the list. -/
theorem queue_length_le (h : (jobs I limit).Legal trace) :
    ((jobs I limit).after trace).queue.length + ((jobs I limit).after trace).held.toList.length ≤
      limit + 1 := by
  refine Spec.Legal.invariant (fun q => q.queue.length + q.held.toList.length ≤ limit + 1)
    (by simp [jobs]) (fun q e hq he => ?_) h
  cases e with
  | received uri =>
    have hle : q.queue.length ≤ limit := he.2.2
    simp [jobs]
    omega
  | queued =>
    simp [jobs]
    omega
  | taken thread uri =>
    simp [jobs]
    omega
  | _ => simpa [jobs] using hq

omit [DecidableEq I] in
theorem count_eq_sum [Fintype I] [DecidableEq I] (pairs : List (I × Str)) (uri : Str) :
    (pairs.map Prod.snd).count uri = ∑ thread, (ofThread thread pairs).count uri := by
  induction pairs with
  | nil => simp [ofThread]
  | cons pair pairs ih =>
    have hcons (thread : I) : (ofThread thread (pair :: pairs)).count uri =
        (ofThread thread pairs).count uri + if pair.1 = thread ∧ pair.2 = uri then 1 else 0 := by
      unfold ofThread
      by_cases hthread : pair.1 = thread <;> by_cases huri : pair.2 = uri <;>
        simp [hthread, huri]
    simp only [hcons, Finset.sum_add_distrib, List.map_cons, List.count_cons, ih]
    by_cases huri : pair.2 = uri <;> simp [huri]

theorem count_answered_le [Fintype I] (h : (jobs I limit).Legal trace) (uri : Str) :
    ((answered trace).map Prod.snd).count uri ≤ (received trace).count uri := by
  calc ((answered trace).map Prod.snd).count uri
      = ∑ thread, (ofThread thread (answered trace)).count uri := count_eq_sum _ _
    _ ≤ ∑ thread, (ofThread thread (taken trace)).count uri := by
      refine Finset.sum_le_sum fun thread _ => ?_
      rw [ofThread_taken h, List.count_append]
      exact Nat.le_add_right _ _
    _ = ((taken trace).map Prod.snd).count uri := (count_eq_sum _ _).symm
    _ ≤ (received trace).count uri := by
      rw [received_eq h, List.count_append]
      exact Nat.le_add_right _ _

/-! ## Runs -/

/-- The request that the consumer has. -/
def State.held (s : State I P) : Option Str :=
  match s.consumer with
  | .submit uri => some uri
  | .put worker => s.memory worker
  | _ => none

/-- The request that a processor works on. -/
def State.inWork (s : State I P) (thread : I) : Option Str :=
  match s.processor thread with
  | .work worker => s.memory worker
  | _ => none

variable [Fintype I]

/-- The server behind the events of `trace`, with the workers `nodes` and their requests in the
list, the newest node first. -/
structure IsService (nodes : List P) (queue : List Str) (s : State I P) (trace : List (Event I)) :
    Prop where
  /-- No worker is used behind its deletion, and none is deleted twice. -/
  noFault : .fault ∉ trace
  list : s.taskList.list.Represents nodes
  num : s.taskList.num = nodes.length
  requests : nodes.reverse.map s.memory = queue.map some
  /-- No request is lost, and they are taken in the order in which they came. -/
  fifo : received trace = (taken trace).map Prod.snd ++ (queue ++ s.held.toList)
  /-- A thread answers what it has taken before it takes anything else. -/
  byThread : ∀ thread, ofThread thread (taken trace) =
    ofThread thread (answered trace) ++ (s.inWork thread).toList
  once : ∀ uri, ((answered trace).map Prod.snd).count uri ≤ (received trace).count uri
  room : queue.length + s.held.toList.length ≤ Fintype.card I * 3 + 1
  /-- A worker that has not been deleted is in the list or has a thread. -/
  live : ∀ p, (s.memory p).isSome ↔ p ∈ nodes ∨ s.consumer.worker = some p ∨
    ∃ thread, (s.processor thread).worker = some p

variable [DecidableEq P]

theorem server_isService {s : State I P} (h : (server I P).Run s trace) :
    ∃ nodes queue, IsService nodes queue s trace := by
  obtain ⟨hlegal, nodes, owner, himplements⟩ := server_simulates.run h
  have hheld : ((jobs I (Fintype.card I * 3)).after trace).held = s.held := himplements.held
  have hinWork (thread : I) : ((jobs I (Fintype.card I * 3)).after trace).inWork thread =
      s.inWork thread := himplements.inWork thread
  refine ⟨nodes, _, hlegal.not_mem fun q hq => hq, himplements.list.ring, himplements.list.num,
    himplements.queue, hheld ▸ received_eq hlegal, fun thread => ?_, count_answered_le hlegal,
    hheld ▸ queue_length_le hlegal, fun p => ?_⟩
  · rw [ofThread_taken hlegal, hinWork]
  · rw [himplements.memory, ← himplements.ownTaskList, ← himplements.ownConsumer]
    simp only [← himplements.ownProcessor]
    cases owner p with
    | none => simp
    | some o => cases o <;> simp

/-- The server with one thread, behind its start. -/
def startOne : State Unit Bool :=
  ⟨WaitList.init ⟨id, id⟩, fun _ => none, true, .top, fun _ => .top, .pause⟩

theorem run_startOne : (server Unit Bool).Run startOne [] :=
  .start ⟨⟨_, rfl⟩, fun _ => rfl, rfl, fun _ => rfl, rfl⟩

/-- Two requests are received while one thread works on the first. -/
theorem server_isService_two : ∃ (nodes : List Bool) (queue : List Str) (s : State Unit Bool),
    IsService nodes queue s [.silent, .silent, .received [97], .silent, .queued, .taken () [97],
      .silent, .silent, .received [98], .answered () [97]] := by
  have hready := (run_startOne.step ⟨.consumer true, rfl⟩).step ⟨.consumer true, rfl⟩
  have hqueued := ((hready.step ⟨.consume [97], rfl⟩).step ⟨.consumer true, rfl⟩).step
    ⟨.consumer true, rfl⟩
  have htaken := hqueued.step ⟨.get (), rfl⟩
  have hready := (htaken.step ⟨.consumer true, rfl⟩).step ⟨.consumer true, rfl⟩
  have hanswered := (hready.step ⟨.consume [98], rfl⟩).step ⟨.answer () 0, rfl⟩
  obtain ⟨nodes, queue, h⟩ := server_isService hanswered
  exact ⟨nodes, queue, _, h⟩

/-! ## Requests that stop the server -/

/-- `ParseUri` does not end. -/
def Endless (uri : Str) : Prop := uri.head? = some amp

instance (uri : Str) : Decidable (Endless uri) := inferInstanceAs (Decidable (_ = _))

theorem not_endless {uri : Str} (h : ∃ fuel, (ParseUri fuel uri).isSome) : ¬Endless uri := by
  obtain ⟨fuel, hparse⟩ := h
  intro huri
  simp [ParseUri_eq_none huri] at hparse

/-- The threads that do not come back. -/
def Jobs.stuck (q : Jobs I) : Finset I :=
  Finset.univ.filter fun thread => ∃ uri ∈ q.inWork thread, Endless uri

omit [DecidableEq I] in
theorem Jobs.mem_stuck {q : Jobs I} {thread : I} :
    thread ∈ q.stuck ↔ ∃ uri ∈ q.inWork thread, Endless uri := by
  simp [Jobs.stuck]

/-- One more thread for each such request that is taken. -/
theorem stuck_next {q : Jobs I} (he : (jobs I limit).Allows q e) :
    ((jobs I limit).next q e).stuck.card =
      q.stuck.card + e.taken?.toList.countP fun pair => Endless pair.2 := by
  cases e with
  | taken thread uri =>
    have hidle : q.inWork thread = none := he.2.1
    by_cases huri : Endless uri
    · have hnotMem : thread ∉ q.stuck := by simp [Jobs.mem_stuck, hidle]
      have hinsert : ((jobs I limit).next q (.taken thread uri)).stuck = insert thread q.stuck := by
        ext t
        rcases eq_or_ne t thread with rfl | hne <;> simp_all [Jobs.mem_stuck, jobs]
      rw [hinsert, Finset.card_insert_of_notMem hnotMem]
      simp [Event.taken?, huri]
    · have hsame : ((jobs I limit).next q (.taken thread uri)).stuck = q.stuck := by
        ext t
        rcases eq_or_ne t thread with rfl | hne <;> simp_all [Jobs.mem_stuck, jobs]
      rw [hsame]
      simp [Event.taken?, huri]
  | answered thread uri =>
    have huri := not_endless he.2
    have hsame : ((jobs I limit).next q (.answered thread uri)).stuck = q.stuck := by
      ext t
      rcases eq_or_ne t thread with rfl | hne
      · have hwork : q.inWork t = some uri := he.1
        simp [Jobs.mem_stuck, jobs, hwork, huri]
      · simp [Jobs.mem_stuck, jobs, hne]
    rw [hsame]
    simp [Event.taken?]
  | _ => simp [jobs, Event.taken?, Jobs.stuck]

theorem card_stuck (h : (jobs I limit).Legal trace) :
    ((jobs I limit).after trace).stuck.card =
      (taken trace).countP fun pair => Endless pair.2 := by
  induction trace using List.reverseRecOn with
  | nil => simp [Jobs.stuck, jobs, taken]
  | append_singleton trace e ih =>
    obtain ⟨htrace, he⟩ := Spec.legal_concat.mp h
    rw [Spec.after_concat, stuck_next he, ih htrace, taken_concat, List.countP_append]

/-- When no thread comes back, nothing is taken or answered any more. -/
theorem stuck_behind {before behind : List (Event I)}
    (hstuck : ((jobs I limit).after before).stuck = Finset.univ)
    (h : (jobs I limit).Legal (before ++ behind)) :
    taken behind = [] ∧ answered behind = [] ∧
      ((jobs I limit).after (before ++ behind)).stuck = Finset.univ := by
  induction behind using List.reverseRecOn with
  | nil => exact ⟨rfl, rfl, by simpa using hstuck⟩
  | append_singleton behind e ih =>
    rw [← List.append_assoc] at h ⊢
    obtain ⟨hbehind, he⟩ := Spec.legal_concat.mp h
    obtain ⟨htaken, hanswered, hstuck⟩ := ih hbehind
    rw [taken_concat, answered_concat, htaken, hanswered, Spec.after_concat]
    generalize (jobs I limit).after (before ++ behind) = q at he hstuck ⊢
    have hthread (thread : I) : ∃ uri ∈ q.inWork thread, Endless uri :=
      Jobs.mem_stuck.mp (by rw [hstuck]; exact Finset.mem_univ thread)
    cases e with
    | taken thread uri =>
      obtain ⟨uri', hwork, -⟩ := hthread thread
      have hidle : q.inWork thread = none := he.2.1
      simp [hidle] at hwork
    | answered thread uri =>
      obtain ⟨uri', hwork, hendless⟩ := hthread thread
      have heq : q.inWork thread = some uri := he.1
      obtain rfl : uri = uri' := by simpa [heq] using hwork
      exact absurd hendless (not_endless he.2)
    | _ => exact ⟨rfl, rfl, hstuck⟩

/-- As many requests that begin with `&` as there are threads stop the server: from then on
nothing is taken or answered, and no more is received than fits into the list. -/
theorem server_stuck {s : State I P} {before behind : List (Event I)}
    (h : (server I P).Run s (before ++ behind))
    (hcount : (taken before).countP (fun pair => pair.2.head? = some amp) = Fintype.card I) :
    taken behind = [] ∧ answered behind = [] ∧
      (received behind).length ≤ Fintype.card I * 3 + 1 := by
  obtain ⟨hlegal, -⟩ := server_simulates.run h
  have hbefore := hlegal.of_append
  have hstuck : ((jobs I (Fintype.card I * 3)).after before).stuck = Finset.univ := by
    rw [← Finset.card_eq_iff_eq_univ, card_stuck hbefore]
    exact hcount
  obtain ⟨htaken, hanswered, -⟩ := stuck_behind hstuck hlegal
  refine ⟨htaken, hanswered, ?_⟩
  have hreceived := received_eq hlegal
  have hroom := queue_length_le hlegal
  rw [taken, List.filterMap_append, ← taken, ← taken, htaken, List.append_nil,
    received, List.filterMap_append, ← received, ← received, received_eq hbefore] at hreceived
  have hlen := congrArg List.length hreceived
  simp only [List.length_append] at hlen
  omega

/-- What a server with one thread still does when a single request has stopped it. -/
def behindStuck : List (Event Unit) := [.silent, .silent, .received [97], .silent, .queued]

/-- One more request is received, and waits. -/
theorem server_stuck_one : taken behindStuck = [] ∧ answered behindStuck = [] ∧
    (received behindStuck).length ≤ 4 := by
  have hready := (run_startOne.step ⟨.consumer true, rfl⟩).step ⟨.consumer true, rfl⟩
  have hqueued := ((hready.step ⟨.consume [amp], rfl⟩).step ⟨.consumer true, rfl⟩).step
    ⟨.consumer true, rfl⟩
  have htaken := hqueued.step ⟨.get (), rfl⟩
  have hready := (htaken.step ⟨.consumer true, rfl⟩).step ⟨.consumer true, rfl⟩
  have hbehind := ((hready.step ⟨.consume [97], rfl⟩).step ⟨.consumer false, rfl⟩).step
    ⟨.consumer false, rfl⟩
  exact server_stuck (show (server Unit Bool).Run _ ([.silent, .silent, .received [amp], .silent,
    .queued, .taken () [amp]] ++ behindStuck) from hbehind) (by decide)

end PPView.Server
