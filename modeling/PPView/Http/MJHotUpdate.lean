import Mathlib.Data.Fintype.Basic
import PPView.Library.Runs

/-!
# Hot update of the shared data

`MJHotUpdate` keeps the data that the processors read and replaces it while they run. A processor
takes the pointer before a request (`addSharedDataPtr`) and gives it back afterwards
(`delSharedDataPtr`). The thread of `svc` deletes the old data when no processor has it, asks the
database for the update times of the tables, loads new data and publishes it.

The sections under the read and the write lock are one step each, and so are a reload and a read of
the data. Pointers are of any type. A pointer that has been deleted may be given out again.
-/

namespace PPView.MJHotUpdate

variable {I P D TS : Type*}

/-- A table whose update time is watched. -/
structure MJHotUpdateItem (TS : Type*) where
  database : String
  table : String
  /-- The update time that was known before. -/
  lastTS : TS
  newTS : TS
  needUpdate : Bool

/-- Where the thread of `svc` is. -/
inductive Phase (P : Type*) where
  /-- At the top of the loop. -/
  | sleep
  | poll
  | reload
  /-- Behind `reloadData`, before the data is published. -/
  | publish (ptr : P)

/-- The static members, the memory, and where the threads are. -/
structure State (I P D TS : Type*) where
  sharedDataCur : P
  /-- `none` for `NULL`. -/
  sharedDataNew : Option P
  threadData : I → Option P
  memory : P → Option D
  updateItems : List (MJHotUpdateItem TS)
  phase : Phase P
  /-- Between `addSharedDataPtr` and `delSharedDataPtr`. -/
  serving : I → Bool

/-- What a step shows. `fault` is a use of a pointer that has been deleted. -/
inductive Event (I D : Type*) where
  | add (thread : I)
  | read (thread : I) (data : D)
  | del (thread : I)
  | deleted
  | inUse
  | polled
  | failed
  | reloaded
  | publish (data : D)
  | fault

/-! ## The update times -/

/-- `getUpdateTime`. `answer` has the update times that the queries give, `none` for a query that
fails or gives no row. -/
def getUpdateTime (answer : ℕ → Option TS) (items : List (MJHotUpdateItem TS)) :
    List (MJHotUpdateItem TS) :=
  items.mapIdx fun i item =>
    { item with lastTS := item.newTS, newTS := (answer i).getD item.newTS }

/-- The comparison behind it. -/
def setNeedUpdate [DecidableEq TS] (items : List (MJHotUpdateItem TS)) :
    List (MJHotUpdateItem TS) :=
  items.map fun item => { item with needUpdate := item.lastTS ≠ item.newTS }

/-- What is done when `reloadData` fails. -/
def resetNewTS (items : List (MJHotUpdateItem TS)) : List (MJHotUpdateItem TS) :=
  items.map fun item => { item with newTS := item.lastTS }

/-- `reloadData` of `PPViewUpdate`, on a copy of the data. `Update` is the one of
`PrivateConstData`, with the times between which rows are read, whatever it returns. -/
def reloadData (Update : TS → TS → String → String → D → D) (items : List (MJHotUpdateItem TS))
    (data : D) : D :=
  items.foldl (fun data item =>
    if item.needUpdate then Update item.lastTS item.newTS item.database item.table data
    else data) data

/-! ## Steps -/

inductive Action (I P TS : Type*) where
  | addSharedDataPtr (thread : I)
  | getSharedData (thread : I)
  | delSharedDataPtr (thread : I)
  /-- `svc` wakes up, and deletes the old data if it can. -/
  | wakeUp
  | getUpdateTime (answer : ℕ → Option TS)
  /-- `reloadData` gives `NULL` or a pointer that is free. -/
  | reloadData (ret : Option P)
  | publish

namespace State

variable (Update : TS → TS → String → String → D → D) (s : State I P D TS)

/-- The data that the next request gets. -/
def latest : P := s.sharedDataNew.getD s.sharedDataCur

/-- Whether a processor has the old data. -/
def InUse : Prop := ∃ thread, s.threadData thread = some s.sharedDataCur

variable [DecidableEq P]

instance [Fintype I] : Decidable s.InUse :=
  inferInstanceAs (Decidable (∃ thread, s.threadData thread = some s.sharedDataCur))

variable [DecidableEq I]

def addSharedDataPtr (thread : I) : State I P D TS × Event I D :=
  ({ s with
      threadData := Function.update s.threadData thread (some s.latest),
      serving := Function.update s.serving thread true }, .add thread)

def getSharedData (thread : I) : State I P D TS × Event I D :=
  match (s.threadData thread).bind s.memory with
  | some data => (s, .read thread data)
  | none => (s, .fault)

def delSharedDataPtr (thread : I) : State I P D TS × Event I D :=
  ({ s with
      threadData := Function.update s.threadData thread none,
      serving := Function.update s.serving thread false }, .del thread)

def delete (ptr : P) : State I P D TS :=
  { s with
    memory := Function.update s.memory s.sharedDataCur none,
    sharedDataCur := ptr,
    sharedDataNew := none,
    phase := .poll }

/-- From the top of the loop to `getUpdateTime`. -/
def wakeUp [Fintype I] : State I P D TS × Event I D :=
  match s.updateItems, s.sharedDataNew with
  | [], _ => (s, .inUse)
  | _ :: _, none => ({ s with phase := .poll }, .inUse)
  | _ :: _, some ptr =>
    if s.InUse then (s, .inUse)
    else if (s.memory s.sharedDataCur).isSome then (s.delete ptr, .deleted)
    else (s.delete ptr, .fault)

def poll [DecidableEq TS] (answer : ℕ → Option TS) : State I P D TS × Event I D :=
  let items := setNeedUpdate (MJHotUpdate.getUpdateTime answer s.updateItems)
  ({ s with
      updateItems := items,
      phase := if items.any (·.needUpdate) then .reload else .sleep }, .polled)

def reload (ret : Option P) : State I P D TS × Event I D :=
  match ret, s.memory s.sharedDataCur with
  | none, _ => ({ s with updateItems := resetNewTS s.updateItems, phase := .sleep }, .failed)
  | some ptr, some data =>
    let data' := MJHotUpdate.reloadData Update s.updateItems data
    ({ s with memory := Function.update s.memory ptr (some data'), phase := .publish ptr },
      .reloaded)
  | some _, none => (s, .fault)

def publish (ptr : P) : State I P D TS × Event I D :=
  let s' := { s with sharedDataNew := some ptr, phase := .sleep }
  match s.memory ptr with
  | some data => (s', .publish data)
  | none => (s', .fault)

/-- One step of a thread, if it can take it. -/
def step [Fintype I] [DecidableEq TS] :
    Action I P TS → Option (State I P D TS × Event I D)
  | .addSharedDataPtr thread =>
    if s.serving thread then none else some (s.addSharedDataPtr thread)
  | .getSharedData thread => if s.serving thread then some (s.getSharedData thread) else none
  | .delSharedDataPtr thread =>
    if s.serving thread then some (s.delSharedDataPtr thread) else none
  | .wakeUp =>
    match s.phase with
    | .sleep => some s.wakeUp
    | _ => none
  | .getUpdateTime answer =>
    match s.phase with
    | .poll => some (s.poll answer)
    | _ => none
  | .reloadData ret =>
    match s.phase with
    | .reload => if ∃ ptr ∈ ret, (s.memory ptr).isSome then none else some (s.reload Update ret)
    | _ => none
  | .publish =>
    match s.phase with
    | .publish ptr => some (s.publish ptr)
    | _ => none

variable {Update s}

/-- What a step can be. -/
theorem step_cases [Fintype I] [DecidableEq TS] {action : Action I P TS}
    {s' : State I P D TS} {e : Event I D} (h : s.step Update action = some (s', e)) :
    (∃ thread, s.serving thread = false ∧ s.addSharedDataPtr thread = (s', e)) ∨
      (∃ thread, s.serving thread = true ∧ s.getSharedData thread = (s', e)) ∨
      (∃ thread, s.serving thread = true ∧ s.delSharedDataPtr thread = (s', e)) ∨
      (s.phase = .sleep ∧ s.wakeUp = (s', e)) ∨
      (∃ answer, s.phase = .poll ∧ s.poll answer = (s', e)) ∨
      (∃ ret, s.phase = .reload ∧ (¬∃ ptr ∈ ret, (s.memory ptr).isSome) ∧
        s.reload Update ret = (s', e)) ∨
      ∃ ptr, s.phase = .publish ptr ∧ s.publish ptr = (s', e) := by
  cases action with
  | addSharedDataPtr thread => exact .inl ⟨thread, by simpa [step] using h⟩
  | getSharedData thread => exact .inr (.inl ⟨thread, by simpa [step] using h⟩)
  | delSharedDataPtr thread => exact .inr (.inr (.inl ⟨thread, by simpa [step] using h⟩))
  | wakeUp =>
    cases hphase : s.phase with
    | sleep => exact .inr (.inr (.inr (.inl ⟨rfl, by simpa [step, hphase] using h⟩)))
    | _ => simp [step, hphase] at h
  | getUpdateTime answer =>
    cases hphase : s.phase with
    | poll =>
      exact .inr (.inr (.inr (.inr (.inl ⟨answer, rfl, by simpa [step, hphase] using h⟩))))
    | _ => simp [step, hphase] at h
  | reloadData ret =>
    cases hphase : s.phase with
    | reload =>
      simp only [step, hphase] at h
      split_ifs at h with hret
      exact .inr (.inr (.inr (.inr (.inr (.inl ⟨ret, rfl, hret, Option.some.inj h⟩)))))
    | _ => simp [step, hphase] at h
  | publish =>
    cases hphase : s.phase with
    | publish ptr =>
      exact .inr (.inr (.inr (.inr (.inr (.inr ⟨ptr, rfl, by simpa [step, hphase] using h⟩)))))
    | _ => simp [step, hphase] at h

end State

end PPView.MJHotUpdate
