import PPView.Http.MJHotUpdate

/-!
# What the processors see

Seen from the processors, the shared data is one register. A request reads the data that was
published last before it began, and nothing else until its end, and it never reads deleted data.
At most two data sets are kept, besides one that is being loaded, and none is lost.
-/

namespace PPView.MJHotUpdate

variable {I P D TS : Type*}

/-! ## The register -/

structure Snapshots (I D : Type*) where
  latest : D
  /-- What a request is answered with. -/
  snapshot : I → Option D

/-- The register, with `data` in it at first. -/
def snapshots [DecidableEq I] (data : D) : Spec (Snapshots I D) (Event I D) where
  start := ⟨data, fun _ => none⟩
  next
    | q, .add thread => { q with snapshot := Function.update q.snapshot thread (some q.latest) }
    | q, .del thread => { q with snapshot := Function.update q.snapshot thread none }
    | q, .publish data => { q with latest := data }
    | q, _ => q
  Allows
    | q, .add thread => q.snapshot thread = none
    | q, .read thread data => q.snapshot thread = some data
    | q, .del thread => q.snapshot thread ≠ none
    | _, .fault => False
    | _, _ => True

/-! ## The code is a register -/

/-- The pointers that have not been deleted. -/
def State.Kept (s : State I P D TS) (ptr : P) : Prop :=
  ptr = s.sharedDataCur ∨ s.sharedDataNew = some ptr ∨ s.phase = .publish ptr

structure Implements (s : State I P D TS) (q : Snapshots I D) : Prop where
  kept : ∀ ptr, (s.memory ptr).isSome ↔ s.Kept ptr
  new_ne : s.sharedDataNew ≠ some s.sharedDataCur
  /-- There is no room for new data but at the top of the loop. -/
  new : s.phase ≠ .sleep → s.sharedDataNew = none
  publish_ne : s.phase ≠ .publish s.sharedDataCur
  latest : s.memory s.latest = some q.latest
  idle : ∀ thread, s.serving thread = false →
    s.threadData thread = none ∧ q.snapshot thread = none
  busy : ∀ thread, s.serving thread = true → ∃ ptr data, s.threadData thread = some ptr ∧
    (ptr = s.sharedDataCur ∨ s.sharedDataNew = some ptr) ∧
    q.snapshot thread = some data ∧ s.memory ptr = some data

variable {s : State I P D TS} {q : Snapshots I D} {thread : I}

theorem Implements.cur_isSome (h : Implements s q) : (s.memory s.sharedDataCur).isSome :=
  (h.kept _).mpr (.inl rfl)

theorem Implements.latest_eq_cur (h : Implements s q) (hphase : s.phase ≠ .sleep) :
    s.latest = s.sharedDataCur := by
  rw [State.latest, h.new hphase, Option.getD_none]

theorem Implements.latest_shared (s : State I P D TS) :
    s.latest = s.sharedDataCur ∨ s.sharedDataNew = some s.latest := by
  unfold State.latest
  cases s.sharedDataNew with
  | none => exact .inl rfl
  | some ptr => exact .inr rfl

/-- A change of the phase and of the update times alone. -/
theorem Implements.of_shared (h : Implements s q) {items : List (MJHotUpdateItem TS)}
    {phase : Phase P} (hnew : phase ≠ .sleep → s.sharedDataNew = none)
    (hphase : ∀ ptr, s.phase ≠ .publish ptr) (hphase' : ∀ ptr, phase ≠ .publish ptr) :
    Implements { s with updateItems := items, phase := phase } q := by
  refine ⟨fun ptr => ?_, h.new_ne, hnew, hphase' _, h.latest, h.idle, h.busy⟩
  rw [h.kept]
  simp [State.Kept, hphase, hphase']

variable [DecidableEq I] (data : D)

theorem add_implements (h : Implements s q) (hidle : s.serving thread = false) :
    (snapshots data).Allows q (s.addSharedDataPtr thread).2 ∧
      Implements (s.addSharedDataPtr thread).1
        ((snapshots data).next q (s.addSharedDataPtr thread).2) := by
  refine ⟨(h.idle thread hidle).2, ⟨h.kept, h.new_ne, h.new, h.publish_ne, h.latest, ?_, ?_⟩⟩
  · intro t ht
    obtain rfl | hne := eq_or_ne t thread
    · simp [State.addSharedDataPtr] at ht
    · simpa [State.addSharedDataPtr, snapshots, hne] using
        h.idle t (by simpa [State.addSharedDataPtr, hne] using ht)
  · intro t ht
    obtain rfl | hne := eq_or_ne t thread
    · exact ⟨s.latest, q.latest, by simp [State.addSharedDataPtr], Implements.latest_shared s,
        by simp [State.addSharedDataPtr, snapshots], h.latest⟩
    · simpa [State.addSharedDataPtr, snapshots, hne] using
        h.busy t (by simpa [State.addSharedDataPtr, hne] using ht)

theorem read_implements (h : Implements s q) (hbusy : s.serving thread = true) :
    (snapshots data).Allows q (s.getSharedData thread).2 ∧
      Implements (s.getSharedData thread).1
        ((snapshots data).next q (s.getSharedData thread).2) := by
  obtain ⟨ptr, d, hptr, -, hsnapshot, hmemory⟩ := h.busy thread hbusy
  simp only [State.getSharedData, hptr, Option.bind_some, hmemory]
  exact ⟨hsnapshot, h⟩

theorem del_implements (h : Implements s q) (hbusy : s.serving thread = true) :
    (snapshots data).Allows q (s.delSharedDataPtr thread).2 ∧
      Implements (s.delSharedDataPtr thread).1
        ((snapshots data).next q (s.delSharedDataPtr thread).2) := by
  obtain ⟨-, d, -, -, hsnapshot, -⟩ := h.busy thread hbusy
  refine ⟨?_, ⟨h.kept, h.new_ne, h.new, h.publish_ne, h.latest, ?_, ?_⟩⟩
  · simp [State.delSharedDataPtr, snapshots, hsnapshot]
  · intro t ht
    obtain rfl | hne := eq_or_ne t thread
    · simp [State.delSharedDataPtr, snapshots]
    · simpa [State.delSharedDataPtr, snapshots, hne] using
        h.idle t (by simpa [State.delSharedDataPtr, hne] using ht)
  · intro t ht
    obtain rfl | hne := eq_or_ne t thread
    · simp [State.delSharedDataPtr] at ht
    · simpa [State.delSharedDataPtr, snapshots, hne] using
        h.busy t (by simpa [State.delSharedDataPtr, hne] using ht)

theorem poll_implements [DecidableEq TS] (h : Implements s q) (hphase : s.phase = .poll)
    (answer : ℕ → Option TS) :
    (snapshots data).Allows q (s.poll answer).2 ∧
      Implements (s.poll answer).1 ((snapshots data).next q (s.poll answer).2) := by
  have hnew := h.new (by simp [hphase])
  refine ⟨trivial, h.of_shared (fun _ => hnew) (by simp [hphase]) fun ptr => ?_⟩
  split_ifs <;> simp

theorem publish_implements (h : Implements s q) {ptr : P} (hphase : s.phase = .publish ptr) :
    (snapshots data).Allows q (s.publish ptr).2 ∧
      Implements (s.publish ptr).1 ((snapshots data).next q (s.publish ptr).2) := by
  have hnew := h.new (by simp [hphase])
  obtain ⟨d, hd⟩ := Option.isSome_iff_exists.mp ((h.kept ptr).mpr (.inr (.inr hphase)))
  have hne : ptr ≠ s.sharedDataCur := by
    rintro rfl
    exact h.publish_ne hphase
  simp only [State.publish, hd]
  refine ⟨trivial, ⟨fun p => ?_, by simpa using hne, by simp, by simp, ?_, h.idle, fun t ht => ?_⟩⟩
  · have hkept := h.kept p
    rw [State.Kept, hnew, hphase] at hkept
    simpa [State.Kept] using hkept
  · simpa [State.latest, snapshots] using hd
  · obtain ⟨p, d', hp, hshared, hsnapshot, hmemory⟩ := h.busy t ht
    exact ⟨p, d', hp, .inl (by simpa [hnew] using hshared), hsnapshot, hmemory⟩

variable [DecidableEq P]

omit [DecidableEq I] in
/-- The old data is deleted when no processor has it. -/
theorem delete_implements (h : Implements s q) {ptr : P} (hsleep : s.phase = .sleep)
    (hptr : s.sharedDataNew = some ptr) (hfree : ¬s.InUse) : Implements (s.delete ptr) q := by
  have hne : ptr ≠ s.sharedDataCur := by
    rintro rfl
    exact h.new_ne hptr
  have hlatest : s.latest = ptr := by rw [State.latest, hptr, Option.getD_some]
  refine ⟨fun p => ?_, by simp [State.delete], fun _ => rfl, by simp [State.delete], ?_, h.idle,
    fun t ht => ?_⟩
  · have hkept := h.kept p
    rw [State.Kept, hptr, hsleep] at hkept
    simp only [State.delete, State.Kept, Function.update_apply]
    split_ifs with hp
    · simp [hp, hne.symm]
    · simpa [hp, @eq_comm _ p ptr] using hkept
  · rw [← h.latest, hlatest]
    simp [State.delete, State.latest, hne]
  · obtain ⟨p, d, hp, hshared, hsnapshot, hmemory⟩ := h.busy t ht
    have hcur : p ≠ s.sharedDataCur := by
      rintro rfl
      exact hfree ⟨t, hp⟩
    have hnew : p = ptr := by simpa [hcur, hptr, eq_comm] using hshared
    exact ⟨p, d, hp, .inl hnew, hsnapshot, by simpa [State.delete, hcur] using hmemory⟩

theorem wakeUp_implements [Fintype I] (h : Implements s q) (hsleep : s.phase = .sleep) :
    (snapshots data).Allows q s.wakeUp.2 ∧
      Implements s.wakeUp.1 ((snapshots data).next q s.wakeUp.2) := by
  unfold State.wakeUp
  split
  · exact ⟨trivial, h⟩
  · rename_i hnew
    exact ⟨trivial, h.of_shared (fun _ => hnew) (by simp [hsleep]) (by simp)⟩
  · rename_i ptr hnew
    rw [if_pos h.cur_isSome]
    split_ifs with huse
    · exact ⟨trivial, h⟩
    · exact ⟨trivial, delete_implements h hsleep hnew huse⟩

variable (Update : TS → TS → String → String → D → D)

/-- New data is loaded to a pointer that is free. -/
theorem reload_implements (h : Implements s q) (hphase : s.phase = .reload) {ret : Option P}
    (hret : ¬∃ ptr ∈ ret, (s.memory ptr).isSome) :
    (snapshots data).Allows q (s.reload Update ret).2 ∧
      Implements (s.reload Update ret).1 ((snapshots data).next q (s.reload Update ret).2) := by
  have hnew := h.new (by simp [hphase])
  obtain ⟨d, hd⟩ := Option.isSome_iff_exists.mp h.cur_isSome
  cases ret with
  | none => exact ⟨trivial, h.of_shared (by simp) (by simp [hphase]) (by simp)⟩
  | some ptr =>
    have hfree : s.memory ptr = none := by simpa using hret
    have hcur : ptr ≠ s.sharedDataCur := by
      rintro rfl
      simp [hd] at hfree
    simp only [State.reload, hd]
    refine ⟨trivial, ⟨fun p => ?_, h.new_ne, fun _ => hnew, by simpa using hcur, ?_, h.idle,
      fun t ht => ?_⟩⟩
    · have hkept := h.kept p
      rw [State.Kept, hphase] at hkept
      simp only [State.Kept, Function.update_apply]
      split_ifs with hp
      · simp [hp]
      · simpa [hp, Ne.symm hp] using hkept
    · have hlatest := h.latest
      rw [h.latest_eq_cur (by simp [hphase])] at hlatest
      simpa [State.latest, hnew, hcur.symm, snapshots] using hlatest
    · obtain ⟨p, d', hp, hshared, hsnapshot, hmemory⟩ := h.busy t ht
      have hne : p ≠ ptr := by
        rintro rfl
        simp [hfree] at hmemory
      exact ⟨p, d', hp, hshared, hsnapshot, by simpa [hne] using hmemory⟩

/-! ## What a request reads -/

/-- The data that has been published last. -/
def published (data : D) (trace : List (Event I D)) : D :=
  ((trace.filterMap fun e => match e with
    | .publish data => some data
    | _ => none).getLast?).getD data

omit [DecidableEq P] in
theorem latest_after (trace : List (Event I D)) :
    ((snapshots data).after trace).latest = published data trace := by
  induction trace using List.reverseRecOn with
  | nil => rfl
  | append_singleton trace e ih =>
    rw [Spec.after_concat]
    cases e <;> simp_all [published, snapshots]

variable (q) in
/-- A request keeps its data until it ends. -/
theorem next_snapshot {e : Event I D} (hadd : e ≠ .add thread) :
    ((snapshots data).next q e).snapshot thread = q.snapshot thread ∨
      ((snapshots data).next q e).snapshot thread = none := by
  cases e with
  | add t =>
    have hne : thread ≠ t := by
      rintro rfl
      exact hadd rfl
    exact .inl (by simp [snapshots, hne])
  | del t =>
    obtain rfl | hne := eq_or_ne thread t
    · exact .inr (by simp [snapshots])
    · exact .inl (by simp [snapshots, hne])
  | _ => exact .inl rfl

theorem snapshot_after (before : List (Event I D)) {middle : List (Event I D)}
    (hadd : .add thread ∉ middle) :
    ((snapshots data).after (before ++ .add thread :: middle)).snapshot thread =
        some (published data before) ∨
      ((snapshots data).after (before ++ .add thread :: middle)).snapshot thread = none := by
  induction middle using List.reverseRecOn with
  | nil =>
    rw [Spec.after_concat, ← latest_after]
    simp [snapshots]
  | append_singleton middle e ih =>
    obtain ⟨hmiddle, he⟩ : .add thread ∉ middle ∧ e ≠ .add thread := by
      simpa [eq_comm] using hadd
    rw [← List.cons_append, ← List.append_assoc, Spec.after_concat]
    rcases next_snapshot ((snapshots data).after (before ++ .add thread :: middle)) data he with
      h | h
    · rw [h]
      exact ih hmiddle
    · exact .inr h

/-! ## Runs -/

/-- How `svc` and the processors start. -/
structure State.Started (data : D) (items : List (MJHotUpdateItem TS)) (s : State I P D TS) :
    Prop where
  memory : ∀ ptr, s.memory ptr = if ptr = s.sharedDataCur then some data else none
  new : s.sharedDataNew = none
  updateItems : s.updateItems = items
  phase : s.phase = .sleep
  idle : ∀ thread, s.serving thread = false ∧ s.threadData thread = none

variable [Fintype I] [DecidableEq TS]

/-- `svc` and the processors, with `data` and the tables `items` at first. -/
def hotUpdate (Update : TS → TS → String → String → D → D) (data : D)
    (items : List (MJHotUpdateItem TS)) : System (State I P D TS) (Event I D) :=
  .ofStep (State.Started data items) fun s => s.step Update

variable {data} {Update} {items : List (MJHotUpdateItem TS)}

theorem hotUpdate_simulates :
    Simulates (hotUpdate (I := I) (P := P) Update data items) (snapshots data) Implements where
  start s h := by
    replace h : s.Started data items := h
    refine ⟨fun ptr => ?_, by simp [h.new], fun _ => h.new, by simp [h.phase], ?_,
      fun t _ => ⟨(h.idle t).2, rfl⟩, fun t ht => by simp [(h.idle t).1] at ht⟩
    · rw [h.memory]
      split_ifs with hp <;> simp [State.Kept, h.new, h.phase, hp]
    · simp [State.latest, h.new, h.memory, snapshots]
  step s q e s' h := by
    rintro ⟨action, hstep⟩
    obtain ⟨thread, hidle, heq⟩ | ⟨thread, hbusy, heq⟩ | ⟨thread, hbusy, heq⟩ | ⟨hphase, heq⟩ |
      ⟨answer, hphase, heq⟩ | ⟨ret, hphase, hret, heq⟩ | ⟨ptr, hphase, heq⟩ :=
      State.step_cases hstep
    · simpa only [heq] using add_implements data h hidle
    · simpa only [heq] using read_implements data h hbusy
    · simpa only [heq] using del_implements data h hbusy
    · simpa only [heq] using wakeUp_implements data h hphase
    · simpa only [heq] using poll_implements data h hphase answer
    · simpa only [heq] using reload_implements data Update h hphase hret
    · simpa only [heq] using publish_implements data h hphase

/-- The shared data behind the events of `trace`. -/
structure IsRegister (data : D) (s : State I P D TS) (trace : List (Event I D)) : Prop where
  /-- No pointer is used behind its deletion, and none is deleted twice. -/
  noFault : .fault ∉ trace
  /-- A request reads what had been published last when it began. -/
  reads : ∀ before thread middle d behind,
    trace = before ++ .add thread :: (middle ++ .read thread d :: behind) → .add thread ∉ middle →
      d = published data before
  /-- What is not deleted is the data in use, the new data, or data that is being loaded. -/
  kept : ∀ ptr, (s.memory ptr).isSome ↔ s.Kept ptr
  shared : ∀ thread ptr, s.threadData thread = some ptr →
    ptr = s.sharedDataCur ∨ s.sharedDataNew = some ptr

/-- However the processors and the hot update are interleaved, the shared data is one register. -/
theorem hotUpdate_isRegister {trace : List (Event I D)}
    (h : (hotUpdate (P := P) Update data items).Run s trace) : IsRegister data s trace := by
  obtain ⟨hlegal, himplements⟩ := hotUpdate_simulates.run h
  refine ⟨hlegal.not_mem fun q hq => hq, ?_, himplements.kept, fun t ptr hptr => ?_⟩
  · intro before t middle d behind heq hadd
    have hread := hlegal (before ++ .add t :: middle) (.read t d) behind (by simp [heq])
    have hsome : ((snapshots data).after (before ++ .add t :: middle)).snapshot t = some d := hread
    rcases snapshot_after data before hadd with hbefore | hnone
    · exact Option.some.inj (hsome.symm.trans hbefore)
    · simp [hnone] at hsome
  · cases hserving : s.serving t with
    | false => simp [(himplements.idle t hserving).1] at hptr
    | true =>
      obtain ⟨p, d, hp, hshared, -, -⟩ := himplements.busy t hserving
      obtain rfl := Option.some.inj (hp.symm.trans hptr)
      exact hshared

/-- New data is published while a request is answered with the old data. -/
theorem hotUpdate_isRegister_reload : ∃ s : State Unit Bool ℕ ℕ,
    IsRegister 7 s [.add (), .inUse, .polled, .reloaded, .publish 8, .inUse, .read () 7, .del (),
      .deleted] := by
  let items : List (MJHotUpdateItem ℕ) := [⟨"db", "city", 0, 0, false⟩]
  let start : State Unit Bool ℕ ℕ := ⟨false, none, fun _ => none,
    fun ptr => if ptr = false then some 7 else none, items, .sleep, fun _ => false⟩
  have hstart : (hotUpdate (fun _ _ _ _ => (· + 1)) 7 items).Run start [] :=
    .start ⟨fun _ => rfl, rfl, rfl, rfl, fun _ => ⟨rfl, rfl⟩⟩
  have hadd := hstart.step ⟨.addSharedDataPtr (), rfl⟩
  have hpoll := (hadd.step ⟨.wakeUp, rfl⟩).step ⟨.getUpdateTime fun _ => some 1, rfl⟩
  have hnew := (hpoll.step ⟨.reloadData (some true), rfl⟩).step ⟨.publish, rfl⟩
  have hread := (hnew.step ⟨.wakeUp, rfl⟩).step ⟨.getSharedData (), rfl⟩
  have hdel := (hread.step ⟨.delSharedDataPtr (), rfl⟩).step ⟨.wakeUp, rfl⟩
  exact ⟨_, hotUpdate_isRegister hdel⟩

end PPView.MJHotUpdate
