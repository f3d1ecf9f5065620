import PPView.Http.Snapshots

/-!
# No update is lost

Each load starts from the latest data and asks every table for the rows behind the time up to which
that data was loaded. So the times of the loads that made up the latest data follow each other
without a gap, whatever loads failed, whatever the database answered, and however long the old data
was in use.
-/

namespace PPView.MJHotUpdate

variable {I P D TS : Type*}

/-! ## Rounds -/

def MJHotUpdateItem.name (item : MJHotUpdateItem TS) : String × String :=
  (item.database, item.table)

/-- The tables as a load finds them. -/
structure IsRound [DecidableEq TS] (items round : List (MJHotUpdateItem TS)) : Prop where
  names : round.map (·.name) = items.map (·.name)
  needUpdate : ∀ item ∈ round, item.needUpdate = decide (item.lastTS ≠ item.newTS)

/-- Each round begins where the one before it ended. -/
def Consecutive : List TS → List (List (MJHotUpdateItem TS)) → List TS → Prop
  | start, [], stop => start = stop
  | start, round :: rounds, stop =>
    round.map (·.lastTS) = start ∧ Consecutive (round.map (·.newTS)) rounds stop

theorem consecutive_concat {start stop : List TS} {rounds : List (List (MJHotUpdateItem TS))}
    {round : List (MJHotUpdateItem TS)} :
    Consecutive start (rounds ++ [round]) stop ↔
      Consecutive start rounds (round.map (·.lastTS)) ∧ round.map (·.newTS) = stop := by
  induction rounds generalizing start with
  | nil => simp [Consecutive, eq_comm]
  | cons r rounds ih => simp [Consecutive, ih, and_assoc]

/-- A round asks the table with the index `i` for the rows of the time `t`. -/
def Covers [LinearOrder TS] (rounds : List (List (MJHotUpdateItem TS))) (i : ℕ) (t : TS) : Prop :=
  ∃ round ∈ rounds, ∃ item : MJHotUpdateItem TS, round[i]? = some item ∧
    item.needUpdate = true ∧ item.lastTS < t ∧ t ≤ item.newTS

/-- A time between the two ends is in some round. -/
theorem Consecutive.exists_round [LinearOrder TS] {start stop : List TS}
    {rounds : List (List (MJHotUpdateItem TS))} (h : Consecutive start rounds stop) {i : ℕ}
    {a b t : TS} (ha : start[i]? = some a) (hb : stop[i]? = some b) (hat : a < t) (htb : t ≤ b) :
    ∃ round ∈ rounds, ∃ item, round[i]? = some item ∧ item.lastTS < t ∧ t ≤ item.newTS := by
  induction rounds generalizing start a with
  | nil =>
    obtain rfl : start = stop := h
    obtain rfl := Option.some.inj (ha.symm.trans hb)
    exact absurd hat (not_lt.mpr htb)
  | cons round rounds ih =>
    obtain ⟨rfl, hrest⟩ := h
    obtain ⟨item, hitem, rfl⟩ : ∃ item, round[i]? = some item ∧ item.lastTS = a := by
      simpa using ha
    by_cases ht : t ≤ item.newTS
    · exact ⟨round, List.mem_cons_self, item, hitem, hat, ht⟩
    · obtain ⟨r, hr, item', h'⟩ := ih hrest (by simp [hitem]) (not_le.mp ht)
      exact ⟨r, List.mem_cons_of_mem _ hr, item', h'⟩

/-! ## What has been loaded -/

section

variable [DecidableEq TS] (Update : TS → TS → String → String → D → D) (data : D)
  (items : List (MJHotUpdateItem TS))

/-- `d` is `data` after the loads of `rounds`, from the times of `items` to `stop`. -/
structure LoadedBy (rounds : List (List (MJHotUpdateItem TS))) (d : D) (stop : List TS) :
    Prop where
  eq : d = rounds.foldl (fun d round => reloadData Update round d) data
  times : Consecutive (items.map (·.newTS)) rounds stop
  rounds : ∀ round ∈ rounds, IsRound items round

/-- The times up to which the latest data is loaded. -/
def State.reached (s : State I P D TS) : List TS :=
  match s.phase with
  | .sleep | .poll => s.updateItems.map (·.newTS)
  | .reload | .publish _ => s.updateItems.map (·.lastTS)

structure Recorded (s : State I P D TS) : Prop where
  latest : ∃ d rounds, s.memory s.latest = some d ∧ LoadedBy Update data items rounds d s.reached
  publish : ∀ ptr, s.phase = .publish ptr → ∃ d rounds, s.memory ptr = some d ∧
    LoadedBy Update data items rounds d (s.updateItems.map (·.newTS))
  names : s.updateItems.map (·.name) = items.map (·.name)
  needUpdate : s.phase = .reload → IsRound items s.updateItems

end

variable [DecidableEq TS] {Update : TS → TS → String → String → D → D} {data : D}
  {items : List (MJHotUpdateItem TS)} {s : State I P D TS} {q : Snapshots I D}

theorem LoadedBy.concat {rounds : List (List (MJHotUpdateItem TS))}
    {round : List (MJHotUpdateItem TS)} {d : D}
    (h : LoadedBy Update data items rounds d (round.map (·.lastTS)))
    (hround : IsRound items round) :
    LoadedBy Update data items (rounds ++ [round]) (reloadData Update round d)
      (round.map (·.newTS)) := by
  refine ⟨by simp [h.eq], consecutive_concat.mpr ⟨h.times, rfl⟩, fun r hr => ?_⟩
  rcases List.mem_append.mp hr with hr | hr
  · exact h.rounds r hr
  · rwa [List.mem_singleton.mp hr]

/-- Asking for the update times does not lose the times before. -/
theorem polled_lastTS (answer : ℕ → Option TS) :
    (setNeedUpdate (getUpdateTime answer s.updateItems)).map (·.lastTS) =
      s.updateItems.map (·.newTS) := by
  refine List.ext_getElem? fun i => ?_
  simp only [setNeedUpdate, getUpdateTime, List.map_map, List.getElem?_map, List.getElem?_mapIdx]
  cases s.updateItems[i]? <;> rfl

theorem polled_isRound (hnames : s.updateItems.map (·.name) = items.map (·.name))
    (answer : ℕ → Option TS) :
    IsRound items (setNeedUpdate (getUpdateTime answer s.updateItems)) := by
  refine ⟨?_, fun item hitem => ?_⟩
  · rw [← hnames]
    refine List.ext_getElem? fun i => ?_
    simp only [setNeedUpdate, getUpdateTime, List.map_map, List.getElem?_map,
      List.getElem?_mapIdx]
    cases s.updateItems[i]? <;> rfl
  · obtain ⟨item, -, rfl⟩ := List.mem_map.mp hitem
    simp

/-! ## Steps -/

theorem poll_recorded (h : Recorded Update data items s) (hphase : s.phase = .poll)
    (answer : ℕ → Option TS) : Recorded Update data items (s.poll answer).1 := by
  obtain ⟨d, rounds, hd, hloaded⟩ := h.latest
  have hround := polled_isRound h.names answer
  rw [State.reached, hphase] at hloaded
  simp only [State.poll]
  split_ifs with hneed
  · refine ⟨⟨d, rounds, hd, ?_⟩, by simp, hround.names, fun _ => hround⟩
    rwa [State.reached, polled_lastTS]
  · -- nothing has changed, so the times before and behind the poll are the same
    have hsame : ∀ item ∈ setNeedUpdate (getUpdateTime answer s.updateItems),
        item.newTS = item.lastTS := by
      intro item hitem
      have hno : ¬item.needUpdate = true := fun hyes =>
        hneed (List.any_eq_true.mpr ⟨item, hitem, hyes⟩)
      rw [hround.needUpdate item hitem, decide_eq_true_eq, not_not] at hno
      exact hno.symm
    refine ⟨⟨d, rounds, hd, ?_⟩, by simp, hround.names, by simp⟩
    rwa [State.reached, List.map_congr_left hsame, polled_lastTS]

theorem publish_recorded (h : Recorded Update data items s) {ptr : P}
    (hphase : s.phase = .publish ptr) : Recorded Update data items (s.publish ptr).1 := by
  obtain ⟨d, rounds, hd, hloaded⟩ := h.publish ptr hphase
  simp only [State.publish, hd]
  exact ⟨⟨d, rounds, hd, hloaded⟩, by simp, h.names, by simp⟩

variable [DecidableEq P]

theorem reload_recorded (h : Recorded Update data items s) (himplements : Implements s q)
    (hphase : s.phase = .reload) {ret : Option P} (hret : ¬∃ ptr ∈ ret, (s.memory ptr).isSome) :
    Recorded Update data items (s.reload Update ret).1 := by
  obtain ⟨d, rounds, hd, hloaded⟩ := h.latest
  rw [State.reached, hphase] at hloaded
  cases ret with
  | none =>
    refine ⟨⟨d, rounds, hd, ?_⟩, by simp [State.reload], ?_, by simp [State.reload]⟩
    · simpa [State.reload, State.reached, resetNewTS, Function.comp_def] using hloaded
    · rw [← h.names]
      simp [State.reload, resetNewTS, MJHotUpdateItem.name, Function.comp_def]
  | some ptr =>
    have hfree : s.memory ptr = none := by simpa using hret
    have hne : s.latest ≠ ptr := by
      rintro rfl
      simp [hfree] at hd
    have hcur := hd
    rw [himplements.latest_eq_cur (by simp [hphase])] at hcur
    simp only [State.reload, hcur]
    refine ⟨⟨d, rounds, ?_, hloaded⟩, ?_, h.names, by simp⟩
    · exact (Function.update_of_ne hne _ _).trans hd
    · rintro _ ⟨⟩
      exact ⟨_, _, Function.update_self .., hloaded.concat (h.needUpdate hphase)⟩

variable [Fintype I]

theorem wakeUp_recorded (h : Recorded Update data items s) (himplements : Implements s q)
    (hphase : s.phase = .sleep) : Recorded Update data items s.wakeUp.1 := by
  obtain ⟨d, rounds, hd, hloaded⟩ := h.latest
  rw [State.reached, hphase] at hloaded
  unfold State.wakeUp
  split
  · exact h
  · exact ⟨⟨d, rounds, hd, hloaded⟩, by simp, h.names, by simp⟩
  · rename_i ptr _ hnew
    rw [if_pos himplements.cur_isSome]
    split_ifs
    · exact h
    · have hlatest : s.latest = ptr := by rw [State.latest, hnew, Option.getD_some]
      have hne : ptr ≠ s.sharedDataCur := by
        rintro rfl
        exact himplements.new_ne hnew
      refine ⟨⟨d, rounds, ?_, hloaded⟩, by simp [State.delete], h.names, by simp [State.delete]⟩
      rw [← hd, hlatest]
      simp [State.delete, State.latest, hne]

variable [DecidableEq I]

theorem step_recorded (h : Recorded Update data items s) (himplements : Implements s q)
    {action : Action I P TS} {s' : State I P D TS} {e : Event I D}
    (hstep : s.step Update action = some (s', e)) : Recorded Update data items s' := by
  obtain ⟨thread, -, heq⟩ | ⟨thread, -, heq⟩ | ⟨thread, -, heq⟩ | ⟨hphase, heq⟩ |
    ⟨answer, hphase, heq⟩ | ⟨ret, hphase, hret, heq⟩ | ⟨ptr, hphase, heq⟩ :=
    State.step_cases hstep
  · obtain ⟨rfl, -⟩ := Prod.mk.inj heq
    exact ⟨h.latest, h.publish, h.names, h.needUpdate⟩
  · have hs : (s.getSharedData thread).1 = s := by
      unfold State.getSharedData
      split <;> rfl
    rwa [← hs, heq] at h
  · obtain ⟨rfl, -⟩ := Prod.mk.inj heq
    exact ⟨h.latest, h.publish, h.names, h.needUpdate⟩
  · simpa only [heq] using wakeUp_recorded h himplements hphase
  · simpa only [heq] using poll_recorded h hphase answer
  · simpa only [heq] using reload_recorded h himplements hphase hret
  · simpa only [heq] using publish_recorded h hphase

theorem recorded_of_run {trace : List (Event I D)}
    (h : (hotUpdate (P := P) Update data items).Run s trace) : Recorded Update data items s := by
  induction h with
  | start h =>
    rename_i s
    replace h : s.Started data items := h
    refine ⟨⟨data, [], ?_, ⟨rfl, ?_, by simp⟩⟩, by simp [h.phase], by rw [h.updateItems],
      by simp [h.phase]⟩
    · simp [State.latest, h.new, h.memory]
    · simp [Consecutive, State.reached, h.phase, h.updateItems]
  | step run hstep ih =>
    obtain ⟨action, hstep⟩ := hstep
    exact step_recorded ih (hotUpdate_simulates.run run).2 hstep

/-- The latest data has been brought from the first times of the tables to the times reached, each
load beginning where the one before it ended. So no moment between them is left out. -/
theorem latest_loadedBy {T : Type*} [LinearOrder T] {Update : T → T → String → String → D → D}
    {items : List (MJHotUpdateItem T)} {s : State I P D T} {trace : List (Event I D)}
    (h : (hotUpdate (P := P) Update data items).Run s trace) :
    ∃ d rounds, s.memory s.latest = some d ∧ LoadedBy Update data items rounds d s.reached ∧
      ∀ i a b t, (items.map (·.newTS))[i]? = some a → s.reached[i]? = some b → a < t → t ≤ b →
        Covers rounds i t := by
  obtain ⟨d, rounds, hd, hloaded⟩ := (recorded_of_run h).latest
  refine ⟨d, rounds, hd, hloaded, fun i a b t ha hb hat htb => ?_⟩
  obtain ⟨round, hround, item, hitem, hlast, hnew⟩ := hloaded.times.exists_round ha hb hat htb
  have hneed := (hloaded.rounds round hround).needUpdate item (List.mem_of_getElem? hitem)
  have hne := (hlast.trans_le hnew).ne
  exact ⟨round, hround, item, hitem, by simpa [hne] using hneed, hlast, hnew⟩

/-- A load fails, and the next one reads from the same time on. -/
theorem latest_loadedBy_retry : ∃ s : State Unit Bool ℕ ℕ, ∃ d rounds,
    s.memory s.latest = some d ∧
      LoadedBy (fun _ stop _ _ _ => stop) 0 [⟨"db", "city", 0, 3, false⟩] rounds d s.reached ∧
      ∀ i a b t, [3][i]? = some a → s.reached[i]? = some b → a < t → t ≤ b →
        Covers rounds i t := by
  let items : List (MJHotUpdateItem ℕ) := [⟨"db", "city", 0, 3, false⟩]
  let start : State Unit Bool ℕ ℕ := ⟨false, none, fun _ => none,
    fun ptr => if ptr = false then some 0 else none, items, .sleep, fun _ => false⟩
  have hstart : (hotUpdate (fun _ stop _ _ _ => stop) 0 items).Run start [] :=
    .start ⟨fun _ => rfl, rfl, rfl, rfl, fun _ => ⟨rfl, rfl⟩⟩
  have hpoll := (hstart.step ⟨.wakeUp, rfl⟩).step ⟨.getUpdateTime fun _ => some 5, rfl⟩
  have hfail := (hpoll.step ⟨.reloadData none, rfl⟩).step ⟨.wakeUp, rfl⟩
  have hagain := (hfail.step ⟨.getUpdateTime fun _ => some 6, rfl⟩).step
    ⟨.reloadData (some true), rfl⟩
  exact ⟨_, latest_loadedBy (hagain.step ⟨.publish, rfl⟩)⟩

end PPView.MJHotUpdate
