import PPView.Bag.DayOrders

/-!
# The search within a day finds the best orders

`search_spec` says what `Search` does to its state, whether it prunes or not: the paths of the
orders that begin with the walk are pushed one after the other, and everything else is restored. A
part that is cut off would have pushed paths that a full heap does not take
(`SPathHeap.push_of_not_canPush`).
-/

namespace PPView

open SPathHeap

/-- Pushing a list of paths. -/
def SPathHeap.pushAll (h : SPathHeap) (ps : List SPath) : SPathHeap := ps.foldl push h

namespace DFS

variable {param : BagParam} {timeOut : Nat → Bool} {plan : BagPlan} {day : DayNodes}

/-- The paths in the heap have integer scores. -/
def HeapInt (heap : SPathHeap) : Prop := ∀ q ∈ heap.queue, q.IntScore

/-- Where pruning is justified: no distance and no penalty is negative. -/
structure Monotone (param : BagParam) (day : DayNodes) : Prop where
  pen : Walk.PenaltiesNonneg param
  dist : Walk.DistNonneg day

/-- A call returns with the walk and the visited nodes restored. It has pushed some of the paths
`ps`, and might as well have pushed all of them if pruning is justified. -/
def Returns (param : BagParam) (day : DayNodes) (s : DFS) (ps : List SPath) (r : Res DFS) : Prop :=
  ∃ s' qs, r = .ok s' ∧ s'.toWalk = s.toWalk ∧ s'.visited = s.visited ∧
    s'.heap = s.heap.pushAll qs ∧ qs.Sublist ps ∧
    (Monotone param day → HeapInt s.heap → s.heap.pushAll qs = s.heap.pushAll ps)

/-- The inner nodes that are not visited. -/
def unused (day : DayNodes) (s : DFS) : List Nat := day.inner.filter fun idx => !s.visited idx

/-- The paths of the orders that begin with the walk. -/
def comps (param : BagParam) (plan : BagPlan) (day : DayNodes) (s : DFS) : List SPath :=
  Orders.tree (Walk.visit day) (Walk.finish param plan day) (unused day s).length s.toWalk
    (unused day s)

theorem mem_pushAll {heap : SPathHeap} {ps : List SPath} {q : SPath}
    (hq : q ∈ (heap.pushAll ps).queue) : q ∈ heap.queue ∨ q ∈ ps := by
  induction ps generalizing heap with
  | nil => exact .inl hq
  | cons p ps ih =>
    rcases ih hq with h | h
    · rw [push] at h
      split_ifs at h
      · exact .inl h
      · exact .inl h
      · rcases mem_insertQueue.mp h with rfl | h
        · exact .inr List.mem_cons_self
        · exact .inl ((popFull_sublist heap).mem h)
    · exact .inr (List.mem_cons_of_mem _ h)

theorem heapInt_pushAll {heap : SPathHeap} (h : HeapInt heap) {ps : List SPath}
    (hps : ∀ p ∈ ps, Walk.Found p) : HeapInt (heap.pushAll ps) := fun q hq =>
  (mem_pushAll hq).elim (h q) fun hq => (hps q hq).int

theorem pushAll_append (heap : SPathHeap) (ps qs : List SPath) :
    heap.pushAll (ps ++ qs) = (heap.pushAll ps).pushAll qs := List.foldl_append

/-- A heap whose test of a score fails does not take paths with that score or less. -/
theorem pushAll_of_not_canPush {heap : SPathHeap} (h : HeapInt heap) {score : Int}
    (hcan : heap.canPush score = false) {ps : List SPath} (hfound : ∀ p ∈ ps, Walk.Found p)
    (hscore : ∀ p ∈ ps, p.score ≤ score) : heap.pushAll ps = heap := by
  induction ps with
  | nil => rfl
  | cons p ps ih =>
    have hp := hfound p (by simp)
    have hpush := push_of_not_canPush h hp.int hcan hp.missLevel.ge hp.clash (hscore p (by simp))
    rw [pushAll, List.foldl_cons, hpush]
    exact ih (fun q hq => hfound q (List.mem_cons_of_mem _ hq))
      fun q hq => hscore q (List.mem_cons_of_mem _ hq)

/-- A part that is cut off pushes nothing. -/
theorem returns_cut {s : DFS} (hcan : s.canPush param = false) {ps : List SPath}
    (hfound : ∀ p ∈ ps, Walk.Found p)
    (hscore : Monotone param day → ∀ p ∈ ps, p.score ≤ s.getScore param) :
    Returns param day s ps (.ok s) := by
  simp only [canPush, Bool.or_eq_false_iff] at hcan
  exact ⟨s, [], rfl, rfl, rfl, rfl, List.nil_sublist ps, fun hmono hint =>
    (pushAll_of_not_canPush hint hcan.2 hfound (hscore hmono)).symm⟩

/-- A part without paths leaves the state as it is. -/
theorem returns_nil (s : DFS) : Returns param day s [] (.ok s) :=
  ⟨s, [], rfl, rfl, rfl, rfl, List.Sublist.refl _, fun _ _ => rfl⟩

/-! ## Entering and leaving -/

theorem leave_enter (w : Walk) (idx : Nat) (trafItem : TrafficItem) :
    (w.enter idx trafItem).leave trafItem = w := by
  simp [Walk.enter, Walk.leave]

/-- Leaving a node restores what entering it changed. -/
theorem returns_leave {s : DFS} {idx : Nat} {trafItem : TrafficItem} {ps : List SPath}
    {r : Res DFS} (hidx : s.visited idx = false)
    (hr : Returns param day (s.enter idx trafItem) ps r) :
    Returns param day s ps (r >>= fun s' => pure (s'.leave idx trafItem)) := by
  obtain ⟨s', qs, rfl, hwalk, hvisited, hpush⟩ := hr
  refine ⟨_, qs, rfl, ?_, ?_, hpush⟩
  · simp only [leave]
    rw [hwalk]
    exact leave_enter s.toWalk idx trafItem
  · simp only [leave]
    rw [hvisited, enter, Function.update_idem, ← hidx, Function.update_eq_self]

/-- What the search needs of its state. -/
structure Inv (day : DayNodes) (s : DFS) : Prop where
  tail : s.visited (day.nodeNum - 1) = false
  count : (unused day s).length + s.path.length + 1 = day.nodeNum

theorem mem_unused {s : DFS} {idx : Nat} :
    idx ∈ unused day s ↔ idx ∈ day.inner ∧ s.visited idx = false := by
  simp [unused]

theorem unused_enter {s : DFS} {idx : Nat} (trafItem : TrafficItem) :
    unused day (s.enter idx trafItem) = (unused day s).erase idx := by
  have hnodup : (unused day s).Nodup := (List.nodup_range' (s := 1)).filter _
  rw [hnodup.erase_eq_filter, unused, unused, List.filter_filter]
  refine List.filter_congr fun i _ => ?_
  by_cases hi : i = idx <;> simp [enter, hi]

theorem Inv.enter {s : DFS} (h : Inv day s) {idx : Nat} (hidx : idx ∈ unused day s)
    (trafItem : TrafficItem) : Inv day (s.enter idx trafItem) where
  tail := by
    have hinner := (mem_unused.mp hidx).1
    rw [DayNodes.inner, List.mem_range'_1] at hinner
    exact (Function.update_of_ne (by omega) _ _).trans h.tail
  count := by
    have hpos := List.length_pos_of_mem hidx
    have hcount := h.count
    rw [unused_enter, List.length_erase_of_mem hidx]
    simp only [DFS.enter, Walk.enter, List.length_append, List.length_singleton]
    omega

/-! ## The end of an order -/

theorem pushPath_spec (hday : day.Valid plan) (s : DFS) :
    Returns param day s (s.close param plan day).toList (s.pushPath param plan day) := by
  rw [pushPath]
  cases hcan : s.canPush param with
  | false =>
    exact returns_cut hcan
      (fun p hp => (Walk.found_of_close hday (Option.mem_toList.mp hp)).1)
      fun hmono p hp => Walk.score_le_of_close hday hmono.pen (Option.mem_toList.mp hp)
  | true =>
    obtain ⟨r, hr, -⟩ := day.calClash_ok hday s.path
    cases r with
    | none =>
      have hclose : s.close param plan day = none := by simp [Walk.close, hr]
      rw [hclose, hr]
      exact returns_nil s
    | some c =>
      have hclose : s.close param plan day = some (s.toWalk.sPath param plan day c.1 c.2) := by
        simp [Walk.close, hr]
      rw [hclose]
      refine ⟨{ s with heap := s.heap.push (s.toWalk.sPath param plan day c.1 c.2) }, _, ?_, rfl,
        rfl, rfl, List.Sublist.refl _, fun _ _ => rfl⟩
      simp [hr]
      rfl

theorem pushLast_spec (hday : day.Valid plan) {s : DFS} (hinv : Inv day s) :
    Returns param day s (s.finish param plan day).toList (s.pushLast param plan day) := by
  rw [pushLast, Walk.finish]
  cases day.traf s.lastIdx (day.nodeNum - 1) with
  | none => exact returns_nil s
  | some trafItem =>
    exact returns_leave hinv.tail (pushPath_spec hday (s.enter (day.nodeNum - 1) trafItem))

/-! ## One node -/

/-- The paths of the orders that go on with a node. -/
def branch (param : BagParam) (plan : BagPlan) (day : DayNodes) (s : DFS) (idx : Nat) :
    List SPath :=
  match s.visit day idx with
  | some w => Orders.tree (Walk.visit day) (Walk.finish param plan day)
      ((unused day s).length - 1) w ((unused day s).erase idx)
  | none => []

/-- The visit of a node, where the recursive call returns. -/
theorem searchNode_spec {search : DFS → Res DFS} {s : DFS} (hinv : Inv day s) {idx : Nat}
    (hidx : idx ∈ unused day s)
    (hsearch : ∀ s' : DFS, Inv day s' → s'.path.length = s.path.length + 1 →
      Returns param day s' (comps param plan day s') (search s')) :
    Returns param day s (branch param plan day s idx) (searchNode day search s idx) := by
  have hvisited := (mem_unused.mp hidx).2
  -- entering the node from a state that differs in the meals alone
  have henter : ∀ (leftRestNeed : UInt8) (trafItem : TrafficItem),
      let s₀ : DFS := { s with leftRestNeed := leftRestNeed }
      Returns param day s₀ (Orders.tree (Walk.visit day) (Walk.finish param plan day)
          ((unused day s).length - 1) (s₀.toWalk.enter idx trafItem) ((unused day s).erase idx))
        (search (s₀.enter idx trafItem) >>= fun s' => pure (s'.leave idx trafItem)) := by
    intro leftRestNeed trafItem s₀
    have hinv₀ : Inv day s₀ := ⟨hinv.tail, hinv.count⟩
    have hret := hsearch (s₀.enter idx trafItem) (hinv₀.enter hidx trafItem)
      (by simp [s₀, enter, Walk.enter])
    have hunused : unused day s₀ = unused day s := rfl
    rw [comps, unused_enter, hunused, List.length_erase_of_mem hidx] at hret
    exact returns_leave hvisited hret
  rw [searchNode, hvisited, branch, Walk.visit]
  cases htraf : day.traf s.lastIdx idx with
  | none =>
    convert returns_nil s using 1
    simp only [searchRest, searchView, htraf]
    split_ifs <;> rfl
  | some trafItem =>
    by_cases hrest : isRestaurant (day.vTypeAt idx)
    · cases hneed : Walk.restNeedAfter s.leftRestNeed (day.vTypeAt idx) with
      | none =>
        convert returns_nil s using 1
        · simp [hrest]
        · simp [hrest, searchRest, htraf, hneed]
          rfl
      | some leftRestNeed =>
        obtain ⟨s', qs, hs', hwalk, hvis, hpush⟩ := henter leftRestNeed trafItem
        obtain ⟨s'', hs'', hleave⟩ := bind_ok.mp hs'
        obtain rfl := Except.ok.inj hleave
        refine ⟨{ s''.leave idx trafItem with leftRestNeed := s.leftRestNeed }, qs, ?_, ?_, hvis,
          by simpa [hrest] using hpush⟩
        · simp only [hrest, searchRest, htraf, hneed]
          exact bind_ok.mpr ⟨s'', hs'', rfl⟩
        · exact congrArg (fun w : Walk => { w with leftRestNeed := s.leftRestNeed }) hwalk
    · simpa [hrest, searchView, htraf] using henter s.leftRestNeed trafItem

/-! ## The whole search -/

theorem found_of_mem_branch (hday : day.Valid plan) (s : DFS) (idx : Nat) :
    ∀ p ∈ branch param plan day s idx, Walk.Found p := by
  intro p hp
  rw [branch] at hp
  split at hp
  · exact Walk.found_of_mem_tree hday p hp
  · simp at hp

theorem Inv.congr {s s' : DFS} (h : Inv day s) (hwalk : s'.toWalk = s.toWalk)
    (hvisited : s'.visited = s.visited) : Inv day s' where
  tail := hvisited ▸ h.tail
  count := by
    rw [unused, hvisited, hwalk]
    exact h.count

/-- Two parts one after the other. -/
theorem Returns.trans {s s' : DFS} {ps ps' qs : List SPath} {r : Res DFS}
    (hfound : ∀ p ∈ ps, Walk.Found p)
    (hwalk : s'.toWalk = s.toWalk) (hvisited : s'.visited = s.visited)
    (hheap : s'.heap = s.heap.pushAll qs) (hsub : qs.Sublist ps)
    (hall : Monotone param day → HeapInt s.heap → s.heap.pushAll qs = s.heap.pushAll ps)
    (hr : Returns param day s' ps' r) : Returns param day s (ps ++ ps') r := by
  obtain ⟨t, qs', rfl, hwalk', hvisited', hheap', hsub', hall'⟩ := hr
  refine ⟨t, qs ++ qs', rfl, hwalk'.trans hwalk, hvisited'.trans hvisited, ?_,
    hsub.append hsub', fun hmono hint => ?_⟩
  · rw [hheap', hheap, pushAll_append]
  · have hint' : HeapInt s'.heap :=
      hheap ▸ heapInt_pushAll hint fun p hp => hfound p (hsub.mem hp)
    rw [pushAll_append, pushAll_append, ← hall hmono hint, ← hheap]
    exact hall' hmono hint'

/-- The loop over the nodes: the visited ones are passed over. -/
theorem foldlM_spec (hday : day.Valid plan) {search : DFS → Res DFS} {n : Nat}
    (hsearch : ∀ s : DFS, Inv day s → s.path.length = n + 1 →
      Returns param day s (comps param plan day s) (search s))
    {l : List Nat} (hl : ∀ idx ∈ l, idx ∈ day.inner) {s : DFS} (hinv : Inv day s)
    (hlen : s.path.length = n) :
    Returns param day s ((l.filter fun idx => !s.visited idx).flatMap (branch param plan day s))
      (l.foldlM (searchNode day search) s) := by
  induction l generalizing s with
  | nil => exact returns_nil s
  | cons idx l ih =>
    obtain ⟨hidx, hl⟩ := List.forall_mem_cons.mp hl
    rw [List.foldlM_cons]
    cases hvisited : s.visited idx with
    | true =>
      have hskip : searchNode day search s idx = .ok s := by
        rw [searchNode, hvisited]
        rfl
      rw [hskip, List.filter_cons_of_neg (by simp [hvisited])]
      exact ih hl hinv hlen
    | false =>
      obtain ⟨s', qs, hs', hwalk, hvis, hheap, hsub, hall⟩ := searchNode_spec hinv
        (mem_unused.mpr ⟨hidx, hvisited⟩) fun s' hinv' hlen' =>
          hsearch s' hinv' (hlen' ▸ hlen ▸ rfl)
      have hrest := ih hl (hinv.congr hwalk hvis) (by rw [hwalk, hlen])
      have hbranch : branch param plan day s' = branch param plan day s := by
        funext i
        rw [branch, branch, unused, unused, hvis, hwalk]
      rw [hvis, hbranch] at hrest
      rw [hs', List.filter_cons_of_pos (by simp [hvisited]), List.flatMap_cons]
      exact hrest.trans (found_of_mem_branch hday s idx) hwalk hvis hheap hsub hall

/-- The search restores its state and pushes paths of orders that begin with the walk. -/
theorem search_spec (hto : ∀ n, timeOut n = false) (hday : day.Valid plan) {fuel : Nat} {s : DFS}
    (hinv : Inv day s) (hfuel : day.nodeNum ≤ s.path.length + fuel) :
    Returns param day s (comps param plan day s) (search param timeOut plan day fuel s) := by
  induction fuel generalizing s with
  | zero =>
    have := hinv.count
    omega
  | succ fuel ih =>
    -- the counters are the only members that the checks of the timer change
    obtain ⟨s₁, hs₁, hwalk, hvis, hheap⟩ : ∃ s₁ : DFS,
        search param timeOut plan day (fuel + 1) s =
          (if s₁.path.length + 1 ≥ day.nodeNum then s₁.pushLast param plan day
            else if !s₁.canPush param then pure s₁
            else day.inner.foldlM (searchNode day (search param timeOut plan day fuel)) s₁) ∧
        s₁.toWalk = s.toWalk ∧ s₁.visited = s.visited ∧ s₁.heap = s.heap := by
      refine ⟨if s.sCnt + 1 > 20000 then { s with sCnt := 0, tCnt := s.tCnt + 20000 }
        else { s with sCnt := s.sCnt + 1 }, ?_, ?_, ?_, ?_⟩
      · rw [search]
        simp only [hto, Bool.false_eq_true, and_false, if_false]
      all_goals split_ifs <;> rfl
    have hinv₁ : Inv day s₁ := hinv.congr hwalk hvis
    have hcomps : comps param plan day s₁ = comps param plan day s := by
      rw [comps, comps, unused, unused, hvis, hwalk]
    suffices h : Returns param day s₁ (comps param plan day s₁)
        (search param timeOut plan day (fuel + 1) s) by
      rw [← hcomps]
      rwa [Returns, hwalk, hvis, hheap] at h
    rw [hs₁]
    have hcount := hinv₁.count
    split_ifs with hlast hcan
    · have hunused : unused day s₁ = [] := List.eq_nil_of_length_eq_zero (by omega)
      rw [comps, hunused]
      exact pushLast_spec hday hinv₁
    · exact returns_cut (by simpa using hcan) (Walk.found_of_mem_tree hday)
        fun hmono => Walk.score_le_of_mem_tree hday hmono.pen hmono.dist
    · have hpath : s₁.path.length = s.path.length := by rw [hwalk]
      have hloop := foldlM_spec hday (fun s' hinv' hlen' => ih hinv' (by omega))
        (fun idx hidx => hidx) hinv₁ rfl
      obtain ⟨m, hm⟩ : ∃ m, (unused day s₁).length = m + 1 := ⟨_, (Nat.succ_pred (by omega)).symm⟩
      convert hloop using 1
      rw [comps, hm, Orders.tree]
      refine congrArg (List.flatMap · _) (funext fun idx => ?_)
      rw [branch, hm]
      cases s₁.visit day idx <;> rfl

/-! ## The paths of a day -/

theorem unused_start : unused day (start param day) = day.inner := by
  refine List.filter_eq_self.mpr fun idx hidx => ?_
  rw [DayNodes.inner, List.mem_range'_1] at hidx
  have hne : idx ≠ 0 := by omega
  simp [start, hne]

theorem inv_start (hday : day.Valid plan) : Inv day (start param day) where
  tail := by
    have := hday.two_le
    have hne : day.nodeNum - 1 ≠ 0 := by omega
    simp [start, hne]
  count := by
    have := hday.two_le
    rw [unused_start, DayNodes.inner, List.length_range']
    simp only [start, List.length_singleton]
    omega

theorem comps_start (param : BagParam) (plan : BagPlan) (day : DayNodes) :
    (comps param plan day (start param day)).Perm (day.orders param plan) := by
  rw [comps, unused_start]
  exact Orders.tree_perm _ List.nodup_range' rfl

/-- No distance in the traffic of a plan is negative. -/
def TrafficNonneg (plan : BagPlan) : Prop :=
  ∀ ida idb date trafItem, plan.trafficItem ida idb date = some trafItem → 0 ≤ trafItem.dist

theorem distNonneg_of_init {richPath : SPath} {blockIdx : Nat}
    (h : DayNodes.init plan richPath blockIdx = some day) (hdist : TrafficNonneg plan) :
    Walk.DistNonneg day := by
  intro i j trafItem htraf
  rw [(DayNodes.valid_of_init h).traf, BagTables.getPosTraf] at htraf
  split_ifs at htraf
  split at htraf
  · split_ifs at htraf
    exact hdist _ _ _ trafItem htraf
  · simp at htraf

/-- The heap in which the search of a day ends. -/
theorem search_start (param : BagParam) (hto : ∀ n, timeOut n = false) {richPath : SPath}
    {blockIdx : Nat} (h : DayNodes.init plan richPath blockIdx = some day) :
    ∃ s qs, search param timeOut plan day day.nodeNum (start param day) = .ok s ∧
      s.heap = (start param day).heap.pushAll qs ∧
      qs.Sublist (comps param plan day (start param day)) ∧
      (Monotone param day → s.heap =
        (start param day).heap.pushAll (comps param plan day (start param day))) := by
  have hday := DayNodes.valid_of_init h
  obtain ⟨s, qs, hs, -, -, hheap, hsub, hall⟩ := search_spec hto hday (inv_start hday)
    (Nat.le_add_left day.nodeNum _)
  exact ⟨s, qs, hs, hheap, hsub, fun hmono =>
    hheap.trans (hall hmono (by simp [HeapInt, start]))⟩

/-- The search returns paths with what `Found` says. -/
theorem doSearch_found (hto : ∀ n, timeOut n = false) (richPath : SPath) (blockIdx : Nat) :
    ∃ ret paths, doSearch param timeOut plan richPath blockIdx = .ok (ret, paths) ∧
      ∀ p ∈ paths, Walk.Found p := by
  rw [doSearch]
  cases hinit : DayNodes.init plan richPath blockIdx with
  | none => exact ⟨1, [], rfl, by simp⟩
  | some day =>
    obtain ⟨s, qs, hs, hheap, hsub, -⟩ := search_start param hto hinit
    refine ⟨0, s.heap.queue, by simp [hs], fun p hp => ?_⟩
    rw [hheap] at hp
    rcases mem_pushAll hp with hp | hp
    · simp [start] at hp
    · exact Walk.found_of_mem_tree (DayNodes.valid_of_init hinit) p (hsub.mem hp)

/-- The paths of a heap into which orders are pushed whose hashes tell them apart. -/
theorem mem_pushAll_start {param : BagParam} {ps : List SPath} (hint : ∀ p ∈ ps, p.IntScore)
    (hhash : ∀ p ∈ ps, ∀ q ∈ ps, p.hash = q.hash → p = q) (p : SPath) :
    p ∈ ((start param day).heap.pushAll ps).queue ↔
      p ∈ ps ∧ (ps.toFinset.filter fun q => SPathCmp q p).card < param.dfsDayHeapLimit := by
  have hmem : ∀ q ∈ (∅ : Finset SPath) ∪ ps.toFinset, q ∈ ps := by simp
  have hholds := (holds_nil param.dfsDayHeapLimit param.dfsDayHeapLimit_pos).foldl ps
    (fun q hq => hint q (hmem q hq))
    fun q hq p hp hqp => congrArg SPath.key (hhash q (hmem q hq) p hp hqp)
  rw [Finset.empty_union] at hholds
  have hinj : Set.InjOn SPath.key (ps.toFinset : Set SPath) := fun q hq r hr hkey =>
    hhash q (by simpa using hq) r (by simpa using hr) (SPath.key_inj.mp hkey).2.2.2
  have hqueue := hholds.mem_queue (p := p) (fun q hq => hint q (by simpa using hq)) hinj
  rwa [topK_foldl_push, List.mem_toFinset] at hqueue

end DFS

/-- The search without its pruning: a debug flag makes both tests pass. -/
def BagParam.unpruned (param : BagParam) : BagParam := { param with dfsDbg := 1 }

namespace DFS

variable {param : BagParam} {timeOut : Nat → Bool} {plan : BagPlan} {day : DayNodes}

/-- The search within a day finds the same paths as without pruning: the best of the paths of all
complete orders. -/
theorem doSearch_best (hto : ∀ n, timeOut n = false) (hdist : TrafficNonneg plan)
    (hpen : Walk.PenaltiesNonneg param) (richPath : SPath) (blockIdx : Nat)
    (hhash : ∀ p ∈ orders param plan richPath blockIdx,
      ∀ q ∈ orders param plan richPath blockIdx, p.hash = q.hash → p = q) :
    ∃ ret paths paths', doSearch param timeOut plan richPath blockIdx = .ok (ret, paths) ∧
      doSearch param.unpruned timeOut plan richPath blockIdx = .ok (ret, paths') ∧
      (∀ p, p ∈ paths ↔ p ∈ paths') ∧
      ∀ p, p ∈ paths ↔ p ∈ orders param plan richPath blockIdx ∧
        ((orders param plan richPath blockIdx).toFinset.filter fun q => SPathCmp q p).card <
          param.dfsDayHeapLimit := by
  rw [doSearch, doSearch]
  rw [orders] at hhash ⊢
  cases hinit : DayNodes.init plan richPath blockIdx with
  | none => exact ⟨1, [], [], rfl, rfl, by simp, by simp⟩
  | some day =>
    rw [hinit] at hhash
    obtain ⟨s, -, hs, -, -, hheap⟩ := search_start param hto hinit
    obtain ⟨s', -, hs', -, -, hheap'⟩ := search_start param.unpruned hto hinit
    have hmono : Monotone param day := ⟨hpen, distNonneg_of_init hinit hdist⟩
    have hheap := hheap hmono
    have hheap' := hheap' ⟨⟨hpen.nonWalk, hpen.firstL⟩, hmono.dist⟩
    have hperm := comps_start param plan day
    have hint : ∀ p ∈ comps param plan day (start param day), p.IntScore := fun p hp =>
      (Walk.found_of_mem_tree (DayNodes.valid_of_init hinit) p hp).int
    have hsame : s'.heap = s.heap := hheap'.trans hheap.symm
    refine ⟨0, s.heap.queue, s'.heap.queue, by simp [hs], by simp [hs'],
      fun p => by rw [hsame], fun p => ?_⟩
    rw [hheap, mem_pushAll_start hint
      fun p hp q hq => hhash p (hperm.mem_iff.mp hp) q (hperm.mem_iff.mp hq), hperm.mem_iff,
      List.toFinset_eq_of_perm _ _ hperm]

/-! ## A day with two views -/

/-- The traffic between three places. -/
def towerTraffic : String → String → String → Option TrafficItem
  | "hotel", "tower", _ => some ⟨300, 800, .walking⟩
  | "hotel", "museum", _ => some ⟨900, 5000, .taxi⟩
  | "tower", "museum", _ => some ⟨600, 4000, .taxi⟩
  | "museum", "tower", _ => some ⟨600, 4500, .taxi⟩
  | "tower", "hotel", _ => some ⟨300, 800, .walking⟩
  | "museum", "hotel", _ => some ⟨900, 5000, .taxi⟩
  | _, _, _ => none

def towerBlock : TimeBlock :=
  let museum := ⟨"museum", "museum", [some ⟨32400, 64800, 61200⟩]⟩
  let tower := ⟨"tower", "tower", [some ⟨36000, 72000, 68400⟩]⟩
  ⟨[museum, tower], [("museum", museum), ("tower", tower)]⟩

/-- A day from a hotel to a museum and a tower and back. -/
def towerPlan : BagPlan where
  keyNode := [
    KeyNode.create (.place "hotel") 0 32400 "20180101" ⟨0, 0, 0, 0, 0⟩ 0 .hotelSleep .no false,
    KeyNode.create (.place "hotel") 64800 79200 "20180101" ⟨0, 0, 0, 0, 0⟩ 0 .hotelSleep .no false]
  traffic := fun ida idb date => (towerTraffic ida idb date).map TrafficItem.time
  blockList := [towerBlock]
  durSMap := [("museum", ⟨3600, 7200, 7200, 7200, 7200⟩), ("tower", ⟨3600, 3600, 3600, 3600, 3600⟩)]
  posPList := [.place "hotel", .place "hotel", .place "museum", .place "tower"]
  placeT := fun place => if place.ID = "hotel" then 0x4 else LY_PLACE_TYPE_VIEW
  vTypeList := [NODE_FUNC_NULL, NODE_FUNC_NULL, NODE_FUNC_PLACE_VIEW_SHOP,
    NODE_FUNC_PLACE_VIEW_SHOP]
  bidPList := [1, 1, 2, 4]
  trafDate := ["20180101"]
  durS := fun _ => {}
  trafficItem := towerTraffic
  traffic_eq := fun _ _ _ => rfl
  windows_ne_null := by
    intro bPos vPos block place hblock hplace _
    have hblock : block = towerBlock := List.mem_singleton.mp (List.mem_of_getElem? hblock)
    have hplaces : ∀ place ∈ [LYPlace.place "hotel", .place "hotel", .place "museum",
        .place "tower"], none ∉ BagTables.windowsOf towerBlock place := by decide
    exact hblock ▸ hplaces place (List.mem_of_getElem? hplace)

theorem towerPlan_nonneg : TrafficNonneg towerPlan := by
  intro ida idb date trafItem h
  simp only [towerPlan, towerTraffic] at h
  split at h <;> simp only [reduceCtorEq, Option.some.injEq] at h <;> subst h <;> decide

/-- The rich path of the day. -/
def towerRich : SPath := ((SPath.init towerPlan).pushV 0 2).pushV 0 3

/-- Of the two orders the search keeps the better one, the tower in front of the museum. -/
example : (doSearch {} (fun _ => false) towerPlan towerRich 0).toOption.map
    (fun r => r.2.map fun p => (p.vPosList, p.score)) = some [([3, 2], -11800)] := by
  decide +kernel

/-- Where the hashes differ at the leaves of the tree, they tell the orders apart. -/
theorem orders_inj {richPath : SPath} {blockIdx : Nat}
    (h : ∀ day ∈ DayNodes.init plan richPath blockIdx,
      ((comps param plan day (start param day)).map SPath.hash).Nodup) :
    ∀ p ∈ orders param plan richPath blockIdx, ∀ q ∈ orders param plan richPath blockIdx,
      p.hash = q.hash → p = q := by
  intro p hp q hq
  rw [orders] at hp hq
  cases hinit : DayNodes.init plan richPath blockIdx with
  | none => simp [hinit] at hp
  | some day =>
    rw [hinit] at hp hq
    exact List.inj_on_of_nodup_map (((comps_start param plan day).map _).nodup_iff.mp (h day hinit))
      hp hq

theorem doSearch_best_towerPlan :
    ∃ ret paths paths', doSearch {} (fun _ => false) towerPlan towerRich 0 = .ok (ret, paths) ∧
      doSearch (BagParam.unpruned {}) (fun _ => false) towerPlan towerRich 0 =
        .ok (ret, paths') ∧
      (∀ p, p ∈ paths ↔ p ∈ paths') ∧
      ∀ p, p ∈ paths ↔ p ∈ orders {} towerPlan towerRich 0 ∧
        ((orders {} towerPlan towerRich 0).toFinset.filter fun q => SPathCmp q p).card < 1 :=
  doSearch_best (fun _ => rfl) towerPlan_nonneg ⟨by decide, by decide⟩ towerRich 0
    (orders_inj (by decide +kernel))

end DFS

end PPView
