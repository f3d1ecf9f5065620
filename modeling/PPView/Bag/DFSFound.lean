import Mathlib.Data.List.GetD
import PPView.Bag.DFSearch
import PPView.Library.Tables

/-!
# What the search finds

Whenever its timer runs out, the search within a day has pushed paths of complete orders only, so
every path of a day visits all places that the rich path puts there, each once, and no more
restaurants than the two meals. The paths in the merged heaps are joined from such paths.
-/

namespace PPView

/-! ## Complete orders -/

namespace DFS

variable {param : BagParam} {timeOut : Nat → Bool} {plan : BagPlan} {day : DayNodes}
  {s s' s'' : DFS} {ps qs : List SPath}

/-- A call returns with the walk and the visited nodes restored, and what it has put into the heap
is in `ps`. -/
structure Finds (ps : List SPath) (s s' : DFS) : Prop where
  walk : s'.toWalk = s.toWalk
  visited : s'.visited = s.visited
  heap : ∀ q ∈ s'.heap.queue, q ∈ s.heap.queue ∨ q ∈ ps

namespace Finds

theorem refl (s : DFS) : Finds ps s s := ⟨rfl, rfl, fun _ h => .inl h⟩

theorem mono (h : Finds ps s s') (hsub : ps ⊆ qs) : Finds qs s s' :=
  ⟨h.walk, h.visited, fun q hq => (h.heap q hq).imp_right fun hq => hsub hq⟩

theorem trans (h : Finds ps s s') (h' : Finds ps s' s'') : Finds ps s s'' where
  walk := h'.walk.trans h.walk
  visited := h'.visited.trans h.visited
  heap q hq := (h'.heap q hq).elim (h.heap q) .inr

/-- Leaving a node restores what entering it changed. -/
theorem leave {idx : Nat} {trafItem : TrafficItem} (hidx : s.visited idx = false)
    (h : Finds ps (s.enter idx trafItem) s') : Finds ps s (s'.leave idx trafItem) where
  walk := by
    simp only [DFS.leave]
    rw [h.walk]
    exact leave_enter s.toWalk idx trafItem
  visited := by
    simp only [DFS.leave]
    rw [h.visited, DFS.enter, Function.update_idem, ← hidx, Function.update_eq_self]
  heap := h.heap

end Finds

theorem pushPath_finds (h : s.pushPath param plan day = .ok s') :
    Finds (s.close param plan day).toList s s' := by
  rw [pushPath] at h
  split_ifs at h
  · obtain rfl := Except.ok.inj h
    exact .refl s
  · obtain ⟨r, hr, h⟩ := bind_ok.mp h
    cases r with
    | none =>
      obtain rfl := Except.ok.inj h
      exact .refl s
    | some c =>
      obtain rfl := Except.ok.inj h
      refine ⟨rfl, rfl, fun q hq => ?_⟩
      have hmem : q ∈ (s.heap.pushAll [s.toWalk.sPath param plan day c.1 c.2]).queue := hq
      simpa [Walk.close, hr] using mem_pushAll hmem

theorem pushLast_finds (hinv : Inv day s) (h : s.pushLast param plan day = .ok s') :
    Finds (s.finish param plan day).toList s s' := by
  rw [pushLast] at h
  rw [Walk.finish]
  cases htraf : day.traf s.lastIdx (day.nodeNum - 1) with
  | none =>
    rw [htraf] at h
    obtain rfl := Except.ok.inj h
    exact .refl s
  | some trafItem =>
    rw [htraf] at h
    obtain ⟨t, ht, h⟩ := bind_ok.mp h
    obtain rfl := Except.ok.inj h
    exact (pushPath_finds ht).leave hinv.tail

theorem searchNode_finds {search : DFS → Res DFS} (hinv : Inv day s) {idx : Nat}
    (hidx : idx ∈ unused day s)
    (hsearch : ∀ s₁ s₂, Inv day s₁ → search s₁ = .ok s₂ → Finds (comps param plan day s₁) s₁ s₂)
    (h : searchNode day search s idx = .ok s') : Finds (branch param plan day s idx) s s' := by
  have hvisited := (mem_unused.mp hidx).2
  -- entering the node from a state that differs in the meals alone
  have henter : ∀ (leftRestNeed : UInt8) (trafItem : TrafficItem) (t : DFS),
      let s₀ : DFS := { s with leftRestNeed := leftRestNeed }
      search (s₀.enter idx trafItem) = .ok t →
      Finds (Orders.tree (Walk.visit day) (Walk.finish param plan day)
        ((unused day s).length - 1) (s₀.toWalk.enter idx trafItem) ((unused day s).erase idx))
        s₀ (t.leave idx trafItem) := by
    intro leftRestNeed trafItem t s₀ ht
    have hinv₀ : Inv day s₀ := ⟨hinv.tail, hinv.count⟩
    have hfinds := hsearch _ t (hinv₀.enter hidx trafItem) ht
    have hunused : unused day s₀ = unused day s := rfl
    rw [comps, unused_enter, hunused, List.length_erase_of_mem hidx] at hfinds
    exact hfinds.leave hvisited
  rw [searchNode, if_neg (by simp [hvisited])] at h
  rw [branch, Walk.visit]
  split_ifs at h with hrest
  · rw [searchRest] at h
    cases htraf : day.traf s.lastIdx idx with
    | none =>
      rw [htraf] at h
      obtain rfl := Except.ok.inj h
      exact .refl s
    | some trafItem =>
      cases hneed : Walk.restNeedAfter s.leftRestNeed (day.vTypeAt idx) with
      | none =>
        rw [htraf] at h
        simp only [hneed] at h
        obtain rfl := Except.ok.inj h
        exact .refl s
      | some leftRestNeed =>
        rw [htraf] at h
        simp only [hneed] at h
        obtain ⟨t, ht, h⟩ := bind_ok.mp h
        obtain rfl := Except.ok.inj h
        have hfinds := henter leftRestNeed trafItem t ht
        refine ⟨?_, hfinds.visited, by simpa [hrest] using hfinds.heap⟩
        exact congrArg (fun w : Walk => { w with leftRestNeed := s.leftRestNeed }) hfinds.walk
  · rw [searchView] at h
    cases htraf : day.traf s.lastIdx idx with
    | none =>
      rw [htraf] at h
      obtain rfl := Except.ok.inj h
      exact .refl s
    | some trafItem =>
      rw [htraf] at h
      obtain ⟨t, ht, h⟩ := bind_ok.mp h
      obtain rfl := Except.ok.inj h
      simpa [hrest] using henter s.leftRestNeed trafItem t ht

/-- The loop over the nodes; the visited ones are passed over. -/
theorem foldlM_finds {search : DFS → Res DFS}
    (hsearch : ∀ s₁ s₂, Inv day s₁ → search s₁ = .ok s₂ → Finds (comps param plan day s₁) s₁ s₂)
    {l : List Nat} (hl : ∀ idx ∈ l, idx ∈ day.inner) (hinv : Inv day s)
    (h : l.foldlM (searchNode day search) s = .ok s') :
    Finds ((unused day s).flatMap (branch param plan day s)) s s' := by
  induction l generalizing s with
  | nil =>
    obtain rfl := Except.ok.inj h
    exact .refl s
  | cons idx l ih =>
    obtain ⟨hidx, hl⟩ := List.forall_mem_cons.mp hl
    rw [List.foldlM_cons] at h
    obtain ⟨t, ht, h⟩ := bind_ok.mp h
    by_cases hvisited : s.visited idx = true
    · rw [searchNode, if_pos hvisited] at ht
      obtain rfl := Except.ok.inj ht
      exact ih hl hinv h
    · have hunused := mem_unused.mpr ⟨hidx, by simpa using hvisited⟩
      have hfirst := searchNode_finds hinv hunused hsearch ht
      have hrest := ih hl (hinv.congr hfirst.walk hfirst.visited) h
      have hbranch : branch param plan day t = branch param plan day s := by
        funext i
        rw [branch, branch, unused, unused, hfirst.visited, hfirst.walk]
      rw [hbranch, unused, hfirst.visited, ← unused] at hrest
      exact (hfirst.mono fun q hq => List.mem_flatMap.mpr ⟨idx, hunused, hq⟩).trans hrest

theorem search_finds {fuel : Nat} (hinv : Inv day s)
    (h : search param timeOut plan day fuel s = .ok s') :
    Finds (comps param plan day s) s s' := by
  induction fuel generalizing s s' with
  | zero => simp [search] at h
  | succ fuel ih =>
    rw [search] at h
    dsimp only at h
    by_cases htime : s.sCnt + 1 > 20000 ∧ timeOut (s.tCnt + (s.sCnt + 1)) = true
    · rw [if_pos htime] at h
      obtain rfl := Except.ok.inj h
      exact ⟨rfl, rfl, fun _ hq => .inl hq⟩
    · rw [if_neg htime] at h
      -- the counters are the only members that the checks of the timer change
      set s₁ : DFS := if s.sCnt + 1 > 20000 then
        { s with sCnt := 0, tCnt := s.tCnt + 20000 } else { s with sCnt := s.sCnt + 1 } with hs₁
      have hwalk : s₁.toWalk = s.toWalk := by rw [hs₁]; split_ifs <;> rfl
      have hvis : s₁.visited = s.visited := by rw [hs₁]; split_ifs <;> rfl
      have hheap : s₁.heap = s.heap := by rw [hs₁]; split_ifs <;> rfl
      have hinv₁ : Inv day s₁ := hinv.congr hwalk hvis
      have hcomps : comps param plan day s₁ = comps param plan day s := by
        rw [comps, comps, unused, unused, hvis, hwalk]
      suffices hfinds : Finds (comps param plan day s₁) s₁ s' by
        rw [hcomps] at hfinds
        exact ⟨hfinds.walk.trans hwalk, hfinds.visited.trans hvis, by
          rw [← hheap]; exact hfinds.heap⟩
      have hcount := hinv₁.count
      split_ifs at h with hlast hcan
      · have hunused : unused day s₁ = [] := List.eq_nil_of_length_eq_zero (by omega)
        rw [comps, hunused]
        exact pushLast_finds hinv₁ h
      · obtain rfl := Except.ok.inj h
        exact .refl s₁
      · obtain ⟨m, hm⟩ : ∃ m, (unused day s₁).length = m + 1 :=
          ⟨_, (Nat.succ_pred (by omega)).symm⟩
        convert foldlM_finds (fun s₁ s₂ hinv h => ih hinv h) (fun _ hidx => hidx) hinv₁ h using 1
        rw [comps, hm, Orders.tree]
        refine congrArg (List.flatMap · _) (funext fun idx => ?_)
        rw [branch, hm]
        cases s₁.visit day idx <;> rfl

/-- The search of a day finds complete orders of its places. -/
theorem mem_doSearch {richPath : SPath} {blockIdx ret : Nat} {paths : List SPath} {p : SPath}
    (h : doSearch param timeOut plan richPath blockIdx = .ok (ret, paths)) (hp : p ∈ paths) :
    ∃ day order, DayNodes.init plan richPath blockIdx = some day ∧ order.Perm day.inner ∧
      Orders.run (Walk.visit day) (Walk.finish param plan day) day.startWalk order = some p := by
  rw [doSearch] at h
  cases hinit : DayNodes.init plan richPath blockIdx with
  | none =>
    rw [hinit] at h
    obtain ⟨-, rfl⟩ := Prod.mk.inj (Except.ok.inj h)
    simp at hp
  | some day =>
    rw [hinit] at h
    obtain ⟨s, hs, h⟩ := bind_ok.mp h
    obtain ⟨-, rfl⟩ := Prod.mk.inj (Except.ok.inj h)
    rcases (search_finds (inv_start (DayNodes.valid_of_init hinit)) hs).heap p hp with hp | hp
    · simp [start] at hp
    · have hp := (comps_start param plan day).mem_iff.mp hp
      obtain ⟨order, horder, hrun⟩ := List.mem_filterMap.mp hp
      exact ⟨day, order, rfl, List.mem_permutations.mp horder, hrun⟩

end DFS

/-! ## Points -/

namespace SPath

variable {p : SPath} {l : List (Nat × Nat)}

@[simp] theorem points_calHashPointOrder (p : SPath) : p.calHashPointOrder.points = p.points := by
  rw [calHashPointOrder]
  split_ifs <;> rfl

@[simp]
theorem nodeNum_calHashPointOrder (p : SPath) : p.calHashPointOrder.nodeNum = p.nodeNum := by
  rw [calHashPointOrder]
  split_ifs <;> rfl

@[simp] theorem nodeNum_calHashPointSet (p : SPath) (plan : BagPlan) :
    (p.calHashPointSet plan).nodeNum = p.nodeNum := by
  rw [calHashPointSet]
  split_ifs <;> rfl

@[simp] theorem points_calHashPointSet (p : SPath) (plan : BagPlan) :
    (p.calHashPointSet plan).points = p.points := by
  rw [calHashPointSet]
  split_ifs <;> rfl

/-- Positions that a path can take behind its own. -/
structure Takes (p : SPath) (l : List (Nat × Nat)) : Prop where
  block : ∀ x ∈ l, x.2 < p.blockNum
  node : ∀ vPos ∈ p.vPosList ++ l.map Prod.fst, vPos < p.nodeNum
  nodup : (p.vPosList ++ l.map Prod.fst).Nodup

theorem Takes.length_le (h : p.Takes l) : p.len + l.length ≤ p.nodeNum := by
  have hsub : p.vPosList ++ l.map Prod.fst ⊆ List.range p.nodeNum := fun v hv =>
    List.mem_range.mpr (h.node v hv)
  have hlen := (h.nodup.subperm hsub).length_le
  simpa [vPosList, len] using hlen

theorem Takes.push {x : Nat × Nat} (h : p.Takes (x :: l)) :
    p.pushV x.2 x.1 = { p with points := p.points ++ [x] } := by
  have hlen := h.length_le
  have hblock := h.block x List.mem_cons_self
  have hnode := h.node x.1 (by simp)
  rw [List.length_cons] at hlen
  rw [pushV, if_neg (by omega), if_neg (by omega)]

/-- Nothing gets lost of positions that are pushed once each. -/
theorem Takes.foldl_pushV (h : p.Takes l) :
    l.foldl (fun p x => p.pushV x.2 x.1) p = { p with points := p.points ++ l } := by
  induction l generalizing p with
  | nil => simp
  | cons x l ih =>
    have hrest : SPath.Takes { p with points := p.points ++ [x] } l := by
      refine ⟨fun y hy => h.block y (List.mem_cons_of_mem _ hy), ?_, ?_⟩
      · simpa [vPosList] using h.node
      · simpa [vPosList] using h.nodup
    rw [List.foldl_cons, h.push, ih hrest]
    simp

end SPath

/-! ## The path of a day -/

/-- The meals that are needed. -/
def meals (restNeed : UInt8) : Nat :=
  (if restNeed &&& NODE_FUNC_PLACE_REST_LUNCH ≠ 0 then 1 else 0) +
    if restNeed &&& NODE_FUNC_PLACE_REST_SUPPER ≠ 0 then 1 else 0

theorem meals_le (restNeed : UInt8) : meals restNeed ≤ 2 := by
  unfold meals
  split_ifs <;> omega

namespace Walk

variable {param : BagParam} {plan : BagPlan} {day : DayNodes} {w w' : Walk} {order : List Nat}
  {p : SPath}

/-- A restaurant takes a meal. -/
theorem meals_restNeedAfter {leftRestNeed vType leftRestNeed' : UInt8}
    (h : restNeedAfter leftRestNeed vType = some leftRestNeed') :
    meals leftRestNeed' + 1 ≤ meals leftRestNeed := by
  have hlunch : ∀ x : UInt8,
      x &&& ~~~NODE_FUNC_PLACE_REST_LUNCH &&& NODE_FUNC_PLACE_REST_LUNCH = 0 :=
    fun x => by rw [UInt8.and_assoc]; exact UInt8.and_zero
  have hsupper : ∀ x : UInt8,
      x &&& ~~~NODE_FUNC_PLACE_REST_SUPPER &&& NODE_FUNC_PLACE_REST_SUPPER = 0 :=
    fun x => by rw [UInt8.and_assoc]; exact UInt8.and_zero
  have hkeep : ∀ x : UInt8, x &&& ~~~NODE_FUNC_PLACE_REST_LUNCH &&& NODE_FUNC_PLACE_REST_SUPPER =
      x &&& NODE_FUNC_PLACE_REST_SUPPER := fun x => by rw [UInt8.and_assoc]; rfl
  have hkeep' : ∀ x : UInt8, x &&& ~~~NODE_FUNC_PLACE_REST_SUPPER &&& NODE_FUNC_PLACE_REST_LUNCH =
      x &&& NODE_FUNC_PLACE_REST_LUNCH := fun x => by rw [UInt8.and_assoc]; rfl
  unfold restNeedAfter at h
  split_ifs at h with hno h1 h2
  · obtain rfl := Option.some.inj h
    unfold meals
    rw [hlunch, hkeep, if_neg (not_not.mpr rfl), if_pos h1]
    omega
  · obtain rfl := Option.some.inj h
    unfold meals
    rw [hsupper, hkeep', if_neg (not_not.mpr rfl), if_pos h2]

theorem visit_spec {idx : Nat} (h : w.visit day idx = some w') :
    w'.path = w.path ++ [idx] ∧
      meals w'.leftRestNeed + (if isRestaurant (day.vTypeAt idx) then 1 else 0) ≤
        meals w.leftRestNeed := by
  unfold visit at h
  cases htraf : day.traf w.lastIdx idx with
  | none => simp [htraf] at h
  | some trafItem =>
    rw [htraf] at h
    dsimp only at h
    by_cases hrest : isRestaurant (day.vTypeAt idx) = true
    · rw [if_pos hrest] at h
      obtain ⟨left, hneed, rfl⟩ := Option.map_eq_some_iff.mp h
      rw [if_pos hrest]
      exact ⟨rfl, meals_restNeedAfter hneed⟩
    · rw [if_neg hrest] at h
      obtain rfl := Option.some.inj h
      rw [if_neg hrest]
      exact ⟨rfl, le_rfl⟩

/-- What a complete order leads to visits its nodes, and no more restaurants than the meals that
are needed. -/
theorem run_ends (h : Orders.run (visit day) (finish param plan day) w order = some p) :
    (∃ w' : Walk, ∃ clash firstL, p = w'.sPath param plan day clash firstL ∧
      w'.path = w.path ++ order ++ [day.nodeNum - 1]) ∧
    (order.filter fun idx => isRestaurant (day.vTypeAt idx)).length ≤ meals w.leftRestNeed := by
  induction order generalizing w with
  | nil =>
    obtain ⟨trafItem, -, h⟩ := Option.bind_eq_some_iff.mp h
    refine ⟨⟨w.enter (day.nodeNum - 1) trafItem, ?_⟩, Nat.zero_le _⟩
    unfold close at h
    split at h
    · obtain rfl := Option.some.inj h
      exact ⟨_, _, rfl, by simp [enter]⟩
    · simp at h
  | cons idx order ih =>
    obtain ⟨w₁, hvisit, h⟩ := Option.bind_eq_some_iff.mp h
    obtain ⟨hpath, hmeals⟩ := visit_spec hvisit
    obtain ⟨⟨w', clash, firstL, hp, hpath'⟩, hcount⟩ := ih h
    refine ⟨⟨w', clash, firstL, hp, by simp [hpath', hpath]⟩, ?_⟩
    rw [List.filter_cons]
    split_ifs at hmeals ⊢
    · rw [List.length_cons]
      omega
    · omega

end Walk

namespace DayNodes

variable {plan : BagPlan} {richPath : SPath} {blockIdx : Nat} {day : DayNodes}

theorem isSome_of_mapM {α β : Type} {f : α → Option β} {l : List α} {l' : List β}
    (h : l.mapM f = some l') : ∀ x ∈ l, (f x).isSome := by
  induction l generalizing l' with
  | nil => simp
  | cons x l ih =>
    obtain ⟨y, hy, ys, hys, rfl⟩ : ∃ y, f x = some y ∧ ∃ ys, l.mapM f = some ys ∧ y :: ys = l' := by
      simpa [List.mapM_cons, Option.bind_eq_some_iff] using h
    exact List.forall_mem_cons.mpr ⟨by simp [hy], ih hys⟩

/-- The nodes that `Init` takes from a rich path. -/
structure Holds (plan : BagPlan) (richPath : SPath) (blockIdx : Nat) (day : DayNodes) : Prop where
  bPos : day.bPos = blockIdx
  block : blockIdx < plan.blockNum
  vPosList : ∃ vs, vs.Perm (richPath.posList blockIdx) ∧
    day.vPosList = blockIdx :: vs ++ [blockIdx + 1]
  node : ∀ vPos ∈ day.vPosList, vPos < plan.nodeNum
  vType : day.vType = fixRestTypes (day.vPosList.map (plan.getVType blockIdx))

theorem holds_of_init (h : init plan richPath blockIdx = some day) :
    day.Holds plan richPath blockIdx := by
  simp only [init] at h
  split_ifs at h
  simp only [init4Clash, bind, Option.bind_eq_some_iff] at h
  obtain ⟨block, hblock, fromKey, -, toKey, -, places, hplaces, h⟩ := h
  obtain rfl := Option.some.inj h
  refine ⟨rfl, (List.getElem?_eq_some_iff.mp hblock).1, ⟨_, List.perm_insertionSort _ _, rfl⟩,
    fun vPos hv => ?_, rfl⟩
  obtain ⟨place, hplace⟩ := Option.isSome_iff_exists.mp (isSome_of_mapM hplaces vPos hv)
  exact (List.getElem?_eq_some_iff.mp hplace).1

/-- The types that `Init` changes stay those of restaurants. -/
theorem Holds.isRestaurant_vTypeAt (h : day.Holds plan richPath blockIdx) {idx : Nat}
    (hidx : idx < day.nodeNum) : isRestaurant (day.vTypeAt idx) =
      isRestaurant (plan.getVType blockIdx (day.vPosAt idx)) := by
  rw [vTypeAt, h.vType, isRestaurant_fixRestTypes, vPosAt, List.getD_eq_getElem _ _ hidx,
    List.getD_eq_getElem _ _ (by rw [List.length_map]; exact hidx),
    List.getElem_map]
  rfl

theorem Holds.vPosAt_inner (h : day.Holds plan richPath blockIdx) :
    (day.inner.map day.vPosAt).Perm (richPath.posList blockIdx) := by
  obtain ⟨vs, hperm, hlist⟩ := h.vPosList
  have hmap : day.inner.map day.vPosAt = vs := by
    refine List.ext_getElem ?_ fun i hi hi' => ?_
    · simp [inner, nodeNum, hlist]
    · simp [inner, vPosAt, hlist, Nat.add_comm 1 i, List.getElem?_append_left hi', hi']
  rw [hmap]
  exact hperm

end DayNodes

/-- A path of a block: it has every position that the rich path puts there, each once, and no more
restaurants than meals. -/
structure DayPath (plan : BagPlan) (richPath : SPath) (blockIdx : Nat) (p : SPath) : Prop where
  nodeNum : p.nodeNum = plan.nodeNum
  block : blockIdx < plan.blockNum
  points : p.points = p.vPosList.map (·, blockIdx)
  perm : p.vPosList.Perm (richPath.posList blockIdx)
  node : ∀ vPos ∈ p.vPosList, vPos < plan.nodeNum
  rests : (p.vPosList.filter fun vPos => isRestaurant (plan.getVType blockIdx vPos)).length ≤ 2

theorem SPath.nodup_posList {p : SPath} (h : p.vPosList.Nodup) (bPos : Nat) :
    (p.posList bPos).Nodup := h.filter _

theorem DFS.dayPath_of_mem {param : BagParam} {timeOut : Nat → Bool} {plan : BagPlan}
    {richPath : SPath} {blockIdx ret : Nat} {paths : List SPath} {p : SPath}
    (hnodup : richPath.vPosList.Nodup)
    (h : doSearch param timeOut plan richPath blockIdx = .ok (ret, paths)) (hp : p ∈ paths) :
    DayPath plan richPath blockIdx p := by
  obtain ⟨day, order, hinit, hperm, hrun⟩ := mem_doSearch h hp
  have hday := DayNodes.holds_of_init hinit
  obtain ⟨⟨w, clash, firstL, rfl, hpath⟩, hmeals⟩ := Walk.run_ends hrun
  have hinner : ∀ idx ∈ order, idx < day.nodeNum := by
    intro idx hidx
    have hidx := hperm.mem_iff.mp hidx
    rw [DayNodes.inner, List.mem_range'_1] at hidx
    omega
  have hvs := (hperm.map day.vPosAt).trans hday.vPosAt_inner
  have htakes : (SPath.init plan).Takes (order.map fun idx => (day.vPosAt idx, day.bPos)) := by
    refine ⟨?_, ?_, ?_⟩
    · simp [hday.bPos, SPath.init, hday.block]
    · intro v hv
      simp only [SPath.init, SPath.vPosList, List.map_nil, List.nil_append, List.map_map,
        List.mem_map, Function.comp_def] at hv
      obtain ⟨idx, hidx, rfl⟩ := hv
      refine hday.node _ ?_
      rw [DayNodes.vPosAt, List.getD_eq_getElem _ _ (hinner idx hidx)]
      exact List.getElem_mem _
    · simpa [SPath.init, SPath.vPosList, Function.comp_def] using
        hvs.nodup_iff.mpr (SPath.nodup_posList hnodup blockIdx)
  have hfold := htakes.foldl_pushV
  rw [List.foldl_map] at hfold
  dsimp only at hfold
  have hinside : w.path.tail.dropLast = order := by
    rw [hpath]
    simp [DayNodes.startWalk]
  have hpoints : (w.sPath param plan day clash firstL).points =
      order.map fun idx => (day.vPosAt idx, day.bPos) := by
    rw [Walk.sPath]
    simp only [hinside, hfold]
    simp [SPath.setDist, SPath.setClash, SPath.setFirstL, SPath.setScore, SPath.init]
  have hvPosList : (w.sPath param plan day clash firstL).vPosList = order.map day.vPosAt := by
    simp [SPath.vPosList, hpoints, Function.comp_def]
  refine ⟨?_, hday.block, ?_, ?_, ?_, ?_⟩
  · rw [Walk.sPath]
    simp only [hinside, hfold]
    simp [SPath.setDist, SPath.setClash, SPath.setFirstL, SPath.setScore, SPath.init]
  · simp [hpoints, hvPosList, hday.bPos, Function.comp_def]
  · rw [hvPosList]
    exact hvs
  · intro v hv
    refine htakes.node v (List.mem_append_right _ ?_)
    rw [hvPosList] at hv
    simpa [Function.comp_def] using hv
  · rw [hvPosList, List.filter_map, List.length_map]
    refine le_trans (le_of_eq ?_) (hmeals.trans (meals_le _))
    refine congrArg List.length (List.filter_congr fun idx hidx => ?_)
    exact (hday.isRestaurant_vTypeAt (hinner idx hidx)).symm

/-! ## The joined path -/

namespace SPath

variable {p : SPath}

theorem getBPos_of_mem (hnodup : p.vPosList.Nodup) {x : Nat × Nat} (hx : x ∈ p.points)
    (hnode : x.1 < p.nodeNum) : p.getBPos x.1 = x.2 := by
  have hnodup' : (p.points.reverse.map Prod.fst).Nodup := by
    rw [List.map_reverse, List.nodup_reverse]
    exact hnodup
  rw [getBPos, if_neg (by omega), lookup_of_mem hnodup' (List.mem_reverse.mpr hx)]
  rfl

end SPath

namespace DayPath

variable {plan : BagPlan} {richPath p : SPath} {blockIdx : Nat}

theorem nodup (h : DayPath plan richPath blockIdx p) (hnodup : richPath.vPosList.Nodup) :
    p.vPosList.Nodup := h.perm.nodup_iff.mpr (SPath.nodup_posList hnodup blockIdx)

/-- The loop of `JoinDayPath` over a path of a day. -/
theorem foldl_range (h : DayPath plan richPath blockIdx p) (hnodup : richPath.vPosList.Nodup)
    (q : SPath) :
    (List.range p.len).foldl (fun q j => q.pushV (p.getBPos (p.getVPos j)) (p.getVPos j)) q =
      p.points.foldl (fun q x => q.pushV x.2 x.1) q := by
  have hmap : p.points =
      (List.range p.len).map fun j => (p.getVPos j, p.getBPos (p.getVPos j)) := by
    refine List.ext_getElem (by simp [SPath.len]) fun i hi hi' => ?_
    have hmem := List.getElem_mem hi
    have hnode : p.points[i].1 < p.nodeNum := by
      rw [h.nodeNum]
      exact h.node _ (List.mem_map_of_mem hmem)
    have hbPos := SPath.getBPos_of_mem (h.nodup hnodup) hmem hnode
    simp [SPath.getVPos, List.getElem?_eq_getElem hi, hbPos]
  rw [hmap, List.foldl_map]

end DayPath

namespace DFSWorker

variable {param : BagParam} {timeOut : Nat → Nat → Bool} {plan : BagPlan} {richPath p : SPath}
  {tmpList : List SPath} {blocks : List Nat}

/-- A path for each of the blocks. -/
abbrev DayPaths (plan : BagPlan) (richPath : SPath) (tmpList : List SPath) (blocks : List Nat) :
    Prop := List.Forall₂ (fun p blockIdx => DayPath plan richPath blockIdx p) tmpList blocks

theorem dayPaths_of_mem_choices (hnodup : richPath.vPosList.Nodup)
    (h : tmpList ∈ choices ((List.range plan.blockNum).map
      (dayPaths param timeOut plan richPath))) :
    DayPaths plan richPath tmpList (List.range plan.blockNum) := by
  rw [mem_choices, List.forall₂_map_right_iff] at h
  refine h.imp fun p blockIdx hp => ?_
  rw [dayPaths] at hp
  cases hsearch : DFS.doSearch param (timeOut blockIdx) plan richPath blockIdx with
  | error e => simp [hsearch] at hp
  | ok r => exact DFS.dayPath_of_mem hnodup hsearch (by simpa [hsearch] using hp)

theorem DayPaths.perm (h : DayPaths plan richPath tmpList blocks) :
    (tmpList.flatMap SPath.vPosList).Perm (blocks.flatMap richPath.posList) := by
  induction h with
  | nil => exact .refl _
  | cons hp _ ih => exact hp.perm.append ih

theorem DayPaths.nodup (h : DayPaths plan richPath tmpList blocks)
    (hnodup : richPath.vPosList.Nodup) (hblocks : blocks.Nodup) :
    (tmpList.flatMap SPath.vPosList).Nodup := by
  refine h.perm.nodup_iff.mpr (List.nodup_flatMap.mpr ⟨fun b _ => SPath.nodup_posList hnodup b, ?_⟩)
  refine hblocks.pairwise_of_forall_ne fun b _ b' _ hne => ?_
  rw [Function.onFun, List.disjoint_left]
  intro v hv hv'
  simp only [SPath.posList, List.mem_filter, decide_eq_true_eq] at hv hv'
  exact hne (hv.2.symm.trans hv'.2)

theorem DayPaths.foldl_pushV (h : DayPaths plan richPath tmpList blocks)
    (hnodup : richPath.vPosList.Nodup) (q : SPath) :
    tmpList.foldl (fun q p => (List.range p.len).foldl
      (fun q j => q.pushV (p.getBPos (p.getVPos j)) (p.getVPos j)) q) q =
      (tmpList.flatMap SPath.points).foldl (fun q x => q.pushV x.2 x.1) q := by
  induction h generalizing q with
  | nil => rfl
  | cons hp _ ih =>
    rw [List.foldl_cons, hp.foldl_range hnodup, ih, List.flatMap_cons, List.foldl_append]

theorem DayPaths.mem_points (h : DayPaths plan richPath tmpList blocks) :
    ∀ x ∈ tmpList.flatMap SPath.points, x.2 < plan.blockNum ∧ x.1 < plan.nodeNum := by
  induction h with
  | nil => simp
  | cons hp _ ih =>
    intro x hx
    rcases List.mem_append.mp hx with hx | hx
    · refine ⟨?_, hp.node _ (List.mem_map_of_mem hx)⟩
      rw [hp.points] at hx
      obtain ⟨v, -, rfl⟩ := List.mem_map.mp hx
      exact hp.block
    · exact ih x hx

/-- Joining keeps the positions of all days. -/
theorem DayPaths.joinPath_eq (h : DayPaths plan richPath tmpList (List.range plan.blockNum))
    (hnodup : richPath.vPosList.Nodup) :
    (joinPath plan richPath tmpList).points = tmpList.flatMap SPath.points ∧
      (joinPath plan richPath tmpList).nodeNum = plan.nodeNum := by
  have htakes : (SPath.init plan).Takes (tmpList.flatMap SPath.points) := by
    refine ⟨fun x hx => (DayPaths.mem_points h x hx).1, fun v hv => ?_, ?_⟩
    · simp only [SPath.init, SPath.vPosList, List.map_nil, List.nil_append] at hv
      obtain ⟨x, hx, rfl⟩ := List.mem_map.mp hv
      exact (DayPaths.mem_points h x hx).2
    · have hdays := DayPaths.nodup h hnodup List.nodup_range
      have hmap : tmpList.flatMap SPath.vPosList = (tmpList.flatMap SPath.points).map Prod.fst := by
        rw [List.map_flatMap]
        rfl
      simpa [SPath.init, SPath.vPosList, ← hmap] using hdays
  have hfold := DayPaths.foldl_pushV h hnodup (SPath.init plan)
  rw [htakes.foldl_pushV] at hfold
  rw [joinPath]
  simp only [SPath.points_calHashPointSet, SPath.points_calHashPointOrder,
    SPath.nodeNum_calHashPointSet, SPath.nodeNum_calHashPointOrder, SPath.setHashFrom,
    SPath.setMissLevel, SPath.setScore, SPath.setFirstL, SPath.setClash, SPath.setDist,
    SPath.setHot]
  rw [hfold]
  exact ⟨rfl, rfl⟩

theorem DayPaths.exists_lists (h : DayPaths plan richPath tmpList blocks) (hblocks : blocks.Nodup) :
    ∃ lists : Nat → List Nat,
      tmpList.flatMap SPath.points = blocks.flatMap (fun b => (lists b).map (·, b)) ∧
      ∀ b ∈ blocks, (lists b).Perm (richPath.posList b) ∧
        ((lists b).filter fun vPos => isRestaurant (plan.getVType b vPos)).length ≤ 2 := by
  induction h with
  | nil => exact ⟨fun _ => [], rfl, by simp⟩
  | @cons p b tmpList blocks hp _ ih =>
    obtain ⟨hb, hblocks⟩ := List.nodup_cons.mp hblocks
    obtain ⟨lists, hpoints, hlists⟩ := ih hblocks
    have hne : ∀ b' ∈ blocks, b' ≠ b := fun b' hb' heq => hb (heq ▸ hb')
    refine ⟨Function.update lists b p.vPosList, ?_, List.forall_mem_cons.mpr ⟨?_, ?_⟩⟩
    · rw [List.flatMap_cons, List.flatMap_cons, Function.update_self, hpoints, hp.points]
      refine congrArg _ (List.flatMap_congr fun b' hb' => ?_)
      rw [Function.update_of_ne (hne b' hb')]
    · rw [Function.update_self]
      exact ⟨hp.perm, hp.rests⟩
    · intro b' hb'
      rw [Function.update_of_ne (hne b' hb')]
      exact hlists b' hb'

end DFSWorker

theorem flatMap_ite_eq_of_mem {α : Type} {l : List Nat} (hnodup : l.Nodup) {b : Nat} (hb : b ∈ l)
    (f : Nat → List α) : (l.flatMap fun b' => if b' = b then f b' else []) = f b := by
  induction l with
  | nil => simp at hb
  | cons b' l ih =>
    obtain ⟨hb', hnodup⟩ := List.nodup_cons.mp hnodup
    rw [List.flatMap_cons]
    rcases List.mem_cons.mp hb with rfl | hb
    · have hrest : (l.flatMap fun b' => if b' = b then f b' else []) = [] := by
        refine List.flatMap_eq_nil_iff.mpr fun b' hmem => if_neg ?_
        rintro rfl
        exact hb' hmem
      rw [if_pos rfl, hrest, List.append_nil]
    · have hne : b' ≠ b := fun heq => hb' (heq ▸ hb)
      rw [if_neg hne, ih hnodup hb]
      rfl

/-- A path that is joined for a rich path: block by block it has the positions that the rich path
puts there, each once, and no more restaurants than meals. -/
structure JoinedPath (plan : BagPlan) (richPath p : SPath) : Prop where
  nodeNum : p.nodeNum = plan.nodeNum
  nodup : p.vPosList.Nodup
  node : ∀ vPos ∈ p.vPosList, vPos < plan.nodeNum
  points : p.points = (List.range plan.blockNum).flatMap fun b => (p.posList b).map (·, b)
  perm : ∀ b < plan.blockNum, (p.posList b).Perm (richPath.posList b)
  rests : ∀ b < plan.blockNum,
    ((p.posList b).filter fun vPos => isRestaurant (plan.getVType b vPos)).length ≤ 2

namespace DFSWorker

variable {param : BagParam} {timeOut : Nat → Nat → Bool} {plan : BagPlan} {richPath p : SPath}

theorem joinedPath_of_mem (hnodup : richPath.vPosList.Nodup)
    (h : p ∈ joinedPaths param timeOut plan richPath) : JoinedPath plan richPath p := by
  obtain ⟨tmpList, htmp, rfl⟩ := List.mem_map.mp h
  have hdays := dayPaths_of_mem_choices hnodup htmp
  obtain ⟨hpoints, hnodeNum⟩ := DayPaths.joinPath_eq hdays hnodup
  obtain ⟨lists, hlists, hspec⟩ := DayPaths.exists_lists hdays List.nodup_range
  generalize joinPath plan richPath tmpList = p at *
  have hvPosList : p.vPosList = tmpList.flatMap SPath.vPosList := by
    rw [SPath.vPosList, hpoints, List.map_flatMap]
    rfl
  have hpnodup : p.vPosList.Nodup := by
    rw [hvPosList]
    exact DayPaths.nodup hdays hnodup List.nodup_range
  have hnode : ∀ x ∈ p.points, x.1 < p.nodeNum := by
    rw [hpoints, hnodeNum]
    exact fun x hx => (DayPaths.mem_points hdays x hx).2
  have hposList : ∀ b < plan.blockNum, p.posList b = lists b := by
    intro b hb
    have hfilter : p.posList b = (p.points.filter fun x => x.2 = b).map Prod.fst := by
      rw [SPath.posList, SPath.vPosList, List.filter_map]
      refine congrArg _ (List.filter_congr fun x hx => ?_)
      simp [SPath.getBPos_of_mem hpnodup hx (hnode x hx)]
    have hblock : ∀ b', ((lists b').map (·, b')).filter (fun x => x.2 = b) =
        if b' = b then (lists b').map (·, b') else [] := by
      intro b'
      split_ifs with heq <;> simp [heq]
    rw [hfilter, hpoints, hlists, List.filter_flatMap]
    simp only [hblock]
    rw [flatMap_ite_eq_of_mem List.nodup_range (List.mem_range.mpr hb)
      fun b' => (lists b').map (·, b')]
    simp [Function.comp_def]
  refine ⟨hnodeNum, hpnodup, ?_, ?_, fun b hb => ?_, fun b hb => ?_⟩
  · intro v hv
    obtain ⟨x, hx, rfl⟩ := List.mem_map.mp hv
    exact hnodeNum ▸ hnode x hx
  · rw [hpoints, hlists]
    exact List.flatMap_congr fun b hb => by rw [hposList b (List.mem_range.mp hb)]
  · rw [hposList b hb]
    exact (hspec b (List.mem_range.mpr hb)).1
  · rw [hposList b hb]
    exact (hspec b (List.mem_range.mpr hb)).2

/-! ## What the heaps hold -/

theorem mem_push {heap : SPathHeap} {q : SPath} (hq : q ∈ (heap.push p).queue) :
    q ∈ heap.queue ∨ q = p := by
  have hmem : q ∈ (heap.pushAll [p]).queue := hq
  simpa using DFS.mem_pushAll hmem

theorem mem_joinDayPath {daySPList : List (List SPath)} {tmpList : List SPath} {heap : SPathHeap}
    {q : SPath} (hq : q ∈ (joinDayPath param plan richPath daySPList tmpList heap).queue) :
    q ∈ heap.queue ∨ ∃ l ∈ choices daySPList, q = joinPath plan richPath (tmpList ++ l) := by
  induction daySPList generalizing tmpList heap with
  | nil =>
    rw [joinDayPath] at hq
    split_ifs at hq
    · exact .inl hq
    · exact (mem_push hq).imp_right fun hq => ⟨[], by simp [choices], by simpa using hq⟩
  | cons sPathList daySPList ih =>
    rw [joinDayPath] at hq
    have key : ∀ (l : List SPath) (heap : SPathHeap), q ∈ (l.foldl (fun dfsHeap sPath =>
        joinDayPath param plan richPath daySPList (tmpList ++ [sPath]) dfsHeap) heap).queue →
        q ∈ heap.queue ∨ ∃ sPath ∈ l, ∃ rest ∈ choices daySPList,
          q = joinPath plan richPath (tmpList ++ [sPath] ++ rest) := by
      intro l
      induction l with
      | nil => exact fun _ h => .inl h
      | cons sPath l ihl =>
        intro heap h
        rcases ihl _ h with h | ⟨sPath', hmem, rest, hrest, rfl⟩
        · rcases ih h with h | ⟨rest, hrest, rfl⟩
          · exact .inl h
          · exact .inr ⟨sPath, List.mem_cons_self, rest, hrest, rfl⟩
        · exact .inr ⟨sPath', List.mem_cons_of_mem _ hmem, rest, hrest, rfl⟩
    rcases key sPathList heap hq with hq | ⟨sPath, hmem, rest, hrest, rfl⟩
    · exact .inl hq
    · refine .inr ⟨sPath :: rest, ?_, by simp⟩
      exact List.mem_flatMap.mpr ⟨sPath, hmem, List.mem_map_of_mem hrest⟩

theorem map_of_mapM_ok {α β : Type} {f : α → Res β} {g : α → β} {l : List α} {l' : List β}
    (hg : ∀ x y, f x = .ok y → y = g x) (h : l.mapM f = .ok l') : l' = l.map g := by
  induction l generalizing l' with
  | nil =>
    obtain rfl := Except.ok.inj h
    rfl
  | cons x l ih =>
    rw [List.mapM_cons] at h
    obtain ⟨y, hy, h⟩ := bind_ok.mp h
    obtain ⟨ys, hys, h⟩ := bind_ok.mp h
    obtain rfl := Except.ok.inj h
    rw [List.map_cons, hg x y hy, ih hys]

/-- A job adds joined paths of its rich path only. -/
theorem mem_doWork {timer : Timer} {copyVal : Nat → List SPath → List SPath}
    (hcopy : ∀ b l, (copyVal b l).Perm l) {tmPool tmPool' : ThreadMemPool}
    (h : doWork param plan timer richPath copyVal tmPool = .ok tmPool') {hash : UInt32}
    {q : SPath} (hq : q ∈ (getDFSHeap param tmPool'.dfsHeapMap hash).queue) :
    q ∈ (getDFSHeap param tmPool.dfsHeapMap hash).queue ∨
      q ∈ joinedPaths param timer.search plan richPath := by
  rw [doWork] at h
  split_ifs at h
  · obtain rfl := Except.ok.inj h
    exact .inl hq
  · obtain ⟨daySPList, hdays, h⟩ := bind_ok.mp h
    obtain rfl := Except.ok.inj h
    have hmap := map_of_mapM_ok
      (g := fun b => copyVal b (dayPaths param timer.search plan richPath b)) (fun b y hy => by
        obtain ⟨r, hr, rfl⟩ : ∃ r, DFS.doSearch param (timer.search b) plan richPath b = .ok r ∧
            copyVal b r.2 = y := by
          cases hr : DFS.doSearch param (timer.search b) plan richPath b with
          | error e => rw [hr] at hy; exact absurd hy (by simp [Functor.map, Except.map])
          | ok r => rw [hr] at hy; exact ⟨r, rfl, Except.ok.inj hy⟩
        rw [dayPaths, hr]) hdays
    by_cases hhash : hash = richPath.hashPointSet
    · subst hhash
      rw [getDFSHeap, AList.lookup_insert, Option.getD_some] at hq
      refine (mem_joinDayPath hq).imp_right ?_
      rintro ⟨l, hl, rfl⟩
      rw [hmap, mem_choices_congr fun b x => (hcopy b _).mem_iff] at hl
      exact List.mem_map_of_mem hl
    · rw [getDFSHeap, AList.lookup_insert_ne hhash] at hq
      exact .inl hq

variable {τ : Type} [DecidableEq τ]

theorem mem_runJobs {pools pools' : τ → ThreadMemPool} {jobs : List (Job τ)}
    (hcopy : ∀ job ∈ jobs, ∀ b l, (job.copyVal b l).Perm l)
    (h : runJobs param plan pools jobs = .ok pools')
    {thread : τ} {hash : UInt32} {q : SPath}
    (hq : q ∈ (getDFSHeap param (pools' thread).dfsHeapMap hash).queue) :
    q ∈ (getDFSHeap param (pools thread).dfsHeapMap hash).queue ∨
      ∃ job ∈ jobs, q ∈ joinedPaths param job.timer.search plan job.richPath := by
  induction jobs generalizing pools with
  | nil =>
    obtain rfl := Except.ok.inj h
    exact .inl hq
  | cons job jobs ih =>
    obtain ⟨hjob, hcopy⟩ := List.forall_mem_cons.mp hcopy
    rw [runJobs, List.foldlM_cons] at h
    obtain ⟨pools₁, hfirst, h⟩ := bind_ok.mp h
    obtain ⟨tmPool, hwork, hfirst⟩ := bind_ok.mp hfirst
    obtain rfl := Except.ok.inj hfirst
    rcases ih hcopy h with hq | ⟨job', hmem, hq⟩
    · by_cases hthread : thread = job.thread
      · subst hthread
        rw [Function.update_self] at hq
        exact (mem_doWork hjob hwork hq).imp_right fun hq => ⟨job, List.mem_cons_self, hq⟩
      · rw [Function.update_of_ne hthread] at hq
        exact .inl hq
    · exact .inr ⟨job', List.mem_cons_of_mem _ hmem, hq⟩

end DFSWorker

namespace DFSearch

variable {param : BagParam} {plan : BagPlan} {p : SPath}

theorem mem_visited_of_mem_mergeDFS {visits : List (UInt32 × List SPath)} {hash : UInt32}
    (hp : p ∈ (getDFSHeap param (mergeDFS param visits) hash).queue) : p ∈ visited visits hash := by
  induction visits using List.reverseRecOn generalizing hash with
  | nil => simp [mergeDFS, getDFSHeap, newDFSHeap] at hp
  | append_singleton visits visit ih =>
    have hsub : ∀ hash, visited visits hash ⊆ visited (visits ++ [visit]) hash := by
      intro hash q hq
      obtain ⟨v, hv, hq⟩ := mem_visited.mp hq
      exact mem_visited.mpr ⟨v, List.mem_append_left _ hv, hq⟩
    rw [mergeDFS, List.foldl_append, ← mergeDFS] at hp
    simp only [List.foldl_cons, List.foldl_nil] at hp
    by_cases hvisit : hash = visit.1
    · subst hvisit
      rw [getDFSHeap, AList.lookup_insert, Option.getD_some] at hp
      rcases DFS.mem_pushAll hp with hp | hp
      · exact hsub _ (ih hp)
      · exact mem_visited.mpr ⟨visit, by simp, rfl, hp⟩
    · rw [getDFSHeap, AList.lookup_insert_ne hvisit] at hp
      exact hsub _ (ih hp)

/-- The merged heaps hold joined paths of the jobs, whatever thread did which job and whenever the
timer of the searches ran out. -/
theorem mem_joinedPaths_of_mem_mergeDFS {τ : Type} [DecidableEq τ] {pools : τ → ThreadMemPool}
    {jobs : List (DFSWorker.Job τ)} {visits : List (UInt32 × List SPath)} {hash : UInt32}
    (hcopy : ∀ job ∈ jobs, ∀ b l, (job.copyVal b l).Perm l)
    (hrun : DFSWorker.runJobs param plan (fun _ => {}) jobs = .ok pools)
    (hvisits : MergeOrder pools jobs visits)
    (hp : p ∈ (getDFSHeap param (mergeDFS param visits) hash).queue) :
    ∃ job ∈ jobs, p ∈ DFSWorker.joinedPaths param job.timer.search plan job.richPath := by
  obtain ⟨job, -, hp⟩ := (mem_visited_iff param hvisits).mp (mem_visited_of_mem_mergeDFS hp)
  rcases DFSWorker.mem_runJobs hcopy hrun hp with hp | hp
  · simp [getDFSHeap, newDFSHeap] at hp
  · exact hp

end DFSearch

end PPView
