import PPView.Bag.DFS
import PPView.Library.Orders

/-!
# The complete orders of a day

What the search within a day is to find, without its state: `orders` lists the paths of all
orders of the places that can be visited one after the other and have a clash. Distances and
penalties that are not negative make the score of an order fall along it (`getScore_visit`), so a
path is no better than any beginning of its order (`score_le_of_mem_tree`).
-/

namespace PPView

/-! ## The nodes that `Init` computes -/

namespace DayNodes

theorem isRestaurant_set_getD {vType : List UInt8} {i j : Nat} {t : UInt8}
    (hi : isRestaurant (vType.getD i NODE_FUNC_NULL)) (ht : isRestaurant t) :
    isRestaurant ((vType.set i t).getD j NODE_FUNC_NULL) =
      isRestaurant (vType.getD j NODE_FUNC_NULL) := by
  simp only [List.getD_eq_getElem?_getD, List.getElem?_set] at hi ⊢
  split_ifs with hij hlt
  · subst hij
    rw [hi]
    exact ht
  · subst hij
    rw [List.getElem?_eq_none (by omega)] at hi ⊢
  · rfl

theorem isRestaurant_of_mem_restIdxs {vType : List UInt8} {i : Nat} (hi : i ∈ restIdxs vType) :
    isRestaurant (vType.getD i NODE_FUNC_NULL) := (List.mem_filter.mp hi).2

/-- The meals are dealt out among the restaurants. -/
theorem isRestaurant_fixRestTypes (vType : List UInt8) (i : Nat) :
    isRestaurant ((fixRestTypes vType).getD i NODE_FUNC_NULL) =
      isRestaurant (vType.getD i NODE_FUNC_NULL) := by
  unfold fixRestTypes
  split
  case h_1 first second hidx =>
    rw [restIdx, Prod.mk.injEq] at hidx
    have hfirst := isRestaurant_of_mem_restIdxs (List.mem_of_head? hidx.1)
    have hsecond := isRestaurant_of_mem_restIdxs
      (List.mem_of_mem_tail (List.mem_of_getLast? hidx.2))
    dsimp only
    split_ifs
    · exact isRestaurant_set_getD hsecond (by decide)
    · exact isRestaurant_set_getD hsecond (by decide)
    · exact isRestaurant_set_getD hfirst (by decide)
    · exact isRestaurant_set_getD hfirst (by decide)
    · rfl
  case h_2 => rfl

/-- What is known of the nodes that `Init` computes for a plan. -/
structure Valid (plan : BagPlan) (day : DayNodes) : Prop where
  traf : ∀ i j, day.traf i j = plan.getPosTraf day.bPos (day.vPosAt i) (day.vPosAt j)
  windows : ∀ idx, !isRestaurant (day.vTypeAt idx) → none ∉ day.openCloseList.getD idx []
  two_le : 2 ≤ day.nodeNum

theorem mapM_getElem? {α β : Type} {f : α → Option β} {l : List α} {l' : List β}
    (h : l.mapM f = some l') (i : Nat) : l'[i]? = l[i]?.bind f := by
  induction l generalizing l' i with
  | nil =>
    obtain rfl : l' = [] := by simpa using h.symm
    simp
  | cons x l ih =>
    obtain ⟨y, hy, ys, hys, rfl⟩ : ∃ y, f x = some y ∧ ∃ ys, l.mapM f = some ys ∧ y :: ys = l' := by
      simpa [List.mapM_cons, Option.bind_eq_some_iff] using h
    cases i with
    | zero => simp [hy]
    | succ i => simpa using ih hys i

theorem valid_of_init {plan : BagPlan} {richPath : SPath} {blockIdx : Nat} {day : DayNodes}
    (h : init plan richPath blockIdx = some day) : day.Valid plan := by
  simp only [init] at h
  split_ifs at h
  simp only [init4Clash, bind, Option.bind_eq_some_iff] at h
  obtain ⟨block, hblock, fromKey, -, toKey, -, places, hplaces, h⟩ := h
  obtain rfl := Option.some.inj h
  refine ⟨fun _ _ => rfl, fun idx hidx => ?_, by simp [nodeNum]⟩
  have hget := mapM_getElem? hplaces idx
  rw [List.getD_eq_getElem?_getD, List.getElem?_map, hget]
  simp only [vTypeAt, isRestaurant_fixRestTypes] at hidx
  rw [List.getD_eq_getElem?_getD, List.getElem?_map] at hidx
  cases hvPos : (blockIdx :: (richPath.posList blockIdx).insertionSort (· ≤ ·) ++
    [blockIdx + 1])[idx]? with
  | none => simp
  | some vPos =>
    rw [hvPos] at hidx
    cases hplace : plan.getPosPlace vPos with
    | none => simp [hplace]
    | some place =>
      simpa [hplace] using plan.windows_ne_null blockIdx vPos block place hblock hplace hidx

/-! ## Every order has a clash -/

variable {plan : BagPlan} {day : DayNodes}

theorem stay_ok (i idx : Nat) (arv : Int) (leftRestNeed : UInt8) (j : Nat)
    {windows : List (Option OpenClose)}
    (hwindows : !isRestaurant (day.vTypeAt idx) → none ∉ windows) :
    ∃ r, day.stay i idx arv leftRestNeed j windows = .ok r := by
  induction windows generalizing j with
  | nil => exact ⟨_, rfl⟩
  | cons window rest ih =>
    have hrest := ih (j + 1) fun h hmem => hwindows h (List.mem_cons_of_mem _ hmem)
    rw [stay.eq_def]
    dsimp only
    by_cases hskip : isRestaurant (day.vTypeAt idx) && (window.isNone || skipsMeal leftRestNeed j)
    · rwa [if_pos hskip]
    · rw [if_neg hskip]
      cases window with
      | none =>
        have hview : !isRestaurant (day.vTypeAt idx) := by simpa using hskip
        exact absurd List.mem_cons_self (hwindows hview)
      | some openClose =>
        dsimp only
        split_ifs
        · exact ⟨_, rfl⟩
        · exact hrest
        · exact ⟨_, rfl⟩
        · exact ⟨_, rfl⟩

/-- `CalClash` returns, and neither of its results is negative. -/
theorem clashFrom_ok (hday : day.Valid plan) {i idxLast : Nat} {offset : Int}
    {leftRestNeed : UInt8} {firstL : Int} (hfirst : 0 ≤ firstL) (path : List Nat) :
    ∃ r, day.clashFrom plan i idxLast offset leftRestNeed firstL path = .ok r ∧
      ∀ c ∈ r, 0 ≤ c.1 ∧ 0 ≤ c.2 := by
  induction path generalizing i idxLast offset leftRestNeed firstL with
  | nil => exact ⟨_, rfl, by simp [hfirst]⟩
  | cons idx rest ih =>
    rw [clashFrom]
    cases plan.getPosTraf day.bPos (day.vPosAt idxLast) (day.vPosAt idx) with
    | none => exact ⟨_, rfl, by simp⟩
    | some trafItem =>
      dsimp only
      split_ifs with hrest
      · exact ⟨_, rfl, by simp [hfirst]⟩
      · exact ⟨_, rfl, by simp [hfirst]⟩
      · obtain ⟨s, hs⟩ := stay_ok i idx (offset + trafItem.time) leftRestNeed 0 (hday.windows idx)
        rw [hs]
        cases s with
        | lost => exact ⟨_, rfl, by simp⟩
        | unplanned => exact ⟨_, rfl, by simp [hfirst]⟩
        | planned dept left first => exact ih (by split_ifs <;> simp [hfirst])

theorem calClash_ok (hday : day.Valid plan) (path : List Nat) :
    ∃ r, day.calClash plan path = .ok r ∧ ∀ c ∈ r, 0 ≤ c.1 ∧ 0 ≤ c.2 := by
  cases path with
  | nil => exact ⟨_, rfl, by simp⟩
  | cons first rest => exact clashFrom_ok hday le_rfl rest

end DayNodes

/-! ## The orders -/

namespace Walk

/-- The walk behind the visit of a node, if `SearchView` or `SearchRest` goes there. -/
def visit (day : DayNodes) (w : Walk) (idx : Nat) : Option Walk :=
  match day.traf w.lastIdx idx with
  | none => none
  | some trafItem =>
    if isRestaurant (day.vTypeAt idx) then
      (restNeedAfter w.leftRestNeed (day.vTypeAt idx)).map fun leftRestNeed =>
        { w with leftRestNeed := leftRestNeed }.enter idx trafItem
    else some (w.enter idx trafItem)

/-- The path of a walk that has visited all nodes, if `CalClash` returns 0. -/
def close (param : BagParam) (plan : BagPlan) (day : DayNodes) (w : Walk) : Option SPath :=
  match day.calClash plan w.path with
  | .ok (some (clash, firstL)) => some (w.sPath param plan day clash firstL)
  | _ => none

/-- The path of a walk that has visited all places, if the way to the last node is known. -/
def finish (param : BagParam) (plan : BagPlan) (day : DayNodes) (w : Walk) : Option SPath :=
  (day.traf w.lastIdx (day.nodeNum - 1)).bind fun trafItem =>
    (w.enter (day.nodeNum - 1) trafItem).close param plan day

end Walk

/-- The walk that the search starts from. -/
def DayNodes.startWalk (day : DayNodes) : Walk :=
  { path := [0], leftRestNeed := day.blockRestNeed }

/-- The paths of the complete orders of a day. -/
def DayNodes.orders (param : BagParam) (plan : BagPlan) (day : DayNodes) : List SPath :=
  day.inner.permutations.filterMap
    (Orders.run (Walk.visit day) (Walk.finish param plan day) day.startWalk)

/-- The complete orders of the places that a path puts into a block. -/
def DFS.orders (param : BagParam) (plan : BagPlan) (richPath : SPath) (blockIdx : Nat) :
    List SPath :=
  match DayNodes.init plan richPath blockIdx with
  | none => []
  | some day => day.orders param plan

/-! ## The paths made of orders -/

namespace SPath

@[simp] theorem missLevel_pushV (p : SPath) (bPos vPos : Nat) :
    (p.pushV bPos vPos).missLevel = p.missLevel := by
  rw [pushV]
  split_ifs <;> rfl

@[simp] theorem missLevel_foldl_pushV {α : Type} (f g : α → Nat) (l : List α) (p : SPath) :
    (l.foldl (fun p x => p.pushV (f x) (g x)) p).missLevel = p.missLevel := by
  induction l generalizing p with
  | nil => rfl
  | cons x l ih => rw [List.foldl_cons, ih, missLevel_pushV]

@[simp] theorem missLevel_calHashPointOrder (p : SPath) :
    p.calHashPointOrder.missLevel = p.missLevel := by
  rw [calHashPointOrder]
  split_ifs <;> rfl

@[simp] theorem clash_calHashPointOrder (p : SPath) : p.calHashPointOrder.clash = p.clash := by
  rw [calHashPointOrder]
  split_ifs <;> rfl

@[simp] theorem score_calHashPointOrder (p : SPath) : p.calHashPointOrder.score = p.score := by
  rw [calHashPointOrder]
  split_ifs <;> rfl

end SPath

namespace Walk

variable {param : BagParam} {plan : BagPlan} {day : DayNodes} {w w' : Walk} {idx : Nat}
  {clash firstL : Int}

@[simp] theorem missLevel_sPath : (w.sPath param plan day clash firstL).missLevel = 0 := by
  simp [sPath, SPath.setScore, SPath.setFirstL, SPath.setClash, SPath.setDist, SPath.init]

@[simp] theorem clash_sPath : (w.sPath param plan day clash firstL).clash = clash := by
  simp [sPath, SPath.setScore, SPath.setFirstL, SPath.setClash]

@[simp] theorem score_sPath :
    (w.sPath param plan day clash firstL).score = w.getScore param firstL := by
  simp [sPath, SPath.setScore]

/-! ## The score falls -/

/-- The penalties of the search are not negative. -/
structure PenaltiesNonneg (param : BagParam) : Prop where
  nonWalk : 0 ≤ param.nonWalkPenalty
  firstL : 0 ≤ param.firstLPenalty

theorem getScore_firstL (hpen : PenaltiesNonneg param) (hfirst : 0 ≤ firstL) :
    w.getScore param firstL ≤ w.getScore param := by
  have := mul_nonneg hfirst hpen.firstL
  simp only [getScore]
  omega

theorem getScore_enter (hpen : PenaltiesNonneg param) {trafItem : TrafficItem}
    (hdist : 0 ≤ trafItem.dist) :
    (w.enter idx trafItem).getScore param ≤ w.getScore param := by
  have hcnt : 0 ≤ nonWalk trafItem := by
    rw [nonWalk]
    split_ifs <;> decide
  have hwalk : 0 ≤ walk trafItem := by
    rw [walk]
    split_ifs
    · exact hdist
    · exact le_rfl
  have hmul : max (w.nonWalkCnt - 1) 0 * param.nonWalkPenalty ≤
      max (w.nonWalkCnt + nonWalk trafItem - 1) 0 * param.nonWalkPenalty :=
    mul_le_mul_of_nonneg_right (by omega) hpen.nonWalk
  have hmax : max (w.walkDist - param.maxWalkDay) 0 ≤
      max (w.walkDist + walk trafItem - param.maxWalkDay) 0 := by omega
  simp only [getScore, enter]
  omega

/-- No distance between two nodes is negative. -/
def DistNonneg (day : DayNodes) : Prop :=
  ∀ i j trafItem, day.traf i j = some trafItem → 0 ≤ trafItem.dist

theorem getScore_visit (hpen : PenaltiesNonneg param) (hdist : DistNonneg day)
    (h : w.visit day idx = some w') : w'.getScore param ≤ w.getScore param := by
  rw [visit] at h
  cases htraf : day.traf w.lastIdx idx with
  | none => simp [htraf] at h
  | some trafItem =>
    simp only [htraf] at h
    split_ifs at h
    · obtain ⟨leftRestNeed, -, rfl⟩ := Option.map_eq_some_iff.mp h
      exact getScore_enter (w := { w with leftRestNeed := leftRestNeed }) hpen
        (hdist _ _ _ htraf)
    · obtain rfl := Option.some.inj h
      exact getScore_enter hpen (hdist _ _ _ htraf)

/-- What every path has that the search finds. -/
structure Found (p : SPath) : Prop where
  missLevel : p.missLevel = 0
  clash : 0 ≤ p.clash
  int : p.IntScore

theorem found_of_close (hday : day.Valid plan) {p : SPath}
    (h : w.close param plan day = some p) :
    Found p ∧ ∃ firstL : Int, 0 ≤ firstL ∧ p.score = w.getScore param firstL := by
  obtain ⟨r, hr, hnonneg⟩ := day.calClash_ok hday w.path
  rw [close, hr] at h
  cases r with
  | none => simp at h
  | some c =>
    obtain rfl := Option.some.inj h
    obtain ⟨hclash, hfirst⟩ := hnonneg c rfl
    exact ⟨⟨missLevel_sPath, by simpa using hclash, ⟨_, score_sPath⟩⟩, c.2, hfirst, score_sPath⟩

theorem found_of_mem_tree (hday : day.Valid plan) {n : Nat} {unused : List Nat} :
    ∀ p ∈ Orders.tree (visit day) (finish param plan day) n w unused, Found p := by
  refine Orders.tree_induction (fun _ => True) (fun _ _ _ h _ => h) (fun w₁ p _ h => ?_) trivial
  obtain ⟨trafItem, -, h⟩ := Option.bind_eq_some_iff.mp h
  exact (found_of_close hday h).1

theorem score_le_of_close (hday : day.Valid plan) (hpen : PenaltiesNonneg param) {p : SPath}
    (h : w.close param plan day = some p) : p.score ≤ w.getScore param := by
  obtain ⟨-, firstL, hfirst, hscore⟩ := found_of_close hday h
  rw [hscore]
  exact_mod_cast getScore_firstL hpen hfirst

theorem score_le_of_finish (hday : day.Valid plan) (hpen : PenaltiesNonneg param)
    (hdist : DistNonneg day) {p : SPath} (h : w.finish param plan day = some p) :
    p.score ≤ w.getScore param := by
  obtain ⟨trafItem, htraf, h⟩ := Option.bind_eq_some_iff.mp h
  exact (score_le_of_close hday hpen h).trans
    (by exact_mod_cast getScore_enter hpen (hdist _ _ _ htraf))

/-- A complete order is no better than any of its beginnings. -/
theorem score_le_of_mem_tree (hday : day.Valid plan) (hpen : PenaltiesNonneg param)
    (hdist : DistNonneg day) {n : Nat} {unused : List Nat} :
    ∀ p ∈ Orders.tree (visit day) (finish param plan day) n w unused,
      p.score ≤ w.getScore param := by
  exact Orders.tree_induction (fun w' => w'.getScore param ≤ w.getScore param)
    (fun w₁ idx w₂ hw₁ h => (getScore_visit hpen hdist h).trans hw₁)
    (fun w₁ p hw₁ h => (score_le_of_finish hday hpen hdist h).trans (by exact_mod_cast hw₁)) le_rfl

end Walk

end PPView
