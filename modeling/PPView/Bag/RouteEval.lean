import Mathlib.Algebra.Order.BigOperators.Group.List
import Mathlib.Algebra.Order.Field.Rat
import Mathlib.Tactic.Linarith
import Mathlib.Tactic.NormNum
import Mathlib.Tactic.Positivity
import PPView.Bag.BagPlan
import PPView.Library.Rounding
import PPView.Library.StableSort

/-!
# The route that is taken

`RouteSearch::DoSearch` values the routes that have been laid and takes the first one of the sorted
list. The score weighs the value of the visits against the distance, each beside the greatest one of
all routes, so a route that is better in one of them and not worse in the other has no smaller
score. The operations on `double` are those of `ℚ` with a rounding of every result.
-/

namespace PPView.RouteSearch

/-- What is read of an item. `isVar` says that the place is a `VarPlace`. -/
structure RouteItem where
  placeID : String
  placeName : String
  isVar : Bool
  arriveTime : Int
  departTime : Int
  durS : DurS
  departTraffic : Option TrafficItem
  type : ℕ
  deriving DecidableEq, Repr

/-- The members of the plan that are read here. -/
structure EvalPlan where
  hotMap : List (String × Int)
  missLevelMap : List (String × Int)
  userMustPlaceSet : List String

/-- The members of `PathView` that `EvalObj` sets. -/
structure RouteValue where
  hotValue : ℚ := 0
  missLevel : Int := 0
  trafDist : Int := 0
  trafDur : Int := 0
  trafBusCnt : ℕ := 0
  walkDistPlus : Int := 0
  deriving DecidableEq

structure RouteView where
  itemList : List RouteItem
  isValid : Bool
  value : RouteValue := {}
  score : ℚ := 0
  deriving DecidableEq

def maxWalkDay : Int := 3000

section Values

variable (r : Rounding ℚ)

namespace EvalPlan

variable (plan : EvalPlan)

def getHot (id : String) : Int := (plan.hotMap.lookup id).getD 0

def getMissLevel (id : String) : Int := (plan.missLevelMap.lookup id).getD 0

/-- The share of the recommended stay, and nothing for less than 0.3 of it. -/
def hotScale (item : RouteItem) : ℚ :=
  let dur := item.departTime - item.arriveTime
  let rcmdDur := item.durS.rcmd
  let hotScale : ℚ := if dur < rcmdDur then r.round (dur / (rcmdDur + 1)) else 1
  if hotScale < r.round (3 / 10) then 0 else hotScale

def hotOf (item : RouteItem) : ℚ :=
  let dur := item.departTime - item.arriveTime
  r.round (r.round (r.round (hotScale r item * plan.getHot item.placeID) * dur) / 3600)

/-- The greatest walk between two key nodes above the limit. The walk behind the last one does not
count. -/
def walkDistPlus (itemList : List RouteItem) : Int :=
  (itemList.foldl (fun (walk : Int × Int) item =>
    let (walkDistPlus, walkDistBlock) :=
      if item.type &&& NODE_FUNC_KEY ≠ 0 then
        (if walk.2 > maxWalkDay ∧ walk.2 - maxWalkDay > walk.1 then walk.2 - maxWalkDay
          else walk.1, 0)
      else walk
    match item.departTraffic with
    | some traffic =>
      if traffic.mode = .walking then (walkDistPlus, walkDistBlock + traffic.dist)
      else (walkDistPlus, walkDistBlock)
    | none => (walkDistPlus, walkDistBlock)) (0, 0)).1

/-- `EvalObj`. -/
def evalObj (path : RouteView) : RouteView :=
  let planned := path.itemList.filter RouteItem.isVar
  let missed := plan.userMustPlaceSet.filter fun id => id ∉ planned.map RouteItem.placeID
  let traffics := path.itemList.filterMap RouteItem.departTraffic
  { path with value := {
      hotValue := r.sum (planned.map (plan.hotOf r))
      missLevel := (missed.map plan.getMissLevel).sum
      trafDist := (traffics.map TrafficItem.dist).sum
      trafDur := (traffics.map TrafficItem.time).sum
      trafBusCnt := traffics.countP fun traffic => traffic.mode ≠ .walking
      walkDistPlus := walkDistPlus path.itemList } }

end EvalPlan

/-- The last element of a set of numbers. -/
def greatest {α : Type} [Max α] [Zero α] (l : List α) : α := l.max?.getD 0

def distBottom : ℚ := 5 * 1000

def hotRatio : ℚ := r.round (8 / 10)

/-- The value beside the greatest one. -/
def hotValueS (maxHot : ℚ) (value : RouteValue) : ℚ :=
  r.round (r.round (value.hotValue + 1) / r.round (maxHot + 1))

/-- What the distance is short of the greatest one. -/
def trafDistS (maxDist : Int) (value : RouteValue) : ℚ :=
  max 0 (r.round (1 - r.round (r.round (value.trafDist + distBottom) /
    r.round (maxDist + distBottom))))

/-- The score of a value beside the greatest ones. -/
def scoreOf (maxHot : ℚ) (maxDist : Int) (value : RouteValue) : ℚ :=
  r.round (r.round (hotRatio r * hotValueS r maxHot value) +
    r.round (r.round (1 - hotRatio r) * trafDistS r maxDist value))

/-- The score beside the greatest values of the routes. -/
def scoreAmong (plan : EvalPlan) (routeList : List RouteView) : RouteValue → ℚ :=
  scoreOf r (greatest (routeList.map fun path => (plan.evalObj r path).value.hotValue))
    (greatest (routeList.map fun path => (plan.evalObj r path).value.trafDist))

def doEval (plan : EvalPlan) (routeList : List RouteView) : List RouteView :=
  routeList.map fun path =>
    { plan.evalObj r path with score := scoreAmong r plan routeList (plan.evalObj r path).value }

end Values

/-- `PathViewScoreCmp`. -/
def PathViewScoreCmp (pa pb : RouteView) : Bool :=
  if pa.value.missLevel ≠ pb.value.missLevel then pa.value.missLevel < pb.value.missLevel
  else pa.score > pb.score

def getIDStr (path : RouteView) : String :=
  "_".intercalate (path.itemList.map RouteItem.placeName)

/-- The valid routes, the first one of each string. -/
def takeRoutes : List String → List RouteView → List RouteView
  | _, [] => []
  | pathStrSet, path :: jobs =>
    if !path.isValid ∨ getIDStr path ∈ pathStrSet then takeRoutes pathStrSet jobs
    else path :: takeRoutes (getIDStr path :: pathStrSet) jobs

/-- `std::sort` with `PathViewScoreCmp`. -/
structure RouteSorter where
  sort : List RouteView → List RouteView
  sort_perm : ∀ l, (sort l).Perm l
  sort_pairwise : ∀ l, (sort l).Pairwise (InOrder PathViewScoreCmp)

/-- The route that `DoSearch` takes of those that the workers have laid. -/
def bestRoute (r : Rounding ℚ) (sorter : RouteSorter) (plan : EvalPlan) (jobs : List RouteView) :
    Option RouteView :=
  (sorter.sort (doEval r plan (takeRoutes [] jobs))).head?

/-! ## Scores -/

variable {r : Rounding ℚ} {plan : EvalPlan} {path : RouteView} {jobs : List RouteView}
  {pathStrSet : List String}

theorem le_greatest {α : Type} [LinearOrder α] [Zero α] {l : List α} {a : α} (h : a ∈ l) :
    a ≤ greatest l := by
  obtain ⟨m, hm⟩ := Option.isSome_iff_exists.mp (List.isSome_max?_of_mem h)
  unfold greatest
  rw [hm]
  exact (List.max?_le_iff hm).mp le_rfl a h

theorem hotRatio_nonneg : 0 ≤ hotRatio r := r.round_nonneg (by norm_num)

theorem round_one_sub_hotRatio_nonneg : 0 ≤ r.round (1 - hotRatio r) :=
  r.round_nonneg (sub_nonneg.mpr (r.round_le_one (by norm_num)))

theorem one_le_add_distBottom {maxDist : Int} (hmaxDist : 0 ≤ maxDist) :
    (1 : ℚ) ≤ maxDist + distBottom := by
  have : (0 : ℚ) ≤ maxDist := by exact_mod_cast hmaxDist
  unfold distBottom
  linarith

theorem hotValueS_le {maxHot : ℚ} {value value' : RouteValue} (hmaxHot : 0 ≤ maxHot)
    (hhot : value'.hotValue ≤ value.hotValue) :
    hotValueS r maxHot value' ≤ hotValueS r maxHot value := by
  apply r.round_div_le
  · linarith
  · linarith

theorem trafDistS_le {maxDist : Int} {value value' : RouteValue} (hmaxDist : 0 ≤ maxDist)
    (hdist : value.trafDist ≤ value'.trafDist) :
    trafDistS r maxDist value' ≤ trafDistS r maxDist value := by
  have hdist : (value.trafDist : ℚ) ≤ value'.trafDist := by exact_mod_cast hdist
  refine max_le_max le_rfl (r.mono (sub_le_sub_left ?_ 1))
  exact r.round_div_le (one_le_add_distBottom hmaxDist) (by linarith)

/-- No less value and no more distance give no smaller score. -/
theorem scoreOf_le {maxHot : ℚ} {maxDist : Int} {value value' : RouteValue}
    (hmaxHot : 0 ≤ maxHot) (hmaxDist : 0 ≤ maxDist)
    (hhot : value'.hotValue ≤ value.hotValue) (hdist : value.trafDist ≤ value'.trafDist) :
    scoreOf r maxHot maxDist value' ≤ scoreOf r maxHot maxDist value := by
  refine r.mono (add_le_add (r.mono ?_) (r.mono ?_))
  · exact mul_le_mul_of_nonneg_left (hotValueS_le hmaxHot hhot) hotRatio_nonneg
  · exact mul_le_mul_of_nonneg_left (trafDistS_le hmaxDist hdist) round_one_sub_hotRatio_nonneg

/-- More of one of them and no less of the other one give a greater score where no two numbers are
rounded to the same one. -/
theorem scoreOf_lt {maxHot : ℚ} {maxDist : Int} {value value' : RouteValue}
    (hr : StrictMono r.round) (hmaxHot : 0 ≤ maxHot) (hmaxDist : value'.trafDist ≤ maxDist)
    (hdist_nonneg : 0 ≤ value.trafDist)
    (hhot : value'.hotValue ≤ value.hotValue) (hdist : value.trafDist ≤ value'.trafDist)
    (hlt : value'.hotValue < value.hotValue ∨ value.trafDist < value'.trafDist) :
    scoreOf r maxHot maxDist value' < scoreOf r maxHot maxDist value := by
  have hmaxDist_nonneg : 0 ≤ maxDist := by omega
  have hratio : 0 < hotRatio r := by
    have := hr (show (0 : ℚ) < 8 / 10 by norm_num)
    rwa [r.round_zero] at this
  have hratio' : 0 < r.round (1 - hotRatio r) := by
    have hlt : hotRatio r < 1 := by
      have := hr (show (8 / 10 : ℚ) < 1 by norm_num)
      rwa [r.round_one] at this
    have := hr (sub_pos.mpr hlt)
    rwa [r.round_zero] at this
  have hle_hot := mul_le_mul_of_nonneg_left (hotValueS_le (r := r) hmaxHot hhot) hratio.le
  have hle_dist :=
    mul_le_mul_of_nonneg_left (trafDistS_le (r := r) hmaxDist_nonneg hdist) hratio'.le
  refine hr ?_
  rcases hlt with hlt | hlt
  · refine add_lt_add_of_lt_of_le (hr (mul_lt_mul_of_pos_left ?_ hratio)) (r.mono hle_dist)
    exact r.round_div_lt hr (by linarith) (by linarith)
  · refine add_lt_add_of_le_of_lt (r.mono hle_hot) (hr (mul_lt_mul_of_pos_left ?_ hratio'))
    have hlt : (value.trafDist : ℚ) < value'.trafDist := by exact_mod_cast hlt
    have hmaxDist : (value'.trafDist : ℚ) ≤ maxDist := by exact_mod_cast hmaxDist
    have hone := one_le_add_distBottom hmaxDist_nonneg
    have hshare := r.round_div_le_one hone
      (show (value'.trafDist : ℚ) + distBottom ≤ maxDist + distBottom by linarith)
    have hshare_lt := r.round_div_lt hr hone
      (show (value.trafDist : ℚ) + distBottom < value'.trafDist + distBottom by linarith)
    unfold trafDistS
    rw [max_eq_right (r.round_nonneg (sub_nonneg.mpr hshare)),
      max_eq_right (r.round_nonneg (sub_nonneg.mpr (hshare_lt.le.trans hshare)))]
    exact hr (sub_lt_sub_left hshare_lt 1)

/-! ## Values -/

/-- Hot values and distances as the data have them, and stays that do not end before they begin. -/
structure Measured (plan : EvalPlan) (path : RouteView) : Prop where
  hot : ∀ item ∈ path.itemList, 0 ≤ plan.getHot item.placeID
  dur : ∀ item ∈ path.itemList, item.arriveTime ≤ item.departTime
  dist : ∀ item ∈ path.itemList, ∀ traffic ∈ item.departTraffic, 0 ≤ traffic.dist

theorem hotScale_nonneg (item : RouteItem) : 0 ≤ EvalPlan.hotScale r item := by
  have hlimit : 0 ≤ r.round (3 / 10 : ℚ) := r.round_nonneg (by norm_num)
  unfold EvalPlan.hotScale
  dsimp only
  split_ifs with h h' h'
  · exact le_rfl
  · exact hlimit.trans (not_lt.mp h')
  · exact le_rfl
  · exact zero_le_one

theorem Measured.hotValue_nonneg (h : Measured plan path) :
    0 ≤ (plan.evalObj r path).value.hotValue := by
  refine r.sum_nonneg fun hot hmem => ?_
  obtain ⟨item, hitem, rfl⟩ := List.mem_map.mp hmem
  have hitem := (List.mem_filter.mp hitem).1
  have hhot : (0 : ℚ) ≤ plan.getHot item.placeID := by exact_mod_cast h.hot item hitem
  have hdur : (0 : ℚ) ≤ (item.departTime - item.arriveTime : ℤ) := by
    exact_mod_cast sub_nonneg.mpr (h.dur item hitem)
  have hscale := r.round_nonneg (mul_nonneg (hotScale_nonneg (r := r) item) hhot)
  exact r.round_nonneg (div_nonneg (r.round_nonneg (mul_nonneg hscale hdur)) (by norm_num))

theorem Measured.trafDist_nonneg (h : Measured plan path) :
    0 ≤ (plan.evalObj r path).value.trafDist := by
  refine List.sum_nonneg fun dist hmem => ?_
  obtain ⟨traffic, htraffic, rfl⟩ := List.mem_map.mp hmem
  obtain ⟨item, hitem, hsome⟩ := List.mem_filterMap.mp htraffic
  exact h.dist item hitem traffic hsome

/-! ## The first route -/

/-- A valid route, and the first one of its string. -/
def IsFirst (jobs : List RouteView) (path : RouteView) : Prop :=
  path.isValid = true ∧ ∃ before after, jobs = before ++ path :: after ∧
    ∀ job ∈ before, job.isValid = true → getIDStr job ≠ getIDStr path

theorem isFirst_cons {job : RouteView} : IsFirst (job :: jobs) path ↔
    path.isValid = true ∧ path = job ∨
      (job.isValid = true → getIDStr job ≠ getIDStr path) ∧ IsFirst jobs path := by
  constructor
  · rintro ⟨hvalid, before, after, heq, hbefore⟩
    cases before with
    | nil => exact .inl ⟨hvalid, (List.cons.inj heq).1.symm⟩
    | cons first before =>
      obtain ⟨rfl, htail⟩ := List.cons.inj heq
      exact .inr ⟨hbefore job List.mem_cons_self, hvalid, before, after, htail,
        fun job' hmem => hbefore job' (List.mem_cons_of_mem _ hmem)⟩
  · rintro (⟨hvalid, rfl⟩ | ⟨hjob, hvalid, before, after, rfl, hbefore⟩)
    · exact ⟨hvalid, [], jobs, rfl, by simp⟩
    · exact ⟨hvalid, job :: before, after, rfl, List.forall_mem_cons.mpr ⟨hjob, hbefore⟩⟩

theorem mem_takeRoutes :
    path ∈ takeRoutes pathStrSet jobs ↔ getIDStr path ∉ pathStrSet ∧ IsFirst jobs path := by
  induction jobs generalizing pathStrSet with
  | nil => simp [takeRoutes, IsFirst]
  | cons job jobs ih =>
    rw [takeRoutes, isFirst_cons]
    by_cases hvalid : job.isValid = true
    · by_cases hseen : getIDStr job ∈ pathStrSet
      · rw [if_pos (.inr hseen), ih]
        constructor
        · rintro ⟨hnew, hfirst⟩
          exact ⟨hnew, .inr ⟨fun _ heq => hnew (heq ▸ hseen), hfirst⟩⟩
        · rintro ⟨hnew, ⟨-, rfl⟩ | ⟨-, hfirst⟩⟩
          · exact absurd hseen hnew
          · exact ⟨hnew, hfirst⟩
      · rw [if_neg (by simp [hvalid, hseen]), List.mem_cons, ih, List.mem_cons, not_or]
        constructor
        · rintro (rfl | ⟨⟨hne, hnew⟩, hfirst⟩)
          · exact ⟨hseen, .inl ⟨hvalid, rfl⟩⟩
          · exact ⟨hnew, .inr ⟨fun _ heq => hne heq.symm, hfirst⟩⟩
        · rintro ⟨hnew, ⟨-, rfl⟩ | ⟨hne, hfirst⟩⟩
          · exact .inl rfl
          · exact .inr ⟨⟨fun heq => hne hvalid heq.symm, hnew⟩, hfirst⟩
    · rw [if_pos (.inl (by simpa using hvalid)), ih]
      constructor
      · rintro ⟨hnew, hfirst⟩
        exact ⟨hnew, .inr ⟨fun h => absurd h hvalid, hfirst⟩⟩
      · rintro ⟨hnew, ⟨h, rfl⟩ | ⟨-, hfirst⟩⟩
        · exact absurd h hvalid
        · exact ⟨hnew, hfirst⟩

/-- Every valid route has the string of a first one. -/
theorem exists_isFirst (hmem : path ∈ jobs) (hvalid : path.isValid = true) :
    ∃ path', IsFirst jobs path' ∧ getIDStr path' = getIDStr path := by
  induction jobs with
  | nil => simp at hmem
  | cons job jobs ih =>
    by_cases hjob : job.isValid = true ∧ getIDStr job = getIDStr path
    · exact ⟨job, isFirst_cons.mpr (.inl ⟨hjob.1, rfl⟩), hjob.2⟩
    · rcases List.mem_cons.mp hmem with rfl | hmem
      · exact absurd ⟨hvalid, rfl⟩ hjob
      · obtain ⟨path', hfirst, hid⟩ := ih hmem
        refine ⟨path', isFirst_cons.mpr (.inr ⟨fun h heq => hjob ⟨h, ?_⟩, hfirst⟩), hid⟩
        exact heq.trans hid

theorem IsFirst.mem (h : IsFirst jobs path) : path ∈ jobs := by
  obtain ⟨-, before, after, rfl, -⟩ := h
  simp

/-! ## The route -/

/-- The route that is taken. As few places are missed as on any other one. Of those with as few no
other one has a greater score, and one of at least the value and at most the distance has the same
score. -/
structure IsBest (r : Rounding ℚ) (plan : EvalPlan) (jobs : List RouteView) (best : RouteView) :
    Prop where
  taken : ∃ path, IsFirst jobs path ∧ best.itemList = path.itemList ∧
    best.value = (plan.evalObj r path).value
  missLevel : ∀ path, IsFirst jobs path →
    best.value.missLevel ≤ (plan.evalObj r path).value.missLevel
  score : ∀ path, IsFirst jobs path →
    (plan.evalObj r path).value.missLevel = best.value.missLevel →
    scoreAmong r plan (takeRoutes [] jobs) (plan.evalObj r path).value ≤ best.score
  undominated : ∀ path, IsFirst jobs path →
    (plan.evalObj r path).value.missLevel = best.value.missLevel →
    best.value.hotValue ≤ (plan.evalObj r path).value.hotValue →
    (plan.evalObj r path).value.trafDist ≤ best.value.trafDist →
    scoreAmong r plan (takeRoutes [] jobs) (plan.evalObj r path).value = best.score ∧
      (StrictMono r.round →
        (plan.evalObj r path).value.hotValue = best.value.hotValue ∧
          (plan.evalObj r path).value.trafDist = best.value.trafDist)

/-- No element of a sorted list goes before the first one. -/
theorem head_inOrder {sorter : RouteSorter} {routeList : List RouteView} {best : RouteView}
    (h : (sorter.sort routeList).head? = some best) :
    best ∈ routeList ∧ ∀ path ∈ routeList, path ≠ best → PathViewScoreCmp path best = false := by
  obtain ⟨rest, hsort⟩ := List.head?_eq_some_iff.mp h
  have hperm := sorter.sort_perm routeList
  have hpairwise := sorter.sort_pairwise routeList
  rw [hsort] at hperm hpairwise
  refine ⟨hperm.mem_iff.mp List.mem_cons_self, fun path hmem hne => ?_⟩
  have hmem := (List.mem_cons.mp (hperm.mem_iff.mpr hmem)).resolve_left hne
  exact (List.pairwise_cons.mp hpairwise).1 path hmem

/-- A route that does not go before another one misses as much or more, and has no greater score
where it misses as much. -/
theorem of_PathViewScoreCmp {pa pb : RouteView} (h : PathViewScoreCmp pa pb = false) :
    pb.value.missLevel ≤ pa.value.missLevel ∧
      (pa.value.missLevel = pb.value.missLevel → pa.score ≤ pb.score) := by
  unfold PathViewScoreCmp at h
  split_ifs at h with hne
  · have hlt := of_decide_eq_false h
    exact ⟨by omega, fun heq => absurd heq hne⟩
  · have hgt := of_decide_eq_false h
    exact ⟨by omega, fun _ => not_lt.mp hgt⟩

/-- The first route of the sorted list is no worse than any other one. -/
theorem head_doEval {sorter : RouteSorter} {routeList : List RouteView} {best : RouteView}
    (h : (sorter.sort (doEval r plan routeList)).head? = some best) :
    (∃ path ∈ routeList, best = { plan.evalObj r path with
      score := scoreAmong r plan routeList (plan.evalObj r path).value }) ∧
    ∀ path ∈ routeList, best.value.missLevel ≤ (plan.evalObj r path).value.missLevel ∧
      ((plan.evalObj r path).value.missLevel = best.value.missLevel →
        scoreAmong r plan routeList (plan.evalObj r path).value ≤ best.score) := by
  obtain ⟨hmem, horder⟩ := head_inOrder h
  constructor
  · obtain ⟨path, hpath, heq⟩ := List.mem_map.mp hmem
    exact ⟨path, hpath, heq.symm⟩
  · intro path hpath
    have hmem' := List.mem_map_of_mem (f := fun path =>
      { plan.evalObj r path with score := scoreAmong r plan routeList (plan.evalObj r path).value })
      hpath
    by_cases heq : ({ plan.evalObj r path with
        score := scoreAmong r plan routeList (plan.evalObj r path).value } : RouteView) = best
    · subst heq
      exact ⟨le_rfl, fun _ => le_rfl⟩
    · exact of_PathViewScoreCmp (horder _ hmem' heq)

theorem bestRoute_isBest (r : Rounding ℚ) (sorter : RouteSorter) (plan : EvalPlan)
    (jobs : List RouteView)
    (hmeasured : ∀ path ∈ jobs, path.isValid = true → Measured plan path) :
    bestRoute r sorter plan jobs = none ∧ (∀ path ∈ jobs, path.isValid = false) ∨
      ∃ best, bestRoute r sorter plan jobs = some best ∧ IsBest r plan jobs best := by
  have htaken : ∀ path, path ∈ takeRoutes [] jobs ↔ IsFirst jobs path := fun path => by
    simp [mem_takeRoutes]
  unfold bestRoute
  cases hbest : (sorter.sort (doEval r plan (takeRoutes [] jobs))).head? with
  | none =>
    refine .inl ⟨rfl, fun path hmem => ?_⟩
    by_contra hvalid
    obtain ⟨path', hfirst, -⟩ := exists_isFirst hmem (by simpa using hvalid)
    have hlen := (sorter.sort_perm (doEval r plan (takeRoutes [] jobs))).length_eq
    rw [List.head?_eq_none_iff.mp hbest] at hlen
    have hpos := List.length_pos_of_mem ((htaken path').mpr hfirst)
    simp [doEval] at hlen
    simp [← hlen] at hpos
  | some best =>
    refine .inr ⟨best, rfl, ?_⟩
    obtain ⟨⟨path₀, hpath₀, rfl⟩, hleast⟩ := head_doEval hbest
    have hfirst₀ := (htaken path₀).mp hpath₀
    have hmeasured' : ∀ path, IsFirst jobs path → Measured plan path := fun path hfirst =>
      hmeasured path hfirst.mem hfirst.1
    -- the greatest values are no less than those of the route itself
    have hmaxHot := ((hmeasured' path₀ hfirst₀).hotValue_nonneg (r := r)).trans
      (le_greatest (List.mem_map_of_mem
        (f := fun path => (plan.evalObj r path).value.hotValue) hpath₀))
    have hmaxDist := le_greatest (List.mem_map_of_mem
      (f := fun path => (plan.evalObj r path).value.trafDist) hpath₀)
    have hmaxDist_nonneg := ((hmeasured' path₀ hfirst₀).trafDist_nonneg (r := r)).trans hmaxDist
    refine ⟨⟨path₀, hfirst₀, rfl, rfl⟩, fun path hfirst => ?_, fun path hfirst hmiss => ?_,
      fun path hfirst hmiss hhot hdist => ?_⟩
    · exact (hleast path ((htaken path).mpr hfirst)).1
    · exact (hleast path ((htaken path).mpr hfirst)).2 hmiss
    · have hle := (hleast path ((htaken path).mpr hfirst)).2 hmiss
      refine ⟨hle.antisymm (scoreOf_le hmaxHot hmaxDist_nonneg hhot hdist), fun hr => ?_⟩
      by_contra hne
      refine absurd (scoreOf_lt hr hmaxHot hmaxDist (hmeasured' path hfirst).trafDist_nonneg
        hhot hdist ?_) (not_lt.mpr hle)
      by_contra hnlt
      rw [not_or, not_lt, not_lt] at hnlt
      exact hne ⟨hnlt.1.antisymm hhot, hdist.antisymm hnlt.2⟩

/-! ## A plan with two routes -/

theorem inOrder_iff {pa pb : RouteView} : InOrder PathViewScoreCmp pa pb ↔
    pa.value.missLevel < pb.value.missLevel ∨
      pa.value.missLevel = pb.value.missLevel ∧ pb.score ≤ pa.score := by
  unfold InOrder PathViewScoreCmp
  split_ifs with hne
  · have := Ne.symm hne
    grind
  · grind

/-- A sort that keeps the order of routes of one score. -/
def stableRoutes : RouteSorter where
  sort := stableSort PathViewScoreCmp
  sort_perm := stableSort_perm _
  sort_pairwise l := by
    refine stableSort_pairwise (fun x y z hxy hyz => ?_) (List.pairwise_of_forall fun x y => ?_)
    · rw [inOrder_iff] at *
      rcases hxy with hxy | ⟨hxy, hscore⟩ <;> rcases hyz with hyz | ⟨hyz, hscore'⟩
      · exact .inl (hxy.trans hyz)
      · exact .inl (hyz ▸ hxy)
      · exact .inl (hxy ▸ hyz)
      · exact .inr ⟨hxy.trans hyz, hscore'.trans hscore⟩
    · rw [inOrder_iff, inOrder_iff]
      rcases lt_trichotomy x.value.missLevel y.value.missLevel with h | h | h
      · exact .inl (.inl h)
      · rcases le_total y.score x.score with hscore | hscore
        · exact .inl (.inr ⟨h, hscore⟩)
        · exact .inr (.inr ⟨h.symm, hscore⟩)
      · exact .inr (.inl h)

def museumPlan : EvalPlan where
  hotMap := [("museum", 8), ("park", 3)]
  missLevelMap := [("museum", 5)]
  userMustPlaceSet := ["museum"]

/-- An hour at a place. -/
def hourAt (id : String) : RouteView where
  itemList := [
    { placeID := id, placeName := id, isVar := true, arriveTime := 0, departTime := 3600,
      durS := { rcmd := 3600 }, departTraffic := some ⟨600, 1500, .walking⟩, type := 0 }]
  isValid := true

theorem bestRoute_isBest_museumPlan : ∃ best,
    bestRoute .exact stableRoutes museumPlan [hourAt "park", hourAt "museum"] = some best ∧
      IsBest .exact museumPlan [hourAt "park", hourAt "museum"] best := by
  refine (bestRoute_isBest .exact stableRoutes museumPlan [hourAt "park", hourAt "museum"]
    ?_).resolve_left fun h => absurd (h.2 (hourAt "park") (by simp)) (by decide)
  intro path hmem _
  rcases List.mem_pair.mp hmem with rfl | rfl
  · exact ⟨by decide, by decide, by decide⟩
  · exact ⟨by decide, by decide, by decide⟩

end PPView.RouteSearch
