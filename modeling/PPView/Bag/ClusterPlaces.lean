import Mathlib.Algebra.Order.BigOperators.Group.List
import Mathlib.Tactic.IntervalCases
import Mathlib.Tactic.NormNum
import Mathlib.Tactic.Positivity
import PPView.Bag.DFSBest
import PPView.Bag.DoPos
import PPView.Grid.SquareGrid
import PPView.Library.Rounding

/-!
# The places of a clustering

`GetPlanPlace` of `MyCluster.cpp` picks the places for one round of `ClusterOrganizer::Run`. It goes
over the positions four times: for the places that the user must visit, for those that the user and
the system would like, and for all. A place is left out by chance, with a list of random numbers
that is the same in every run, and once the time or the number of places is used up. Round 0 takes
all places that must be visited, whatever their time.
-/

namespace PPView

open MJSquareGrid (truncate)

/-! ## Random numbers -/

namespace StaticRand

/-- `m_capacity`. -/
def capacity : ℕ := 10000000

/-- `RAND_MAX`. -/
def max : ℕ := 2147483647

end StaticRand

/-- The arithmetic on `float` and `double`, the random numbers, and what a cast to `int` yields
where the number is none. -/
structure Numerics where
  float : Rounding ℚ
  double : Rounding ℚ
  castNone : ℤ
  rlist : ℕ → ℕ
  rlist_le : ∀ i, rlist i ≤ StaticRand.max

namespace Numerics

variable (num : Numerics)

/-- The random number at an index, beside the greatest one. -/
def rval (index : ℕ) : ℚ :=
  num.double.round (num.rlist (index % StaticRand.capacity) / StaticRand.max)

/-- A decimal that is stored as a `float`. -/
def floatLit (q : ℚ) : ℚ := num.float.round (num.double.round q)

end Numerics

/-! ## Plans -/

/-- What `GetPlanPlace` reads of a plan. `isVarPlace` is the cast to `VarPlace`, and `availDur` and
`isNotPlay` are those of the blocks. -/
structure ClusterTables extends BagPlan where
  qType : String
  m_HotelOpenTime : Int
  m_HotelCloseTime : Int
  dayViewLimit : ℕ := 9
  availDur : ℕ → Int
  isNotPlay : ℕ → Bool
  isVarPlace : LYPlace → Bool
  rawType : LYPlace → ℕ
  allocDurMap : List (String × Int)
  avgTrafTime : String → Int
  userMustPlaceSet : List LYPlace
  userOptSet : List LYPlace
  systemOptSet : List LYPlace
  failSet : List LYPlace

/-- `DoPos` bounds the positions and the blocks, and no place waits twice. -/
structure ClusterPlan extends ClusterTables where
  nodeNum_le : toBagPlan.nodeNum ≤ kPathLimit
  blockNum_le : toBagPlan.blockNum ≤ kBlockLimit
  varPlace_unique : ∀ (i j : ℕ) (place : LYPlace), posPList[i]? = some place →
    posPList[j]? = some place → isVarPlace place → i = j

namespace ClusterPlan

variable (num : Numerics) (plan : ClusterPlan)

def getRcmdDur (place : LYPlace) : Int :=
  match plan.durSMap.lookup place.ID with
  | none => (plan.durS place).rcmd
  | some durS => durS.rcmd

def getAllocDur (place : LYPlace) : Int :=
  (plan.allocDurMap.lookup place.ID).getD (plan.getRcmdDur place + plan.avgTrafTime place.ID)

def isCarStore (place : LYPlace) : Bool := plan.rawType place &&& LY_PLACE_TYPE_CAR_STORE != 0

/-- The time of the blocks that are long enough to be filled, less a random part. -/
def canPlayDur (loop : ℕ) : ℤ :=
  let blocks := (List.range plan.blockNum).filter fun i =>
    decide (5400 < plan.availDur i) && !plan.isNotPlay i
  let dur := (blocks.map plan.availDur).sum
  truncate (num.double.round (dur * num.double.round
    (1 - num.double.round (num.rval loop * num.double.round (3 / 10)))))

/-- A quotient by no time is not a number. -/
def totPoiNumLimit (canPlayDur : ℤ) : ℤ :=
  let oneDayDur := plan.m_HotelOpenTime - plan.m_HotelCloseTime
  if oneDayDur = 0 then num.castNone
  else truncate (num.double.round (num.double.round (canPlayDur / oneDayDur) *
    ((plan.dayViewLimit : ℚ) - 1)))

/-- `noMissDropProbability` and `otherDropProbability`. -/
def dropProbabilities (loop : ℕ) : ℚ × ℚ :=
  let sure := num.float.round (1 + num.floatLit (1 / 1000000))
  if plan.qType = "ssv005_s130" then (num.floatLit (loop / 100), sure)
  else if loop = 1 then (sure, sure)
  else
    match loop % 4 with
    | 0 => (num.floatLit (1 / 10), num.floatLit (2 / 100))
    | 1 => (num.floatLit (2 / 10), num.floatLit (5 / 100))
    | 2 => (num.floatLit (5 / 10), num.floatLit (2 / 10))
    | _ => (num.floatLit (9 / 10), num.floatLit (3 / 10))

/-! ## The loops -/

/-- What the loops change. -/
structure Selection where
  addVPosSet : List ℕ := []
  vList : List LYPlace := []
  leftDur : ℤ
  zucheNum : ℕ := 0
  loop : ℕ

/-- A place of the set that may still be planned. -/
def selectable (searchSet : List LYPlace) (vPos : ℕ) : Option LYPlace :=
  (plan.posPList[vPos]?).filter fun vPlace =>
    plan.isVarPlace vPlace && decide (vPlace ∉ plan.failSet) && decide (vPlace ∈ searchSet)

def candidate (searchSet : List LYPlace) (s : Selection) (vPos : ℕ) : Option LYPlace :=
  if vPos ∈ s.addVPosSet then none else plan.selectable searchSet vPos

def Selection.add (s : Selection) (vPos : ℕ) (vPlace : LYPlace) : Selection :=
  { s with addVPosSet := s.addVPosSet ++ [vPos], vList := s.vList ++ [vPlace] }

/-- The place is added and takes its time. -/
def take (s : Selection) (vPos : ℕ) (vPlace : LYPlace) : Selection :=
  { s.add vPos vPlace with
    leftDur := s.leftDur - plan.getAllocDur vPlace
    zucheNum := s.zucheNum + if plan.isCarStore vPlace then 1 else 0 }

/-- The size is compared as a number without a sign, so a negative limit is never exceeded. -/
def Selection.isFull (s : Selection) (totPoiNumLimit : ℤ) : Bool :=
  decide (0 ≤ totPoiNumLimit + s.zucheNum) &&
    decide (totPoiNumLimit + s.zucheNum < s.addVPosSet.length)

def Selection.draw (s : Selection) : Selection :=
  { s with loop := (s.loop + 1) % StaticRand.capacity }

/-- The loop over the positions, for one of the sets. `i` is the index of the set. -/
def selectFrom (dropProbability : ℚ) (totPoiNumLimit : ℤ) (i : ℕ) (searchSet : List LYPlace) :
    List ℕ → Selection → Selection
  | [], s => s
  | vPos :: rest, s =>
    match plan.candidate searchSet s vPos with
    | none => selectFrom dropProbability totPoiNumLimit i searchSet rest s
    | some vPlace =>
      if i = 0 ∧ s.loop = 0 then
        selectFrom dropProbability totPoiNumLimit i searchSet rest (s.add vPos vPlace)
      else if s.isFull totPoiNumLimit then s
      else if s.leftDur < plan.getAllocDur vPlace then
        selectFrom dropProbability totPoiNumLimit i searchSet rest s
      else if num.rval s.loop < dropProbability then
        selectFrom dropProbability totPoiNumLimit i searchSet rest s.draw
      else
        selectFrom dropProbability totPoiNumLimit i searchSet rest (plan.take s.draw vPos vPlace)

def categories : List (List LYPlace) :=
  [plan.userMustPlaceSet, plan.userOptSet, plan.systemOptSet, plan.posPList]

/-- `GetPlanPlace`, with what it leaves in its variables. -/
def getPlanPlace (loop : ℕ) : Selection :=
  let canPlayDur := plan.canPlayDur num loop
  let totPoiNumLimit := plan.totPoiNumLimit num canPlayDur
  let (noMissDropProbability, otherDropProbability) := plan.dropProbabilities num loop
  plan.categories.zipIdx.foldl (fun s (searchSet, i) =>
    plan.selectFrom num (if i > 0 then otherDropProbability else noMissDropProbability)
      totPoiNumLimit i searchSet (List.range plan.nodeNum) s) { leftDur := canPlayDur, loop }

/-! ## Bounds of the numbers -/

variable {num : Numerics} {plan : ClusterPlan}

theorem truncate_nonneg {q : ℚ} (h : 0 ≤ q) : 0 ≤ truncate q :=
  Int.tdiv_nonneg (Rat.num_nonneg.mpr h) (Int.natCast_nonneg _)

theorem rval_nonneg (index : ℕ) : 0 ≤ num.rval index := by
  apply num.double.round_nonneg
  positivity

theorem rval_le_one (index : ℕ) : num.rval index ≤ 1 := by
  apply num.double.round_le_one
  apply (div_le_one (by norm_num [StaticRand.max])).mpr
  exact_mod_cast num.rlist_le _

theorem canPlayDur_nonneg (loop : ℕ) : 0 ≤ plan.canPlayDur num loop := by
  have hpart : num.double.round (num.rval loop * num.double.round (3 / 10)) ≤ 1 := by
    apply num.double.round_le_one
    exact mul_le_one₀ (rval_le_one loop) (num.double.round_nonneg (by norm_num))
      (num.double.round_le_one (by norm_num))
  have hrest := num.double.round_nonneg (sub_nonneg.mpr hpart)
  apply truncate_nonneg
  apply num.double.round_nonneg
  apply mul_nonneg _ hrest
  rw [← Int.cast_zero, Int.cast_le]
  apply List.sum_nonneg
  intro dur hdur
  obtain ⟨i, hi, rfl⟩ := List.mem_map.mp hdur
  have hlong := (List.mem_filter.mp hi).2
  simp only [Bool.and_eq_true, decide_eq_true_eq] at hlong
  omega

/-! ## What is picked -/

/-- A place that may be planned, at its position. -/
structure IsCandidate (plan : ClusterPlan) (vPos : ℕ) (vPlace : LYPlace) : Prop where
  place : plan.posPList[vPos]? = some vPlace
  isVar : plan.isVarPlace vPlace = true
  notFailed : vPlace ∉ plan.failSet

theorem selectable_eq_some {searchSet : List LYPlace} {vPos : ℕ} {vPlace : LYPlace} :
    plan.selectable searchSet vPos = some vPlace ↔
      plan.IsCandidate vPos vPlace ∧ vPlace ∈ searchSet := by
  simp only [selectable, Option.filter_eq_some_iff, Bool.and_eq_true, decide_eq_true_eq]
  constructor
  · rintro ⟨hplace, ⟨hvar, hfail⟩, hsearch⟩
    exact ⟨⟨hplace, hvar, hfail⟩, hsearch⟩
  · rintro ⟨⟨hplace, hvar, hfail⟩, hsearch⟩
    exact ⟨hplace, ⟨hvar, hfail⟩, hsearch⟩

/-- The places `forced` have been taken whatever their time, and `drawn` within the time and the
number that are left. The number is exceeded by one, as it is only compared before a place is
added. -/
structure Selected (plan : ClusterPlan) (canPlayDur totPoiNumLimit : ℤ)
    (forced drawn : List LYPlace) (s : Selection) : Prop where
  vList_eq : s.vList = forced ++ drawn
  places : List.Forall₂ plan.IsCandidate s.addVPosSet s.vList
  nodup : s.addVPosSet.Nodup
  sum_eq : (drawn.map plan.getAllocDur).sum + s.leftDur = canPlayDur
  leftDur_nonneg : 0 ≤ s.leftDur
  zucheNum_eq : s.zucheNum = drawn.countP plan.isCarStore
  length_le : 0 ≤ totPoiNumLimit → drawn ≠ [] →
    (s.vList.length : ℤ) ≤ totPoiNumLimit + s.zucheNum + 1

variable {canPlayDur totPoiNumLimit : ℤ} {forced drawn : List LYPlace} {s : Selection}
  {searchSet : List LYPlace} {dropProbability : ℚ} {vPos i : ℕ} {vPlace : LYPlace} {l : List ℕ}

namespace Selected

theorem draw (h : Selected plan canPlayDur totPoiNumLimit forced drawn s) :
    Selected plan canPlayDur totPoiNumLimit forced drawn s.draw :=
  ⟨h.vList_eq, h.places, h.nodup, h.sum_eq, h.leftDur_nonneg, h.zucheNum_eq, h.length_le⟩

theorem take (h : Selected plan canPlayDur totPoiNumLimit forced drawn s)
    (hcand : plan.candidate searchSet s vPos = some vPlace)
    (hfull : ¬ s.isFull totPoiNumLimit = true) (hdur : plan.getAllocDur vPlace ≤ s.leftDur) :
    Selected plan canPlayDur totPoiNumLimit forced (drawn ++ [vPlace])
      (plan.take s vPos vPlace) := by
  unfold candidate at hcand
  split_ifs at hcand with hnew
  have hplace := (selectable_eq_some.mp hcand).1
  have hlen := h.places.length_eq
  simp only [Selection.isFull, Bool.and_eq_true, decide_eq_true_eq] at hfull
  unfold ClusterPlan.take Selection.add
  constructor
  · simp [h.vList_eq]
  · exact List.rel_append h.places (.cons hplace .nil)
  · simpa [List.nodup_append] using ⟨h.nodup, fun a ha heq => hnew (heq ▸ ha)⟩
  · have := h.sum_eq
    simp
    omega
  · dsimp only
    omega
  · simp [h.zucheNum_eq, List.countP_append]
  · intro hlimit _
    simp only [List.length_append, List.length_singleton]
    push_cast
    omega

/-- The loop adds to the drawn places only, unless it forces those of round 0. -/
theorem selectFrom (h : Selected plan canPlayDur totPoiNumLimit forced drawn s)
    (hi : i = 0 → s.loop ≠ 0 ∧ s.loop + l.length < StaticRand.capacity) :
    ∃ drawn', Selected plan canPlayDur totPoiNumLimit forced drawn'
      (plan.selectFrom num dropProbability totPoiNumLimit i searchSet l s) := by
  induction l generalizing s drawn with
  | nil => exact ⟨drawn, h⟩
  | cons vPos l ih =>
    have hrest : i = 0 → s.loop ≠ 0 ∧ s.loop + l.length < StaticRand.capacity := by
      intro hi0
      have := hi hi0
      rw [List.length_cons] at this
      omega
    have hdraw : i = 0 → s.draw.loop ≠ 0 ∧ s.draw.loop + l.length < StaticRand.capacity := by
      intro hi0
      have := hi hi0
      rw [List.length_cons] at this
      have hmod : (s.loop + 1) % StaticRand.capacity = s.loop + 1 := Nat.mod_eq_of_lt (by omega)
      simp only [Selection.draw, hmod]
      omega
    rw [ClusterPlan.selectFrom]
    split
    · exact ih h hrest
    · rename_i vPlace hcand
      rw [if_neg fun hforce => (hi hforce.1).1 hforce.2]
      split_ifs with hfull hdur hdrop
      · exact ⟨drawn, h⟩
      · exact ih h hrest
      · exact ih h.draw hdraw
      · exact ih (h.draw.take hcand hfull (not_lt.mp hdur)) hdraw

end Selected

/-- Round 0 takes all places of the first set. -/
theorem selectFrom_forced (hloop : s.loop = 0) (hl : l.Nodup)
    (hnew : ∀ vPos ∈ l, vPos ∉ s.addVPosSet) :
    plan.selectFrom num dropProbability totPoiNumLimit 0 searchSet l s = { s with
      addVPosSet := s.addVPosSet ++ l.filter fun vPos => (plan.selectable searchSet vPos).isSome
      vList := s.vList ++ l.filterMap (plan.selectable searchSet) } := by
  induction l generalizing s with
  | nil => simp [selectFrom]
  | cons vPos l ih =>
    obtain ⟨hvPos, hl⟩ := List.nodup_cons.mp hl
    obtain ⟨hhead, hrest⟩ := List.forall_mem_cons.mp hnew
    rw [selectFrom, candidate, if_neg hhead]
    cases hcand : plan.selectable searchSet vPos with
    | none =>
      rw [ih hloop hl hrest]
      simp [hcand]
    | some vPlace =>
      have hadd : ∀ v ∈ l, v ∉ (s.add vPos vPlace).addVPosSet := by
        intro v hv hmem
        rcases List.mem_append.mp hmem with hmem | hmem
        · exact hrest v hv hmem
        · exact hvPos (List.mem_singleton.mp hmem ▸ hv)
      have hzero : (s.add vPos vPlace).loop = 0 := hloop
      dsimp only
      rw [if_pos ⟨rfl, hloop⟩, ih hzero hl hadd]
      simp [Selection.add, hcand]

/-! ## All four loops -/

/-- The places that round 0 takes, in the order of their positions. -/
def mustPlaces (plan : ClusterPlan) : List LYPlace :=
  plan.posPList.filter fun vPlace => plan.isVarPlace vPlace &&
    decide (vPlace ∉ plan.failSet) && decide (vPlace ∈ plan.userMustPlaceSet)

theorem filterMap_range_getElem? {α : Type} (p : α → Bool) (l : List α) :
    (List.range l.length).filterMap (fun i => (l[i]?).filter p) = l.filter p := by
  induction l using List.reverseRecOn with
  | nil => rfl
  | append_singleton l a ih =>
    have hinit : (List.range l.length).filterMap (fun i => ((l ++ [a])[i]?).filter p) =
        (List.range l.length).filterMap (fun i => (l[i]?).filter p) := by
      apply List.filterMap_congr
      intro i hi
      rw [List.getElem?_append_left (List.mem_range.mp hi)]
    rw [List.length_append, List.length_singleton, List.range_succ, List.filterMap_append, hinit,
      ih, List.filter_append]
    by_cases hp : p a <;> simp [Option.filter, hp]

theorem filterMap_selectable : (List.range plan.nodeNum).filterMap
    (plan.selectable plan.userMustPlaceSet) = plan.mustPlaces :=
  filterMap_range_getElem? _ _

theorem selected_forced (loop : ℕ) (hloop : loop = 0) :
    Selected plan (plan.canPlayDur num loop) totPoiNumLimit plan.mustPlaces []
      (plan.selectFrom num dropProbability totPoiNumLimit 0 plan.userMustPlaceSet
        (List.range plan.nodeNum) { leftDur := plan.canPlayDur num loop, loop }) := by
  rw [selectFrom_forced hloop List.nodup_range (by simp)]
  constructor
  · simp [filterMap_selectable]
  · simp only [List.nil_append]
    induction List.range plan.nodeNum with
    | nil => exact .nil
    | cons vPos l ih =>
      cases hcand : plan.selectable plan.userMustPlaceSet vPos with
      | none => simpa [hcand] using ih
      | some vPlace => simpa [hcand] using ⟨(selectable_eq_some.mp hcand).1, ih⟩
  · simpa using List.nodup_range.filter _
  · simp
  · exact canPlayDur_nonneg loop
  · rfl
  · intro _ hne
    exact absurd rfl hne

theorem Selected.categories {noMiss other : ℚ} {rest : List (List LYPlace × ℕ)}
    (h : Selected plan canPlayDur totPoiNumLimit forced drawn s) (hrest : ∀ c ∈ rest, c.2 ≠ 0) :
    ∃ drawn', Selected plan canPlayDur totPoiNumLimit forced drawn'
      (rest.foldl (fun s (searchSet, i) => plan.selectFrom num (if i > 0 then other else noMiss)
        totPoiNumLimit i searchSet (List.range plan.nodeNum) s) s) := by
  induction rest generalizing s drawn with
  | nil => exact ⟨drawn, h⟩
  | cons c rest ih =>
    obtain ⟨hc, hrest⟩ := List.forall_mem_cons.mp hrest
    obtain ⟨drawn', h'⟩ := h.selectFrom fun hzero => absurd hzero hc
    exact ih h' hrest

/-- What `GetPlanPlace` leaves in its variables. -/
theorem getPlanPlace_selected {loop : ℕ} (hloop : loop < 100) :
    ∃ drawn, Selected plan (plan.canPlayDur num loop)
      (plan.totPoiNumLimit num (plan.canPlayDur num loop))
      (if loop = 0 then plan.mustPlaces else []) drawn (plan.getPlanPlace num loop) := by
  obtain ⟨drawn, h⟩ : ∃ drawn, Selected plan (plan.canPlayDur num loop)
      (plan.totPoiNumLimit num (plan.canPlayDur num loop))
      (if loop = 0 then plan.mustPlaces else []) drawn
      (plan.selectFrom num (plan.dropProbabilities num loop).1
        (plan.totPoiNumLimit num (plan.canPlayDur num loop)) 0 plan.userMustPlaceSet
        (List.range plan.nodeNum) { leftDur := plan.canPlayDur num loop, loop }) := by
    by_cases hzero : loop = 0
    · rw [if_pos hzero]
      exact ⟨[], selected_forced loop hzero⟩
    · rw [if_neg hzero]
      have hstart : Selected plan (plan.canPlayDur num loop)
          (plan.totPoiNumLimit num (plan.canPlayDur num loop)) [] []
          { leftDur := plan.canPlayDur num loop, loop } :=
        ⟨rfl, .nil, .nil, zero_add _, canPlayDur_nonneg loop, rfl, fun _ hne => absurd rfl hne⟩
      apply hstart.selectFrom
      intro _
      have := plan.nodeNum_le
      simp only [List.length_range, StaticRand.capacity, kPathLimit] at this ⊢
      exact ⟨hzero, by omega⟩
  exact h.categories (by simp)

theorem isCandidate_biUnique : Relator.BiUnique plan.IsCandidate := by
  constructor
  · intro i j place hi hj
    exact plan.varPlace_unique i j place hi.place hj.place hi.isVar
  · intro i place place' h h'
    exact Option.some.inj (h.place.symm.trans h'.place)

namespace Selected

theorem vList_nodup (h : Selected plan canPlayDur totPoiNumLimit forced drawn s) :
    s.vList.Nodup :=
  (List.rel_nodup isCandidate_biUnique h.places).mp h.nodup

theorem exists_isCandidate (h : Selected plan canPlayDur totPoiNumLimit forced drawn s)
    (hmem : vPlace ∈ s.vList) : ∃ vPos, plan.IsCandidate vPos vPlace := by
  obtain ⟨⟨i, hi⟩, rfl⟩ := List.mem_iff_get.mp hmem
  exact ⟨_, h.places.get (h.places.length_eq ▸ hi) hi⟩

end Selected

/-- A round picks every place once and none that has failed. Round 0 begins with all places that
must be visited. What is drawn has no more than the time that there is, and no more than one place,
apart from car stores, beyond the number that there is to be. -/
theorem getPlanPlace_picks (num : Numerics) (plan : ClusterPlan) (loop : ℕ) (hloop : loop < 100) :
    ∃ drawn, (plan.getPlanPlace num loop).vList =
        (if loop = 0 then plan.mustPlaces else []) ++ drawn ∧
      (plan.getPlanPlace num loop).vList.Nodup ∧
      (∀ vPlace ∈ (plan.getPlanPlace num loop).vList, ∃ vPos, plan.IsCandidate vPos vPlace) ∧
      (drawn.map plan.getAllocDur).sum ≤ plan.canPlayDur num loop ∧
      (0 ≤ plan.totPoiNumLimit num (plan.canPlayDur num loop) → drawn ≠ [] →
        ((plan.getPlanPlace num loop).vList.length : ℤ) ≤
          plan.totPoiNumLimit num (plan.canPlayDur num loop) + drawn.countP plan.isCarStore + 1) := by
  obtain ⟨drawn, h⟩ := plan.getPlanPlace_selected hloop
  refine ⟨drawn, h.vList_eq, h.vList_nodup, fun _ hmem => h.exists_isCandidate hmem, ?_, ?_⟩
  · have := h.sum_eq
    have := h.leftDur_nonneg
    omega
  · rw [← h.zucheNum_eq]
    exact h.length_le

/-! ## A day with two places -/

/-- Every random number is the greatest one, so that no place is left out by chance. -/
def greatestRand : Numerics where
  float := .exact
  double := .exact
  castNone := -2147483648
  rlist _ := StaticRand.max
  rlist_le _ := le_rfl

def towerCluster : ClusterPlan where
  toBagPlan := DFS.towerPlan
  qType := "ssv005"
  m_HotelOpenTime := 72000
  m_HotelCloseTime := 32400
  availDur _ := 32400
  isNotPlay _ := false
  isVarPlace place := place.ID ≠ "hotel"
  rawType _ := LY_PLACE_TYPE_VIEW
  allocDurMap := []
  avgTrafTime _ := 1200
  userMustPlaceSet := [.place "tower"]
  userOptSet := []
  systemOptSet := []
  failSet := []
  nodeNum_le := by decide
  blockNum_le := by decide
  varPlace_unique := by
    intro i j place hi hj hvar
    have hi4 : i < 4 := (List.getElem?_eq_some_iff.mp hi).1
    have hj4 : j < 4 := (List.getElem?_eq_some_iff.mp hj).1
    interval_cases i <;> interval_cases j <;> cases hi <;> simp_all [DFS.towerPlan, LYPlace.ID]

/-- The tower must be visited, and there is time for the museum. -/
theorem getPlanPlace_picks_tower : ∃ drawn,
    (towerCluster.getPlanPlace greatestRand 0).vList = [.place "tower"] ++ drawn ∧
      (drawn.map towerCluster.getAllocDur).sum ≤ towerCluster.canPlayDur greatestRand 0 ∧
      drawn = [.place "museum"] := by
  have hrun : (towerCluster.getPlanPlace greatestRand 0).vList =
      [.place "tower", .place "museum"] := by
    decide +kernel
  obtain ⟨drawn, hlist, -, -, hsum, -⟩ :=
    getPlanPlace_picks greatestRand towerCluster 0 (by decide)
  have hmust : towerCluster.mustPlaces = [.place "tower"] := by decide
  rw [if_pos rfl, hmust] at hlist
  refine ⟨drawn, hlist, hsum, ?_⟩
  simpa [hrun] using hlist.symm

end ClusterPlan

end PPView
