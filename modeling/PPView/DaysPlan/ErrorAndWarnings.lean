import Mathlib.Data.List.GetD
import Mathlib.Data.Nat.Find
import PPView.PathGenerator.DayPathExpand

/-!
# The explanation of a day's flags

The loop of `DayRoute::getErrorAndWarnings` over the nodes of the expanded day. For a node with a
flag it looks through the nodes before it for the causes and words a tip and a warning for each
flag. `causes_of_flag` says that for an expanded day it always finds them: the relation of two
sessions, which the diagnosis states in its own way, agrees with that of the look-back.
-/

namespace PPView

open NodeJ PathGenerator

/-- An entry of `tips`. -/
structure JErr where
  type : Nat
  content : String
  cannotSmartOpt : Bool := false
  deriving DecidableEq, Repr

/-- An entry of the warning list. -/
structure JWarning where
  didx : Int
  vidx : Int := -1
  innerVidx : Int
  type : Nat
  desc : String
  cannotSmartOpt : Bool := false
  deriving DecidableEq, Repr

/-- The members of the day that the loop reads; `placeName` is `getPlaceName` of the plan and
`isChangeTraffic` a member of the plan. -/
structure DayRoute where
  didx : Int
  dayMax : Int
  outRouteJ : RouteJ
  placeName : Nat → String
  isChangeTraffic : Bool := false

/-- What the loop writes: `jTips`, `jWarningList` and `m_expire`. -/
structure Report where
  tips : List JErr := []
  warnings : List JWarning := []
  expire : Bool := false
  deriving DecidableEq, Repr

namespace NodeJ

def hasError (n : NodeJ) : Bool := (List.finRange 7).any fun i => n.error i != 0

end NodeJ

namespace DayRoute

/-! ## The causes -/

/-- What the inner loop collects. -/
structure Causes where
  inverseList : List Nat := []
  overlapList : List Nat := []
  thePreFixedIdx : Int := -1
  deriving DecidableEq, Repr

/-- The inner loop, for the node `nodeJ`: `preNode` has number `j`. -/
def Causes.add (nodeJ : NodeJ) (c : Causes) (preNode : NodeJ) (j : Nat) : Causes :=
  if preNode.isFree then c
  else
    let c :=
      if preNode.time.1 ≥ nodeJ.time.2 then { c with inverseList := c.inverseList ++ [j] }
      else if nodeJ.time.1 < preNode.time.2 then { c with overlapList := c.overlapList ++ [j] }
      else c
    if c.thePreFixedIdx < j then { c with thePreFixedIdx := j } else c

def causes (out : RouteJ) (i : Nat) : Causes :=
  (List.range i).foldl
    (fun c j => c.add (out.getD i default) (out.getD j default) j) {}

variable (d : DayRoute)

def node (i : Nat) : NodeJ := d.outRouteJ.getD i default

/-- The last node of a day which is not the last of its journey. -/
def isNightEnd (i : Nat) : Bool :=
  i + 1 == d.outRouteJ.length && d.dayMax > 1 && d.didx != d.dayMax - 1

/-- A tip, with its warning, about the node `inner`. -/
def add (report : Report) (type : Nat) (inner : Int) (content desc : String)
    (cannotSmartOpt : Bool := false) : Report where
  tips := report.tips ++ [⟨type, content, cannotSmartOpt⟩]
  warnings := report.warnings ++ [⟨d.didx, -1, inner, type, desc, cannotSmartOpt⟩]
  expire := true

/-! ## The tips -/

/-- The tip about reversed nodes; `none` stands for the jump to `lastErr`. -/
def reportInverse (c : Causes) (i : Nat) (report : Report) : Option Report :=
  if (d.node i).error 0 = 1 then
    let isInverseCanDel := c.inverseList.all fun j => (d.node j).isNodeCanDel
    let names := String.intercalate "、" (c.inverseList.map d.placeName)
    let tip := names ++ "与" ++ d.placeName i ++ "，指定时间与当前顺序冲突"
    if !(d.node i).isNodeCanDel && !isInverseCanDel then some (d.add report 3 i tip tip true)
    else if d.isNightEnd i then none
    else some (d.add report 3 i tip tip)
  else some report

/-- The tip about overlapping stays or, if there is none, about too little time. -/
def reportOverlap (c : Causes) (i : Nat) (report : Report) : Option Report :=
  if (d.node i).error 1 = 1 ∧ c.overlapList.length > 0 then
    let isPreNodeCanDel := c.overlapList.any fun j => (d.node j).isNodeCanDel
    let names := String.join (c.overlapList.map fun j => d.placeName j ++ "、")
    let tip := names ++ d.placeName i ++ "，指定的停留时间段重叠"
    if !(d.node i).isNodeCanDel && !isPreNodeCanDel then some (d.add report 2 i tip tip true)
    else if d.isNightEnd i then none
    else some (d.add report 2 i tip tip)
  else if (d.node i).error 2 = 1 ∧ c.thePreFixedIdx ≠ -1 then
    if d.isNightEnd i then none
    else
      let tip := d.placeName c.thePreFixedIdx.toNat ++ "与" ++ d.placeName i ++ "之间的可用时间不足"
      some (d.add report 1 i tip tip)
  else some report

/-- The tip about a last node that is reached late. -/
def reportLast (i : Nat) (report : Report) : Report :=
  if i + 1 = d.outRouteJ.length ∧ (d.node i).error 5 = 1 then
    if d.dayMax = 1 ∨ d.dayMax > 1 ∧ d.didx = d.dayMax - 1 then
      -- only where a free node stands before it
      if i ≥ 1 ∧ !(d.node (i - 1)).isFree then report
      else
        let tip := if d.isChangeTraffic
          then "考虑市内交通后当日行程已经超出离开城市时间，请缩短自定义交通时长或减少景点"
          else "考虑市内交通后当日行程已经超出离开城市时间，需要减少游玩时长或地点"
        d.add report 4 (-1) tip "当日行程已经超出离开城市时间，需要减少游玩时长或地点"
    else
      let tip := if d.isChangeTraffic
        then "考虑市内交通后当日行程已经超出下一天酒店出发时间，请缩短自定义交通时长或减少景点"
        else "考虑市内交通后当日行程已经超出下一天酒店出发时间，需要减少游玩时长或地点"
      d.add report 5 (-1) tip "当日行程已经超出下一天酒店出发时间，需要减少游玩时长或地点"
  else report

/-- The body of the outer loop. -/
def reportNode (report : Report) (i : Nat) : Report :=
  if (d.node i).hasError then
    let c := causes d.outRouteJ i
    match d.reportInverse c i report with
    | none => d.reportLast i report
    | some report =>
      match d.reportOverlap c i report with
      | none => d.reportLast i report
      | some report => d.reportLast i report
  else report

/-- The tips about the flags of the day, added to the warnings that are there. -/
def getErrorAndWarnings (jWarningList : List JWarning) : Report :=
  (List.range d.outRouteJ.length).foldl d.reportNode { warnings := jWarningList }

/-! ## The diagnosis agrees with the flags -/

/-- What the inner loop has collected after the first `i` nodes. -/
structure Causes.Collected (nodeJ : NodeJ) (out : RouteJ) (i : Nat) (c : Causes) : Prop where
  inverse : c.inverseList = (List.range i).filter fun j =>
    !(out.getD j default).isFree && decide (nodeJ.time.2 ≤ (out.getD j default).time.1)
  overlap : c.overlapList = (List.range i).filter fun j =>
    !(out.getD j default).isFree && (decide ((out.getD j default).time.1 < nodeJ.time.2) &&
      decide (nodeJ.time.1 < (out.getD j default).time.2))
  preFixed (j : Nat) : c.thePreFixedIdx = j ↔ j < i ∧ (out.getD j default).isFree = false ∧
    ∀ k < i, j < k → (out.getD k default).isFree = true
  lt : c.thePreFixedIdx < i

theorem Causes.Collected.add {nodeJ : NodeJ} {out : RouteJ} {i : Nat} {c : Causes}
    (h : c.Collected nodeJ out i) :
    (c.add nodeJ (out.getD i default) i).Collected nodeJ out (i + 1) := by
  have hlt := h.lt
  cases hfree : (out.getD i default).isFree with
  | true =>
    rw [Causes.add, if_pos hfree]
    refine ⟨?_, ?_, fun j => ?_, by omega⟩
    · simp [h.inverse, List.range_succ, hfree, -List.getD_eq_getElem?_getD]
    · simp [h.overlap, List.range_succ, hfree, -List.getD_eq_getElem?_getD]
    · rw [h.preFixed]
      grind
  | false =>
    have hidx : (c.add nodeJ (out.getD i default) i).thePreFixedIdx = i := by
      unfold Causes.add
      split_ifs <;> simp_all
    refine ⟨?_, ?_, fun j => ?_, by omega⟩
    · rw [List.range_succ, List.filter_append, ← h.inverse]
      unfold Causes.add
      split_ifs <;> simp_all
    · rw [List.range_succ, List.filter_append, ← h.overlap]
      unfold Causes.add
      split_ifs <;> simp_all
    · rw [hidx]
      grind

theorem causes_collected (out : RouteJ) (i : Nat) :
    (causes out i).Collected (out.getD i default) out i := by
  have hfold (nodeJ : NodeJ) (k : Nat) : ((List.range k).foldl
      (fun c j => Causes.add nodeJ c (out.getD j default) j) {}).Collected nodeJ out k := by
    induction k with
    | zero => exact ⟨rfl, rfl, by simp, by simp⟩
    | succ k ih =>
      rw [List.range_succ, List.foldl_append, List.foldl_cons, List.foldl_nil]
      exact ih.add
  exact hfold _ i

/-- The causes of the flags of node `i`: the earlier fixed nodes that begin when it has ended,
those whose stay overlaps with its own, and the last fixed node before it. -/
structure Causes.Explains (out : RouteJ) (i : Nat) (n : NodeJ) (c : Causes) : Prop where
  inverse : c.inverseList = (List.range i).filter fun j =>
    (out.getD j default).isFixed && decide (n.time.2 ≤ (out.getD j default).time.1)
  overlap : c.overlapList = (List.range i).filter fun j =>
    (out.getD j default).isFixed && (decide ((out.getD j default).time.1 < n.time.2) &&
      decide (n.time.1 < (out.getD j default).time.2))
  preFixed (j : Nat) : c.thePreFixedIdx = j ↔ j < i ∧ (out.getD j default).isFixed = true ∧
    ∀ k < i, j < k → (out.getD k default).isFixed = false

/-- In a route of fixed and free nodes the nodes that are not free are the fixed ones. -/
theorem Causes.Collected.explains {n : NodeJ} {out : RouteJ} {i : Nat} {c : Causes}
    (h : c.Collected n out i) (hsingle : ∀ j < i, (out.getD j default).Single) :
    c.Explains out i n := by
  have hfree {j : Nat} (hj : j < i) :
      (!(out.getD j default).isFree) = (out.getD j default).isFixed := by
    rw [hsingle j hj, Bool.not_not]
  refine ⟨?_, ?_, fun j => ?_⟩
  · rw [h.inverse]
    exact List.filter_congr fun j hj => by rw [hfree (List.mem_range.mp hj)]
  · rw [h.overlap]
    exact List.filter_congr fun j hj => by rw [hfree (List.mem_range.mp hj)]
  · rw [h.preFixed]
    grind

/-- The look-back and the diagnosis compare two sessions in the same way. -/
theorem ge_of_reversed {last times : Int × Int} (h : Reversed last times) : last.1 ≥ times.2 := by
  unfold Reversed at h
  omega

theorem lt_of_overlapping {last times : Int × Int} (h : Overlapping last times) :
    last.1 < times.2 ∧ times.1 < last.2 := by
  unfold Overlapping Reversed at h
  omega

/-- Of the numbers below `i` with a property there is a last one. -/
theorem exists_last_lt {i : Nat} (p : Nat → Prop) (h : ∃ j < i, p j) :
    ∃ last, (last < i ∧ p last) ∧ ∀ k < i, last < k → ¬p k := by
  classical
  obtain ⟨j, hj, hp⟩ := h
  refine ⟨Nat.findGreatest p (i - 1), ⟨?_, Nat.findGreatest_spec (by omega) hp⟩, ?_⟩
  · have := Nat.findGreatest_le (P := p) (i - 1)
    omega
  · intro k hk hlt
    exact Nat.findGreatest_is_greatest hlt (by omega)

theorem exists_of_someFixed {out : RouteJ} {k : Nat} {R : Int × Int → Int → Prop}
    (h : SomeFixed (out.take k) R) :
    ∃ j < k, (out.getD j default).isFixed ∧ ∃ stay, R (out.getD j default).time stay := by
  obtain ⟨before, q, between, heq, hq, hR⟩ := h
  have hlen := congrArg List.length heq
  rw [List.length_take, List.length_append, List.length_cons] at hlen
  have hget : out.getD before.length default = q := by
    have htake : (out.take k)[before.length]? = some q := by simp [heq]
    rw [List.getElem?_take_of_lt (by omega)] at htake
    simp [List.getD_eq_getElem?_getD, htake]
  exact ⟨before.length, by omega, hget ▸ hq, _, hget ▸ hR⟩

/-- In a day that was expanded with clear flags the diagnosis of a fixed node collects just the
causes, and there is one for every flag. -/
theorem causes_of_flag {r : RouteJ} {controls : Controls} {g' : PathGenerator}
    (hclear : ∀ n ∈ r, n.error = fun _ => 0)
    (h : (create r controls).dayPathExpand = .ok (true, g')) {i : Nat} {n : NodeJ}
    (hn : g'.outRouteJ[i]? = some n) (hx : n.isFixed) :
    (causes g'.outRouteJ i).Explains g'.outRouteJ i n ∧
      (n.error 0 = 1 → (causes g'.outRouteJ i).inverseList ≠ []) ∧
      (n.error 1 = 1 → (causes g'.outRouteJ i).overlapList ≠ []) ∧
      (n.error 2 = 1 → ∃ j < i, (causes g'.outRouteJ i).thePreFixedIdx = j) := by
  have hplan := dayPlan_of_dayPathExpand hclear h
  obtain ⟨hvalid, -⟩ := valid_of_dayPathExpand h
  generalize g'.outRouteJ = out at hn hplan ⊢
  have hsingle : ∀ m ∈ out, m.Single := by
    intro m hm
    obtain ⟨m', hm', heq⟩ := List.mem_map.mp (hplan.bare ▸ List.mem_map_of_mem hm)
    exact (hvalid.single hm').of_bare heq
  have hget : out.getD i default = n := by simp [List.getD_eq_getElem?_getD, hn]
  obtain ⟨hi, rfl⟩ := List.getElem?_eq_some_iff.mp hn
  have hexplains : (causes out i).Explains out i out[i] := by
    refine (hget ▸ causes_collected out i).explains fun j hj => ?_
    rw [List.getD_eq_getElem _ _ (by omega)]
    exact hsingle _ (List.getElem_mem _)
  refine ⟨hexplains, ?_⟩
  cases i with
  | zero =>
    have := (hplan.first out[0] (by simp [List.head?_eq_getElem?])).2
    simp [this]
  | succ i =>
    have heq : out = out.take i ++ out[i] :: out[i + 1] :: out.drop (i + 2) := by
      rw [← List.drop_eq_getElem_cons, ← List.drop_eq_getElem_cons, List.take_append_drop]
    obtain ⟨traf, -, hnode⟩ := hplan.next _ _ _ _ heq
    rw [List.take_concat_get' out i (by omega)] at hnode
    have htime := hnode.fixed hx
    refine ⟨fun h0 => ?_, fun h1 => ?_, fun h2 => ?_⟩
    · obtain ⟨j, hj, hq, -, hrev⟩ := exists_of_someFixed (hnode.reversed.mp h0).2
      rw [← htime] at hrev
      have hmem : j ∈ (causes out (i + 1)).inverseList := by
        rw [hexplains.inverse, List.mem_filter]
        have hge := ge_of_reversed hrev
        exact ⟨List.mem_range.mpr hj, by simp only [hq, Bool.true_and, decide_eq_true hge]⟩
      exact List.ne_nil_of_mem hmem
    · obtain ⟨j, hj, hq, -, hover⟩ := exists_of_someFixed (hnode.overlapping.mp h1).2
      rw [← htime] at hover
      have hmem : j ∈ (causes out (i + 1)).overlapList := by
        rw [hexplains.overlap, List.mem_filter]
        obtain ⟨hlt, hlt'⟩ := lt_of_overlapping hover
        exact ⟨List.mem_range.mpr hj,
          by simp only [hq, Bool.true_and, decide_eq_true hlt, decide_eq_true hlt']⟩
      exact List.ne_nil_of_mem hmem
    · obtain ⟨j, hj, hq, -⟩ := exists_of_someFixed (hnode.notEnough.mp h2).2
      obtain ⟨last, ⟨hlast, hfixed⟩, hmax⟩ := exists_last_lt
        (fun k => (out.getD k default).isFixed) ⟨j, hj, hq⟩
      exact ⟨last, hlast, (hexplains.preFixed last).mpr ⟨hlast, hfixed, by simpa using hmax⟩⟩

/-- The tour starts before the hotel is left, and the inn ends before the tour starts. -/
def crossedDay : RouteJ :=
  [{ id := some "hotel", toNext := some [("tour", 1800)]
     fixed := some ⟨some [(0, 28800)], some 0⟩ },
   { id := some "tour", toNext := some [("inn", 1800)]
     fixed := some ⟨some [(10000, 40000)], some 1⟩ },
   { id := some "inn", toNext := some [], fixed := some ⟨some [(5000, 9000)], some 0⟩ }]

def crossedTour : NodeJ :=
  { id := some "tour", toNext := some [("inn", 1800)]
    fixed := some ⟨some [(10000, 40000)], some 1⟩, time := (10000, 40000) }

def crossedInn : NodeJ :=
  { id := some "inn", toNext := some [], fixed := some ⟨some [(5000, 9000)], some 0⟩
    time := (5000, 9000) }

def crossedPlan : RouteJ :=
  [{ id := some "hotel", toNext := some [("tour", 1800)]
     fixed := some ⟨some [(0, 28800)], some 0⟩, time := (0, 28800) },
   ((crossedTour.setError 1).setError 5).setError 6,
   ((crossedInn.setError 0).setError 1).setError 5]

theorem dayPathExpand_crossedDay : (create crossedDay).dayPathExpand =
    .ok (true, { create crossedDay with outRouteJ := crossedPlan }) := rfl

theorem causes_of_flag_crossedDay :
    (causes crossedPlan 2).Explains crossedPlan 2 crossedPlan[2] ∧
      (causes crossedPlan 2).inverseList ≠ [] ∧ (causes crossedPlan 2).overlapList ≠ [] :=
  have h := causes_of_flag (by simp [crossedDay]) dayPathExpand_crossedDay
    (i := 2) (n := crossedPlan[2]) rfl rfl
  ⟨h.1, h.2.1 rfl, h.2.2.1 rfl⟩

example : (causes crossedPlan 2).inverseList = [1] ∧ (causes crossedPlan 2).overlapList = [0] := by
  decide

end DayRoute

end PPView
