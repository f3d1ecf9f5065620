import PPView.DaysPlan.ErrorAndWarnings
import PPView.Library.Buckets
import PPView.PostProcessor.AddResult
import PPView.PostProcessor.SummaryDays

/-!
# The warnings of a response

`DaysPlan::MakeResp` collects the warnings of the planned days, numbered by the days of the plan,
and those about the traffic, numbered by the merged days. `PerfectWarningList` then orders them by
the days of the plan.
-/

namespace PPView

open Json PostProcessor

/-! ## Warnings of a planned day -/

/-- The warning as it is written. -/
def JWarning.toJson (w : JWarning) : Json :=
  .obj ((if w.cannotSmartOpt then [("cannot_smart_opt", .int 1)] else []) ++
    [("desc", .str w.desc), ("didx", .int w.didx), ("inner_vidx", .int w.innerVidx),
      ("type", .int w.type), ("vidx", .int w.vidx)])

/-- The clock and calendar of a plan. -/
structure PlanClock where
  toTime : String → Int
  toString : Int → String
  compareDayStr : String → String → Int

/-- A day of the plan. `dealt` is the result of `dealDayPois`, `unavailable` tells the nodes that
are tours which cannot be had on the date, and `jDay` is the day with its views. -/
structure PlanDay where
  m_date : String
  dealt : Bool
  outRouteJ : RouteJ
  placeName : ℕ → String
  unavailable : ℕ → Bool
  jDay : Json

/-- The days of a plan. They are counted by an `int`. -/
structure DaysPlan where
  m_dayPlan : List PlanDay
  isChangeTraffic : Bool
  size_le : m_dayPlan.length ≤ 2 ^ 31

namespace DaysPlan

/-- The day as `DayRoute` has it, at the index `didx`. -/
def dayRoute (p : DaysPlan) (day : PlanDay) (didx : ℕ) : DayRoute where
  didx
  dayMax := p.m_dayPlan.length
  outRouteJ := day.outRouteJ
  placeName := day.placeName
  isChangeTraffic := p.isChangeTraffic

def substr (pos len : ℕ) (s : String) : String := String.ofList ((s.toList.drop pos).take len)

/-- The tip about a day that starts early or ends late; `none` is the early return for a day without
enough nodes. -/
def uncomfortableWarnings (c : PlanClock) (p : DaysPlan) (day : PlanDay) (didx : ℕ) :
    Option (List Json) :=
  let dayMax := p.m_dayPlan.length
  let uncomfortableBackTime := c.toTime (day.m_date ++ "_24:00")
  let uncomfortableDeptTime := c.toTime (day.m_date ++ "_06:00")
  let size := day.outRouteJ.length
  if dayMax > 1 then
    if didx + 1 ≠ dayMax ∧ size < 3 then none
    else
      let backHotelTime := if didx + 1 ≠ dayMax then (day.outRouteJ.getD (size - 2) default).time.1
        else uncomfortableBackTime
      let isBackHotelUncomfortable := didx + 1 ≠ dayMax ∧ backHotelTime ≥ uncomfortableBackTime
      let deptHotelTime := if didx ≠ 0 then (day.outRouteJ.getD 0 default).time.1
        else uncomfortableDeptTime
      let isDeptHotelUncomfortable := didx ≠ 0 ∧ deptHotelTime ≤ uncomfortableDeptTime
      let deptHotelStr := c.toString deptHotelTime
      let cmpDate := c.compareDayStr (substr 0 8 deptHotelStr) day.m_date
      let deptTip := if isDeptHotelUncomfortable then
          (if cmpDate ≠ 0 then "前" ++ ToString.toString cmpDate ++ "天" else "") ++
            substr 9 deptHotelStr.length deptHotelStr ++ "开始"
        else ""
      let backHotelStr := c.toString backHotelTime
      let backTip := if isBackHotelUncomfortable then
          (if isDeptHotelUncomfortable then "，" else "") ++
            (if c.compareDayStr day.m_date (substr 0 8 backHotelStr) = 1 then "次日" else "") ++
            substr 9 backHotelStr.length backHotelStr ++ "返回休息"
        else ""
      if isDeptHotelUncomfortable ∨ isBackHotelUncomfortable then
        some [.obj [("desc", .str ("请注意，当天行程" ++ deptTip ++ backTip)), ("didx", .int didx),
          ("type", .int 9), ("vidx", .int (-1))]]
      else some []
  else some []

/-- The warnings about tours that cannot be had on the date. -/
def unavailableWarnings (day : PlanDay) (didx : ℕ) : List Json :=
  (List.range day.outRouteJ.length).filterMap fun i =>
    if day.unavailable i then
      some (.obj [("desc", .str (day.placeName i ++ "当前日期不可用，请重新选择日期")),
        ("didx", .int didx), ("type", .int 6), ("vidx", .int (-1))])
    else none

/-- The warnings that `GetDayView` adds. -/
def dayWarnings (c : PlanClock) (p : DaysPlan) (day : PlanDay) (didx : ℕ) : List Json :=
  if day.dealt then
    match uncomfortableWarnings c p day didx with
    | none => []
    | some warnings =>
      warnings ++ ((p.dayRoute day didx).getErrorAndWarnings []).warnings.map JWarning.toJson ++
        unavailableWarnings day didx
  else []

/-- The first loop of `MakeResp`. -/
def planWarnings (c : PlanClock) (p : DaysPlan) : List Json :=
  p.m_dayPlan.zipIdx.flatMap fun (day, didx) => dayWarnings c p day didx

/-! ## Warnings about the traffic -/

/-- What the check of the traffic reads besides the days; `hasSession` tells the tours with a
session. -/
structure TrafficWorld where
  toTime : String → Int
  hasSession : String → Bool

def isLockTimePoi (w : TrafficWorld) (jView : Json) (index : ℕ) : Option Bool := do
  let type := jView.get "type"
  if jView.isMember "type" && hasType (← type.asInt) (LY_PLACE_TYPE_ARRIVE ||| LY_PLACE_TYPE_CAR_STORE)
  then pure true
  else if index = 0 && type.isInt && hasType (← type.asInt) LY_PLACE_TYPE_HOTEL then pure true
  else
    match (jView.get "product").get "pid" with
    | .str id => pure (w.hasSession id)
    | _ => pure false

/-- A number of seconds, in hours and minutes. -/
def spanText (dur : Int) : String :=
  (if (dur + 59) / 3600 ≠ 0 then ToString.toString ((dur + 59) / 3600) ++ "小时" else "") ++
    (if (dur + 59) / 60 % 60 ≠ 0 then ToString.toString ((dur + 59) / 60 % 60) ++ "分钟" else "")

def trafficWarning (didx vidx : ℕ) (desc : String) : Json :=
  .obj [("desc", .str desc), ("didx", .int didx), ("type", .int 11), ("vidx", .int vidx)]

/-- `traffic.fixed`, if it is an `int`. -/
def fixedOf (traffic : Json) : Option Int :=
  if (traffic.get "fixed").isInt then (traffic.get "fixed").asInt else pure 0

/-- The warning about the way between the views `j` and `j + 1` of the day `i`. -/
def viewWarnings (w : TrafficWorld) (i j : ℕ) (jLastView jView : Json) : Option (List Json) := do
  let traffic := jLastView.get "traffic"
  if (← fixedOf traffic) ≠ 0 then pure []
  else if !(← isLockTimePoi w jView (j + 1)) then pure []
  else if !(← isLockTimePoi w jLastView j) then pure []
  else
    let lastEnd := w.toTime (← (jLastView.get "etime").asString)
    let trafDur ← (traffic.get "dur").asInt
    let lastTrafDur := if trafDur ≥ 0 then trafDur else 0
    let stime := w.toTime (← (jView.get "stime").asString)
    if lastEnd ≥ stime then pure [trafficWarning i j "前后安排过紧，未预留交通时间"]
    else if lastEnd + lastTrafDur > stime ∧ lastEnd + lastTrafDur - stime ≥ 60 then
      pure [trafficWarning i j ("只预留了" ++ spanText (stime - lastEnd) ++
        "的交通时间，实际交通已经超出" ++ spanText (lastEnd + lastTrafDur - stime))]
    else pure []

/-- The views of a day, from the view `j` on. -/
def viewsWarnings (w : TrafficWorld) (i : ℕ) : ℕ → List Json → Option (List Json)
  | j, jLastView :: jView :: views => do
    let warnings ← viewWarnings w i j jLastView jView
    pure (warnings ++ (← viewsWarnings w i (j + 1) (jView :: views)))
  | _, _ => some []

/-- The warnings of the merged day at the index `i`. -/
def trafficWarnings (w : TrafficWorld) (i : ℕ) (jDay : Json) : Option (List Json) := do
  viewsWarnings w i 0 (← (jDay.get "view").items)

def addTrafficWarning (w : TrafficWorld) : ℕ → List Json → List Json → Option (List Json)
  | _, [], jWarningList => some jWarningList
  | i, jDay :: jDayList, jWarningList => do
    addTrafficWarning w (i + 1) jDayList (jWarningList ++ (← trafficWarnings w i jDay))

/-! ## The list of warnings -/

/-- `jWarning["didx"]`, if it is an `int`. -/
def didxOf (jWarning : Json) : Option Int :=
  if (jWarning.get "didx").isInt then (jWarning.get "didx").asInt else none

def perfectWarningList (p : DaysPlan) (jWarningList : List Json) : List Json :=
  (List.range p.m_dayPlan.length).flatMap fun didx : ℕ =>
    jWarningList.filter fun jWarning => didxOf jWarning = some (didx : Int)

/-- The merged days and the warnings that `MakeResp` hands to `PerfectWarningList`, for a response
that is not one of errors only. -/
def mergedWarnings (c : PlanClock) (w : TrafficWorld) (p : DaysPlan) (jReqDayList : Json)
    (dateSet : Finset String) : Option (List Json × List Json) := do
  let jViewDayList := (p.m_dayPlan.map (·.jDay)).filter fun jDay => !jDay.isNull
  let merged ← addResult jReqDayList (.arr jViewDayList) dateSet
  let jDayList ← merged.items
  pure (jDayList, ← addTrafficWarning w 0 jDayList (planWarnings c p))

/-! ## Stable reordering -/

variable {c : PlanClock} {w : TrafficWorld} {p : DaysPlan} {W W' : List Json} {v : Json}

/-- The same warnings, those of one day in their order, the days in order. -/
structure IsReordering (W W' : List Json) : Prop where
  perm : W'.Perm W
  stable : ∀ didx : Int, (W'.filter fun v => didxOf v = some didx) =
    W.filter fun v => didxOf v = some didx
  sorted : W'.Pairwise fun v v' => ∀ d ∈ didxOf v, ∀ d' ∈ didxOf v', d ≤ d'

/-- The day of a warning, counted from zero. -/
def keyOf (v : Json) : Option ℕ := (didxOf v).bind Int.toNat?

theorem keyOf_eq_some_iff {d : ℕ} : keyOf v = some d ↔ didxOf v = some (d : Int) := by
  rw [keyOf, Option.bind_eq_some_iff]
  constructor
  · rintro ⟨n, hn, hd⟩
    rw [hn, Int.mem_toNat?.mp hd]
  · exact fun h => ⟨d, h, Int.mem_toNat?.mpr rfl⟩

theorem perfectWarningList_eq (p : DaysPlan) (W : List Json) :
    perfectWarningList p W = Buckets.collect keyOf p.m_dayPlan.length W := by
  simp only [perfectWarningList, Buckets.collect, keyOf_eq_some_iff]

theorem isReordering_iff : IsReordering W (perfectWarningList p W) ↔
    ∀ v ∈ W, ∃ d < p.m_dayPlan.length, didxOf v = some (d : Int) := by
  rw [perfectWarningList_eq]
  simp only [← keyOf_eq_some_iff]
  constructor
  · exact fun h => Buckets.collect_perm_iff.mp h.perm
  · intro h
    have hperm := Buckets.collect_perm_iff.mpr h
    refine ⟨hperm, fun didx => ?_, ?_⟩
    · by_cases hdidx : ∃ d < p.m_dayPlan.length, didx = (d : Int)
      · obtain ⟨d, hd, rfl⟩ := hdidx
        have hfilter : (Buckets.collect keyOf _ W).filter (keyOf · = some d) = _ :=
          Buckets.filter_collect hd W
        simpa only [keyOf_eq_some_iff] using hfilter
      · -- No warning has such a day.
        have hnone : (W.filter fun v => didxOf v = some didx) = [] := by
          refine List.filter_eq_nil_iff.mpr fun v hv hthis => ?_
          obtain ⟨d, hd, hkey⟩ := h v hv
          rw [keyOf_eq_some_iff, of_decide_eq_true hthis] at hkey
          exact hdidx ⟨d, hd, Option.some.inj hkey⟩
        have hnone' := hperm.filter fun v => didxOf v = some didx
        rw [hnone] at hnone' ⊢
        exact hnone'.eq_nil
    · refine (Buckets.pairwise_collect keyOf _ W).imp_of_mem fun {v v'} hv hv' hle d hd d' hd' => ?_
      obtain ⟨k, -, hkey⟩ := h v (hperm.subset hv)
      obtain ⟨k', -, hkey'⟩ := h v' (hperm.subset hv')
      have hkk := hle k hkey k' hkey'
      rw [keyOf_eq_some_iff] at hkey hkey'
      rw [Option.mem_def, hkey] at hd
      rw [Option.mem_def, hkey'] at hd'
      rw [← Option.some.inj hd, ← Option.some.inj hd']
      exact Int.ofNat_le.mpr hkk

/-! ## What the producers write -/

theorem didxOf_of_int {d : ℕ} (h : v.get "didx" = .int d) (hd : d < 2 ^ 31) :
    didxOf v = some (d : Int) := by
  have hrange : inRange ((d : Int) : Rat) = true := inRange_int (by omega) (by omega)
  rw [didxOf, h, isInt, asInt, hrange]
  rfl

section

variable {d : DayRoute} {causes : DayRoute.Causes} {i : ℕ} {report report' : Report}

/-- All warnings are about the day. -/
def OwnDay (d : DayRoute) (report : Report) : Prop := ∀ v ∈ report.warnings, v.didx = d.didx

theorem OwnDay.add (h : OwnDay d report) (type : ℕ) (inner : Int) (content desc : String)
    (cannotSmartOpt : Bool) : OwnDay d (d.add report type inner content desc cannotSmartOpt) := by
  intro v hv
  rcases List.mem_append.mp hv with hv | hv
  · exact h v hv
  · rw [List.mem_singleton.mp hv]

theorem OwnDay.reportInverse (h : OwnDay d report)
    (hrun : d.reportInverse causes i report = some report') : OwnDay d report' := by
  rw [DayRoute.reportInverse] at hrun
  dsimp only at hrun
  split_ifs at hrun
  all_goals
    obtain rfl := Option.some.inj hrun
    first
      | exact h
      | exact OwnDay.add h _ _ _ _ _

theorem OwnDay.reportOverlap (h : OwnDay d report)
    (hrun : d.reportOverlap causes i report = some report') : OwnDay d report' := by
  rw [DayRoute.reportOverlap] at hrun
  dsimp only at hrun
  split_ifs at hrun
  all_goals
    obtain rfl := Option.some.inj hrun
    first
      | exact h
      | exact OwnDay.add h _ _ _ _ _

theorem OwnDay.reportLast (h : OwnDay d report) (i : ℕ) : OwnDay d (d.reportLast i report) := by
  rw [DayRoute.reportLast]
  dsimp only
  split_ifs
  all_goals
    first
      | exact h
      | exact OwnDay.add h _ _ _ _ _

theorem OwnDay.reportNode (h : OwnDay d report) (i : ℕ) : OwnDay d (d.reportNode report i) := by
  rw [DayRoute.reportNode]
  split_ifs
  · dsimp only
    cases hinverse : d.reportInverse (DayRoute.causes d.outRouteJ i) i report with
    | none => exact h.reportLast i
    | some report' =>
      have h' := h.reportInverse hinverse
      dsimp only
      cases hoverlap : d.reportOverlap (DayRoute.causes d.outRouteJ i) i report' with
      | none => exact h'.reportLast i
      | some report'' => exact (h'.reportOverlap hoverlap).reportLast i
  · exact h

theorem getErrorAndWarnings_ownDay (d : DayRoute) : OwnDay d (d.getErrorAndWarnings []) := by
  rw [DayRoute.getErrorAndWarnings]
  have loop : ∀ (l : List ℕ) report, OwnDay d report → OwnDay d (l.foldl d.reportNode report) := by
    intro l
    induction l with
    | nil => exact fun report h => h
    | cons i l ih => exact fun report h => ih _ (h.reportNode i)
  exact loop _ _ (by simp [OwnDay])

end

theorem get_toJson (v : JWarning) : v.toJson.get "didx" = .int v.didx := by
  rw [JWarning.toJson, Json.get]
  cases v.cannotSmartOpt <;> rfl

theorem dayWarnings_didx {day : PlanDay} {didx : ℕ} :
    ∀ v ∈ dayWarnings c p day didx, v.get "didx" = .int didx := by
  intro v hv
  rw [dayWarnings] at hv
  split_ifs at hv
  · cases hfirst : uncomfortableWarnings c p day didx with
    | none => simp [hfirst] at hv
    | some warnings =>
      rw [hfirst] at hv
      rcases List.mem_append.mp hv with hv | hv
      · rcases List.mem_append.mp hv with hv | hv
        · rw [uncomfortableWarnings] at hfirst
          dsimp only at hfirst
          split_ifs at hfirst
          all_goals
            obtain rfl := Option.some.inj hfirst
            first
              | contradiction
              | rw [List.mem_singleton.mp hv]; rfl
        · obtain ⟨warning, hwarning, rfl⟩ := List.mem_map.mp hv
          rw [get_toJson, getErrorAndWarnings_ownDay _ warning hwarning]
          rfl
      · obtain ⟨i, -, hthis⟩ := List.mem_filterMap.mp hv
        split_ifs at hthis
        obtain rfl := Option.some.inj hthis
        rfl
  · contradiction

theorem planWarnings_didx : ∀ v ∈ planWarnings c p,
    ∃ d < p.m_dayPlan.length, didxOf v = some (d : Int) := by
  intro v hv
  obtain ⟨⟨day, d⟩, hday, hv⟩ := List.mem_flatMap.mp hv
  have hd : d < p.m_dayPlan.length :=
    (List.getElem?_eq_some_iff.mp (List.mem_zipIdx_iff_getElem?.mp hday)).1
  have := p.size_le
  exact ⟨d, hd, didxOf_of_int (dayWarnings_didx v hv) (by omega)⟩

theorem viewWarnings_didx {i j : ℕ} {jLastView jView : Json} {ws : List Json}
    (h : viewWarnings w i j jLastView jView = some ws) : ∀ v ∈ ws, v.get "didx" = .int i := by
  have hnone : ∀ v ∈ ([] : List Json), v.get "didx" = .int i := by simp
  have hone : ∀ desc, ∀ v ∈ [trafficWarning i j desc], v.get "didx" = .int i := by
    intro desc v hv
    rw [List.mem_singleton.mp hv]
    rfl
  obtain ⟨fixed, -, h⟩ := Option.bind_eq_some_iff.mp h
  split_ifs at h
  · exact Option.some.inj h ▸ hnone
  · obtain ⟨lock, -, h⟩ := Option.bind_eq_some_iff.mp h
    split_ifs at h
    · exact Option.some.inj h ▸ hnone
    · obtain ⟨lastLock, -, h⟩ := Option.bind_eq_some_iff.mp h
      split_ifs at h
      · exact Option.some.inj h ▸ hnone
      · obtain ⟨etime, -, h⟩ := Option.bind_eq_some_iff.mp h
        obtain ⟨trafDur, -, h⟩ := Option.bind_eq_some_iff.mp h
        obtain ⟨stime, -, h⟩ := Option.bind_eq_some_iff.mp h
        dsimp only at h
        generalize (if trafDur ≥ 0 then trafDur else 0) = lastTrafDur at h
        split_ifs at h
        · exact Option.some.inj h ▸ hone _
        · exact Option.some.inj h ▸ hone _
        · exact Option.some.inj h ▸ hnone

theorem viewsWarnings_didx {i j : ℕ} {views ws : List Json}
    (h : viewsWarnings w i j views = some ws) : ∀ v ∈ ws, v.get "didx" = .int i := by
  induction views generalizing j ws with
  | nil =>
    obtain rfl := Option.some.inj h
    simp
  | cons jLastView views ih =>
    cases views with
    | nil =>
      obtain rfl := Option.some.inj h
      simp
    | cons jView views =>
      obtain ⟨first, hfirst, h⟩ := Option.bind_eq_some_iff.mp h
      obtain ⟨rest, hrest, h⟩ := Option.bind_eq_some_iff.mp h
      obtain rfl := Option.some.inj h
      intro v hv
      rcases List.mem_append.mp hv with hv | hv
      · exact viewWarnings_didx hfirst v hv
      · exact ih hrest v hv

theorem trafficWarnings_didx {i : ℕ} {jDay : Json} {ws : List Json}
    (h : trafficWarnings w i jDay = some ws) : ∀ v ∈ ws, v.get "didx" = .int i := by
  obtain ⟨views, -, h⟩ := Option.bind_eq_some_iff.mp h
  exact viewsWarnings_didx h

/-- The warnings of the merged days are added behind those that are there. -/
theorem addTrafficWarning_spec {i : ℕ} {jDayList : List Json}
    (h : addTrafficWarning w i jDayList W = some W') :
    ∃ ts : List (List Json), W' = W ++ ts.flatten ∧ ts.length = jDayList.length ∧
      ∀ k jDay, jDayList[k]? = some jDay → trafficWarnings w (i + k) jDay = ts[k]? := by
  induction jDayList generalizing i W with
  | nil =>
    obtain rfl := Option.some.inj h
    exact ⟨[], by simp, rfl, by simp⟩
  | cons jDay jDayList ih =>
    obtain ⟨ws, hws, h⟩ := Option.bind_eq_some_iff.mp h
    obtain ⟨ts, rfl, hlen, hts⟩ := ih h
    refine ⟨ws :: ts, by simp, by simp [hlen], fun k day hk => ?_⟩
    cases k with
    | zero =>
      obtain rfl : jDay = day := by simpa using hk
      simpa using hws
    | succ k =>
      rw [List.getElem?_cons_succ] at hk ⊢
      rw [← hts k day hk]
      congr 1
      omega

/-! ## The result -/

/-- The warnings are reordered, with none lost, exactly if no merged day behind the days of the plan
has a warning about its traffic. -/
theorem perfectWarningList_reorders_iff {jReqDayList : Json} {dateSet : Finset String}
    {jDayList : List Json} (h : mergedWarnings c w p jReqDayList dateSet = some (jDayList, W)) :
    IsReordering W (perfectWarningList p W) ↔
      ∀ i jDay, jDayList[i]? = some jDay → p.m_dayPlan.length ≤ i →
        trafficWarnings w i jDay = some [] := by
  obtain ⟨merged, -, h⟩ := Option.bind_eq_some_iff.mp h
  obtain ⟨days, -, h⟩ := Option.bind_eq_some_iff.mp h
  obtain ⟨W₁, hadd, h⟩ := Option.bind_eq_some_iff.mp h
  obtain ⟨rfl, rfl⟩ : days = jDayList ∧ W₁ = W := by simpa [pure] using h
  obtain ⟨ts, rfl, hlen, hts⟩ := addTrafficWarning_spec hadd
  simp only [Nat.zero_add] at hts
  have hdidx : ∀ (i : ℕ) (ws : List Json), ts[i]? = some ws → ∀ v ∈ ws, v.get "didx" = .int i := by
    intro i ws hi
    have hilt : i < days.length := hlen ▸ (List.getElem?_eq_some_iff.mp hi).1
    exact trafficWarnings_didx (by rw [hts i _ (List.getElem?_eq_getElem hilt), hi])
  rw [isReordering_iff]
  constructor
  · intro hall i jDay hday hi
    have hilt : i < ts.length := hlen ▸ (List.getElem?_eq_some_iff.mp hday).1
    rw [hts i jDay hday, List.getElem?_eq_getElem hilt]
    refine congrArg some (List.eq_nil_iff_forall_not_mem.mpr fun v hv => ?_)
    have hmem : v ∈ planWarnings c p ++ ts.flatten :=
      List.mem_append_right _ (List.mem_flatten.mpr ⟨_, List.getElem_mem hilt, hv⟩)
    obtain ⟨d, hd, hkey⟩ := hall v hmem
    have hint := hdidx i _ (List.getElem?_eq_getElem hilt) v hv
    rw [didxOf, hint] at hkey
    split_ifs at hkey with hisInt
    rw [isInt] at hisInt
    rw [asInt, if_pos hisInt] at hkey
    have := Option.some.inj hkey
    omega
  · intro hnone v hv
    rcases List.mem_append.mp hv with hv | hv
    · exact planWarnings_didx v hv
    · obtain ⟨ws, hws, hv⟩ := List.mem_flatten.mp hv
      obtain ⟨i, hi⟩ := List.mem_iff_getElem?.mp hws
      have hilt : i < days.length := hlen ▸ (List.getElem?_eq_some_iff.mp hi).1
      have hday := List.getElem?_eq_getElem hilt
      by_cases hin : i < p.m_dayPlan.length
      · have := p.size_le
        exact ⟨i, hin, didxOf_of_int (hdidx i ws hi v hv) (by omega)⟩
      · have hnil := hnone i _ hday (by omega)
        rw [hts i _ hday, hi] at hnil
        rw [Option.some.inj hnil] at hv
        contradiction

/-! ## Responses -/

/-- A day on which a car is given back at noon and the next one fetched an hour before. -/
def busyDay (date : String) : Json :=
  .obj [("date", .str date), ("view", .arr
    [.obj [("etime", .str (date ++ "_12:00")), ("id", .str "c1"), ("stime", .str (date ++ "_11:00")),
      ("type", .int 64)],
    .obj [("etime", .str (date ++ "_13:00")), ("id", .str "c2"), ("stime", .str (date ++ "_11:00")),
      ("type", .int 64)]])]

/-- The hour and the minute of a time, as one number. -/
def hourWorld : TrafficWorld where
  toTime time :=
    (time.toList.drop 9).foldl (fun n c => if c = ':' then n else 10 * n + (c.toNat - 48)) 0
  hasSession _ := false

def stillClock : PlanClock := ⟨fun _ => 0, fun _ => "", fun _ _ => 0⟩

/-- A plan of one day. -/
def oneDayPlan (jDay : Json) : DaysPlan where
  m_dayPlan := [⟨"20180101", true, [], fun _ => "", fun _ => false, jDay⟩]
  isChangeTraffic := false
  size_le := by simp

theorem perfectWarningList_oneDay : ∃ jDayList W,
    mergedWarnings stillClock hourWorld (oneDayPlan (busyDay "20180101")) (.arr [])
      {"20180101"} = some (jDayList, W) ∧
    IsReordering W (perfectWarningList (oneDayPlan (busyDay "20180101")) W) := by
  have hrun : (mergedWarnings stillClock hourWorld (oneDayPlan (busyDay "20180101")) (.arr [])
    {"20180101"}).map (·.1.length) = some 1 := by decide +kernel
  obtain ⟨⟨jDayList, W⟩, hcall, hlen⟩ := Option.map_eq_some_iff.mp hrun
  refine ⟨jDayList, W, hcall, (perfectWarningList_reorders_iff hcall).mpr ?_⟩
  intro i jDay hday hi
  have hlt := (List.getElem?_eq_some_iff.mp hday).1
  have hone : (oneDayPlan (busyDay "20180101")).m_dayPlan.length = 1 := rfl
  dsimp only at hlen
  omega

/-- The second day is not planned again, and the warning about it is lost. -/
theorem not_isReordering_secondDay : ∃ jDayList W,
    mergedWarnings stillClock hourWorld (oneDayPlan (busyDay "20180101"))
      (.arr [busyDay "20180101", busyDay "20180102"]) {"20180101"} = some (jDayList, W) ∧
    ¬ IsReordering W (perfectWarningList (oneDayPlan (busyDay "20180101")) W) := by
  have hrun : (mergedWarnings stillClock hourWorld (oneDayPlan (busyDay "20180101"))
      (.arr [busyDay "20180101", busyDay "20180102"]) {"20180101"}).map (·.2.map didxOf) =
    some [some 0, some 1] := by decide +kernel
  obtain ⟨⟨jDayList, W⟩, hcall, hdidx⟩ := Option.map_eq_some_iff.mp hrun
  refine ⟨jDayList, W, hcall, fun hright => ?_⟩
  have hone : some 1 ∈ W.map didxOf := by
    dsimp only at hdidx
    rw [hdidx]
    simp
  obtain ⟨v, hv, hkey⟩ := List.mem_map.mp hone
  obtain ⟨d, hd, hd'⟩ := isReordering_iff.mp hright v hv
  rw [hkey] at hd'
  have := Option.some.inj hd'
  have hlen : (oneDayPlan (busyDay "20180101")).m_dayPlan.length = 1 := rfl
  omega

end DaysPlan

end PPView
