import PPView.Library.Cuts
import PPView.PostProcessor.SummaryDays

/-!
# The days of a tour city

`TourCityInfo::MakejDayList` cuts the views of a city into days behind the night hotels. The places
that stand for no arrival and no departure are not shown.
-/

namespace PPView

open Json PostProcessor

/-! ## Views -/

structure TourViewItem where
  m_id : String
  m_custom : Int32
  m_type : Int32
  m_name : String
  m_lname : String
  m_coord : String
  m_doWhat : String
  m_info : Json
  m_idle : Json
  m_close : Int32
  m_diningNearby : Int32
  m_dur : Int32
  m_stime : String
  m_etime : String
  m_product : Json
  m_traffic : Json
  m_funcType : Int32

namespace TourViewItem

def isSleep (item : TourViewItem) : Bool := item.m_funcType.toInt = NODE_FUNC_KEY_HOTEL_SLEEP

end TourViewItem

namespace TourSet

/-- What the views need of the plan; times are written in its zone. -/
structure TourPlan where
  m_poiPlays : String → String
  toString : Int → String
  datePlusOf : String → Int → String

def getCutId (id : String) : String := String.ofList (id.toList.takeWhile (· ≠ '#'))

def insertIf (c : Bool) (key : String) (v : Json) (members : List (String × Json)) :
    List (String × Json) :=
  if c then insertMember key v members else members

/-- The members of the view of an item. -/
def viewMembers (p : TourPlan) (item : TourViewItem) : List (String × Json) :=
  let jView := insertMember "id" (.str (getCutId item.m_id)) []
  let jView := insertMember "type" (.int item.m_type.toInt) jView
  let jView := insertMember "custom" (.int item.m_custom.toInt) jView
  let jView := insertMember "name" (.str item.m_name) jView
  let jView := insertMember "lname" (.str item.m_lname) jView
  let jView := insertMember "coord" (.str item.m_coord) jView
  let jView := insertMember "stime" (.str item.m_stime) jView
  let jView := insertMember "etime" (.str item.m_etime) jView
  let jView := insertMember "dur" (.int item.m_dur.toInt) jView
  let jView := insertMember "traffic" item.m_traffic jView
  let jView := insertMember "do_what" (.str item.m_doWhat) jView
  let jView := insertMember "play" (.str (p.m_poiPlays item.m_id)) jView
  let jView := insertMember "func_type" (.int item.m_funcType.toInt) jView
  let jView := insertIf (!item.m_product.isNull) "product" item.m_product jView
  let jView := insertIf (!item.m_info.isNull) "info" item.m_info jView
  let jView := insertIf (!item.m_idle.isNull) "idle" item.m_idle jView
  let jView := insertIf (item.m_close ≠ -1) "close" (.int item.m_close.toInt) jView
  insertIf (item.m_diningNearby ≠ -1) "dining_nearby" (.int item.m_diningNearby.toInt) jView

/-- The view of an item that is shown. -/
def makejView (p : TourPlan) (item : TourViewItem) : Option (List (String × Json)) :=
  if getCutId item.m_id = "arvNullPlace" ∨ getCutId item.m_id = "deptNullPlace" then none
  else some (viewMembers p item)

/-! ## Days -/

/-- `PostProcessor::SetDayPlayRange`, for views that have a type and times. -/
def setDayPlayRange (jDay : Json) (sTime eTime : String) : Option Json := do
  let jDay ← jDay.touch "view"
  let jDay ← jDay.put "stime" (.str sTime)
  let jDay ← jDay.put "etime" (.str eTime)
  match ← (jDay.get "view").items with
  | [] => pure jDay
  | [jView] =>
    if hasType (← (jView.get "type").asInt) (LY_PLACE_TYPE_HOTEL ||| LY_PLACE_TYPE_ARRIVE) then
      if sTime = (← (jView.get "stime").asString) then jDay.put "stime" (jView.get "etime")
      else jDay.put "etime" (jView.get "stime")
    else do
      let jDay ← jDay.put "stime" (jView.get "stime")
      jDay.put "etime" (jView.get "etime")
  | jView :: jViewList => do
    let key := if hasType (← (jView.get "type").asInt) (LY_PLACE_TYPE_HOTEL ||| LY_PLACE_TYPE_ARRIVE)
      then "etime" else "stime"
    let jDay ← jDay.put "stime" (jView.get key)
    -- Both branches over the type of the last view read the same member.
    let jLastView := jViewList.getLastD jView
    let _ ← (jLastView.get "type").asInt
    jDay.put "etime" (jLastView.get "stime")

/-- What the day list reads of a city. -/
structure TourCity where
  m_ViewList : List TourViewItem
  m_arvDate : String
  m_checkIn : String
  m_arvTime : Int
  m_deptTime : Int

variable (p : TourPlan) (city : TourCity)

/-- A night hotel is shown without idle time and traffic. -/
def shownView (item : TourViewItem) (jView : List (String × Json)) : Json :=
  .obj (if item.isSleep then insertMember "traffic" .null (insertMember "idle" .null jView)
    else jView)

def nextDayDeptHotel (jView : List (String × Json)) : Json :=
  .obj (insertMember "dining_nearby" (.int 0) jView)

def makejDay (dayDate : String) (jViewList : List Json) : Option Json :=
  setDayPlayRange (.obj [("date", .str dayDate), ("view", .arr jViewList)])
    (p.toString city.m_arvTime) (p.toString city.m_deptTime)

/-- The loop over the items. A day ends with a night hotel, and with the last item of the list. -/
def makejDays : List TourViewItem → List Json → String → Option (List Json)
  | [], _, _ => some []
  | item :: items, jViewList, dayDate =>
    match makejView p item with
    | none => makejDays items jViewList dayDate
    | some jView =>
      if item.isSleep ∨ items = [] then do
        let jDay ← makejDay p city dayDate (jViewList ++ [shownView item jView])
        (jDay :: ·) <$> makejDays items [nextDayDeptHotel jView] (p.datePlusOf dayDate 1)
      else makejDays items (jViewList ++ [shownView item jView]) dayDate

def makejDayList : Option (List Json) :=
  makejDays p city city.m_ViewList []
    (if city.m_checkIn ≠ "" then city.m_checkIn else city.m_arvDate)

/-! ## Written days -/

theorem lookup_insertIf {key key' : String} (h : key' ≠ key) (c : Bool) (v : Json)
    (members : List (String × Json)) :
    (insertIf c key v members).lookup key' = members.lookup key' := by
  rw [insertIf]
  split_ifs
  · rw [lookup_insertMember, if_neg h]
  · rfl

/-- The members that the range of a day reads. -/
def IsView (v : Json) : Prop :=
  (∃ n : Int32, v.get "type" = .int n.toInt) ∧ ∃ s, v.get "stime" = .str s

theorem IsView.asInt {v : Json} (h : IsView v) : ∃ n, (v.get "type").asInt = some n := by
  obtain ⟨⟨n, hn⟩, -⟩ := h
  exact ⟨n.toInt, by rw [hn, Json.asInt, if_pos (inRange_int n.le_toInt n.toInt_lt)]⟩

theorem IsView.insertMember {members : List (String × Json)} (h : IsView (.obj members))
    {key : String} (htype : key ≠ "type") (hstime : key ≠ "stime") (v : Json) :
    IsView (.obj (insertMember key v members)) := by
  rw [IsView, Json.get, Json.get, lookup_insertMember, if_neg htype.symm, lookup_insertMember,
    if_neg hstime.symm]
  exact h

theorem isView_viewMembers (item : TourViewItem) : IsView (.obj (viewMembers p item)) := by
  refine ⟨⟨item.m_type, ?_⟩, item.m_stime, ?_⟩
  all_goals
    simp only [Json.get, viewMembers]
    repeat rw [lookup_insertIf (by decide)]
    simp [lookup_insertMember]

theorem isView_shownView (item : TourViewItem) : IsView (shownView item (viewMembers p item)) := by
  have h := isView_viewMembers p item
  rw [shownView]
  split_ifs
  · exact (h.insertMember (by decide) (by decide) _).insertMember (by decide) (by decide) _
  · exact h

theorem isView_nextDayDeptHotel (item : TourViewItem) :
    IsView (nextDayDeptHotel (viewMembers p item)) :=
  (isView_viewMembers p item).insertMember (by decide) (by decide) _

theorem put_keeps {j : Json} (hj : j.isObject) {key : String} (hkey : "view" ≠ key) (v : Json) :
    ∃ j', j.put key v = some j' ∧ j'.isObject ∧ j'.get "view" = j.get "view" := by
  obtain ⟨j', hput, hobj⟩ := put_of_isObject hj key v
  exact ⟨j', hput, hobj, by rw [get_put hput, if_neg hkey]⟩

/-- The range is set, and the views stay. -/
theorem setDayPlayRange_view {jDay : Json} {views : List Json} (hobj : jDay.isObject)
    (hviews : jDay.get "view" = .arr views) (hview : ∀ v ∈ views, IsView v) (sTime eTime : String) :
    ∃ jDay', setDayPlayRange jDay sTime eTime = some jDay' ∧ jDay'.get "view" = .arr views := by
  obtain ⟨j₁, h₁, hobj₁⟩ := put_of_isObject hobj "view" (jDay.get "view")
  have hget₁ : j₁.get "view" = .arr views := by rw [get_put h₁, if_pos rfl, hviews]
  obtain ⟨j₂, h₂, hobj₂, hget₂⟩ := put_keeps hobj₁ (show "view" ≠ "stime" by decide) (.str sTime)
  obtain ⟨j₃, h₃, hobj₃, hget₃⟩ := put_keeps hobj₂ (show "view" ≠ "etime" by decide) (.str eTime)
  have hitems : j₃.get "view" = .arr views := hget₃.trans (hget₂.trans hget₁)
  have hstime (v : Json) : ∃ j', j₃.put "stime" v = some j' ∧ j'.isObject ∧
      j'.get "view" = .arr views := by
    obtain ⟨j', h, hobj', hget⟩ := put_keeps hobj₃ (show "view" ≠ "stime" by decide) v
    exact ⟨j', h, hobj', hget.trans hitems⟩
  have hetime {j : Json} (hj : j.isObject) (hget : j.get "view" = .arr views) (v : Json) :
      ∃ j', j.put "etime" v = some j' ∧ j'.get "view" = .arr views := by
    obtain ⟨j', h, -, hget'⟩ := put_keeps hj (show "view" ≠ "etime" by decide) v
    exact ⟨j', h, hget'.trans hget⟩
  rw [setDayPlayRange, touch, h₁]
  simp only [Option.bind_eq_bind, Option.bind_some, h₂, h₃, hitems, Json.items]
  match views with
  | [] => exact ⟨j₃, rfl, hitems⟩
  | [jView] =>
    have hv := hview jView List.mem_cons_self
    obtain ⟨n, hn⟩ := hv.asInt
    obtain ⟨-, s, hs⟩ := hv
    simp only [hn, hs, Json.asString, Option.bind_some]
    by_cases htype : hasType n (LY_PLACE_TYPE_HOTEL ||| LY_PLACE_TYPE_ARRIVE)
    · rw [if_pos htype]
      by_cases hsame : sTime = s
      · rw [if_pos hsame]
        obtain ⟨j', h, -, hget⟩ := hstime (jView.get "etime")
        exact ⟨j', h, hget⟩
      · rw [if_neg hsame]
        exact hetime hobj₃ hitems _
    · rw [if_neg htype]
      obtain ⟨j', h, hobj', hget⟩ := hstime (.str s)
      simp only [h, Option.bind_some]
      exact hetime hobj' hget _
  | jView :: jView' :: jViewList =>
    obtain ⟨n, hn⟩ := (hview jView List.mem_cons_self).asInt
    have hlast : (jView' :: jViewList).getLastD jView ∈ jView :: jView' :: jViewList := by
      rw [List.getLastD_cons]
      exact List.mem_cons_of_mem _ (List.getLastD_mem_cons ..)
    obtain ⟨m, hm⟩ := (hview _ hlast).asInt
    simp only [hn, hm, Option.bind_some]
    obtain ⟨j', h, hobj', hget⟩ := hstime (jView.get (if hasType n
      (LY_PLACE_TYPE_HOTEL ||| LY_PLACE_TYPE_ARRIVE) then "etime" else "stime"))
    simp only [h, Option.bind_some]
    exact hetime hobj' hget _

theorem makejDay_view (dayDate : String) {views : List Json} (hview : ∀ v ∈ views, IsView v) :
    ∃ jDay, makejDay p city dayDate views = some jDay ∧ jDay.get "view" = .arr views := by
  refine setDayPlayRange_view rfl ?_ hview _ _
  simp [Json.get, lookup_cons_ite]

/-! ## The cut into days -/

def isShown (item : TourViewItem) : Bool :=
  getCutId item.m_id ≠ "arvNullPlace" ∧ getCutId item.m_id ≠ "deptNullPlace"

theorem makejView_eq (item : TourViewItem) :
    makejView p item = if isShown item then some (viewMembers p item) else none := by
  have hnull : (getCutId item.m_id = "arvNullPlace" ∨ getCutId item.m_id = "deptNullPlace") ↔
      ¬ isShown item := by
    rw [isShown, decide_eq_true_eq, not_and_or, not_not, not_not]
  rw [makejView, ite_cond_congr (propext hnull), ite_not]

/-- The views of the days: those of the parts, behind the hotel that the part before ends with. -/
def dayViews : List Json → List (List TourViewItem) → List (List Json)
  | _, [] => []
  | dept, part :: parts =>
    (dept ++ part.map fun item => shownView item (viewMembers p item)) ::
      dayViews (part.getLast?.toList.map fun item => nextDayDeptHotel (viewMembers p item)) parts

/-- The parts that become days, where `part` is there before the items. -/
def dayParts (part items : List TourViewItem) : List (List TourViewItem) :=
  Cuts.closed TourViewItem.isSleep part (items.filter isShown) ++
    if items.getLast?.any fun item => isShown item && !item.isSleep then
      [Cuts.rest TourViewItem.isSleep part (items.filter isShown)]
    else []

variable {item : TourViewItem}

theorem dayParts_hidden (h : ¬ isShown item) (part items : List TourViewItem) :
    dayParts part (item :: items) = dayParts part items := by
  rw [dayParts, List.filter_cons_of_neg h, dayParts]
  cases items with
  | nil => simp [h]
  | cons item' items => rw [List.getLast?_cons_cons]

theorem dayParts_inside (h : isShown item) (hsleep : ¬ item.isSleep) {items : List TourViewItem}
    (hitems : items ≠ []) (part : List TourViewItem) :
    dayParts part (item :: items) = dayParts (part ++ [item]) items := by
  obtain ⟨item', items, rfl⟩ := List.exists_cons_of_ne_nil hitems
  rw [dayParts, List.filter_cons_of_pos h, Cuts.closed, if_neg hsleep, Cuts.rest, if_neg hsleep,
    List.getLast?_cons_cons, dayParts]

theorem dayParts_end (h : isShown item) {items : List TourViewItem}
    (hend : item.isSleep ∨ items = []) (part : List TourViewItem) :
    dayParts part (item :: items) = (part ++ [item]) :: dayParts [] items := by
  rw [dayParts, List.filter_cons_of_pos h, Cuts.closed, Cuts.rest]
  by_cases hsleep : item.isSleep
  · rw [if_pos hsleep, if_pos hsleep, dayParts]
    cases items with
    | nil => simp [hsleep]
    | cons item' items => rw [List.getLast?_cons_cons, List.cons_append]
  · obtain rfl := hend.resolve_left hsleep
    simp [hsleep, h, dayParts, Cuts.closed, Cuts.rest]

theorem makejDays_spec (items : List TourViewItem) (dept : List Json) (part : List TourViewItem)
    (hdept : ∀ v ∈ dept, IsView v) (dayDate : String) :
    ∃ days, makejDays p city items
        (dept ++ part.map fun item => shownView item (viewMembers p item)) dayDate = some days ∧
      days.map (·.get "view") = (dayViews p dept (dayParts part items)).map .arr := by
  induction items generalizing dept part dayDate with
  | nil => exact ⟨[], rfl, rfl⟩
  | cons item items ih =>
    have hall (part : List TourViewItem) :
        ∀ v ∈ dept ++ part.map fun item => shownView item (viewMembers p item), IsView v := by
      intro v hv
      rcases List.mem_append.mp hv with hv | hv
      · exact hdept v hv
      · obtain ⟨item, -, rfl⟩ := List.mem_map.mp hv
        exact isView_shownView p item
    have hviews : (dept ++ part.map fun item => shownView item (viewMembers p item)) ++
        [shownView item (viewMembers p item)] =
        dept ++ (part ++ [item]).map fun item => shownView item (viewMembers p item) := by simp
    rw [makejDays, makejView_eq]
    by_cases hshown : isShown item
    · rw [if_pos hshown]
      dsimp only
      rw [hviews]
      by_cases hend : item.isSleep ∨ items = []
      · obtain ⟨jDay, hday, hget⟩ := makejDay_view p city dayDate (hall (part ++ [item]))
        obtain ⟨days, hdays, hrest⟩ := ih [nextDayDeptHotel (viewMembers p item)] []
          (by simpa using isView_nextDayDeptHotel p item) (p.datePlusOf dayDate 1)
        rw [List.map_nil, List.append_nil] at hdays
        refine ⟨jDay :: days, ?_, ?_⟩
        · rw [if_pos hend, hday, hdays]
          rfl
        · rw [dayParts_end hshown hend, dayViews, List.map_cons, List.map_cons, hget, hrest]
          simp
      · rw [if_neg hend]
        obtain ⟨days, hdays, hget⟩ := ih dept (part ++ [item]) hdept dayDate
        refine ⟨days, hdays, ?_⟩
        rw [hget, dayParts_inside hshown (fun h => hend (.inl h)) fun h => hend (.inr h)]
    · rw [if_neg hshown]
      obtain ⟨days, hdays, hget⟩ := ih dept part hdept dayDate
      refine ⟨days, hdays, ?_⟩
      rw [hget, dayParts_hidden hshown]

/-! ## The result -/

/-- The items that are shown are cut behind the night hotels; each part gives a day, behind the
hotel of the night before. -/
def ShowsTour (items : List TourViewItem) (jDayList : List Json) : Prop :=
  ∃ parts, Cuts.IsCut TourViewItem.isSleep (items.filter isShown) parts ∧
    parts.length = (items.filter isShown).dropLast.countP TourViewItem.isSleep + 1 ∧
    jDayList.map (·.get "view") = (dayViews p [] parts).map .arr

theorem length_dayViews (dept : List Json) (parts : List (List TourViewItem)) :
    (dayViews p dept parts).length = parts.length := by
  induction parts generalizing dept with
  | nil => rfl
  | cons part parts ih => rw [dayViews, List.length_cons, ih, List.length_cons]

theorem filter_of_getLast? {items : List TourViewItem} (h : items.getLast? = some item)
    (hshown : isShown item) : ∃ shown, items.filter isShown = shown ++ [item] := by
  obtain ⟨init, rfl⟩ := List.getLast?_eq_some_iff.mp h
  exact ⟨init.filter isShown, by simp [hshown]⟩

/-- The last part is lost if neither the list nor what is shown of it ends right. -/
theorem length_dayParts_of_not {items : List TourViewItem}
    (hlast : ∀ item ∈ items.getLast?, ¬ isShown item)
    (hnight : ∀ item ∈ (items.filter isShown).getLast?, ¬ item.isSleep) :
    (dayParts [] items).length = (items.filter isShown).dropLast.countP TourViewItem.isSleep := by
  have hflush : (items.getLast?.any fun item => isShown item && !item.isSleep) = false := by
    cases hitem : items.getLast? with
    | none => rfl
    | some item => simp [hlast item hitem]
  rw [dayParts, hflush, if_neg (by simp), List.append_nil, Cuts.length_closed]
  rcases List.eq_nil_or_concat' (items.filter isShown) with hnil | ⟨init, item, hall⟩
  · rw [hnil]
    rfl
  · rw [hall, List.dropLast_concat, List.countP_append, List.countP_singleton,
      if_neg (hnight item (by simp [hall])), Nat.add_zero]

/-- The parts of a list that ends right. -/
theorem isCut_dayParts {items : List TourViewItem}
    (h : (∃ item ∈ items.getLast?, isShown item) ∨
      ∃ item ∈ (items.filter isShown).getLast?, item.isSleep) :
    Cuts.IsCut TourViewItem.isSleep (items.filter isShown) (dayParts [] items) ∧
      (dayParts [] items).length =
        (items.filter isShown).dropLast.countP TourViewItem.isSleep + 1 := by
  by_cases hnight : ∃ item ∈ (items.filter isShown).getLast?, item.isSleep
  · obtain ⟨item, hitem, hsleep⟩ := hnight
    obtain ⟨shown, hall⟩ := List.getLast?_eq_some_iff.mp hitem
    have hflush : (items.getLast?.any fun item => isShown item && !item.isSleep) = false := by
      cases hlast : items.getLast? with
      | none => rfl
      | some last =>
        by_cases hshown : isShown last
        · obtain ⟨shown', hall'⟩ := filter_of_getLast? hlast hshown
          have heq : last = item := by simpa [hall'] using hitem
          simp [heq, hsleep]
        · simp [hshown]
    rw [dayParts, hflush, if_neg (by simp), List.append_nil, Cuts.length_closed, hall]
    refine ⟨Cuts.isCut_closed hsleep, ?_⟩
    simp [hsleep]
  · obtain ⟨item, hitem, hshown⟩ := h.resolve_right hnight
    obtain ⟨shown, hall⟩ := filter_of_getLast? hitem hshown
    have hsleep : ¬ item.isSleep := fun hsleep => hnight ⟨item, by simp [hall], hsleep⟩
    have hflush : (items.getLast?.any fun item => isShown item && !item.isSleep) = true := by
      rw [Option.mem_def.mp hitem]
      simp [hshown, hsleep]
    rw [dayParts, hflush, if_pos rfl, hall]
    refine ⟨Cuts.isCut_closed_rest _ _, ?_⟩
    simp [Cuts.length_closed, hsleep]

/-- Every item is shown once and in order, with nothing dropped, exactly if the last item of the
list is shown or the last one that is shown is a night hotel. -/
theorem makejDayList_showsTour_iff : ∃ jDayList, makejDayList p city = some jDayList ∧
    (ShowsTour p city.m_ViewList jDayList ↔
      (∃ item ∈ city.m_ViewList.getLast?, isShown item) ∨
        ∃ item ∈ (city.m_ViewList.filter isShown).getLast?, item.isSleep) := by
  obtain ⟨jDayList, hrun, hget⟩ := makejDays_spec p city city.m_ViewList [] [] (by simp)
    (if city.m_checkIn ≠ "" then city.m_checkIn else city.m_arvDate)
  refine ⟨jDayList, hrun, ?_, fun h => ?_⟩
  · rintro ⟨parts, -, hlen, hget'⟩
    by_contra hno
    push Not at hno
    have hshort := length_dayParts_of_not (fun item hitem => by simpa using hno.1 item hitem)
      fun item hitem => by simpa using hno.2 item hitem
    have heq := congrArg List.length (hget.symm.trans hget')
    rw [List.length_map, List.length_map, length_dayViews, length_dayViews] at heq
    omega
  · exact ⟨_, (isCut_dayParts h).1, (isCut_dayParts h).2, hget⟩

/-! ## A city without a departure -/

/-- A place of the type 2, with the function of a view. -/
def viewItem (id : String) : TourViewItem where
  m_id := id
  m_custom := 0
  m_type := 2
  m_name := id
  m_lname := id
  m_coord := ""
  m_doWhat := ""
  m_info := .null
  m_idle := .null
  m_close := -1
  m_diningNearby := -1
  m_dur := 3600
  m_stime := "20180101_10:00"
  m_etime := "20180101_11:00"
  m_product := .null
  m_traffic := .null
  m_funcType := 0

def plainPlan : TourPlan := ⟨fun _ => "", fun _ => "", fun date _ => date⟩

/-- The only view of the city, in front of the place that stands for no departure. -/
def noDeparture : TourCity where
  m_ViewList := [viewItem "v1", viewItem "deptNullPlace"]
  m_arvDate := "20180101"
  m_checkIn := ""
  m_arvTime := 0
  m_deptTime := 0

/-- The view is not on any day. -/
theorem not_showsTour_noDeparture : ∃ jDayList, makejDayList plainPlan noDeparture = some jDayList ∧
    ¬ ShowsTour plainPlan noDeparture.m_ViewList jDayList := by
  have hrun : (makejDayList plainPlan noDeparture).map List.length = some 0 := by decide +kernel
  obtain ⟨jDayList, hcall, hnone⟩ := Option.map_eq_some_iff.mp hrun
  refine ⟨jDayList, hcall, ?_⟩
  rintro ⟨parts, -, hlen, hget⟩
  have := congrArg List.length hget
  rw [List.length_map, List.length_map, length_dayViews] at this
  omega

end TourSet
end PPView
