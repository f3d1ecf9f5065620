import PPView.LightPlan.CarStores

/-!
# Replacing the car stores

The loops of `LightPlan::ChangeViewAboutCarStore` that change the days. The day `j` of a city is
looked up by the index of its day in the summary, and both have a list of the same places.
-/

namespace PPView.LightPlan

open Json PostProcessor

variable {σ : Type}

/-! ## Days with their summary -/

/-- The days of an old plan are changed together with its summary, if this has days. -/
def visitSummary (f : σ → Json → Json → Option (σ × Json × Json)) (s : σ) (originView : Json) :
    Option (σ × Json) :=
  if originView.isObject then do
    let originView ← originView.touch "summary"
    let summary := originView.get "summary"
    if summary.isObject then
      let summary ← summary.touch "days"
      if (summary.get "days").isArray then
        let (s, day, summary) ← f s (originView.get "day") summary
        let originView ← originView.put "summary" summary
        let originView ← originView.put "day" day
        pure (s, originView)
      else
        let originView ← originView.put "summary" summary
        pure (s, originView)
    else pure (s, originView)
  else pure (s, originView)

/-- The day `j` of the summary. A change gets the date, the views of the day with the same index
and the points of the day of the summary. -/
def visitDay (skip : String → σ → Bool)
    (f : String → ℕ → σ → Json → Json → Option (σ × Json × Json)) (j : ℕ) (st : σ × Json)
    (sday : Json) : Option ((σ × Json) × Json) := do
  let sday ← sday.touch "date"
  match sday.get "date" with
  | str date =>
    if skip date st.1 then pure (st, sday)
    else do
      let ((s, pois), day) ← st.2.visitItem j fun day => day.visit "view" fun view => do
        let (s, view, pois) ← f date j st.1 view (sday.get "pois")
        pure ((s, pois), view)
      let sday ← sday.put "pois" pois
      pure ((s, day), sday)
  | _ => pure (st, sday)

def visitDays (skip : String → σ → Bool)
    (f : String → ℕ → σ → Json → Json → Option (σ × Json × Json)) (s : σ) (day summary : Json) :
    Option (σ × Json × Json) := do
  let days := summary.get "days"
  let ((s, day), days) ← days.visitRange (visitDay skip f) (s, day) days.size
  let summary ← summary.put "days" days
  pure (s, day, summary)

/-! ## Removal -/

structure Removal where
  carStoreInfos : CarStoreInfos
  originZucheKey : List String

/-- A car store that is removed. If the product has it too, its time there is the old one. -/
def removeStore (zucheKey : String) (st : Removal) (v : Json) : Option Removal :=
  match v.get "id" with
  | str id =>
    if v.isMember "product" then do
      let _ ← (v.get "stime").asString
      let (unionkey, _) ← (v.get "product").readString "unionkey"
      let idKey := id ++ "|" ++ unionkey
      match st.carStoreInfos.lookup (zucheKey, idKey) with
      | some info =>
        pure ⟨st.carStoreInfos.set zucheKey idKey (info.setDur (v.get "dur")),
          (zucheKey ++ "|" ++ idKey) :: st.originZucheKey⟩
      | none => pure st
    else pure st
  | _ => pure st

/-- The other views, from the index `k` on, with their points. -/
def removeStores (zucheKey : String) (pois : Json) :
    ℕ → Removal → List Json → Option (Removal × List Json × List Json)
  | _, st, [] => some (st, [], [])
  | k, st, v :: vs => do
    let (type, v) ← v.readInt "type"
    if hasType type LY_PLACE_TYPE_CAR_STORE then
      let st ← removeStore zucheKey st v
      removeStores zucheKey pois (k + 1) st vs
    else
      let poi ← pois.item k
      let (st, tReqDayView, tReqDayPois) ← removeStores zucheKey pois (k + 1) st vs
      pure (st, v :: tReqDayView, poi :: tReqDayPois)

def removeDay (ridx date : String) (_ : ℕ) (st : Removal) (view pois : Json) :
    Option (Removal × Json × Json) := do
  let (st, tReqDayView, tReqDayPois) ← removeStores (ridx ++ "|" ++ date) pois 0 st (← view.items)
  pure (st, arr tReqDayView, arr tReqDayPois)

def removeCity (st : Removal) (city : Json) : Option (Removal × Json) := do
  let ridx := city.get "ridx"
  if ridx.isInt then
    let llridx ← ridx.asInt
    city.visit "originView" (visitSummary
      (visitDays (fun _ _ => false) (removeDay (toString llridx))) st)
  else pure (st, city)

/-! ## Insertion -/

/-- The iteration over an unordered map. -/
structure IterationOrder where
  entries : DayStores → List (Σ _ : String, CarStoreInfo)
  perm : ∀ stores, (entries stores).Perm stores.entries

/-- What the insertion into a day reads. -/
structure DayContext where
  zucheKey : String
  arvTime : String
  deptTime : String
  originZucheKey : List String
  j : ℕ
  days : ℕ

/-- A view at a station at the time at which the city is reached or left. -/
def isStation (key time : String) (v : Json) : Option (Bool × Json) := do
  let (t, v) ← v.readString key
  if t = time then
    let (type, v) ← v.readInt "type"
    pure (hasType type LY_PLACE_TYPE_ARRIVE, v)
  else pure (false, v)

def stationEnds (c : DayContext) (view : Json) : Option ((Bool × Bool) × Json) :=
  if view.size > 0 then do
    let (isFirstPoiArv, view) ← view.visitItem 0 (isStation "stime" c.arvTime)
    let (isLastPoiDept, view) ← view.visitItem (view.size - 1) (isStation "etime" c.deptTime)
    pure ((isFirstPoiArv, isLastPoiDept), view)
  else pure ((false, false), view)

/-- The place behind the views from the index `k` on that start before `stime`. -/
def startPlace (stime : String) (k : ℕ) (view : Json) : ℕ → Option (ℕ × Json)
  | 0 => some (k, view)
  | n + 1 => do
    let (t, view) ← view.visitItem k (readString "stime")
    if t < stime then startPlace stime (k + 1) view n else pure (k, view)

/-- The place is not in front of the station or the hotel where the day starts, and not behind those
where it ends. -/
def adjustPlace (c : DayContext) (ends : Bool × Bool) (vPlace : ℕ) (view : Json) :
    Option (ℕ × Json) :=
  if vPlace = 0 ∧ vPlace < view.size then do
    let (type, view) ← view.visitItem 0 (readInt "type")
    let atHotel := hasType type LY_PLACE_TYPE_HOTEL ∧ c.j ≠ 0
    pure (if ends.1 ∨ atHotel then 1 else vPlace, view)
  else if view.size > 0 ∧ vPlace = view.size then do
    let endIdx := view.size - 1
    let (type, view) ← view.visitItem endIdx (readInt "type")
    let atHotel := hasType type LY_PLACE_TYPE_HOTEL ∧ c.j ≠ c.days - 1
    pure (if ends.2 ∨ atHotel then endIdx else vPlace, view)
  else pure (vPlace, view)

def insertItem (k : ℕ) (v j : Json) : Option Json := do
  let items ← j.items
  pure (arr (items.take k ++ v :: items.drop k))

/-- A car store is inserted. One that the old plan did not have may move the hotel before it. -/
def addStore (c : DayContext) (ends : Bool × Bool) (info : CarStoreInfo) (stime : String)
    (view pois : Json) : Option (Json × Json) := do
  let (vPlace, view) ← startPlace stime 0 view view.size
  let (vPlace, view) ← adjustPlace c ends vPlace view
  let daysPoi := obj info.daysPoi
  let _ ← (daysPoi.get "stime").asString
  let id ← (daysPoi.get "id").asString
  let (unionkey, product) ← ((obj info.dayView).get "product").readString "unionkey"
  let oriZuche := c.zucheKey ++ "|" ++ id ++ "|" ++ unionkey
  let dayView := insertMember "product" product info.dayView
  let dayView := if oriZuche ∉ c.originZucheKey ∧ c.j ≠ 0 ∧ vPlace = 1 then
      insertMember "needAdjustHotel" (int 1) dayView
    else dayView
  let view ← insertItem vPlace (obj dayView) view
  let pois ← insertItem vPlace daysPoi pois
  pure (view, pois)

/-- What is inserted is erased from the map. -/
def addStores (c : DayContext) (ends : Bool × Bool) :
    List (Σ _ : String, CarStoreInfo) → DayStores → Json → Json → Option (DayStores × Json × Json)
  | [], stores, view, pois => some (stores, view, pois)
  | it :: its, stores, view, pois => do
    let stime ← ((obj it.2.dayView).get "stime").asString
    if stime ≤ c.arvTime ∨ stime ≥ c.deptTime then addStores c ends its stores view pois
    else
      let (view, pois) ← addStore c ends it.2 stime view pois
      addStores c ends its (stores.erase it.1) view pois

/-- Car stores are inserted where the views and the points match. -/
def addDay (order : IterationOrder) (c : DayContext) (infos : CarStoreInfos) (view pois : Json) :
    Option (CarStoreInfos × Json × Json) :=
  match infos c.zucheKey with
  | some stores =>
    if view.size = pois.size then do
      let (ends, view) ← stationEnds c view
      let (stores, view, pois) ← addStores c ends (order.entries stores) stores view pois
      pure (Function.update infos c.zucheKey (some stores), view, pois)
    else pure (infos, view, pois)
  | none => pure (infos, view, pois)

def addCity (order : IterationOrder) (originZucheKey : List String) (infos : CarStoreInfos)
    (city : Json) : Option (CarStoreInfos × Json) :=
  city.visit "originView" (visitSummary (fun infos day summary => do
    let llridx ← (city.get "ridx").asInt
    let (arvTime, summary) ← summary.readString "arv_time"
    let (deptTime, summary) ← summary.readString "dept_time"
    let zucheKey (date : String) := toString llridx ++ "|" ++ date
    let days := (summary.get "days").size
    visitDays (fun date infos => (infos (zucheKey date)).isNone)
      (fun date j => addDay order ⟨zucheKey date, arvTime, deptTime, originZucheKey, j, days⟩)
      infos day summary) infos)

/-! ## The whole -/

/-- The summary gets its days anew. -/
def adaptCity (mj : MJ) (req : Json) (_ : Unit) (city : Json) : Option (Unit × Json) :=
  city.visit "originView" fun originView =>
    if originView.isObject then
      originView.visit "summary" fun summary => do
        let days ← makejDays mj.toTime req (originView.get "day")
        pure ((), ← summary.put "days" (arr days))
    else pure ((), originView)

/-- The members that are changed. -/
structure Members where
  m_cityDaysTranslate : Int → Int
  m_missCarStores : CarStoreInfos

/-- The first loops, which read the car stores. -/
def readCarStores (mj : MJ) (m_cityDaysTranslate : Int → Int) (req : Json) :
    Option (CarStoreInfos × (Int → Int) × Json) := do
  let (m_cityDaysTranslate, req) ← overList (daysTranslate mj) m_cityDaysTranslate req
  let (ranges, req) ← overList (hotelSleepTimeRange mj) (fun _ => none) req
  let infos ← parseProduct mj m_cityDaysTranslate ranges req
  pure (infos, m_cityDaysTranslate, req)

def changeViewAboutCarStore (mj : MJ) (order : IterationOrder) (m_cityDaysTranslate : Int → Int)
    (req : Json) : Option (Members × Json) := do
  let (infos, m_cityDaysTranslate, req) ← readCarStores mj m_cityDaysTranslate req
  let (st, req) ← overList removeCity ⟨infos, []⟩ req
  let (infos, req) ← overList (addCity order st.originZucheKey) st.carStoreInfos req
  let (_, req) ← overList (adaptCity mj req) () req
  pure (⟨m_cityDaysTranslate, infos⟩, req)

end PPView.LightPlan
