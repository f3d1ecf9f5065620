import PPView.Bag.BagPlan
import PPView.Plan.OpenCloseTime

/-!
# What a block may know about a place

`BasePlan::VarPlace2PlaceInfo` lists the windows in which a place can be visited on a date: the
opening hours of a view or a shop, the sessions of a tour, the lunch and the supper of a
restaurant.
-/

namespace PPView

def RESTAURANT_TYPE_LUNCH : ℕ := 0x2
def RESTAURANT_TYPE_SUPPER : ℕ := 0x8

def NODE_FUNC_PLACE_VIEW : ℕ := 0x10
def NODE_FUNC_PLACE_SHOP : ℕ := 0x20
def NODE_FUNC_PLACE_TOUR : ℕ := 0x40

/-- A meal. The times are offsets in the day. -/
structure RestaurantTime where
  type : ℕ
  beginTime : Int
  endTime : Int
  minTimeCost : Int

/-- `m_RestaurantTimeList`. -/
def restaurantTimeList : List RestaurantTime :=
  [⟨0x1, 8 * 3600, 9 * 3600, 1800⟩, ⟨RESTAURANT_TYPE_LUNCH, 11 * 3600, 14 * 3600, 45 * 60⟩,
    ⟨0x4, 55800, 59400, 1800⟩, ⟨RESTAURANT_TYPE_SUPPER, 18 * 3600, 21 * 3600, 0⟩]

/-- An `OpenClose` with its meal, 0 for none. -/
structure MealWindow extends OpenClose where
  meals : ℕ := 0
  deriving DecidableEq, Repr

/-- A `PlaceInfo`. `vPlace` is the `_ID` of the place. -/
structure VarPlaceInfo where
  vPlace : String
  type : ℕ
  openCloseList : List MealWindow
  availOpenCloseList : List (Option MealWindow) := []
  arvID : String
  deptID : String
  deriving DecidableEq, Repr

/-- The members of `BasePlan` that are read here. -/
structure InfoPlan extends OpenPlan where
  faultTolerant : Bool := false
  defaultRestaurantComp : ℕ := RESTAURANT_TYPE_LUNCH ||| RESTAURANT_TYPE_SUPPER
  restTypeMap : List (String × ℕ) := []
  userMustPlaceSet : List String := []

namespace InfoPlan

variable (plan : InfoPlan) (fuel : ℕ) (tmp : TimeIR.DateRange) (date : Str) (vPlace : VarPlace)

def getMinDur : Int := (plan.getDurS vPlace).min

def getZipDur : Int := (plan.getDurS vPlace).zip

def setUserDur (id : String) (dur : Int) : InfoPlan :=
  { plan with userDurMap := (id, dur) :: plan.userDurMap }

/-- A new `PlaceInfo`. -/
def infoOf (type : ℕ) (openCloseList : List MealWindow) : VarPlaceInfo where
  vPlace := vPlace.ID
  type := type
  openCloseList := openCloseList
  arvID := vPlace.ID
  deptID := vPlace.ID

/-- From the first opening to the last closing. -/
def span (datelist : List (Int × Int)) : Option (Int × Int) :=
  match datelist.head?, datelist.getLast? with
  | some front, some back => some (front.1, back.2)
  | _, _ => none

/-- A place of the look set can be looked at all day. -/
def lookInfo (type : ℕ) : Res (Option VarPlaceInfo) := do
  let day0 ← MyTime.toTime (date ++ MyTime.midnight) plan.timeZone
  pure (some (infoOf vPlace type [⟨⟨day0, day0 + 24 * 3600,
    day0 + 24 * 3600 - plan.getMinDur vPlace⟩, 0⟩]))

def view2PlaceInfo : Res (Option VarPlaceInfo) :=
  if vPlace.ID ∈ plan.lookSet then plan.lookInfo date vPlace NODE_FUNC_PLACE_VIEW
  else do
    let datelist ← plan.getOpenCloseTime fuel tmp date vPlace
    pure <| (datelist.bind span).map fun (openTime, closeTime) =>
      let latestArv :=
        if (plan.vPlaceOpenMap.lookup vPlace.ID).isSome then openTime
        else if (plan.userDurMap.lookup vPlace.ID).isSome then closeTime - plan.getZipDur vPlace
        else closeTime - plan.getMinDur vPlace
      infoOf vPlace NODE_FUNC_PLACE_VIEW [⟨⟨openTime, closeTime, latestArv⟩, 0⟩]

def shop2PlaceInfo : Res (Option VarPlaceInfo) :=
  if vPlace.ID ∈ plan.lookSet then plan.lookInfo date vPlace NODE_FUNC_PLACE_SHOP
  else do
    let datelist ← plan.getOpenCloseTime fuel tmp date vPlace
    pure <| (datelist.bind span).map fun (openTime, closeTime) =>
      let latestArv :=
        if (plan.vPlaceOpenMap.lookup vPlace.ID).isSome then openTime
        else closeTime - plan.getMinDur vPlace
      infoOf vPlace NODE_FUNC_PLACE_SHOP [⟨⟨openTime, closeTime, latestArv⟩, 0⟩]

/-- A duration that the user gave becomes that of the session. -/
def resetDur (id : String) (plan : InfoPlan) (session : Int × Int) : InfoPlan :=
  if (plan.userDurMap.lookup id).isSome then plan.setUserDur id (session.2 - session.1) else plan

/-- One window for each session. -/
def tour2PlaceInfo : Res (InfoPlan × Option VarPlaceInfo) :=
  match vPlace.tour with
  | none => pure (plan, none)
  | some _ => do
    let datelist ← plan.getOpenCloseTime fuel tmp date vPlace
    match datelist.getD [] with
    | [] => pure (plan, none)
    | datelist =>
      pure (datelist.foldl (resetDur vPlace.ID) plan, some (infoOf vPlace NODE_FUNC_PLACE_TOUR
        (datelist.map fun session => ⟨⟨session.1, session.2, session.1⟩, 0⟩)))

/-! ## Restaurants -/

/-- The lunch and the supper, as far as the restaurant has them. -/
def mealsOf : List RestaurantTime :=
  let restType := (plan.restTypeMap.lookup vPlace.ID).getD plan.defaultRestaurantComp
  restaurantTimeList.filter fun restTime => restType &&& restTime.type ≠ 0 ∧
    (restTime.type = RESTAURANT_TYPE_LUNCH ∨ restTime.type = RESTAURANT_TYPE_SUPPER)

/-- The window of a meal. Without a duration of the user it is cut to the time of the meal, and a
place that the user asked for has the whole time of the meal instead of none. -/
def mealRange (restTime : RestaurantTime) (openTime closeTime : Int) : Res (Int × Int) :=
  if (plan.userDurMap.lookup vPlace.ID).isSome then pure (openTime, closeTime)
  else do
    let day0 ← MyTime.toTime (date ++ MyTime.midnight) plan.timeZone
    let startTime := day0 + restTime.beginTime
    let stopTime := day0 + restTime.endTime
    let openTime := max openTime startTime
    let closeTime := min closeTime stopTime
    pure (if closeTime < openTime ∧ vPlace.ID ∈ plan.userMustPlaceSet then (startTime, stopTime)
      else (openTime, closeTime))

/-- The window of a meal in the opening hours. -/
def mealWindow (restTime : RestaurantTime) : Option (Int × Int) → Res (Option MealWindow)
  | none => pure none
  | some (openTime, closeTime) => do
    let (openTime, closeTime) ← plan.mealRange date vPlace restTime openTime closeTime
    pure (if closeTime < openTime then none
      else some ⟨⟨openTime, closeTime, closeTime - restTime.minTimeCost⟩, restTime.type⟩)

/-- The windows of the meals. The type of a meal is its function of a node, too. -/
def mealWindows : List RestaurantTime → Res (List MealWindow)
  | [] => pure []
  | restTime :: meals => do
    let datelist ← plan.getOpenCloseTime fuel tmp date vPlace
    let window ← plan.mealWindow date vPlace restTime (datelist.bind span)
    let windows ← mealWindows meals
    pure (window.toList ++ windows)

/-- In the look set each meal makes an object of its own, and the last one counts. -/
def restaurant2PlaceInfo : Res (Option VarPlaceInfo) := do
  let meals := plan.mealsOf vPlace
  let windows ← plan.mealWindows fuel tmp date vPlace meals
  if windows ≠ [] then
    pure (some (infoOf vPlace (windows.foldl (fun type window => type ||| window.meals) 0) windows))
  else if vPlace.ID ∈ plan.lookSet then
    match meals.getLast? with
    | none => pure none
    | some restTime => do
      let day0 ← MyTime.toTime (date ++ MyTime.midnight) plan.timeZone
      pure (some (infoOf vPlace (NODE_FUNC_PLACE_RESTAURANT.toNat ||| restTime.type)
        [⟨⟨day0 + restTime.beginTime, day0 + restTime.endTime,
          day0 + restTime.endTime - restTime.minTimeCost⟩, restTime.type⟩]))
  else pure none

/-! ## Any place -/

def nodeFunc : ℕ :=
  if vPlace.t &&& LY_PLACE_TYPE_VIEW ≠ 0 then NODE_FUNC_PLACE_VIEW
  else if vPlace.t &&& LY_PLACE_TYPE_RESTAURANT ≠ 0 then NODE_FUNC_PLACE_RESTAURANT.toNat
  else if vPlace.t &&& LY_PLACE_TYPE_SHOP ≠ 0 then NODE_FUNC_PLACE_SHOP
  else if vPlace.t &&& LY_PLACE_TYPE_TOURALL ≠ 0 then NODE_FUNC_PLACE_TOUR
  else NODE_FUNC_PLACE

/-- What the type of the place makes of it. -/
def info : Res (InfoPlan × Option VarPlaceInfo) :=
  if vPlace.t &&& LY_PLACE_TYPE_VIEW ≠ 0 then
    (plan, ·) <$> plan.view2PlaceInfo fuel tmp date vPlace
  else if vPlace.t &&& LY_PLACE_TYPE_RESTAURANT ≠ 0 then
    (plan, ·) <$> plan.restaurant2PlaceInfo fuel tmp date vPlace
  else if vPlace.t &&& LY_PLACE_TYPE_SHOP ≠ 0 then
    (plan, ·) <$> plan.shop2PlaceInfo fuel tmp date vPlace
  else if vPlace.t &&& LY_PLACE_TYPE_TOURALL ≠ 0 then plan.tour2PlaceInfo fuel tmp date vPlace
  else pure (plan, none)

/-- A tolerant plan has an empty window for a place that is closed. -/
def varPlace2PlaceInfo : Res (InfoPlan × Option VarPlaceInfo) := do
  let (plan', pInfo) ← plan.info fuel tmp date vPlace
  if plan.faultTolerant ∧ pInfo = none then
    let day0 ← MyTime.toTime (date ++ MyTime.midnight) plan.timeZone
    pure (plan', some (infoOf vPlace (nodeFunc vPlace) [⟨⟨day0, day0, day0⟩, 0⟩]))
  else pure (plan', pInfo)

end InfoPlan

end PPView
