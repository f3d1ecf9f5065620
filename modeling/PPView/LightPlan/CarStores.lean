import Mathlib.Data.List.AList
import PPView.Library.References
import PPView.PostProcessor.SummaryDays

/-!
# Car stores in the old plan

`LightPlan::ChangeViewAboutCarStore`: the car stores of the product take the place of those in the
old plan of every city. The loops over the cities come in the order of the source; the first two
and the product give the car stores, the others change the days.
-/

namespace PPView.LightPlan

open Json PostProcessor

/-- The functions of `MJ` that are called. -/
structure MJ where
  toTime : String → Int
  toString : Int → String
  datePlusOf : String → Int → String
  md5Last4 : String → Int

def POI_CUSTOM_MODE_MAKE : Int := 2

/-- A loop over the cities. -/
def overList {σ : Type} (f : σ → Json → Option (σ × Json)) (s : σ) (req : Json) :
    Option (σ × Json) :=
  req.visit "list" fun list => list.visitRange (fun _ => f) s list.size

/-! ## Dates of the old plan -/

/-- The first date of an old plan, if there is one. -/
def oldDate (originView : Json) : Option (Option String) := do
  let summary := originView.get "summary"
  let days := summary.get "days"
  if originView.isObject ∧ summary.isObject ∧ days.isArray ∧ days.size > 0 then
    let day ← (← days.item 0).touch "date"
    match day.get "date" with
    | str date => pure (if date.length = 8 then some date else none)
    | _ => pure none
  else pure none

/-- The days between the first date of the old plan of a city and the one of the request. -/
def daysTranslate (mj : MJ) (m_cityDaysTranslate : Int → Int) (city : Json) :
    Option ((Int → Int) × Json) := do
  let city ← city.touch "ridx"
  if (city.get "ridx").isInt then
    let llridx ← (city.get "ridx").asInt
    let city ← city.touch "originView"
    match ← oldDate (city.get "originView") with
    | none => pure (m_cityDaysTranslate, city)
    | some oldDate =>
      let city ← city.touch "arv_time"
      match city.get "arv_time" with
      | str arvTime =>
        if arvTime.length = 14 then
          let _ ← (((city.get "originView").get "summary").get "arv_time").asString
          let (checkin, city) ← city.readString "checkin"
          let newDate :=
            if checkin ≠ "" then checkin else String.ofList (arvTime.toList.take 8)
          let days := (mj.toTime oldDate - mj.toTime newDate).tdiv (24 * 3600)
          pure (Function.update m_cityDaysTranslate llridx days, city)
        else pure (m_cityDaysTranslate, city)
      | _ => pure (m_cityDaysTranslate, city)
  else pure (m_cityDaysTranslate, city)

/-! ## Nights in hotels -/

abbrev SleepTimeRange := String → Option (Int × Int)

/-- The last view of a day, if it is a hotel. -/
def sleepView (mj : MJ) (hotelKey : String) (ranges : SleepTimeRange) (v : Json) :
    Option (SleepTimeRange × Json) := do
  let (type, v) ← v.readInt "type"
  if hasType type LY_PLACE_TYPE_HOTEL then
    let v ← v.touch "id"
    if (v.get "id").isString then
      let (stime, v) ← v.readString "stime"
      let (etime, v) ← v.readString "etime"
      pure (Function.update ranges hotelKey (some (mj.toTime stime, mj.toTime etime)), v)
    else pure (ranges, v)
  else pure (ranges, v)

/-- The state also has whether the id of the city was read. -/
def sleepDay (mj : MJ) (cid : Json) (st : SleepTimeRange × Bool) (day : Json) :
    Option ((SleepTimeRange × Bool) × Json) := do
  let day ← day.touch "date"
  match day.get "date" with
  | str date =>
    let hotelKey := (← cid.asString) ++ "|" ++ date
    let (ranges, day) ← day.visit "view" fun view =>
      if view.size > 0 then view.visitItem (view.size - 1) (sleepView mj hotelKey st.1)
      else pure (st.1, view)
    pure ((ranges, true), day)
  | _ => pure (st, day)

/-- The loop over the days ends at `size() - 1`. This is unsigned: with no day it is not zero but
the largest number, so that the first day is read and is there from then on. -/
def sleepDays (size : ℕ) : ℕ := if size = 0 then 1 else size - 1

def hotelSleepTimeRange (mj : MJ) (ranges : SleepTimeRange) (city : Json) :
    Option (SleepTimeRange × Json) := do
  let city ← city.touch "originView"
  let originView := city.get "originView"
  if originView.isObject then
    let ((ranges, cidRead), originView) ← originView.visit "day" fun day =>
      day.visitRange (fun _ => sleepDay mj (city.get "cid")) (ranges, false) (sleepDays day.size)
    let city ← city.put "originView" originView
    let city ← city.touchIf cidRead "cid"
    pure (ranges, city)
  else pure (ranges, city)

/-! ## Car stores of the product -/

/-- What is put into a day and into its points. -/
structure CarStoreInfo where
  daysPoi : List (String × Json)
  dayView : List (String × Json)
  mode : Int
  isCarStore : dayView.lookup "type" = some (int LY_PLACE_TYPE_CAR_STORE)

/-- The car stores of a day of a city. -/
abbrev DayStores := AList fun _ : String => CarStoreInfo

/-- The car stores by the city and the date, and then by their ids. -/
abbrev CarStoreInfos := String → Option DayStores

def CarStoreInfo.setDur (info : CarStoreInfo) (dur : Json) : CarStoreInfo where
  daysPoi := insertMember "pdur" dur info.daysPoi
  dayView := insertMember "dur" dur info.dayView
  mode := info.mode
  isCarStore := by rw [lookup_insertMember, if_neg (by decide), info.isCarStore]

/-- `carStoreInfos[zucheKey][idKey] = info` -/
def CarStoreInfos.set (infos : CarStoreInfos) (zucheKey idKey : String) (info : CarStoreInfo) :
    CarStoreInfos :=
  Function.update infos zucheKey (some (((infos zucheKey).getD ∅).insert idKey info))

def CarStoreInfos.lookup (infos : CarStoreInfos) (key : String × String) : Option CarStoreInfo :=
  (infos key.1).bind fun stores => stores.lookup key.2

def _getCar : Int := 0
def _returnCar : Int := 1

def substr (pos len : ℕ) (s : String) : Option String :=
  if pos ≤ s.length then some (String.ofList ((s.toList.drop pos).take len)) else none

/-- A car store that is visited in the night belongs to the day whose hotel is nearer in time. -/
def storeDate (mj : MJ) (ranges : SleepTimeRange) (cid date stime : String) : Option String := do
  let clock ← substr 9 5 stime
  if clock ≥ "00:00" ∧ clock ≤ "06:00" then
    let checkInDate := mj.datePlusOf date (-1)
    match ranges (cid ++ "|" ++ checkInDate) with
    | some (sleepStime, sleepEtime) =>
      let tTime := mj.toTime stime
      if (sleepStime < sleepEtime ∧ tTime - sleepStime < sleepEtime - tTime) ∨
          (sleepStime > sleepEtime ∧ tTime < sleepEtime) then pure checkInDate
      else pure date
    | none => pure date
  else pure date

/-- The members that are strings. -/
def strings (members : List (String × Json)) : List (String × Json) :=
  members.filter fun m => m.2.isString

def storeInfo (mj : MJ) (rental zuche : Json) (mode : Int) (id date originDate time coord
    name : String) : CarStoreInfo :=
  let stime := date ++ "_" ++ time
  let corp := (zuche.get "corp").get "name"
  let product := strings [("product_id", rental.get "product_id"),
    ("unionkey", zuche.get "unionkey")]
  { daysPoi := [("id", str id), ("pdur", int 3600), ("stime", str stime),
      ("type", int LY_PLACE_TYPE_CAR_STORE)]
    dayView := [("close", int 0), ("coord", str coord), ("custom", int POI_CUSTOM_MODE_MAKE),
      ("do_what", str (if mode = _getCar then "取车" else "还车")), ("dur", int 3600),
      ("etime", str (mj.toString (mj.toTime stime + 3600))), ("id", str id), ("idle", null),
      ("info", obj (strings [("corp", corp)] ++ [("mode", int mode)])), ("lname", str name),
      ("name", str name), ("originDate", str originDate),
      ("product", if product = [] then null else obj product), ("stime", str stime),
      ("traffic", null), ("type", int LY_PLACE_TYPE_CAR_STORE)]
    mode := mode
    isCarStore := by simp [lookup_cons_ite] }

/-- One end of a rental. -/
def parseCarStore (mj : MJ) (m_cityDaysTranslate : Int → Int) (ranges : SleepTimeRange)
    (rental : Json) (infos : CarStoreInfos) (it : String × Int) : Option CarStoreInfos := do
  let place := rental.get it.1
  if place.isObject ∧ (place.get "ridx").isInt then
    let llridx ← (place.get "ridx").asInt
    let cid ← (place.get "cid").asString
    let zuche := (← (rental.get "cars").item 0).get "source"
    let store := zuche.get it.1
    match store.get "date", store.get "time", store.get "coord", store.get "name" with
    | str originDate, str time, str coord, str name =>
      let iid := mj.md5Last4 (it.1 ++ "#" ++ coord ++ "#" ++ name)
      let id := "cs" ++ toString (iid + it.2)
      let date := mj.datePlusOf originDate (m_cityDaysTranslate llridx)
      let info := storeInfo mj rental zuche it.2 id date originDate time coord name
      let day ← storeDate mj ranges cid date (date ++ "_" ++ time)
      let unionkey ← (zuche.get "unionkey").asString
      pure (infos.set (toString llridx ++ "|" ++ day) (id ++ "|" ++ unionkey) info)
    | _, _, _, _ => pure infos
  else pure infos

/-- Both ends of a rental, in the order of their names. -/
def parseRental (mj : MJ) (m_cityDaysTranslate : Int → Int) (ranges : SleepTimeRange)
    (infos : CarStoreInfos) (member : String × Json) : Option CarStoreInfos := do
  let rental := member.2
  let cars := rental.get "cars"
  if rental.isObject ∧ cars.isArray ∧ cars.size > 0 then
    let car ← cars.item 0
    if car.isObject ∧ (car.get "source").isObject then
      [("end", _returnCar), ("start", _getCar)].foldlM
        (parseCarStore mj m_cityDaysTranslate ranges rental) infos
    else pure infos
  else pure infos

def parseProduct (mj : MJ) (m_cityDaysTranslate : Int → Int) (ranges : SleepTimeRange)
    (req : Json) : Option CarStoreInfos :=
  match (req.get "product").get "zuche" with
  | obj rentals => rentals.foldlM (parseRental mj m_cityDaysTranslate ranges) fun _ => none
  | _ => some fun _ => none

end PPView.LightPlan
