import PPView.Library.References

/-!
# Stops on the way between two cities

`PlanThroughtPois::HandleTrafficPass` sets the times of the views of the first day on the way and
warns when the stops of all days take longer than the way itself.
-/

namespace PPView.PlanThroughtPois

open Json

/-- The places and clocks that are asked for: `cityZone` is the time zone of a city, `placeName` the
name that is shown for a place. -/
structure PassWorld where
  cityZone : String → Option Int
  placeName : String → Option String
  toTime : String → Int → Int
  toString : Int → Int → String

/-- The arguments of a call, besides the way itself. -/
structure PassCall where
  deptTime : String
  trafficDur : Int
  jTourParam : Json
  jProduct : Json

/-! ## Views -/

/-- `jParam[key].isInt() && jParam[key].asInt()` -/
def flagged (key : String) (jParam : Json) : Bool :=
  (jParam.get key).isInt && (jParam.get key).asInt != some 0

/-- `j[key][key'] = v` -/
def putIn (key key' : String) (j v : Json) : Option Json := do
  j.put key (← (j.get key).put key' v)

def stayDur (dur : Int) : Int :=
  if dur = -1 then 4 * 3600
  else if dur = -2 then 8 * 3600
  else if dur = -3 then 2 * 3600
  else dur

/-- The traffic of the user between two views. -/
def takeTraffic (trafKey : String) (jTraffic jPoi : Json) : Option (Json × Json) := do
  let jPoi ← putIn "traffic" "id" jPoi (.str trafKey)
  let jPoi ← putIn "traffic" "custom" jPoi (.int 1)
  let item ← (jTraffic.get trafKey).touch "dur"
  let jPoi ← putIn "traffic" "dur" jPoi (item.get "dur")
  let item ← item.touch "dist"
  let jPoi ← putIn "traffic" "dist" jPoi (item.get "dist")
  let item ← item.touch "type"
  let jPoi ← putIn "traffic" "type" jPoi (item.get "type")
  let item ← item.touch "no"
  let jPoi ← putIn "traffic" "no" jPoi (item.get "no")
  pure (← jTraffic.put trafKey item, jPoi)

/-- The traffic of a view that is not the last one; `custom` is `customTraffic` if it is an
object. -/
def passTraffic (c : PassCall) (custom : Option Json) (jNextPoi jPoi : Json) :
    Option (Option Json × Json) := do
  let (id, jPoi) ← jPoi.readString "id"
  let trafKey := id ++ "_" ++ (← (jNextPoi.get "id").asString)
  let jPoi ← if flagged "fixed" c.jTourParam then do
      putIn "traffic" "fixed" jPoi (.int (← (c.jTourParam.get "fixed").asInt))
    else pure jPoi
  match custom with
  | none => pure (none, jPoi)
  | some jTraffic =>
    if jTraffic.isMember trafKey then do
      let (jTraffic, jPoi) ← takeTraffic trafKey jTraffic jPoi
      pure (some jTraffic, jPoi)
    else pure (some jTraffic, jPoi)

/-- The product of a view at its new date. -/
def datedProduct (c : PassCall) (stime : String) (product : Json) : Option Json := do
  let product ← product.put "date" (.str (String.ofList (stime.toList.take 8)))
  let (pid, product) ← product.readString "pid"
  let (date, product) ← product.readString "date"
  let (start, product) ← product.readString "stime"
  let product ← product.put "product_id" (.str (pid ++ "#" ++ date ++ "#" ++ start))
  if flagged "noQuotn" c.jTourParam then product.put "noQuotn" (c.jTourParam.get "noQuotn")
  else pure product

/-- The product of the view `j`, and of its point in the summary if this has one. -/
def passProduct (c : PassCall) (j : ℕ) (jPoi jPois : Json) : Option (Json × Json) := do
  match (jPoi.get "product").get "product_id" with
  | .str prodId =>
    if !c.jProduct.isNull && c.jProduct.isMember prodId then do
      let (stime, jPoi) ← jPoi.readString "stime"
      let product ← datedProduct c stime (c.jProduct.get prodId)
      let jPoi ← jPoi.put "product" product
      let poi ← jPois.item j
      if poi.isMember "product" then
        pure (jPoi, ← jPois.putItem j (← poi.put "product" product))
      else pure (jPoi, jPois)
    else pure (jPoi, jPois)
  | _ => pure (jPoi, jPois)

/-- The state of the loop over the views. -/
structure PassState where
  poiEtime : String
  views : Json
  jPois : Json
  custom : Option Json

/-- The branch for a view that is not the last one. -/
def trafficAt (c : PassCall) (s : PassState) (j : ℕ) (jPoi : Json) : Option (Option Json × Json) :=
  if j + 1 < s.views.size then do passTraffic c s.custom (← s.views.item (j + 1)) jPoi
  else pure (s.custom, jPoi)

/-- The first view starts with the day, any other one behind the way from the one before. -/
def startAt (w : PassWorld) (time_Zone : Int) (dayStime : Json) (s : PassState) (j : ℕ)
    (jPoi : Json) : Option Json :=
  if j = 0 then jPoi.put "stime" dayStime else do
    let jPrevPoi ← s.views.item (j - 1)
    let onWay ← ((jPrevPoi.get "traffic").get "dur").asInt
    jPoi.put "stime" (.str (w.toString (w.toTime s.poiEtime time_Zone + onWay) time_Zone))

def passPoi (w : PassWorld) (c : PassCall) (time_Zone : Int) (dayStime : Json) (s : PassState)
    (j : ℕ) : Option PassState := do
  let (dur, jPoi) ← (← s.views.item j).readInt "dur"
  let (custom, jPoi) ← trafficAt c s j jPoi
  let jPoi ← startAt w time_Zone dayStime s j jPoi
  let (stime, jPoi) ← jPoi.readString "stime"
  let poiEtime := w.toString (w.toTime stime time_Zone + stayDur dur) time_Zone
  let jPoi ← jPoi.put "etime" (.str poiEtime)
  let (jPoi, jPois) ← passProduct c j jPoi s.jPois
  let views ← s.views.putItem j jPoi
  pure { poiEtime, views, jPois, custom }

/-- The date of a time, in front of its first `_`. -/
def datePart (time : String) : String := String.ofList ((time.toList.splitOn '_').headD [])

def setStart (c : PassCall) (jDay : Json) : Option Json :=
  if c.deptTime ≠ "" then do
    (← jDay.put "stime" (.str c.deptTime)).put "date" (.str (datePart c.deptTime))
  else pure jDay

/-- A day on the way, with its points in the summary. -/
def passDay (w : PassWorld) (c : PassCall) (time_Zone : Int) (jDay jPois : Json)
    (custom : Option Json) : Option (Json × Json × Option Json) := do
  let jDay ← setStart c jDay
  let (stime, jDay) ← jDay.readString "stime"
  let jDay ← jDay.touch "view"
  let views := jDay.get "view"
  let s ← (List.range (min views.size jPois.size)).foldlM
    (passPoi w c time_Zone (jDay.get "stime")) { poiEtime := stime, views, jPois, custom }
  let jDay ← jDay.put "view" s.views
  let jDay ← jDay.put "etime" (.str s.poiEtime)
  pure (jDay, s.jPois, s.custom)

/-- `customTraffic`, if it is an object. -/
def customOf (jSummary : Json) : Option Json :=
  if (jSummary.get "customTraffic").isObject then some (jSummary.get "customTraffic") else none

def putCustom (custom : Option Json) (jSummary : Json) : Option Json :=
  match custom with
  | none => pure jSummary
  | some jTraffic => jSummary.put "customTraffic" jTraffic

/-- The loop over the days, which ends with the first day. -/
def passDays (w : PassWorld) (c : PassCall) (time_Zone : Int) (jDays jSummary : Json) :
    Option (Json × Json) :=
  let jSummaryDayList := jSummary.get "days"
  if jDays.size > 0 ∧ jSummaryDayList.size > 0 then do
    let sday ← (← jSummaryDayList.item 0).touch "pois"
    let (jDay, jPois, custom) ←
      passDay w c time_Zone (← jDays.item 0) (sday.get "pois") (customOf jSummary)
    let sday ← sday.put "pois" jPois
    let jSummary ← jSummary.put "days" (← jSummaryDayList.putItem 0 sday)
    let jSummary ← putCustom custom jSummary
    let jDays ← jDays.putItem 0 jDay
    pure (jDays, jSummary)
  else pure (jDays, jSummary)

/-! ## The warning -/

def poiDur (poi : Json) : Int :=
  if (poi.get "pdur").isInt then (poi.get "pdur").asInt.getD 0 else 0

/-- The `pdur` of the points of a day. -/
def dayDur (day : Json) : Int :=
  match day.get "pois" with
  | .arr pois => (pois.map poiDur).sum
  | _ => 0

/-- The loop over the days. Its bound for the day `i` is `days[i].size()`, the number of members of
that day. -/
def trafficPassDur : ℕ → List Json → Int
  | _, [] => 0
  | i, day :: days => if i < day.size then dayDur day + trafficPassDur (i + 1) days else 0

def durText (dur : Int) : String :=
  let hour := dur / 3600
  let min := (dur % 3600 + 59) / 60
  if hour ≠ 0 ∧ min ≠ 0 then ToString.toString hour ++ "h" ++ ToString.toString min ++ "m"
  else if hour ≠ 0 then ToString.toString hour ++ "h"
  else if min ≠ 0 then ToString.toString min ++ "m"
  else ""

def durWarning (fromName toName : Option String) (passDur trafficDur : Int) : Json :=
  let between := match fromName, toName with
    | some fromName, some toName => fromName ++ "-" ++ toName ++ "的"
    | _, _ => ""
  .obj [("desc", .str ("当前路途中的游玩总时间(" ++ durText passDur ++ ")超出了" ++ between ++
      "交通时间(" ++ durText trafficDur ++ ")，请适当调整。")),
    ("didx", .int (-1)), ("type", .int 8), ("vidx", .int (-1))]

/-- The first warning of type 8 is removed. -/
def removeFirst : List Json → Option (List Json)
  | [] => some []
  | warning :: warnings => do
    let (type, warning) ← warning.readInt "type"
    if type = 8 then pure warnings else (warning :: ·) <$> removeFirst warnings

def removeWarning (jWarnings : Json) : Option Json :=
  if jWarnings.size = 0 then some jWarnings else do pure (.arr (← removeFirst (← jWarnings.items)))

/-- The time zone of the city `from`, if the way has one. -/
def passZone (w : PassWorld) (jTrafficPass : Json) : Option Int :=
  match jTrafficPass.get "from" with
  | .str from_City => w.cityZone from_City
  | _ => some 0

/-- What the points take on all days. -/
def passDurOf (jSummary : Json) : Int :=
  match jSummary.get "days" with
  | .arr days => trafficPassDur 0 days
  | _ => 0

/-- The warnings after the call, with the way that may have got members by then. -/
def editWarnings (w : PassWorld) (c : PassCall) (passDur : Int) (jWarnings jTrafficPass : Json) :
    Option (Json × Json) :=
  if passDur > 0 ∧ c.trafficDur > 0 ∧ passDur > c.trafficDur then do
    let (fromID, jTrafficPass) ← jTrafficPass.readString "from"
    let (toID, jTrafficPass) ← jTrafficPass.readString "to"
    let jWarning := durWarning (w.placeName fromID) (w.placeName toID) passDur c.trafficDur
    let jWarnings ← (← removeWarning jWarnings).append jWarning
    pure (jWarnings, jTrafficPass)
  else do
    let jWarnings ← removeWarning jWarnings
    pure (jWarnings, jTrafficPass)

def handleTrafficPass (w : PassWorld) (c : PassCall) (jTrafficPass : Json) : Option (Int × Json) :=
  match passZone w jTrafficPass with
  | none => some (1, jTrafficPass)
  | some time_Zone => do
    let jTrafficPass ← jTrafficPass.touch "day"
    let jTrafficPass ← jTrafficPass.touch "summary"
    let jSummary ← (jTrafficPass.get "summary").touch "days"
    let (jDays, jSummary) ← passDays w c time_Zone (jTrafficPass.get "day") jSummary
    let jTrafficPass ← jTrafficPass.put "day" jDays
    let jSummary ← jSummary.touch "warning"
    let (jWarnings, jTrafficPass) ←
      editWarnings w c (passDurOf jSummary) (jSummary.get "warning") jTrafficPass
    let jSummary ← jSummary.put "warning" jWarnings
    let jTrafficPass ← jTrafficPass.put "summary" jSummary
    pure (0, jTrafficPass)

end PPView.PlanThroughtPois
