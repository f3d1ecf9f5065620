import Mathlib.Data.Finset.Insert
import PPView.Library.Json

/-!
# Merging a day list

`PostProcessor::AddResult`: the days of some dates are taken from a second day list, and the hotels
between neighbouring days get common times. Both lists are walked once, with one cursor into the
second, which stays at the day that was taken.
-/

namespace PPView.PostProcessor

open Json

/-! ## Hotels -/

/-- `FixHotelTime`. Its two items for the summary are null in the only call. -/
def fixHotelTime (jDeptHotel jLastNightHotel : Json) : Option (Json × Json) := do
  let last ← jLastNightHotel.touch "stime"
  let stime ← (last.get "stime").asString
  let dept ← jDeptHotel.touch "etime"
  let etime ← (dept.get "etime").asString
  let dept ← dept.put "stime" (.str stime)
  let last ← last.put "etime" (.str etime)
  let dept ← dept.put "dur" (.int (-1))
  let last ← last.put "dur" (.int (-1))
  pure (dept, last)

/-- The hotel between two neighbouring days. -/
def fixNight (lastDay theDay : Json) : Option (Json × Json) := do
  let lastDay ← lastDay.touch "view"
  let theDay ← theDay.touch "view"
  let lastDayViewList := lastDay.get "view"
  let theDayViewList := theDay.get "view"
  if lastDayViewList.size > 0 ∧ theDayViewList.size > 0 then
    let k := lastDayViewList.size - 1
    let (dept, last) ← fixHotelTime (← theDayViewList.item 0) (← lastDayViewList.item k)
    let lastDay ← lastDay.put "view" (← lastDayViewList.putItem k last)
    let theDay ← theDay.put "view" (← theDayViewList.putItem 0 dept)
    pure (lastDay, theDay)
  else pure (lastDay, theDay)

/-- The nights from the day `lastDay` on. -/
def fixNights (lastDay : Json) : List Json → Option (List Json)
  | [] => some [lastDay]
  | theDay :: days => do
    let (lastDay, theDay) ← fixNight lastDay theDay
    (lastDay :: ·) <$> fixNights theDay days

/-! ## Days -/

def dateOf (day : Json) : Option String := (day.get "date").asString

/-- The cursor moves on to the first day of the date, or to the end. -/
def seek (date : String) : List Json → Option (List Json)
  | [] => some []
  | day :: days => do
    let jDate ← dateOf day
    if jDate = date then pure (day :: days) else seek date days

/-- The loop over the base days. The second list is what is left from the cursor on, and is read
when a day of it is needed. -/
def splice (dates : Finset String) : List Json → Option (List Json) → Option (List Json)
  | [], _ => some []
  | base :: bases, days => do
    let date ← dateOf base
    if date ∈ dates then
      match ← seek date (← days) with
      | [] => splice dates bases (some [])
      | day :: days => (day :: ·) <$> splice dates bases (some (day :: days))
    else (base :: ·) <$> splice dates bases days

def addResult (jBaseDayList jDayList : Json) (dates : Finset String) : Option Json := do
  let resp ← if jBaseDayList.size ≠ 0 then do
      match ← splice dates (← jBaseDayList.items) jDayList.items with
      | [] => pure .null
      | resp => pure (.arr resp)
    else pure jDayList
  if resp.size > 1 then
    match ← resp.items with
    | [] => pure resp
    | day :: days => .arr <$> fixNights day days
  else pure resp

end PPView.PostProcessor
