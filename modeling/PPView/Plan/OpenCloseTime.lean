import PPView.Library.Intervals
import PPView.Plan.Durations
import PPView.ToolFunc

/-!
# The opening hours of a place on adjacent days

`BasePlan::GetOpenCloseTime` collects the intervals of one date: from the rule of the place, from
the session that the user asked for, or from the sessions of a tour.
`GetAdjacentDaysOpenCloseTime` puts those of three days one behind the other.
-/

namespace PPView

open Strings (find)

def ToolFunc.toIntOffset (strTime : Str) : Int :=
  match find [58] strTime with
  | none => 0
  | some pos =>
    (Str.strtol (strTime.take pos)).1 * 3600 + (Str.strtol (strTime.drop (pos + 1))).1 * 60

/-- The two ends of a range such as `20140827_09:00-20140827_18:00`. -/
def ToolFunc.getOpenCloseTime (timeRule : Str) (timeZone : Int) : Res (Option (Int × Int)) :=
  if timeRule = [] then pure none
  else
    match ToolFunc.sepString timeRule [45] with
    | [openTime, closeTime] => do
      let openTime ← MyTime.toTime openTime timeZone
      let closeTime ← MyTime.toTime closeTime timeZone
      pure (some (openTime, closeTime))
    | _ => pure none

/-- `FormatChecker::CheckTime` of `toString`: the years from 1000 to 2999 have four digits of the
pattern. -/
def ToolFunc.checkTime (t timeZone : Int) : Bool :=
  -30610224000 ≤ t + timeZone * 3600 && t + timeZone * 3600 < 32503680000

/-- The members of `BasePlan` that are read here, and `LYConstData::IsTourAvailable`. -/
structure OpenPlan extends DurPlan where
  timeZone : Int := 8
  lookSet : List String := []
  isTourAvailable : String → Str → Bool := fun _ _ => true

namespace OpenPlan

variable (plan : OpenPlan) (fuel : ℕ) (tmp : TimeIR.DateRange) (date : Str) (place : VarPlace)

/-- The ranges of the rule that are read as intervals. -/
def ruleTimes : List Str → Res (List (Int × Int))
  | [] => pure []
  | timeRule :: timeRules => do
    let range ← ToolFunc.getOpenCloseTime timeRule plan.timeZone
    let rest ← ruleTimes timeRules
    match range with
    | some (openTime, closeTime) =>
      if openTime < closeTime && ToolFunc.checkTime openTime plan.timeZone &&
          ToolFunc.checkTime closeTime plan.timeZone then
        pure ((openTime, closeTime) :: rest)
      else pure rest
    | none => pure rest

/-- The sessions of a tour. An empty one stands for the whole day, and for nothing else. -/
def sessionTimes (day0 dur : Int) (openCloseList : List (Int × Int)) :
    List (Option Str) → List (Int × Int)
  | [] => openCloseList
  | none :: srcTimes => sessionTimes day0 dur openCloseList srcTimes
  | some calTime :: srcTimes =>
    if calTime = [] then [(day0, day0 + 3600 * 24)]
    else
      let startOffset := ToolFunc.toIntOffset calTime
      sessionTimes day0 dur
        (openCloseList ++ [(day0 + startOffset, day0 + (startOffset + dur))]) srcTimes

/-- The sessions of a tour on a date. -/
def tourTimes : Res (Option (List (Int × Int))) :=
  match place.tour with
  | none => pure none
  | some tour =>
    if !plan.isTourAvailable place.ID date then pure none
    else do
      let day0 ← MyTime.toTime (date ++ MyTime.midnight) plan.timeZone
      let dur := (place.rcmdIntensity.map Intensity.dur).getD 1800
      match sessionTimes day0 dur [] tour.srcTimes with
      | [] => pure none
      | openCloseList => pure (some openCloseList)

/-- What is left of the intervals of the rule where the user asked for a session. -/
def userTimes (offset : Int × Int) (openCloseList : List (Int × Int)) :
    Res (Option (List (Int × Int))) := do
  let day0 ← MyTime.toTime (date ++ MyTime.midnight) plan.timeZone
  let openTime := day0 + offset.1
  if place.t &&& LY_PLACE_TYPE_TOURALL ≠ 0 then
    match place.tour with
    | none => pure none
    | some _ =>
      if plan.isTourAvailable place.ID date then pure (some [(openTime, day0 + offset.2)])
      else pure none
  else
    let rcmdDur := plan.getRcmdDur place
    if openCloseList.any fun rule => openTime ≥ rule.1 ∧ openTime + rcmdDur ≤ rule.2 then
      pure (some [(openTime, openTime + rcmdDur)])
    else pure none

/-- The intervals of a date, or nothing where it returns other than zero. -/
def getOpenCloseTime : Res (Option (List (Int × Int))) := do
  let timeRules ← TimeIR.getTheDateOpenTimeRange fuel tmp place.timeRule date
  let openCloseList ← plan.ruleTimes timeRules
  match plan.vPlaceOpenMap.lookup place.ID with
  | some offset =>
    if place.ID ∉ plan.lookSet then plan.userTimes date place offset openCloseList
    else if openCloseList ≠ [] then pure (some openCloseList)
    else if place.t &&& LY_PLACE_TYPE_TOURALL ≠ 0 then plan.tourTimes date place
    else pure none
  | none =>
    if openCloseList ≠ [] then pure (some openCloseList)
    else if place.t &&& LY_PLACE_TYPE_TOURALL ≠ 0 then plan.tourTimes date place
    else pure none

/-- At most ten minutes between two days. -/
def Near (closeTime openTime : Int) : Prop := openTime - closeTime ≤ 10 * 60

instance : DecidableRel Near := fun _ _ => inferInstanceAs (Decidable (_ ≤ _))

/-- The days before, on and behind the date that have intervals. -/
def openDays : Res (List (List (Int × Int))) :=
  [-1, 0, 1].foldlM (fun days i => do
    let date0 ← MyTime.datePlusOf date i
    let datelist ← plan.getOpenCloseTime fuel tmp date0 place
    pure (days ++ datelist.toList)) []

/-- One round of the loop. The first interval of the day takes the start of the last one of the
list. -/
def addDay (openCloseList : List (Int × Int)) :
    Option (List (Int × Int)) → Res (List (Int × Int))
  | none => pure openCloseList
  | some datelist =>
    match openCloseList.getLast?, datelist with
    | none, _ => pure datelist
    | some _, [] => .error .arrayBound
    | some back, front :: rest =>
      if front.1 - back.2 ≤ 10 * 60 then
        pure (openCloseList.dropLast ++ (back.1, front.2) :: rest)
      else pure (openCloseList ++ front :: rest)

/-- The intervals of three days, or nothing where it returns other than zero. -/
def getAdjacentDaysOpenCloseTime (place : Option VarPlace) : Res (Option (List (Int × Int))) :=
  match place with
  | none => pure none
  | some vPlace => do
    let openCloseList ← [-1, 0, 1].foldlM (fun openCloseList i => do
      let date0 ← MyTime.datePlusOf date i
      let datelist ← plan.getOpenCloseTime fuel tmp date0 vPlace
      addDay openCloseList datelist) []
    pure (if openCloseList = [] then none else some openCloseList)

end OpenPlan

end PPView
