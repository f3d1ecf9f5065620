import Mathlib.Data.Rat.Floor
import Mathlib.Tactic.Linarith
import PPView.Library.BinaryRounding
import PPView.NodeJ
import PPView.Plan.KeyNode
import PPView.TimeIR.TimeIR

/-!
# The durations of a place

`BasePlan::GetDurS` takes the least and the greatest duration of a place from its intensities and
scales the recommended one by the preference of the request. Constants, sums and products of `double`
are rounded to 53 binary digits before they are cut off.
-/

namespace PPView

/-- One way to visit a place. -/
structure Intensity where
  dur : Int
  dur_nonneg : 0 ≤ dur
  dur_lt : dur < 2 ^ 31
  deriving DecidableEq, Repr

/-- What makes a place a tour. The sessions are the members `t` that are strings. -/
structure Tour where
  preTime : Int := 0
  srcTimes : List (Option Str) := []

/-- What is read of a place that may be visited. -/
structure VarPlace where
  ID : String
  t : Nat
  timeRule : Str := []
  intensityList : List Intensity := []
  rcmdIntensity : Option Intensity := none
  ranking : Int := 0
  hotRank : ℚ := 0
  tagSmallStr : Str := []
  tour : Option Tour := none

/-- The members of `BasePlan` that `GetDurS` reads. `tagpark` is the tag of theme parks. -/
structure DurPlan where
  durSMap : List (String × DurS) := []
  userDurMap : List (String × Int) := []
  vPlaceOpenMap : List (String × (Int × Int)) := []
  scalePrefer : ℚ := 1
  tagpark : Str := []

/-- The `double` next to a number. -/
def toDouble (x : ℚ) : ℚ := (Binary.nearest 53 (by decide)).round x

/-- A `double` as an `int`. One that does not fit becomes the least `int`, as on x86. -/
def toInt (x : ℚ) : Int :=
  let n := if x < 0 then ⌈x⌉ else ⌊x⌋
  if -2 ^ 31 ≤ n ∧ n < 2 ^ 31 then n else -2 ^ 31

/-- To the nearest half hour. -/
def toHalfHours (rcmdDur : Int) : Int :=
  let hour := rcmdDur.tdiv 1800
  let second := rcmdDur.tmod 1800
  if second < 900 then hour * 1800 else (hour + 1) * 1800

/-- The recommended duration for a preference. -/
def scaleDur (scalePrefer : ℚ) (rcmdDur : Int) : Int :=
  if scalePrefer < toDouble (9 / 10) then
    if rcmdDur > 1800 ∧ rcmdDur < 3600 * 8 then
      let rcmdDur := toHalfHours (toInt (toDouble (rcmdDur * scalePrefer)))
      if rcmdDur ≤ 0 then 900 else rcmdDur
    else rcmdDur
  else if scalePrefer > toDouble (11 / 10) then
    if rcmdDur ≤ 3600 * 6 then
      let rcmdDur := toHalfHours (toInt (toDouble
        (rcmdDur * toDouble (scalePrefer + toDouble (1 / 100)))))
      if rcmdDur > 3600 * 8 then 3600 * 8 else rcmdDur
    else rcmdDur
  else rcmdDur

/-- A duration times a constant. -/
def mulDur (dur : Int) (factor : ℚ) : Int := toInt (toDouble (dur * toDouble factor))

namespace VarPlace

/-- The zipped and the extended duration by the rank of the place. -/
def zipExtend (place : VarPlace) (minDur rcmdDur : Int) : Int × Int :=
  if place.ranking ≤ 3 then (mulDur rcmdDur (9 / 10), mulDur rcmdDur (19 / 10))
  else if place.hotRank < toDouble (1 / 10) then
    (mulDur rcmdDur (7 / 10), mulDur rcmdDur (16 / 10))
  else if place.hotRank < toDouble (3 / 10) then
    (mulDur rcmdDur (5 / 10), mulDur rcmdDur (15 / 10))
  else (minDur, mulDur rcmdDur 1)

def isPark (place : VarPlace) (tagpark : Str) : Bool :=
  tagpark ≠ [] && place.tagSmallStr ≠ [] && (Strings.find tagpark place.tagSmallStr).isSome

/-- The durations from the scaled recommended one. -/
def durSOf (place : VarPlace) (tagpark : Str) (minDur rcmdDur maxDur : Int) : DurS :=
  let (zipDur, extendDur) := place.zipExtend minDur rcmdDur
  let (zipDur, minDur, extendDur) :=
    if place.isPark tagpark then (rcmdDur, rcmdDur, maxDur) else (zipDur, minDur, extendDur)
  let preTime := (place.tour.map Tour.preTime).getD 0
  let minDur := minDur + preTime
  let maxDur := maxDur + preTime
  let zipDur := zipDur + preTime
  let extendDur := extendDur + preTime
  let rcmdDur := rcmdDur + preTime
  ⟨minDur, max zipDur minDur, rcmdDur, min extendDur maxDur, maxDur⟩

end VarPlace

namespace DurPlan

def defaultDurS : DurS := ⟨15 * 60, 30 * 60, 30 * 60, 30 * 60, 60 * 60⟩

def getDurS (plan : DurPlan) (place : VarPlace) : DurS :=
  match plan.durSMap.lookup place.ID with
  | some durS => durS
  | none =>
    match plan.userDurMap.lookup place.ID with
    | some userDur => ⟨userDur, userDur, userDur, userDur, userDur⟩
    | none =>
      match plan.vPlaceOpenMap.lookup place.ID with
      | some (first, second) =>
        let userDur := second - first
        ⟨userDur - 10 * 60, userDur, userDur, userDur, userDur + 10 * 60⟩
      | none =>
        if place.t &&& LY_PLACE_TYPE_RESTAURANT ≠ 0 then
          ⟨45 * 60, 5400, 2 * 3600, 2 * 3600, 2 * 3600⟩
        else if place.t &&& LY_PLACE_TYPE_VAR_PLACE ≠ 0 then
          match place.intensityList, place.rcmdIntensity with
          | front :: rest, some rcmd =>
            place.durSOf plan.tagpark front.dur (scaleDur plan.scalePrefer rcmd.dur)
              ((front :: rest).getLast (List.cons_ne_nil _ _)).dur
          | _, _ => defaultDurS
        else defaultDurS

def getRcmdDur (plan : DurPlan) (place : VarPlace) : Int := (plan.getDurS place).rcmd

/-- Whole quarter hours, at least one. -/
def toQuarters (dur : Int) : Int := if dur.tdiv 900 ≠ 0 then dur.tdiv 900 * 900 else 900

/-- What `DaysPlan` sets for a node whose stay is not kept. -/
def setPlanDurs (plan : DurPlan) (place : VarPlace) (nodeJ : NodeJ) : NodeJ :=
  let durS := plan.getDurS place
  nodeJ.setDurs (toQuarters durS.zip) (toQuarters durS.rcmd) (toQuarters durS.extend)

end DurPlan

end PPView
