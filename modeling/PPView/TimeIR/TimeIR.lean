import Mathlib.Data.List.Sort
import PPView.Library.Strings
import PPView.MyTime

/-!
# The opening rules of places

`TimeIR.cpp`: a rule is a list of clauses `<dates><weeks><times><type>` between bars, as in
`<1月-5月,10月-12月><周2-周6><10:00-12:30,14:00-18:30><SURE>|<1月1日><*><不开门><SURE>`. The
functions read it by the positions of its marks. `getVecStrBetween` loops until a mark closes
the string, so everything that calls it has fuel.
-/

namespace PPView.TimeIR

open Strings (find rfind split)

structure DateRange where
  sDate : Int
  eDate : Int
  deriving DecidableEq, Repr

structure WeekRange where
  sWeek : Int
  eWeek : Int
  deriving DecidableEq, Repr

structure RuleNode where
  dateRange : List DateRange := []
  weekRange : List WeekRange := []
  timeRange : List Str := []
  type : Option Nat := none

/-! ## Strings -/

/-- `月` -/
def yue : Str := [0xE6, 0x9C, 0x88]
/-- `日` -/
def ri : Str := [0xE6, 0x97, 0xA5]
/-- `周` -/
def zhou : Str := [0xE5, 0x91, 0xA8]
/-- `全天` -/
def quantian : Str := [0xE5, 0x85, 0xA8, 0xE5, 0xA4, 0xA9]
/-- `不开门` -/
def bukaimen : Str := [0xE4, 0xB8, 0x8D, 0xE5, 0xBC, 0x80, 0xE9, 0x97, 0xA8]
/-- `*` -/
def star : Str := [42]
/-- `SURE` -/
def sure : Str := [83, 85, 82, 69]
/-- `NOT_SURE` -/
def notSure : Str := [78, 79, 84, 95, 83, 85, 82, 69]
/-- `NULL` -/
def null : Str := [78, 85, 76, 76]

/-- A position as an `int`. The one behind every string is minus one. -/
def index : Option ℕ → Int
  | none => -1
  | some i => i

/-- `substr`. A count below zero is the largest there is. -/
def substr (s : Str) (pos count : Int) : Str :=
  if count < 0 then s.drop pos.toNat else (s.drop pos.toNat).take count.toNat

/-- A signed character. -/
def charVal (c : UInt8) : Int := if c < 128 then c.toNat else c.toNat - 256

/-- `operator[]`, that also reads the zero behind the string. -/
def charAt (s : Str) (i : ℕ) : Res UInt8 :=
  if i ≤ s.length then pure (s.getD i 0) else .error .arrayBound

/-- `string2int`, of one character. -/
def string2int (s : Str) : Int :=
  match s with
  | [c] => if Str.isDigit c then c.toNat - 48 else 0
  | _ => 0

/-- What is pushed in one round of `getVecStrBetween`. The count is taken from the start of the
string. -/
def part (left right inStr : Str) : Str :=
  substr inStr (index (find left inStr) + left.length) (index (find right inStr) - right.length)

/-- The parts of a string between the marks `left` and `right`, until one ends the string. -/
def getVecStrBetween (left right : Str) : ℕ → Str → Res (List Str)
  | 0, _ => .error .outOfFuel
  | fuel + 1, inStr => do
    let rightIndex := index (find right inStr)
    if rightIndex = (inStr.length : Int) - 1 then pure [part left right inStr]
    else
      let rest ← getVecStrBetween left right fuel (inStr.drop (rightIndex + right.length).toNat)
      pure (part left right inStr :: rest)

/-- The number in front of position `i`, read from its last digit on. -/
def getDataBefore (s : Str) (i : ℕ) : Int :=
  ((s.take i).reverse.takeWhile Str.isDigit).zipIdx.foldl
    (fun date (c, k) => date + (c.toNat - 48) * 10 ^ k) 0

/-- The number in front of the first `key`, or of the last one. -/
def getData (s key : Str) (order : Bool) : Option Int :=
  (if order then find key s else rfind key s).map (getDataBefore s)

/-! ## Rules -/

/-- Up to its last `>`. -/
def ruleItems (rule : Str) : List Str :=
  split 124 (substr rule 0 (index (rfind [62] rule) + 1))

def checkTimeRule (fuel : ℕ) (rule : Str) : Res Bool :=
  if (ruleItems rule).length ≤ 0 then pure false
  else
    (ruleItems rule).allM fun item => do
      let items ← getVecStrBetween [60] [62] fuel item
      pure (items.length = 4)

/-- One end of a date range. The month is left alone where there is none. -/
def readDate (old : Int) (str : Str) (order : Bool) (day : Int) : Int :=
  ((getData str yue order).map (· * 100)).getD old + (getData str ri order).getD day

/-- The ranges of the dates, with the range of the one before in `tmp`. -/
def dateRanges (tmp : DateRange) : List Str → List DateRange
  | [] => []
  | str :: date =>
    let range : DateRange := ⟨readDate tmp.sDate str true 1, readDate tmp.eDate str false 31⟩
    range :: dateRanges range date

/-- `Date_rule`. At first `tmp` is what the stack holds. -/
def dateRule (tmp : DateRange) (inStr : Str) : List DateRange :=
  if inStr = star then [⟨101, 1231⟩] else dateRanges tmp (split 44 inStr)

def weekAt (str : Str) (i : Option ℕ) : Option Int :=
  i.bind fun i =>
    if i + zhou.length + 1 ≤ str.length then
      some (string2int (substr str (i + zhou.length : ℕ) 1))
    else none

/-- The range of one part of `Week_rule`, unless it is passed over. -/
def weekRange (str : Str) : Option WeekRange := do
  let sWeek ← weekAt str (find zhou str)
  let eWeek ← weekAt str (rfind zhou str)
  if sWeek > eWeek ∨ sWeek > 7 ∨ sWeek < 1 ∨ eWeek > 7 ∨ eWeek < 1 then none
  else some ⟨sWeek, eWeek⟩

def weekRule (inStr : Str) : List WeekRange :=
  if inStr = star then [⟨1, 7⟩] else (split 44 inStr).filterMap weekRange

/-- `00:00-24:00` -/
def wholeDay : Str := [48, 48, 58, 48, 48, 45, 50, 52, 58, 48, 48]

def timeRule (inStr : Str) : List Str :=
  if inStr = star then [wholeDay]
  else if inStr = quantian then [wholeDay]
  else if inStr = bukaimen then [[]]
  else split 44 inStr

def typeRule (inStr : Str) : Option Nat :=
  if inStr = sure then some 1 else if inStr = notSure then some 2 else none

/-! ## The times of a date -/

/-- `_` -/
def stamp (inDate time : Str) : Str := inDate ++ 95 :: time

/-- From eight to twenty. -/
def defaultTimes (inDate : Str) : Str :=
  stamp inDate [48, 56, 58, 48, 48] ++ 45 :: stamp inDate [50, 48, 58, 48, 48]

/-- The nodes of the rule, or nothing where an item has other than four parts or is `NULL`. -/
def ruleNodes (fuel : ℕ) (tmp : DateRange) : List Str → Res (Option (List RuleNode))
  | [] => pure (some [])
  | item :: items => do
    let parts ← getVecStrBetween [60] [62] fuel item
    match parts with
    | [dates, weeks, times, type] =>
      if type = null then pure none
      else
        let node : RuleNode :=
          { dateRange := dateRule tmp dates, weekRange := weekRule weeks,
            timeRange := timeRule times, type := typeRule type }
        let nodes ← ruleNodes fuel tmp items
        pure (nodes.map (node :: ·))
    | _ => pure none

def pad (time : Str) : Str := if time.length < 5 then 48 :: time else time

def stampRange (inDate range : Str) : Str :=
  let index := index (find [45] range)
  let sTime := substr range 0 index
  let eTime := range.drop (index + 1).toNat
  stamp inDate (pad sTime) ++ 45 :: stamp inDate (pad eTime)

def getOpenTimeRange (timeRange : List Str) (inDate : Str) (outTimes : List Str) : List Str :=
  if timeRange = [] ∨ timeRange.head? = some [] then outTimes
  else (outTimes ++ timeRange.map (stampRange inDate)).insertionSort (· ≤ ·)

/-- Between the ends, or outside of them where they are in the other order. -/
def inRange (s e x : Int) : Bool :=
  if s ≤ e then s ≤ x ∧ x ≤ e else s ≤ x ∨ x ≤ e

/-- `tm_wday` of `gmtime_r`. The first of January 1970 was a Thursday. -/
def tmWday (t : Int) : Int := (t / 86400 + 4) % 7

def getWeekByDate (inDate : Str) : Res Int := do
  let tt ← MyTime.toTime inDate 0
  pure ((tmWday tt + 6) % 7 + 1)

def checkWeek (weekRange : WeekRange) (inStr : Str) : Res Bool := do
  let numWeek ← getWeekByDate inStr
  pure (inRange weekRange.sWeek weekRange.eWeek numWeek)

/-- The digits of the month and the day. -/
def monthDay (inStr : Str) : Res Int :=
  [4, 5, 6, 7].foldlM (fun strTime i => do
    let c ← charAt inStr i
    pure (strTime * 10 + (charVal c - 48))) 0

def checkDate (dateRange : DateRange) (inStr : Str) : Res Bool := do
  let strTime ← monthDay inStr
  pure (inRange dateRange.sDate dateRange.eDate strTime)

/-- The inner loop: the times of a clause once for every range of weeks that matches. -/
def weekTimes (node : RuleNode) (inDate : Str) (outTimes : List Str) : Res (List Str) :=
  node.weekRange.foldlM (fun outTimes weekRange => do
    if ← checkWeek weekRange inDate then
      pure (getOpenTimeRange node.timeRange inDate outTimes)
    else pure outTimes) outTimes

def nodeTimes (node : RuleNode) (inDate : Str) (outTimes : List Str) : Res (List Str) :=
  node.dateRange.foldlM (fun outTimes dateRange => do
    if ← checkDate dateRange inDate then weekTimes node inDate outTimes
    else pure outTimes) outTimes

/-- What is appended to `outTimesList`. -/
def getTheDateOpenTimeRange (fuel : ℕ) (tmp : DateRange) (rule inDate : Str)
    (outTimesList : List Str := []) : Res (List Str) := do
  match ← ruleNodes fuel tmp (ruleItems rule) with
  | none => pure (outTimesList ++ [defaultTimes inDate])
  | some nodes => nodes.foldlM (fun outTimes node => nodeTimes node inDate outTimes) outTimesList

end PPView.TimeIR
