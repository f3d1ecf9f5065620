import Mathlib.Algebra.GroupWithZero.Nat
import PPView.TimeIR.TimeIR
import PPView.ToolFunc

/-!
# The check of opening rules and their correction

`ConstDataCheck.cpp` checks the opening rule of a place when it is loaded, `FixOpenRule` of
`LYConstData.cpp` rewrites it behind the check.
-/

namespace PPView

open Strings (find split)

namespace ConstDataCheck

open TimeIR (yue ri zhou quantian bukaimen star sure notSure null)

/-- The value of an `int` of 32 bits. -/
def int32 (n : Int) : Int := n.bmod (2 ^ 32)

/-- The number in front of the first `key`, from its last digit on. -/
def findLeftNum (key str : Str) : Option Int :=
  (find key str).map fun pos =>
    (((str.take pos).reverse.takeWhile Str.isDigit).foldl
      (fun (num, pow10) c =>
        (int32 (num + int32 ((c.toNat - 48) * pow10)), int32 (pow10 * 10)))
      ((0 : Int), (1 : Int))).1

/-- The number behind the first `key`. -/
def findRightNum (key str : Str) : Option Int :=
  (find key str).map fun pos =>
    ((str.drop (pos + key.length)).takeWhile Str.isDigit).foldl
      (fun num c => int32 (int32 (num * 10) + (c.toNat - 48))) 0

/-- The loop of `GetItemsBracket`. Every round goes on behind a `right`. -/
def itemsBracketFrom (left right : Str) : ℕ → Str → List Str
  | 0, _ => []
  | fuel + 1, rule =>
    match find left rule, find right rule with
    | some leftIndex, some rightIndex =>
      if leftIndex < rightIndex then
        (rule.drop (leftIndex + left.length)).take (rightIndex - leftIndex - right.length) ::
          itemsBracketFrom left right fuel (rule.drop (rightIndex + right.length))
      else []
    | _, _ => []

def getItemsBracket (left right rule : Str) : List Str :=
  itemsBracketFrom left right rule.length rule

def kMonthDay : List Int := [0, 31, 29, 31, 30, 31, 30, 31, 31, 30, 31, 30, 31]

/-- One side of a date range, as `month * 100 + day`. Without a day the day is zero. -/
def dateSide (item : Str) : Option Int := do
  let month ← findLeftNum yue item
  if month > 12 ∨ month ≤ 0 then none
  else
    let day := (findLeftNum ri item).getD 0
    if day > kMonthDay.getD month.toNat 0 then none else some (month * 100 + day)

def checkDate (dateRuleStr : Str) : Bool :=
  if dateRuleStr = star then true
  else
    let dateRules := split 44 dateRuleStr
    dateRules.length ≠ 0 && dateRules.all fun rule =>
      match split 45 rule with
      | [item] => (dateSide item).isSome
      | [st, ed] =>
        match dateSide st, dateSide ed with
        | some stDate, some edDate => stDate ≤ edDate
        | _, _ => false
      | _ => false

def weekSide (item : Str) : Option Int := do
  let day ← findRightNum zhou item
  if day > 7 ∨ day < 1 then none else some day

def checkWeek (weekRuleStr : Str) : Bool :=
  if weekRuleStr = star then true
  else
    let weekRules := split 44 weekRuleStr
    weekRules.length ≠ 0 && weekRules.all fun rule =>
      match split 45 rule with
      | [item] => (weekSide item).isSome
      | [st, ed] =>
        match weekSide st, weekSide ed with
        | some stDay, some edDay => stDay ≤ edDay
        | _, _ => false
      | _ => false

/-- One side of a range of times, in minutes. -/
def timeSide (item : Str) : Option Int := do
  let hour ← findLeftNum [58] item
  if hour > 24 ∨ hour < 0 then none
  else
    let min ← findRightNum [58] item
    if min > 59 ∨ min < 0 then none else some (hour * 60 + min)

def checkDay (dayRuleStr : Str) : Bool :=
  if dayRuleStr = star ∨ dayRuleStr = bukaimen ∨ dayRuleStr = quantian then true
  else
    let dayRules := split 44 dayRuleStr
    dayRules.length ≠ 0 && dayRules.all fun rule =>
      match split 45 rule with
      | [st, ed] =>
        match timeSide st, timeSide ed with
        | some stTime, some edTime => stTime < edTime
        | _, _ => false
      | _ => false

def checkSure (sureStr : Str) : Bool := sureStr = null || sureStr = sure || sureStr = notSure

/-- One round of `CheckOpenClose`. -/
def checkRule (rule : Str) : Bool :=
  rule ≠ [] &&
    match getItemsBracket [60] [62] rule with
    | [dates, weeks, days, type] =>
      checkDate dates && checkWeek weeks && checkDay days && checkSure type
    | _ => false

def checkOpenClose (openCloseStr : Str) : Bool :=
  let rules := split 124 openCloseStr
  rules.length ≠ 0 && rules.all checkRule

end ConstDataCheck

namespace LYConstData

open TimeIR (bukaimen)

/-- `–` -/
def enDash : Str := [0xE2, 0x80, 0x93]
/-- `：` -/
def wideColon : Str := [0xEF, 0xBC, 0x9A]

/-- The dashes and colons of the rule are made plain. -/
def fixMarks (oriOpenRule : Str) : Str :=
  ToolFunc.replaceString (ToolFunc.replaceString oriOpenRule enDash [45]) wideColon [58]

def isClosing (itemRule : Str) : Bool := (find bukaimen itemRule).isSome

/-- The closing clauses first. -/
def resortItems (itemList : List Str) : List Str :=
  itemList.filter isClosing ++ itemList.filter fun item => !isClosing item

def fixOpenRule (oriOpenRule : Str) : Str :=
  ToolFunc.join2String (resortItems (ToolFunc.sepString (fixMarks oriOpenRule) [124])) [124]

end LYConstData

end PPView
