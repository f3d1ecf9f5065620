import PPView.Define
import PPView.Library.Json

/-!
# The days of a summary

`PostProcessor::MakejDays`: a day of the summary has the points of the views of a day.
-/

namespace PPView.PostProcessor

def NODE_FUNC_NULL : Int := 0
def NODE_FUNC_KEY_HOTEL_SLEEP : Int := 0x00010000

def POI_CUSTOM_MODE_CUSTOM : Int := 1

/-- A type is a set of bits. -/
def hasType (type : Int) (mask : ℕ) : Bool := BitVec.ofInt 32 type &&& BitVec.ofNat 32 mask ≠ 0

open Json

variable (toTime : String → Int)

/-- The night hotels are the first and the last view, but for the first view of the first day and
the last one of the last day. -/
def isSleep (days i views j : ℕ) : Bool :=
  (i = 0 ∧ j + 1 = views) ∨ (i + 1 = days ∧ j = 0) ∨
    (i ≠ 0 ∧ i + 1 ≠ days ∧ (j = 0 ∨ j + 1 = views))

/-- The value is an `Int` for which `p` holds. -/
def isIntWith (p : Int → Bool) (j : Json) : Bool := j.isInt && j.asInt.any p

/-- The start of a view is passed on when its product has one. -/
def hasProductTime (req product : Json) : Bool :=
  (match product.get "stime" with
    | str stime => stime ≠ ""
    | _ => false) ||
  match product.get "product_id" with
  | str productId =>
    match (((req.get "product").get "wanle").get productId).get "stime" with
    | str stime => stime.length = 5
    | _ => false
  | _ => false

def copyMembers (keys : List String) (jView : Json) (jPoi : List (String × Json)) :
    List (String × Json) :=
  keys.foldl (fun jPoi key => insertMember key (jView.get key) jPoi) jPoi

/-- `jPoi[key] = jView[key].asString()` -/
def copyString (key : String) (jView : Json) (jPoi : List (String × Json)) :
    Option (List (String × Json)) := do
  pure (insertMember key (str (← (jView.get key).asString)) jPoi)

/-- The point of the view `j` of the day `i`. -/
def makejPoi (req : Json) (days i views j : ℕ) (jView : Json) : Option Json := do
  let type := jView.get "type"
  let jPoi := copyMembers ["id", "type"] jView (insertMember "pdur" (jView.get "dur") [])
  let jPoi := insertMember "play" (if jView.isMember "play" then jView.get "play" else str "") jPoi
  let jPoi := insertMember "func_type"
    (if jView.isMember "func_type" then jView.get "func_type" else int NODE_FUNC_NULL) jPoi
  let jPoi ← match jView.get "dur" with
    | int (-1) => do
      let stime ← (jView.get "stime").asString
      let etime ← (jView.get "etime").asString
      pure (insertMember "pdur" (int (toTime etime - toTime stime)) jPoi)
    | _ => pure jPoi
  let jPoi := if jView.isMember "product" then copyMembers ["product"] jView jPoi else jPoi
  let jPoi ← if hasProductTime req (jView.get "product") ∨
        isIntWith (hasType · (LY_PLACE_TYPE_CAR_STORE ||| LY_PLACE_TYPE_ARRIVE)) type then
      copyString "stime" jView jPoi
    else pure jPoi
  let jPoi ← if ¬ jView.isMember "func_type" ∧ days > 1 ∧
        isIntWith (hasType · LY_PLACE_TYPE_HOTEL) type ∧ isSleep days i views j then do
      let jPoi ← copyString "stime" jView jPoi
      let jPoi ← copyString "etime" jView jPoi
      pure (insertMember "func_type" (int NODE_FUNC_KEY_HOTEL_SLEEP) jPoi)
    else pure jPoi
  let jPoi ← if isIntWith (· = NODE_FUNC_KEY_HOTEL_SLEEP) (jView.get "func_type") then do
      let jPoi ← copyString "stime" jView jPoi
      copyString "etime" jView jPoi
    else pure jPoi
  let jPoi := if jView.isMember "needAdjustHotel" then copyMembers ["needAdjustHotel"] jView jPoi
    else jPoi
  let jPoi := if isIntWith (· = POI_CUSTOM_MODE_CUSTOM) (jView.get "custom") ∧
        (jView.get "coord").isString ∧ (jView.get "name").isString ∧
        (jView.get "lname").isString then
      copyMembers ["coord", "name", "lname", "custom"] jView jPoi
    else jPoi
  pure (obj jPoi)

def makejPois (req : Json) (days i views : ℕ) : ℕ → List Json → Option (List Json)
  | _, [] => some []
  | j, jView :: jViewList => do
    let jPoi ← makejPoi toTime req days i views j jView
    (jPoi :: ·) <$> makejPois req days i views (j + 1) jViewList

def makejDay (req : Json) (days i : ℕ) (day : Json) : Option Json := do
  let jViewList ← (day.get "view").items
  let jPoisList ← makejPois toTime req days i jViewList.length 0 jViewList
  pure (obj [("date", day.get "date"), ("expire", int 0), ("pois", arr jPoisList)])

def makejDayList (req : Json) (days : ℕ) : ℕ → List Json → Option (List Json)
  | _, [] => some []
  | i, day :: jDayList => do
    let jDay ← makejDay toTime req days i day
    (jDay :: ·) <$> makejDayList req days (i + 1) jDayList

/-- The days that are appended to the days of the summary. -/
def makejDays (req jDayList : Json) : Option (List Json) := do
  let days ← jDayList.items
  makejDayList toTime req days.length 0 days

end PPView.PostProcessor
