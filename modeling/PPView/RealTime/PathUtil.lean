import Mathlib.Data.Rat.Defs
import Mathlib.Data.List.Chain
import PPView.Fault
import PPView.Plan.KeyNode

/-!
# Squeezing and stretching the stays of a path

`PathUtil.cpp`: the stays at items that are no key items are squeezed to the least duration, and
stretched again between each two key items as far as the legs and the opening times allow.
-/

namespace PPView.RealTime

def NODE_FUNC_KEY_HOTEL_LUGGAGE : ℕ := 0x00020000 ||| 0x00040000

structure TrafficItem where
  startP : String
  stopP : String
  time : ℕ
  deriving DecidableEq, Inhabited

/-- `PlanItem`. Of the place there are its type and its hot level. -/
structure Item where
  placeType : ℕ := 0
  hotLevel : Int := 0
  type : ℕ := 0
  arriveTraffic : Option TrafficItem := none
  departTraffic : Option TrafficItem := none
  arriveTime : Int := 0
  departTime : Int := 0
  openTime : Int := 0
  closeTime : Int := 0
  durS : DurS := {}
  trafDate : String := ""
  deriving DecidableEq, Inhabited

namespace Item

variable (p : Item)

def isKey : Bool := p.type &&& NODE_FUNC_KEY ≠ 0

def isLuggage : Bool := p.type &&& NODE_FUNC_KEY_HOTEL_LUGGAGE ≠ 0

def getDur : Int := p.departTime - p.arriveTime

def setTimes (arriveTime departTime : Int) : Item :=
  { p with arriveTime := arriveTime, departTime := departTime }

end Item

/-- The time of a leg; no traffic takes no time. -/
def trafTime (traffic : Option TrafficItem) : Int := traffic.elim 0 fun item => item.time

/-! ## Squeezing -/

/-- The loop of `DoZipDur` behind the item `lastItem`. The result is `none` when it returns 1. -/
def zipFrom (lastItem : Item) : List Item → Option (List Item)
  | [] => some []
  | curItem :: rest =>
    if curItem.isKey then (curItem :: ·) <$> zipFrom curItem rest
    else
      let arvTime := max (lastItem.departTime + trafTime curItem.arriveTraffic) curItem.openTime
      let deptTime := arvTime + curItem.durS.zip
      if deptTime > curItem.closeTime then none
      else
        let curItem := curItem.setTimes arvTime deptTime
        (curItem :: ·) <$> zipFrom curItem rest

def doZipDur : List Item → Option (List Item)
  | [] => some []
  | item :: rest => (item :: ·) <$> zipFrom item rest

/-! ## Stretching -/

/-- `GetEarliestDept` for the items behind a departure at `deptTime`. They are moved to the front;
the result is `none` when one does not fit. -/
def getEarliestDept (deptTime : Int) : List Item → Option (Int × List Item)
  | [] => some (deptTime, [])
  | item :: rest =>
    let arriveTime := max (deptTime + trafTime item.arriveTraffic) item.openTime
    if arriveTime + item.getDur > item.closeTime then none
    else do
      let (earliest, rest) ← getEarliestDept (arriveTime + item.getDur) rest
      some (earliest, item.setTimes arriveTime (arriveTime + item.getDur) :: rest)

/-- `GetLatestArv` for the items before an arrival at `arvTime`. They are moved to the back, the
last one first. -/
def getLatestArv (arvTime : Int) : List Item → Option (Int × List Item)
  | [] => some (arvTime, [])
  | item :: rest => do
    let (latest, rest) ← getLatestArv arvTime rest
    let departTime := min (latest - trafTime item.departTraffic) item.closeTime
    if item.openTime > departTime - item.getDur then none
    else some (departTime - item.getDur, item.setTimes (departTime - item.getDur)
      departTime :: rest)

/-- One round of `TimeStretch` for the item at `index` of those between two key items, and whether
the item may be stretched again. -/
def stretchAt (startItem stopItem : Item) (items : List Item) (index : ℕ) :
    Option (List Item × Bool) := do
  let item ← items[index]?
  let dur := max (min ((11 * item.getDur).tdiv 10) item.durS.extend) item.durS.zip
  let (earliestT, before) ← getEarliestDept startItem.departTime (items.take index)
  let (latestT, behind) ← getLatestArv stopItem.arriveTime (items.drop (index + 1))
  -- the time -1 stands for failure
  if earliestT = -1 ∨ latestT = -1 then none
  else
    let arvT := max (earliestT + trafTime item.arriveTraffic) item.openTime
    let deptT := min (latestT - trafTime item.departTraffic) item.closeTime
    if arvT > deptT then none
    else if arvT + dur ≤ deptT then
      some (before ++ item.setTimes arvT (arvT + dur) :: behind, dur < item.durS.extend)
    else some (before ++ item.setTimes arvT deptT :: behind, false)

def hotLevelAt (items : List Item) (index : ℕ) : Int := (items.getD index default).hotLevel

/-- `GetStretchRate`, where the source has a floating point number. -/
def stretchRate (items : List Item) (index : ℕ) : Rat :=
  (items.getD index default).getDur / (items.getD index default).durS.rcmd

section

-- `std::sort` of indices, which may order equal ones in any way
variable (sort : (ℕ → ℕ → Bool) → List ℕ → List ℕ)

/-- The loop of `TimeStretch` over the queue; an item waits while a hotter or equally hot one is
stretched less. -/
def stretchLoop (startItem stopItem : Item) :
    ℕ → List Item → List ℕ → List ℕ → Res (Option (List Item))
  | _, items, _, [] => pure (some items)
  | 0, _, _, _ => .error .outOfFuel
  | fuel + 1, items, sItemList, sItem :: sItemQueue =>
    let level := hotLevelAt items sItem
    if (sItemList.takeWhile (· ≠ sItem)).any fun other => hotLevelAt items other ≥ level then
      stretchLoop startItem stopItem fuel items sItemList (sItemQueue ++ [sItem])
    else
      match stretchAt startItem stopItem items sItem with
      | none => pure none
      | some (items, true) =>
        stretchLoop startItem stopItem fuel items
          (sort (fun i j => stretchRate items i < stretchRate items j) sItemList)
          (sItemQueue ++ [sItem])
      | some (items, false) =>
        stretchLoop startItem stopItem fuel items (sItemList.erase sItem) sItemQueue

/-- `TimeStretch` for the items between two key items. -/
def timeStretch (fuel : ℕ) (startItem stopItem : Item) (items : List Item) :
    Res (Option (List Item)) :=
  let sItemQueue := sort (fun i j => hotLevelAt items i > hotLevelAt items j)
    (List.range items.length)
  let sItemList := sort (fun i j => stretchRate items i < stretchRate items j) sItemQueue
  stretchLoop sort startItem stopItem fuel items sItemList sItemQueue

/-- `TimeStretch` is called where there are items between the key items. -/
def stretchBetween (fuel : ℕ) (startItem stopItem : Item) (items : List Item) :
    Res (Option (List Item)) :=
  if items = [] then pure (some []) else timeStretch sort fuel startItem stopItem items

/-- The loop of `TimeEnrich`: `items` are those passed since `startItem`. -/
def enrichFrom (fuel : ℕ) (startItem : Item) (items : List Item) :
    List Item → Res (Option (List Item))
  | [] => pure (some items)
  | item :: rest =>
    if item.isKey then do
      let stretched ← stretchBetween sort fuel startItem item items
      match stretched with
      | none => pure none
      | some stretched => do
        let enriched ← enrichFrom fuel item [] rest
        pure (enriched.map (stretched ++ item :: ·))
    else enrichFrom fuel startItem (items ++ [item]) rest

def timeEnrich (fuel : ℕ) (path : List Item) : Res (Option (List Item)) :=
  match doZipDur path with
  | none => pure none
  | some [] => pure (some [])
  | some (item :: rest) => do
    let enriched ← enrichFrom sort fuel item [] rest
    pure (enriched.map (item :: ·))

end

end PPView.RealTime
