import PPView.RealTime.PathUtil

/-!
# Replacing the traffic of a path

`RealTimeTraffic.cpp`: the segments between the key items are squeezed, re-timed with the new
travel times and stretched, one after another, and put back where that works.
-/

namespace PPView.RealTime

/-- A key item between two segments. Those of the luggage are inside of one. -/
def Item.isCut (p : Item) : Bool := p.isKey && !p.isLuggage

section

-- `BasePlan::GetTraffic`, by both ends and the date
variable (getTraffic : String → String → String → Option TrafficItem)

/-- The traffic that takes the place of `trafItem`. -/
def newTraffic (trafItem : Option TrafficItem) (date : String) : Option TrafficItem :=
  trafItem.map fun item => (getTraffic item.startP item.stopP date).getD item

/-- The loop of `ChangeTrafPos` behind `lastItem`, with the result for `lastItem` in front. -/
def changeTrafPosFrom (lastItem : Item) : List Item → Option (List Item)
  | [] => some [lastItem]
  | curItem :: rest =>
    let newTrafItem := newTraffic getTraffic curItem.arriveTraffic lastItem.trafDate
    let arvTime := max (lastItem.departTime + trafTime newTrafItem) curItem.openTime
    let deptTime :=
      if curItem.isCut then max (arvTime + curItem.durS.min) curItem.closeTime
      else arvTime + curItem.getDur
    if deptTime > curItem.closeTime then none
    else
      ({ lastItem with departTraffic := newTrafItem } :: ·) <$>
        changeTrafPosFrom { curItem.setTimes arvTime deptTime with arriveTraffic := newTrafItem }
          rest

/-- The loop of `ChangeTrafRev` from the end to `curItem`, with the results for `curItem` and for
the items behind it. -/
def changeTrafRevFrom (curItem : Item) : List Item → Option (Item × List Item)
  | [] => some (curItem, [])
  | nextItem :: rest => do
    let (nextItem, rest) ← changeTrafRevFrom nextItem rest
    let newTrafItem := newTraffic getTraffic curItem.departTraffic curItem.trafDate
    let deptTime := min (nextItem.arriveTime - trafTime newTrafItem) curItem.closeTime
    let arvTime :=
      if curItem.isCut then min (deptTime - curItem.durS.min) curItem.arriveTime
      else deptTime - curItem.getDur
    if curItem.isCut ∧ arvTime < curItem.arriveTime then none
    else if arvTime < curItem.openTime then none
    else some ({ curItem.setTimes arvTime deptTime with departTraffic := newTrafItem },
      { nextItem with arriveTraffic := newTrafItem } :: rest)

def changeTraf : List Item → Option (List Item)
  | [] => none
  | item :: rest =>
    if ((item :: rest).getLast (List.cons_ne_nil item rest)).placeType &&& LY_PLACE_TYPE_ARRIVE ≠ 0
    then (fun out => out.1 :: out.2) <$> changeTrafRevFrom getTraffic item rest
    else changeTrafPosFrom getTraffic item rest

variable (sort : (ℕ → ℕ → Bool) → List ℕ → List ℕ)

def replace (fuel : ℕ) (path : List Item) : Res (Option (List Item)) :=
  match (doZipDur path).bind (changeTraf getTraffic) with
  | none => pure none
  | some path => timeEnrich sort fuel path

/-- `ModLuggageHotel`, from where the last key item opens at `lastOpen`: an item of the luggage is
open from when the key item before it opens till the one behind it closes. -/
def modLuggageHotelFrom (lastOpen : Option Int) : List Item → List Item
  | [] => []
  | item :: rest =>
    if item.isKey then
      let curItem :=
        if item.isLuggage then
          { item with
            openTime := lastOpen.getD item.openTime
            closeTime := ((rest.find? Item.isKey).map Item.closeTime).getD item.closeTime }
        else item
      curItem :: modLuggageHotelFrom (some curItem.openTime) rest
    else item :: modLuggageHotelFrom lastOpen rest

def modLuggageHotel (path : List Item) : List Item := modLuggageHotelFrom none path

/-- `PathView::CopyN` to an empty path. -/
def copyN (path : List Item) (begIdx endIdx : ℕ) : List Item :=
  (path.drop begIdx).take (endIdx + 1 - begIdx)

/-- `PathView::SubN`. -/
def subN (path other : List Item) (begIdx endIdx : ℕ) : List Item :=
  if begIdx ≥ path.length ∨ endIdx ≥ path.length ∨ other.length ≠ endIdx - begIdx + 1 then path
  else path.take begIdx ++ other ++ path.drop (begIdx + other.length)

/-- The body of the loop of `DoReplace`. -/
def replaceRound (fuel : ℕ) (state : Option ℕ × List Item) (endIdx : ℕ) :
    Res (Option ℕ × List Item) :=
  let (begIdx, path) := state
  match path[endIdx]? with
  | none => .error .nullPointer
  | some item =>
    if ¬ item.isCut then pure (begIdx, path)
    else
      match begIdx with
      | none => pure (some endIdx, path)
      | some begIdx => do
        let tmpPath ← replace getTraffic sort fuel (copyN path begIdx endIdx)
        pure (some endIdx, tmpPath.elim path fun tmpPath => subN path tmpPath begIdx endIdx)

/-- `DoReplace` when the traffic has been fetched. It returns 0. -/
def doReplace (fuel : ℕ) (path : List Item) : Res (List Item) := do
  let (_, path) ← (List.range path.length).foldlM (replaceRound getTraffic sort fuel)
    (none, modLuggageHotel path)
  pure path

end

end PPView.RealTime
