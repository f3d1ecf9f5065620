import PPView.BagParam
import PPView.Bag.SPathHeap

/-!
# The search within a day

`DFS` tries the orders of the places that a rich path puts into one block. `DayNodes` holds what
`Init` computes: the nodes are the key node in front of the block, the places in ascending
position, and the key node behind. `Walk` is the part of the state that belongs to the order tried
so far.

A search that runs out of `fuel` reports `outOfFuel`, which the source has no counterpart of.
`timeOut` says what `IsDFSTimeOut` answers in each step of this search.
-/

namespace PPView

structure DayNodes where
  bPos : Nat
  vPosList : List Nat
  vType : List UInt8
  blockRestNeed : UInt8
  traf : Nat → Nat → Option TrafficItem
  zipDurList : List Int := []
  openCloseList : List (List (Option OpenClose)) := []
  start : Int := 0
  stop : Int := 0

namespace DayNodes

/-! ## The nodes of a day -/

/-- The nodes that are restaurants. -/
def restIdxs (vType : List UInt8) : List Nat :=
  (List.range vType.length).filter fun i => isRestaurant (vType.getD i NODE_FUNC_NULL)

/-- `firstRestIdx` and `secondRestIdx`, which is the last one behind the first. -/
def restIdx (vType : List UInt8) : Option Nat × Option Nat :=
  ((restIdxs vType).head?, (restIdxs vType).tail.getLast?)

/-- Of two restaurants one is for lunch and one for supper, if one of them is for one meal only. -/
def fixRestTypes (vType : List UInt8) : List UInt8 :=
  match restIdx vType with
  | (some firstRestIdx, some secondRestIdx) =>
    let firstRestType := vType.getD firstRestIdx NODE_FUNC_NULL
    let secondRestType := vType.getD secondRestIdx NODE_FUNC_NULL
    if firstRestType = NODE_FUNC_PLACE_REST_LUNCH then
      vType.set secondRestIdx NODE_FUNC_PLACE_REST_SUPPER
    else if firstRestType = NODE_FUNC_PLACE_REST_SUPPER then
      vType.set secondRestIdx NODE_FUNC_PLACE_REST_LUNCH
    else if secondRestType = NODE_FUNC_PLACE_REST_LUNCH then
      vType.set firstRestIdx NODE_FUNC_PLACE_REST_SUPPER
    else if secondRestType = NODE_FUNC_PLACE_REST_SUPPER then
      vType.set firstRestIdx NODE_FUNC_PLACE_REST_LUNCH
    else vType
  | _ => vType

/-- The type of a node that may be missing. -/
def restType (vType : List UInt8) : Option Nat → UInt8
  | some idx => vType.getD idx NODE_FUNC_NULL
  | none => NODE_FUNC_NULL

def zipDurOf (plan : BagPlan) (place : LYPlace) : Int :=
  if plan.placeT place &&& (LY_PLACE_TYPE_VIEW ||| LY_PLACE_TYPE_RESTAURANT ||| LY_PLACE_TYPE_SHOP
      ||| LY_PLACE_TYPE_TOURALL ||| LY_PLACE_TYPE_VIEWTICKET) ≠ 0 then plan.getZipDur place
  else -1

/-- `Init4Clash`; `none` stands for the result 1, here and in `init`. -/
def init4Clash (plan : BagPlan) (day : DayNodes) : Option DayNodes := do
  let block ← plan.blockList[day.bPos]?
  let fromKey ← plan.keyNode[day.bPos]?
  let toKey ← plan.keyNode[day.bPos + 1]?
  let places ← day.vPosList.mapM plan.getPosPlace
  pure { day with
    zipDurList := places.map (zipDurOf plan)
    openCloseList := places.map (BagTables.windowsOf block)
    start := fromKey.closeTime
    stop := toKey.closeTime - toKey.durS.zip }

/-- `Init`. -/
def init (plan : BagPlan) (richPath : SPath) (blockIdx : Nat) : Option DayNodes :=
  let vPosList := (richPath.posList blockIdx).insertionSort (· ≤ ·)
  if vPosList.length + 2 > dayNodeLimit then none
  else
    let vPosList := blockIdx :: vPosList ++ [blockIdx + 1]
    let vType := vPosList.map (plan.getVType blockIdx)
    let restIdx := restIdx vType
    let vType := fixRestTypes vType
    init4Clash plan {
      bPos := blockIdx
      vPosList := vPosList
      vType := vType
      blockRestNeed := restType vType restIdx.1 ||| restType vType restIdx.2
      traf := fun i j => plan.getPosTraf blockIdx (vPosList.getD i 0) (vPosList.getD j 0) }

variable (day : DayNodes)

def nodeNum : Nat := day.vPosList.length

def vPosAt (idx : Nat) : Nat := day.vPosList.getD idx 0

def vTypeAt (idx : Nat) : UInt8 := day.vType.getD idx NODE_FUNC_NULL

/-- The nodes between the two key nodes. -/
def inner : List Nat := List.range' 1 (day.nodeNum - 2)

/-! ## The clash of an order -/

/-- What the windows of a node make of an arrival: `CalClash` returns 1, the node is not planned,
or it is left at `dept`. `firstL` says that a meal is waited for at the start of the day. -/
inductive Stay where
  | lost
  | unplanned
  | planned (dept : Int) (leftRestNeed : UInt8) (firstL : Bool)
  deriving DecidableEq

/-- The first window of a restaurant is for lunch and the second for supper; one whose meal is not
needed any more is skipped. -/
def skipsMeal (leftRestNeed : UInt8) (j : Nat) : Bool :=
  (j == 0 && leftRestNeed &&& NODE_FUNC_PLACE_REST_LUNCH == 0) ||
    (j == 1 && leftRestNeed &&& NODE_FUNC_PLACE_REST_SUPPER == 0)

def takeMeal (isRest : Bool) (leftRestNeed : UInt8) (j : Nat) : UInt8 :=
  if !isRest then leftRestNeed
  else if j = 0 then leftRestNeed &&& ~~~NODE_FUNC_PLACE_REST_LUNCH
  else if j = 1 then leftRestNeed &&& ~~~NODE_FUNC_PLACE_REST_SUPPER
  else leftRestNeed

/-- The loop of `CalClash` over the windows of node `idx`, which is number `i` of the order. -/
def stay (i idx : Nat) (arv : Int) (leftRestNeed : UInt8) :
    (j : Nat) → List (Option OpenClose) → Res Stay
  | _, [] => pure .unplanned
  | j, window :: rest =>
    let isRest := isRestaurant (day.vTypeAt idx)
    if isRest && (window.isNone || skipsMeal leftRestNeed j) then
      stay i idx arv leftRestNeed (j + 1) rest
    else
      match window with
      | none => .error .nullPointer
      | some openClose =>
        let newArv := max arv openClose.openTime
        let zipDur := day.zipDurList.getD idx 0
        if zipDur = -1 then pure .lost
        else
          let newDept := newArv + zipDur
          if newDept > openClose.closeTime then stay i idx arv leftRestNeed (j + 1) rest
          else if newDept > day.stop then pure .unplanned
          else
            pure (.planned newDept (takeMeal isRest leftRestNeed j)
              (i == 1 && isRest && newArv - arv > 3600))

/-- The loop of `CalClash` over the order; the result `none` stands for 1, any other is the clash
with `firstL`. -/
def clashFrom (plan : BagPlan) : (i idxLast : Nat) → (offset : Int) → (leftRestNeed : UInt8) →
    (firstL : Int) → List Nat → Res (Option (Int × Int))
  | _, _, _, _, firstL, [] => pure (some (0, firstL))
  | i, idxLast, offset, leftRestNeed, firstL, idx :: rest =>
    match plan.getPosTraf day.bPos (day.vPosAt idxLast) (day.vPosAt idx) with
    | none => pure none
    | some trafItem =>
      let arv := offset + trafItem.time
      if rest = [] then pure (some (if arv > day.stop then 1 else 0, firstL))
      else do
        match ← day.stay i idx arv leftRestNeed 0 (day.openCloseList.getD idx []) with
        | .lost => pure none
        | .unplanned => pure (some (1, firstL))
        | .planned dept leftRestNeed first =>
          clashFrom plan (i + 1) idx dept leftRestNeed (if first then 1 else firstL) rest

/-- `CalClash`. -/
def calClash (plan : BagPlan) : List Nat → Res (Option (Int × Int))
  | [] => pure (some (0, 0))
  | first :: rest => day.clashFrom plan 1 first day.start day.blockRestNeed 0 rest

end DayNodes

/-! ## The order tried so far -/

structure Walk where
  path : List Nat
  totDist : Int := 0
  nonWalkCnt : Int := 0
  walkDist : Int := 0
  leftRestNeed : UInt8
  deriving DecidableEq

namespace Walk

def lastIdx (w : Walk) : Nat := w.path.getLastD 0

def nonWalk (trafItem : TrafficItem) : Int := if trafItem.mode = .walking then 0 else 1

def walk (trafItem : TrafficItem) : Int := if trafItem.mode = .walking then trafItem.dist else 0

def enter (w : Walk) (idx : Nat) (trafItem : TrafficItem) : Walk :=
  { w with
    path := w.path ++ [idx]
    totDist := w.totDist + trafItem.dist
    nonWalkCnt := w.nonWalkCnt + nonWalk trafItem
    walkDist := w.walkDist + walk trafItem }

def leave (w : Walk) (trafItem : TrafficItem) : Walk :=
  { w with
    path := w.path.dropLast
    totDist := w.totDist - trafItem.dist
    nonWalkCnt := w.nonWalkCnt - nonWalk trafItem
    walkDist := w.walkDist - walk trafItem }

/-- `GetScore`. -/
def getScore (param : BagParam) (w : Walk) (firstL : Int := 0) : Int :=
  -1 * (w.totDist + max (w.nonWalkCnt - 1) 0 * param.nonWalkPenalty
    + max (w.walkDist - param.maxWalkDay) 0 + firstL * param.firstLPenalty)

/-- The path that `PushPath` makes of a complete order. -/
def sPath (param : BagParam) (plan : BagPlan) (day : DayNodes) (w : Walk) (clash firstL : Int) :
    SPath :=
  let sPath := w.path.tail.dropLast.foldl (fun sPath idx => sPath.pushV day.bPos (day.vPosAt idx))
    (SPath.init plan)
  ((((sPath.setDist w.totDist).setClash clash).setFirstL firstL).setScore
    (w.getScore param firstL)).calHashPointOrder

/-- The meals still needed behind a restaurant of type `vType`; `none` where `SearchRest` does
not go there. -/
def restNeedAfter (leftRestNeed vType : UInt8) : Option UInt8 :=
  if (leftRestNeed &&& NODE_FUNC_PLACE_REST_LUNCH ≠ 0 ∧ vType &&& NODE_FUNC_PLACE_REST_LUNCH = 0)
      ∨ (leftRestNeed = NODE_FUNC_PLACE_REST_SUPPER ∧ vType &&& NODE_FUNC_PLACE_REST_SUPPER = 0)
  then none
  else if leftRestNeed &&& NODE_FUNC_PLACE_REST_LUNCH ≠ 0 then
    some (leftRestNeed &&& ~~~NODE_FUNC_PLACE_REST_LUNCH)
  else if leftRestNeed &&& NODE_FUNC_PLACE_REST_SUPPER ≠ 0 then
    some (leftRestNeed &&& ~~~NODE_FUNC_PLACE_REST_SUPPER)
  else none

end Walk

/-! ## The search -/

structure DFS extends Walk where
  visited : Nat → Bool
  heap : SPathHeap
  sCnt : Nat := 0
  tCnt : Nat := 0

namespace DFS

def enter (s : DFS) (idx : Nat) (trafItem : TrafficItem) : DFS :=
  { s with toWalk := s.toWalk.enter idx trafItem, visited := Function.update s.visited idx true }

def leave (s : DFS) (idx : Nat) (trafItem : TrafficItem) : DFS :=
  { s with toWalk := s.toWalk.leave trafItem, visited := Function.update s.visited idx false }

variable (param : BagParam) (timeOut : Nat → Bool) (plan : BagPlan) (day : DayNodes)

/-- The test in front of each pruned part; it passes where the search does not prune. -/
def canPush (s : DFS) : Bool := param.dfsDbg != 0 || s.heap.canPush (s.getScore param)

def pushPath (s : DFS) : Res DFS :=
  if !s.canPush param then pure s
  else do
    match ← day.calClash plan s.path with
    | none => pure s
    | some (clash, firstL) =>
      pure { s with heap := s.heap.push (s.toWalk.sPath param plan day clash firstL) }

/-- The end of an order: the second key node is entered, the path pushed, and the key node left
again. -/
def pushLast (s : DFS) : Res DFS :=
  let tailIdx := day.nodeNum - 1
  match day.traf s.lastIdx tailIdx with
  | none => pure s
  | some trafItem => do
    let s ← (s.enter tailIdx trafItem).pushPath param plan day
    pure (s.leave tailIdx trafItem)

/-- `SearchView`; `search` is the recursive call, here and in `SearchRest`. -/
def searchView (search : DFS → Res DFS) (s : DFS) (idx : Nat) : Res DFS :=
  match day.traf s.lastIdx idx with
  | none => pure s
  | some trafItem => do
    let s ← search (s.enter idx trafItem)
    pure (s.leave idx trafItem)

def searchRest (search : DFS → Res DFS) (s : DFS) (idx : Nat) : Res DFS :=
  match day.traf s.lastIdx idx with
  | none => pure s
  | some trafItem =>
    match Walk.restNeedAfter s.leftRestNeed (day.vTypeAt idx) with
    | none => pure s
    | some leftRestNeed => do
      let oriRNeed := s.leftRestNeed
      let s := { s with leftRestNeed := leftRestNeed }
      let s ← search (s.enter idx trafItem)
      let s := s.leave idx trafItem
      pure { s with leftRestNeed := oriRNeed }

/-- The body of the loop over the nodes. -/
def searchNode (search : DFS → Res DFS) (s : DFS) (idx : Nat) : Res DFS :=
  if s.visited idx then pure s
  else if isRestaurant (day.vTypeAt idx) then searchRest day search s idx
  else searchView day search s idx

/-- `Search`, whose result no caller looks at. -/
def search : (fuel : Nat) → DFS → Res DFS
  | 0, _ => .error .outOfFuel
  | fuel + 1, s =>
    let s := { s with sCnt := s.sCnt + 1 }
    if s.sCnt > 20000 ∧ timeOut (s.tCnt + s.sCnt) then pure s
    else
      let s := if s.sCnt > 20000 then { s with sCnt := 0, tCnt := s.tCnt + 20000 } else s
      if s.path.length + 1 ≥ day.nodeNum then s.pushLast param plan day
      else if !s.canPush param then pure s
      else day.inner.foldlM (searchNode day (search fuel)) s

/-- The state in which `DoSearch` starts the search. -/
def start : DFS where
  path := [0]
  leftRestNeed := day.blockRestNeed
  visited := Function.update (fun _ => false) 0 true
  heap := { topK := param.dfsDayHeapLimit, topK_pos := param.dfsDayHeapLimit_pos }

/-- `DoSearch`: its result and the paths that `CopyVal` takes from the heap. -/
def doSearch (richPath : SPath) (blockIdx : Nat) : Res (Nat × List SPath) :=
  match DayNodes.init plan richPath blockIdx with
  | none => pure (1, [])
  | some day => do
    let s ← search param timeOut plan day day.nodeNum (start param day)
    pure (0, s.heap.queue)

end DFS

end PPView
