import PPView.MyTime
import PPView.Plan.KeyNode

/-!
# Routing through a plan

`TrafRoute::DoRoute` lays the places of an order between the key nodes of a plan. The counters
`m_keyIdx` and `m_placeIdx` are the number of key nodes done and the orders that are left;
`m_lastItem` is the last item of the path.
-/

namespace PPView

/-- An entry of the order list; `isVar` says that the place is a `VarPlace`. `DoRoute` does not read
the index and the type of the node. -/
structure PlaceOrder where
  place : LYPlace
  isVar : Bool
  date : String
  index : Nat
  type : UInt8
  deriving DecidableEq, Repr

structure PlanItem where
  place : LYPlace
  arvID : String
  deptID : String
  arriveTraffic : Option Int
  departTraffic : Option Int
  arriveTime : Int
  departTime : Int
  durS : DurS
  trafDate : String
  openTime : Int
  closeTime : Int
  cost : Int
  type : Nat
  deriving DecidableEq, Repr

abbrev PathView := List PlanItem

structure TrafRoute where
  orderList : List PlaceOrder
  keyIdx : Nat := 0
  path : PathView := []
  deriving DecidableEq, Repr

namespace TrafRoute

/-- The slot of a node in the window `openClose`, as arrival and departure; `arv` is when it is
reached. A key node is moved into its window, any other node is refused. -/
def slotIn (durS : DurS) (nodeType : Nat) (latestDept arv : Int) (openClose : OpenClose) :
    Option (Int × Int) :=
  let newLatestDept := min latestDept openClose.closeTime
  let newArv := if arv < openClose.openTime then openClose.openTime else arv
  if newArv > openClose.latestArv ∧ nodeType &&& NODE_FUNC_KEY = 0 then none
  else
    let newArv := if newArv > openClose.latestArv then openClose.latestArv else newArv
    let newDept := newArv + durS.zip
    if newDept > newLatestDept ∧ nodeType &&& NODE_FUNC_KEY = 0 then none
    else
      let newDept := if newDept > newLatestDept then newLatestDept else newDept
      if nodeType &&& NODE_FUNC_PLACE = 0 then
        let newDept := newArv + durS.rcmd
        some (newArv, if newDept > newLatestDept then newLatestDept else newDept)
      else some (newArv, newDept)

/-- The first window of the list that a node fits, with its slot there. -/
def firstSlot (durS : DurS) (nodeType : Nat) (latestDept arv : Int) :
    List (Option OpenClose) → Option (OpenClose × Int × Int)
  | [] => none
  | none :: rest => firstSlot durS nodeType latestDept arv rest
  | some openClose :: rest =>
    match slotIn durS nodeType latestDept arv openClose with
    | some slot => some (openClose, slot)
    | none => firstSlot durS nodeType latestDept arv rest

/-- When a node between two key nodes is left at the latest; a place waits for the traffic to
the next key node and its duration. -/
def latestDept (plan : BasePlan) (fromKey toKey : KeyNode) (nodeType : Nat) (deptID : String) :
    Option Int :=
  if nodeType &&& NODE_FUNC_PLACE ≠ 0 then
    (plan.traffic deptID toKey.place.ID fromKey.trafDate).map
      (toKey.closeTime - toKey.durS.zip - ·)
  else some toKey.closeTime

/-- A node behind the last one, whose traffic on departure becomes known. -/
def appendItem (path : PathView) (lastItem item : PlanItem) : PathView :=
  path.dropLast ++ [{ lastItem with departTraffic := item.arriveTraffic }, item]

/-- `ExpandNode`; the result 1 stands for failure, here and in the callers. -/
def expandNode (plan : BasePlan) (place : LYPlace) (durS : DurS) (nodeType : Nat)
    (arvID deptID : String) (openCloseList : List (Option OpenClose)) (r : TrafRoute) :
    Res (Nat × TrafRoute) :=
  if openCloseList = [] then pure (1, r)
  else if r.keyIdx = 0 then
    match plan.keyNode[0]? with
    | none => .error .nullPointer
    | some keynode => pure (0, { r with path := r.path ++ [{
        place := keynode.place
        arvID := keynode.place.ID
        deptID := keynode.place.ID
        arriveTraffic := none
        departTraffic := none
        arriveTime := keynode.openTime
        departTime := keynode.closeTime
        durS := keynode.durS
        trafDate := keynode.trafDate
        openTime := keynode.openTime
        closeTime := keynode.closeTime
        cost := keynode.cost
        type := nodeType }] })
  else
    match plan.keyNode[r.keyIdx - 1]?, plan.keyNode[r.keyIdx]?, r.path.getLast? with
    | some fromKey, some toKey, some lastItem =>
      match latestDept plan fromKey toKey nodeType deptID,
        plan.traffic lastItem.deptID arvID fromKey.trafDate with
      | some latestDept, some arvTraf =>
        match firstSlot durS nodeType latestDept (lastItem.departTime + arvTraf) openCloseList with
        | none => pure (1, r)
        | some (openClose, newArv, newDept) => pure (0, { r with path := appendItem r.path lastItem {
            place := place
            arvID := arvID
            deptID := deptID
            arriveTraffic := some arvTraf
            departTraffic := none
            arriveTime := newArv
            departTime := newDept
            durS := durS
            trafDate := fromKey.trafDate
            openTime := openClose.openTime
            closeTime := openClose.closeTime
            cost := 0
            type := nodeType } })
      | _, _ => pure (1, r)
    | _, _, _ => .error .nullPointer

/-- The loop of `ExpandBlock` over the orders. -/
def expandPlaces (plan : BasePlan) (lastKey : KeyNode) (block : TimeBlock) :
    List PlaceOrder → TrafRoute → Res (Nat × TrafRoute)
  | [], r => pure (0, r)
  | order :: orders, r =>
    if order.date ≠ lastKey.trafDate then pure (0, r)
    else if !order.isVar then expandPlaces plan lastKey block orders { r with orderList := orders }
    else match block.getPlaceInfo order.place.ID, plan.durSMap.lookup order.place.ID with
      | some pInfo, some durSP => do
        let (ret, r) ← expandNode plan order.place durSP NODE_FUNC_PLACE pInfo.arvID pInfo.deptID
          pInfo.availOpenCloseList r
        if ret ≠ 0 then pure (ret, r)
        else expandPlaces plan lastKey block orders { r with orderList := orders }
      | _, _ => pure (1, r)

def expandBlock (plan : BasePlan) (r : TrafRoute) : Res (Nat × TrafRoute) :=
  match plan.keyNode[r.keyIdx - 1]?, plan.blockList[r.keyIdx - 1]? with
  | some lastKey, some block =>
    if block.pInfoList = [] then pure (0, r)
    else expandPlaces plan lastKey block r.orderList r
  | _, _ => pure (1, r)

def dateBytes (date : String) : Str := date.toUTF8.data.toList

/-- How many days the next order lies before the key node. -/
def ordersMissed (keyNode : KeyNode) : List PlaceOrder → Res Int
  | [] => pure 0
  | order :: _ => MyTime.compareDayStr (dateBytes order.date) (dateBytes keyNode.trafDate)

/-- `ExpandKeynode` for the key node number `m_keyIdx`. -/
def expandKeynode (plan : BasePlan) (keyNode : KeyNode) (r : TrafRoute) :
    Res (Nat × TrafRoute) := do
  let missed ← ordersMissed keyNode r.orderList
  if missed > 0 then pure (1, r)
  else do
    let (ret, r) ← expandNode plan keyNode.place keyNode.durS keyNode.type.bits keyNode.place.ID
      keyNode.place.ID keyNode.openCloseList r
    if ret ≠ 0 then pure (ret, r) else pure (0, { r with keyIdx := r.keyIdx + 1 })

/-- The loop of `DoRoute` over the key nodes that are left. -/
def expandKeys (plan : BasePlan) : List KeyNode → TrafRoute → Res (Nat × TrafRoute)
  | [], r => pure (0, r)
  | keyNode :: keys, r => do
    let (ret, r) ← expandKeynode plan keyNode r
    if ret ≠ 0 then pure (ret, r)
    else if keys = [] then pure (0, r)
    else do
      let (ret, r) ← expandBlock plan r
      if ret ≠ 0 then pure (ret, r) else expandKeys plan keys r

/-- `DoRoute` on an empty path. -/
def doRoute (plan : BasePlan) (orderList : List PlaceOrder) : Res (Nat × PathView) := do
  let (ret, r) ← expandKeys plan plan.keyNode { orderList := orderList }
  if ret ≠ 0 ∨ r.orderList ≠ [] ∨ r.keyIdx < plan.keyNode.length then pure (1, r.path)
  else pure (0, r.path)

end TrafRoute

end PPView
