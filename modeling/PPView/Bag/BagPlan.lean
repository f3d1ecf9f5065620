import Mathlib.Data.BitVec
import PPView.Plan.KeyNode

/-!
# Plans over numbered places

`BagPlan` numbers the places of a plan: the key nodes come first, the other places behind them.
A place is then a position `vPos` and a block a position `bPos`.
-/

namespace PPView

/-- `TRAF_MODE`. -/
inductive TrafMode where
  | taxi
  | walking
  | bus
  | uber
  | driving
  deriving DecidableEq, Repr

structure TrafficItem where
  time : Int
  dist : Int
  mode : TrafMode
  deriving DecidableEq, Repr

/-! ## Types of nodes -/

def NODE_FUNC_NULL : UInt8 := 0
def NODE_FUNC_PLACE_REST_LUNCH : UInt8 := 0x2
def NODE_FUNC_PLACE_REST_SUPPER : UInt8 := 0x8
def NODE_FUNC_PLACE_RESTAURANT : UInt8 := 0xf
def NODE_FUNC_PLACE_VIEW_SHOP : UInt8 := 0x30

def isRestaurant (vType : UInt8) : Bool := vType &&& NODE_FUNC_PLACE_RESTAURANT != 0

abbrev Bit160 := BitVec 160

/-! ## The tables of a plan -/

/-- The members of `BagPlan` that are read here. `placeT` is `_t` of a place, `durS` is `GetDurS`
for a place without an entry of its own, and `trafficItem` is `GetTraffic` with all the members of
the item. -/
structure BagTables extends BasePlan where
  posPList : List LYPlace
  placeT : LYPlace → Nat
  vTypeList : List UInt8
  bidPList : List Bit160
  trafDate : List String
  durS : LYPlace → DurS
  trafficItem : String → String → String → Option TrafficItem

namespace BagTables

variable (plan : BagTables)

def nodeNum : Nat := plan.posPList.length

def blockNum : Nat := plan.blockList.length

def getPosPlace (vPos : Nat) : Option LYPlace := plan.posPList[vPos]?

def getPosBid (vPos : Nat) : Bit160 :=
  if vPos < plan.nodeNum then plan.bidPList.getD vPos 0 else 0

def getPosTraf (bPos iPos jPos : Nat) : Option TrafficItem :=
  if bPos ≥ plan.blockNum then none
  else
    match plan.posPList[iPos]?, plan.posPList[jPos]? with
    | some fromPlace, some toPlace =>
      if !fromPlace.ID.isEmpty && !toPlace.ID.isEmpty then
        plan.trafficItem fromPlace.ID toPlace.ID (plan.trafDate.getD bPos "")
      else none
    | _, _ => none

def getVType (bPos vPos : Nat) : UInt8 :=
  if bPos ≥ plan.blockNum ∨ vPos ≥ plan.nodeNum then NODE_FUNC_NULL
  else plan.vTypeList.getD (bPos * plan.nodeNum + vPos) NODE_FUNC_NULL

def getZipDur (place : LYPlace) : Int :=
  match plan.durSMap.lookup place.ID with
  | none => (plan.durS place).zip
  | some durS => durS.zip

/-- The windows that a search in the block finds for the place. -/
def windowsOf (block : TimeBlock) (place : LYPlace) : List (Option OpenClose) :=
  match block.getPlaceInfo place.ID with
  | some pInfo => pInfo.availOpenCloseList
  | none => []

end BagTables

/-- A plan. Null windows stand for the missing meal of a restaurant, so no other place has one. -/
structure BagPlan extends BagTables where
  traffic_eq : ∀ ida idb date,
    traffic ida idb date = (trafficItem ida idb date).map TrafficItem.time
  windows_ne_null : ∀ bPos vPos block place, blockList[bPos]? = some block →
    posPList[vPos]? = some place → !isRestaurant (toBagTables.getVType bPos vPos) →
    none ∉ BagTables.windowsOf block place

end PPView
