import PPView.Define
import PPView.Fault

/-!
# Key nodes

The fixed points of a plan: arrivals, departures, hotels and the gaps between two cities, each
with the window in which it takes place. The setters are those of `KeyNode` in `Utils.cpp`.
-/

namespace PPView

/-- A place of the catalogue; `segment` is the object `LYConstData::m_segmentPlace`. -/
inductive LYPlace where
  | segment
  | place (id : String)
  deriving DecidableEq, Repr, Inhabited

def LYPlace.ID : LYPlace → String
  | segment => "segment"
  | place id => id

/-- The durations of a stay, from the least to the most. -/
structure DurS where
  min : Int := 0
  zip : Int := 0
  rcmd : Int := 0
  extend : Int := 0
  max : Int := 0
  deriving DecidableEq, Repr, Inhabited

namespace DurS

def setMax (d : DurS) (maxDur : Int) : DurS := { d with max := maxDur }

/-- `DurS::Fix`, one assignment after the other. -/
def fix (d : DurS) : DurS :=
  let d := { d with min := Min.min d.min d.max }
  let d := { d with rcmd := Max.max d.min d.rcmd }
  let d := { d with rcmd := Min.min d.rcmd d.max }
  let d := { d with zip := Max.max d.min d.zip }
  let d := { d with zip := Min.min d.zip d.rcmd }
  let d := { d with extend := Min.min d.extend d.max }
  { d with extend := Max.max d.rcmd d.extend }

end DurS

/-! ## Functions of nodes -/

def NODE_FUNC_PLACE : Nat := 0x7f
def NODE_FUNC_KEY : Nat := 0x1073000

/-- The functions that `AddKeyNode` gives to key nodes. -/
inductive KeyFunc where
  | arrive
  | depart
  | hotelSleep
  | hotelLeftLuggage
  | hotelReclaimLuggage
  | segment
  deriving DecidableEq, Repr

/-- The constants `NODE_FUNC_KEY_*`. -/
def KeyFunc.bits : KeyFunc → Nat
  | arrive => 0x1000
  | depart => 0x2000
  | hotelSleep => 0x10000
  | hotelLeftLuggage => 0x20000
  | hotelReclaimLuggage => 0x40000
  | segment => 0x1000000

theorem KeyFunc.bits_and_place (f : KeyFunc) : f.bits &&& NODE_FUNC_PLACE = 0 := by
  cases f <;> decide

theorem KeyFunc.bits_and_key (f : KeyFunc) : f.bits &&& NODE_FUNC_KEY ≠ 0 := by
  cases f <;> decide

/-- `ADJUST_LEVEL`. -/
inductive Adjust where
  | no
  | fine
  | fix
  | min
  | halfHour
  deriving DecidableEq, Repr

structure KeyNode where
  place : LYPlace
  openTime : Int
  closeTime : Int
  latestArv : Int
  trafDate : String
  durS : DurS
  cost : Int
  type : KeyFunc
  adjustable : Adjust
  deletable : Bool
  deriving DecidableEq

namespace KeyNode

/-- The constructor. -/
def create (place : LYPlace) (openTime closeTime : Int) (trafDate : String) (durS : DurS)
    (cost : Int) (type : KeyFunc) (adjustable : Adjust) (deletable : Bool) : KeyNode where
  place := place
  openTime := openTime
  closeTime := closeTime
  latestArv := closeTime - durS.min
  trafDate := trafDate
  durS := durS
  cost := cost
  type := type
  adjustable := adjustable
  deletable := deletable

variable (k : KeyNode)

def setOpen (t : Int) : KeyNode :=
  { k with openTime := t, latestArv := k.closeTime - k.durS.min }

def setClose (t : Int) : KeyNode :=
  { k with closeTime := t, latestArv := t - k.durS.min }

def setDur (durS : DurS) : KeyNode :=
  { k with durS := durS, latestArv := k.closeTime - durS.min }

def setTrafDate (newTrafDate : String) : KeyNode := { k with trafDate := newTrafDate }

def fixDurS : KeyNode := k.setDur (k.durS.setMax (k.closeTime - k.openTime)).fix

/-- The length of the window. -/
def window : Int := k.closeTime - k.openTime

def isSegment : Bool := k.place == .segment

def isArrive : Bool := k.type == .arrive

end KeyNode

/-- A time window of a place; who arrives after `latestArv` cannot stay the least duration. -/
structure OpenClose where
  openTime : Int
  closeTime : Int
  latestArv : Int
  deriving DecidableEq, Repr

/-- `m_openCloseList` of a key node holds its own window, which the setters keep. -/
def KeyNode.openCloseList (k : KeyNode) : List (Option OpenClose) :=
  [some ⟨k.openTime, k.closeTime, k.latestArv⟩]

/-! ## Plans -/

/-- What a block knows about one of its places; null pointers are `none`. -/
structure PlaceInfo where
  arvID : String
  deptID : String
  availOpenCloseList : List (Option OpenClose)
  deriving DecidableEq, Repr

/-- The time between two key nodes, with the places that can be visited in it. -/
structure TimeBlock where
  pInfoList : List PlaceInfo
  pInfoMap : List (String × PlaceInfo)
  deriving DecidableEq, Repr

def TimeBlock.getPlaceInfo (block : TimeBlock) (id : String) : Option PlaceInfo :=
  block.pInfoMap.lookup id

/-- The members of `BasePlan` that are read here. `traffic` is `GetTraffic`, the traffic time
between two places on a date. -/
structure BasePlan where
  keyNode : List KeyNode
  traffic : String → String → String → Option Int
  ATRTimeCost : Int := 1800
  blockList : List TimeBlock := []
  durSMap : List (String × DurS) := []

end PPView
