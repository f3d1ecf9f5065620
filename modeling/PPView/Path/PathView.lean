import Mathlib.Data.Rat.Defs
import PPView.Fault
import PPView.Library.Shift
import PPView.Plan.KeyNode

/-!
# Paths as buffers of items

`PathView.cpp`: a view owns a buffer of items and shows the first `_len` of them. The items are
objects that are only allocated when the buffer grows; a slot of it names one. Several views live
side by side, and an operation on one may read another.
-/

namespace PPView.Path

/-- `PlanItem`. -/
structure Item where
  place : Option LYPlace := none
  arvID : String := ""
  deptID : String := ""
  departTraffic : Option Int := none
  arriveTraffic : Option Int := none
  arriveTime : Int := 0
  departTime : Int := 0
  durS : Option DurS := none
  trafDate : String := ""
  arriveDate : String := ""
  departDate : String := ""
  timeZone : Rat := 8
  openTime : Int := 0
  closeTime : Int := 0
  cost : Rat := 0
  type : Nat := 0
  remindTag : String := ""
  idle : Int := 0
  hasAttach : Nat := 0

/-- What `Append` and `Insert` are given for a new item. -/
structure Fields where
  place : Option LYPlace
  arvID : String
  deptID : String
  arriveTraffic : Option Int
  departTraffic : Option Int
  arriveTime : Int
  departTime : Int
  durS : Option DurS
  trafDate : String
  openTime : Int
  closeTime : Int
  cost : Rat
  type : Nat
  timeZone : Rat

/-- The numbers that are kept beside the items. -/
structure Stat where
  score : Rat := 0
  dist : Int := 0
  time : Int := 0
  hot : Int := 0
  missLevel : Int := 0
  blank : Int := 0
  cross : Int := 0
  placeNum : Int := 0
  deleted : Bool := false
  errorStr : String := ""
  debugStr : String := ""
  dfsScore : Rat := 0
  hotValue : Rat := 0
  trafDist : Int := 0
  trafDur : Int := 0
  trafBusCnt : Int := 0
  walkDistPlus : Int := 0
  hashFrom : Nat := 0
  isValid : Bool := false

/-- `PathView`. `_capacity` is the length of `itemList`. -/
structure View where
  itemList : List ℕ := []
  len : Int := 0
  stat : Stat := {}

/-- The items that exist are those below `next`. -/
structure World (ι : Type) where
  heap : ℕ → Item
  next : ℕ
  view : ι → View

variable {ι : Type} [DecidableEq ι] (toDate : Int → Rat → String)

/-- `PlanItem::Copy` of single values. Three members of the item stay as they are. -/
def Item.fill (fields : Fields) (old : Item) : Item :=
  { old with
    place := fields.place
    arvID := fields.arvID
    deptID := fields.deptID
    arriveTraffic := fields.arriveTraffic
    departTraffic := fields.departTraffic
    trafDate := fields.trafDate
    arriveTime := fields.arriveTime
    departTime := fields.departTime
    durS := fields.durS
    timeZone := fields.timeZone
    arriveDate := toDate fields.arriveTime fields.timeZone
    departDate := toDate fields.departTime fields.timeZone
    openTime := fields.openTime
    closeTime := fields.closeTime
    cost := fields.cost
    type := fields.type }

/-- The members that such a copy leaves are those of a new item. -/
def Item.Blank (item : Item) : Prop :=
  item.remindTag = "" ∧ item.idle = 0 ∧ item.hasAttach = 0

instance (item : Item) : Decidable item.Blank := inferInstanceAs (Decidable (_ ∧ _))

namespace View

def capacity (v : View) : Int := v.itemList.length

/-- A slot of the buffer. -/
def slot (v : View) (i : Int) : Res ℕ :=
  if i < 0 then .error .arrayBound
  else
    match v.itemList[i.toNat]? with
    | some p => pure p
    | none => .error .arrayBound

/-- `Reset`. -/
def reset (v : View) : View := { v with len := 0, stat := {} }

end View

namespace World

variable (w : World ι) (i : ι)

def setView (v : View) : World ι := { w with view := Function.update w.view i v }

/-- An item is overwritten. -/
def write (p : ℕ) (x : Item) : World ι := { w with heap := Function.update w.heap p x }

/-- `GetItemIndex`. -/
def getItemIndex (index : Int) : Res (Option ℕ) :=
  if index < 0 ∨ index ≥ (w.view i).len then pure none else some <$> (w.view i).slot index

/-- `IncreaseCapacity`. -/
def increaseCapacity (length : Int) : World ι :=
  if length ≤ 0 then w
  else
    let fresh := List.range' w.next length.toNat
    { heap := fun p => if p ∈ fresh then {} else w.heap p
      next := w.next + length.toNat
      view := Function.update w.view i
        { w.view i with itemList := (w.view i).itemList ++ fresh } }

/-- Room for one more item. Three tenths are computed in floating point, which is exact enough
here. -/
def grow : World ι :=
  let v := w.view i
  if v.len ≥ v.capacity then
    w.increaseCapacity i (v.len - v.capacity + max 1 (3 * v.capacity / 10))
  else w

/-- Both kinds of `Append`: the item behind the last one becomes `f` of what it was. -/
def append (f : Item → Item) : Res (ℕ × World ι) := do
  let w := w.grow i
  let v := w.view i
  let p ← v.slot v.len
  pure (0, (w.write p (f (w.heap p))).setView i { v with len := v.len + 1 })

def insert (index : Int) (fields : Fields) : Res (ℕ × World ι) :=
  if index < 0 ∨ index ≥ (w.view i).len then pure (1, w)
  else do
    let w := w.grow i
    let v := w.view i
    let insertItem ← v.slot v.len
    let w := w.write insertItem (Item.fill toDate fields (w.heap insertItem))
    let itemList := Shift.up index.toNat (v.len - index).toNat v.itemList
    pure (0, w.setView i
      { v with itemList := itemList.set index.toNat insertItem, len := v.len + 1 })

def erase (index : Int) : Res (ℕ × World ι) :=
  let v := w.view i
  if index ≥ v.len then pure (1, w)
  else do
    let eraseItem ← v.slot index
    let itemList := Shift.down (v.len - 1 - index).toNat index.toNat v.itemList
    pure (0, w.setView i
      { v with itemList := itemList.set (v.len - 1).toNat eraseItem, len := v.len - 1 })

def pop : Res (ℕ × World ι) := w.erase i ((w.view i).len - 1)

/-- It has no result in the source either. -/
def resetLen (newLen : Int) : World ι :=
  let v := w.view i
  if newLen ≥ 0 ∧ v.len > newLen then w.setView i { v with len := newLen } else w

def reset : World ι := w.setView i (w.view i).reset

/-- The positions from `begIdx` to `endIdx`. -/
def positions (begIdx endIdx : Int) : List Int :=
  (List.range (endIdx - begIdx + 1).toNat).map fun k : ℕ => begIdx + k

/-- One round of `copyN`. Where there is no item, only an error is logged. -/
def copyNRound (src : ι) (w : World ι) (index : Int) : Res (World ι) := do
  match ← w.getItemIndex src index with
  | some p => Prod.snd <$> w.append i fun _ => w.heap p
  | none => pure w

def copyN (src : ι) (begIdx endIdx : Int) : Res (ℕ × World ι) := do
  let w ← (positions begIdx endIdx).foldlM (copyNRound i src) (w.reset i)
  pure (0, w)

/-- One round of `subN`. -/
def subNRound (src : ι) (begIdx : Int) (w : World ι) (k : ℕ) : Res (World ι) := do
  match ← w.getItemIndex src k, ← w.getItemIndex i (begIdx + k) with
  | some copyItem, some item => pure (w.write item (w.heap copyItem))
  | _, _ => pure w

/-- The items of `src` over those from `begIdx` to `endIdx`. -/
def subN (src : ι) (begIdx endIdx : Int) : Res (ℕ × World ι) :=
  let len := (w.view i).len
  if begIdx < 0 ∨ endIdx < 0 ∨ begIdx ≥ len ∨ endIdx ≥ len then pure (1, w)
  else if (w.view src).len ≠ endIdx - begIdx + 1 then pure (1, w)
  else do
    let w ← (List.range (w.view src).len.toNat).foldlM (subNRound i src begIdx) w
    pure (0, w)

/-- One round of `copy`. -/
def copyRound (src : ι) (w : World ι) (k : ℕ) : Res (World ι) := do
  match ← w.getItemIndex src k with
  | some p => do
    let q ← (w.view i).slot k
    pure (w.write q (w.heap p))
  | none => .error .nullPointer

def copy (src : ι) : Res (ℕ × World ι) := do
  let w := if (w.view i).capacity < (w.view src).len then
    w.increaseCapacity i ((w.view src).len - (w.view i).capacity) else w
  let w := w.setView i { w.view i with len := (w.view src).len, stat := (w.view src).stat }
  let w ← (List.range (w.view i).len.toNat).foldlM (copyRound i src) w
  pure (0, w)

end World

/-! ## Calls -/

/-- One call, with the view that it is on, and the view it reads. -/
inductive Call (ι : Type) where
  | appendItem (i : ι) (item : Item)
  | append (i : ι) (fields : Fields)
  | insert (i : ι) (index : Int) (fields : Fields)
  | erase (i : ι) (index : Int)
  | pop (i : ι)
  | resetLen (i : ι) (newLen : Int)
  | copyN (i src : ι) (begIdx endIdx : Int)
  | subN (i src : ι) (begIdx endIdx : Int)
  | copy (i src : ι)
  | reset (i : ι)

namespace World

def call (w : World ι) : Call ι → Res (ℕ × World ι)
  | .appendItem i item => w.append i fun _ => item
  | .append i fields => w.append i (Item.fill toDate fields)
  | .insert i index fields => w.insert toDate i index fields
  | .erase i index => w.erase i index
  | .pop i => w.pop i
  | .resetLen i newLen => pure (0, w.resetLen i newLen)
  | .copyN i src begIdx endIdx => w.copyN i src begIdx endIdx
  | .subN i src begIdx endIdx => w.subN i src begIdx endIdx
  | .copy i src => w.copy i src
  | .reset i => pure (0, w.reset i)

end World

end PPView.Path
