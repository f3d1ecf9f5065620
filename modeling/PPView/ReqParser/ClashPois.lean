import Mathlib.Data.Finset.Basic
import PPView.Library.Repeats
import PPView.PostProcessor.SummaryDays
import PPView.PrivateData.Place

/-!
# Clashes between dated places

`ReqParser::DealClashOfSpecialPois` removes tours and car stores that clash with other places of
their day. Whenever it removes an earlier tour it calls itself on the places up to the present one.
-/

namespace PPView.ReqParser

open PostProcessor PrivateData

/-! ## Places -/

/-- A place that stands for a car store is a view, as `ParseCarStore` makes it. -/
structure ClashPlace where
  ID : String
  t : Int
  rawPlace : Option String
  disguised : rawPlace.isSome → t = LY_PLACE_TYPE_VIEW
  deriving DecidableEq

namespace ClashPlace

def isTour (place : ClashPlace) : Bool := hasType place.t LY_PLACE_TYPE_TOURALL

def isArrive (place : ClashPlace) : Bool := hasType place.t LY_PLACE_TYPE_ARRIVE

def isCarStore (place : ClashPlace) : Bool := place.rawPlace.isSome

end ClashPlace

structure PlaceOrder where
  place : ClashPlace
  date : String
  index : Int
  type : UInt8
  deriving DecidableEq

/-- What is known of the places, and those that are removed, in the order of their removal. -/
structure ClashPlan where
  m_userMustPlaceSet : Finset ClashPlace
  m_PlaceDateMap : String → Option (Finset String)
  m_UserDurMap : String → Option Int
  m_vPlaceOpenMap : String → Option (Int × Int)
  m_userDelSet : Finset ClashPlace
  delPoisSet : List ClashPlace

def eraseKey {β : Type} (key : String) (map : String → Option β) : String → Option β :=
  fun k => if k = key then none else map k

def delClashPois (place : ClashPlace) (plan : ClashPlan) : ClashPlan :=
  let plan := if place ∈ plan.m_userMustPlaceSet then
      { plan with
        m_userMustPlaceSet := plan.m_userMustPlaceSet.erase place
        m_PlaceDateMap := eraseKey place.ID plan.m_PlaceDateMap }
    else plan
  let plan := { plan with
    m_UserDurMap := eraseKey place.ID plan.m_UserDurMap
    m_vPlaceOpenMap := eraseKey place.ID plan.m_vPlaceOpenMap }
  if place ∈ plan.delPoisSet then plan
  else { plan with
    delPoisSet := plan.delPoisSet ++ [place]
    m_userDelSet := insert place plan.m_userDelSet }

/-! ## The scan -/

variable (dayTime : String → Int)

/-- The times of a place on the day, if it has any. -/
def timesOn (plan : ClashPlan) (date : String) (order : PlaceOrder) : Option (Int × Int) :=
  (plan.m_vPlaceOpenMap order.place.ID).map fun timePair =>
    (dayTime date + timePair.1, dayTime date + timePair.2)

/-- The places before that are still there and stand to the present one as `rel` says. -/
def placesBefore (plan : ClashPlan) (date : String) (pre : List PlaceOrder)
    (rel : Int × Int → Bool) : List PlaceOrder :=
  pre.filter fun lastOrder => date = lastOrder.date ∧ lastOrder.place ∉ plan.delPoisSet ∧
    (timesOn dayTime plan date lastOrder).any rel

section

variable (inner : List PlaceOrder → ClashPlan → Option ClashPlan) (pre : List PlaceOrder)
  (order : PlaceOrder)

/-- The loop over the places that the present one is reversed to or overlaps, from the last one. -/
def clashLoop : List PlaceOrder → ClashPlan → Option ClashPlan
  | [], plan => some plan
  | placeOrder :: placeOrders, plan =>
    if placeOrder.place.isTour then do
      let plan ← inner ((pre ++ [order]).filter (· ≠ placeOrder))
        (delClashPois placeOrder.place plan)
      clashLoop placeOrders plan
    else
      let plan := if order.place.isCarStore then delClashPois order.place plan else plan
      let plan := if placeOrder.place.isCarStore ∧ order.place.isArrive then
          delClashPois placeOrder.place plan
        else plan
      clashLoop placeOrders plan

def dealList (list : List PlaceOrder) (plan : ClashPlan) : Option ClashPlan :=
  if list.isEmpty then some plan
  else if order.place.isTour then some (delClashPois order.place plan)
  else clashLoop inner pre order list.reverse plan

/-- The body of the loop, for the place `order` behind the places `pre`. -/
def checkOrder (plan : ClashPlan) : Option ClashPlan :=
  let date := (pre.getLast?.getD order).date
  let date := if date ≠ order.date then order.date else date
  match timesOn dayTime plan date order with
  | none => some plan
  | some (start, fin) => do
    let inversePlaceOrderList := placesBefore dayTime plan date pre fun last => last.1 ≥ fin
    let overlapPlaceOrderList := placesBefore dayTime plan date pre fun last =>
      last.1 < fin ∧ start < last.2
    let plan ← dealList inner pre order inversePlaceOrderList plan
    dealList inner pre order overlapPlaceOrderList plan

end

/-- The loop over the places, of which `pre` are behind it. -/
def dealOrders (inner : List PlaceOrder → ClashPlan → Option ClashPlan) :
    List PlaceOrder → List PlaceOrder → ClashPlan → Option ClashPlan
  | _, [], plan => some plan
  | pre, order :: orderList, plan => do
    dealOrders inner (pre ++ [order]) orderList (← checkOrder dayTime inner pre order plan)

/-- `none` if the calls go deeper than `depth`. -/
def dealClashOfSpecialPois : ℕ → List PlaceOrder → ClashPlan → Option ClashPlan
  | 0, _, _ => none
  | depth + 1, orderList, plan =>
    if orderList.length = 1 then some plan
    else dealOrders dayTime (dealClashOfSpecialPois depth) [] orderList plan

/-! ## Removals -/

variable {place place' : ClashPlace} {plan : ClashPlan}

theorem delPoisSet_del (place : ClashPlace) (plan : ClashPlan) :
    (delClashPois place plan).delPoisSet =
      if place ∈ plan.delPoisSet then plan.delPoisSet else plan.delPoisSet ++ [place] := by
  rw [delClashPois]
  split_ifs <;> rfl

theorem mem_del : place' ∈ (delClashPois place plan).delPoisSet ↔
    place' ∈ plan.delPoisSet ∨ place' = place := by
  rw [delPoisSet_del]
  split_ifs with h
  · exact ⟨.inl, fun h' => h'.elim id fun heq => heq ▸ h⟩
  · simp

theorem vPlaceOpenMap_del (place : ClashPlace) (plan : ClashPlan) :
    (delClashPois place plan).m_vPlaceOpenMap = eraseKey place.ID plan.m_vPlaceOpenMap := by
  rw [delClashPois]
  split_ifs <;> rfl

theorem userDurMap_del (place : ClashPlace) (plan : ClashPlan) :
    (delClashPois place plan).m_UserDurMap = eraseKey place.ID plan.m_UserDurMap := by
  rw [delClashPois]
  split_ifs <;> rfl

theorem userMustPlaceSet_del (place : ClashPlace) (plan : ClashPlan) :
    (delClashPois place plan).m_userMustPlaceSet = plan.m_userMustPlaceSet.erase place := by
  have herase (h : place ∉ plan.m_userMustPlaceSet) :
      plan.m_userMustPlaceSet = plan.m_userMustPlaceSet.erase place :=
    (Finset.erase_eq_of_notMem h).symm
  rw [delClashPois]
  split_ifs with hmust hdel hdel
  · rfl
  · rfl
  · exact herase hmust
  · exact herase hmust

theorem eraseKey_eq_none {β : Type} {map : String → Option β} {k : String} (h : map k = none)
    (key : String) : eraseKey key map k = none := by
  rw [eraseKey]
  split_ifs
  · rfl
  · exact h

theorem eraseKey_self {β : Type} {map : String → Option β} {key : String} (h : map key = none) :
    eraseKey key map = map := by
  funext k
  rw [eraseKey]
  split_ifs with hk
  · rw [hk, h]
  · rfl

/-- Nothing is known of the places that are removed. -/
def Consistent (plan : ClashPlan) : Prop :=
  ∀ place ∈ plan.delPoisSet, place ∉ plan.m_userMustPlaceSet ∧
    plan.m_UserDurMap place.ID = none ∧ plan.m_vPlaceOpenMap place.ID = none

theorem Consistent.del (h : Consistent plan) (place : ClashPlace) :
    Consistent (delClashPois place plan) := by
  intro place' hmem
  rw [userMustPlaceSet_del, userDurMap_del, vPlaceOpenMap_del]
  rcases mem_del.mp hmem with hmem | rfl
  · obtain ⟨hmust, hdur, hopen⟩ := h place' hmem
    exact ⟨fun hin => hmust (Finset.mem_of_mem_erase hin), eraseKey_eq_none hdur _,
      eraseKey_eq_none hopen _⟩
  · exact ⟨Finset.notMem_erase _ _, if_pos rfl, if_pos rfl⟩

/-- A second removal changes nothing. -/
theorem delClashPois_of_mem (h : Consistent plan) (hmem : place ∈ plan.delPoisSet) :
    delClashPois place plan = plan := by
  obtain ⟨hmust, hdur, hopen⟩ := h place hmem
  rw [delClashPois, if_neg hmust]
  dsimp only
  rw [if_pos hmem, eraseKey_self hdur, eraseKey_self hopen]

end PPView.ReqParser
