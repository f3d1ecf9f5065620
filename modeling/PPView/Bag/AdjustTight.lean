import Mathlib.Algebra.BigOperators.Group.List.Basic
import Mathlib.Data.List.Chain
import PPView.Bag.BagPlan
import PPView.Bag.RouteSearch
import PPView.Library.StableSort

/-!
# Busy days first

`RouteSearch::AdjustTight` puts the days of the route that has been taken into an order with the
busiest first, and tries others from there until one can be laid, which then replaces the route.
The first and the last day stay, and so do the days without use before the last one. No place gets
lost on the way.
-/

namespace PPView.RouteSearch

open SwapOrders (swapOrders)

variable {σ : Type}

/-- What is read of an item. `isAttach` says that the place is `m_attachRest`; the traffic is read
by its time. -/
structure TightItem where
  place : LYPlace
  isVar : Bool
  isAttach : Bool
  arriveTraffic : Option Int
  departTraffic : Option Int
  arriveTime : Int
  departTime : Int
  departDate : String
  type : ℕ
  deriving DecidableEq, Repr

/-- A `DayItem` with all its members. -/
structure TightDay extends DayItem where
  m_date : String
  m_usedDur : Int
  deriving DecidableEq, Repr

namespace TightItem

/-- The places that are laid anew. -/
def isOrdered (pItem : TightItem) : Bool := pItem.type &&& NODE_FUNC_KEY = 0 && !pItem.isAttach

/-- The type that the place is laid with. -/
def nodeType (pItem : TightItem) : UInt8 :=
  if pItem.type = NODE_FUNC_PLACE_REST_LUNCH.toNat then NODE_FUNC_PLACE_REST_LUNCH
  else if pItem.type = NODE_FUNC_PLACE_REST_SUPPER.toNat then NODE_FUNC_PLACE_REST_SUPPER
  else NODE_FUNC_PLACE_VIEW_SHOP

/-- What an item and the traffic to it use of the day. -/
def usedTime (lItem pItem : TightItem) : Int :=
  let trafT := pItem.arriveTraffic.getD (lItem.departTraffic.getD 0)
  let placeUsed :=
    if pItem.type &&& NODE_FUNC_PLACE ≠ 0 then pItem.departTime - pItem.arriveTime else 0
  if pItem.type &&& NODE_FUNC_PLACE ≠ 0 ∨ lItem.type &&& NODE_FUNC_PLACE ≠ 0 then placeUsed + trafT
  else 0

end TightItem

/-- The variables of `CalUsedDurPerDay`. -/
structure DayScan where
  day : Int := -1
  usedTime : Int := 0
  date : String := ""
  orderList : List PlaceOrder := []
  dayList : List TightDay := []

namespace DayScan

def tightDay (s : DayScan) : TightDay := ⟨⟨s.orderList⟩, s.date, s.usedTime⟩

/-- A day ends where the date changes. -/
def turn (s : DayScan) (lItem : TightItem) : DayScan :=
  if s.date ≠ lItem.departDate then
    let s :=
      if s.day ≠ -1 then { s with dayList := s.dayList ++ [s.tightDay], usedTime := 0 } else s
    { s with orderList := [], date := lItem.departDate, day := s.day + 1 }
  else s

def add (s : DayScan) (lItem pItem : TightItem) : DayScan :=
  let s := { s with usedTime := s.usedTime + lItem.usedTime pItem }
  if pItem.isOrdered then
    { s with
      orderList := s.orderList ++
        [⟨pItem.place, pItem.isVar, s.date, s.orderList.length, pItem.nodeType⟩] }
  else s

/-- The body of the loop, for an item and the one before it. -/
def next (s : DayScan) (items : TightItem × TightItem) : DayScan :=
  (s.turn items.1).add items.1 items.2

end DayScan

def calUsedDurPerDay (path : List TightItem) : List TightDay :=
  let s := (path.zip path.tail).foldl DayScan.next {}
  if s.dayList.length < s.day + 1 then s.dayList ++ [s.tightDay] else s.dayList

def Compare (lItem rItem : TightDay) : Bool := lItem.m_usedDur > rItem.m_usedDur

/-- `std::sort` with `Compare`. -/
structure DaySorter where
  sort : List TightDay → List TightDay
  sort_perm : ∀ l, (sort l).Perm l
  sort_pairwise : ∀ l, (sort l).Pairwise (InOrder Compare)

/-- The loop that leaves out the days without use. -/
def usedDays (dayList : List TightDay) : ℕ → ℕ
  | 0 => 0
  | endDay + 1 =>
    if (dayList[endDay]?.map TightDay.m_usedDur) = some 0 then usedDays dayList endDay
    else endDay + 1

/-- The end of the days that are sorted; the last day is not among them. -/
def endDay (dayList : List TightDay) : ℕ := usedDays dayList (dayList.length - 1)

def sortDays (sorter : DaySorter) (dayList : List TightDay) : List TightDay :=
  if endDay dayList > 1 then
    dayList.take 1 ++
      (sorter.sort ((dayList.drop 1).take (endDay dayList - 1)) ++ dayList.drop (endDay dayList))
  else dayList

/-- What `AdjustTight` does with the new path: it reads its items and enriches them. -/
structure PathCalls (σ : Type) where
  items : σ → List TightItem
  timeEnrich : List TightItem → List TightItem

/-- `AdjustTight`: the path it leaves, and the result of `Perm` where something is to be adjusted. -/
def adjustTight (r : RouteCalls σ) (c : PathCalls σ) (sorter : DaySorter) (newPath : σ)
    (path : List TightItem) : List TightItem × Option (Int × Search σ) :=
  let days := calUsedDurPerDay path
  let dateList := days.map TightDay.m_date
  if days.length > 8 ∨ days.length ≤ 1 then (path, none)
  else
    let dayList := sortDays sorter days
    if dayList.map TightDay.m_date = dateList then (path, none)
    else
      let (ret, s) :=
        perm r dateList 1 (endDay days) { dayList := dayList.map TightDay.toDayItem, newPath }
      (if ret = 0 then c.timeEnrich (c.items s.newPath) else path, some (ret, s))

/-! ## The days of a path -/

/-- The order for an item, on the date of the item before it, and with its number in the day. -/
def orderFor (index : ℕ) (items : TightItem × TightItem) : Option PlaceOrder :=
  if items.2.isOrdered then
    some ⟨items.2.place, items.2.isVar, items.1.departDate, index, items.2.nodeType⟩
  else none

/-- What a day is laid with of an order, its date and number apart. -/
def laidPlace (placeOrder : PlaceOrder) : LYPlace × Bool × UInt8 :=
  (placeOrder.place, placeOrder.isVar, placeOrder.type)

/-- The places behind the first item that are laid anew, in their order. -/
def orderedPlaces (path : List TightItem) : List (LYPlace × Bool × UInt8) :=
  (path.tail.filter TightItem.isOrdered).map fun item => (item.place, item.isVar, item.nodeType)

/-- What the days hold of the items. -/
structure DaysOf (items : List (TightItem × TightItem)) (days : List TightDay) : Prop where
  orders : days.flatMap (fun day => day.m_orderList.map fun placeOrder =>
    { placeOrder with index := 0 }) = items.filterMap (orderFor 0)
  numbers : ∀ day ∈ days, day.m_orderList.map PlaceOrder.index = List.range day.m_orderList.length
  dates : ∀ day ∈ days, ∀ placeOrder ∈ day.m_orderList, placeOrder.date = day.m_date
  used : (days.map TightDay.m_usedDur).sum = (items.map fun (l, p) => l.usedTime p).sum
  apart : days.IsChain fun day day' => day.m_date ≠ day'.m_date

variable {items done : List (TightItem × TightItem)} {lItem pItem : TightItem}
  {days before : List TightDay} {day day' : TightDay} {date : String} {path : List TightItem}

namespace DaysOf

theorem single (date : String) : DaysOf [] [⟨⟨[]⟩, date, 0⟩] where
  orders := rfl
  numbers := by simp
  dates := by simp
  used := rfl
  apart := List.IsChain.singleton _

/-- A day without anything begins. -/
theorem begin (h : DaysOf done (before ++ [day])) (hdate : day.m_date ≠ date) :
    DaysOf done (before ++ [day] ++ [⟨⟨[]⟩, date, 0⟩]) where
  orders := by simpa using h.orders
  numbers := by
    intro d hd
    rcases List.mem_append.mp hd with hd | hd
    · exact h.numbers d hd
    · obtain rfl := List.mem_singleton.mp hd
      rfl
  dates := by
    intro d hd placeOrder hmem
    rcases List.mem_append.mp hd with hd | hd
    · exact h.dates d hd placeOrder hmem
    · obtain rfl := List.mem_singleton.mp hd
      simp at hmem
  used := by simpa using h.used
  apart := by
    refine List.isChain_append.mpr ⟨h.apart, List.IsChain.singleton _, ?_⟩
    simpa using hdate

/-- The last day takes another item. -/
theorem extend (h : DaysOf done (before ++ [day])) (hdate : day.m_date = lItem.departDate)
    (horders : day'.m_orderList =
      day.m_orderList ++ (orderFor day.m_orderList.length (lItem, pItem)).toList)
    (hdate' : day'.m_date = day.m_date)
    (hused : day'.m_usedDur = day.m_usedDur + lItem.usedTime pItem) :
    DaysOf (done ++ [(lItem, pItem)]) (before ++ [day']) where
  orders := by
    have horders' := h.orders
    rw [List.flatMap_append, List.flatMap_singleton] at horders' ⊢
    rw [horders, List.map_append, ← List.append_assoc, horders', List.filterMap_append]
    by_cases hordered : pItem.isOrdered = true <;> simp [orderFor, hordered]
  numbers := by
    intro d hd
    rcases List.mem_append.mp hd with hd | hd
    · exact h.numbers d (List.mem_append_left _ hd)
    · obtain rfl := List.mem_singleton.mp hd
      have hnumbers := h.numbers day (by simp)
      rw [horders, List.map_append, hnumbers]
      by_cases hordered : pItem.isOrdered = true <;>
        simp [orderFor, hordered, List.range_succ]
  dates := by
    intro d hd placeOrder hmem
    rcases List.mem_append.mp hd with hd | hd
    · exact h.dates d (List.mem_append_left _ hd) placeOrder hmem
    · obtain rfl := List.mem_singleton.mp hd
      rw [horders, List.mem_append] at hmem
      rw [hdate']
      rcases hmem with hmem | hmem
      · exact h.dates day (by simp) placeOrder hmem
      · rw [Option.mem_toList] at hmem
        unfold orderFor at hmem
        split_ifs at hmem
        obtain rfl := Option.some.inj hmem
        exact hdate.symm
  used := by
    have hused' := h.used
    simp only [List.map_append, List.sum_append, List.map_cons, List.map_nil,
      List.sum_singleton] at hused' ⊢
    rw [hused, ← hused', add_assoc]
  apart := by
    have hapart := List.isChain_append.mp h.apart
    refine List.isChain_append.mpr ⟨hapart.1, List.IsChain.singleton _, ?_⟩
    simpa [hdate'] using hapart.2.2

end DaysOf

namespace DayScan

variable {s : DayScan}

/-- The days with the one that goes on. -/
def allDays (s : DayScan) : List TightDay := s.dayList ++ [s.tightDay]

/-- The scan after `done`. -/
structure Scanned (done : List (TightItem × TightItem)) (s : DayScan) : Prop where
  day : s.day = s.dayList.length
  days : DaysOf done s.allDays

theorem Scanned.turn (h : Scanned done s) (lItem : TightItem) :
    Scanned done (s.turn lItem) ∧ (s.turn lItem).date = lItem.departDate := by
  unfold DayScan.turn
  have hday : s.day ≠ -1 := by
    have := h.day
    omega
  by_cases hdate : s.date = lItem.departDate
  · rw [if_neg (not_not.mpr hdate)]
    exact ⟨h, hdate⟩
  · rw [if_pos hdate, if_pos hday]
    refine ⟨⟨?_, h.days.begin hdate⟩, rfl⟩
    simp [h.day]

theorem turn_first (hdate : lItem.departDate ≠ "") :
    Scanned [] (DayScan.turn {} lItem) ∧ (DayScan.turn {} lItem).date = lItem.departDate := by
  unfold DayScan.turn
  rw [if_pos hdate.symm, if_neg (by simp)]
  exact ⟨⟨by simp, DaysOf.single _⟩, rfl⟩

theorem Scanned.add (h : Scanned done s) (hdate : s.date = lItem.departDate) (pItem : TightItem) :
    Scanned (done ++ [(lItem, pItem)]) (s.add lItem pItem) := by
  unfold DayScan.add
  dsimp only
  by_cases hordered : pItem.isOrdered = true
  · rw [if_pos hordered]
    refine ⟨h.day, h.days.extend hdate ?_ rfl rfl⟩
    simp [tightDay, orderFor, hordered, hdate]
  · rw [if_neg hordered]
    refine ⟨h.day, h.days.extend hdate ?_ rfl rfl⟩
    simp [tightDay, orderFor, hordered]

theorem Scanned.foldl (h : Scanned done s) (items : List (TightItem × TightItem)) :
    Scanned (done ++ items) (items.foldl next s) := by
  induction items generalizing done s with
  | nil => simpa using h
  | cons x items ih =>
    have hnext := (h.turn x.1).1.add (h.turn x.1).2 x.2
    rw [List.append_cons]
    exact ih hnext

end DayScan

/-- The days of a path hold its items, each in the day that the item before it is left in. -/
theorem daysOf_calUsedDurPerDay (hdate : ∀ item ∈ path.head?, item.departDate ≠ "") :
    DaysOf (path.zip path.tail) (calUsedDurPerDay path) := by
  rcases path with _ | ⟨first, _ | ⟨second, path⟩⟩
  · exact ⟨rfl, by simp [calUsedDurPerDay], by simp [calUsedDurPerDay], rfl, List.IsChain.nil⟩
  · exact ⟨rfl, by simp [calUsedDurPerDay], by simp [calUsedDurPerDay], rfl, List.IsChain.nil⟩
  · have hturn := DayScan.turn_first (hdate first rfl)
    have hscan := (hturn.1.add hturn.2 second).foldl ((second :: path).zip path)
    unfold calUsedDurPerDay
    have hday := hscan.day
    rw [if_pos]
    · exact hscan.days
    · exact Int.lt_add_one_iff.mpr hscan.day.ge

/-- The order lists of the days hold the places of the path. -/
theorem places_calUsedDurPerDay (hdate : ∀ item ∈ path.head?, item.departDate ≠ "") :
    (calUsedDurPerDay path).flatMap (fun day => day.m_orderList.map laidPlace) =
      orderedPlaces path := by
  have horders := congrArg (List.map laidPlace) (daysOf_calUsedDurPerDay hdate).orders
  have hdays : ((calUsedDurPerDay path).flatMap fun day => day.m_orderList.map laidPlace) =
      ((calUsedDurPerDay path).flatMap fun day =>
        day.m_orderList.map fun placeOrder => { placeOrder with index := 0 }).map laidPlace := by
    rw [List.map_flatMap]
    simp only [List.map_map]
    rfl
  rw [hdays, horders]
  have key : ∀ l l' : List TightItem, l'.length ≤ l.length →
      ((l.zip l').filterMap (orderFor 0)).map laidPlace =
        (l'.filter TightItem.isOrdered).map fun item =>
          (item.place, item.isVar, item.nodeType) := by
    intro l
    induction l with
    | nil =>
      intro l' hlen
      obtain rfl := List.length_eq_zero_iff.mp (Nat.le_zero.mp hlen)
      rfl
    | cons lItem l ih =>
      intro l' hlen
      cases l' with
      | nil => rfl
      | cons pItem l' =>
        have ih := ih l' (by simpa using hlen)
        by_cases hordered : pItem.isOrdered = true
        · simp [orderFor, hordered, ih, laidPlace]
        · simp [orderFor, hordered, ih]
  exact key path path.tail (by simp)

/-! ## The orders that are tried -/

/-- An order of the days that leaves the first and the last one, and those without use before the
last one. -/
structure IsTightOrder (days order : List TightDay) : Prop where
  perm : order.Perm days
  fixed : ∀ i, i < 1 ∨ endDay days ≤ i → order[i]? = days[i]?

theorem usedDays_le (days : List TightDay) (n : ℕ) : usedDays days n ≤ n := by
  induction n with
  | zero => exact le_rfl
  | succ n ih =>
    rw [usedDays]
    split_ifs
    · exact ih.trans n.le_succ
    · exact le_rfl

theorem endDay_le (days : List TightDay) : endDay days ≤ days.length :=
  (usedDays_le days _).trans (Nat.sub_le _ _)

theorem isTightOrder_iff {order : List TightDay} :
    IsTightOrder days order ↔ order ∈ swapOrders 1 (endDay days) days := by
  rw [SwapOrders.mem_swapOrders_iff fun _ => endDay_le days]
  exact ⟨fun h => ⟨h.perm, h.fixed⟩, fun h => ⟨h.1, h.2⟩⟩

theorem take_drop_middle {α : Type} {l : List α} {n : ℕ} (h : 1 < n) :
    l.take 1 ++ ((l.drop 1).take (n - 1) ++ l.drop n) = l := by
  have hdrop : l.drop n = (l.drop 1).drop (n - 1) := by
    rw [List.drop_drop, show 1 + (n - 1) = n by omega]
  rw [hdrop, List.take_append_drop, List.take_append_drop]

theorem isTightOrder_sortDays (sorter : DaySorter) (days : List TightDay) :
    IsTightOrder days (sortDays sorter days) := by
  unfold sortDays
  split_ifs with h
  · have hmiddle := take_drop_middle (l := days) h
    have hle := endDay_le days
    have hmem := (SwapOrders.mem_swapOrders (A := days.take 1)
      (B := (days.drop 1).take (endDay days - 1)) (C := days.drop (endDay days))).mpr
      ⟨_, sorter.sort_perm _, rfl⟩
    rw [hmiddle, List.length_take, List.length_take, List.length_drop,
      show min 1 days.length = 1 by omega,
      show 1 + min (endDay days - 1) (days.length - 1) = endDay days by omega] at hmem
    exact isTightOrder_iff.mpr hmem
  · exact ⟨.refl _, fun _ _ => rfl⟩

/-- The orders from the sorted one on are those of the days. -/
theorem isTightOrder_iff_sortDays (sorter : DaySorter) {order : List TightDay} :
    IsTightOrder days order ↔ order ∈ swapOrders 1 (endDay days) (sortDays sorter days) := by
  have hsort := isTightOrder_sortDays sorter days
  rw [SwapOrders.mem_swapOrders_iff fun _ => (endDay_le days).trans hsort.perm.length_eq.ge]
  constructor
  · rintro ⟨hperm, hfixed⟩
    exact ⟨hperm.trans hsort.perm.symm, fun i hi => (hfixed i hi).trans (hsort.fixed i hi).symm⟩
  · rintro ⟨hperm, hfixed⟩
    exact ⟨hperm.trans hsort.perm, fun i hi => (hfixed i hi).trans (hsort.fixed i hi)⟩

/-- The days that are sorted come with the busiest first. -/
theorem sortDays_pairwise (sorter : DaySorter) (days : List TightDay) :
    (((sortDays sorter days).drop 1).take (endDay days - 1)).Pairwise
      fun day day' => day'.m_usedDur ≤ day.m_usedDur := by
  unfold sortDays
  split_ifs with h
  · have hle := usedDays_le days (days.length - 1)
    change endDay days ≤ days.length - 1 at hle
    have hlen := (sorter.sort_perm ((days.drop 1).take (endDay days - 1))).length_eq
    rw [List.length_take, List.length_drop, Nat.min_eq_left (by omega)] at hlen
    rw [List.drop_left' (by rw [List.length_take]; omega), List.take_left' hlen]
    refine (sorter.sort_pairwise _).imp fun {day day'} hday => ?_
    simpa [InOrder, Compare] using hday
  · rw [show endDay days - 1 = 0 by omega, List.take_zero]
    exact List.Pairwise.nil

theorem orderListOf_places (dateList : List String) (order : List TightDay) :
    (orderListOf dateList (order.map TightDay.toDayItem)).map laidPlace =
      order.flatMap fun day => day.m_orderList.map laidPlace := by
  unfold orderListOf
  rw [List.map_flatMap]
  have key : ∀ n, ((order.map TightDay.toDayItem).zipIdx n).flatMap
      (fun p => (p.1.m_orderList.map fun placeOrder =>
        { placeOrder with date := dateList.getD p.2 "" }).map laidPlace) =
      order.flatMap fun day => day.m_orderList.map laidPlace := by
    induction order with
    | nil => exact fun _ => rfl
    | cons day order ih =>
      intro n
      rw [List.map_cons, List.zipIdx_cons, List.flatMap_cons, List.flatMap_cons, ih, List.map_map]
      rfl
  exact key 0

/-- What is laid for an order of the days are the places of the path. -/
theorem IsTightOrder.places {order : List TightDay}
    (h : IsTightOrder (calUsedDurPerDay path) order)
    (hdate : ∀ item ∈ path.head?, item.departDate ≠ "") (dateList : List String) :
    ((orderListOf dateList (order.map TightDay.toDayItem)).map laidPlace).Perm
      (orderedPlaces path) := by
  rw [orderListOf_places, ← places_calUsedDurPerDay hdate]
  exact h.perm.flatMap_right _

/-- What `orders` are for the days of a path. -/
structure TightOrders (sorter : DaySorter) (path : List TightItem)
    (orders : List (List TightDay)) : Prop where
  first : orders.head? = some (sortDays sorter (calUsedDurPerDay path))
  busiest : ∀ order ∈ orders.head?,
    ((order.drop 1).take (endDay (calUsedDurPerDay path) - 1)).Pairwise
      fun day day' => day'.m_usedDur ≤ day.m_usedDur
  order : ∀ order ∈ orders, IsTightOrder (calUsedDurPerDay path) order
  places : ∀ order ∈ orders, ((orderListOf ((calUsedDurPerDay path).map TightDay.m_date)
    (order.map TightDay.toDayItem)).map laidPlace).Perm (orderedPlaces path)

/-- A search that succeeds leaves the path that has been laid for the order it ends with. -/
def Laid (r : RouteCalls σ) (dateList : List String) (out : Int × Search σ) : Prop :=
  out.1 = 0 → ∃ newPath, r.doRoute newPath (orderListOf dateList out.2.dayList) =
    (0, out.2.newPath) ∧ r.m_isValid out.2.newPath = true

theorem laid_attempt (r : RouteCalls σ) (dateList : List String) (s : Search σ) :
    Laid r dateList (attempt r dateList s) := by
  rcases hcall : r.doRoute s.newPath (orderListOf dateList s.dayList) with ⟨ret, newPath⟩
  unfold attempt
  simp only [hcall]
  split_ifs with h
  · obtain ⟨rfl, hvalid⟩ := h
    exact fun _ => ⟨s.newPath, hcall, hvalid⟩
  · exact fun h => absurd h (by simp)

theorem laid_permLoop {r : RouteCalls σ} {dateList : List String}
    {rec : Search σ → Int × Search σ} (hrec : ∀ s, Laid r dateList (rec s)) (dayStart : ℕ)
    (l : List ℕ) (s : Search σ) : Laid r dateList (permLoop rec dayStart l s) := by
  induction l generalizing s with
  | nil => exact fun h => absurd h (by simp [permLoop])
  | cons i l ih =>
    rw [permLoop]
    dsimp only
    generalize (if i ≠ dayStart then { s with dayList := swapTwoDays s.dayList dayStart i }
      else s) = s₁
    split_ifs with hret
    · intro _
      exact hrec s₁ hret
    · exact ih _
    · exact ih _

theorem laid_perm (r : RouteCalls σ) (dateList : List String) (dayStart dayEnd : ℕ)
    (s : Search σ) : Laid r dateList (perm r dateList dayStart dayEnd s) := by
  induction hn : dayEnd - dayStart generalizing dayStart s with
  | zero =>
    rw [perm, if_pos (by omega)]
    exact laid_attempt r dateList s
  | succ n ih =>
    rw [perm, if_neg (by omega)]
    exact laid_permLoop (fun s => ih (dayStart + 1) s (by omega)) dayStart _ s

theorem adjustTight_tries (r : RouteCalls σ) (c : PathCalls σ) (sorter : DaySorter) (newPath : σ)
    (path : List TightItem) (hdate : ∀ item ∈ path.head?, item.departDate ≠ "") :
    DaysOf (path.zip path.tail) (calUsedDurPerDay path) ∧
    match adjustTight r c sorter newPath path with
    | (path', none) =>
      let days := calUsedDurPerDay path
      path' = path ∧ (days.length ≤ 1 ∨ 8 < days.length ∨
        (sortDays sorter days).map TightDay.m_date = days.map TightDay.m_date)
    | (path', some (ret, s)) => ∃ orders, TightOrders sorter path orders ∧
        s.tried.map Prod.fst = orders.map (List.map TightDay.toDayItem) ∧
        (ret = 1 ∧ path' = path ∧
            (∀ order, IsTightOrder (calUsedDurPerDay path) order → order ∈ orders) ∧
            (∀ t ∈ s.tried, t.2 = false) ∨
          ret = 0 ∧ path' = c.timeEnrich (c.items s.newPath) ∧
            (∃ newPath', r.doRoute newPath' (orderListOf
              ((calUsedDurPerDay path).map TightDay.m_date) s.dayList) = (0, s.newPath) ∧
              r.m_isValid s.newPath = true) ∧
            ∃ failed, s.tried = failed ++ [(s.dayList, true)] ∧ ∀ t ∈ failed, t.2 = false) := by
  refine ⟨daysOf_calUsedDurPerDay hdate, ?_⟩
  unfold adjustTight
  dsimp only
  by_cases hlen : (calUsedDurPerDay path).length > 8 ∨ (calUsedDurPerDay path).length ≤ 1
  · rw [if_pos hlen]
    exact ⟨rfl, by omega⟩
  rw [if_neg hlen]
  by_cases hdates : (sortDays sorter (calUsedDurPerDay path)).map TightDay.m_date =
      (calUsedDurPerDay path).map TightDay.m_date
  · rw [if_pos hdates]
    exact ⟨rfl, .inr (.inr hdates)⟩
  rw [if_neg hdates]
  have hattempts := perm_attempts r ((calUsedDurPerDay path).map TightDay.m_date) 1
    (endDay (calUsedDurPerDay path))
    { dayList := (sortDays sorter (calUsedDurPerDay path)).map TightDay.toDayItem, newPath }
  have hlaid := laid_perm r ((calUsedDurPerDay path).map TightDay.m_date) 1
    (endDay (calUsedDurPerDay path))
    { dayList := (sortDays sorter (calUsedDurPerDay path)).map TightDay.toDayItem, newPath }
  rcases hperm : perm r ((calUsedDurPerDay path).map TightDay.m_date) 1
    (endDay (calUsedDurPerDay path))
    { dayList := (sortDays sorter (calUsedDurPerDay path)).map TightDay.toDayItem, newPath }
    with ⟨ret, s⟩
  rw [hperm] at hlaid
  rw [hperm, SwapOrders.swapOrders_map] at hattempts
  simp only [Attempts, List.nil_append] at hattempts
  have hhead := SwapOrders.head?_swapOrders 1 (endDay (calUsedDurPerDay path))
    (sortDays sorter (calUsedDurPerDay path))
  -- a beginning of the orders is tried, and all of them where none succeeds
  have hprefix : ∀ orders rest, swapOrders 1 (endDay (calUsedDurPerDay path))
      (sortDays sorter (calUsedDurPerDay path)) = orders ++ rest → orders ≠ [] →
      TightOrders sorter path orders := by
    intro orders rest heq hne
    have horder : ∀ order ∈ orders, IsTightOrder (calUsedDurPerDay path) order := by
      intro order hmem
      apply (isTightOrder_iff_sortDays sorter).mpr
      rw [heq]
      exact List.mem_append_left _ hmem
    rw [heq, List.head?_append_of_ne_nil _ hne] at hhead
    refine ⟨hhead, fun order hmem => ?_, horder,
      fun order hmem => (horder order hmem).places hdate _⟩
    obtain rfl : sortDays sorter (calUsedDurPerDay path) = order := by simpa [hhead] using hmem
    exact sortDays_pairwise sorter _
  rcases hattempts with ⟨hret, -, htried⟩ | ⟨hret, failed, rest, horders, htried⟩
  · obtain rfl : ret = 1 := hret
    refine ⟨_, hprefix _ [] (List.append_nil _).symm ?_, ?_, .inl ⟨rfl, if_neg (by simp), ?_, ?_⟩⟩
    · intro hnil
      rw [hnil] at hhead
      exact absurd hhead (by simp)
    · simp [htried, Function.comp_def]
    · exact fun order horder => (isTightOrder_iff_sortDays sorter).mp horder
    · simp [htried]
  · obtain rfl : ret = 0 := hret
    obtain ⟨orders, tail, hsplit, hfailed, htail⟩ := List.map_eq_append_iff.mp horders
    obtain ⟨order, tail, rfl, hlast, -⟩ := List.map_eq_cons_iff.mp htail
    refine ⟨orders ++ [order], hprefix _ tail ?_ (by simp), ?_,
      .inr ⟨rfl, if_pos rfl, hlaid rfl, failed.map (·, false), ?_, ?_⟩⟩
    · rw [hsplit, List.append_assoc, List.singleton_append]
    · simp [htried, hfailed, hlast, Function.comp_def]
    · simpa using htried
    · simp

/-! ## Four days -/

def stableDays : DaySorter where
  sort := stableSort Compare
  sort_perm := stableSort_perm _
  sort_pairwise l := by
    refine stableSort_pairwise (fun x y z hxy hyz => ?_) (List.pairwise_of_forall fun x y => ?_)
    · simp only [InOrder, Compare, gt_iff_lt, decide_eq_false_iff_not, not_lt] at *
      exact hyz.trans hxy
    · simp only [InOrder, Compare, gt_iff_lt, decide_eq_false_iff_not, not_lt]
      exact le_total _ _

/-- A visit of `dur` seconds. -/
def visitOn (departDate id : String) (dur : Int) : TightItem where
  place := .place id
  isVar := true
  isAttach := false
  arriveTraffic := none
  departTraffic := none
  arriveTime := 0
  departTime := dur
  departDate := departDate
  type := NODE_FUNC_PLACE

/-- The third day is busier than the second one. -/
def fourDays : List TightItem :=
  [visitOn "0101" "station" 0, visitOn "0102" "park" 3600, visitOn "0103" "zoo" 1800,
    visitOn "0104" "museum" 7200, visitOn "0104" "church" 900]

/-- A route can be laid only if the zoo comes second; the plan is not read. -/
def zooCalls : RouteCalls (List PlaceOrder) where
  doRoute _ orderList :=
    (if orderList[1]?.map (fun placeOrder => placeOrder.place) = some (.place "zoo") then 0 else 1,
      orderList)
  m_isValid _ := true
  reset _ := []

/-- Each place is visited for an hour. -/
def hourCalls : PathCalls (List PlaceOrder) where
  items newPath := newPath.map fun placeOrder =>
    { visitOn placeOrder.date "" 3600 with place := placeOrder.place }
  timeEnrich path := path

/-- The busiest day cannot come first, so the days keep their order in the end. -/
theorem adjustTight_tries_fourDays : ∃ path' s orders,
    adjustTight zooCalls hourCalls stableDays [] fourDays = (path', some (0, s)) ∧
      path'.map TightItem.place = [.place "park", .place "zoo", .place "museum", .place "church"] ∧
      TightOrders stableDays fourDays orders ∧ orders.length = 2 := by
  have hrun : (adjustTight zooCalls hourCalls stableDays [] fourDays).2.map
      (fun out => (out.1, out.2.tried.length)) = some (0, 2) ∧
      (adjustTight zooCalls hourCalls stableDays [] fourDays).1.map TightItem.place =
        [.place "park", .place "zoo", .place "museum", .place "church"] := by
    decide +kernel
  obtain ⟨-, htries⟩ := adjustTight_tries zooCalls hourCalls stableDays [] fourDays (by decide)
  rcases hadjust : adjustTight zooCalls hourCalls stableDays [] fourDays with ⟨path', out⟩
  rw [hadjust] at hrun htries
  obtain ⟨hret, hplaces⟩ := hrun
  rcases out with _ | ⟨ret, s⟩
  · simp at hret
  · obtain ⟨rfl, htwo⟩ : ret = 0 ∧ s.tried.length = 2 := by simpa using hret
    obtain ⟨orders, horders, htried, -⟩ := htries
    refine ⟨path', s, orders, rfl, hplaces, horders, ?_⟩
    rw [← htwo, ← List.length_map (f := Prod.fst), htried, List.length_map]

end PPView.RouteSearch
