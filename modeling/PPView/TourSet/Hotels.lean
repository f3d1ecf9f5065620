import Mathlib.Data.Finset.Insert
import PPView.TourSet.DayList

/-!
# The hotels of a tour city

`TourCityInfo::ChangeHotel` puts the booked hotels in the place of those of the tour. The hotel of a
view is looked up by a number of nights.
-/

namespace PPView

open PostProcessor

def NODE_FUNC_KEY_HOTEL_RECLAIM_LUGGAGE : Int := 0x00040000
def NODE_FUNC_KEY_HOTEL : Int32 := 0x00010000 ||| 0x00020000 ||| 0x00040000

namespace TourViewItem

def isHotel (item : TourViewItem) : Bool := item.m_type.toInt = LY_PLACE_TYPE_HOTEL

/-- A hotel where the luggage is picked up. -/
def isPickUp (item : TourViewItem) : Bool :=
  item.isHotel ∧ item.m_funcType.toInt = NODE_FUNC_KEY_HOTEL_RECLAIM_LUGGAGE

end TourViewItem

namespace TourSet

/-! ## Stays -/

structure HotelPlace where
  ID : String
  t : Int32
  m_custom : Int32
  name : String
  enname : String
  poi : String

structure HInfo where
  m_hotel : Option HotelPlace
  m_checkIn : String
  m_checkOut : String

/-- What the change of hotels reads of a city. -/
structure HotelCity where
  m_ViewList : List TourViewItem
  m_hotelInfoList : List HInfo
  m_arvDate : String
  m_checkIn : String
  m_checkOut : String

/-- The order in which the map from views to numbers is visited. -/
structure VisitOrder where
  visit : List (ℕ × Int × String) → List (ℕ × Int × String)
  perm : ∀ entries, (visit entries).Perm entries

/-- The calendar, the core hotel of the city, and the value of the members that a new item does not
set. -/
structure HotelWorld where
  compareDayStr : String → String → Int
  datePlusOf : String → Int → String
  coreHotel : Option HotelPlace
  order : VisitOrder
  uninitialised : Int32

variable (w : HotelWorld) (city : HotelCity)

/-- The hotel of the night with the number `didx`. -/
def getHotelbyIndex (didx : Int) : Option HotelPlace :=
  if didx < 0 ∨ didx ≥ w.compareDayStr city.m_checkIn city.m_checkOut then none
  else
    let checkInDate := w.datePlusOf city.m_checkIn didx
    (city.m_hotelInfoList.find? fun hInfo =>
      checkInDate ≥ hInfo.m_checkIn ∧ checkInDate < hInfo.m_checkOut).bind (·.m_hotel)

/-- The hotel that is shown for the number: the core hotel where none is booked. -/
def hotelOf (didx : Int) : Option HotelPlace :=
  match getHotelbyIndex w city didx with
  | some hotel => some hotel
  | none => w.coreHotel

/-! ## The change -/

/-- A new item for a hotel. -/
def hotelItem (hotel : HotelPlace) (date : String) : TourViewItem where
  m_id := hotel.ID
  m_custom := hotel.m_custom
  m_type := hotel.t
  m_name := if hotel.name = "" then hotel.enname else hotel.name
  m_lname := hotel.enname
  m_coord := hotel.poi
  m_doWhat := ""
  m_info := .null
  m_idle := .null
  m_close := w.uninitialised
  m_diningNearby := w.uninitialised
  m_dur := -1
  m_stime := date ++ "_19:00"
  m_etime := w.datePlusOf date 1 ++ "_09:00"
  m_product := .null
  m_traffic := .null
  m_funcType := NODE_FUNC_KEY_HOTEL

def changedItem (hotel : HotelPlace) (didx : Int) (oriHotel : TourViewItem) : TourViewItem :=
  { hotelItem w hotel (w.datePlusOf city.m_arvDate didx) with
    m_stime := oriHotel.m_stime
    m_etime := oriHotel.m_etime
    m_idle := oriHotel.m_idle
    m_diningNearby := oriHotel.m_diningNearby
    m_funcType := oriHotel.m_funcType
    m_doWhat := oriHotel.m_doWhat }

/-- The first loop: the hotels with their numbers, from the view `i` on. -/
def hotelEntries : List TourViewItem → ℕ → Int → List (ℕ × Int × String)
  | [], _, _ => []
  | item :: items, i, didx =>
    let next (didx : Int) := hotelEntries items (i + 1) (if item.isSleep then didx + 1 else didx)
    if item.isHotel then
      let didx := if item.isPickUp then didx - 1 else didx
      (i, didx, item.m_id) :: next didx
    else next didx

structure Changed where
  ret : Int
  m_ViewList : List TourViewItem
  changedHotelIdx : Finset ℕ

/-- The second loop. -/
def changeHotels : List (ℕ × Int × String) → List TourViewItem → Finset ℕ → Changed
  | [], views, changedHotelIdx => ⟨0, views, changedHotelIdx⟩
  | (index, didx, id) :: entries, views, changedHotelIdx =>
    match hotelOf w city didx with
    | none => ⟨1, views, changedHotelIdx⟩
    | some hotel =>
      if hotel.ID ≠ id then
        changeHotels entries (views.modify index (changedItem w city hotel didx))
          (insert index changedHotelIdx)
      else changeHotels entries views changedHotelIdx

def changeHotel (changedHotelIdx : Finset ℕ) : Changed :=
  if city.m_hotelInfoList.length < 1 then ⟨0, city.m_ViewList, changedHotelIdx⟩
  else changeHotels w city (w.order.visit (hotelEntries city.m_ViewList 0 0)) city.m_ViewList
    changedHotelIdx

/-! ## Numbers of nights -/

variable {items : List TourViewItem} {item : TourViewItem}

def nights (item : TourViewItem) : Int := if item.isSleep then 1 else 0

def pickUps (item : TourViewItem) : Int := if item.isPickUp then 1 else 0

/-- The night that a hotel view at the index `i` is for: the nights before it, less one where the
luggage is picked up. -/
def nightOf (items : List TourViewItem) (i : ℕ) (item : TourViewItem) : Int :=
  (items.take i).countP TourViewItem.isSleep - pickUps item

def pickUpsBefore (items : List TourViewItem) (i : ℕ) : Int :=
  (items.take i).countP TourViewItem.isPickUp

theorem nightOf_cons (item' : TourViewItem) (items : List TourViewItem) (k : ℕ) :
    nightOf (item' :: items) (k + 1) item = nights item' + nightOf items k item := by
  rw [nightOf, nightOf, List.take_succ_cons, List.countP_cons, nights]
  split_ifs <;> push_cast <;> ring

theorem pickUpsBefore_cons (item' : TourViewItem) (items : List TourViewItem) (k : ℕ) :
    pickUpsBefore (item' :: items) (k + 1) = pickUps item' + pickUpsBefore items k := by
  rw [pickUpsBefore, pickUpsBefore, List.take_succ_cons, List.countP_cons, pickUps]
  split_ifs <;> push_cast <;> ring

/-- A pick-up lowers the number from then on. -/
theorem hotelEntries_cons (item : TourViewItem) (items : List TourViewItem) (i : ℕ) (didx : Int) :
    hotelEntries (item :: items) i didx =
      (if item.isHotel then [(i, didx - pickUps item, item.m_id)] else []) ++
        hotelEntries items (i + 1) (didx - pickUps item + nights item) := by
  have hnext (d : Int) : (if item.isSleep then d + 1 else d) = d + nights item := by
    rw [nights]
    split_ifs <;> simp
  have hdidx : (if item.isPickUp then didx - 1 else didx) = didx - pickUps item := by
    rw [pickUps]
    split_ifs <;> simp
  rw [hotelEntries]
  dsimp only
  by_cases hhotel : item.isHotel
  · rw [if_pos hhotel, if_pos hhotel, hdidx, hnext]
    rfl
  · have hpick : pickUps item = 0 := by simp [pickUps, TourViewItem.isPickUp, hhotel]
    rw [if_neg hhotel, if_neg hhotel, hpick, hnext]
    simp

theorem mem_hotelEntries {i : ℕ} {didx : Int} {e : ℕ × Int × String} :
    e ∈ hotelEntries items i didx ↔ ∃ k item, items[k]? = some item ∧ item.isHotel ∧
      e = (i + k, didx + nightOf items k item - pickUpsBefore items k, item.m_id) := by
  induction items generalizing i didx with
  | nil => simp [hotelEntries]
  | cons item items ih =>
    have hhead : (i + 0, didx + nightOf (item :: items) 0 item - pickUpsBefore (item :: items) 0,
        item.m_id) = (i, didx - pickUps item, item.m_id) := by
      simp [nightOf, pickUpsBefore, sub_eq_add_neg]
    have htail (k : ℕ) (item' : TourViewItem) : (i + (k + 1), didx + nightOf (item :: items) (k + 1)
        item' - pickUpsBefore (item :: items) (k + 1), item'.m_id) = (i + 1 + k,
        didx - pickUps item + nights item + nightOf items k item' - pickUpsBefore items k,
        item'.m_id) := by
      rw [nightOf_cons, pickUpsBefore_cons, Prod.mk.injEq, Prod.mk.injEq]
      exact ⟨by omega, by ring, rfl⟩
    rw [hotelEntries_cons, List.mem_append, ih]
    constructor
    · rintro (he | ⟨k, item', hk, hhotel, rfl⟩)
      · by_cases hhotel : item.isHotel
        · rw [if_pos hhotel] at he
          exact ⟨0, item, rfl, hhotel, hhead ▸ List.mem_singleton.mp he⟩
        · rw [if_neg hhotel] at he
          contradiction
      · exact ⟨k + 1, item', hk, hhotel, (htail k item').symm⟩
    · rintro ⟨k, item', hk, hhotel, rfl⟩
      cases k with
      | zero =>
        obtain rfl : item = item' := by simpa using hk
        left
        rw [if_pos hhotel, hhead]
        exact List.mem_singleton_self _
      | succ k => exact .inr ⟨k, item', hk, hhotel, htail k item'⟩

theorem nodup_hotelEntries (items : List TourViewItem) (i : ℕ) (didx : Int) :
    ((hotelEntries items i didx).map (·.1)).Nodup := by
  induction items generalizing i didx with
  | nil => exact List.nodup_nil
  | cons item items ih =>
    rw [hotelEntries_cons]
    split_ifs
    · refine List.nodup_cons.mpr ⟨fun hmem => ?_, ih _ _⟩
      obtain ⟨e, he, hi⟩ := List.mem_map.mp hmem
      obtain ⟨k, item', -, -, rfl⟩ := mem_hotelEntries.mp he
      dsimp only at hi
      omega
    · exact ih _ _

/-! ## Changed views -/

/-- The item that a hotel view becomes. -/
def shownItem (hotel : HotelPlace) (didx : Int) (id : String) (item : TourViewItem) :
    TourViewItem :=
  if hotel.ID ≠ id then changedItem w city hotel didx item else item

/-- Without a hotel for one of the numbers the change fails. -/
theorem changeHotels_ret {entries : List (ℕ × Int × String)}
    (h : ∃ e ∈ entries, hotelOf w city e.2.1 = none) (views : List TourViewItem)
    (changedHotelIdx : Finset ℕ) :
    (changeHotels w city entries views changedHotelIdx).ret = 1 := by
  induction entries generalizing views changedHotelIdx with
  | nil => simp at h
  | cons e entries ih =>
    obtain ⟨index, didx, id⟩ := e
    rw [changeHotels]
    cases hhotel : hotelOf w city didx with
    | none => rfl
    | some hotel =>
      have hrest : ∃ e ∈ entries, hotelOf w city e.2.1 = none := by
        obtain ⟨e, he, hnone⟩ := h
        rcases List.mem_cons.mp he with rfl | he
        · rw [hhotel] at hnone
          cases hnone
        · exact ⟨e, he, hnone⟩
      dsimp only
      split_ifs
      · exact ih hrest _ _
      · exact ih hrest _ _

/-- Each view of the entries is changed by its own entry, and the others stay. -/
theorem changeHotels_spec {entries : List (ℕ × Int × String)}
    (hall : ∀ e ∈ entries, hotelOf w city e.2.1 ≠ none) (hnodup : (entries.map (·.1)).Nodup)
    (views : List TourViewItem) (changedHotelIdx : Finset ℕ) :
    (changeHotels w city entries views changedHotelIdx).ret = 0 ∧
      (∀ j, j ∉ entries.map (·.1) →
        (changeHotels w city entries views changedHotelIdx).m_ViewList[j]? = views[j]?) ∧
      ∀ e ∈ entries, ∀ hotel, hotelOf w city e.2.1 = some hotel →
        (changeHotels w city entries views changedHotelIdx).m_ViewList[e.1]? =
          views[e.1]?.map (shownItem w city hotel e.2.1 e.2.2) := by
  induction entries generalizing views changedHotelIdx with
  | nil => exact ⟨rfl, fun j _ => rfl, by simp⟩
  | cons e entries ih =>
    obtain ⟨index, didx, id⟩ := e
    obtain ⟨hotel, hhotel⟩ := Option.ne_none_iff_exists'.mp (hall _ List.mem_cons_self)
    rw [List.map_cons, List.nodup_cons] at hnodup
    -- The views behind the first entry.
    obtain ⟨views', changedHotelIdx', hstep, hself, hother⟩ : ∃ views' changedHotelIdx',
        changeHotels w city ((index, didx, id) :: entries) views changedHotelIdx =
          changeHotels w city entries views' changedHotelIdx' ∧
        views'[index]? = views[index]?.map (shownItem w city hotel didx id) ∧
        ∀ j, j ≠ index → views'[j]? = views[j]? := by
      rw [changeHotels, hhotel]
      dsimp only
      by_cases hid : hotel.ID ≠ id
      · rw [if_pos hid]
        refine ⟨_, _, rfl, ?_, fun j hj => List.getElem?_modify_ne _ _ hj.symm⟩
        rw [List.getElem?_modify_eq]
        exact congrArg (Option.map · _) (funext fun item => by rw [shownItem, if_pos hid])
      · rw [if_neg hid]
        refine ⟨_, _, rfl, ?_, fun j hj => rfl⟩
        cases views[index]? with
        | none => rfl
        | some item => rw [Option.map_some, shownItem, if_neg hid]
    obtain ⟨hret, hrest, hchanged⟩ := ih (fun e he => hall e (List.mem_cons_of_mem _ he)) hnodup.2
      views' changedHotelIdx'
    rw [hstep]
    refine ⟨hret, fun j hj => ?_, fun e he hotel' hhotel' => ?_⟩
    · rw [List.map_cons, List.mem_cons, not_or] at hj
      rw [hrest j hj.2, hother j hj.1]
    · rcases List.mem_cons.mp he with rfl | he
      · obtain rfl : hotel = hotel' := Option.some.inj (hhotel.symm.trans hhotel')
        rw [hrest index hnodup.1, hself]
      · have hne : e.1 ≠ index := fun heq => hnodup.1 (List.mem_map.mpr ⟨e, he, heq⟩)
        rw [hchanged e he hotel' hhotel', hother e.1 hne]

/-! ## The result -/

/-- The change succeeds, and each hotel view shows the hotel that is booked for its night, or the
core hotel. -/
def ShowsHotels (r : Changed) : Prop :=
  r.ret = 0 ∧ ∀ i item, city.m_ViewList[i]? = some item → item.isHotel →
    ∃ hotel item', hotelOf w city (nightOf city.m_ViewList i item) = some hotel ∧
      r.m_ViewList[i]? = some item' ∧ item'.m_id = hotel.ID

/-- The number of a view is that of its night, lowered by the pick-ups before it. -/
theorem mem_visit {e : ℕ × Int × String} :
    e ∈ w.order.visit (hotelEntries city.m_ViewList 0 0) ↔
      ∃ i item, city.m_ViewList[i]? = some item ∧ item.isHotel ∧ e = (i,
        nightOf city.m_ViewList i item - pickUpsBefore city.m_ViewList i, item.m_id) := by
  rw [(w.order.perm _).mem_iff, mem_hotelEntries]
  simp only [Nat.zero_add, Int.zero_add]

theorem nodup_visit : ((w.order.visit (hotelEntries city.m_ViewList 0 0)).map (·.1)).Nodup :=
  ((w.order.perm _).map _).nodup_iff.mpr (nodup_hotelEntries _ _ _)

theorem m_id_shownItem (hotel : HotelPlace) (didx : Int) (item : TourViewItem) :
    (shownItem w city hotel didx item.m_id item).m_id = hotel.ID := by
  rw [shownItem]
  split_ifs with hid
  · rfl
  · exact (not_not.mp hid).symm

/-- Without stays nothing is changed. -/
theorem showsHotels_nil_iff (h : city.m_hotelInfoList = []) (changedHotelIdx : Finset ℕ) :
    ShowsHotels w city ⟨0, city.m_ViewList, changedHotelIdx⟩ ↔
      ∀ item ∈ city.m_ViewList, item.isHotel →
        ∃ hotel, w.coreHotel = some hotel ∧ item.m_id = hotel.ID := by
  have hcore (didx : Int) : hotelOf w city didx = w.coreHotel := by
    have hnone : getHotelbyIndex w city didx = none := by
      rw [getHotelbyIndex, h]
      split_ifs <;> rfl
    rw [hotelOf, hnone]
  constructor
  · rintro ⟨-, hall⟩ item hitem hhotel
    obtain ⟨i, hi⟩ := List.mem_iff_getElem?.mp hitem
    obtain ⟨hotel, item', hof, hitem', hid⟩ := hall i item hi hhotel
    obtain rfl : item = item' := Option.some.inj (hi.symm.trans hitem')
    exact ⟨hotel, (hcore _).symm.trans hof, hid⟩
  · refine fun hall => ⟨rfl, fun i item hi hhotel => ?_⟩
    obtain ⟨hotel, hof, hid⟩ := hall item (List.mem_of_getElem? hi) hhotel
    exact ⟨hotel, item, (hcore _).trans hof, hi, hid⟩

/-- With stays, the hotel that is shown is that of the number that the pick-ups before the view have
lowered. Without any the views stay as they are. -/
theorem changeHotel_showsHotels_iff (changedHotelIdx : Finset ℕ) :
    ShowsHotels w city (changeHotel w city changedHotelIdx) ↔
      if city.m_hotelInfoList = [] then
        ∀ item ∈ city.m_ViewList, item.isHotel →
          ∃ hotel, w.coreHotel = some hotel ∧ item.m_id = hotel.ID
      else
        ∀ i item, city.m_ViewList[i]? = some item → item.isHotel →
          ∃ hotel hotel', hotelOf w city (nightOf city.m_ViewList i item) = some hotel ∧
            hotelOf w city (nightOf city.m_ViewList i item - pickUpsBefore city.m_ViewList i) =
              some hotel' ∧ hotel'.ID = hotel.ID := by
  rw [changeHotel]
  by_cases hnil : city.m_hotelInfoList = []
  · rw [if_pos hnil, hnil, if_pos (by decide)]
    exact showsHotels_nil_iff w city hnil changedHotelIdx
  · have hlen : ¬ city.m_hotelInfoList.length < 1 := by
      have := List.length_pos_iff.mpr hnil
      omega
    rw [if_neg hnil, if_neg hlen]
    by_cases hall : ∀ e ∈ w.order.visit (hotelEntries city.m_ViewList 0 0),
        hotelOf w city e.2.1 ≠ none
    · obtain ⟨hret, -, hchanged⟩ := changeHotels_spec w city hall (nodup_visit w city)
        city.m_ViewList changedHotelIdx
      refine (and_iff_right hret).trans (forall₂_congr fun i item =>
        forall₂_congr fun hi hhotel => ?_)
      have hmem := (mem_visit w city).mpr ⟨i, item, hi, hhotel, rfl⟩
      obtain ⟨hotel', hhotel'⟩ := Option.ne_none_iff_exists'.mp (hall _ hmem)
      have hitem := hchanged _ hmem hotel' hhotel'
      dsimp only at hhotel' hitem
      rw [hi, Option.map_some] at hitem
      have hid := m_id_shownItem w city hotel'
        (nightOf city.m_ViewList i item - pickUpsBefore city.m_ViewList i) item
      constructor
      · rintro ⟨hotel, item', hof, hitem', hid'⟩
        obtain rfl := Option.some.inj (hitem.symm.trans hitem')
        exact ⟨hotel, hotel', hof, hhotel', hid.symm.trans hid'⟩
      · rintro ⟨hotel, hotel'', hof, hof', hid'⟩
        obtain rfl := Option.some.inj (hhotel'.symm.trans hof')
        exact ⟨hotel, _, hof, hitem, hid.trans hid'⟩
    · push Not at hall
      refine iff_of_false (fun h => ?_) fun h => ?_
      · have hret := changeHotels_ret w city hall city.m_ViewList changedHotelIdx
        have := h.1
        omega
      · obtain ⟨e, he, hnone⟩ := hall
        obtain ⟨i, item, hi, hhotel, rfl⟩ := (mem_visit w city).mp he
        obtain ⟨-, hotel', -, hof, -⟩ := h i item hi hhotel
        dsimp only at hnone
        rw [hof] at hnone
        cases hnone

/-! ## A hotel behind a pick-up -/

def hotelNamed (id : String) : HotelPlace := ⟨id, 4, 0, id, id, ""⟩

def hotelView (funcType : Int32) : TourViewItem :=
  { viewItem "h" with m_type := 4, m_funcType := funcType }

/-- Two nights in two hotels. On the last day the luggage is picked up, and there is one more hotel
view behind it. -/
def twoNights : HotelCity where
  m_ViewList := [hotelView 0x00010000, hotelView 0x00040000, hotelView 0]
  m_hotelInfoList := [⟨some (hotelNamed "A"), "20180101", "20180102"⟩,
    ⟨some (hotelNamed "B"), "20180102", "20180103"⟩]
  m_arvDate := "20180101"
  m_checkIn := "20180101"
  m_checkOut := "20180103"

def januaryWorld : HotelWorld where
  compareDayStr _ _ := 2
  datePlusOf _ n := if n = 0 then "20180101" else if n = 1 then "20180102" else "20180103"
  coreHotel := some (hotelNamed "core")
  order := ⟨id, fun _ => .refl _⟩
  uninitialised := 0

/-- The last view shows the hotel of the first night. -/
theorem not_showsHotels_twoNights :
    ¬ ShowsHotels januaryWorld twoNights (changeHotel januaryWorld twoNights ∅) := by
  rintro ⟨-, hall⟩
  obtain ⟨hotel, item', hof, hitem', hid⟩ := hall 2 (hotelView 0) rfl (by decide)
  have hbooked : (hotelOf januaryWorld twoNights (nightOf twoNights.m_ViewList 2 (hotelView 0))).map
      (·.ID) = some "B" := by decide +kernel
  have hshown : ((changeHotel januaryWorld twoNights ∅).m_ViewList[2]?).map (·.m_id) = some "A" := by
    decide +kernel
  rw [hof] at hbooked
  rw [hitem'] at hshown
  have hB : hotel.ID = "B" := Option.some.inj hbooked
  have hA : item'.m_id = "A" := Option.some.inj hshown
  rw [hid, hB] at hA
  exact absurd hA (by decide)

end TourSet
end PPView
