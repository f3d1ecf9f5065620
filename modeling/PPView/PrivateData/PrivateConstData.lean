import Mathlib.Data.Finset.Basic
import PPView.PrivateData.Place

/-!
# The private data set

`PrivateConstData`: places in six maps, and the ids of the places of each tenant and city. What a
place is freed for is not modelled: a place is gone when no map has it.
-/

namespace PPView.PrivateData

structure PrivateConstData where
  places : PlaceMap → String → Option Place := fun _ _ => none
  cityPlaces : CityMap → String → String → Finset String := fun _ _ _ => ∅
  shields : String → Finset String := fun _ => ∅

namespace PrivateConstData

variable (d : PrivateConstData)

def setPlace (m : PlaceMap) (key : String) (p : Option Place) : PrivateConstData :=
  { d with places := Function.update d.places m (Function.update (d.places m) key p) }

def setCity (m : CityMap) (ptid cid : String) (ids : Finset String) : PrivateConstData :=
  { d with
    cityPlaces := Function.update d.cityPlaces m
      (Function.update (d.cityPlaces m) ptid (Function.update (d.cityPlaces m ptid) cid ids)) }

/-- The place under `key` in the first of the maps that has one. -/
def lookup (maps : List PlaceMap) (key : String) : Option Place :=
  maps.findSome? fun m => d.places m key

def getLYPlace (priID ptid : String) : Option Place :=
  d.lookup [.citys, .tours, .hotels, .views, .shops, .restaurants] priID <|>
    d.lookup [.hotels, .views, .shops, .restaurants] (qualified priID ptid)

/-- The key is erased from the first of the maps that has it. -/
def eraseFirst (maps : List PlaceMap) (key : String) : PrivateConstData :=
  match maps.find? fun m => (d.places m key).isSome with
  | some m => d.setPlace m key none
  | none => d

def delFromPlaceMap (place : Place) : PrivateConstData :=
  let priID := place.id
  let d :=
    if (d.places .tours priID).isSome then d.setPlace .tours priID none
    else if (d.places .citys priID).isSome then
      (d.setPlace .citys priID none).setPlace .hotels (coreHotelId priID) none
    else d
  d.eraseFirst [.hotels, .views, .shops, .restaurants] place.getUniqId

def delCityLYPlace (place : Place) : PrivateConstData :=
  match cityMapOf place.t with
  | some m => place.cidList.foldl (fun d cid =>
      d.setCity m place.ptid cid ((d.cityPlaces m place.ptid cid).erase place.id)) d
  | none => d

/-- A place and the points of a tour. The source has a set of pointers. -/
def placeList (place : Place) : List Place :=
  if place.t &&& LY_PLACE_TYPE_TOURALL ≠ 0 ∧ place.cls = .tour then
    place :: (((place.gatherLocal ++ place.dismissLocal).filterMap (d.getLYPlace · "")).filter
      (· ≠ place)).dedup
  else [place]

def delLYPlace (priID ptid : String) : PrivateConstData :=
  match d.getLYPlace priID ptid with
  | none => d
  | some place => (d.placeList place).foldl delFromPlaceMap (d.delCityLYPlace place)

def insertCoreHotel (city : Place) : PrivateConstData :=
  d.setPlace .hotels (coreHotelId city.id) (some (coreHotel city))

def insertLYPlace (place : Place) : ℕ × PrivateConstData :=
  let id := place.getUniqId
  match placeMapOf place.t with
  | none => (1, d)
  | some m =>
    if (d.places m id).isSome then (1, d)
    else
      let d := d.setPlace m id (some place)
      (0, if m = .citys then d.insertCoreHotel place else d)

def insertCityPlaceList (place : Place) : PrivateConstData :=
  match cityMapOf place.t with
  | some m => place.cidList.foldl (fun d cid =>
      d.setCity m place.ptid cid (insert place.id (d.cityPlaces m place.ptid cid))) d
  | none => d

def doInsert (place : Place) : ℕ × PrivateConstData :=
  if place.id = "" then (1, d)
  else
    let (ret, d) := d.insertLYPlace place
    if ret ≠ 0 then (ret, d) else (0, d.insertCityPlaceList place)

def insert2Shield (id ptid : String) : PrivateConstData :=
  if ptid ≠ "" then
    { d with shields := Function.update d.shields ptid (insert id (d.shields ptid)) }
  else d

/-! ## What the operations change -/

variable {d}

theorem places_setPlace (m : PlaceMap) (key : String) (p : Option Place) (m' : PlaceMap)
    (key' : String) : (d.setPlace m key p).places m' key' =
      if m' = m ∧ key' = key then p else d.places m' key' := by
  by_cases hm : m' = m
  · subst hm
    simp [setPlace, Function.update_apply]
  · simp [setPlace, hm]

@[simp] theorem cityPlaces_setPlace (m : PlaceMap) (key : String) (p : Option Place) :
    (d.setPlace m key p).cityPlaces = d.cityPlaces := rfl

@[simp] theorem shields_setPlace (m : PlaceMap) (key : String) (p : Option Place) :
    (d.setPlace m key p).shields = d.shields := rfl

theorem cityPlaces_setCity (m : CityMap) (ptid cid : String) (ids : Finset String) (m' : CityMap)
    (ptid' cid' : String) : (d.setCity m ptid cid ids).cityPlaces m' ptid' cid' =
      if m' = m ∧ ptid' = ptid ∧ cid' = cid then ids else d.cityPlaces m' ptid' cid' := by
  by_cases hm : m' = m
  · subst hm
    by_cases hptid : ptid' = ptid
    · subst hptid
      simp [setCity, Function.update_apply]
    · simp [setCity, hptid]
  · simp [setCity, hm]

@[simp] theorem places_setCity (m : CityMap) (ptid cid : String) (ids : Finset String) :
    (d.setCity m ptid cid ids).places = d.places := rfl

@[simp] theorem shields_setCity (m : CityMap) (ptid cid : String) (ids : Finset String) :
    (d.setCity m ptid cid ids).shields = d.shields := rfl

variable {p : Place}

/-- Listing and unlisting a place change only the lists of the cities. -/
theorem foldl_cids {β : Type} {f : PrivateConstData → β}
    {step : PrivateConstData → String → PrivateConstData} (h : ∀ d cid, f (step d cid) = f d)
    (cids : List String) (d : PrivateConstData) : f (cids.foldl step d) = f d := by
  induction cids generalizing d with
  | nil => rfl
  | cons cid cids ih => exact (ih _).trans (h d cid)

theorem insertCityPlaceList_keeps {β : Type} {f : PrivateConstData → β}
    (h : ∀ d m ptid cid ids, f (setCity d m ptid cid ids) = f d) :
    f (d.insertCityPlaceList p) = f d := by
  rw [insertCityPlaceList]
  cases cityMapOf p.t with
  | none => rfl
  | some m => exact foldl_cids (fun d cid => h d m _ cid _) p.cidList d

theorem delCityLYPlace_keeps {β : Type} {f : PrivateConstData → β}
    (h : ∀ d m ptid cid ids, f (setCity d m ptid cid ids) = f d) :
    f (d.delCityLYPlace p) = f d := by
  rw [delCityLYPlace]
  cases cityMapOf p.t with
  | none => rfl
  | some m => exact foldl_cids (fun d cid => h d m _ cid _) p.cidList d

@[simp] theorem places_insertCityPlaceList : (d.insertCityPlaceList p).places = d.places :=
  insertCityPlaceList_keeps fun _ => places_setCity

@[simp] theorem shields_insertCityPlaceList : (d.insertCityPlaceList p).shields = d.shields :=
  insertCityPlaceList_keeps fun _ => shields_setCity

@[simp] theorem places_delCityLYPlace : (d.delCityLYPlace p).places = d.places :=
  delCityLYPlace_keeps fun _ => places_setCity

@[simp] theorem shields_delCityLYPlace : (d.delCityLYPlace p).shields = d.shields :=
  delCityLYPlace_keeps fun _ => shields_setCity

/-- The entry of a place in the lists of its cities. -/
def IsEntry (p : Place) (m : CityMap) (ptid cid id : String) : Prop :=
  cityMapOf p.t = some m ∧ ptid = p.ptid ∧ cid ∈ p.cidList ∧ id = p.id

theorem mem_insertCityPlaceList {m : CityMap} {ptid cid id : String} :
    id ∈ (d.insertCityPlaceList p).cityPlaces m ptid cid ↔
      id ∈ d.cityPlaces m ptid cid ∨ IsEntry p m ptid cid id := by
  rw [insertCityPlaceList, IsEntry]
  cases cityMapOf p.t with
  | none => simp
  | some m' =>
    dsimp only
    induction p.cidList generalizing d with
    | nil => simp
    | cons c cids ih =>
      rw [List.foldl_cons, ih, cityPlaces_setCity]
      split_ifs with h
      · obtain ⟨rfl, rfl, rfl⟩ := h
        simp only [Finset.mem_insert, List.mem_cons]
        tauto
      · simp only [List.mem_cons, Option.some.injEq]
        constructor
        · tauto
        · rintro (hid | ⟨rfl, rfl, rfl | hcid, rfl⟩)
          · exact .inl hid
          · exact absurd ⟨rfl, rfl, rfl⟩ h
          · exact .inr ⟨rfl, rfl, hcid, rfl⟩

theorem mem_delCityLYPlace {m : CityMap} {ptid cid id : String} :
    id ∈ (d.delCityLYPlace p).cityPlaces m ptid cid ↔
      id ∈ d.cityPlaces m ptid cid ∧ ¬ IsEntry p m ptid cid id := by
  rw [delCityLYPlace, IsEntry]
  cases cityMapOf p.t with
  | none => simp
  | some m' =>
    dsimp only
    induction p.cidList generalizing d with
    | nil => simp
    | cons c cids ih =>
      rw [List.foldl_cons, ih, cityPlaces_setCity]
      split_ifs with h
      · obtain ⟨rfl, rfl, rfl⟩ := h
        simp only [Finset.mem_erase, List.mem_cons]
        tauto
      · simp only [List.mem_cons, Option.some.injEq]
        constructor
        · rintro ⟨hid, hno⟩
          refine ⟨hid, ?_⟩
          rintro ⟨rfl, rfl, rfl | hcid, rfl⟩
          · exact h ⟨rfl, rfl, rfl⟩
          · exact hno ⟨rfl, rfl, hcid, rfl⟩
        · tauto

/-! ## Shields -/

theorem shields_eraseFirst (maps : List PlaceMap) (key : String) :
    (d.eraseFirst maps key).shields = d.shields := by
  rw [eraseFirst]
  split <;> rfl

@[simp] theorem shields_delFromPlaceMap : (d.delFromPlaceMap p).shields = d.shields := by
  rw [delFromPlaceMap, shields_eraseFirst]
  split_ifs <;> rfl

@[simp] theorem shields_delLYPlace (priID ptid : String) :
    (d.delLYPlace priID ptid).shields = d.shields := by
  rw [delLYPlace]
  split
  · rfl
  · next place _ =>
    have hfold (ps : List Place) (d : PrivateConstData) :
        (ps.foldl delFromPlaceMap d).shields = d.shields := by
      induction ps generalizing d with
      | nil => rfl
      | cons q ps ih => exact (ih _).trans shields_delFromPlaceMap
    exact (hfold _ _).trans shields_delCityLYPlace

@[simp] theorem shields_doInsert : (d.doInsert p).2.shields = d.shields := by
  have hinsert : (d.insertLYPlace p).2.shields = d.shields := by
    rw [insertLYPlace]
    split
    · rfl
    · split_ifs <;> rfl
  rw [doInsert]
  split_ifs
  · rfl
  · dsimp only
    split_ifs
    · exact hinsert
    · exact shields_insertCityPlaceList.trans hinsert

end PrivateConstData

end PPView.PrivateData
