import Mathlib.Tactic.Common
import PPView.Define

/-!
# Places of the private data

`define.h`: a place has a class and a set of type bits. A place that refers to a public one is
stored under its id and its tenant, any other one under its id alone.
-/

namespace PPView.PrivateData

/-- The classes of places. A `ViewTicket` is a `Tour`. -/
inductive PlaceClass where
  | city | hotel | view | shop | restaurant | tour
  deriving DecidableEq

/-- The type bits of the places of a class; those of a tour are in its row. -/
def PlaceClass.type : PlaceClass → Option ℕ
  | .city => some LY_PLACE_TYPE_CITY
  | .hotel => some LY_PLACE_TYPE_HOTEL
  | .view => some LY_PLACE_TYPE_VIEW
  | .shop => some LY_PLACE_TYPE_SHOP
  | .restaurant => some LY_PLACE_TYPE_RESTAURANT
  | .tour => none

/-- `LYPlace` and its subclasses, as they are filled when the private data are loaded. `local` are
the gather and the dismiss points of a tour. -/
structure Place where
  id : String
  ptid : String
  refer : String := ""
  cls : PlaceClass
  t : ℕ
  cidList : List String := []
  gatherLocal : List String := []
  dismissLocal : List String := []
  type_eq : ∀ t', cls.type = some t' → t = t'
  deriving DecidableEq

/-- `_ID + "_" + m_ptid`. -/
def qualified (id ptid : String) : String := id ++ "_" ++ ptid

/-- `getUniqId` of each class. -/
def Place.getUniqId (p : Place) : String :=
  match p.cls with
  | .city | .tour => p.id
  | .hotel | .view | .shop | .restaurant =>
    if p.refer ≠ "" ∧ p.ptid ≠ "" then qualified p.id p.ptid else p.id

/-- The id of the hotel that is made for a city. -/
def coreHotelId (cid : String) : String := "coreHotelByMakeCid" ++ cid

/-- What `InsertCoreHotel` makes. -/
def coreHotel (city : Place) : Place where
  id := coreHotelId city.id
  ptid := city.ptid
  cls := .hotel
  t := LY_PLACE_TYPE_HOTEL
  type_eq := fun _ h => Option.some.inj h

/-- The maps from keys to places. -/
inductive PlaceMap where
  | citys | tours | hotels | views | shops | restaurants
  deriving DecidableEq

/-- The maps from tenants and cities to ids. -/
inductive CityMap where
  | cityViews | cityShops | cityRestaurants | cityTours
  deriving DecidableEq

/-- Where `InsertLYPlace` stores a place. -/
def placeMapOf (t : ℕ) : Option PlaceMap :=
  if t &&& LY_PLACE_TYPE_CITY ≠ 0 then some .citys
  else if t &&& LY_PLACE_TYPE_TOURALL ≠ 0 then some .tours
  else if t &&& LY_PLACE_TYPE_HOTEL ≠ 0 then some .hotels
  else if t &&& LY_PLACE_TYPE_VIEW ≠ 0 then some .views
  else if t &&& LY_PLACE_TYPE_SHOP ≠ 0 then some .shops
  else if t &&& LY_PLACE_TYPE_RESTAURANT ≠ 0 then some .restaurants
  else none

/-- Where `InsertCityPlaceList` and `DelCityLYPlace` list a place. -/
def cityMapOf (t : ℕ) : Option CityMap :=
  if t = LY_PLACE_TYPE_VIEW then some .cityViews
  else if t = LY_PLACE_TYPE_SHOP then some .cityShops
  else if t = LY_PLACE_TYPE_RESTAURANT then some .cityRestaurants
  else if t &&& LY_PLACE_TYPE_TOURALL ≠ 0 then some .cityTours
  else none

end PPView.PrivateData
