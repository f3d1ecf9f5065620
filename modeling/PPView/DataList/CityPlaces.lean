import Mathlib.Data.Finset.Sort
import Mathlib.Data.String.Basic
import PPView.PrivateData.PrivateConstData

/-!
# The places of the cities of a plan

`DataList::GetLYPlaceList` goes through the cities of a plan and through the types it is asked for,
and takes out the places that are not to be planned. A city has a set of ids in the public data and,
for each tenant, one in the private data.
-/

namespace PPView.DataList

open PrivateData (Place CityMap PrivateConstData)

/-- `LYConstData`. The view of a ticket is no ticket itself. -/
structure ConstData where
  id2place : String → Option Place
  cityPlaces : CityMap → String → Finset String
  priData : PrivateConstData
  m_view : Place → String
  m_view_t : ∀ ticket ptid view,
    (priData.getLYPlace (m_view ticket) ptid <|> id2place (m_view ticket)) = some view →
      view.t ≠ LY_PLACE_TYPE_VIEWTICKET

structure CityPlan where
  m_listCity : List String
  ptid : String
  m_notPlanSet : Finset String

namespace ConstData

variable (d : ConstData)

def IsShieldId (ptid id : String) : Prop := ptid ≠ "" ∧ id ∈ d.priData.shields ptid

instance (ptid id : String) : Decidable (d.IsShieldId ptid id) :=
  inferInstanceAs (Decidable (_ ∧ _))

/-- The private place, else the public one. -/
def findPlace (id ptid : String) : Option Place := d.priData.getLYPlace id ptid <|> d.id2place id

/-- Here `GetLYPlace` finds no ticket, and does not call itself again. -/
def getViewByViewTicket (viewTicket : Place) (ptid : String) : Option Place :=
  let id := d.m_view viewTicket
  if id = "" ∨ d.IsShieldId ptid id then none
  else (d.findPlace id ptid).filter fun place => place.ptid = "" ∨ place.ptid = ptid

def getLYPlace (id ptid : String) : Option Place :=
  if id = "" ∨ d.IsShieldId ptid id then none
  else (d.findPlace id ptid).filter fun place =>
    place.t ≠ LY_PLACE_TYPE_VIEWTICKET ∨ (d.getViewByViewTicket place ptid).isSome

/-- The ids that the public and the private data have for a city. -/
def idLists (m : CityMap) (cityID ptid : String) : Finset String :=
  if ptid ≠ "" then d.cityPlaces m cityID ∪ d.priData.cityPlaces m ptid cityID
  else d.cityPlaces m cityID

/-- A `std::set` of strings is walked through in order. -/
def getLocal (m : CityMap) (cityID ptid : String) : List Place :=
  ((d.idLists m cityID ptid).filter fun id => ¬ d.IsShieldId ptid id).sort.filterMap
    (d.getLYPlace · ptid)

def getViewLocal : String → String → List Place := d.getLocal .cityViews

def getShopLocal : String → String → List Place := d.getLocal .cityShops

def getRestaurantLocal : String → String → List Place := d.getLocal .cityRestaurants

def getCityPlace (cityID : String) (type : ℕ) (pList : List Place) (ptid : String) : List Place :=
  let pList :=
    if type &&& LY_PLACE_TYPE_VIEW ≠ 0 then pList ++ d.getViewLocal cityID ptid else pList
  let pList :=
    if type &&& LY_PLACE_TYPE_SHOP ≠ 0 then pList ++ d.getShopLocal cityID ptid else pList
  if type &&& LY_PLACE_TYPE_RESTAURANT ≠ 0 then pList ++ d.getRestaurantLocal cityID ptid
  else pList

end ConstData

/-- `BasePlan::RemoveNotPlanPlace`, for places that have an id. -/
def removeNotPlanPlace {P : Type} (id : P → String) (m_notPlanSet : Finset String)
    (placeList : List P) : List P :=
  placeList.filter (id · ∉ m_notPlanSet)

def getLYPlaceList (d : ConstData) (basePlan : CityPlan) (placeType : ℕ) (pList : List Place) :
    List Place :=
  removeNotPlanPlace Place.id basePlan.m_notPlanSet
    (basePlan.m_listCity.foldl (fun pList cityID =>
      d.getCityPlace cityID placeType pList basePlan.ptid) pList)

/-! ## Listings -/

/-- The types that can be asked for, in the order in which they are looked at. -/
def cityTypes : List (ℕ × CityMap) :=
  [(LY_PLACE_TYPE_VIEW, .cityViews), (LY_PLACE_TYPE_SHOP, .cityShops),
    (LY_PLACE_TYPE_RESTAURANT, .cityRestaurants)]

/-- An id that a city has under a type. -/
structure Listing where
  cityID : String
  m : CityMap
  id : String

namespace Listing

variable (d : ConstData) (basePlan : CityPlan) (placeType : ℕ)

/-- The city is one of the plan's, the type is asked for and the place is not shielded. -/
structure Asked (listing : Listing) : Prop where
  city : listing.cityID ∈ basePlan.m_listCity
  type : ∃ t, (t, listing.m) ∈ cityTypes ∧ placeType &&& t ≠ 0
  id : listing.id ∈ d.idLists listing.m listing.cityID basePlan.ptid
  shield : ¬ d.IsShieldId basePlan.ptid listing.id

/-- The place of a listing, if there is one and it can be planned. -/
def place (listing : Listing) : Option Place :=
  (d.getLYPlace listing.id basePlan.ptid).filter (·.id ∉ basePlan.m_notPlanSet)

end Listing

section

variable (d : ConstData) (basePlan : CityPlan) (placeType : ℕ)

/-- The listings of a city, as `GetCityPlace` walks through them. -/
def cityListings (cityID : String) : List Listing :=
  (cityTypes.filter fun type => placeType &&& type.1 ≠ 0).flatMap fun type =>
    ((d.idLists type.2 cityID basePlan.ptid).filter
      fun id => ¬ d.IsShieldId basePlan.ptid id).sort.map (⟨cityID, type.2, ·⟩)

def listings : List Listing :=
  basePlan.m_listCity.flatMap (cityListings d basePlan placeType)

end

variable {d : ConstData} {basePlan : CityPlan} {placeType : ℕ} {listing : Listing}

theorem mem_listings : listing ∈ listings d basePlan placeType ↔
    listing.Asked d basePlan placeType := by
  simp only [listings, cityListings, List.mem_flatMap, List.mem_filter, List.mem_map,
    Finset.mem_sort, Finset.mem_filter, decide_eq_true_eq]
  constructor
  · rintro ⟨cityID, hcity, ⟨t, m⟩, ⟨hmem, ht⟩, id, ⟨hid, hshield⟩, rfl⟩
    exact ⟨hcity, ⟨t, hmem, ht⟩, hid, hshield⟩
  · rintro ⟨hcity, ⟨t, hmem, ht⟩, hid, hshield⟩
    exact ⟨_, hcity, (t, listing.m), ⟨hmem, ht⟩, listing.id, ⟨hid, hshield⟩, rfl⟩

theorem nodup_cityListings (cityID : String) : (cityListings d basePlan placeType cityID).Nodup := by
  have htypes : (cityTypes.map Prod.snd).Nodup := by decide
  unfold cityListings
  rw [List.nodup_flatMap]
  constructor
  · intro type _
    apply List.Nodup.map
    · intro id id' heq
      exact congrArg Listing.id heq
    · exact Finset.sort_nodup _ _
  · apply List.Pairwise.filter
    refine (List.pairwise_map.mp htypes).imp ?_
    intro type type' hne listing hmem hmem'
    obtain ⟨_, -, rfl⟩ := List.mem_map.mp hmem
    obtain ⟨_, -, heq⟩ := List.mem_map.mp hmem'
    exact hne (congrArg Listing.m heq).symm

theorem nodup_listings (hcity : basePlan.m_listCity.Nodup) :
    (listings d basePlan placeType).Nodup := by
  unfold listings
  rw [List.nodup_flatMap]
  refine ⟨fun cityID _ => nodup_cityListings cityID, hcity.imp ?_⟩
  intro cityID cityID' hne listing hmem hmem'
  have heq : ∀ cityID, listing ∈ cityListings d basePlan placeType cityID →
      listing.cityID = cityID := by
    intro cityID hmem
    obtain ⟨_, -, hmem⟩ := List.mem_flatMap.mp hmem
    obtain ⟨_, -, rfl⟩ := List.mem_map.mp hmem
    rfl
  exact hne ((heq _ hmem).symm.trans (heq _ hmem'))

/-! ## The list of places -/

theorem getCityPlace_eq (cityID : String) (pList : List Place) :
    d.getCityPlace cityID placeType pList basePlan.ptid = pList ++
      (cityListings d basePlan placeType cityID).filterMap
        fun listing => d.getLYPlace listing.id basePlan.ptid := by
  have hlocal : ∀ m, d.getLocal m cityID basePlan.ptid =
      (((d.idLists m cityID basePlan.ptid).filter
        fun id => ¬ d.IsShieldId basePlan.ptid id).sort.map (⟨cityID, m, ·⟩ : _ → Listing)).filterMap
          fun listing => d.getLYPlace listing.id basePlan.ptid := by
    intro m
    rw [List.filterMap_map]
    rfl
  simp only [ConstData.getCityPlace, ConstData.getViewLocal, ConstData.getShopLocal,
    ConstData.getRestaurantLocal, hlocal, cityListings, cityTypes, List.filter_cons,
    List.filter_nil, decide_eq_true_eq]
  split_ifs <;> simp [List.flatMap_cons, List.filterMap_append]

theorem getLYPlaceList_eq : getLYPlaceList d basePlan placeType [] =
    (listings d basePlan placeType).filterMap (Listing.place d basePlan) := by
  have hfold : ∀ (cities : List String) (pList : List Place),
      cities.foldl (fun pList cityID => d.getCityPlace cityID placeType pList basePlan.ptid) pList =
        pList ++ (cities.flatMap (cityListings d basePlan placeType)).filterMap
          fun listing => d.getLYPlace listing.id basePlan.ptid := by
    intro cities
    induction cities with
    | nil => simp
    | cons cityID cities ih =>
      intro pList
      rw [List.foldl_cons, ih, getCityPlace_eq, List.flatMap_cons, List.filterMap_append,
        List.append_assoc]
  unfold getLYPlaceList removeNotPlanPlace
  rw [hfold, List.nil_append, List.filter_filterMap]
  rfl

/-- Without repetition, exactly if no two elements of the list give the same. -/
theorem nodup_filterMap_iff {α β : Type*} {l : List α} (hl : l.Nodup) (f : α → Option β) :
    (l.filterMap f).Nodup ↔
      ∀ a ∈ l, ∀ a' ∈ l, ∀ b, f a = some b → f a' = some b → a = a' := by
  induction l with
  | nil => simp
  | cons a l ih =>
    obtain ⟨ha, hl⟩ := List.nodup_cons.mp hl
    specialize ih hl
    cases hfa : f a with
    | none => grind [List.filterMap_cons_none]
    | some b => grind [List.filterMap_cons_some, List.nodup_cons]

/-- A place of one of the cities, of a type that is asked for, that is not shielded and is not in
`m_notPlanSet`. -/
def Wanted (d : ConstData) (basePlan : CityPlan) (placeType : ℕ) (place : Place) : Prop :=
  ∃ listing : Listing, listing.Asked d basePlan placeType ∧
    listing.place d basePlan = some place

/-- What `GetLYPlaceList` is there for. -/
structure Collects (d : ConstData) (basePlan : CityPlan) (placeType : ℕ) (pList : List Place) :
    Prop where
  once : ∀ place, Wanted d basePlan placeType place → pList.count place = 1
  only : ∀ place ∈ pList, Wanted d basePlan placeType place

theorem mem_getLYPlaceList {place : Place} : place ∈ getLYPlaceList d basePlan placeType [] ↔
    Wanted d basePlan placeType place := by
  simp only [getLYPlaceList_eq, List.mem_filterMap, mem_listings, Wanted]

/-- The places are collected exactly if no place that can be planned is listed twice. -/
theorem getLYPlaceList_collects_iff (d : ConstData) (basePlan : CityPlan) (placeType : ℕ)
    (hcity : basePlan.m_listCity.Nodup) :
    Collects d basePlan placeType (getLYPlaceList d basePlan placeType []) ↔
      ∀ listing listing' : Listing, listing.Asked d basePlan placeType →
        listing'.Asked d basePlan placeType → ∀ place, listing.place d basePlan = some place →
          listing'.place d basePlan = some place → listing = listing' := by
  have hlistings : (listings d basePlan placeType).Nodup := nodup_listings hcity
  have hnodup := nodup_filterMap_iff hlistings (Listing.place d basePlan)
  rw [← getLYPlaceList_eq] at hnodup
  simp only [mem_listings] at hnodup
  constructor
  · intro h listing listing' hlisting hlisting'
    refine hnodup.mp (List.nodup_iff_count_le_one.mpr fun place => ?_) _ hlisting _ hlisting'
    by_cases hmem : place ∈ getLYPlaceList d basePlan placeType []
    · exact (h.once place (h.only place hmem)).le
    · rw [List.count_eq_zero_of_not_mem hmem]
      exact Nat.zero_le 1
  · intro h
    refine ⟨fun place hplace => ?_, fun place hmem => mem_getLYPlaceList.mp hmem⟩
    apply List.count_eq_one_of_mem
    · exact hnodup.mpr fun listing hlisting listing' hlisting' =>
        h listing listing' hlisting hlisting'
    · exact mem_getLYPlaceList.mpr hplace

/-- A view that the cities `a` and `b` have. -/
def sharedView : Place where
  id := "v1"
  ptid := ""
  cls := .view
  t := LY_PLACE_TYPE_VIEW
  cidList := ["a", "b"]
  type_eq := fun _ h => Option.some.inj h

def sharedData : ConstData where
  id2place id := if id = "v1" then some sharedView else none
  cityPlaces m cityID :=
    if m = .cityViews ∧ (cityID = "a" ∨ cityID = "b") then {"v1"} else ∅
  priData := {}
  m_view _ := ""
  m_view_t _ _ _ h := by simp [PrivateConstData.getLYPlace, PrivateConstData.lookup] at h

def planOf (m_listCity : List String) : CityPlan where
  m_listCity := m_listCity
  ptid := ""
  m_notPlanSet := ∅

/-- A view that only one city has. -/
def ownView (id cityID : String) : Place := { sharedView with id, cidList := [cityID] }

def ownData : ConstData where
  id2place id :=
    if id = "v1" then some (ownView "v1" "a")
    else if id = "v2" then some (ownView "v2" "b")
    else none
  cityPlaces m cityID :=
    if m = .cityViews ∧ cityID = "a" then {"v1"}
    else if m = .cityViews ∧ cityID = "b" then {"v2"}
    else ∅
  priData := {}
  m_view _ := ""
  m_view_t _ _ _ h := by simp [PrivateConstData.getLYPlace, PrivateConstData.lookup] at h

/-- Two cities with a view each. -/
theorem getLYPlaceList_collects_iff_ownView :
    Collects ownData (planOf ["a", "b"]) LY_PLACE_TYPE_VIEW
      (getLYPlaceList ownData (planOf ["a", "b"]) LY_PLACE_TYPE_VIEW []) := by
  have hasked : ∀ listing : Listing, listing.Asked ownData (planOf ["a", "b"]) LY_PLACE_TYPE_VIEW →
      listing = ⟨"a", .cityViews, "v1"⟩ ∨ listing = ⟨"b", .cityViews, "v2"⟩ := by
    rintro ⟨cityID, m, id⟩ ⟨-, -, hid, -⟩
    simp only [ConstData.idLists, planOf, ne_eq, not_true_eq_false, if_false, ownData] at hid
    split_ifs at hid with ha hb
    · obtain ⟨rfl, rfl⟩ := ha
      exact .inl (by rw [Finset.mem_singleton.mp hid])
    · obtain ⟨rfl, rfl⟩ := hb
      exact .inr (by rw [Finset.mem_singleton.mp hid])
    · exact absurd hid (Finset.notMem_empty id)
  have hplace : Listing.place ownData (planOf ["a", "b"]) ⟨"a", .cityViews, "v1"⟩ =
        some (ownView "v1" "a") ∧
      Listing.place ownData (planOf ["a", "b"]) ⟨"b", .cityViews, "v2"⟩ =
        some (ownView "v2" "b") := ⟨rfl, rfl⟩
  have hne : ownView "v1" "a" ≠ ownView "v2" "b" := fun h => absurd (congrArg Place.id h) (by decide)
  apply (getLYPlaceList_collects_iff ownData (planOf ["a", "b"]) LY_PLACE_TYPE_VIEW (by decide)).mpr
  intro listing listing' hlisting hlisting' place hsome hsome'
  rcases hasked listing hlisting with rfl | rfl <;> rcases hasked listing' hlisting' with rfl | rfl
  · rfl
  · exact absurd (Option.some.inj ((hplace.1.symm.trans hsome).trans (hsome'.symm.trans hplace.2))) hne
  · exact absurd (Option.some.inj ((hplace.1.symm.trans hsome').trans (hsome.symm.trans hplace.2))) hne
  · rfl

/-- The view is there twice. -/
theorem not_collects_sharedView : (planOf ["a", "b"]).m_listCity.Nodup ∧
    ¬ Collects sharedData (planOf ["a", "b"]) LY_PLACE_TYPE_VIEW
      (getLYPlaceList sharedData (planOf ["a", "b"]) LY_PLACE_TYPE_VIEW []) := by
  have hlocal : ∀ cityID, cityID = "a" ∨ cityID = "b" →
      sharedData.getViewLocal cityID "" = [sharedView] := by
    rintro cityID hcity
    have hids : (sharedData.idLists .cityViews cityID "").filter
        (fun id => ¬ sharedData.IsShieldId "" id) = {"v1"} := by
      rcases hcity with rfl | rfl <;> decide
    unfold ConstData.getViewLocal ConstData.getLocal
    rw [hids, Finset.sort_singleton]
    rfl
  have hlist : getLYPlaceList sharedData (planOf ["a", "b"]) LY_PLACE_TYPE_VIEW [] =
      [sharedView, sharedView] := by
    have ha := hlocal "a" (.inl rfl)
    have hb := hlocal "b" (.inr rfl)
    simp only [getLYPlaceList, removeNotPlanPlace, planOf, List.foldl_cons, List.foldl_nil,
      ConstData.getCityPlace, ha, hb]
    rfl
  refine ⟨by decide, fun h => ?_⟩
  have hwanted : Wanted sharedData (planOf ["a", "b"]) LY_PLACE_TYPE_VIEW sharedView := by
    refine ⟨⟨"a", .cityViews, "v1"⟩, ⟨by decide, ⟨LY_PLACE_TYPE_VIEW, by decide⟩, ?_, ?_⟩, rfl⟩
    · decide
    · decide
  have hcount := h.once sharedView hwanted
  rw [hlist] at hcount
  exact absurd hcount (by decide)

end PPView.DataList
