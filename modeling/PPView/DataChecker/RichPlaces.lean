import Mathlib.Algebra.GroupWithZero.Nat
import Mathlib.Data.Finset.Card
import Mathlib.Data.List.Nodup
import PPView.DataChecker.SortAllPlace
import PPView.DataList.CityPlaces

/-!
# Recommended restaurants and shops

`DataChecker::GetRestaurant` and `GetShop` count the must places of their kind. If the trip is long
enough for more of them, and places are to be recommended, they add open candidates to the wait
list.
-/

namespace PPView.DataChecker

open DataList (removeNotPlanPlace)

def RESTAURANT_TYPE_LUNCH : ℕ := 0x00000002
def RESTAURANT_TYPE_SUPPER : ℕ := 0x00000008

/-- `SHOP_INTENSITY_TYPE`. -/
inductive ShopIntensity where
  | null | lookAround | shopaholic
  deriving DecidableEq

structure RouteBlock where
  _dates : List String
  _day_limit : ℕ

/-- The must places are a set, here in the order in which it is walked through. -/
structure RichPlan where
  m_userMustPlaceSet : List LYPlace
  m_waitPlaceList : List LYPlace := []
  m_RouteBlockList : List RouteBlock
  m_richPlace : Bool
  m_shopIntensity : ShopIntensity := .null
  m_notPlanSet : Finset String := ∅
  m_RestNeedNum : ℕ := 0
  m_ShopNeedNum : ℕ := 0
  m_RestTypeMap : String → Option ℕ := fun _ => none

/-- `TimeIR::getTheDateOpenTimeRange` for the rule of a place. -/
abbrev OpenTimes := LYPlace → String → List String

namespace RichPlan

variable (basePlan : RichPlan) (openTimes : OpenTimes)

def IsVarPlaceOpen (varplace : LYPlace) : Prop :=
  ∃ routeBlock ∈ basePlan.m_RouteBlockList, ∃ date ∈ routeBlock._dates,
    openTimes varplace date ≠ []

instance (varplace : LYPlace) : Decidable (basePlan.IsVarPlaceOpen openTimes varplace) :=
  inferInstanceAs (Decidable (∃ _ ∈ _, ∃ _ ∈ _, _))

/-- A turn of the loop that counts the must places of a kind once for each id. -/
def countPlace (t : ℕ) (found : ℕ × Finset String) (place : LYPlace) : ℕ × Finset String :=
  if ¬ place.HasType t then found
  else if place.ID ∈ found.2 then found
  else (found.1 + 1, insert place.ID found.2)

def countMust (t : ℕ) : ℕ × Finset String :=
  basePlan.m_userMustPlaceSet.foldl (countPlace t) (0, ∅)

def dayStay : ℕ := (basePlan.m_RouteBlockList.map RouteBlock._day_limit).sum

def restRichNum : ℕ :=
  if basePlan.dayStay ≤ 2 then 0 else min (basePlan.dayStay / 2) 4

def shopRichNum : ℕ :=
  match basePlan.m_shopIntensity with
  | .lookAround => if basePlan.dayStay < 2 then 0 else min (basePlan.dayStay / 2) 4
  | .shopaholic => basePlan.dayStay
  | .null => 0

/-- The loop over the candidates, with the number of those that are added already. -/
def addPlaces (limit : ℕ) : List LYPlace → Finset String → ℕ → List LYPlace
  | [], _, _ => []
  | place :: places, addSet, cnt =>
    if limit ≤ cnt then []
    else if ¬ basePlan.IsVarPlaceOpen openTimes place then addPlaces limit places addSet cnt
    else if place.ID ∈ addSet then addPlaces limit places addSet cnt
    else place :: addPlaces limit places (insert place.ID addSet) (cnt + 1)

end RichPlan

/-- `cRestList` is what `getRestaurantLocal` gives. -/
def getRestaurant (openTimes : OpenTimes) (cRestList : List LYPlace) (basePlan : RichPlan) :
    RichPlan :=
  let (m_RestNeedNum, addSet) := basePlan.countMust LY_PLACE_TYPE_RESTAURANT
  if basePlan.m_richPlace ∧ basePlan.restRichNum > m_RestNeedNum then
    let m_RestNeedNum := basePlan.restRichNum
    -- the number is diminished by itself
    let restRichNum := basePlan.restRichNum - m_RestNeedNum
    let cRestList := removeNotPlanPlace LYPlace.ID basePlan.m_notPlanSet cRestList
    let added := basePlan.addPlaces openTimes (2 * restRichNum) cRestList addSet 0
    { basePlan with
      m_RestNeedNum
      m_waitPlaceList := basePlan.m_waitPlaceList ++ added
      m_RestTypeMap := added.foldl (fun types restaurant =>
        Function.update types restaurant.ID
          (some (RESTAURANT_TYPE_LUNCH ||| RESTAURANT_TYPE_SUPPER))) basePlan.m_RestTypeMap }
  else { basePlan with m_RestNeedNum }

/-- `showShopList` is what `GetLYPlaceList` and `SortList` give. -/
def getShop (openTimes : OpenTimes) (showShopList : List LYPlace) (basePlan : RichPlan) :
    RichPlan :=
  let (m_ShopNeedNum, addSet) := basePlan.countMust LY_PLACE_TYPE_SHOP
  if basePlan.m_richPlace ∧ basePlan.shopRichNum > m_ShopNeedNum then
    let m_ShopNeedNum := basePlan.shopRichNum
    let added := basePlan.addPlaces openTimes (2 * basePlan.shopRichNum) showShopList addSet 0
    { basePlan with m_ShopNeedNum, m_waitPlaceList := basePlan.m_waitPlaceList ++ added }
  else { basePlan with m_ShopNeedNum }

/-! ## The must places -/

namespace RichPlan

variable {basePlan : RichPlan} {openTimes : OpenTimes} {t limit cnt : ℕ} {addSet : Finset String}
  {places : List LYPlace}

/-- The ids of the must places of a kind. -/
def mustIds (basePlan : RichPlan) (t : ℕ) : Finset String :=
  ((basePlan.m_userMustPlaceSet.filter fun place => place.HasType t).map LYPlace.ID).toFinset

theorem foldl_countPlace (places : List LYPlace) (addSet : Finset String) :
    places.foldl (countPlace t) (addSet.card, addSet) =
      let ids := addSet ∪ ((places.filter fun place => place.HasType t).map LYPlace.ID).toFinset
      (ids.card, ids) := by
  induction places generalizing addSet with
  | nil => simp
  | cons place places ih =>
    rw [List.foldl_cons, countPlace]
    by_cases ht : place.HasType t
    · rw [if_neg (not_not_intro ht), List.filter_cons_of_pos (by simpa using ht), List.map_cons,
        List.toFinset_cons, Finset.union_insert, ← Finset.insert_union]
      by_cases hmem : place.ID ∈ addSet
      · rw [if_pos hmem, ih, Finset.insert_eq_of_mem hmem]
      · rw [if_neg hmem, ← Finset.card_insert_of_notMem hmem, ih]
    · rw [if_pos ht, ih, List.filter_cons_of_neg (by simpa using ht)]

theorem countMust_eq (basePlan : RichPlan) (t : ℕ) :
    basePlan.countMust t = ((basePlan.mustIds t).card, basePlan.mustIds t) := by
  have hfold := foldl_countPlace (t := t) basePlan.m_userMustPlaceSet ∅
  rw [Finset.empty_union] at hfold
  exact hfold

/-! ## The candidates -/

/-- The ids of the open candidates that are not in a set. -/
def availableIds (basePlan : RichPlan) (openTimes : OpenTimes) (addSet : Finset String)
    (places : List LYPlace) : Finset String :=
  ((places.filter fun place =>
    basePlan.IsVarPlaceOpen openTimes place ∧ place.ID ∉ addSet).map LYPlace.ID).toFinset

theorem mem_availableIds {id : String} : id ∈ basePlan.availableIds openTimes addSet places ↔
    ∃ place ∈ places, basePlan.IsVarPlaceOpen openTimes place ∧ place.ID ∉ addSet ∧
      place.ID = id := by
  simp [availableIds, and_assoc]

/-- Different open candidates whose ids are not in a set, as many as there can be up to a limit. -/
structure Adds (basePlan : RichPlan) (openTimes : OpenTimes) (limit : ℕ) (addSet : Finset String)
    (places added : List LYPlace) : Prop where
  candidate : ∀ place ∈ added, place ∈ places ∧ basePlan.IsVarPlaceOpen openTimes place
  fresh : ∀ place ∈ added, place.ID ∉ addSet
  nodup : (added.map LYPlace.ID).Nodup
  enough : min limit (basePlan.availableIds openTimes addSet places).card ≤ added.length

theorem addPlaces_of_le (h : limit ≤ cnt) :
    basePlan.addPlaces openTimes limit places addSet cnt = [] := by
  cases places with
  | nil => rfl
  | cons place places => rw [addPlaces, if_pos h]

theorem availableIds_cons_of_not {place : LYPlace}
    (h : ¬ (basePlan.IsVarPlaceOpen openTimes place ∧ place.ID ∉ addSet)) :
    basePlan.availableIds openTimes addSet (place :: places) =
      basePlan.availableIds openTimes addSet places := by
  unfold availableIds
  rw [List.filter_cons_of_neg (by simpa using h)]

theorem card_availableIds_cons (basePlan : RichPlan) (openTimes : OpenTimes)
    (addSet : Finset String) (places : List LYPlace) (place : LYPlace) :
    (basePlan.availableIds openTimes addSet (place :: places)).card ≤
      (basePlan.availableIds openTimes (insert place.ID addSet) places).card + 1 := by
  refine (Finset.card_le_card ?_).trans (Finset.card_insert_le place.ID _)
  intro id hid
  obtain ⟨place', hmem, hopen, hnot, rfl⟩ := mem_availableIds.mp hid
  rw [Finset.mem_insert]
  by_cases heq : place'.ID = place.ID
  · exact .inl heq
  · right
    rcases List.mem_cons.mp hmem with rfl | hmem
    · exact absurd rfl heq
    · exact mem_availableIds.mpr ⟨place', hmem, hopen, by simp [heq, hnot], rfl⟩

theorem Adds.skip {place : LYPlace} {added : List LYPlace}
    (h : ¬ (basePlan.IsVarPlaceOpen openTimes place ∧ place.ID ∉ addSet))
    (hadds : Adds basePlan openTimes limit addSet places added) :
    Adds basePlan openTimes limit addSet (place :: places) added := by
  refine ⟨fun place' hmem => ?_, hadds.fresh, hadds.nodup, ?_⟩
  · exact (hadds.candidate place' hmem).imp_left (List.mem_cons_of_mem _)
  · rw [availableIds_cons_of_not h]
    exact hadds.enough

theorem Adds.cons {place : LYPlace} {added : List LYPlace}
    (hopen : basePlan.IsVarPlaceOpen openTimes place) (hnot : place.ID ∉ addSet)
    (hadds : Adds basePlan openTimes limit (insert place.ID addSet) places added) :
    Adds basePlan openTimes (limit + 1) addSet (place :: places) (place :: added) := by
  constructor
  case candidate =>
    intro place' hmem
    rcases List.mem_cons.mp hmem with rfl | hmem
    · exact ⟨List.mem_cons_self, hopen⟩
    · exact (hadds.candidate place' hmem).imp_left (List.mem_cons_of_mem _)
  case fresh =>
    intro place' hmem
    rcases List.mem_cons.mp hmem with rfl | hmem
    · exact hnot
    · exact fun hid => hadds.fresh place' hmem (Finset.mem_insert_of_mem hid)
  case nodup =>
    rw [List.map_cons, List.nodup_cons]
    refine ⟨fun hmem => ?_, hadds.nodup⟩
    obtain ⟨place', hmem, heq⟩ := List.mem_map.mp hmem
    apply hadds.fresh place' hmem
    rw [heq]
    exact Finset.mem_insert_self _ _
  case enough =>
    have hcard := card_availableIds_cons basePlan openTimes addSet places place
    have henough := hadds.enough
    rw [List.length_cons]
    omega

theorem addPlaces_adds (basePlan : RichPlan) (openTimes : OpenTimes) (limit : ℕ)
    (places : List LYPlace) (addSet : Finset String) (cnt : ℕ) :
    Adds basePlan openTimes (limit - cnt) addSet places
      (basePlan.addPlaces openTimes limit places addSet cnt) := by
  induction places generalizing addSet cnt with
  | nil => exact ⟨by simp [addPlaces], by simp [addPlaces], by simp [addPlaces], by simp [availableIds]⟩
  | cons place places ih =>
    by_cases hlimit : limit ≤ cnt
    · rw [addPlaces_of_le hlimit, Nat.sub_eq_zero_of_le hlimit]
      exact ⟨by simp, by simp, by simp, by simp⟩
    · rw [addPlaces, if_neg hlimit]
      by_cases hopen : basePlan.IsVarPlaceOpen openTimes place
      · rw [if_neg (not_not_intro hopen)]
        by_cases hmem : place.ID ∈ addSet
        · rw [if_pos hmem]
          exact (ih addSet cnt).skip fun h => h.2 hmem
        · rw [if_neg hmem]
          have hsucc : limit - cnt = limit - (cnt + 1) + 1 := by omega
          rw [hsucc]
          exact (ih (insert place.ID addSet) (cnt + 1)).cons hopen hmem
      · rw [if_pos hopen]
        exact (ih addSet cnt).skip fun h => hopen h.1

theorem Adds.mono {limit' : ℕ} {added : List LYPlace} (hle : limit' ≤ limit)
    (hadds : Adds basePlan openTimes limit addSet places added) :
    Adds basePlan openTimes limit' addSet places added :=
  ⟨hadds.candidate, hadds.fresh, hadds.nodup, (min_le_min_right _ hle).trans hadds.enough⟩

/-- Where more places of a kind are recommended than there are must places, candidates are added for
those that are missing. -/
def Supplements (basePlan : RichPlan) (openTimes : OpenTimes) (t richNum : ℕ)
    (candidates : List LYPlace) (basePlan' : RichPlan) : Prop :=
  richNum > (basePlan.mustIds t).card →
    ∃ added, basePlan'.m_waitPlaceList = basePlan.m_waitPlaceList ++ added ∧
      Adds basePlan openTimes (richNum - (basePlan.mustIds t).card) (basePlan.mustIds t) candidates
        added

end RichPlan

section

variable {basePlan : RichPlan} {openTimes : OpenTimes} {candidates : List LYPlace}

theorem getShop_supplements (hrich : basePlan.m_richPlace) :
    basePlan.Supplements openTimes LY_PLACE_TYPE_SHOP basePlan.shopRichNum candidates
      (getShop openTimes candidates basePlan) := by
  intro hnum
  unfold getShop
  rw [RichPlan.countMust_eq]
  dsimp only
  rw [if_pos ⟨hrich, hnum⟩]
  refine ⟨_, rfl, ?_⟩
  apply RichPlan.Adds.mono _ (basePlan.addPlaces_adds openTimes (2 * basePlan.shopRichNum)
    candidates (basePlan.mustIds LY_PLACE_TYPE_SHOP) 0)
  omega

/-- No restaurant is ever added. -/
theorem getRestaurant_waitPlaceList (basePlan : RichPlan) :
    (getRestaurant openTimes candidates basePlan).m_waitPlaceList = basePlan.m_waitPlaceList := by
  unfold getRestaurant
  dsimp only
  split_ifs
  · rw [Nat.sub_self, RichPlan.addPlaces_of_le (Nat.zero_le _), List.append_nil]
  · rfl

theorem getRestaurant_supplements_iff {cRestList : List LYPlace} :
    basePlan.Supplements openTimes LY_PLACE_TYPE_RESTAURANT basePlan.restRichNum candidates
        (getRestaurant openTimes cRestList basePlan) ↔
      basePlan.restRichNum ≤ (basePlan.mustIds LY_PLACE_TYPE_RESTAURANT).card ∨
        basePlan.availableIds openTimes (basePlan.mustIds LY_PLACE_TYPE_RESTAURANT) candidates =
          ∅ := by
  unfold RichPlan.Supplements
  rw [getRestaurant_waitPlaceList]
  constructor
  · intro h
    rw [or_iff_not_imp_left, not_le]
    intro hnum
    obtain ⟨added, hadded, hadds⟩ := h hnum
    obtain rfl := List.self_eq_append_right.mp hadded
    have henough := hadds.enough
    rw [List.length_nil, nonpos_iff_eq_zero] at henough
    apply Finset.card_eq_zero.mp
    omega
  · rintro (hle | hnone) hnum
    · exact absurd hle (not_le.mpr hnum)
    · refine ⟨[], (List.append_nil _).symm, by simp, by simp, by simp, ?_⟩
      rw [hnone, Finset.card_empty, Nat.min_zero]
      exact Nat.zero_le _

end

/-- Shops are supplemented always, restaurants exactly if none are missing or none can be added. -/
theorem supplements_iff (openTimes : OpenTimes) (cRestList showShopList : List LYPlace)
    (basePlan : RichPlan) (hrich : basePlan.m_richPlace) :
    (basePlan.Supplements openTimes LY_PLACE_TYPE_RESTAURANT basePlan.restRichNum
          (removeNotPlanPlace LYPlace.ID basePlan.m_notPlanSet cRestList)
          (getRestaurant openTimes cRestList basePlan) ∧
        basePlan.Supplements openTimes LY_PLACE_TYPE_SHOP basePlan.shopRichNum showShopList
          (getShop openTimes showShopList basePlan)) ↔
      basePlan.restRichNum ≤ (basePlan.mustIds LY_PLACE_TYPE_RESTAURANT).card ∨
        basePlan.availableIds openTimes (basePlan.mustIds LY_PLACE_TYPE_RESTAURANT)
          (removeNotPlanPlace LYPlace.ID basePlan.m_notPlanSet cRestList) = ∅ := by
  rw [and_iff_left (getShop_supplements hrich), getRestaurant_supplements_iff]

/-- A trip of four days with a restaurant that is always open. -/
def fourDays : RichPlan where
  m_userMustPlaceSet := []
  m_RouteBlockList := [⟨["20180101", "20180102", "20180103", "20180104"], 4⟩]
  m_richPlace := true

def openRestaurant : LYPlace := ⟨"r1", LY_PLACE_TYPE_RESTAURANT, 0⟩

theorem supplements_iff_fourDays :
    (fourDays.Supplements (fun _ _ => ["10:00-20:00"]) LY_PLACE_TYPE_RESTAURANT
          fourDays.restRichNum
          (removeNotPlanPlace LYPlace.ID fourDays.m_notPlanSet [openRestaurant])
          (getRestaurant (fun _ _ => ["10:00-20:00"]) [openRestaurant] fourDays) ∧
        fourDays.Supplements (fun _ _ => ["10:00-20:00"]) LY_PLACE_TYPE_SHOP fourDays.shopRichNum []
          (getShop (fun _ _ => ["10:00-20:00"]) [] fourDays)) ↔
      fourDays.restRichNum ≤ (fourDays.mustIds LY_PLACE_TYPE_RESTAURANT).card ∨
        fourDays.availableIds (fun _ _ => ["10:00-20:00"])
          (fourDays.mustIds LY_PLACE_TYPE_RESTAURANT)
          (removeNotPlanPlace LYPlace.ID fourDays.m_notPlanSet [openRestaurant]) = ∅ :=
  supplements_iff (fun _ _ => ["10:00-20:00"]) [openRestaurant] [] fourDays rfl

/-- Two restaurants are recommended, and the one that there is is not added. -/
theorem not_supplements_fourDays : fourDays.m_richPlace ∧
    ¬ fourDays.Supplements (fun _ _ => ["10:00-20:00"]) LY_PLACE_TYPE_RESTAURANT
      fourDays.restRichNum (removeNotPlanPlace LYPlace.ID fourDays.m_notPlanSet [openRestaurant])
      (getRestaurant (fun _ _ => ["10:00-20:00"]) [openRestaurant] fourDays) := by
  refine ⟨rfl, ?_⟩
  rw [getRestaurant_supplements_iff]
  decide

end PPView.DataChecker
