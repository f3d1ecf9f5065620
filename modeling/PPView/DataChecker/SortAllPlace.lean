import Mathlib.Data.List.Count
import Mathlib.Data.List.Perm.Basic
import PPView.Define

/-!
# Sorting the places of a plan

`DataChecker::SortAllPlace` puts the must places in front of the other ones and cuts the list. Of
`std::stable_sort` with `varPlaceCmp` only that it permutes a list is used.
-/

namespace PPView.DataChecker

/-- A place has the class that its type bits say, so `dynamic_cast` gives the place itself. -/
structure LYPlace where
  ID : String
  t : ℕ
  rec_priority : Int := 0
  deriving DecidableEq

namespace LYPlace

def HasType (place : LYPlace) (t : ℕ) : Prop := place.t &&& t ≠ 0

instance (place : LYPlace) (t : ℕ) : Decidable (place.HasType t) :=
  inferInstanceAs (Decidable (_ ≠ _))

/-- A place to be recommended first. -/
def IsRec (place : LYPlace) : Prop := place.rec_priority = 10

instance (place : LYPlace) : Decidable place.IsRec := inferInstanceAs (Decidable (_ = _))

/-- A view, a shop, a restaurant or a tour. -/
def IsVarPlace (place : LYPlace) : Prop :=
  place.HasType LY_PLACE_TYPE_VIEW ∨ place.HasType LY_PLACE_TYPE_SHOP ∨
    place.HasType LY_PLACE_TYPE_RESTAURANT ∨ place.HasType LY_PLACE_TYPE_TOURALL

instance (place : LYPlace) : Decidable place.IsVarPlace := inferInstanceAs (Decidable (_ ∨ _))

end LYPlace

/-- The must places are a set, here in the order in which it is walked through. -/
structure SortPlan where
  m_userMustPlaceSet : List LYPlace
  m_waitPlaceList : List LYPlace
  m_userOptSet : List LYPlace := []
  nodup_must : m_userMustPlaceSet.Nodup

/-- `std::stable_sort` with a comparator that need not be an order. -/
structure Sorter where
  sort : List LYPlace → List LYPlace
  sort_perm : ∀ l, (sort l).Perm l

/-! ## The lists -/

structure PlaceLists where
  viewList : List LYPlace := []
  shopList : List LYPlace := []
  restList : List LYPlace := []
  tourList : List LYPlace := []
  otherList : List LYPlace := []
  recList : List LYPlace := []
  shopAndViewList : List LYPlace := []

/-- A turn of the loop over the places. -/
def PlaceLists.push (lists : PlaceLists) (place : LYPlace) : PlaceLists :=
  if place.IsRec then { lists with recList := lists.recList ++ [place] }
  else if place.HasType LY_PLACE_TYPE_VIEW then
    { lists with
      viewList := lists.viewList ++ [place]
      shopAndViewList := lists.shopAndViewList ++ [place] }
  else if place.HasType LY_PLACE_TYPE_SHOP then
    { lists with
      shopList := lists.shopList ++ [place]
      shopAndViewList := lists.shopAndViewList ++ [place] }
  else if place.HasType LY_PLACE_TYPE_RESTAURANT then
    { lists with restList := lists.restList ++ [place] }
  else if place.HasType LY_PLACE_TYPE_TOURALL then
    { lists with tourList := lists.tourList ++ [place] }
  else { lists with otherList := lists.otherList ++ [place] }

/-- The set of the places that are there by choice, and the sorted list. -/
def sortPlaceList (sorter : Sorter) (t m_userOptSet : List LYPlace) (isShopSortWithView : Bool) :
    List LYPlace × List LYPlace :=
  let lists := t.foldl PlaceLists.push {}
  let mixed :=
    if isShopSortWithView then sorter.sort lists.shopAndViewList
    else sorter.sort lists.viewList ++ sorter.sort lists.shopList
  (m_userOptSet ∪ lists.recList,
    sorter.sort lists.recList ++ mixed ++ sorter.sort lists.restList ++ sorter.sort lists.tourList)

/-- `erase(begin() + pos, end())`, which must not begin behind the end. -/
def eraseFrom (l : List LYPlace) (pos : ℕ) : Option (List LYPlace) :=
  if pos ≤ l.length then some (l.take pos) else none

/-- The list is cut behind `mustNum` places, or 100 if that is more. -/
def cutPlaceList (mustNum : ℕ) (placeList : List LYPlace) : Option (List LYPlace) :=
  if placeList.length > 100 then
    let delPos := if 100 < mustNum then mustNum else 100
    eraseFrom placeList delPos
  else some placeList

def sortAllPlace (sorter : Sorter) (plan : SortPlan) : Option SortPlan :=
  let must := sortPlaceList sorter plan.m_userMustPlaceSet plan.m_userOptSet false
  let wait := sortPlaceList sorter plan.m_waitPlaceList must.1 true
  (cutPlaceList plan.m_userMustPlaceSet.length (must.2 ++ wait.2)).map fun m_waitPlaceList =>
    { plan with m_waitPlaceList, m_userOptSet := wait.1 }

/-! ## What is in the lists -/

/-- Every place of `t` is in one list, those to be recommended first in their own; views and shops
are in one more list together. -/
structure Distributes (t : List LYPlace) (lists : PlaceLists) : Prop where
  perm : t.Perm (lists.recList ++ (lists.viewList ++ lists.shopList) ++ lists.restList ++
    lists.tourList ++ lists.otherList)
  mixed : lists.shopAndViewList.Perm (lists.viewList ++ lists.shopList)
  isRec : ∀ place ∈ lists.recList, place.IsRec
  not_isRec : ∀ place ∈ lists.viewList ++ lists.shopList ++ lists.restList ++ lists.tourList,
    ¬ place.IsRec
  other : ∀ place ∈ lists.otherList, ¬ place.IsVarPlace

variable {t : List LYPlace} {lists : PlaceLists}

theorem Distributes.push (h : Distributes t lists) (place : LYPlace) :
    Distributes (t ++ [place]) (lists.push place) := by
  unfold PlaceLists.push
  constructor
  case perm =>
    refine (h.perm.append_right [place]).trans ?_
    split_ifs
    all_goals
      rw [List.perm_iff_count]
      intro other
      simp only [List.count_append]
      omega
  case mixed =>
    have hmixed := h.mixed
    rw [List.perm_iff_count] at hmixed ⊢
    intro other
    have hcount := hmixed other
    split_ifs
    all_goals
      simp only [List.count_append] at hcount ⊢
      omega
  case isRec =>
    have hrec := h.isRec
    split_ifs <;> grind
  case not_isRec =>
    have hnot := h.not_isRec
    split_ifs <;> grind
  case other =>
    have hother := h.other
    split_ifs <;> grind [LYPlace.IsVarPlace]

theorem Distributes.foldl (h : Distributes t lists) (places : List LYPlace) :
    Distributes (t ++ places) (places.foldl PlaceLists.push lists) := by
  induction places generalizing t lists with
  | nil => rwa [List.append_nil]
  | cons place places ih =>
    rw [List.foldl_cons, List.append_cons]
    exact ih (h.push place)

theorem distributes (t : List LYPlace) : Distributes t (t.foldl PlaceLists.push {}) := by
  have hnil : Distributes [] {} := ⟨.nil, .nil, by simp, by simp, by simp⟩
  exact hnil.foldl t

theorem Distributes.otherList_eq_nil (h : Distributes t lists)
    (ht : ∀ place ∈ t, place.IsVarPlace) : lists.otherList = [] := by
  refine List.eq_nil_iff_forall_not_mem.mpr fun place hmem => ?_
  exact h.other place hmem (ht place (h.perm.mem_iff.mpr (List.mem_append_right _ hmem)))

/-! ## Sorted lists -/

/-- The places to be recommended first come first. -/
def RecFirst (l : List LYPlace) : Prop := l.Pairwise fun place other => other.IsRec → place.IsRec

theorem recFirst_append {l l' : List LYPlace} (h : ∀ place ∈ l, place.IsRec)
    (h' : ∀ place ∈ l', ¬ place.IsRec) : RecFirst (l ++ l') := by
  unfold RecFirst
  rw [List.pairwise_append]
  refine ⟨?_, ?_, fun place hplace _ _ _ => h place hplace⟩
  · exact List.pairwise_of_forall_mem_list fun place hplace _ _ _ => h place hplace
  · exact List.pairwise_of_forall_mem_list fun _ _ other hother hrec => absurd hrec (h' other hother)

theorem sortPlaceList_spec (sorter : Sorter) (m_userOptSet : List LYPlace)
    (isShopSortWithView : Bool) (ht : ∀ place ∈ t, place.IsVarPlace) :
    (sortPlaceList sorter t m_userOptSet isShopSortWithView).2.Perm t ∧
      RecFirst (sortPlaceList sorter t m_userOptSet isShopSortWithView).2 := by
  have h := distributes t
  unfold sortPlaceList
  generalize t.foldl PlaceLists.push {} = lists at h
  dsimp only
  set mixed := if isShopSortWithView then sorter.sort lists.shopAndViewList
    else sorter.sort lists.viewList ++ sorter.sort lists.shopList with hmixed
  have hviews : mixed.Perm (lists.viewList ++ lists.shopList) := by
    rw [hmixed]
    split_ifs
    · exact (sorter.sort_perm _).trans h.mixed
    · exact (sorter.sort_perm _).append (sorter.sort_perm _)
  have hrest : (mixed ++ sorter.sort lists.restList ++ sorter.sort lists.tourList).Perm
      (lists.viewList ++ lists.shopList ++ lists.restList ++ lists.tourList) :=
    (hviews.append (sorter.sort_perm _)).append (sorter.sort_perm _)
  have hrec := sorter.sort_perm lists.recList
  rw [List.append_assoc, List.append_assoc, ← List.append_assoc mixed]
  constructor
  · have hperm := h.perm
    rw [h.otherList_eq_nil ht, List.append_nil] at hperm
    refine (hrec.append hrest).trans ?_
    simpa using hperm.symm
  · refine recFirst_append (fun place hplace => ?_) fun place hplace => ?_
    · exact h.isRec place (hrec.mem_iff.mp hplace)
    · exact h.not_isRec place (hrest.mem_iff.mp hplace)

/-! ## The wait list -/

/-- The must places, then the beginning of the others in some order with those to be recommended
first in front; as many as there are, but at most 100 unless there are more must places. -/
structure Arranges (musts others result : List LYPlace) : Prop where
  parts : ∃ l l', l.Perm musts ∧ l'.Perm others ∧ RecFirst l' ∧ l <+: result ∧ result <+: l ++ l'
  once : ∀ place ∈ musts, result.count place = 1
  length : result.length = min (musts.length + others.length) (max 100 musts.length)

theorem cutPlaceList_eq {mustNum : ℕ} {l : List LYPlace} (h : mustNum ≤ l.length) :
    cutPlaceList mustNum l = some (l.take (max 100 mustNum)) := by
  have hmax : (if 100 < mustNum then mustNum else 100) = max 100 mustNum := by
    split_ifs <;> omega
  unfold cutPlaceList eraseFrom
  rw [hmax]
  by_cases hlong : l.length > 100
  · rw [if_pos hlong, if_pos (by omega)]
  · rw [if_neg hlong, List.take_of_length_le (by omega)]

theorem arranges_take {musts others l l' : List LYPlace} (hl : l.Perm musts) (hl' : l'.Perm others)
    (hrec : RecFirst l') (hnodup : musts.Nodup) (hapart : ∀ place ∈ musts, place ∉ others) :
    Arranges musts others ((l ++ l').take (max 100 musts.length)) := by
  have hlen := hl.length_eq
  have hsplit : (l ++ l').take (max 100 musts.length) =
      l ++ l'.take (max 100 musts.length - l.length) := by
    rw [List.take_append, List.take_of_length_le (by omega)]
  refine ⟨⟨l, l', hl, hl', hrec, ?_, List.take_prefix _ _⟩, fun place hplace => ?_, ?_⟩
  · rw [hsplit]
    exact List.prefix_append _ _
  · have hmust : l.count place = 1 := by
      rw [hl.count_eq, hnodup.count, if_pos hplace]
    have hother : (l'.take (max 100 musts.length - l.length)).count place = 0 := by
      apply List.count_eq_zero_of_not_mem
      intro hmem
      exact hapart place hplace (hl'.mem_iff.mp (List.mem_of_mem_take hmem))
    rw [hsplit, List.count_append, hmust, hother]
  · rw [List.length_take, List.length_append, hlen, hl'.length_eq, Nat.min_comm]

/-- The must places and the others have no place in common. The cut never begins behind the end. -/
theorem sortAllPlace_arranges (sorter : Sorter) (plan : SortPlan)
    (hmust : ∀ place ∈ plan.m_userMustPlaceSet, place.IsVarPlace)
    (hwait : ∀ place ∈ plan.m_waitPlaceList, place.IsVarPlace)
    (hapart : ∀ place ∈ plan.m_userMustPlaceSet, place ∉ plan.m_waitPlaceList) :
    ∃ plan', sortAllPlace sorter plan = some plan' ∧
      plan'.m_userMustPlaceSet = plan.m_userMustPlaceSet ∧
      Arranges plan.m_userMustPlaceSet plan.m_waitPlaceList plan'.m_waitPlaceList := by
  obtain ⟨hl, -⟩ := sortPlaceList_spec sorter plan.m_userOptSet false hmust
  unfold sortAllPlace
  generalize sortPlaceList sorter plan.m_userMustPlaceSet plan.m_userOptSet false = must at hl
  obtain ⟨hl', hrec⟩ := sortPlaceList_spec sorter must.1 true hwait
  have hle : plan.m_userMustPlaceSet.length ≤
      (must.2 ++ (sortPlaceList sorter plan.m_waitPlaceList must.1 true).2).length := by
    rw [List.length_append, hl.length_eq]
    omega
  dsimp only
  rw [cutPlaceList_eq hle]
  exact ⟨_, rfl, rfl, arranges_take hl hl' hrec plan.nodup_must hapart⟩

/-- A shop that must be visited, and a view and a restaurant to be recommended first behind it. -/
def shopPlan : SortPlan where
  m_userMustPlaceSet := [⟨"s1", LY_PLACE_TYPE_SHOP, 0⟩]
  m_waitPlaceList := [⟨"v1", LY_PLACE_TYPE_VIEW, 0⟩, ⟨"r1", LY_PLACE_TYPE_RESTAURANT, 10⟩]
  nodup_must := by decide

theorem sortAllPlace_arranges_shopPlan : ∃ plan',
    sortAllPlace ⟨List.reverse, List.reverse_perm⟩ shopPlan = some plan' ∧
      plan'.m_userMustPlaceSet = shopPlan.m_userMustPlaceSet ∧
      Arranges shopPlan.m_userMustPlaceSet shopPlan.m_waitPlaceList plan'.m_waitPlaceList :=
  sortAllPlace_arranges ⟨List.reverse, List.reverse_perm⟩ shopPlan (by decide) (by decide)
    (by decide)

end PPView.DataChecker
