import Mathlib.Data.Finset.Card
import PPView.Plan.Allocation

/-!
# The plan that `DoAlloc` leaves

The places that still wait are those that some block knows, no more restaurants and shops than are
needed. A place that was thrown out has failed, or there are enough of its kind.
-/

namespace PPView

namespace AllocPlan

variable {plan plan' : AllocPlan} {fuel : ℕ} {tmp : TimeIR.DateRange} {place : AllocPlace}
  {s s' : PlaceInfoAlloc × AllocPlan} {kind : AllocPlace → Bool} {places : List AllocPlace}
  {ids : List String}

/-! ## The numbers of restaurants and shops -/

def isShop (plan : AllocPlan) (place : AllocPlace) : Bool :=
  !plan.isRestaurant place && place.t &&& LY_PLACE_TYPE_SHOP ≠ 0

/-- The identifiers of the places of a kind. -/
def idsOf (places : List AllocPlace) (kind : AllocPlace → Bool) : List String :=
  (places.filter kind).map (·.ID)

/-- The number of different places of a kind. -/
def kindNum (places : List AllocPlace) (kind : AllocPlace → Bool) : ℕ :=
  (idsOf places kind).toFinset.card

theorem mem_idsOf {id : String} :
    id ∈ idsOf places kind ↔ ∃ place ∈ places, kind place = true ∧ place.ID = id := by
  simp [idsOf, and_assoc]

theorem kindNum_filter (hids : ids.Nodup) :
    kindNum (places.filter fun place => place.ID ∈ ids) kind =
      ids.countP fun id => id ∈ idsOf places kind := by
  rw [List.countP_eq_length_filter, ← List.toFinset_card_of_nodup (hids.filter _), kindNum]
  congr 1
  ext id
  simp only [List.mem_toFinset, mem_idsOf, List.mem_filter, decide_eq_true_eq]
  constructor
  · rintro ⟨place, ⟨hplace, hid⟩, hkind, rfl⟩
    exact ⟨hid, place, hplace, hkind, rfl⟩
  · rintro ⟨hid, place, hplace, hkind, rfl⟩
    exact ⟨place, ⟨hplace, hid⟩, hkind, rfl⟩

/-- Every identifier belongs to places of one type only. -/
def OneType (places : List AllocPlace) : Prop :=
  ∀ place ∈ places, ∀ place' ∈ places, place.ID = place'.ID → place.t = place'.t

theorem isRestaurant_congr {place' : AllocPlace} (hid : place.ID = place'.ID)
    (ht : place.t = place'.t) : plan.isRestaurant place = plan.isRestaurant place' := by
  unfold isRestaurant
  rw [hid, ht]

theorem isShop_congr {place' : AllocPlace} (hid : place.ID = place'.ID)
    (ht : place.t = place'.t) : plan.isShop place = plan.isShop place' := by
  unfold isShop
  rw [isRestaurant_congr hid ht, ht]

theorem mem_idsOf_iff (htypes : OneType places) (hplace : place ∈ places)
    (hkind : ∀ place', place.ID = place'.ID → place.t = place'.t → kind place = kind place') :
    place.ID ∈ idsOf places kind ↔ kind place = true := by
  rw [mem_idsOf]
  constructor
  · rintro ⟨place', hplace', htrue, hid⟩
    rw [hkind place' hid.symm (htypes place hplace place' hplace' hid.symm)]
    exact htrue
  · exact fun htrue => ⟨place, hplace, htrue, rfl⟩

/-- The counts are those of the places that have been entered. -/
structure Counts (plan : AllocPlan) (alloc : PlaceInfoAlloc) : Prop where
  nodup : alloc.allocable_place_set.Nodup
  rest : alloc.allocated_rest_cnt = alloc.allocable_place_set.countP fun id =>
    id ∈ idsOf plan.waitPlaceList plan.isRestaurant
  rest_le : alloc.allocated_rest_cnt ≤ max 0 plan.restNeedNum
  shop : alloc.allocated_shop_cnt = alloc.allocable_place_set.countP fun id =>
    id ∈ idsOf plan.waitPlaceList plan.isShop
  shop_le : alloc.allocated_shop_cnt ≤ max 0 plan.shopNeedNum

theorem countP_cons_ids {id : String} {q : Prop} [Decidable q]
    (hid : id ∈ idsOf places kind ↔ q) :
    (((id :: ids).countP fun id => id ∈ idsOf places kind : ℕ) : ℤ) =
      (ids.countP fun id => id ∈ idsOf places kind : ℕ) + if q then 1 else 0 := by
  rw [List.countP_cons]
  simp [hid]

theorem add_le_need {count need : ℤ} {q : Prop} [Decidable q] (hle : count ≤ max 0 need)
    (hlt : q → count < need) : count + (if q then 1 else 0) ≤ max 0 need := by
  split_ifs with hq
  · have := hlt hq
    omega
  · omega

theorem Counts.settle {ret : Bool} {plan₁ : AllocPlan} (h : Counts plan s.1)
    (hframe : Frame plan s.2) (hframe' : Frame plan plan₁) (htypes : OneType plan.waitPlaceList)
    (hplace : place ∈ plan.waitPlaceList) (hskips : ¬s.2.Skips place s.1) :
    Counts plan (plan₁.settle place s.1 ret).1 := by
  have hrest : place.ID ∈ idsOf plan.waitPlaceList plan.isRestaurant ↔
      plan.isRestaurant place = true :=
    mem_idsOf_iff htypes hplace fun place' => isRestaurant_congr
  have hshop : place.ID ∈ idsOf plan.waitPlaceList plan.isShop ↔
      ¬plan.isRestaurant place = true ∧ place.t &&& LY_PLACE_TYPE_SHOP ≠ 0 := by
    rw [mem_idsOf_iff htypes hplace fun place' => isShop_congr]
    simp [isShop]
  unfold Skips at hskips
  rw [hframe.isRestaurant, hframe.restNeedNum, hframe.shopNeedNum] at hskips
  obtain ⟨hnew, -, hrest_lt, hshop_lt⟩ := by simpa only [not_or, not_and, not_le] using hskips
  rw [settle_alloc, hframe'.isRestaurant]
  cases ret with
  | false =>
    refine ⟨h.nodup, ?_, ?_, ?_, ?_⟩
    · simpa using h.rest
    · simpa using h.rest_le
    · simpa using h.shop
    · simpa using h.shop_le
  | true =>
    simp only [true_and, if_true]
    refine ⟨h.nodup.cons hnew, ?_, add_le_need h.rest_le hrest_lt, ?_,
      add_le_need h.shop_le fun hkind => hshop_lt hkind.2⟩
    · rw [countP_cons_ids hrest, h.rest]
    · rw [countP_cons_ids hshop, h.shop]

theorem Counts.alloc (hinv : Inv plan s) (h : Counts plan s.1)
    (htypes : OneType plan.waitPlaceList) (hs' : alloc fuel tmp s = .ok s') : Counts plan s'.1 := by
  unfold AllocPlan.alloc at hs'
  rw [hinv.frame.waitPlaceList] at hs'
  have hboth : Inv plan s' ∧ Counts plan s'.1 := by
    refine foldlM_keeps_mem (P := fun s => Inv plan s ∧ Counts plan s.1)
      (fun s place hplace s' hs h => ⟨hs.1.allocPlace hplace h, ?_⟩) ⟨hinv, h⟩ hs'
    rcases allocPlace_cases h with ⟨-, rfl⟩ | ⟨hskips, ret, plan₁, hattempt, rfl⟩
    · exact hs.2
    · exact hs.2.settle hs.1.frame (hs.1.frame.trans hattempt.tried.frame) htypes hplace hskips
  exact hboth.2

/-! ## What is left of the days -/

/-- What is left from a block on. -/
def leftSum (blocks : List AllocBlock) : ℤ :=
  (blocks.map fun block => max 0 block.availDur).sum

theorem leftDurs_fst (blocks : List AllocBlock) : (leftDurs blocks).1 = leftSum blocks := by
  induction blocks with
  | nil => rfl
  | cons block blocks ih =>
    simp only [leftDurs, ih, leftSum, List.map_cons, List.sum_cons]
    exact Int.add_comm _ _

theorem getElem?_leftDurs (blocks : List AllocBlock) (i : ℕ) :
    (leftDurs blocks).2[i]? = blocks[i]?.map fun block =>
      { block with leftAvailDur := leftSum (blocks.drop i) } := by
  induction blocks generalizing i with
  | nil => rfl
  | cons block blocks ih =>
    cases i with
    | zero =>
      simp only [leftDurs, leftDurs_fst, leftSum, List.getElem?_cons_zero, Option.map_some,
        List.drop_zero, List.map_cons, List.sum_cons]
      rw [Int.add_comm]
    | succ i => exact ih i

theorem any_leftDurs {f : AllocBlock → Bool}
    (hf : ∀ block leftAvailDur, f { block with leftAvailDur := leftAvailDur } = f block)
    (blocks : List AllocBlock) : (leftDurs blocks).2.any f = blocks.any f := by
  induction blocks with
  | nil => rfl
  | cons block blocks ih =>
    simp only [leftDurs, List.any_cons, ih, hf]

theorem filled_leftDurs {blocks₀ blocks : List AllocBlock}
    (h : List.Forall₂ AllocBlock.Filled blocks₀ blocks) :
    List.Forall₂ AllocBlock.Filled blocks₀ (leftDurs blocks).2 := by
  induction h with
  | nil => exact .nil
  | cons hfilled _ ih =>
    exact .cons ⟨hfilled.availDur, hfilled.trafDate, hfilled.isNotPlay, hfilled.nodup,
      hfilled.getPlaceInfo, hfilled.getFunc⟩ ih

theorem leftSum_eq {blocks₀ blocks : List AllocBlock}
    (h : List.Forall₂ AllocBlock.Filled blocks₀ blocks) : leftSum blocks = leftSum blocks₀ := by
  induction h with
  | nil => rfl
  | cons hfilled _ ih =>
    unfold leftSum at ih ⊢
    rw [List.map_cons, List.sum_cons, List.map_cons, List.sum_cons, ih, hfilled.availDur]

/-! ## The plan -/

/-- Some block knows the place. -/
def knows (plan : AllocPlan) (place : AllocPlace) : Bool :=
  plan.blockList.any fun block => (block.getPlaceInfo place.ID).isSome

/-- `plan'` is the plan with its places allocated. -/
structure Allocated (plan plan' : AllocPlan) : Prop where
  frame : Frame plan { plan' with waitPlaceList := plan.waitPlaceList }
  filled : List.Forall₂ AllocBlock.Filled plan.blockList plan'.blockList
  windows : ∀ i block, plan'.blockList[i]? = some block → ∀ pInfo ∈ block.pInfoList,
    ∃ place ∈ plan'.waitPlaceList, Windows plan' place i block pInfo
  waitPlaceList : plan'.waitPlaceList = plan.waitPlaceList.filter plan'.knows
  thrown : ∀ place ∈ plan.waitPlaceList, plan'.knows place = false →
    place.ID ∈ plan'.failSet ∨
    plan.isRestaurant place = true ∧
      plan.restNeedNum ≤ kindNum plan'.waitPlaceList plan.isRestaurant ∨
    place.t &&& LY_PLACE_TYPE_SHOP ≠ 0 ∧
      plan.shopNeedNum ≤ kindNum plan'.waitPlaceList plan.isShop
  rests : kindNum plan'.waitPlaceList plan.isRestaurant ≤ max 0 plan.restNeedNum
  shops : kindNum plan'.waitPlaceList plan.isShop ≤ max 0 plan.shopNeedNum
  leftAvailDur : ∀ i block, plan'.blockList[i]? = some block →
    block.leftAvailDur = leftSum (plan.blockList.drop i)

/-- The places that have been entered are those that some block knows. -/
theorem Inv.mem_allocable_iff (h : Inv plan s) :
    place.ID ∈ s.1.allocable_place_set ↔ s.2.knows place = true := by
  constructor
  · intro hid
    obtain ⟨block, hblock, hsome⟩ := h.known place.ID hid
    exact List.any_eq_true.mpr ⟨block, hblock, hsome⟩
  · intro hknows
    by_contra hid
    obtain ⟨block, hblock, hsome⟩ := List.any_eq_true.mp hknows
    rw [h.getPlaceInfo_eq_none hid hblock] at hsome
    simp at hsome

theorem doAlloc_cases {alloc : PlaceInfoAlloc} (h : plan.doAlloc fuel tmp = .ok (alloc, plan')) :
    ∃ plan₁, AllocPlan.alloc fuel tmp
        ({}, { plan with blockList := plan.blockList.map AllocBlock.clearNode }) =
          .ok (alloc, plan₁) ∧ Inv plan (alloc, plan₁) ∧
      plan' = { plan₁ with
        waitPlaceList :=
          plan₁.waitPlaceList.filter fun place => place.ID ∈ alloc.allocable_place_set
        blockList := (leftDurs plan₁.blockList).2 } := by
  obtain ⟨⟨alloc₁, plan₁⟩, halloc, h⟩ := bind_ok.mp h
  obtain ⟨rfl, hplan⟩ := Prod.mk.inj (Except.ok.inj h)
  exact ⟨plan₁, halloc, (inv_clearNode plan).alloc halloc, hplan.symm⟩

/-- A block knows a null window only for a place whose functions there are meals. -/
theorem mealType_of_doAlloc {alloc : PlaceInfoAlloc} {block : AllocBlock} {id : String}
    {pInfo : VarPlaceInfo} (h : plan.doAlloc fuel tmp = .ok (alloc, plan'))
    (hfunc : ∀ block ∈ plan.blockList, ∀ id, block.getFunc id = 0)
    (hblock : block ∈ plan'.blockList) (hpInfo : block.getPlaceInfo id = some pInfo)
    (hnull : none ∈ pInfo.availOpenCloseList) : InfoPlan.MealType (block.getFunc id) := by
  obtain ⟨plan₁, -, hinv, rfl⟩ := doAlloc_cases h
  obtain ⟨block₀, hblock₀, hfilled⟩ := forall₂_mem_right (filled_leftDurs hinv.filled) hblock
  obtain ⟨i, hi⟩ := List.mem_iff_getElem?.mp hblock
  rw [getElem?_leftDurs] at hi
  obtain ⟨block₁, hblock₁, rfl⟩ := Option.map_eq_some_iff.mp hi
  obtain ⟨hmem, -⟩ := (hfilled.getPlaceInfo id pInfo).mp hpInfo
  obtain ⟨place, -, -, -, hwindows⟩ := hinv.windows i block₁ hblock₁ pInfo hmem
  rw [hfilled.getFunc, hfunc block₀ hblock₀, hpInfo, Nat.zero_or]
  exact (hwindows.null hnull).1

/-- A view that is only looked at, and a restaurant on a day without meals. -/
def lookPlan : AllocPlan where
  keyNode := [
    .create (.place "hotel") 1409097600 1409101200 "" {} 0 .depart .no false,
    .create (.place "hotel") 1409137200 1409140800 "" {} 0 .arrive .no false]
  blockList := [{ availDur := 36000, trafDate := [50, 48, 49, 52, 48, 56, 50, 55] }]
  waitPlaceList := [
    { ID := "view", t := LY_PLACE_TYPE_VIEW, rawType := LY_PLACE_TYPE_VIEW },
    { ID := "rest", t := LY_PLACE_TYPE_RESTAURANT, rawType := LY_PLACE_TYPE_RESTAURANT }]
  traffic := fun _ _ _ => none
  lookSet := ["view"]
  userDurMap := [("view", 1800)]
  restTypeMap := [("rest", RESTAURANT_TYPE_LUNCH)]

end AllocPlan

end PPView
