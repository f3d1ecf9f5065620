import Mathlib.Data.List.GetD
import PPView.Bag.BagPlan
import PPView.Library.Numbering
import PPView.Plan.DoAlloc

/-!
# The positions of a plan

`BagPlan::DoPos` numbers the key nodes and the places of a plan that `DoAlloc` has filled. What it
makes are the tables of a `BagPlan`, and the bits of the positions tell which places a path visits.
-/

namespace PPView

/-- `SPath::kPathLimit`. -/
def kPathLimit : ℕ := 100

/-- `SPath::kBlockLimit`. -/
def kBlockLimit : ℕ := 40

def VarPlaceInfo.toPlaceInfo (pInfo : VarPlaceInfo) : PlaceInfo where
  arvID := pInfo.arvID
  deptID := pInfo.deptID
  availOpenCloseList := pInfo.availOpenCloseList.map (Option.map MealWindow.toOpenClose)

namespace AllocBlock

variable (block : AllocBlock)

def has (id : String) : Bool := (block.nodeFuncMap.lookup id).isSome

/-- The type of a node by what its place is in the block. -/
def nodeType (id : String) : UInt8 :=
  if block.has id then
    let nodeFunc := block.getFunc id
    if nodeFunc &&& NODE_FUNC_PLACE_VIEW_SHOP.toNat ≠ 0 then NODE_FUNC_PLACE_VIEW_SHOP
    else if nodeFunc = NODE_FUNC_PLACE_REST_LUNCH.toNat then NODE_FUNC_PLACE_REST_LUNCH
    else if nodeFunc = NODE_FUNC_PLACE_REST_SUPPER.toNat then NODE_FUNC_PLACE_REST_SUPPER
    else if nodeFunc &&& NODE_FUNC_PLACE_REST_LUNCH.toNat ≠ 0 ∧
        nodeFunc &&& NODE_FUNC_PLACE_REST_SUPPER.toNat ≠ 0 then NODE_FUNC_PLACE_RESTAURANT
    else NODE_FUNC_PLACE_VIEW_SHOP
  else NODE_FUNC_NULL

/-- The block as the search reads it. -/
def toTimeBlock : TimeBlock where
  pInfoList := block.pInfoList.map VarPlaceInfo.toPlaceInfo
  pInfoMap := block.pInfoMap.map fun entry => (entry.1, entry.2.toPlaceInfo)

end AllocBlock

/-- What `DoPos` reads of a plan. `placeT` is `_t` of a place and `refPoi` the `m_refPoi` of a
tour. -/
structure PosPlan extends AllocPlan where
  placeT : LYPlace → ℕ
  refPoi : LYPlace → List String

namespace PosPlan

variable (plan : PosPlan)

def posPList : List LYPlace :=
  (plan.keyNode.map KeyNode.place ++
    plan.waitPlaceList.map fun place => LYPlace.place place.ID).take kPathLimit

def vTypeList : List UInt8 :=
  plan.blockList.flatMap fun block => plan.posPList.map fun place => block.nodeType place.ID

/-- A tour stands for the places that it visits, too. -/
def keysOf (place : LYPlace) : List String :=
  if plan.placeT place &&& LY_PLACE_TYPE_TOURALL ≠ 0 then plan.refPoi place ++ [place.ID]
  else [place.ID]

/-- The size of the map is read before the entry is made, and `first` is 0, or behind it, and
`first` is 1. -/
def pIdxMap (first : ℕ) : List (String × ℕ) := numbers first (plan.posPList.flatMap plan.keysOf)

def bidPList (first : ℕ) : List Bit160 :=
  plan.posPList.map fun place => keyBits (plan.pIdxMap first) (plan.keysOf place)

/-- The tables, or nothing where it returns other than zero. -/
def doPos (first : ℕ) (tables : BagTables) : Option BagTables :=
  if plan.blockList.length > kBlockLimit then none
  else some { tables with
    keyNode := plan.keyNode
    traffic := fun ida idb date => (tables.trafficItem ida idb date).map TrafficItem.time
    blockList := plan.blockList.map AllocBlock.toTimeBlock
    posPList := plan.posPList
    placeT := plan.placeT
    vTypeList := plan.vTypeList
    bidPList := plan.bidPList first }

end PosPlan

/-- The tables before `DoPos`, without traffic. -/
def emptyTables : BagTables where
  keyNode := []
  traffic := fun _ _ _ => none
  posPList := []
  placeT := fun _ => 0
  vTypeList := []
  bidPList := []
  trafDate := []
  durS := fun _ => {}
  trafficItem := fun _ _ _ => none

/-! ## The types -/

open AllocPlan InfoPlan

variable {plan : PosPlan} {first : ℕ} {tables tables' : BagTables}

theorem getD_flatMap_map {α β γ : Type*} (f : α → β → γ) (d : γ) (as : List α) (bs : List β)
    {i j : ℕ} {a : α} {b : β} (ha : as[i]? = some a) (hb : bs[j]? = some b) :
    (as.flatMap fun a => bs.map (f a)).getD (i * bs.length + j) d = f a b := by
  have hj : j < bs.length := (List.getElem?_eq_some_iff.mp hb).1
  induction as generalizing i with
  | nil => simp at ha
  | cons a' as ih =>
    rw [List.flatMap_cons]
    cases i with
    | zero =>
      obtain rfl := Option.some.inj ha
      rw [Nat.zero_mul, Nat.zero_add, List.getD_append _ _ _ _ (by simpa using hj)]
      simp [List.getD, hb]
    | succ i =>
      rw [List.getD_append_right _ _ _ _ (by simp; nlinarith)]
      have hidx : (i + 1) * bs.length + j - (bs.map (f a')).length = i * bs.length + j := by
        rw [List.length_map, Nat.succ_mul]
        omega
      rw [hidx]
      exact ih ha

theorem getVType_doPos (h : plan.doPos first tables = some tables') {bPos vPos : ℕ}
    {block : AllocBlock} {place : LYPlace} (hblock : plan.blockList[bPos]? = some block)
    (hplace : plan.posPList[vPos]? = some place) :
    tables'.getVType bPos vPos = block.nodeType place.ID := by
  unfold PosPlan.doPos at h
  split at h
  · simp at h
  · obtain rfl := Option.some.inj h
    have hbPos : bPos < plan.blockList.length := (List.getElem?_eq_some_iff.mp hblock).1
    have hvPos : vPos < plan.posPList.length := (List.getElem?_eq_some_iff.mp hplace).1
    unfold BagTables.getVType BagTables.blockNum BagTables.nodeNum
    rw [if_neg (by simp; omega)]
    exact getD_flatMap_map (fun block place => block.nodeType place.ID) _ _ _ hblock hplace

/-- A place that is there for meals is a restaurant for the search. -/
theorem isRestaurant_nodeType {block : AllocBlock} {id : String}
    (h : MealType (block.getFunc id)) : isRestaurant (block.nodeType id) = true := by
  have hhas : block.has id = true := by
    unfold AllocBlock.has
    by_contra hnone
    have hzero : block.getFunc id = 0 := by
      unfold AllocBlock.getFunc
      rw [Option.not_isSome_iff_eq_none.mp hnone]
      rfl
    rw [hzero] at h
    revert h
    unfold MealType
    decide
  unfold AllocBlock.nodeType
  rw [if_pos hhas]
  dsimp only
  simp only [MealType, List.mem_cons, List.not_mem_nil, or_false] at h
  rcases h with h | h | h | h
  all_goals
    rw [h]
    decide

theorem getPlaceInfo_toTimeBlock (block : AllocBlock) (id : String) :
    block.toTimeBlock.getPlaceInfo id =
      (block.getPlaceInfo id).map VarPlaceInfo.toPlaceInfo := by
  unfold TimeBlock.getPlaceInfo AllocBlock.getPlaceInfo AllocBlock.toTimeBlock
  induction block.pInfoMap with
  | nil => rfl
  | cons entry pInfoMap ih =>
    rw [List.map_cons, lookup_cons_ite, lookup_cons_ite, ih]
    split_ifs <;> rfl

theorem bagPlan_doPos {plan₀ : AllocPlan} {alloc : PlaceInfoAlloc} {fuel : ℕ}
    {tmp : TimeIR.DateRange} (hfunc : ∀ block ∈ plan₀.blockList, ∀ id, block.getFunc id = 0)
    (halloc : plan₀.doAlloc fuel tmp = .ok (alloc, plan.toAllocPlan))
    (h : plan.doPos first tables = some tables') :
    ∃ bagPlan : BagPlan, bagPlan.toBagTables = tables' := by
  have htables := h
  unfold PosPlan.doPos at htables
  split at htables
  · simp at htables
  · have htables := Option.some.inj htables
    refine ⟨⟨tables', ?_, ?_⟩, rfl⟩
    · intro ida idb date
      rw [← htables]
    · intro bPos vPos timeBlock place hblock hplace hrest hnull
      have hblocks : tables'.blockList = plan.blockList.map AllocBlock.toTimeBlock := by
        rw [← htables]
      have hplaces : tables'.posPList = plan.posPList := by rw [← htables]
      rw [hblocks, List.getElem?_map] at hblock
      rw [hplaces] at hplace
      obtain ⟨block, hmem, rfl⟩ := Option.map_eq_some_iff.mp hblock
      rw [getVType_doPos h hmem hplace] at hrest
      unfold BagTables.windowsOf at hnull
      rw [getPlaceInfo_toTimeBlock] at hnull
      cases hpInfo : block.getPlaceInfo place.ID with
      | none => simp [hpInfo] at hnull
      | some pInfo =>
        have hnull : none ∈ pInfo.availOpenCloseList := by
          simpa [hpInfo, VarPlaceInfo.toPlaceInfo] using hnull
        have hmeals := mealType_of_doAlloc halloc hfunc (List.mem_of_getElem? hmem) hpInfo hnull
        simp [isRestaurant_nodeType hmeals] at hrest

/-- A restaurant that is looked at, and has lunch only. -/
def lunchPlan : AllocPlan := { lookPlan with lookSet := ["view", "rest"], restNeedNum := 1 }

/-- The supper of the restaurant is a null window. -/
theorem bagPlan_doPos_lunchPlan : ∃ (plan : PosPlan) (bagPlan : BagPlan),
    plan.doPos 0 emptyTables = some bagPlan.toBagTables ∧
      bagPlan.vTypeList = [NODE_FUNC_NULL, NODE_FUNC_NULL, NODE_FUNC_PLACE_VIEW_SHOP,
        NODE_FUNC_PLACE_RESTAURANT] ∧
      bagPlan.blockList.map (fun block =>
        (BagTables.windowsOf block (.place "rest")).map Option.isSome) = [[true, false]] := by
  have hfunc : ∀ block ∈ lunchPlan.blockList, ∀ id, block.getFunc id = 0 := by
    intro block hblock id
    rw [List.mem_singleton.mp hblock]
    rfl
  have htables : (lunchPlan.doAlloc 0 ⟨0, 0⟩).toOption.map (fun r =>
      (PosPlan.vTypeList ⟨r.2, fun _ => 0, fun _ => []⟩, r.2.blockList.map (fun block =>
        (BagTables.windowsOf block.toTimeBlock (.place "rest")).map Option.isSome),
          r.2.blockList.length)) =
        some ([NODE_FUNC_NULL, NODE_FUNC_NULL, NODE_FUNC_PLACE_VIEW_SHOP,
          NODE_FUNC_PLACE_RESTAURANT], [[true, false]], 1) := by
    decide +kernel
  cases hrun : lunchPlan.doAlloc 0 ⟨0, 0⟩ with
  | error e =>
    rw [hrun] at htables
    simp [Except.toOption] at htables
  | ok r =>
    rw [hrun] at htables
    obtain ⟨htypes, hrest⟩ := Prod.mk.inj (Option.some.inj htables)
    obtain ⟨hwindows, hlen⟩ := Prod.mk.inj hrest
    have hpos : PosPlan.doPos ⟨r.2, fun _ => 0, fun _ => []⟩ 0 emptyTables = some _ :=
      if_neg (by rw [hlen]; decide)
    obtain ⟨bagPlan, hbag⟩ := bagPlan_doPos hfunc hrun hpos
    rw [← hbag] at hpos
    refine ⟨_, bagPlan, hpos, ?_⟩
    rw [hbag, List.map_map]
    exact ⟨htypes, hwindows⟩

/-! ## The bits -/

namespace PosPlan

/-- The identifiers that positions stand for. -/
def keysAt (plan : PosPlan) (vPosList : List ℕ) : List String :=
  vPosList.flatMap fun vPos => (plan.posPList[vPos]?.map plan.keysOf).getD []

end PosPlan

theorem getPosBid_doPos (h : plan.doPos first tables = some tables') (vPos : ℕ) :
    tables'.getPosBid vPos =
      keyBits (plan.pIdxMap first) ((plan.posPList[vPos]?.map plan.keysOf).getD []) := by
  unfold PosPlan.doPos at h
  split at h
  · simp at h
  · obtain rfl := Option.some.inj h
    unfold BagTables.getPosBid BagTables.nodeNum
    dsimp only
    cases hplace : plan.posPList[vPos]? with
    | none =>
      have hle := List.getElem?_eq_none_iff.mp hplace
      rw [if_neg (by omega)]
      rfl
    | some place =>
      have hlt := (List.getElem?_eq_some_iff.mp hplace).1
      rw [if_pos hlt]
      simp [PosPlan.bidPList, List.getD, hplace]

theorem subset_keysAt (plan : PosPlan) (vPosList : List ℕ) :
    plan.keysAt vPosList ⊆ plan.posPList.flatMap plan.keysOf := by
  intro id hid
  obtain ⟨vPos, -, hid⟩ := List.mem_flatMap.mp hid
  cases hplace : plan.posPList[vPos]? with
  | none => simp [hplace] at hid
  | some place =>
    rw [hplace] at hid
    exact List.mem_flatMap.mpr ⟨place, List.mem_of_getElem? hplace, hid⟩

/-- With at most 160 identifiers the bits of a path tell which of them it visits. -/
theorem foldl_getPosBid_eq_iff (h : plan.doPos first tables = some tables')
    (hnum : first + (plan.posPList.flatMap plan.keysOf).toFinset.card ≤ 160)
    (vPosList vPosList' : List ℕ) :
    vPosList.foldl (fun bid vPos => bid ||| tables'.getPosBid vPos) 0 =
        vPosList'.foldl (fun bid vPos => bid ||| tables'.getPosBid vPos) 0 ↔
      ∀ id, id ∈ plan.keysAt vPosList ↔ id ∈ plan.keysAt vPosList' := by
  simp only [getPosBid_doPos h]
  rw [foldl_or_keyBits, foldl_or_keyBits]
  exact keyBits_eq_iff (isNumbering_numbers _ _) (fitsKeys_numbers hnum (subset_keysAt plan _))
    (fitsKeys_numbers hnum (subset_keysAt plan _))

/-- A tour past a tower, and the tower. -/
def tourPlan : PosPlan where
  keyNode := [.create (.place "hotel") 0 32400 "" {} 0 .hotelSleep .no false]
  blockList := []
  waitPlaceList := [{ ID := "tower", t := LY_PLACE_TYPE_VIEW, rawType := LY_PLACE_TYPE_VIEW },
    { ID := "tour", t := LY_PLACE_TYPE_TOURALL, rawType := LY_PLACE_TYPE_TOURALL }]
  traffic := fun _ _ _ => none
  placeT := fun place => if place.ID = "tour" then LY_PLACE_TYPE_TOURALL else LY_PLACE_TYPE_VIEW
  refPoi := fun _ => ["tower"]

/-- Who takes the tour visits the tower. -/
theorem foldl_getPosBid_eq_iff_tourPlan : ∃ tables', tourPlan.doPos 0 emptyTables = some tables' ∧
    [2].foldl (fun bid vPos => bid ||| tables'.getPosBid vPos) 0 =
      [1, 2].foldl (fun bid vPos => bid ||| tables'.getPosBid vPos) 0 := by
  have hpos : tourPlan.doPos 0 emptyTables = some _ := rfl
  refine ⟨_, hpos, (foldl_getPosBid_eq_iff hpos (by decide) [2] [1, 2]).mpr fun id => ?_⟩
  have hkeys : tourPlan.keysAt [2] = ["tower", "tour"] := by decide
  have hkeys' : tourPlan.keysAt [1, 2] = ["tower", "tower", "tour"] := by decide
  rw [hkeys, hkeys']
  simp

end PPView
