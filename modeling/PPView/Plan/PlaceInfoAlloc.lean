import PPView.Plan.PlaceInfo

/-!
# The allocation of the places

`PlaceInfoAlloc::DoAlloc` enters the places that wait into every block in which they can be
visited, and throws out those that no block takes.
-/

namespace PPView

/-- The members of `TimeBlock` that are read here. -/
structure AllocBlock where
  availDur : Int
  leftAvailDur : Int := 0
  trafDate : Str
  isNotPlay : Bool := false
  pInfoList : List VarPlaceInfo := []
  pInfoMap : List (String × VarPlaceInfo) := []
  nodeFuncMap : List (String × ℕ) := []

namespace AllocBlock

variable (block : AllocBlock)

/-- `ClearNode`, which keeps `_nodeFuncMap`. -/
def clearNode : AllocBlock := { block with pInfoList := [], pInfoMap := [] }

def getFunc (id : String) : ℕ := (block.nodeFuncMap.lookup id).getD 0

def getPlaceInfo (id : String) : Option VarPlaceInfo := block.pInfoMap.lookup id

def push (id : String) (pInfo : VarPlaceInfo) : AllocBlock :=
  { block with
    pInfoList := block.pInfoList ++ [pInfo]
    pInfoMap := (id, pInfo) :: block.pInfoMap
    nodeFuncMap := (id, block.getFunc id ||| pInfo.type) :: block.nodeFuncMap }

end AllocBlock

/-- A place that waits. `ignoreOpen` is `_ignore_open` of its first intensity. -/
structure AllocPlace extends VarPlace where
  rawType : ℕ
  ignoreOpen : Bool := false

/-- The members of `BasePlan` that are read here. `traffic` is `GetTraffic`. -/
structure AllocPlan extends InfoPlan where
  keyNode : List KeyNode
  blockList : List AllocBlock
  waitPlaceList : List AllocPlace
  traffic : String → String → Str → Option Int
  avgTrafTimeMap : List (String × Int) := []
  ATRTimeCost : Int := 1800
  placeDateMap : List (String × List Str) := []
  restNeedNum : Int := 0
  shopNeedNum : Int := 0
  failSet : List String := []

namespace AllocPlan

variable (plan : AllocPlan) (fuel : ℕ) (tmp : TimeIR.DateRange) (vPlace : AllocPlace)

def isRestaurant : Bool :=
  vPlace.t &&& LY_PLACE_TYPE_RESTAURANT ≠ 0 && (plan.restTypeMap.lookup vPlace.ID).isSome

def isUserDateAvail (date : Str) : Bool :=
  match plan.placeDateMap.lookup vPlace.ID with
  | none => true
  | some avail_date_set => date ∈ avail_date_set

/-- The identifiers are those of `m_attachRest` and `m_segmentPlace`. -/
def getAvgTrafTime (id : String) : Int :=
  if id = "attach" ∨ id = "segment" then 0
  else (plan.avgTrafTimeMap.lookup id).getD plan.ATRTimeCost

def trafTime (ida idb : String) (date : Str) : Int :=
  (plan.traffic ida idb date).getD (plan.getAvgTrafTime vPlace.ID)

/-- From the arrival in the window to the departure there is room for the zipped duration. -/
def Fits (fromKey toKey : KeyNode) (date : Str) (pInfo : VarPlaceInfo) (openClose : OpenClose) :
    Prop :=
  let okArv := max (fromKey.closeTime +
    plan.trafTime vPlace fromKey.place.ID pInfo.arvID date) openClose.openTime
  let okDept := min (toKey.closeTime - toKey.durS.zip -
    plan.trafTime vPlace pInfo.deptID toKey.place.ID date) openClose.closeTime
  okArv + plan.getZipDur vPlace.toVarPlace ≤ okDept

instance (fromKey toKey : KeyNode) (date : Str) (pInfo : VarPlaceInfo) (openClose : OpenClose) :
    Decidable (plan.Fits vPlace fromKey toKey date pInfo openClose) :=
  inferInstanceAs (Decidable (_ ≤ _))

/-- A restaurant that is only looked at needs no time. -/
def isPhotoRest : Bool :=
  vPlace.t &&& LY_PLACE_TYPE_RESTAURANT ≠ 0 && vPlace.ID ∈ plan.lookSet

/-- A lunch without a supper, or a supper without a lunch, has a null window for the other. -/
def pairMeals (avail : List MealWindow) : List (Option MealWindow) :=
  if vPlace.t &&& LY_PLACE_TYPE_RESTAURANT ≠ 0 then
    let lunchNum := avail.countP fun openClose => openClose.meals = RESTAURANT_TYPE_LUNCH
    let supperNum := avail.countP fun openClose => openClose.meals = RESTAURANT_TYPE_SUPPER
    if lunchNum = 1 ∧ supperNum = 0 then avail.map some ++ [none]
    else if supperNum = 1 ∧ lunchNum = 0 then none :: avail.map some
    else avail.map some
  else avail.map some

/-- The windows that are kept for the block number `i`. -/
def availOf (i : ℕ) (date : Str) (pInfo : VarPlaceInfo) : Res (List (Option MealWindow)) :=
  if plan.faultTolerant then pure (pInfo.openCloseList.map some)
  else
    match plan.keyNode[i]?, plan.keyNode[i + 1]? with
    | some fromKey, some toKey =>
      pure (pairMeals vPlace (pInfo.openCloseList.filter fun openClose =>
        plan.Fits vPlace fromKey toKey date pInfo openClose.toOpenClose ∨
          plan.isPhotoRest vPlace))
    | _, _ => .error .nullPointer

/-- One round of the loop over the blocks: what the block gets. -/
def allocIn (i : ℕ) (block : AllocBlock) : Res (AllocPlan × Option VarPlaceInfo) :=
  if block.availDur < 0 then pure (plan, none)
  else if vPlace.rawType &&& LY_PLACE_TYPE_CAR_STORE = 0 ∧ block.isNotPlay then pure (plan, none)
  else if !plan.isUserDateAvail vPlace block.trafDate then pure (plan, none)
  else do
    let (info, pInfo) ← plan.varPlace2PlaceInfo fuel tmp block.trafDate vPlace.toVarPlace
    let plan := { plan with toInfoPlan := info }
    match pInfo with
    | none => pure (plan, none)
    | some pInfo =>
      if pInfo.openCloseList = [] then pure (plan, none)
      else do
        let avail ← plan.availOf vPlace i block.trafDate pInfo
        if avail = [] then pure (plan, none)
        else pure (plan, some { pInfo with availOpenCloseList := avail })

/-- The loop from the block number `i` on. -/
def allocFrom : ℕ → List AllocBlock → AllocPlan → Res (Bool × List AllocBlock × AllocPlan)
  | _, [], plan => pure (false, [], plan)
  | i, block :: blocks, plan => do
    let (plan, pInfo) ← plan.allocIn fuel tmp vPlace i block
    let (ret, blocks, plan) ← allocFrom (i + 1) blocks plan
    match pInfo with
    | none => pure (ret, block :: blocks, plan)
    | some pInfo => pure (true, block.push vPlace.ID pInfo :: blocks, plan)

def isAllocable : Res (Bool × AllocPlan) := do
  let (ret, blocks, plan) ← allocFrom fuel tmp vPlace 0 plan.blockList plan
  pure (ret, { plan with blockList := blocks })

end AllocPlan

/-! ## The loop over the places -/

/-- The members of `PlaceInfoAlloc`. -/
structure PlaceInfoAlloc where
  allocable_place_set : List String := []
  unallocable_place_set : List String := []
  allocated_rest_cnt : Int := 0
  allocated_shop_cnt : Int := 0

namespace AllocPlan

variable (plan : AllocPlan) (fuel : ℕ) (tmp : TimeIR.DateRange) (vPlace : AllocPlace)

/-- A place that the user asked for may be looked at only. -/
def look : AllocPlan :=
  if vPlace.ID ∈ plan.userMustPlaceSet ∧ vPlace.t &&& LY_PLACE_TYPE_TOURALL = 0 then
    { plan with lookSet := vPlace.ID :: plan.lookSet }
  else plan

/-- The duration of a look is that of the first intensity. -/
def lookDur (front : Intensity) : AllocPlan :=
  if (plan.userDurMap.lookup vPlace.ID).isNone then
    { plan with toInfoPlan := plan.setUserDur vPlace.ID front.dur }
  else plan

/-- The second attempt, for a place that may be looked at outside its opening hours. -/
def tryLook : Res (Bool × AllocPlan) :=
  let plan := plan.look vPlace
  if vPlace.ID ∈ plan.lookSet then
    match vPlace.intensityList with
    | [] => .error .arrayBound
    | front :: _ =>
      if vPlace.ignoreOpen then (plan.lookDur vPlace front).isAllocable fuel tmp vPlace
      else pure (false, plan)
  else pure (false, plan)

/-- The attempts to allocate a place. -/
def tryAlloc : Res (Bool × AllocPlan) := do
  let (allocable, plan) ← plan.isAllocable fuel tmp vPlace
  if allocable ∨ vPlace.rawType = LY_PLACE_TYPE_CAR_STORE then pure (allocable, plan)
  else do
    let (allocable, plan) ← plan.tryLook fuel tmp vPlace
    if allocable then pure (true, plan) else plan.isAllocable fuel tmp vPlace

/-- What becomes of a place that has been tried. -/
def settle (alloc : PlaceInfoAlloc) (allocable : Bool) : PlaceInfoAlloc × AllocPlan :=
  let durS := plan.getDurS vPlace.toVarPlace
  let plan := { plan with durSMap := (vPlace.ID, durS) :: plan.durSMap }
  if allocable then
    let alloc := { alloc with allocable_place_set := vPlace.ID :: alloc.allocable_place_set }
    if plan.isRestaurant vPlace then
      ({ alloc with allocated_rest_cnt := alloc.allocated_rest_cnt + 1 }, plan)
    else if vPlace.t &&& LY_PLACE_TYPE_SHOP ≠ 0 then
      ({ alloc with allocated_shop_cnt := alloc.allocated_shop_cnt + 1 }, plan)
    else (alloc, plan)
  else
    ({ alloc with unallocable_place_set := vPlace.ID :: alloc.unallocable_place_set },
      { plan with failSet := vPlace.ID :: plan.failSet })

/-- The places that are passed over. -/
def Skips (alloc : PlaceInfoAlloc) : Prop :=
  vPlace.ID ∈ alloc.allocable_place_set ∨ vPlace.ID ∈ alloc.unallocable_place_set ∨
    (plan.isRestaurant vPlace ∧ alloc.allocated_rest_cnt ≥ plan.restNeedNum) ∨
    (vPlace.t &&& LY_PLACE_TYPE_SHOP ≠ 0 ∧ alloc.allocated_shop_cnt ≥ plan.shopNeedNum)

instance (alloc : PlaceInfoAlloc) : Decidable (plan.Skips vPlace alloc) :=
  inferInstanceAs (Decidable (_ ∨ _))

/-- One round of `Alloc`. -/
def allocPlace (s : PlaceInfoAlloc × AllocPlan) (vPlace : AllocPlace) :
    Res (PlaceInfoAlloc × AllocPlan) :=
  if s.2.Skips vPlace s.1 then pure s
  else do
    let (allocable, plan) ← s.2.tryAlloc fuel tmp vPlace
    pure (plan.settle vPlace s.1 allocable)

def alloc (s : PlaceInfoAlloc × AllocPlan) : Res (PlaceInfoAlloc × AllocPlan) :=
  s.2.waitPlaceList.foldlM (allocPlace fuel tmp) s

/-- `_left_avail_dur`, from the last block to the first. -/
def leftDurs : List AllocBlock → Int × List AllocBlock
  | [] => (0, [])
  | block :: blocks =>
    let (leftAvailDur, blocks) := leftDurs blocks
    let leftAvailDur := leftAvailDur + max 0 block.availDur
    (leftAvailDur, { block with leftAvailDur := leftAvailDur } :: blocks)

def doAlloc : Res (PlaceInfoAlloc × AllocPlan) := do
  let plan := { plan with blockList := plan.blockList.map AllocBlock.clearNode }
  let (alloc, plan) ← alloc fuel tmp ({}, plan)
  pure (alloc, { plan with
    waitPlaceList := plan.waitPlaceList.filter fun place => place.ID ∈ alloc.allocable_place_set
    blockList := (leftDurs plan.blockList).2 })

end AllocPlan

end PPView
