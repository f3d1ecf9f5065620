import PPView.Bag.DFSFound

/-!
# From the path of the search to the order of a route

`BagPlan::AdaptOrder` turns a path that the search has found into the list of places that
`TrafRoute::DoRoute` lays. It gives up on a block with three restaurants, which no path in the
merged heaps has.
-/

namespace PPView

/-- A `PlaceOrder` with all its members. -/
structure AdaptedOrder where
  place : Option LYPlace
  date : String
  index : Nat
  type : UInt8
  deriving DecidableEq, Repr

namespace BagPlan

variable (plan : BagPlan)

/-- The block of the position at `i`. -/
def blockAt (sPath : SPath) (i : Nat) : Nat := sPath.getBPos (sPath.getVPos i)

def vTypeAt (sPath : SPath) (i : Nat) : UInt8 :=
  plan.getVType (blockAt sPath i) (sPath.getVPos i)

/-- The body of the first loop, on the first and the second restaurant of each block. -/
def addRest (sPath : SPath) (restIdxList : List (Option Nat × Option Nat)) (i : Nat) :
    Option (List (Option Nat × Option Nat)) :=
  let bPos := blockAt sPath i
  if isRestaurant (plan.vTypeAt sPath i) then
    match restIdxList[bPos]? with
    | none => none
    | some (none, second) => some (restIdxList.set bPos (some i, second))
    | some (some first, none) => some (restIdxList.set bPos (some first, some i))
    | some (some _, some _) => some restIdxList
  else some restIdxList

/-- The type of an order; there is none for a third restaurant. -/
def nodeType (vType : UInt8) (restIdx : Option Nat × Option Nat) (i : Nat) : Option UInt8 :=
  if isRestaurant vType then
    if restIdx.1 = some i then
      some (if restIdx.2.isSome then NODE_FUNC_PLACE_REST_LUNCH else vType)
    else if restIdx.2 = some i then some NODE_FUNC_PLACE_REST_SUPPER
    else none
  else some NODE_FUNC_PLACE_VIEW_SHOP

/-- The date of an order, which changes with the block. `lastBPos` is `none` where the source has
-1, and `closeDate` has `_close_date` of the key nodes. -/
def dateOf (closeDate : List String) (lastBPos : Option Nat) (date : String) (bPos : Nat) :
    Res String :=
  if lastBPos = some bPos then pure date
  else
    match closeDate[bPos]? with
    | some date => pure date
    | none => .error .nullPointer

/-- The second loop. -/
def addOrders (closeDate : List String) (sPath : SPath)
    (restIdxList : List (Option Nat × Option Nat)) :
    List Nat → Option Nat → String → List AdaptedOrder → Res (Option (List AdaptedOrder))
  | [], _, _, orderList => pure (some orderList)
  | i :: rest, lastBPos, date, orderList => do
    let bPos := blockAt sPath i
    let date ← dateOf closeDate lastBPos date bPos
    match nodeType (plan.vTypeAt sPath i) (restIdxList.getD bPos (none, none)) i with
    | none => pure none
    | some type =>
      addOrders closeDate sPath restIdxList rest (some bPos) date (orderList ++
        [⟨plan.getPosPlace (sPath.getVPos i), date, orderList.length, type⟩])

/-- `AdaptOrder`; `none` stands for the result 1. -/
def adaptOrder (closeDate : List String) (sPath : SPath) : Res (Option (List AdaptedOrder)) :=
  match (List.range sPath.len).foldlM (plan.addRest sPath)
    (List.replicate plan.blockNum (none, none)) with
  | none => pure none
  | some restIdxList =>
    plan.addOrders closeDate sPath restIdxList (List.range sPath.len) none "" []

/-! ## The orders -/

/-- The restaurants of a block, as places in the path. -/
def restsOf (sPath : SPath) (bPos : Nat) : List Nat :=
  (List.range sPath.len).filter fun i =>
    blockAt sPath i = bPos && isRestaurant (plan.vTypeAt sPath i)

/-- A single restaurant keeps its type; of two the first one is for lunch. -/
def mealType (sPath : SPath) (i : Nat) : UInt8 :=
  if !isRestaurant (plan.vTypeAt sPath i) then NODE_FUNC_PLACE_VIEW_SHOP
  else if (plan.restsOf sPath (blockAt sPath i)).length = 1 then plan.vTypeAt sPath i
  else if (plan.restsOf sPath (blockAt sPath i)).head? = some i then NODE_FUNC_PLACE_REST_LUNCH
  else NODE_FUNC_PLACE_REST_SUPPER

def orderAt (closeDate : List String) (sPath : SPath) (i : Nat) : AdaptedOrder :=
  ⟨plan.getPosPlace (sPath.getVPos i), closeDate.getD (blockAt sPath i) "", i,
    plan.mealType sPath i⟩

variable {plan} {sPath : SPath} {closeDate : List String}

/-- The first two elements of a list. -/
def firstTwo (l : List Nat) : Option Nat × Option Nat := (l.head?, l.tail.head?)

/-- The restaurants of a block among the first `n` points. -/
def restsUpTo (plan : BagPlan) (sPath : SPath) (n bPos : Nat) : List Nat :=
  (List.range n).filter fun i => blockAt sPath i = bPos && isRestaurant (plan.vTypeAt sPath i)

/-- What the point at `i` adds to the restaurants of a block. -/
def restAt (plan : BagPlan) (sPath : SPath) (bPos i : Nat) : List Nat :=
  if blockAt sPath i = bPos ∧ isRestaurant (plan.vTypeAt sPath i) then [i] else []

theorem restsUpTo_succ (n bPos : Nat) :
    restsUpTo plan sPath (n + 1) bPos =
      restsUpTo plan sPath n bPos ++ restAt plan sPath bPos n := by
  rw [restsUpTo, List.range_succ, List.filter_append, ← restsUpTo]
  refine congrArg _ ?_
  by_cases h : blockAt sPath n = bPos ∧ isRestaurant (plan.vTypeAt sPath n) = true
  · simp [restAt, h.1, h.2]
  · have hfalse :
        (decide (blockAt sPath n = bPos) && isRestaurant (plan.vTypeAt sPath n)) = false := by
      simpa using h
    simp [restAt, hfalse, h]

theorem addRest_eq {rests : Nat → List Nat} {i : Nat} (hblock : blockAt sPath i < plan.blockNum) :
    plan.addRest sPath ((List.range plan.blockNum).map fun bPos => firstTwo (rests bPos)) i =
      some ((List.range plan.blockNum).map fun bPos =>
        firstTwo (rests bPos ++ restAt plan sPath bPos i)) := by
  unfold addRest
  dsimp only
  by_cases hrest : isRestaurant (plan.vTypeAt sPath i) = true
  · have hset : ((List.range plan.blockNum).map fun bPos =>
        firstTwo (rests bPos ++ restAt plan sPath bPos i)) =
        ((List.range plan.blockNum).map fun bPos => firstTwo (rests bPos)).set (blockAt sPath i)
          (firstTwo (rests (blockAt sPath i) ++ [i])) := by
      refine List.ext_getElem (by simp) fun j hj hj' => ?_
      rw [List.getElem_set]
      split_ifs with heq
      · subst heq
        simp [restAt, hrest]
      · simp [restAt, heq]
    have hget : ((List.range plan.blockNum).map fun bPos => firstTwo (rests bPos))[
        blockAt sPath i]? = some (firstTwo (rests (blockAt sPath i))) := by
      simp [hblock]
    rw [if_pos hrest, hset, hget]
    cases hrests : rests (blockAt sPath i) with
    | nil => rfl
    | cons first tail =>
      cases tail with
      | nil => rfl
      | cons second tail =>
        have hself : firstTwo (first :: second :: tail ++ [i]) = (some first, some second) := rfl
        rw [hself]
        refine congrArg some (List.ext_getElem (by simp) fun j hj hj' => ?_)
        rw [List.getElem_set]
        split_ifs with heq
        · subst heq
          simp [hrests, firstTwo]
        · rfl
  · simp [restAt, hrest]

/-- The first loop finds the first two restaurants of each block. -/
theorem foldlM_addRest {n : Nat} (hblock : ∀ i < n, blockAt sPath i < plan.blockNum) :
    (List.range n).foldlM (plan.addRest sPath) (List.replicate plan.blockNum (none, none)) =
      some ((List.range plan.blockNum).map fun bPos => firstTwo (restsUpTo plan sPath n bPos)) := by
  induction n with
  | zero =>
    refine congrArg some (List.ext_getElem (by simp) fun i hi hi' => ?_)
    simp [restsUpTo, firstTwo]
  | succ n ih =>
    rw [List.range_succ, List.foldlM_append, ih fun i hi => hblock i (by omega)]
    simp only [restsUpTo_succ]
    rw [Option.bind_eq_bind, Option.bind_some, List.foldlM_cons, addRest_eq (hblock n (by omega))]
    rfl

/-- The type of an order in a block with at most two restaurants. -/
theorem nodeType_eq {i : Nat} (hi : i < sPath.len)
    (hrests : (plan.restsOf sPath (blockAt sPath i)).length ≤ 2) :
    nodeType (plan.vTypeAt sPath i) (firstTwo (plan.restsOf sPath (blockAt sPath i))) i =
      some (plan.mealType sPath i) := by
  unfold nodeType mealType
  by_cases hrest : isRestaurant (plan.vTypeAt sPath i) = true
  · have hmem : i ∈ plan.restsOf sPath (blockAt sPath i) := by simp [restsOf, hi, hrest]
    have hnodup : (plan.restsOf sPath (blockAt sPath i)).Nodup := List.nodup_range.filter _
    simp only [hrest, Bool.not_true, Bool.false_eq_true, if_false, if_true]
    generalize plan.restsOf sPath (blockAt sPath i) = l at *
    match l, hrests with
    | [], _ => simp at hmem
    | [a], _ =>
      obtain rfl := List.mem_singleton.mp hmem
      simp [firstTwo]
    | [a, c], _ =>
      rcases List.mem_pair.mp hmem with rfl | rfl
      · simp [firstTwo]
      · have hne : a ≠ i := by simpa using hnodup
        simp [firstTwo, hne]
  · simp [hrest]

theorem addOrders_eq (hblock : ∀ i < sPath.len, blockAt sPath i < plan.blockNum)
    (hclose : plan.blockNum ≤ closeDate.length)
    (hrests : ∀ bPos, (plan.restsOf sPath bPos).length ≤ 2) {l : List Nat}
    {lastBPos : Option Nat} {date : String} {orderList : List AdaptedOrder}
    (hl : l = List.range' orderList.length (sPath.len - orderList.length))
    (hdate : ∀ bPos ∈ lastBPos, date = closeDate.getD bPos "") :
    plan.addOrders closeDate sPath
      ((List.range plan.blockNum).map fun bPos => firstTwo (plan.restsOf sPath bPos))
      l lastBPos date orderList =
        .ok (some (orderList ++ l.map (plan.orderAt closeDate sPath))) := by
  induction l generalizing lastBPos date orderList with
  | nil => simp [addOrders, pure, Except.pure]
  | cons i l ih =>
    obtain ⟨hi, hlen, hl⟩ : i = orderList.length ∧ orderList.length < sPath.len ∧
        l = List.range' (orderList.length + 1) (sPath.len - (orderList.length + 1)) := by
      cases hn : sPath.len - orderList.length with
      | zero => simp [hn] at hl
      | succ n =>
        rw [hn, List.range'_succ, List.cons.injEq] at hl
        refine ⟨hl.1, by omega, ?_⟩
        rw [hl.2, show sPath.len - (orderList.length + 1) = n by omega]
    have hb := hblock i (by omega)
    have hdate' : dateOf closeDate lastBPos date (blockAt sPath i) =
        .ok (closeDate.getD (blockAt sPath i) "") := by
      unfold dateOf
      split_ifs with heq
      · rw [hdate _ heq]
        rfl
      · rw [List.getElem?_eq_getElem (by omega), List.getD_eq_getElem _ _ (by omega)]
        rfl
    have htype : nodeType (plan.vTypeAt sPath i) (((List.range plan.blockNum).map fun bPos =>
        firstTwo (plan.restsOf sPath bPos)).getD (blockAt sPath i) (none, none)) i =
        some (plan.mealType sPath i) := by
      rw [List.getD_eq_getElem _ _ (by simpa using hb), List.getElem_map, List.getElem_range]
      exact nodeType_eq (by omega) (hrests _)
    rw [addOrders, hdate']
    dsimp only [bind, Except.bind]
    rw [htype]
    dsimp only
    rw [ih (by simpa using hl) (by simp)]
    simp [orderAt, hi]

/-- A path whose blocks have at most two restaurants each is adapted. -/
theorem adaptOrder_eq (hblock : ∀ i < sPath.len, blockAt sPath i < plan.blockNum)
    (hclose : plan.blockNum ≤ closeDate.length)
    (hrests : ∀ bPos, (plan.restsOf sPath bPos).length ≤ 2) :
    plan.adaptOrder closeDate sPath =
      .ok (some ((List.range sPath.len).map (plan.orderAt closeDate sPath))) := by
  unfold adaptOrder
  rw [foldlM_addRest hblock]
  exact addOrders_eq hblock hclose hrests (by simp [List.range_eq_range']) (by simp)

end BagPlan

theorem SPath.vPosList_eq_map (p : SPath) : p.vPosList = (List.range p.len).map p.getVPos := by
  refine List.ext_getElem (by simp [vPosList, len]) fun i hi hi' => ?_
  have hlt : i < p.points.length := by simpa [vPosList] using hi
  simp [vPosList, getVPos, List.getElem?_eq_getElem hlt]

namespace JoinedPath

open BagPlan

variable {plan : BagPlan} {richPath p : SPath}

theorem block (h : JoinedPath plan richPath p) : ∀ x ∈ p.points, x.2 < plan.blockNum := by
  intro x hx
  rw [h.points] at hx
  obtain ⟨b, hb, hx⟩ := List.mem_flatMap.mp hx
  obtain ⟨v, -, rfl⟩ := List.mem_map.mp hx
  exact List.mem_range.mp hb

theorem blockAt_lt (h : JoinedPath plan richPath p) {i : Nat} (hi : i < p.len) :
    blockAt p i < plan.blockNum := by
  have hmem := List.getElem_mem (l := p.points) hi
  have hnode : p.points[i].1 < p.nodeNum := by
    rw [h.nodeNum]
    exact h.node _ (List.mem_map_of_mem hmem)
  have hblock : blockAt p i = p.points[i].2 := by
    rw [blockAt, SPath.getVPos, List.getD_eq_getElem _ _ hi]
    exact SPath.getBPos_of_mem h.nodup hmem hnode
  rw [hblock]
  exact h.block _ hmem

theorem restsOf_length_le (h : JoinedPath plan richPath p) (bPos : Nat) :
    (plan.restsOf p bPos).length ≤ 2 := by
  rcases Nat.lt_or_ge bPos plan.blockNum with hb | hb
  · have hmap : ((p.posList bPos).filter fun vPos => isRestaurant (plan.getVType bPos vPos)) =
        (plan.restsOf p bPos).map p.getVPos := by
      rw [SPath.posList, p.vPosList_eq_map, List.filter_map, List.filter_map, List.filter_filter,
        restsOf]
      refine congrArg _ (List.filter_congr fun i _ => ?_)
      by_cases heq : blockAt p i = bPos
      · subst heq
        simp [vTypeAt, blockAt]
      · have hne : p.getBPos (p.getVPos i) ≠ bPos := heq
        simp [heq, hne]
    rw [← List.length_map, ← hmap]
    exact h.rests bPos hb
  · have hnil : plan.restsOf p bPos = [] := by
      refine List.filter_eq_nil_iff.mpr fun i hi => ?_
      have := h.blockAt_lt (List.mem_range.mp hi)
      simp
      omega
    rw [hnil]
    exact Nat.zero_le _

/-- A position of the path is one that the rich path puts into the same block. -/
theorem getVPos_mem_posList (h : JoinedPath plan richPath p) {i : Nat} (hi : i < p.len) :
    p.getVPos i ∈ richPath.posList (blockAt p i) := by
  refine (h.perm _ (h.blockAt_lt hi)).subset (List.mem_filter.mpr ⟨?_, by simp [blockAt]⟩)
  rw [p.vPosList_eq_map]
  exact List.mem_map_of_mem (List.mem_range.mpr hi)

end JoinedPath

/-- Every path in the merged heaps is adapted, whatever thread did which job and whenever the timer
of the searches ran out. The list has the positions that a rich path puts into the blocks, each
once, block by block, on the dates of the blocks. -/
theorem adaptOrder_of_mem_mergeDFS {τ : Type} [DecidableEq τ] (param : BagParam)
    (plan : BagPlan) (closeDate : List String)
    (hclose : plan.blockNum ≤ closeDate.length) (jobs : List (DFSWorker.Job τ))
    (hnodup : ∀ job ∈ jobs, job.richPath.vPosList.Nodup)
    (hcopy : ∀ job ∈ jobs, ∀ b l, (job.copyVal b l).Perm l) (pools : τ → ThreadMemPool)
    (hrun : DFSWorker.runJobs param plan (fun _ => {}) jobs = .ok pools)
    (visits : List (UInt32 × List SPath)) (hvisits : DFSearch.MergeOrder pools jobs visits)
    (hash : UInt32) (p : SPath)
    (hp : p ∈ (getDFSHeap param (DFSearch.mergeDFS param visits) hash).queue) :
    ∃ job ∈ jobs, JoinedPath plan job.richPath p ∧ plan.adaptOrder closeDate p =
      .ok (some ((List.range p.len).map (plan.orderAt closeDate p))) := by
  obtain ⟨job, hjob, hp⟩ := DFSearch.mem_joinedPaths_of_mem_mergeDFS hcopy hrun hvisits hp
  have hjoined := DFSWorker.joinedPath_of_mem (hnodup job hjob) hp
  exact ⟨job, hjob, hjoined, BagPlan.adaptOrder_eq (fun i hi => hjoined.blockAt_lt hi) hclose
    hjoined.restsOf_length_le⟩

/-! ## One job -/

def towerJob : DFSWorker.Job Unit := ⟨(), DFS.towerRich, fun _ l => l, .never⟩

/-- What a merge visits of the pool of a single thread. -/
def visitsOf (tmPool : ThreadMemPool) : List (UInt32 × List SPath) :=
  tmPool.dfsHeapMap.entries.map fun entry => (entry.1, entry.2.queue)

/-- An order in which the merge may come to the heaps where there is a single thread. -/
theorem mergeOrder_visitsOf {pools : Unit → ThreadMemPool} {jobs : List (DFSWorker.Job Unit)}
    (hjobs : jobs ≠ []) : DFSearch.MergeOrder pools jobs (visitsOf (pools ())) := by
  have hthreads : (jobs.map DFSWorker.Job.thread).dedup = [()] := by
    have hmap : jobs.map DFSWorker.Job.thread = List.replicate jobs.length () :=
      List.eq_replicate_iff.mpr ⟨List.length_map _, fun _ _ => rfl⟩
    rw [hmap, List.replicate_dedup (List.length_pos_iff.mpr hjobs).ne']
  refine ⟨(pools ()).dfsHeapMap.entries, by simp [hthreads], ?_⟩
  rw [visitsOf, List.forall₂_map_right_iff]
  exact List.forall₂_same.mpr fun entry _ => ⟨rfl, .refl _⟩

theorem adaptOrder_of_mem_mergeDFS_towerPlan : ∃ (p : SPath) (orderList : List AdaptedOrder),
    JoinedPath DFS.towerPlan DFS.towerRich p ∧
      DFS.towerPlan.adaptOrder ["0101"] p = .ok (some orderList) := by
  have hmerged : ((DFSWorker.runJobs {} DFS.towerPlan (fun _ => {})
      [towerJob]).toOption.map fun pools => (getDFSHeap {} (DFSearch.mergeDFS {}
        (visitsOf (pools ()))) DFS.towerRich.hashPointSet).queue.isEmpty) = some false := by
    decide +kernel
  obtain ⟨pools, hrun, hqueue⟩ := Option.map_eq_some_iff.mp hmerged
  obtain ⟨p, hp⟩ := List.exists_mem_of_ne_nil _ (List.isEmpty_eq_false_iff.mp hqueue)
  obtain ⟨job, hjob, hjoined, hadapt⟩ := adaptOrder_of_mem_mergeDFS {}
    DFS.towerPlan ["0101"] (by decide) [towerJob] (by decide +kernel)
    (by simp [towerJob]) pools (toOption_eq_some.mp hrun) _ (mergeOrder_visitsOf (by simp)) _ p hp
  obtain rfl := List.mem_singleton.mp hjob
  exact ⟨p, _, hjoined, hadapt⟩

end PPView
