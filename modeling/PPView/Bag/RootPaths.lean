import PPView.Bag.AdaptOrder
import PPView.Bag.ClusterOrganizer
import PPView.Bag.Clusterings

/-!
# What the root paths are

Every round returns: the clusterings split the places (`run_splits`), and the k-means of each has a
block for every cluster and a table that is large enough (`run_ok`). Its sets share no place, and
the blocks take what is in them (`run_sound`). So a root path visits candidates at their positions,
each once, in blocks that take them. From such a path the search may start (`adaptOrder_of_run`).
-/

namespace PPView

open MyKmeans (BlockInfo NodeInfo)
open UnorderedSet (toList)

/-! ## Root paths -/

namespace RootPlan

variable (plan : RootPlan)

/-- The block has time and takes the position. Without 90 minutes it only takes car stores. -/
structure Accepts (bPos vPos : ℕ) : Prop where
  block : bPos < plan.blockNum
  availDur : 0 < plan.availDur bPos
  vType : plan.getVType bPos vPos ≠ NODE_FUNC_NULL
  notPlay : plan.isNotPlay bPos ∨ plan.availDur bPos ≤ 5400 →
    plan.getVType bPos vPos = NODE_FUNC_PLACE_VIEW_SHOP ∧
      ∃ vPlace, plan.posPList[vPos]? = some vPlace ∧ plan.rawType vPlace = LY_PLACE_TYPE_CAR_STORE

def hotAt (vPos : ℕ) : Int := (plan.posPList[vPos]?).elim 0 plan.hotLevel

end RootPlan

/-- A path that is made for a plan and visits places that one round has picked, each once and at
its position, in blocks that take them. Its score is its value. -/
structure RootPath (num : Numerics) (plan : RootPlan) (p : SPath) : Prop where
  built : p.Built plan.toBagPlan
  nodup : p.vPosList.Nodup
  picked : ∃ loop < loopNum, ∀ vPos ∈ p.vPosList, ∃ vPlace ∈ (plan.getPlanPlace num loop).vList,
    plan.IsCandidate vPos vPlace
  accepts : ∀ x ∈ p.points, plan.Accepts x.2 x.1
  hot : p.hot = (p.vPosList.map plan.hotAt).sum
  score : p.score = p.hot

namespace RootPath

variable {num : Numerics} {plan : RootPlan} {p : SPath}

theorem intScore (h : RootPath num plan p) : p.IntScore := ⟨p.hot, h.score⟩

theorem setHash (h : RootPath num plan p) (hash hashPointSet : UInt32) :
    RootPath num plan { p with hash := hash, hashPointSet := hashPointSet } :=
  ⟨h.built.setHash hash hashPointSet p.hashFrom, h.nodup, h.picked, h.accepts, h.hot, h.score⟩

theorem calHash (h : RootPath num plan p) :
    RootPath num plan ((p.calHashPointSet plan.toBagPlan).calHashDayOrder plan.toBagPlan) := by
  unfold SPath.calHashDayOrder SPath.calHashPointSet
  split_ifs
  · exact h
  · exact h.setHash _ p.hashPointSet
  · exact h.setHash p.hash _
  · exact h.setHash _ _

theorem init (num : Numerics) (plan : RootPlan) :
    RootPath num plan (SPath.init plan.toBagPlan) :=
  ⟨.init, List.nodup_nil, ⟨0, by decide, by simp [SPath.init, SPath.vPosList]⟩,
    by simp [SPath.init], by simp [SPath.init, SPath.vPosList], by simp [SPath.init]⟩

end RootPath

/-! ## Pushing the places of a cluster -/

namespace SPath

/-- The path with more points, and their values. -/
def visit (hotAt : ℕ → Int) (p : SPath) (l : List (ℕ × ℕ)) : SPath :=
  let hot := p.hot + (l.map fun x => hotAt x.1).sum
  { p with points := p.points ++ l, hot := hot, score := hot }

variable {hotAt : ℕ → Int} {p : SPath} {l l' : List (ℕ × ℕ)}

theorem visit_nil (h : p.score = p.hot) : p.visit hotAt [] = p := by
  cases p
  simpa [visit] using h.symm

theorem visit_append : p.visit hotAt (l ++ l') = (p.visit hotAt l).visit hotAt l' := by
  simp [visit, add_assoc]

theorem Takes.visit (h : p.Takes (l ++ l')) : (p.visit hotAt l).Takes l' := by
  refine ⟨fun x hx => h.block x (List.mem_append_right l hx), ?_, ?_⟩
  · simpa [SPath.visit, vPosList] using h.node
  · simpa [SPath.visit, vPosList] using h.nodup

theorem Takes.pushVHot {x : ℕ × ℕ} (h : p.Takes (x :: l)) :
    let q := p.pushVHot x.2 x.1 (hotAt x.1)
    q.setScore q.hot = p.visit hotAt [x] := by
  have hlen := h.length_le
  have hblock := h.block x List.mem_cons_self
  have hnode := h.node x.1 (by simp)
  rw [List.length_cons] at hlen
  rw [SPath.pushVHot, if_neg (by omega), if_neg (by omega), h.push]
  simp [setHot, setScore, SPath.visit]

end SPath

/-! ## The places of a round -/

theorem ClusterPlan.IsCandidate.idxOf? {plan : ClusterPlan} {vPos : ℕ} {vPlace : LYPlace}
    (h : plan.IsCandidate vPos vPlace) : plan.posPList.idxOf? vPlace = some vPos := by
  obtain ⟨i, hi⟩ := Option.isSome_iff_exists.mp
    (List.isSome_idxOf?.mpr (List.mem_of_getElem? h.place))
  obtain ⟨hlt, heq, -⟩ := List.idxOf?_eq_some_iff.mp hi
  have hplace : plan.posPList[i]? = some vPlace := List.getElem?_eq_some_iff.mpr ⟨hlt, heq⟩
  rw [hi, plan.varPlace_unique i vPos vPlace hplace h.place h.isVar]

/-- What the loops of a round work on. -/
structure IsRound (num : Numerics) (plan : RootPlan) (vList : List LYPlace)
    (blockInfo : List BlockInfo) : Prop where
  picked : ∃ loop < loopNum, vList = (plan.getPlanPlace num loop).vList
  nodup : vList.Nodup
  candidate : ∀ vPlace ∈ vList, ∃ vPos, plan.IsCandidate vPos vPlace
  blockInfo : blockInfo.Perm (plan.blockInfo vList)

namespace RootPlan

variable {plan : RootPlan} {vList : List LYPlace} {blockInfo : List BlockInfo} {i j : ℕ}
  {vPlace : LYPlace} {block : BlockInfo} {node : NodeInfo} {p : SPath}

theorem blockInfo_mem (h : block ∈ plan.blockInfo vList) :
    block.m_idx < plan.blockNum ∧ 0 < plan.availDur block.m_idx ∧
      (plan.isNotPlay block.m_idx ∨ plan.availDur block.m_idx ≤ 5400 → block.m_is_not_play) := by
  obtain ⟨i, hi, h⟩ := List.mem_filterMap.mp h
  split_ifs at h with htime
  obtain rfl := Option.some.inj h
  refine ⟨List.mem_range.mp hi, htime, fun hplay => ?_⟩
  have hmin : 5400 ≤ plan.minPOIDur vList := le_max_right _ _
  rcases hplay with hplay | hplay
  · simp [hplay]
  · simp [hplay.trans hmin]

/-- The position of the place at `i`. -/
def posOf (plan : RootPlan) (vList : List LYPlace) (i : ℕ) : ℕ :=
  (vList[i]?.bind plan.posPList.idxOf?).getD 0

theorem nodeInfo_eq_some (h : (plan.nodeInfo vList)[i]? = some node) : ∃ vPlace,
    vList[i]? = some vPlace ∧ node.m_idx = plan.posOf vList i ∧
      node.rawType = plan.rawType vPlace := by
  rw [nodeInfo, List.getElem?_mapIdx] at h
  obtain ⟨vPlace, hplace, rfl⟩ := Option.map_eq_some_iff.mp h
  exact ⟨vPlace, hplace, by simp [posOf, hplace], rfl⟩

@[simp] theorem length_nodeInfo : (plan.nodeInfo vList).length = vList.length := by
  simp [nodeInfo]

end RootPlan

namespace SPath.Built

variable {plan : RootPlan} {vList : List LYPlace} {nodeInfo : List NodeInfo} {p q : SPath}

theorem pushPoint {block : BlockInfo} {i : ℕ} (hp : p.Built plan.toBagPlan)
    (h : plan.pushPoint vList nodeInfo block p i = .ok q) : q.Built plan.toBagPlan := by
  unfold RootPlan.pushPoint at h
  split at h
  · obtain rfl := Except.ok.inj h
    refine setScore ?_ _
    unfold SPath.pushVHot
    split_ifs
    · exact hp
    · exact hp
    · exact (hp.pushV _ _).setHot _
  · cases h

theorem pushCluster {σ : Type} [UnorderedSet σ ℕ] {blockInfo : List BlockInfo} {cluster : σ × ℕ}
    (hp : p.Built plan.toBagPlan)
    (h : plan.pushCluster vList nodeInfo blockInfo p cluster = .ok q) :
    q.Built plan.toBagPlan := by
  unfold RootPlan.pushCluster at h
  split at h
  · cases h
  · exact foldlM_keeps (fun p i q hp hq => hp.pushPoint hq) hp h

end SPath.Built

namespace IsRound

variable {num : Numerics} {plan : RootPlan} {vList : List LYPlace} {blockInfo : List BlockInfo}
  {i j : ℕ} {vPlace : LYPlace} {block : BlockInfo} {node : NodeInfo} {p : SPath}

theorem posOf_isCandidate (h : IsRound num plan vList blockInfo) (hi : vList[i]? = some vPlace) :
    plan.IsCandidate (plan.posOf vList i) vPlace := by
  obtain ⟨vPos, hcand⟩ := h.candidate vPlace (List.mem_of_getElem? hi)
  simpa [RootPlan.posOf, hi, hcand.idxOf?] using hcand

theorem posOf_lt (h : IsRound num plan vList blockInfo) (hi : i < vList.length) :
    plan.posOf vList i < plan.nodeNum :=
  (List.getElem?_eq_some_iff.mp (h.posOf_isCandidate (List.getElem?_eq_getElem hi)).place).1

/-- Different places have different positions. -/
theorem posOf_inj (h : IsRound num plan vList blockInfo) (hi : i < vList.length)
    (hj : j < vList.length) (heq : plan.posOf vList i = plan.posOf vList j) : i = j := by
  have hcandi := h.posOf_isCandidate (List.getElem?_eq_getElem hi)
  have hcandj := h.posOf_isCandidate (List.getElem?_eq_getElem hj)
  rw [heq] at hcandi
  exact h.nodup.getElem_inj_iff.mp (Option.some.inj (hcandi.place.symm.trans hcandj.place))

/-- A block that takes a point accepts its position. -/
theorem accepts (h : IsRound num plan vList blockInfo) {k : MyKmeans.Kmeans}
    (hk : k.getVType = plan.getVType) (hblock : block ∈ blockInfo)
    (hnode : (plan.nodeInfo vList)[i]? = some node) (hadmits : MyKmeans.Admits k block node) :
    plan.Accepts block.m_idx (plan.posOf vList i) := by
  obtain ⟨hlt, htime, hnotPlay⟩ := RootPlan.blockInfo_mem (h.blockInfo.subset hblock)
  obtain ⟨vPlace, hplace, hidx, hraw⟩ := RootPlan.nodeInfo_eq_some hnode
  rw [MyKmeans.Admits, hk, hidx, hraw] at hadmits
  refine ⟨hlt, htime, ?_, fun hplay => ?_⟩
  · split_ifs at hadmits
    · rw [hadmits.2]
      decide
    · exact hadmits
  · rw [if_pos (hnotPlay hplay)] at hadmits
    exact ⟨hadmits.2, vPlace, (h.posOf_isCandidate hplace).place, hadmits.1⟩

theorem pushPoint_eq (h : IsRound num plan vList blockInfo) (hi : i < vList.length)
    {l : List (ℕ × ℕ)} (htakes : p.Takes ((plan.posOf vList i, block.m_idx) :: l)) :
    plan.pushPoint vList (plan.nodeInfo vList) block p i =
      .ok (p.visit plan.hotAt [(plan.posOf vList i, block.m_idx)]) := by
  have hnode := List.getElem?_eq_getElem (l := plan.nodeInfo vList) (by simpa using hi)
  obtain ⟨vPlace, hplace, hidx, -⟩ := RootPlan.nodeInfo_eq_some hnode
  have hhot : plan.hotAt (plan.posOf vList i) = plan.hotLevel vPlace := by
    rw [RootPlan.hotAt, (h.posOf_isCandidate hplace).place, Option.elim_some]
  rw [RootPlan.pushPoint, hnode, hplace]
  simp only [hidx, ← hhot]
  exact congrArg Except.ok htakes.pushVHot

/-- The points of a cluster, in the order of its set. -/
theorem foldlM_pushPoint (h : IsRound num plan vList blockInfo) {l : List ℕ}
    (hl : ∀ i ∈ l, i < vList.length) {rest : List (ℕ × ℕ)}
    (htakes : p.Takes (l.map (fun i => (plan.posOf vList i, block.m_idx)) ++ rest))
    (hscore : p.score = p.hot) :
    l.foldlM (plan.pushPoint vList (plan.nodeInfo vList) block) p =
      .ok (p.visit plan.hotAt (l.map fun i => (plan.posOf vList i, block.m_idx))) := by
  induction l generalizing p with
  | nil => exact congrArg Except.ok (SPath.visit_nil hscore).symm
  | cons i l ih =>
    obtain ⟨hi, hl⟩ := List.forall_mem_cons.mp hl
    have hrest : (p.visit plan.hotAt [(plan.posOf vList i, block.m_idx)]).Takes
        (l.map (fun i => (plan.posOf vList i, block.m_idx)) ++ rest) :=
      SPath.Takes.visit (l := [(plan.posOf vList i, block.m_idx)]) htakes
    rw [List.foldlM_cons, h.pushPoint_eq hi htakes]
    refine (ih hl hrest rfl).trans (congrArg Except.ok ?_)
    rw [← SPath.visit_append]
    rfl

variable {σ : Type} [UnorderedSet σ ℕ]

/-- The points of the cluster that belongs to the block at an index. -/
def pointsOf (plan : RootPlan) (vList : List LYPlace) (blockInfo : List BlockInfo) (c : σ × ℕ) :
    List (ℕ × ℕ) :=
  (toList c.1).map fun i => (plan.posOf vList i, (blockInfo[c.2]?).elim 0 (·.m_idx))

theorem foldlM_clusters (h : IsRound num plan vList blockInfo) {cs : List (σ × ℕ)}
    (hblock : ∀ c ∈ cs, c.2 < blockInfo.length)
    (hpoints : ∀ c ∈ cs, ∀ i ∈ toList c.1, i < vList.length)
    (htakes : p.Takes (cs.flatMap (pointsOf plan vList blockInfo)))
    (hscore : p.score = p.hot) :
    cs.foldlM (plan.pushCluster vList (plan.nodeInfo vList) blockInfo) p =
      .ok (p.visit plan.hotAt (cs.flatMap (pointsOf plan vList blockInfo))) := by
  induction cs generalizing p with
  | nil => exact congrArg Except.ok (SPath.visit_nil hscore).symm
  | cons c cs ih =>
    obtain ⟨cluster, j⟩ := c
    obtain ⟨hc, hblock⟩ := List.forall_mem_cons.mp hblock
    obtain ⟨hcluster, hpoints⟩ := List.forall_mem_cons.mp hpoints
    have hj := List.getElem?_eq_getElem hc
    have heq : pointsOf plan vList blockInfo (cluster, j) =
        (toList cluster).map fun i => (plan.posOf vList i, blockInfo[j].m_idx) := by
      simp [pointsOf, hj]
    rw [List.flatMap_cons] at htakes ⊢
    rw [heq] at htakes ⊢
    rw [List.foldlM_cons, RootPlan.pushCluster, hj]
    dsimp only
    rw [h.foldlM_pushPoint hcluster htakes hscore, SPath.visit_append]
    exact ih hblock hpoints htakes.visit rfl

/-- The sets of a k-means in their order, whose places lie one behind the other on the path. -/
theorem map_fst_pointsOf (blockInfo : List BlockInfo) (clusters : List σ) :
    (clusters.zipIdx.flatMap (pointsOf plan vList blockInfo)).map Prod.fst =
      (clusters.flatMap toList).map (plan.posOf vList) := by
  have hsets : clusters.zipIdx.flatMap (fun c => (toList c.1).map (plan.posOf vList)) =
      (clusters.zipIdx.map Prod.fst).flatMap fun set => (toList set).map (plan.posOf vList) := by
    rw [List.flatMap_map]
  rw [List.map_flatMap, List.map_flatMap]
  simpa [pointsOf, Function.comp_def, List.map_map] using hsets

variable {env : ClusterEnv σ} {matrix : HierarchicalClustering.BaseMatrix} {s : MyKmeans.State σ}

theorem accepts_pointsOf (h : IsRound num plan vList blockInfo)
    (hs : MyKmeans.Sound (ClusterOrganizer.kmeansOf env plan matrix (plan.nodeInfo vList) blockInfo)
      s) : ∀ x ∈ s.clusterResult.zipIdx.flatMap (pointsOf plan vList blockInfo),
      plan.Accepts x.2 x.1 := by
  intro x hx
  obtain ⟨⟨cluster, j⟩, hc, hx⟩ := List.mem_flatMap.mp hx
  obtain ⟨i, hi, rfl⟩ := List.mem_map.mp hx
  obtain ⟨block, node, hblock, hnode, hadmits⟩ :=
    hs.takes (List.mem_zipIdx_iff_getElem?.mp hc) hi
  have hblock : blockInfo[j]? = some block := hblock
  simpa [hblock] using h.accepts rfl (List.mem_of_getElem? hblock) hnode hadmits

/-- What k-means makes of the places of a round becomes a root path. -/
theorem dumpPath_rootPath (h : IsRound num plan vList blockInfo)
    (hs : MyKmeans.Sound (ClusterOrganizer.kmeansOf env plan matrix (plan.nodeInfo vList) blockInfo)
      s) : ∃ p, plan.dumpPath vList (plan.nodeInfo vList) blockInfo s.clusterResult = .ok p ∧
      RootPath num plan p := by
  have hblock : ∀ c ∈ s.clusterResult.zipIdx, c.2 < blockInfo.length := by
    rintro ⟨cluster, j⟩ hc
    apply hs.books.lt_blocks
    rw [← hs.books.length_eq]
    exact (List.getElem?_eq_some_iff.mp (List.mem_zipIdx_iff_getElem?.mp hc)).1
  have hpoint : ∀ i ∈ s.clusterResult.flatMap toList, i < vList.length := by
    intro i hi
    have hlt : i < (plan.nodeInfo vList).length :=
      hs.books.isPoint i (hs.books.flatMap_perm.subset hi)
    simpa using hlt
  have hpoints : ∀ c ∈ s.clusterResult.zipIdx, ∀ i ∈ toList c.1, i < vList.length := by
    rintro ⟨cluster, j⟩ hc i hi
    have hcluster := List.mem_of_getElem? (List.mem_zipIdx_iff_getElem?.mp hc)
    exact hpoint i (List.mem_flatMap.mpr ⟨cluster, hcluster, hi⟩)
  have haccepts := h.accepts_pointsOf hs
  have hnodup : ((s.clusterResult.flatMap toList).map (plan.posOf vList)).Nodup := by
    refine List.Nodup.map_on (fun i hi j hj heq => ?_)
      (hs.books.flatMap_perm.nodup_iff.mpr hs.books.nodup)
    exact h.posOf_inj (hpoint i hi) (hpoint j hj) heq
  have htakes : (SPath.init plan.toBagPlan).Takes
      (s.clusterResult.zipIdx.flatMap (pointsOf plan vList blockInfo)) := by
    refine ⟨fun x hx => (haccepts x hx).block, ?_, ?_⟩
    · rw [map_fst_pointsOf]
      intro vPos hvPos
      obtain ⟨i, hi, rfl⟩ := List.mem_map.mp hvPos
      exact h.posOf_lt (hpoint i hi)
    · rw [map_fst_pointsOf]
      exact hnodup
  have hfold := h.foldlM_clusters hblock hpoints htakes rfl
  have hlist : ((SPath.init plan.toBagPlan).visit plan.hotAt
      (s.clusterResult.zipIdx.flatMap (pointsOf plan vList blockInfo))).vPosList =
      (s.clusterResult.flatMap toList).map (plan.posOf vList) := by
    rw [← map_fst_pointsOf blockInfo]
    simp [SPath.visit, SPath.vPosList, SPath.init]
  refine ⟨_, bind_ok.mpr ⟨_, hfold, rfl⟩, RootPath.calHash ⟨?_, ?_, ?_, ?_, ?_, rfl⟩⟩
  · exact foldlM_keeps (fun p c q hp hq => hp.pushCluster hq) .init hfold
  · rw [hlist]
    exact hnodup
  · obtain ⟨loop, hloop, hpicked⟩ := h.picked
    refine ⟨loop, hloop, fun vPos hvPos => ?_⟩
    rw [hlist] at hvPos
    obtain ⟨i, hi, rfl⟩ := List.mem_map.mp hvPos
    have hplace := List.getElem?_eq_getElem (hpoint i hi)
    exact ⟨_, hpicked ▸ List.mem_of_getElem? hplace, h.posOf_isCandidate hplace⟩
  · simpa [SPath.visit, SPath.init] using haccepts
  · rw [hlist, ← map_fst_pointsOf blockInfo, List.map_map]
    simp [SPath.visit, SPath.init, Function.comp_def]

/-- The loop over the results of a round. -/
theorem clusterDumpToSPath_rootPaths (h : IsRound num plan vList blockInfo)
    {results : List (List σ)} (hresults : ∀ result ∈ results, ∃ s, MyKmeans.Sound
      (ClusterOrganizer.kmeansOf env plan matrix (plan.nodeInfo vList) blockInfo) s ∧
      s.clusterResult = result) (resultHashs : List UInt32) {rootList : List SPath}
    (hroot : ∀ p ∈ rootList, RootPath num plan p) :
    ∃ rootList', plan.clusterDumpToSPath vList (plan.nodeInfo vList) blockInfo results resultHashs
      rootList = .ok rootList' ∧ (∀ p ∈ rootList', RootPath num plan p) ∧
      rootList'.length ≤ rootList.length + results.length := by
  induction results generalizing resultHashs rootList with
  | nil => exact ⟨rootList, rfl, hroot, le_rfl⟩
  | cons result results ih =>
    obtain ⟨⟨s, hs, rfl⟩, hrest⟩ := List.forall_mem_cons.mp hresults
    have hskip : ∃ rootList', plan.clusterDumpToSPath vList (plan.nodeInfo vList) blockInfo results
        resultHashs rootList = .ok rootList' ∧ (∀ p ∈ rootList', RootPath num plan p) ∧
        rootList'.length ≤ rootList.length + (s.clusterResult :: results).length := by
      obtain ⟨rootList', hrun, hroot', hlen⟩ := ih hrest resultHashs hroot
      exact ⟨rootList', hrun, hroot', hlen.trans (by simp)⟩
    unfold RootPlan.clusterDumpToSPath
    split_ifs
    · exact hskip
    · obtain ⟨p, hp, hpath⟩ := h.dumpPath_rootPath hs
      simp only [hp, bind, Except.bind]
      split_ifs
      · exact hskip
      · have hroot' : ∀ q ∈ rootList ++ [p], RootPath num plan q := by
          simpa [or_imp, forall_and] using ⟨hroot, hpath⟩
        obtain ⟨rootList', hrun, hroot', hlen⟩ := ih hrest (p.hash :: resultHashs) hroot'
        refine ⟨rootList', hrun, hroot', hlen.trans ?_⟩
        simp only [List.length_append, List.length_cons, List.length_nil]
        omega

/-- There are no more places than positions. -/
theorem length_le (h : IsRound num plan vList blockInfo) : vList.length ≤ plan.nodeNum := by
  have hnodup : ((List.range vList.length).map (plan.posOf vList)).Nodup :=
    List.Nodup.map_on (fun i hi j hj => h.posOf_inj (List.mem_range.mp hi) (List.mem_range.mp hj))
      List.nodup_range
  have hsub : (List.range vList.length).map (plan.posOf vList) ⊆ List.range plan.nodeNum := by
    intro vPos hvPos
    obtain ⟨i, hi, rfl⟩ := List.mem_map.mp hvPos
    exact List.mem_range.mpr (h.posOf_lt (List.mem_range.mp hi))
  simpa using (hnodup.subperm hsub).length_le

theorem length_blockInfo_le (h : IsRound num plan vList blockInfo) :
    blockInfo.length ≤ plan.blockNum := by
  rw [h.blockInfo.length_eq, RootPlan.blockInfo]
  exact (List.length_filterMap_le _ _).trans List.length_range.le

end IsRound

/-! ## Rounds -/

namespace ClusterOrganizer

section

variable {n k i : ℕ} {result : HierarchicalClustering.Result}

theorem length_initClusters (h : Slots.Splits (List.range n) (max n k) (min n k) result) :
    (initClusters k i result).length = k := by
  have hcount : ((result.rotate i).filter (· ≠ [])).length = min n k := by
    rw [← List.countP_eq_length_filter, (List.rotate_perm result i).countP_eq]
    exact h.count
  rw [initClusters, List.length_append, List.length_replicate, hcount]
  omega

theorem lt_of_mem_initClusters (h : Slots.Splits (List.range n) (max n k) (min n k) result)
    {set : List ℕ} (hset : set ∈ initClusters k i result) {q : ℕ} (hq : q ∈ set) : q < n := by
  rcases List.mem_append.mp hset with hset | hset
  · have hmem := (List.rotate_perm result i).subset (List.mem_of_mem_filter hset)
    exact List.mem_range.mp (h.perm.subset (List.mem_flatten.mpr ⟨set, hmem, hq⟩))
  · rw [(List.mem_replicate.mp hset).2] at hq
    contradiction

end

variable {σ : Type} [UnorderedSet σ ℕ] {env : ClusterEnv σ} {plan : RootPlan} {loop : ℕ}
  {s : ClusterOrganizer}

theorem keepLimit_le (env : ClusterEnv σ) (loop : ℕ) : keepLimit env loop ≤ 20 := by
  rw [keepLimit]
  omega

theorem isRound (env : ClusterEnv σ) (plan : RootPlan) (hloop : loop < loopNum) :
    IsRound env.toNumerics plan (plan.getPlanPlace env.toNumerics loop).vList
      (env.sortBlocks (plan.blockInfo (plan.getPlanPlace env.toNumerics loop).vList)) := by
  obtain ⟨drawn, h⟩ := plan.toClusterPlan.getPlanPlace_selected hloop
  exact ⟨⟨loop, hloop, rfl⟩, h.vList_nodup, fun _ hmem => h.exists_isCandidate hmem,
    env.sortBlocks_perm _⟩

/-- A k-means of a round has a block for every cluster, and returns. -/
theorem kmeans_sound {num : Numerics} {vList : List LYPlace} {blockInfo : List BlockInfo}
    (h : IsRound num plan vList blockInfo) {result : HierarchicalClustering.Result} {i : ℕ}
    (hresult : Slots.Splits (List.range vList.length) (max vList.length blockInfo.length)
      (min vList.length blockInfo.length) result)
    (matrix : HierarchicalClustering.BaseMatrix) (m_P2Cluster : ℕ → ℕ → Int) :
    ∃ last, MyKmeans.run (kmeansOf env plan matrix (plan.nodeInfo vList) blockInfo) m_P2Cluster
        ((initClusters blockInfo.length i result).map env.ofList) = .ok last ∧
      ∃ s, MyKmeans.Sound (kmeansOf env plan matrix (plan.nodeInfo vList) blockInfo) s ∧
        s.clusterResult = last := by
  have hlen : ((initClusters blockInfo.length i result).map env.ofList).length =
      blockInfo.length := by
    rw [List.length_map, length_initClusters hresult]
  have hnodes : (plan.nodeInfo vList).length ≤ MyKmeans.tableSize := by
    rw [RootPlan.length_nodeInfo]
    exact (h.length_le.trans plan.nodeNum_le).trans (by decide)
  have hclusters : blockInfo.length ≤ MyKmeans.tableSize :=
    (h.length_blockInfo_le.trans plan.blockNum_le).trans (by decide)
  have hset : ∀ set ∈ (initClusters blockInfo.length i result).map env.ofList, ∀ q ∈ toList set,
      q < (plan.nodeInfo vList).length := by
    intro set hset q hq
    obtain ⟨l, hl, rfl⟩ := List.mem_map.mp hset
    rw [RootPlan.length_nodeInfo]
    exact lt_of_mem_initClusters hresult hl ((env.mem_ofList l q).mp hq)
  obtain ⟨last, hlast⟩ := MyKmeans.run_ok
    (k := kmeansOf env plan matrix (plan.nodeInfo vList) blockInfo) m_P2Cluster _ hlen rfl hnodes
    hclusters hset
  exact ⟨last, hlast, MyKmeans.run_sound hlen.ge hlast⟩

/-- A round returns, and adds twenty root paths at most. -/
theorem round_rootPaths (loop : ℕ) (hloop : loop < loopNum)
    (hroot : ∀ p ∈ s.m_rootList, RootPath env.toNumerics plan p) :
    ∃ done s', round env plan loop s = .ok (done, s') ∧
      (∀ p ∈ s'.m_rootList, RootPath env.toNumerics plan p) ∧
      s'.m_rootList.length ≤ s.m_rootList.length + 20 := by
  have h := isRound env plan hloop
  unfold round
  generalize (plan.getPlanPlace env.toNumerics loop).vList = vList at h
  dsimp only
  generalize env.sortBlocks (plan.blockInfo vList) = blockInfo at h
  split_ifs with hskip
  · exact ⟨false, s, rfl, hroot, by omega⟩
  · have hlen : (plan.list2Matrix vList).length = vList.length := by
      rw [RootPlan.list2Matrix, List.length_map]
    obtain ⟨tmp, htmp, hsplits, -⟩ := HierarchicalClustering.run_splits env.sortEdges
      (plan.list2Matrix vList) blockInfo.length env.sortEdges_perm (by
        have := h.length_le
        have := plan.nodeNum_le
        simp only [hlen, kPathLimit] at this ⊢
        omega)
    rw [hlen] at hsplits
    -- a k-means for each of the first clusterings
    have hkmeans : ∀ a ∈ ((tmp.take (keepLimit env loop)).mapIdx fun i t =>
          (initClusters blockInfo.length i t).map env.ofList).zipIdx,
        ∃ last, MyKmeans.run (kmeansOf env plan (plan.list2Matrix vList) (plan.nodeInfo vList)
            blockInfo) (env.m_P2Cluster loop a.2) a.1 = .ok last ∧
          ∃ s, MyKmeans.Sound (kmeansOf env plan (plan.list2Matrix vList) (plan.nodeInfo vList)
            blockInfo) s ∧ s.clusterResult = last := by
      rintro ⟨result, i⟩ ha
      have hget : ((tmp.take (keepLimit env loop)).mapIdx fun i t =>
          (initClusters blockInfo.length i t).map env.ofList)[i]? = some result :=
        List.mem_zipIdx_iff_getElem?.mp ha
      rw [List.getElem?_mapIdx] at hget
      obtain ⟨t, ht, rfl⟩ := Option.map_eq_some_iff.mp hget
      exact kmeans_sound h (hsplits t (List.mem_of_mem_take (List.mem_of_getElem? ht))) _ _
    obtain ⟨lastResults, hlast, hsound, hnum⟩ := mapM_ok hkmeans
    obtain ⟨rootList, hdump, hroot', hadded⟩ := h.clusterDumpToSPath_rootPaths hsound [] hroot
    refine ⟨true, _, bind_ok.mpr ⟨tmp, htmp, bind_ok.mpr ⟨lastResults, hlast, bind_ok.mpr
      ⟨rootList, hdump, rfl⟩⟩⟩, hroot', ?_⟩
    have hkeep := keepLimit_le env loop
    simp only [List.length_zipIdx, List.length_mapIdx, List.length_take] at hnum
    dsimp only
    omega

theorem rounds_rootPaths (n loop : ℕ) (hn : loop + n ≤ loopNum)
    (hroot : ∀ p ∈ s.m_rootList, RootPath env.toNumerics plan p) :
    ∃ s', rounds env plan n loop s = .ok s' ∧
      (∀ p ∈ s'.m_rootList, RootPath env.toNumerics plan p) ∧
      s'.m_rootList.length ≤ s.m_rootList.length + 20 * n := by
  induction n generalizing loop s with
  | zero => exact ⟨s, rfl, hroot, by omega⟩
  | succ n ih =>
    obtain ⟨done, s₁, hround, hroot₁, hlen₁⟩ := round_rootPaths loop (by omega) hroot
    simp only [rounds, hround, bind, Except.bind]
    split_ifs
    · exact ⟨s₁, rfl, hroot₁, by omega⟩
    · obtain ⟨s', hrounds, hroot', hlen'⟩ := ih (loop + 1) (by omega) hroot₁
      exact ⟨s', hrounds, hroot', by omega⟩

theorem selectPaths_sublist (j k : ℕ) (paths : List SPath) :
    (selectPaths env j k paths).Sublist paths := by
  induction paths generalizing j k with
  | nil => exact .slnil
  | cons p paths ih =>
    rw [selectPaths]
    split_ifs
    · exact (ih _ _).cons_cons p
    · exact (ih _ _).cons p

/-- The paths of the rounds, of which some may be left out, and an empty one, in order. -/
theorem run_eq_sortPaths (env : ClusterEnv σ) (plan : RootPlan) :
    ∃ paths, run env plan = .ok (env.sortPaths (paths ++ [SPath.init plan.toBagPlan])) ∧
      paths.length ≤ 2000 ∧
      ∀ p ∈ paths ++ [SPath.init plan.toBagPlan], RootPath env.toNumerics plan p := by
  obtain ⟨s, hrounds, hroot, hlen⟩ : ∃ s, rounds env plan loopNum 0 {} = .ok s ∧
      (∀ p ∈ s.m_rootList, RootPath env.toNumerics plan p) ∧ s.m_rootList.length ≤ 0 + 2000 :=
    rounds_rootPaths loopNum 0 (Nat.zero_add _).le fun p hp => absurd hp List.not_mem_nil
  rw [Nat.zero_add] at hlen
  set selected := if plan.qType = "ssv005_s130" then selectPaths env 0 0 s.m_rootList
    else s.m_rootList with hselected
  have hsub : selected.Sublist s.m_rootList := by
    rw [hselected]
    split_ifs
    · exact selectPaths_sublist 0 0 _
    · exact List.Sublist.refl _
  refine ⟨selected, bind_ok.mpr ⟨s, hrounds, rfl⟩, hsub.length_le.trans hlen, fun p hp => ?_⟩
  rcases List.mem_append.mp hp with hp | hp
  · exact hroot p (hsub.subset hp)
  · rw [List.mem_singleton.mp hp]
    exact .init _ plan

theorem rootPath_of_mem_run {rootList : List SPath} {p : SPath} (hrun : run env plan = .ok rootList)
    (hp : p ∈ rootList) : RootPath env.toNumerics plan p := by
  obtain ⟨paths, hpaths, -, hroot⟩ := run_eq_sortPaths env plan
  obtain rfl := Except.ok.inj (hpaths.symm.trans hrun)
  exact hroot p ((env.sortPaths_perm _).subset hp)

/-- `Run` returns, with the best path in front. There are no more than 2001 paths, one of them is
empty, and the search may start from all of them. -/
theorem run_rootPaths (env : ClusterEnv σ) (plan : RootPlan) :
    ∃ rootList, run env plan = .ok rootList ∧ rootList.Pairwise (InOrder SPathCmp) ∧
      SPath.init plan.toBagPlan ∈ rootList ∧ rootList.length ≤ 2001 ∧
      ∀ p ∈ rootList, RootPath env.toNumerics plan p := by
  obtain ⟨paths, hpaths, hlen, hroot⟩ := run_eq_sortPaths env plan
  have hperm := env.sortPaths_perm (paths ++ [SPath.init plan.toBagPlan])
  refine ⟨_, hpaths, env.sortPaths_pairwise _ fun p hp => (hroot p hp).intScore, ?_, ?_,
    fun p hp => rootPath_of_mem_run hpaths hp⟩
  · exact hperm.symm.subset (List.mem_append_right _ (List.mem_singleton_self _))
  · rw [hperm.length_eq, List.length_append, List.length_singleton]
    omega

/-! ### A run for one day -/

theorem insertionSort_key_pairwise {paths : List SPath} (hint : ∀ p ∈ paths, p.IntScore) :
    (paths.insertionSort fun p q => p.key ≤ q.key).Pairwise (InOrder SPathCmp) := by
  refine (pairwise_insertionSort_key SPath.key paths).imp_of_mem fun {p q} hp hq hle => ?_
  have hpint := hint p ((List.perm_insertionSort _ paths).subset hp)
  have hqint := hint q ((List.perm_insertionSort _ paths).subset hq)
  rw [InOrder, Bool.eq_false_iff, Ne, SPath.SPathCmp_iff hqint hpint]
  exact not_lt.mpr hle

/-- Insertion sorts, and sets in the order of insertion. The time is up behind the first round. -/
def towerEnv : ClusterEnv {l : List ℕ // l.Nodup} where
  toNumerics := ClusterPlan.greatestRand
  pow x y := x ^ y.num.toNat
  sortEdges := List.insertionSort fun a b => a.value ≤ b.value
  sortEdges_perm := List.perm_insertionSort _
  sortBlocks := List.insertionSort fun a b => -a.m_dur ≤ -b.m_dur
  sortBlocks_perm := List.perm_insertionSort _
  sortBlocks_pairwise blocks :=
    (pairwise_insertionSort_key (fun block => -block.m_dur) blocks).imp neg_le_neg_iff.mp
  sort lt l := l.insertionSort fun a b => lt b a = false
  sort_perm _ := List.perm_insertionSort _
  sortPaths := List.insertionSort fun p q => p.key ≤ q.key
  sortPaths_perm := List.perm_insertionSort _
  sortPaths_pairwise _ := insertionSort_key_pairwise
  ofList := UnorderedSet.ofList
  mem_ofList _ _ := UnorderedSet.mem_ofList
  m_P2Cluster _ _ _ _ := 0
  rootTimeOut _ := true

def towerRoot : RootPlan where
  toClusterPlan := ClusterPlan.towerCluster
  hotLevel place := if place.ID = "tower" then 90 else 70
  getDist _ _ := 1000
  isFreq _ _ := false

/-- A path with both places, and the empty one. -/
example : (run towerEnv towerRoot).toOption.map (fun rootList => rootList.map fun p =>
    (p.points, p.score)) = some [([(3, 0), (2, 0)], 160), ([], 0)] := by
  decide +kernel

end ClusterOrganizer

/-! ## From the root paths to the orders of a route -/

namespace RootPath

open BagPlan (blockAt)

variable {num : Numerics} {plan : RootPlan} {richPath p : SPath}

/-- A block of a root path accepts the positions in it. -/
theorem accepts_posList (h : RootPath num plan richPath) {bPos vPos : ℕ}
    (hvPos : vPos ∈ richPath.posList bPos) : plan.Accepts bPos vPos := by
  obtain ⟨hmem, hblock⟩ := List.mem_filter.mp hvPos
  obtain ⟨⟨v, b⟩, hx, rfl⟩ := List.mem_map.mp hmem
  obtain ⟨loop, -, hpicked⟩ := h.picked
  obtain ⟨vPlace, -, hcand⟩ := hpicked v hmem
  have hnode : v < richPath.nodeNum := by
    rw [h.built.nodeNum]
    exact (List.getElem?_eq_some_iff.mp hcand.place).1
  have hb : richPath.getBPos v = b := SPath.getBPos_of_mem h.nodup hx hnode
  obtain rfl : b = bPos := by simpa [hb] using hblock
  exact h.accepts _ hx

/-- What `AdaptOrder` makes of a path that is joined for a root path. -/
theorem adaptOrder_ok (h : RootPath num plan richPath)
    (hjoined : JoinedPath plan.toBagPlan richPath p) {closeDate : List String}
    (hclose : plan.blockNum ≤ closeDate.length) :
    ∃ orderList, plan.adaptOrder closeDate p = .ok (some orderList) ∧
      (orderList.map (·.place)).Nodup ∧
      ∃ loop < loopNum, ∀ order ∈ orderList, ∃ bPos vPos,
        ∃ vPlace ∈ (plan.getPlanPlace num loop).vList, order.place = some vPlace ∧
          order.date = closeDate.getD bPos "" ∧ plan.IsCandidate vPos vPlace ∧
          plan.Accepts bPos vPos := by
  obtain ⟨loop, hloop, hpicked⟩ := h.picked
  have hmem : ∀ i < p.len, p.getVPos i ∈ richPath.vPosList := fun i hi =>
    List.mem_of_mem_filter (hjoined.getVPos_mem_posList hi)
  refine ⟨_, BagPlan.adaptOrder_eq (fun i hi => hjoined.blockAt_lt hi) hclose
    hjoined.restsOf_length_le, ?_, loop, hloop, fun order horder => ?_⟩
  · have hplaces : ((List.range p.len).map (plan.orderAt closeDate p)).map (·.place) =
        p.vPosList.map plan.getPosPlace := by
      rw [p.vPosList_eq_map, List.map_map, List.map_map]
      rfl
    rw [hplaces]
    refine hjoined.nodup.map_on fun v hv w hw heq => ?_
    rw [p.vPosList_eq_map] at hv hw
    obtain ⟨i, hi, rfl⟩ := List.mem_map.mp hv
    obtain ⟨j, hj, rfl⟩ := List.mem_map.mp hw
    obtain ⟨vPlace, -, hcand⟩ := hpicked _ (hmem i (List.mem_range.mp hi))
    exact plan.varPlace_unique _ _ vPlace hcand.place (heq.symm.trans hcand.place) hcand.isVar
  · obtain ⟨i, hi, rfl⟩ := List.mem_map.mp horder
    have hi := List.mem_range.mp hi
    obtain ⟨vPlace, hvPlace, hcand⟩ := hpicked _ (hmem i hi)
    exact ⟨blockAt p i, p.getVPos i, vPlace, hvPlace, hcand.place, rfl, hcand,
      h.accepts_posList (hjoined.getVPos_mem_posList hi)⟩

end RootPath

open ClusterOrganizer (towerEnv towerRoot)

/-- Whatever path the search finds from the root paths is adapted, whatever thread did which job
and whenever a timer ran out. The list has places that a single round has picked, each once, on the
dates of blocks that take them. -/
theorem adaptOrder_of_run {σ τ : Type} [UnorderedSet σ ℕ] [DecidableEq τ] (env : ClusterEnv σ)
    (plan : RootPlan) (param : BagParam) (closeDate : List String)
    (hclose : plan.blockNum ≤ closeDate.length) (rootList : List SPath)
    (hroot : ClusterOrganizer.run env plan = .ok rootList) (jobs : List (DFSWorker.Job τ))
    (hjobs : ∀ job ∈ jobs, job.richPath ∈ rootList)
    (hcopy : ∀ job ∈ jobs, ∀ b l, (job.copyVal b l).Perm l) (pools : τ → ThreadMemPool)
    (hrun : DFSWorker.runJobs param plan.toBagPlan (fun _ => {}) jobs = .ok pools)
    (visits : List (UInt32 × List SPath)) (hvisits : DFSearch.MergeOrder pools jobs visits)
    (hash : UInt32) (p : SPath)
    (hp : p ∈ (getDFSHeap param (DFSearch.mergeDFS param visits) hash).queue) :
    ∃ orderList, plan.adaptOrder closeDate p = .ok (some orderList) ∧
      (orderList.map (·.place)).Nodup ∧
      ∃ loop < loopNum, ∀ order ∈ orderList, ∃ bPos vPos,
        ∃ vPlace ∈ (plan.getPlanPlace env.toNumerics loop).vList, order.place = some vPlace ∧
          order.date = closeDate.getD bPos "" ∧ plan.IsCandidate vPos vPlace ∧
          plan.Accepts bPos vPos := by
  obtain ⟨job, hjob, hp⟩ := DFSearch.mem_joinedPaths_of_mem_mergeDFS hcopy hrun hvisits hp
  have hpath := ClusterOrganizer.rootPath_of_mem_run hroot (hjobs job hjob)
  exact hpath.adaptOrder_ok (DFSWorker.joinedPath_of_mem hpath.nodup hp) hclose

/-- A single thread does the jobs of all root paths. -/
def rootJobs (rootList : List SPath) : List (DFSWorker.Job Unit) :=
  rootList.map fun richPath => ⟨(), richPath, fun _ l => l, .never⟩

/-- The search puts the tower before the museum. -/
theorem adaptOrder_of_run_tower : ∃ (p : SPath) (orderList : List AdaptedOrder),
    p.points = [(3, 0), (2, 0)] ∧ towerRoot.adaptOrder ["20180101"] p = .ok (some orderList) ∧
      (orderList.map (·.place)).Nodup := by
  have hmerged : ((ClusterOrganizer.run towerEnv towerRoot).toOption.bind fun rootList =>
      (DFSWorker.runJobs {} towerRoot.toBagPlan (fun _ => {}) (rootJobs rootList)).toOption.map
        fun pools => ((rootJobs rootList).isEmpty, (getDFSHeap {} (DFSearch.mergeDFS {}
          (visitsOf (pools ()))) (rootList.head?.elim 0 SPath.hashPointSet)).queue.map
            SPath.points)) = some (false, [[(3, 0), (2, 0)]]) := by
    decide +kernel
  obtain ⟨rootList, hroot, hmerged⟩ := Option.bind_eq_some_iff.mp hmerged
  obtain ⟨pools, hrun, hmerged⟩ := Option.map_eq_some_iff.mp hmerged
  obtain ⟨hjobs, hqueue⟩ := Prod.mk.inj hmerged
  obtain ⟨p, hp, hpoints⟩ := List.mem_map.mp (hqueue ▸ List.mem_singleton_self _)
  obtain ⟨orderList, hadapt, hnodup, -⟩ := adaptOrder_of_run towerEnv towerRoot {} ["20180101"]
    (by decide) rootList (toOption_eq_some.mp hroot) (rootJobs rootList) (by simp [rootJobs])
    (by simp [rootJobs]) pools (toOption_eq_some.mp hrun) _
    (mergeOrder_visitsOf (List.isEmpty_eq_false_iff.mp hjobs)) _ p hp
  exact ⟨p, orderList, hpoints, hadapt, hnodup⟩

end PPView
