import PPView.Bag.ClusterPlaces
import PPView.Bag.KmeansRun
import PPView.Library.StableSort

/-!
# Root paths

`YANGSHU::ClusterOrganizer` of `MyCluster.cpp` makes the paths from which the search starts. A round
picks places, clusters them into as many sets as there are blocks with time, lets k-means assign the
sets to the blocks and pushes what comes out onto a path. A set of places that has been clustered
before is not clustered again.
-/

namespace PPView

open HierarchicalClustering (BaseMatrix Edge Result)
open MyKmeans (BlockInfo Kmeans NodeInfo)
open MJSquareGrid (truncate)
open UnorderedSet (toList)

/-! ## Paths -/

namespace SPath

/-- `PushV` with the value of the place. -/
def pushVHot (p : SPath) (bPos vPos : ℕ) (hot : Int) : SPath :=
  if bPos ≥ p.blockNum ∨ vPos ≥ p.nodeNum then p
  else if p.len ≥ p.nodeNum then p
  else (p.pushV bPos vPos).setHot (p.hot + hot)

/-- The bits of the places in a block. -/
def dayBid (p : SPath) (plan : BagPlan) (bPos : ℕ) : Bit160 :=
  (p.posList bPos).foldl (fun bid vPos => bid ||| plan.getPosBid vPos) 0

/-- The places of a block count in any order, the blocks in theirs. -/
def calHashDayOrder (p : SPath) (plan : BagPlan) : SPath :=
  if p.hash ≠ 0 then p
  else { p with hash := hashWords ((List.range p.blockNum).map fun bPos =>
    hashBits (p.dayBid plan bPos)) }

end SPath

/-- What the rounds read of a plan beside `GetPlanPlace`. `hotLevel` is `GetHotLevel` for the
`m_shopIntensity`, and `getDist` is `GetDist` as an `int`. -/
structure RootPlan extends ClusterPlan where
  hotLevel : LYPlace → Int
  getDist : LYPlace → LYPlace → Int
  isFreq : String → String → Bool

/-- What a run depends on beside the plan. The `sort` functions rearrange as `std::sort` does, with
any order of equal ones. `ofList` makes a set whose order is its own, `m_P2Cluster` is the table of
a k-means before it is written, by round and index, and `rootTimeOut` tells whether the time is up
behind a round. -/
structure ClusterEnv (σ : Type) [UnorderedSet σ ℕ] extends Numerics where
  pow : ℚ → ℚ → ℚ
  sortEdges : List Edge → List Edge
  sortEdges_perm : ∀ edges, (sortEdges edges).Perm edges
  sortBlocks : List BlockInfo → List BlockInfo
  sortBlocks_perm : ∀ blocks, (sortBlocks blocks).Perm blocks
  sortBlocks_pairwise : ∀ blocks, (sortBlocks blocks).Pairwise fun a b => b.m_dur ≤ a.m_dur
  sort : (ℕ → ℕ → Bool) → List ℕ → List ℕ
  sort_perm : ∀ lt l, (sort lt l).Perm l
  sortPaths : List SPath → List SPath
  sortPaths_perm : ∀ paths, (sortPaths paths).Perm paths
  sortPaths_pairwise : ∀ paths, (∀ p ∈ paths, p.IntScore) →
    (sortPaths paths).Pairwise (InOrder SPathCmp)
  ofList : List ℕ → σ
  mem_ofList : ∀ l p, p ∈ toList (ofList l) ↔ p ∈ l
  m_P2Cluster : ℕ → ℕ → ℕ → ℕ → Int
  rootTimeOut : ℕ → Bool

namespace RootPlan

variable (plan : RootPlan)

/-! ## The data of a round -/

/-- A block is not for playing if it has less time than the shortest place, or than 90 minutes. -/
def minPOIDur (vList : List LYPlace) : Int :=
  max ((vList.map plan.getAllocDur).foldl min 999999) 5400

def maxBlockDur : Int := ((List.range plan.blockNum).map plan.availDur).foldl max (-1)

/-- The blocks that have time, as they are numbered. -/
def blockInfo (vList : List LYPlace) : List BlockInfo :=
  (List.range plan.blockNum).filterMap fun i =>
    if plan.availDur i > 0 then some {
      m_idx := i
      m_dur := plan.availDur i
      m_is_not_play := plan.isNotPlay i || decide (plan.availDur i ≤ plan.minPOIDur vList) }
    else none

/-- `m_bindInfo` of the place at `i`. -/
def bindInfo (vList : List LYPlace) (i : ℕ) (vPlace : LYPlace) : List ℕ :=
  (List.range vList.length).filter fun j =>
    i = j || (vList[j]?).any fun wPlace => plan.isFreq vPlace.ID wPlace.ID

/-- A place with its first position. -/
def nodeInfo (vList : List LYPlace) : List NodeInfo :=
  vList.mapIdx fun i vPlace => {
    m_idx := (plan.posPList.idxOf? vPlace).getD 0
    m_dur := min (plan.getAllocDur vPlace) plan.maxBlockDur
    rawType := plan.rawType vPlace
    m_bindInfo := plan.bindInfo vList i vPlace }

/-- Places that are often visited together have no distance. -/
def list2Matrix (vList : List LYPlace) : BaseMatrix :=
  vList.map fun vPlace => vList.map fun wPlace =>
    max 0 (if plan.isFreq vPlace.ID wPlace.ID then 0 else plan.getDist vPlace wPlace)

def calHashPointSet (nodeInfo : List NodeInfo) : UInt32 :=
  SPath.hashBits (nodeInfo.foldl (fun bid node => bid ||| plan.getPosBid node.m_idx) 0)

/-! ## Paths of clusters -/

/-- A point is pushed, with the block of its cluster. -/
def pushPoint (vList : List LYPlace) (nodeInfo : List NodeInfo) (block : BlockInfo) (p : SPath)
    (it : ℕ) : Res SPath :=
  match nodeInfo[it]?, vList[it]? with
  | some node, some vPlace =>
    let p := p.pushVHot block.m_idx node.m_idx (plan.hotLevel vPlace)
    pure (p.setScore p.hot)
  | _, _ => throw .arrayBound

variable {σ : Type} [UnorderedSet σ ℕ]

/-- The points of a cluster are pushed, with the block at the same index. -/
def pushCluster (vList : List LYPlace) (nodeInfo : List NodeInfo) (blockInfo : List BlockInfo)
    (p : SPath) (cluster : σ × ℕ) : Res SPath :=
  match blockInfo[cluster.2]? with
  | none => throw .arrayBound
  | some block => (toList cluster.1).foldlM (plan.pushPoint vList nodeInfo block) p

/-- The path of a result. -/
def dumpPath (vList : List LYPlace) (nodeInfo : List NodeInfo) (blockInfo : List BlockInfo)
    (clusterResult : List σ) : Res SPath := do
  let p ← clusterResult.zipIdx.foldlM (plan.pushCluster vList nodeInfo blockInfo)
    (SPath.init plan.toBagPlan)
  pure ((p.calHashPointSet plan.toBagPlan).calHashDayOrder plan.toBagPlan)

/-- The loop of `ClusterDumpToSPath`, with `resultHashs`. -/
def clusterDumpToSPath (vList : List LYPlace) (nodeInfo : List NodeInfo)
    (blockInfo : List BlockInfo) :
    List (List σ) → List UInt32 → List SPath → Res (List SPath)
  | [], _, rootList => pure rootList
  | result :: results, resultHashs, rootList =>
    if result = [] ∨ blockInfo.length = 0 then
      clusterDumpToSPath vList nodeInfo blockInfo results resultHashs rootList
    else do
      let tmpPath ← plan.dumpPath vList nodeInfo blockInfo result
      if tmpPath.hash ∈ resultHashs then
        clusterDumpToSPath vList nodeInfo blockInfo results resultHashs rootList
      else
        clusterDumpToSPath vList nodeInfo blockInfo results (tmpPath.hash :: resultHashs)
          (rootList ++ [tmpPath])

end RootPlan

/-! ## Rounds -/

/-- `loopNum`. -/
def loopNum : ℕ := 100

structure ClusterOrganizer where
  m_hashViewedSet : List UInt32 := []
  m_rootList : List SPath := []

namespace ClusterOrganizer

/-- The clusters of the result `i`, from the one at `i` on, and empty ones behind them. -/
def initClusters (clusterNum i : ℕ) (result : Result) : List (List ℕ) :=
  let clusterResult := (result.rotate i).filter (· ≠ [])
  clusterResult ++ List.replicate (clusterNum - clusterResult.length) []

variable {σ : Type} [UnorderedSet σ ℕ]

/-- The paths that are kept of a round. -/
def keepLimit (env : ClusterEnv σ) (loop : ℕ) : ℕ :=
  let pathNumPerSet : ℤ := 20
  let keepLimit := truncate (env.double.round
    (env.pow (env.double.round (((loopNum : ℚ) - loop) / loopNum)) 5 * pathNumPerSet))
  (max (min keepLimit pathNumPerSet) 1).toNat

variable (env : ClusterEnv σ) (plan : RootPlan)

/-- The k-means of a round. -/
def kmeansOf (matrix : BaseMatrix) (nodeInfo : List NodeInfo) (blockInfo : List BlockInfo) :
    Kmeans where
  m_bindInfo := nodeInfo
  m_blockInfo := blockInfo
  m_baseMatrix := matrix
  m_clusterNum := blockInfo.length
  m_dayViewLimit := plan.dayViewLimit
  getVType := plan.getVType
  sort := env.sort
  sort_perm := env.sort_perm

/-- The body of the loop of `Run`, and whether it has come to its end. -/
def round (loop : ℕ) (s : ClusterOrganizer) : Res (Bool × ClusterOrganizer) :=
  let vList := (plan.getPlanPlace env.toNumerics loop).vList
  let nodeInfo := plan.nodeInfo vList
  let blockInfo := env.sortBlocks (plan.blockInfo vList)
  let hash := plan.calHashPointSet nodeInfo
  if vList = [] ∨ hash ∈ s.m_hashViewedSet then pure (false, s)
  else do
    let matrix := plan.list2Matrix vList
    let tmp ← HierarchicalClustering.run env.sortEdges matrix blockInfo.length
    let results := (tmp.take (keepLimit env loop)).mapIdx fun i t =>
      (initClusters blockInfo.length i t).map env.ofList
    let lastResults ← results.zipIdx.mapM fun (result, i) =>
      MyKmeans.run (kmeansOf env plan matrix nodeInfo blockInfo) (env.m_P2Cluster loop i) result
    let rootList ← plan.clusterDumpToSPath vList nodeInfo blockInfo lastResults [] s.m_rootList
    pure (true, { m_hashViewedSet := hash :: s.m_hashViewedSet, m_rootList := rootList })

/-- The loop of `Run`. -/
def rounds : ℕ → ℕ → ClusterOrganizer → Res ClusterOrganizer
  | 0, _, s => pure s
  | n + 1, loop, s => do
    let (done, s) ← round env plan loop s
    if done && env.rootTimeOut loop then pure s else rounds n (loop + 1) s

/-- The paths at the truncated powers of 1.4. -/
def selectPaths (env : ClusterEnv σ) : ℕ → ℕ → List SPath → List SPath
  | _, _, [] => []
  | j, k, p :: paths =>
    if (j : ℤ) = truncate (env.pow k (env.double.round (14 / 10))) then
      p :: selectPaths env (j + 1) (k + 1) paths
    else selectPaths env (j + 1) k paths

/-- `Run`, with what it leaves in `m_rootList`. -/
def run : Res (List SPath) := do
  let s ← rounds env plan loopNum 0 {}
  let rootList := if plan.qType = "ssv005_s130" then selectPaths env 0 0 s.m_rootList
    else s.m_rootList
  pure (env.sortPaths (rootList ++ [SPath.init plan.toBagPlan]))

end ClusterOrganizer

end PPView
