import PPView.Bag.BagPlan
import PPView.Bag.MyCluster
import PPView.Library.Least
import PPView.Library.UnorderedSet

/-!
# K-means over blocks

`YANGSHU::MyKmeans` of `MyCluster.cpp`. The cluster at a position belongs to the block there.
`m_P2Cluster` holds the distance of each point to each cluster, which is that to the center of the
cluster, and `intMax` where the block does not take the point. `KmeansAdjust` puts every point into
its nearest cluster. `GreedSwitchAllPoint` then takes points out of the clusters that are too long.

The table has a fixed size. An access past its end, or past the end of a list that is written to,
is a fault. `GreedSwitchAllPoint` reads only what has been written before.
-/

namespace PPView.MyKmeans

open HierarchicalClustering (BaseMatrix)
open UnorderedSet (toList ofList)

/-- `std::numeric_limits<int>::max()`, the distance to a cluster that a point must not go to. -/
def intMax : Int := 2147483647

/-- What every search for a least distance starts from. -/
def farAway : Int := 99999999

/-- The distance to a cluster without a center. -/
def emptyDist : Int := 10000

/-- Points of a cluster that are as near as this form a group. -/
def groupDist : Int := 300

/-- The bound of both indices of `m_P2Cluster`. -/
def tableSize : ℕ := 200

structure BlockInfo where
  m_idx : ℕ
  m_dur : Int
  m_is_not_play : Bool

/-- A point, with `getRawType` of its place. -/
structure NodeInfo where
  m_idx : ℕ
  m_dur : Int
  rawType : ℕ
  m_bindInfo : List ℕ

structure ClusterNode where
  m_node : List ℕ := []
  m_duration : Int := 0
  m_leftTime : Int := 0
  m_bidx : ℕ := 0
  deriving DecidableEq

/-- What does not change during a run. `getVType` is that of `m_bagPlan`, and `sort` orders
positions as `std::sort` does, with any order of equal ones. -/
structure Kmeans where
  m_bindInfo : List NodeInfo
  m_blockInfo : List BlockInfo
  m_baseMatrix : BaseMatrix
  m_clusterNum : ℕ
  m_dayViewLimit : ℕ := 9
  getVType : ℕ → ℕ → UInt8
  sort : (ℕ → ℕ → Bool) → List ℕ → List ℕ
  sort_perm : ∀ lt l, (sort lt l).Perm l

/-- What changes. `clusterResult` is that of `m_clusterList.m_result`. -/
structure State (σ : Type) where
  m_P2Cluster : ℕ → ℕ → Int
  m_cluster : List ClusterNode
  clusterResult : List σ

/-- The cluster at a position, to be read. -/
def State.clusterAt {σ : Type} (s : State σ) (i : ℕ) : ClusterNode := s.m_cluster.getD i {}

/-- The points that are in a cluster. -/
def State.placed {σ : Type} (s : State σ) : List ℕ := s.m_cluster.flatMap (·.m_node)

variable {σ : Type} [UnorderedSet σ ℕ] (k : Kmeans)

def durOf (p : ℕ) : Int := (k.m_bindInfo[p]?).elim 0 (·.m_dur)

def getDist (lhs rhs : ℕ) : Int := (k.m_baseMatrix.getD lhs []).getD rhs 0

/-! ## Centers -/

/-- The point with the least sum of distances to the others. -/
def getCenter (cluster : σ) : Option ℕ :=
  let points := toList cluster
  leastFrom (fun p => ((points.filter (· ≠ p)).map (getDist k p)).sum) points.head? farAway points

def getAllCenters (clusterResult : List σ) : List (Option ℕ) := clusterResult.map (getCenter k)

/-! ## Distances of points to clusters -/

/-- The mean distance between what is bound to the two points. -/
def calPointToClusterDistOneNode (idxA : ℕ) (idxB : Option ℕ) : Int :=
  match idxB with
  | none => emptyDist
  | some idxB =>
    let dists :=
      match k.m_bindInfo[idxA]?, k.m_bindInfo[idxB]? with
      | some a, some b =>
        a.m_bindInfo.flatMap fun source => b.m_bindInfo.map fun target => getDist k source target
      | _, _ => []
    if dists = [] then intMax else dists.sum.tdiv dists.length

/-- What `CalPointToClusterDistOneCluster` writes for the point `i`. -/
def pointDist (block : BlockInfo) (centerIdx : Option ℕ) (i : ℕ) (node : NodeInfo) : Int :=
  let vType := k.getVType block.m_idx node.m_idx
  if block.m_is_not_play then
    if node.rawType = LY_PLACE_TYPE_CAR_STORE ∧ vType = NODE_FUNC_PLACE_VIEW_SHOP then 0
    else intMax
  else if vType = NODE_FUNC_NULL then intMax
  else calPointToClusterDistOneNode k i centerIdx

/-- The column of the cluster is written. -/
def calPointToClusterDistOneCluster (s : State σ) (cluster : ℕ) (centerIdx : Option ℕ) :
    Res (State σ) :=
  if k.m_bindInfo = [] then pure s
  else
    match k.m_blockInfo[cluster]? with
    | none => throw .arrayBound
    | some block =>
      if k.m_bindInfo.length ≤ tableSize ∧ cluster < tableSize then
        pure { s with m_P2Cluster := fun i j =>
          if j = cluster then
            (k.m_bindInfo[i]?).elim (s.m_P2Cluster i j) (pointDist k block centerIdx i)
          else s.m_P2Cluster i j }
      else throw .arrayBound

def calPointToClusterDist (s : State σ) (vCenter : List (Option ℕ)) : Res (State σ) :=
  vCenter.zipIdx.foldlM
    (fun s (centerIdx, i) => calPointToClusterDistOneCluster k s i centerIdx) s

/-! ## Putting every point into its nearest cluster -/

/-- The point `i` goes to the cluster with the least distance. It is left out if there is none. -/
def placePoint (m_P2Cluster : ℕ → ℕ → Int) (clusters : List ClusterNode) (i : ℕ) :
    Res (List ClusterNode) :=
  if k.m_clusterNum = 0 ∨ i < tableSize ∧ k.m_clusterNum ≤ tableSize then
    match least (m_P2Cluster i) farAway (List.range k.m_clusterNum) with
    | none => pure clusters
    | some j =>
      if j < clusters.length then
        pure (clusters.modify j fun c => { c with m_node := c.m_node ++ [i] })
      else throw .arrayBound
  else throw .arrayBound

/-- The times of a cluster are calculated anew. -/
def retime (c : ClusterNode) (block : BlockInfo) : ClusterNode :=
  let allDur := (c.m_node.map (durOf k)).sum
  { c with m_duration := allDur, m_leftTime := block.m_dur - allDur }

def kmeansAdjust (s : State σ) : Res (State σ) := do
  let cleared := s.m_cluster.map fun c => { c with m_node := [] }
  let filled ← (List.range k.m_bindInfo.length).foldlM (placePoint k s.m_P2Cluster) cleared
  if filled.length ≤ k.m_blockInfo.length then
    let m_cluster := List.zipWith (retime k) filled k.m_blockInfo
    pure { s with m_cluster, clusterResult := m_cluster.map fun c => ofList c.m_node }
  else throw .arrayBound

/-! ## Moving a point -/

def clusterAddPoint (s : State σ) (clusterIdx nodeIdx : ℕ) : Res (State σ) :=
  match s.m_cluster[clusterIdx]?, s.clusterResult[clusterIdx]?, k.m_bindInfo[nodeIdx]? with
  | some cluster, some set, some node =>
    pure { s with
      m_cluster := s.m_cluster.set clusterIdx { cluster with
        m_node := cluster.m_node ++ [nodeIdx]
        m_duration := cluster.m_duration + node.m_dur
        m_leftTime := cluster.m_leftTime - node.m_dur }
      clusterResult := s.clusterResult.set clusterIdx (UnorderedSet.insert set nodeIdx) }
  | _, _, _ => throw .arrayBound

/-- The point must be there, as the end of a list cannot be erased. -/
def clusterSubPoint (s : State σ) (clusterIdx nodeIdx : ℕ) : Res (State σ) :=
  match s.m_cluster[clusterIdx]?, s.clusterResult[clusterIdx]?, k.m_bindInfo[nodeIdx]? with
  | some cluster, some set, some node =>
    if nodeIdx ∈ cluster.m_node then
      pure { s with
        m_cluster := s.m_cluster.set clusterIdx { cluster with
          m_node := cluster.m_node.erase nodeIdx
          m_duration := cluster.m_duration - node.m_dur
          m_leftTime := cluster.m_leftTime + node.m_dur }
        clusterResult := s.clusterResult.set clusterIdx (UnorderedSet.erase set nodeIdx) }
    else throw .arrayBound
  | _, _, _ => throw .arrayBound

/-- The column of the cluster for the center that it has now. -/
def updateColumn (s : State σ) (cluster : ℕ) : Res (State σ) :=
  calPointToClusterDistOneCluster k s cluster (s.clusterResult[cluster]?.bind (getCenter k))

def movePointFromClusterAToClusterB (s : State σ) (nodeIdx clusterAIdx clusterBIdx : ℕ) :
    Res (State σ) := do
  let s ← clusterSubPoint k s clusterAIdx nodeIdx
  let s ← clusterAddPoint k s clusterBIdx nodeIdx
  let s ← updateColumn k s clusterAIdx
  updateColumn k s clusterBIdx

/-! ## Taking points out of clusters that are too long -/

def isLegal (c : ClusterNode) : Bool :=
  decide (0 ≤ c.m_leftTime) && decide (c.m_node.length ≤ k.m_dayViewLimit)

def legalClusterList (s : State σ) : List ℕ :=
  (List.range s.m_cluster.length).filter fun i => isLegal k (s.clusterAt i)

/-- The clusters that are not legal, the one with the least time left first. -/
def illegalClusterList (s : State σ) : List ℕ :=
  k.sort (fun i j => (s.clusterAt i).m_leftTime < (s.clusterAt j).m_leftTime)
    ((List.range s.m_cluster.length).filter fun i => !isLegal k (s.clusterAt i))

/-- A cluster keeps a point, as there is no center without one, unless its block is not played. -/
def numLeast (c : ClusterNode) : ℕ :=
  if (k.m_blockInfo[c.m_bidx]?).any (·.m_is_not_play) then 0 else 1

/-- Whether the point at `pIndex` is the center of the cluster or near another of its points. -/
def groupExist (s : State σ) (c : ClusterNode) (localPos pIndex : ℕ) : Bool :=
  c.m_node.zipIdx.any fun (tmpPos, i) =>
    s.m_P2Cluster localPos c.m_bidx == 0 || (i != pIndex && getDist k localPos tmpPos ≤ groupDist)

/-- Whether the cluster has the time and the room for one more point. -/
def hasRoom (c : ClusterNode) (dur : Int) : Bool :=
  !(decide (c.m_leftTime < dur) || decide (k.m_dayViewLimit ≤ c.m_node.length))

/-- The moves that a pass looks at, in its order. -/
def candidates (s : State σ) (legal : List ℕ) (c : ClusterNode) (careGroup : Bool) :
    List (ℕ × ℕ) :=
  if c.m_node.length > numLeast k c then
    c.m_node.zipIdx.flatMap fun (localPos, pIndex) =>
      if careGroup && groupExist k s c localPos pIndex then []
      else ((legal.map s.clusterAt).filter (hasRoom k · (durOf k localPos))).map fun l =>
        (localPos, l.m_bidx)
  else []

/-- The shortest of the moves. -/
def findMove (s : State σ) (legal : List ℕ) (c : ClusterNode) (careGroup : Bool) :
    Option (ℕ × ℕ) :=
  least (fun m => s.m_P2Cluster m.1 m.2) farAway (candidates k s legal c careGroup)

/-- The body of the `while`, with `canSwitch` behind it. The second pass is only made if the first
finds nothing. -/
def switchRound (legal : List ℕ) (a : ℕ) (s : State σ) : Res (State σ × Bool) :=
  let c := s.clusterAt a
  match findMove k s legal c true with
  | some (p, b) => do
    let s ← movePointFromClusterAToClusterB k s p c.m_bidx b
    pure (s, true)
  | none =>
    match findMove k s legal c false with
    | some (p, b) => do
      let s ← movePointFromClusterAToClusterB k s p c.m_bidx b
      pure (s, false)
    | none => pure (s, false)

/-- The `while` for the cluster at `a`. -/
def switchLoop (legal : List ℕ) (a : ℕ) : ℕ → State σ → Res (State σ)
  | 0, _ => throw .outOfFuel
  | fuel + 1, s =>
    if isLegal k (s.clusterAt a) then pure s
    else do
      let (s, canSwitch) ← switchRound k legal a s
      if canSwitch then switchLoop legal a fuel s else pure s

/-- The rounds of a cluster. Every round but the last takes a point out of it. -/
def switchCluster (legal : List ℕ) (s : State σ) (a : ℕ) : Res (State σ) :=
  switchLoop k legal a ((s.clusterAt a).m_node.length + 1) s

def greedSwitchAllPoint (s : State σ) : Res (State σ) :=
  (illegalClusterList k s).foldlM (switchCluster k (legalClusterList k s)) s

/-! ## Rounds -/

/-- The sets in order, behind as many empty ones. -/
def sortedSets (clusterResult : List σ) : List (List ℕ) :=
  (List.replicate clusterResult.length [] ++
    clusterResult.map fun set => (toList set).insertionSort (· ≤ ·)).insertionSort (· ≤ ·)

/-- The body of the loop of `Run`. -/
def runRound (vCenter : List (Option ℕ)) (s : State σ) : Res (State σ) := do
  let s ← calPointToClusterDist k s vCenter
  let s ← kmeansAdjust k s
  let s ← calPointToClusterDist k s vCenter
  greedSwitchAllPoint k s

/-- Rounds until the clusters stay as they are. -/
def runRounds : ℕ → List (Option ℕ) → List (List ℕ) → State σ → Res (State σ)
  | 0, _, _, s => pure s
  | n + 1, vCenter, preCluster, s => do
    let s ← runRound k vCenter s
    let newCluster := sortedSets s.clusterResult
    if newCluster = preCluster then pure s
    else runRounds n (getAllCenters k s.clusterResult) newCluster s

/-- The constructor. `m_P2Cluster` is not initialised. -/
def initState (m_P2Cluster : ℕ → ℕ → Int) (initCluster : List σ) : State σ :=
  let clusters := initCluster.map fun set =>
    { m_node := toList set, m_duration := ((toList set).map (durOf k)).sum : ClusterNode }
  let order := k.sort (fun i j => (clusters.getD i {}).m_duration > (clusters.getD j {}).m_duration)
    (List.range clusters.length)
  { m_P2Cluster
    m_cluster := order.mapIdx fun i j => { clusters.getD j {} with m_bidx := i }
    clusterResult := initCluster }

/-- `Run`, with what it leaves in `m_result`. -/
def run (m_P2Cluster : ℕ → ℕ → Int) (initCluster : List σ) : Res (List σ) :=
  if k.m_clusterNum > initCluster.length then pure initCluster
  else do
    let s ← runRounds k 10 (getAllCenters k initCluster) (sortedSets initCluster)
      (initState k m_P2Cluster initCluster)
    pure s.clusterResult

end PPView.MyKmeans
