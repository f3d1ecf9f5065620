import Mathlib.Algebra.Ring.Int.Defs
import Mathlib.Data.List.Lex
import Mathlib.Data.List.Sort
import PPView.Fault

/-!
# Hierarchical clustering

`CLUSTERALG::HierarchicalClustering` of `MyCluster.cpp`. Every point starts as a set of its own.
A step joins two sets, and the first three steps try up to three pairs. From then on there is one
pair for a step, and the argument of `DfsCluster` is changed in place. What has been made before
at the same depth is not made again.

A set is the list of its elements. The order of edges that are equally long is that of `sort`.
-/

namespace PPView.HierarchicalClustering

abbrev BaseMatrix := List (List Int)

/-- The slots of `clusterResult`. -/
abbrev Result := List (List ℕ)

abbrev UniqueCluster := List (List ℕ)

/-- The edge from slot `idx` to slot `idy`. -/
structure Edge where
  idx : ℕ
  idy : ℕ
  value : Int
  deriving DecidableEq, Repr

structure ClusterInfo where
  m_result : Result
  m_edges : List Edge

/-- What the calls of `DfsCluster` share. -/
structure Search where
  m_hasVisitSet : List (List UniqueCluster)
  m_result : List Result

/-! ## Distances -/

/-- Only the three least of different distances are kept. -/
def insertDist (distSet : List Int) (dist : Int) : List Int :=
  let distSet := if dist ∈ distSet then distSet else distSet.orderedInsert (· ≤ ·) dist
  if distSet.length > 3 then distSet.dropLast else distSet

def getClusterDist (m_baseMatrix : BaseMatrix) (setA setB : List ℕ) : Int :=
  let distSet := setA.foldl (fun distSet a => setB.foldl (fun distSet b =>
    insertDist distSet ((m_baseMatrix.getD a []).getD b 0)) distSet) []
  let num := if distSet.length = 0 then 1 else distSet.length
  distSet.sum.tdiv num

/-- The edges between slots that are not empty. -/
def edgesOf (m_baseMatrix : BaseMatrix) (result : Result) : List Edge :=
  (List.range result.length).flatMap fun i =>
    if result.getD i [] = [] then []
    else (List.range' (i + 1) (result.length - (i + 1))).filterMap fun j =>
      if result.getD j [] = [] then none
      else some ⟨i, j, getClusterDist m_baseMatrix (result.getD i []) (result.getD j [])⟩

/-! ## Joining two sets -/

variable (sort : List Edge → List Edge) (m_baseMatrix : BaseMatrix)

def calClusterDist (result : Result) : ClusterInfo :=
  ⟨result, sort (edgesOf m_baseMatrix result)⟩

/-- The set at `idy` goes to `idx`. -/
def mergeResult (result : Result) (edge : Edge) : Result :=
  (result.modify edge.idx fun set =>
    set ++ (result.getD edge.idy []).filter (· ∉ set)).set edge.idy []

def merge (clusterInfo : ClusterInfo) (edge : Edge) : ClusterInfo :=
  calClusterDist sort m_baseMatrix (mergeResult clusterInfo.m_result edge)

/-- The sets after the edge is joined, each in order and all in order. The slot that becomes empty
is left out. -/
def mergedSets (result : Result) (edge : Edge) : UniqueCluster :=
  let tmp := (result.zipIdx.filter fun (_, i) => i ≠ edge.idy).map fun (set, i) =>
    (set ++ if i = edge.idx then result.getD edge.idy [] else []).insertionSort (· ≤ ·)
  tmp.insertionSort (· ≤ ·)

/-- Whether the sets are new at this depth. They are noted then. -/
def canMerge (clusterInfo : ClusterInfo) (edge : Edge) (depth : ℕ) (search : Search) :
    Res (Bool × Search) :=
  let tmp := mergedSets clusterInfo.m_result edge
  match search.m_hasVisitSet[depth]? with
  | none => .error .arrayBound
  | some visited =>
    if tmp ∈ visited then pure (false, search)
    else
      pure (true,
        { search with m_hasVisitSet := search.m_hasVisitSet.set depth (tmp :: visited) })

/-! ## The search -/

/-- The loop of `DfsCluster` over its edges, with the recursive call in `dfs`. The argument of
`DfsCluster` comes back, as it may have been changed. -/
def visitEdges (dfs : ClusterInfo → Search → Res (ClusterInfo × Search)) (maxCluster depth : ℕ) :
    List Edge → ℕ → ClusterInfo → Search → Res (ClusterInfo × Search)
  | [], _, clusterInfo, search => pure (clusterInfo, search)
  | edge :: edges, cnt, clusterInfo, search =>
    if cnt < maxCluster then do
      let (can, search) ← canMerge clusterInfo edge depth search
      if can then
        let (useCluster, search) ← dfs (merge sort m_baseMatrix clusterInfo edge) search
        -- with one solution at most it is the argument that was joined
        let clusterInfo := if maxCluster > 1 then clusterInfo else useCluster
        visitEdges dfs maxCluster depth edges (cnt + 1) clusterInfo search
      else visitEdges dfs maxCluster depth edges cnt clusterInfo search
    else pure (clusterInfo, search)

/-- `DfsCluster`. `fuel` bounds the depth. -/
def dfsCluster (m_clusterNum : ℕ) : ℕ → ℕ → ClusterInfo → Search → Res (ClusterInfo × Search)
  | fuel, depth, clusterInfo, search =>
    if m_baseMatrix.length ≤ m_clusterNum + depth then
      pure (clusterInfo, { search with m_result := search.m_result ++ [clusterInfo.m_result] })
    else
      match fuel with
      | 0 => .error .outOfFuel
      | fuel + 1 =>
        visitEdges sort m_baseMatrix (dfsCluster m_clusterNum fuel (depth + 1))
          (if depth ≥ 3 then 1 else 3) depth clusterInfo.m_edges 0 clusterInfo search

/-- One set for every point, and empty ones up to the number of clusters. -/
def initResult (m_clusterNum : ℕ) : Result :=
  (List.range m_baseMatrix.length).map (fun i => [i]) ++
    List.replicate (m_clusterNum - m_baseMatrix.length) []

/-- `Run`, with what it leaves in `m_result`. -/
def run (m_clusterNum : ℕ) (nodeNum : ℕ := 160) : Res (List Result) := do
  let (_, search) ← dfsCluster sort m_baseMatrix m_clusterNum m_baseMatrix.length 0
    (calClusterDist sort m_baseMatrix (initResult m_baseMatrix m_clusterNum))
    ⟨List.replicate nodeNum [], []⟩
  pure search.m_result

end PPView.HierarchicalClustering
