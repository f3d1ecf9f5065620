import Mathlib.Data.List.AList
import PPView.Bag.DFS

/-!
# The workers of the search

A `DFSWorker` searches the days of one rich path and enters the joined paths into a heap of its
thread. `MergeDFS` collects the heaps of all threads. Within a thread, and in the end, there is one
heap for each hash of a point set.

The jobs of different threads touch different pools, so a run is the list of its jobs, each
with its thread and with what the timer answers it. `copyVal` is the order in which `CopyVal` lists
the heap of a day, which the standard leaves open.
-/

namespace PPView

/-- `m_dfsHeapMap`. -/
abbrev DFSHeapMap := AList fun _ : UInt32 => SPathHeap

structure ThreadMemPool where
  dfsHeapMap : DFSHeapMap := ∅

/-- The heap of a new entry of `m_dfsHeapMap`. -/
def newDFSHeap (param : BagParam) : SPathHeap where
  topK := param.dfsSPSHashHeapLimit
  topK_pos := param.dfsSPSHashHeapLimit_pos

/-- `GetDFSHeap`; the caller puts the heap back with its next change. -/
def getDFSHeap (param : BagParam) (heapMap : DFSHeapMap) (hash : UInt32) : SPathHeap :=
  (heapMap.lookup hash).getD (newDFSHeap param)

namespace DFSWorker

variable (param : BagParam) (plan : BagPlan)

/-! ## Joining the days -/

/-- The score of the paths of all days. -/
def totScore (tmpList : List SPath) : ℚ := (tmpList.map SPath.score).sum

/-- The path that `JoinDayPath` makes of one path for each day. -/
def joinPath (richPath : SPath) (tmpList : List SPath) : SPath :=
  let joinPath := tmpList.foldl (fun joinPath daySP =>
    (List.range daySP.len).foldl (fun joinPath j =>
      joinPath.pushV (daySP.getBPos (daySP.getVPos j)) (daySP.getVPos j)) joinPath)
    (SPath.init plan)
  let joinPath := joinPath.setHot richPath.hot
  let joinPath := joinPath.setDist (tmpList.map SPath.dist).sum
  let joinPath := joinPath.setClash (tmpList.map SPath.clash).sum
  let joinPath := joinPath.setFirstL (tmpList.map SPath.firstL).sum
  let joinPath := joinPath.setScore (totScore tmpList)
  let joinPath := joinPath.setMissLevel richPath.missLevel
  let joinPath := joinPath.setHashFrom richPath.hash
  joinPath.calHashPointOrder.calHashPointSet plan

/-- `JoinDayPath`, with the days that are left. -/
def joinDayPath (richPath : SPath) : (daySPList : List (List SPath)) → (tmpList : List SPath) →
    SPathHeap → SPathHeap
  | [], tmpList, dfsHeap =>
    if param.dwDbg == 0 && !dfsHeap.canPush (totScore tmpList) then dfsHeap
    else dfsHeap.push (joinPath plan richPath tmpList)
  | sPathList :: daySPList, tmpList, dfsHeap =>
    sPathList.foldl
      (fun dfsHeap sPath => joinDayPath richPath daySPList (tmpList ++ [sPath]) dfsHeap) dfsHeap

/-! ## The jobs -/

/-- What `IsDFSTimeOut` answers a job: at the entry of `doWork`, and in the steps of the search of
each block. -/
structure Timer where
  entry : Bool
  search : (blockIdx : Nat) → (step : Nat) → Bool

/-- The timer does not run out. -/
def Timer.never : Timer := ⟨false, fun _ _ => false⟩

/-- A job of a thread. -/
structure Job (τ : Type) where
  thread : τ
  richPath : SPath
  copyVal : Nat → List SPath → List SPath
  timer : Timer

/-- `doWork`, on the pool of the thread. -/
def doWork (timer : Timer) (richPath : SPath) (copyVal : Nat → List SPath → List SPath)
    (tmPool : ThreadMemPool) : Res ThreadMemPool :=
  if timer.entry then pure tmPool
  else do
    let daySPList ← (List.range plan.blockNum).mapM fun blockIdx =>
      (fun r => copyVal blockIdx r.2) <$>
        DFS.doSearch param (timer.search blockIdx) plan richPath blockIdx
    let richPointHash := richPath.hashPointSet
    let dfsHeap := getDFSHeap param tmPool.dfsHeapMap richPointHash
    let dfsHeap := joinDayPath param plan richPath daySPList [] dfsHeap
    pure { tmPool with dfsHeapMap := tmPool.dfsHeapMap.insert richPointHash dfsHeap }

variable {τ : Type} [DecidableEq τ]

/-- The pools of the threads when the jobs are done. -/
def runJobs (pools : τ → ThreadMemPool) (jobs : List (Job τ)) : Res (τ → ThreadMemPool) :=
  jobs.foldlM (fun pools job => do
    let tmPool ← doWork param plan job.timer job.richPath job.copyVal (pools job.thread)
    pure (Function.update pools job.thread tmPool)) pools

end DFSWorker

/-! ## Merging the heaps -/

namespace DFSearch

/-- `MergeDFS`, which comes to the heaps of the pools one after the other: for each the hash that
it is stored under and its paths. -/
def mergeDFS (param : BagParam) (visits : List (UInt32 × List SPath)) : DFSHeapMap :=
  visits.foldl (fun dfsHeapMap visit =>
    dfsHeapMap.insert visit.1 (visit.2.foldl SPathHeap.push (getDFSHeap param dfsHeapMap visit.1)))
    ∅

/-- An order in which `MergeDFS` may come to the heaps: the pools of the jobs, the entries of their
maps and the paths of a heap are visited in any order. -/
def MergeOrder {τ : Type} [DecidableEq τ] (pools : τ → ThreadMemPool)
    (jobs : List (DFSWorker.Job τ)) (visits : List (UInt32 × List SPath)) : Prop :=
  ∃ entries : List (Σ _ : UInt32, SPathHeap),
    entries.Perm ((jobs.map DFSWorker.Job.thread).dedup.flatMap fun thread =>
      (pools thread).dfsHeapMap.entries) ∧
    List.Forall₂ (fun entry visit => visit.1 = entry.1 ∧ visit.2.Perm entry.2.queue) entries visits

end DFSearch

end PPView
