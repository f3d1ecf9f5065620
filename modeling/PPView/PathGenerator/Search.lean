import Mathlib.Data.Rat.Defs
import Mathlib.Algebra.Order.Field.Rat
import PPView.BagParam
import PPView.Library.BestList
import PPView.PathGenerator.SelectFixed

/-!
# Searching the order of the day

`DayPathSearch` tries the orders of the nodes between the first and the last. The state of the
search is explicit: `Search` holds the generator with its partial route, the two visited
tables, the running sums and the bounded list `m_pathList`. A call of `DoSearch` that runs out of
`fuel` reports `outOfFuel`, which the source has no counterpart of.

The timers are read at each check of `m_sCnt`; `timeOut` says whether the check of a given
number finds one of them exceeded.
-/

namespace PPView

open NodeJ

def topK : Nat := 3

/-- `std::numeric_limits<int>::max()`. -/
def intMax : Int := 2147483647

structure Search where
  gen : PathGenerator
  poiList : RouteJ := []
  idxVisited : Nat → Nat → Bool := fun _ _ => false
  visited : Nat → Bool := fun _ => false
  fixedNum : Int := 0
  freeNum : Int := 0
  trafTime : Int := 0
  pathList : List (ℚ × RouteJ) := []
  sCnt : Nat := 0
  checks : Nat := 0

namespace Search

/-! ## The visited tables -/

def setVisited (s : Search) (i : Nat) (b : Bool) : Res Search :=
  if i < dayNodeLimit then pure { s with visited := Function.update s.visited i b }
  else .error .arrayBound

def getVisited (s : Search) (i : Nat) : Res Bool :=
  if i < dayNodeLimit then pure (s.visited i) else .error .arrayBound

def setIdxVisited (s : Search) (idx i : Nat) (b : Bool) : Res Search :=
  let row := Function.update (s.idxVisited idx) i b
  if idx < dayNodeLimit ∧ i < dayNodeLimit then
    pure { s with idxVisited := Function.update s.idxVisited idx row }
  else .error .arrayBound

def getIdxVisited (s : Search) (idx i : Nat) : Res Bool :=
  if idx < dayNodeLimit ∧ i < dayNodeLimit then pure (s.idxVisited idx i)
  else .error .arrayBound

/-! ## The greedy choice -/

def getIdxByIdstr (s : Search) (id : String) : Option Nat :=
  s.poiList.findIdx? fun nodeJ => nodeJ.id == some id

/-- The loop of `GetNextNodeByGreedy` over the member names. -/
def greedyLoop (s : Search) (nodeJ : NodeJ) (idx : Nat) :
    (minTrafTime : Int) → (nextIdx : Option Nat) → List String → Res (Option Nat)
  | _, nextIdx, [] => pure nextIdx
  | minTrafTime, nextIdx, it :: its => do
    let trafTime := (nodeJ.traffic it).getD 0
    if trafTime < minTrafTime then
      match s.getIdxByIdstr it with
      | none => greedyLoop s nodeJ idx minTrafTime nextIdx its
      | some idIndex =>
        if ← s.getIdxVisited idx idIndex then greedyLoop s nodeJ idx minTrafTime nextIdx its
        else if ← s.getVisited idIndex then greedyLoop s nodeJ idx minTrafTime nextIdx its
        else greedyLoop s nodeJ idx trafTime (some idIndex) its
    else greedyLoop s nodeJ idx minTrafTime nextIdx its

/-- `none` stands for the result `false` and for `nextIdx == -1`. -/
def getNextNodeByGreedy (s : Search) (nodeJ : NodeJ) (idx : Nat) : Res (Option Nat) :=
  greedyLoop s nodeJ idx intMax none (nodeJ.members.map Prod.fst)

end Search

/-! ## Placing a node -/

namespace PathGenerator

/-- The node that `DoSearch` appends for `node`; `none` where it moves on to the next one. -/
def placeNext (g : PathGenerator) (node : NodeJ) : Res (Option NodeJ) := do
  let node := node.setDefaultError
  let placed ←
    if node.isFixed then do
      let (success, node) ← g.setFixedPoiTimes node
      pure (if success then some node else none)
    else if node.isFree then g.setNodeError (node.setRangeIdx (-1))
    else pure (some node)
  match placed with
  | none => pure none
  | some node =>
    if g.isConflictWithBorders node && node.isNodeCanDel then pure none else pure (some node)

/-- The last node, if it closes the path. -/
def placeLast (g : PathGenerator) : Res (Option NodeJ) := do
  match ← g.setNodeError (g.inRouteJ.getLastD default).setDefaultError with
  | none => pure none
  | some node =>
    if node.hasFixedConflictError || !node.isFixedArvOnTime then pure none else pure (some node)

end PathGenerator

/-! ## The recursion -/

namespace Search

def lastNode (s : Search) : NodeJ := s.gen.outRouteJ.getLastD default

/-- `lastNode["toNext"][id].asInt()`. -/
def trafTo (lastNode node : NodeJ) : Int := (lastNode.traffic node.ident).getD 0

/-- The score of the path whose traffic takes `trafTime`. -/
def score (s : Search) (trafTime : Int) : ℚ :=
  10 * s.fixedNum + 3 * s.freeNum
    - (s.gen.playBorders.2 - s.gen.playBorders.1 : Int) / (24 * 3600) - trafTime / (24 * 3600)

/-- The end of a path: the last node is appended, the path is entered into `m_pathList`, and the
last node is taken away again. -/
def finish (s : Search) : Res Search := do
  match ← s.gen.placeLast with
  | none => pure s
  | some node =>
    let path := (s.gen.append node).outRouteJ
    let score := s.score (s.trafTime + trafTo s.lastNode node)
    pure { s with pathList := BestList.push topK Prod.fst s.pathList (score, path) }

/-- Appending `node`, which is number `nextIdx` of `m_poiList`. -/
def enter (s : Search) (nextIdx : Nat) (node : NodeJ) : Res Search :=
  let s := { s with
    gen := s.gen.append node
    freeNum := if node.isFree then s.freeNum + 1 else s.freeNum
    fixedNum := if !node.isFree && node.isFixed then s.fixedNum + 1 else s.fixedNum
    trafTime := s.trafTime + trafTo s.lastNode node }
  s.setVisited nextIdx true

/-- Taking it away again; `lastNode` is the node before it. -/
def leave (s : Search) (lastNode : NodeJ) (nextIdx : Nat) (node : NodeJ) : Res Search := do
  let s ← s.setVisited nextIdx false
  pure { s with
    gen := { s.gen with outRouteJ := s.gen.outRouteJ.dropLast }
    freeNum := if node.isFree then s.freeNum - 1 else s.freeNum
    fixedNum := if !node.isFree && node.isFixed then s.fixedNum - 1 else s.fixedNum
    trafTime := s.trafTime - trafTo lastNode node }

/-- The loop that clears the row `depth` of `m_IdxVisited`. -/
def clearRow (s : Search) (depth : Nat) : Res Search :=
  (List.range s.poiList.length).foldlM (fun s i => s.setIdxVisited depth i false) s

/-- The body of the loop over the members of `lastNode.toNext`; `search` is the recursive
call. -/
def visitNext (search : Search → Res Search) (depth : Nat) (lastNode : NodeJ) (s : Search) :
    Res Search := do
  match ← s.getNextNodeByGreedy lastNode depth with
  | none => pure s
  | some nextIdx =>
    let s ← s.setIdxVisited depth nextIdx true
    match ← s.gen.placeNext (s.poiList.getD nextIdx default) with
    | none => pure s
    | some node =>
      let s ← s.enter nextIdx node
      let s ← search s
      s.leave lastNode nextIdx node

/-- `DoSearch`, whose result no caller looks at. -/
def doSearch (timeOut : Nat → Bool) : (fuel : Nat) → (depth : Nat) → Search → Res Search
  | 0, _, _ => .error .outOfFuel
  | fuel + 1, depth, s =>
    let s := { s with sCnt := s.sCnt + 1 }
    if s.sCnt > 20000 ∧ timeOut s.checks then pure { s with checks := s.checks + 1 }
    else
      let s := if s.sCnt > 20000 then { s with sCnt := 0, checks := s.checks + 1 } else s
      if s.gen.outRouteJ.length = s.poiList.length + 1 then s.finish
      else do
        let lastNode := s.lastNode
        let s ← s.clearRow depth
        lastNode.members.foldlM
          (fun s _ => visitNext (doSearch timeOut fuel (depth + 1)) depth lastNode s) s

/-! ## The whole search -/

/-- `InitSearch` on a new generator. -/
def initSearch (g : PathGenerator) : Res Search :=
  let poiList := g.inRouteJ.tail.dropLast
  (List.range poiList.length).foldlM (fun s i => s.setVisited i false)
    { gen := { g with isSearch := true }, poiList := poiList }

/-- The generator at the session `i` of the first and `j` of the last node. -/
def startGen (g : PathGenerator) (i j : Nat) : PathGenerator :=
  let inRouteJ := (g.inRouteJ.modify 0 (·.setRangeIdx i)).modify (g.inRouteJ.length - 1)
    (·.setRangeIdx j)
  let firstNode := inRouteJ.headD default
  { g with
    inRouteJ := inRouteJ
    playBorders := initPlayBorders inRouteJ
    outRouteJ := [{ firstNode with time := firstNode.times.getD i (0, 0) }] }

/-- `Search`: the sessions of both ends. -/
def searchAll (timeOut : Nat → Bool) (s : Search) : Res Search :=
  let firstNode := s.gen.inRouteJ.headD default
  let lastNode := s.gen.inRouteJ.getLastD default
  (List.range firstNode.times.length).foldlM (fun s i =>
    (List.range lastNode.times.length).foldlM (fun s j =>
      doSearch timeOut (s.poiList.length + 1) 0 { s with gen := startGen s.gen i j }) s) s

/-- `InitSearch` and `Search`, as `DayPathSearch` calls them on a route it accepts. -/
def run (timeOut : Nat → Bool) (g : PathGenerator) : Res Search := do
  let s ← initSearch g
  s.searchAll timeOut

end Search

end PPView
