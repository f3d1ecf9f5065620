import PPView.NodeJ

/-!
# Expanding a day in the given order

The generator object, the look-back over earlier fixed nodes, `setNodeError` and
`DayPathExpand` of `PathGenerator.cpp`. A function that returns `bool` and writes through a
reference or into the object returns both; a fault ends the call.
-/

namespace PPView

/-- The members of `m_controls` that the generator reads. -/
structure Controls where
  keepTime : Bool := false
  deriving DecidableEq, Repr, Inhabited

structure PathGenerator where
  playBorders : Int × Int
  controls : Controls
  inRouteJ : RouteJ
  outRouteJ : RouteJ := []
  isSearch : Bool := false
  deriving DecidableEq

/-! ## Construction -/

/-- Reading `node["fixed"]["times"][rangeIdx]` through a non-const reference creates the
members that are absent. -/
def NodeJ.touchTimes (n : NodeJ) : NodeJ :=
  if n.times = [] then
    { n with fixed := some ⟨some [(0, 0)], n.fixed.bind Fixed.canDel⟩ }
  else n

/-- `initPlayBorders` reads the sessions of both ends of `m_inRouteJ`. On an empty route the
first access creates a null node. -/
def touchBorders : RouteJ → RouteJ
  | [] => [(default : NodeJ).touchTimes]
  | [n] => [n.touchTimes]
  | n :: m :: rest => n.touchTimes :: ((m :: rest).dropLast ++
    [((m :: rest).getLastD m).touchTimes])

def initPlayBorders (r : RouteJ) : Int × Int :=
  ((r.headD default).session.2, (r.getLastD default).session.1)

namespace PathGenerator

/-- The constructor. -/
def create (r : RouteJ) (controls : Controls := {}) : PathGenerator where
  playBorders := initPlayBorders r
  controls := controls
  inRouteJ := touchBorders r

/-! ## Arranging one node -/

/-- The relation in which an earlier fixed stay `last` stands to the session `times`, if
any, as the flag it raises: reversed, overlapping, or too short for the stays between. -/
def sessionConflict (last times : Int × Int) (playDurTime : Int) : Option (Fin 7) :=
  if last.1 > times.2 ∨ last.1 = times.2 ∧ (last.2 > last.1 ∨ times.2 > times.1) then some 0
  else if last.2 > times.1 then some 1
  else if playDurTime > times.1 - last.2 then some 2
  else none

/-- The loop of `isBackFixedConflict`, from the last arranged node to the first. -/
def backConflict (isSearch : Bool) (times : Int × Int) :
    (earlier : RouteJ) → (playDurTime : Int) → NodeJ → NodeJ
  | [], _, nodeJ => nodeJ
  | lastNode :: earlier, playDurTime, nodeJ =>
    if lastNode.isFixed then
      match sessionConflict lastNode.time times playDurTime with
      | some e =>
        if isSearch then nodeJ.setError e
        else backConflict isSearch times earlier playDurTime (nodeJ.setError e)
      | none => backConflict isSearch times earlier playDurTime nodeJ
    else
      backConflict isSearch times earlier
        (playDurTime + (lastNode.time.2 - lastNode.time.1)) nodeJ

variable (g : PathGenerator)

def isBackFixedConflict (nodeJ : NodeJ) : NodeJ :=
  backConflict g.isSearch nodeJ.session g.outRouteJ.reverse 0 nodeJ

def isConflictWithBorders (nodeJ : NodeJ) : Bool := nodeJ.time.2 > g.playBorders.2

/-- The branch of `setNodeError` for a fixed node reached at `stime`. -/
def setFixedError (stime : Int) (nodeJ : NodeJ) : NodeJ :=
  let nodeTimes := nodeJ.session
  let nodeJ := g.isBackFixedConflict { nodeJ with time := nodeTimes }
  if stime ≤ nodeTimes.1 then nodeJ else nodeJ.setError 5

/-- Where the branch of `setNodeError` for free nodes arranges a node reached at `stime`. -/
def placeFree (stime : Int) (nodeJ : NodeJ) : Res NodeJ :=
  let rangeIdx := nodeJ.openIdx
  let dur := nodeJ.durs.min
  if rangeIdx = -1 ∨ nodeJ.openClose.length = 0 then
    pure (nodeJ.setPlayRange stime (stime + dur))
  else do
    let (openTime, closeTime) ← nodeJ.openCloseAt rangeIdx
    if stime ≥ openTime ∧ stime < closeTime then
      pure (nodeJ.setPlayRange stime (stime + dur))
    else if stime < openTime then
      pure (nodeJ.setPlayRange openTime (openTime + dur))
    else if stime ≥ closeTime then
      pure (nodeJ.setPlayRange stime (stime + dur))
    else pure nodeJ

/-- The branch of `setNodeError` for a free node reached at `stime`. -/
def setFreeError (stime : Int) (nodeJ : NodeJ) : Res NodeJ := do
  let rangeIdx := nodeJ.openIdx
  let nodeJ ← placeFree stime nodeJ
  if ← nodeJ.isOpen rangeIdx then pure nodeJ else pure (nodeJ.setError 4)

/-- The last test of `setNodeError`: every node but the last is held against the right border. -/
def setBorderError (nodeJ : NodeJ) : NodeJ :=
  if g.outRouteJ.length + 1 ≠ g.inRouteJ.length ∧ g.isConflictWithBorders nodeJ then
    nodeJ.setError 6
  else nodeJ

/-- What `setNodeError` does to a node reached at `stime`. -/
def setErrorAt (stime : Int) (nodeJ : NodeJ) : Res NodeJ := do
  let nodeJ := if nodeJ.isFixed then g.setFixedError stime nodeJ else nodeJ
  let nodeJ ← (if nodeJ.isFree then setFreeError stime nodeJ else pure nodeJ)
  pure (g.setBorderError nodeJ)

/-- `none` stands for the result `false`, a missing traffic edge. -/
def setNodeError (nodeJ : NodeJ) : Res (Option NodeJ) :=
  let lastNode := g.outRouteJ.getLastD default
  match lastNode.traffic nodeJ.ident with
  | none => pure none
  | some traf => some <$> g.setErrorAt (lastNode.time.2 + traf) nodeJ

/-! ## Expanding the route -/

def append (nodeJ : NodeJ) : PathGenerator := { g with outRouteJ := g.outRouteJ ++ [nodeJ] }

/-- The loop of `DayPathExpand` over the nodes after the first. -/
def expandLoop (g : PathGenerator) : RouteJ → Res (Bool × PathGenerator)
  | [] => pure (true, g)
  | nodeJ :: rest => do
    match ← g.setNodeError nodeJ with
    | none => pure (false, g)
    | some nodeJ => (g.append nodeJ).expandLoop rest

def dayPathExpand : Res (Bool × PathGenerator) :=
  if !NodeJ.checkRouteJ g.inRouteJ then pure (false, g)
  else match g.inRouteJ with
    | [] => pure (false, g)
    | nodeJ :: rest => (g.append { nodeJ with time := nodeJ.session }).expandLoop rest

/-- `PathGenerator path(r); path.DayPathExpand(); path.GetResult()`. -/
def expandCopy (r : RouteJ) : Res RouteJ := do
  let (_, path) ← (create r).dayPathExpand
  pure path.outRouteJ

end PathGenerator

end PPView
