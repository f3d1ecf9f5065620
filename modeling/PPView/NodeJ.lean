import Mathlib.Algebra.GroupWithZero.Nat
import Mathlib.Algebra.Ring.Int.Defs
import Mathlib.Data.Fintype.Basic
import Mathlib.Data.List.Basic
import Mathlib.Logic.Function.Basic
import Mathlib.Tactic.Common
import PPView.Fault

/-!
# Nodes of a day route

`NodeJ` is the JSON object `nodeJ` of a day route, read through the members that the
planner uses: an absent member is `none` and a missing entry of an array reads as zero, as
`Json::Value::asInt` does on null. The functions are those of `NodeJ.cpp`.

`NodeJ.skeleton` forgets what planning may change (the selected interval, the durations and
the arrangement). Every pass over a route keeps its skeleton.
-/

namespace PPView

/-- `free.durs`, the shortest, recommended and longest stay. -/
structure Durs where
  min : Int := 0
  rcmd : Int := 0
  max : Int := 0
  deriving DecidableEq, Repr, Inhabited

structure Locations where
  inLoc : Option String
  outLoc : Option String
  deriving DecidableEq, Repr

/-- The member `free`. -/
structure Free where
  openClose : Option (List (Int × Int))
  durs : Option Durs
  deriving DecidableEq, Repr

/-- The member `fixed`. -/
structure Fixed where
  times : Option (List (Int × Int))
  canDel : Option Int
  deriving DecidableEq, Repr

/-- A node. `toNext` lists the members of the object in key order and is empty for null;
`rangeIdx`, `time` and `error` are `arrange.controls.rangeIdx`, `arrange.time` and
`arrange.error`. -/
structure NodeJ where
  id : Option String := none
  locations : Option Locations := none
  toNext : Option (List (String × Int)) := none
  free : Option Free := none
  fixed : Option Fixed := none
  rangeIdx : Option Int := none
  time : Int × Int := (0, 0)
  error : Fin 7 → Int := fun _ => 0
  deriving DecidableEq, Inhabited

abbrev RouteJ := List NodeJ

/-- The entries of `error` are named by numerals. -/
instance errorTypes : NeZero 7 := ⟨by decide⟩

namespace NodeJ

/-! ## Members -/

/-- `nodeJ["id"].asString()`. -/
def ident (n : NodeJ) : String := n.id.getD ""

def members (n : NodeJ) : List (String × Int) := n.toNext.getD []

/-- `nodeJ["toNext"][id]` where the member exists. -/
def traffic (n : NodeJ) (id : String) : Option Int := n.members.lookup id

def openClose (n : NodeJ) : List (Int × Int) := (n.free.bind Free.openClose).getD []

def durs (n : NodeJ) : Durs := (n.free.bind Free.durs).getD {}

def times (n : NodeJ) : List (Int × Int) := (n.fixed.bind Fixed.times).getD []

def isFree (n : NodeJ) : Bool := n.free.isSome

def isFixed (n : NodeJ) : Bool := n.fixed.isSome

/-! ## Checks -/

/-- An array member that is absent or no array is `none` here, and so refused. -/
def checkNodeJ (n : NodeJ) : Bool :=
  if n.id.isNone then false
  else if n.locations.any (fun l => l.inLoc.isNone || l.outLoc.isNone) then false
  else if n.toNext.isNone then false
  else if !(n.isFree ^^ n.isFixed) then false
  else match n.free, n.fixed with
    | some f, _ => f.openClose.isSome && f.durs.isSome
    | none, some f =>
      if n.times.length ≤ 0 then false
      else f.canDel.isSome
    | none, none => true

def checkRouteJ (r : RouteJ) : Bool :=
  if r.length < 2 then false else r.all checkNodeJ

/-! ## Reading and writing the arrangement -/

def setDurs (n : NodeJ) (min rcmd max : Int) : NodeJ :=
  if min ≤ rcmd ∧ rcmd ≤ max then
    { n with free := some ⟨n.free.bind Free.openClose, some ⟨min, rcmd, max⟩⟩ }
  else n

def isNodeCanDel (n : NodeJ) : Bool :=
  n.isFree || ((n.fixed.bind Fixed.canDel).getD 0 != 0)

def isFixedArvOnTime (n : NodeJ) : Bool := n.error 5 == 0

def hasFixedConflictError (n : NodeJ) : Bool :=
  n.error 0 != 0 || n.error 1 != 0 || n.error 2 != 0

def isRightConflict (n : NodeJ) : Bool := n.error 6 != 0

def setDefaultError (n : NodeJ) : NodeJ := { n with error := fun _ => 0 }

def setError (n : NodeJ) (type : Fin 7) : NodeJ :=
  { n with error := Function.update n.error type 1 }

def setPlayRange (n : NodeJ) (left right : Int) : NodeJ := { n with time := (left, right) }

def setRangeIdx (n : NodeJ) (idx : Int) : NodeJ := { n with rangeIdx := some idx }

/-! ## The selected session and the selected interval -/

/-- The session selection that the source repeats at each use of `fixed.times`. -/
def sessionIdx (n : NodeJ) : Nat :=
  match n.rangeIdx with
  | some i => if i < 0 ∨ i ≥ n.times.length then 0 else i.toNat
  | none => 0

/-- `fixed.times[rangeIdx]`. -/
def session (n : NodeJ) : Int × Int := n.times.getD n.sessionIdx (0, 0)

/-- The interval selection of `setNodeError`. -/
def openIdx (n : NodeJ) : Int :=
  match n.rangeIdx with
  | some i => if i > 0 ∧ i ≥ n.openClose.length then -1 else i
  | none => -1

/-- `free.openClose[pos]`. -/
def openCloseAt (n : NodeJ) (pos : Int) : Res (Int × Int) :=
  if pos < 0 then .error .negativeIndex else .ok (n.openClose.getD pos.toNat (0, 0))

/-- The stay `time` is open in the interval `oc`, with a quarter of an hour of tolerance. -/
def within (time oc : Int × Int) : Bool :=
  time.1 ≥ oc.1 - 900 && time.1 ≤ oc.2 && time.2 ≥ oc.1 && time.2 ≤ oc.2 + 900 &&
    time.2 - time.1 ≥ 900

/-- `PathGenerator::isOpen`, which reads the node only. -/
def isOpen (n : NodeJ) (pos : Int) : Res Bool :=
  if n.isFixed then pure true
  else if n.openClose.length = 0 then pure false
  else if pos ≠ -1 then do
    let oc ← n.openCloseAt pos
    pure (within n.time oc)
  else pure (n.openClose.any (within n.time))

/-! ## What planning leaves alone -/

/-- The node without selected interval, durations and arrangement. -/
def skeleton (n : NodeJ) : NodeJ :=
  { n with
    free := n.free.map fun f => { f with durs := f.durs.map fun _ => {} }
    rangeIdx := none, time := (0, 0), error := fun _ => 0 }

/-- The node without its arrangement. -/
def bare (n : NodeJ) : NodeJ := { n with time := (0, 0), error := fun _ => 0 }

@[simp] theorem skeleton_id (n : NodeJ) : n.skeleton.id = n.id := rfl
@[simp] theorem skeleton_isFixed (n : NodeJ) : n.skeleton.isFixed = n.isFixed := rfl
@[simp] theorem skeleton_isFree (n : NodeJ) : n.skeleton.isFree = n.isFree := by
  simp [skeleton, isFree]
@[simp] theorem skeleton_times (n : NodeJ) : n.skeleton.times = n.times := rfl
@[simp] theorem skeleton_ident (n : NodeJ) : n.skeleton.ident = n.ident := rfl
@[simp] theorem skeleton_traffic (n : NodeJ) : n.skeleton.traffic = n.traffic := rfl
@[simp] theorem skeleton_openClose (n : NodeJ) : n.skeleton.openClose = n.openClose := by
  cases h : n.free <;> simp [skeleton, openClose, h]

@[simp] theorem skeleton_bare (n : NodeJ) : n.bare.skeleton = n.skeleton := rfl
@[simp] theorem skeleton_setRangeIdx (n : NodeJ) (i : Int) :
    (n.setRangeIdx i).skeleton = n.skeleton := rfl
@[simp] theorem skeleton_setDefaultError (n : NodeJ) :
    n.setDefaultError.skeleton = n.skeleton := rfl

@[simp] theorem checkNodeJ_skeleton (n : NodeJ) : n.skeleton.checkNodeJ = n.checkNodeJ := by
  have hfree : n.skeleton.free = n.free.map fun f => { f with durs := f.durs.map fun _ => {} } :=
    rfl
  have hfixed : n.skeleton.fixed = n.fixed := rfl
  unfold checkNodeJ
  rw [skeleton_isFree, skeleton_isFixed, skeleton_times, hfree, hfixed]
  cases n.free <;> cases n.fixed <;> simp [skeleton]

theorem checkNodeJ_xor {n : NodeJ} (h : n.checkNodeJ) : n.isFree = !n.isFixed := by
  unfold checkNodeJ at h
  cases hf : n.isFree <;> cases hx : n.isFixed <;> simp_all

theorem checkNodeJ_times {n : NodeJ} (h : n.checkNodeJ) (hx : n.isFixed) : n.times ≠ [] := by
  have hfree := checkNodeJ_xor h
  simp only [isFree, hx, Bool.not_true, Option.isSome_eq_false_iff, Option.isNone_iff_eq_none]
    at hfree
  obtain ⟨f, hf⟩ := Option.isSome_iff_exists.mp hx
  intro ht
  simp [checkNodeJ, hfree, hf, ht] at h

end NodeJ

namespace RouteJ

open NodeJ

theorem map_skeleton_of_bare {r r' : RouteJ} (h : r.map bare = r'.map bare) :
    r.map skeleton = r'.map skeleton := by
  have hmap (r : RouteJ) : (r.map bare).map skeleton = r.map skeleton := by simp
  rw [← hmap, h, hmap]

theorem checkRouteJ_of_skeleton {r r' : RouteJ} (h : r.map skeleton = r'.map skeleton) :
    checkRouteJ r = checkRouteJ r' := by
  have hmap (r : RouteJ) : checkRouteJ (r.map skeleton) = checkRouteJ r := by
    simp [checkRouteJ, Function.comp_def]
  rw [← hmap, h, hmap]

end RouteJ

end PPView
