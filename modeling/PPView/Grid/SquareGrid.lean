import Mathlib.Algebra.Order.Field.Rat
import Mathlib.Data.Finset.Union
import PPView.Library.Strings

/-!
# The grid of places

`MJSquareGrid` of `MJSquareGrid.cpp`. A cell has the ids of the places in it under a key, the text
of its two numbers. An id is found under its cell in `m_gridMap`, and the key of its cell under the
id in `m_Id2GridKeyMap`.

What is computed with sines and cosines is a parameter.
-/

namespace PPView.MJSquareGrid

open Strings (find)

abbrev Text := List Char

/-- The functions on floating-point numbers. -/
structure Sphere where
  atof : Text → ℚ
  /-- `floor(EveryLonLength*lonDu)`, in which `EveryLonLength` depends on the latitude. -/
  cellX : ℚ → ℚ → ℤ
  cellY : ℚ → ℤ
  halfCircle : ℚ → ℤ
  caluateSphereDist : Text → Text → ℚ

structure Grid where
  m_gridMap : Text → Finset Text
  m_Id2GridKeyMap : Text → Option Text
  m_id2MapInfo : Text → Option Text
  m_gridBorder : ℕ → Option ℤ

/-- The grid before any place is added. -/
def Grid.empty : Grid := ⟨fun _ => ∅, fun _ => none, fun _ => none, fun _ => none⟩

/-! ## Keys -/

/-- `to_string`. -/
def toText (n : ℤ) : Text :=
  if n < 0 then '-' :: Nat.toDigits 10 n.natAbs else Nat.toDigits 10 n.natAbs

def cellKey (x y : ℤ) : Text := toText x ++ '_' :: toText y

variable (sphere : Sphere)

/-- The longitude and the latitude, if there is a comma. -/
def lonLat (mapInfo : Text) : Option (ℚ × ℚ) :=
  (find [','] mapInfo).map fun pos =>
    (sphere.atof (mapInfo.take pos), sphere.atof (mapInfo.drop (pos + 1)))

/-- The key, and the grid with the border of the row. -/
def lonLat2Coord (grid : Grid) (lonDu latDu : ℚ) : Grid × Text :=
  let x := sphere.cellX lonDu latDu
  let y := sphere.cellY latDu
  let key := cellKey x y
  if grid.m_gridBorder y.natAbs = none then
    ({ grid with
        m_gridBorder := Function.update grid.m_gridBorder y.natAbs (sphere.halfCircle latDu) }, key)
  else (grid, key)

/-! ## Adding and deleting -/

/-- The private `addId2Grid`. -/
def addId2Grid (grid : Grid) (id mapInfo : Text) : Grid × Bool :=
  match lonLat sphere mapInfo with
  | none => (grid, false)
  | some (lonDu, latDu) =>
    let (grid, key) := lonLat2Coord sphere grid lonDu latDu
    ({ grid with
        m_gridMap := Function.update grid.m_gridMap key (insert id (grid.m_gridMap key))
        m_id2MapInfo := Function.update grid.m_id2MapInfo id (some mapInfo)
        m_Id2GridKeyMap := Function.update grid.m_Id2GridKeyMap id (some key) }, true)

/-- The private `delIdFromGrid`. -/
def delIdFromGrid (grid : Grid) (id : Text) : Grid :=
  match grid.m_Id2GridKeyMap id with
  | none => grid
  | some key =>
    { grid with
      m_gridMap := Function.update grid.m_gridMap key ((grid.m_gridMap key).erase id)
      m_Id2GridKeyMap := Function.update grid.m_Id2GridKeyMap id none }

/-- The id under which the public functions keep a place. -/
def logoId (id extraLogo : Text) : Text := id ++ '#' :: extraLogo

def addIdLogo2Grid (grid : Grid) (id extraLogo mapInfo : Text) : Grid × Bool :=
  addId2Grid sphere grid (logoId id extraLogo) mapInfo

def delIdLogoFromGrid (grid : Grid) (id extraLogo : Text) : Grid × Bool :=
  (delIdFromGrid grid (logoId id extraLogo), true)

/-! ## Places in range -/

def intMax : ℤ := 2147483647
def intMin : ℤ := -2147483648

/-- How many cells the search goes in each direction. -/
def maxDist (latDu : ℚ) (Dist : ℤ) : ℤ :=
  let expand :=
    if |latDu| ≥ 0 ∧ |latDu| ≤ 30 then 2
    else if |latDu| > 30 ∧ |latDu| ≤ 60 then 3
    else if |latDu| > 60 ∧ |latDu| ≤ 90 then 5
    else 1
  Dist.tdiv 1000 * expand

/-- The numbers of a loop from `first` to below `bound`. -/
def loopRange (first bound : ℤ) : List ℤ :=
  (List.range (bound - first).toNat).map fun (i : ℕ) => first + i

/-- The borders that are known for the rows from `downY` to `upY`. -/
def rowBorders (grid : Grid) (downY upY : ℤ) : List ℤ :=
  (loopRange downY (upY + 1)).filterMap fun i => grid.m_gridBorder i.natAbs

def minXRange (grid : Grid) (downY upY : ℤ) : ℤ := (rowBorders grid downY upY).foldl min intMax

def maxXRange (grid : Grid) (downY upY : ℤ) : ℤ := (rowBorders grid downY upY).foldl max intMin

/-- The columns to search, and those on the other side of the border. -/
structure Window where
  leftX : ℤ
  rightX : ℤ
  leftXPlus : ℤ := intMin
  rightXPlus : ℤ := intMax

def window (x maxDist minXRange maxXRange : ℤ) : Window :=
  let leftX := x - maxDist
  let rightX := x + maxDist
  if x < 0 then
    if -minXRange > leftX then
      { leftX := -maxXRange, rightX,
        leftXPlus :=
          if -minXRange < x then minXRange - (maxDist - (x - -minXRange))
          else minXRange - maxDist,
        rightXPlus := maxXRange }
    else { leftX, rightX }
  else
    if minXRange < rightX then
      { leftX, rightX := maxXRange,
        leftXPlus := -maxXRange,
        rightXPlus :=
          if minXRange > x then -(minXRange - (maxDist - (minXRange - x)))
          else -(minXRange - maxDist) }
    else { leftX, rightX }

/-- The two loops over the cells. Both leave out their last number. -/
def idsInCells (grid : Grid) (leftX rightX downY upY : ℤ) : Finset Text :=
  (loopRange leftX rightX).toFinset.biUnion fun i =>
    (loopRange downY upY).toFinset.biUnion fun j => grid.m_gridMap (cellKey i j)

/-- `int` of a `double`. -/
def truncate (q : ℚ) : ℤ := q.num.tdiv q.den

/-- The private `getRangePlace`. An id without a place gets the empty one when it is looked up. -/
def getRangePlace (grid : Grid) (mapInfo : Text) (Dist : ℤ) (idList : Finset Text) :
    Grid × Bool × Finset Text :=
  match lonLat sphere mapInfo with
  | none => (grid, false, idList)
  | some (lonDu, latDu) =>
    let maxDist := maxDist latDu Dist
    let (grid, key) := lonLat2Coord sphere grid lonDu latDu
    match find ['_'] key with
    | none => (grid, false, idList)
    | some pos =>
      let x := truncate (sphere.atof (key.take pos))
      let y := truncate (sphere.atof (key.drop (pos + 1)))
      let upY := y + maxDist
      let downY := y - maxDist
      let w := window x maxDist (minXRange grid downY upY) (maxXRange grid downY upY)
      let idList := idList ∪ idsInCells grid w.leftX w.rightX downY upY
      let idList :=
        if w.leftXPlus ≠ intMin then
          idList ∪ idsInCells grid w.leftXPlus w.rightXPlus downY upY
        else idList
      let place := fun id => (grid.m_id2MapInfo id).getD []
      ({ grid with
          m_id2MapInfo := fun id =>
            if id ∈ idList then some (place id) else grid.m_id2MapInfo id },
        true, idList.filter fun id => sphere.caluateSphereDist mapInfo (place id) ≤ Dist)

/-- The public `getRangePlace`, which takes the ids apart. -/
def getRangePlaceLogo (grid : Grid) (mapInfo : Text) (Dist : ℤ) (retData : Finset (Text × Text)) :
    Grid × Bool × Finset (Text × Text) :=
  let (grid, _, idList) := getRangePlace sphere grid mapInfo Dist ∅
  (grid, true, retData ∪ idList.biUnion fun id =>
    match find ['#'] id with
    | none => ∅
    | some pos => {(id.take pos, id.drop (pos + 1))})

end PPView.MJSquareGrid
