import PPView.PrivateData.PrivateConstData

/-!
# Loading and updating the private data

Every row of a table is a place that is deleted and inserted anew. What the database answers is a
list of rows; the public data are given by the ids that they have.
-/

namespace PPView.PrivateData

inductive Table where
  | city | hotel | attraction | shopping | restaurant
  deriving DecidableEq

/-- The class of the places of a table. -/
def Table.cls : Table → PlaceClass
  | .city => .city
  | .hotel => .hotel
  | .attraction => .view
  | .shopping => .shop
  | .restaurant => .restaurant

/-- The columns that decide which place there is. `disable` is 0 for NULL, and `cids` are the parts
of the column with the cities. -/
structure Row where
  id : Option String
  ptid : Option String
  refer : Option String := none
  disable : Int := 0
  mapInfo : Option String := none
  cids : List String := []
  deriving DecidableEq

/-- The id and the tenant, if both are there. -/
def Row.key (row : Row) : Option (String × String) :=
  match row.id, row.ptid with
  | some id, some ptid => if id = "" ∨ ptid = "" then none else some (id, ptid)
  | _, _ => none

/-- The place that is made of a row. A city is its own city, and refers to nothing. -/
def Row.place (row : Row) (table : Table) (id ptid : String) : Place where
  id := id
  ptid := ptid
  refer := if table = .city then "" else row.refer.getD ""
  cls := table.cls
  t := table.cls.type.getD 0
  cidList := if table = .city then [id] else row.cids
  type_eq := fun _ h => by rw [h]; rfl

/-- `MJSquareGrid::addId2Grid`, as far as it can fail. -/
def addId2Grid (mapInfo : String) : Bool := ',' ∈ mapInfo.toList

namespace PrivateConstData

variable (base : String → Bool)

/-- A row of `UpdateCity`. -/
def updateCityRow (d : PrivateConstData) (row : Row) : PrivateConstData :=
  if row.disable = 1 then d
  else
    match row.key with
    | none => d
    | some (cid, ptid) => ((d.delLYPlace cid ptid).doInsert (row.place .city cid ptid)).2

/-- The row refers to nothing that the public data have. -/
def dangling (row : Row) : Bool := row.refer.getD "" ≠ "" ∧ ¬ base (row.refer.getD "")

/-- A row of `UpdateHotel`. -/
def updateHotelRow (d : PrivateConstData) (row : Row) : PrivateConstData :=
  match row.key with
  | none => d
  | some (id, ptid) =>
    let d := d.delLYPlace id ptid
    if dangling base row ∨ row.disable = 1 then d
    else (d.doInsert (row.place .hotel id ptid)).2

/-- A row of `LoadSpecifiedTypeVarPlace`, for one of the tables of views, shops and restaurants. -/
def loadVarPlaceRow (table : Table) (d : PrivateConstData) (row : Row) : PrivateConstData :=
  match row.key with
  | none => d
  | some (vid, ptid) =>
    let d := d.delLYPlace vid ptid
    let d := if row.refer.getD "" ≠ "" ∧ row.disable = 1 then
      d.insert2Shield (row.refer.getD "") ptid else d
    if dangling base row ∨ row.disable = 1 then d
    else if row.mapInfo.all addId2Grid then (d.doInsert (row.place table vid ptid)).2
    else d

def updateRow (table : Table) : PrivateConstData → Row → PrivateConstData :=
  match table with
  | .city => updateCityRow
  | .hotel => updateHotelRow base
  | .attraction | .shopping | .restaurant => loadVarPlaceRow base table

/-- `SwitchUpdate` for the changed rows of a table. -/
def update (d : PrivateConstData) (batch : Table × List Row) : PrivateConstData :=
  batch.2.foldl (updateRow base batch.1) d

/-- `LoadPrivateData`. -/
def load (content : Table → List Row) : PrivateConstData :=
  [Table.city, .hotel, .attraction, .restaurant, .shopping].foldl
    (fun d table => d.update base (table, content table)) {}

end PrivateConstData

/-- The table after some of its rows have changed. -/
def upsert (rows changed : List Row) : List Row :=
  rows.filter (fun row => ∀ row' ∈ changed, row'.id ≠ row.id) ++ changed

def commit (content : Table → List Row) (batch : Table × List Row) : Table → List Row :=
  Function.update content batch.1 (upsert (content batch.1) batch.2)

end PPView.PrivateData
