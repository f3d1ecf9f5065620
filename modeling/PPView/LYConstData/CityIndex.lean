import Mathlib.Logic.Function.Basic
import PPView.ToolFunc

/-!
# The city index of the public data

`LYConstData::LoadSpecifiedTypeVarPlace` makes a view, a shop or a restaurant of each row of a table
and lists its id under the cities of the row. A row whose id is there already only adds its cities
to the place.
-/

namespace PPView.LYConstData

open ToolFunc (uniqListOrder mergeListUniq mem_uniqListOrder mem_mergeListUniq nodup_uniqListOrder)

/-- The types of the tables. -/
inductive VarType where
  | view | shop | restaurant
  deriving DecidableEq

/-- The maps from ids to places. -/
inductive PlaceIndex where
  | id2place | id2restaurant
  deriving DecidableEq

def VarType.index : VarType → PlaceIndex
  | .view | .shop => .id2place
  | .restaurant => .id2restaurant

/-- A row of a table, where `none` is a null pointer. -/
structure Row where
  id : Option String
  map_info : Option String := none
  openRule : Option String := none
  city_id : Option String := none
  nearCity : Option String := none
  rcmd_intensity : Option String := none
  intensity : Option String := none
  deriving DecidableEq

/-- A stored place. The type of a place of another table is none. -/
structure VarPlace where
  _t : Option VarType
  _cid_list : List String

/-- The cities and the checks of a row. -/
structure LoadWorld where
  IsCity : String → Prop
  decIsCity : DecidablePred IsCity
  uppers : String → Option (List String)
  checkOpenClose : String → Bool
  m_delOpenClose : Bool
  fixViewIntensity : String → String → Bool

instance (w : LoadWorld) : DecidablePred w.IsCity := w.decIsCity

structure LoadState where
  places : PlaceIndex → String → Option VarPlace
  cityPlaces : VarType → String → Finset String

namespace Row

variable (w : LoadWorld) (typeI : VarType) (row : Row)

def addId2Grid (mapInfo : String) : Bool := ',' ∈ mapInfo.toList

/-- The row is not skipped. A restaurant is added to the grid later. -/
def Accepted : Prop :=
  row.id.isSome ∧
    (typeI ≠ .restaurant → ∀ mapInfo ∈ row.map_info, addId2Grid mapInfo) ∧
    (∀ rule ∈ row.openRule, rule ≠ "" → w.checkOpenClose rule ∨ ¬ w.m_delOpenClose) ∧
    (typeI = .view → w.fixViewIntensity (row.rcmd_intensity.getD "2-1")
      (row.intensity.getD "2-1:900_-1_no"))

instance : Decidable (row.Accepted w typeI) := inferInstanceAs (Decidable (_ ∧ _ ∧ _ ∧ _))

/-- The parts between bars that are not empty. -/
def sepNearCity (nearCity : String) : List String :=
  ((nearCity.toList.splitOn '|').map String.ofList).filter (· ≠ "")

/-- The cities that the row names. -/
def cities : List String :=
  let upper :=
    match row.city_id with
    | some cid => if cid ≠ "" then (w.uppers cid).getD [] ++ [cid] else []
    | none => []
  let near :=
    match row.nearCity with
    | some nearCity => if nearCity ≠ "" then sepNearCity nearCity else []
    | none => []
  upper ++ near

end Row

namespace LoadState

variable (w : LoadWorld)

def setPlace (s : LoadState) (index : PlaceIndex) (id : String) (place : VarPlace) : LoadState :=
  { s with
    places := Function.update s.places index
      (Function.update (s.places index) id (some place)) }

/-- `Insert2CityPlaceMap`, for the map of the type. -/
def insert2CityPlaceMap (typeI : VarType) (id : String) (s : LoadState) (cid : String) : LoadState :=
  { s with
    cityPlaces := Function.update s.cityPlaces typeI
      (Function.update (s.cityPlaces typeI) cid (insert id (s.cityPlaces typeI cid))) }

/-- A turn of the loop over the rows. -/
def loadRow (typeI : VarType) (s : LoadState) (row : Row) : LoadState :=
  if row.Accepted w typeI then
    let id := row.id.getD ""
    let cidList := uniqListOrder (row.cities w)
    match s.places typeI.index id with
    | some stored =>
      s.setPlace typeI.index id
        { stored with _cid_list := mergeListUniq cidList stored._cid_list }
    | none =>
      let cidList := cidList.filter (w.IsCity ·)
      cidList.foldl (insert2CityPlaceMap typeI id) (s.setPlace typeI.index id ⟨typeI, cidList⟩)
  else s

def loadSpecifiedTypeVarPlace (s : LoadState) (table : VarType × List Row) : LoadState :=
  table.2.foldl (loadRow w table.1) s

/-- The tables are loaded one after the other. -/
def loadTables (tables : List (VarType × List Row)) (s : LoadState) : LoadState :=
  tables.foldl (loadSpecifiedTypeVarPlace w) s

variable {w} {s : LoadState} {typeI : VarType} {id : String}

theorem places_setPlace (index : PlaceIndex) (place : VarPlace) (index' : PlaceIndex)
    (id' : String) : (s.setPlace index id place).places index' id' =
      if index' = index ∧ id' = id then some place else s.places index' id' := by
  by_cases hindex : index' = index
  · subst hindex
    simp [setPlace, Function.update_apply]
  · simp [setPlace, hindex]

theorem places_foldl_insert (cids : List String) :
    (cids.foldl (insert2CityPlaceMap typeI id) s).places = s.places := by
  induction cids generalizing s with
  | nil => rfl
  | cons cid cids ih => exact ih

theorem mem_cityPlaces_foldl_insert {cids : List String} {typeI' : VarType} {id' cid : String} :
    id' ∈ (cids.foldl (insert2CityPlaceMap typeI id) s).cityPlaces typeI' cid ↔
      id' ∈ s.cityPlaces typeI' cid ∨ typeI' = typeI ∧ cid ∈ cids ∧ id' = id := by
  induction cids generalizing s with
  | nil => simp
  | cons cid' cids ih =>
    rw [List.foldl_cons, ih]
    by_cases htype : typeI' = typeI
    · subst htype
      by_cases hcid : cid = cid'
      · subst hcid
        simp [insert2CityPlaceMap]
        grind
      · simp [insert2CityPlaceMap, hcid]
    · simp [insert2CityPlaceMap, htype]

end LoadState

/-! ## The entry of an id -/

/-- What is stored under an id, and the cities that have the id under a type. -/
@[ext]
structure Entry where
  place : Option VarPlace
  Listed : VarType → String → Prop

def LoadState.entry (s : LoadState) (index : PlaceIndex) (id : String) : Entry where
  place := s.places index id
  Listed typeI cid := typeI.index = index ∧ id ∈ s.cityPlaces typeI cid

/-- A row of the id. -/
def Entry.load (w : LoadWorld) (e : Entry) (row : VarType × Row) : Entry :=
  let cidList := uniqListOrder (row.2.cities w)
  match e.place with
  | some stored =>
    { e with place := some { stored with _cid_list := mergeListUniq cidList stored._cid_list } }
  | none =>
    let cidList := cidList.filter (w.IsCity ·)
    { place := some ⟨row.1, cidList⟩
      Listed := fun typeI cid => e.Listed typeI cid ∨ typeI = row.1 ∧ cid ∈ cidList }

/-- The row is one of the id, and is not skipped. -/
def Concerns (w : LoadWorld) (index : PlaceIndex) (id : String) (row : VarType × Row) : Prop :=
  row.1.index = index ∧ row.2.id = some id ∧ row.2.Accepted w row.1

instance (w : LoadWorld) (index : PlaceIndex) (id : String) :
    DecidablePred (Concerns w index id) := fun _ => inferInstanceAs (Decidable (_ ∧ _ ∧ _))

variable {w : LoadWorld} {index : PlaceIndex} {id : String} {row : VarType × Row}
  {tables : List (VarType × List Row)}

theorem entry_loadRow (s : LoadState) (row : VarType × Row) :
    (s.loadRow w row.1 row.2).entry index id =
      if Concerns w index id row then (s.entry index id).load w row else s.entry index id := by
  obtain ⟨typeI, row⟩ := row
  by_cases haccepted : row.Accepted w typeI
  · obtain ⟨id', hid⟩ := Option.isSome_iff_exists.mp haccepted.1
    simp only [LoadState.loadRow, if_pos haccepted, hid, Option.getD_some]
    by_cases hsame : typeI.index = index ∧ id' = id
    · obtain ⟨rfl, rfl⟩ := hsame
      rw [if_pos ⟨rfl, hid, haccepted⟩]
      cases hplace : s.places typeI.index id' with
      | some stored =>
        simp only [LoadState.entry, Entry.load, hplace, LoadState.places_setPlace, and_self, if_true]
        rfl
      | none =>
        ext
        · simp [LoadState.entry, Entry.load, hplace, LoadState.places_foldl_insert,
            LoadState.places_setPlace]
        · simp only [LoadState.entry, Entry.load, hplace, LoadState.mem_cityPlaces_foldl_insert]
          grind [LoadState.setPlace]
    · have hnot : ¬ Concerns w index id (typeI, row) := by
        rintro ⟨hindex, hrow, -⟩
        exact hsame ⟨hindex, Option.some.inj (hid.symm.trans hrow)⟩
      rw [if_neg hnot]
      have hother : ¬ (index = typeI.index ∧ id = id') := fun h => hsame ⟨h.1.symm, h.2.symm⟩
      cases s.places typeI.index id' with
      | some stored =>
        simp only [LoadState.entry, LoadState.places_setPlace, if_neg hother]
        rfl
      | none =>
        ext
        · simp only [LoadState.entry, LoadState.places_foldl_insert, LoadState.places_setPlace,
            if_neg hother]
        · simp only [LoadState.entry, LoadState.mem_cityPlaces_foldl_insert]
          grind [LoadState.setPlace]
  · rw [LoadState.loadRow, if_neg haccepted, if_neg fun h => haccepted h.2.2]

/-- The rows of all tables in the order in which they are loaded. -/
def allRows (tables : List (VarType × List Row)) : List (VarType × Row) :=
  tables.flatMap fun table => table.2.map (table.1, ·)

/-- The rows of an id that are not skipped. -/
def rowsOf (w : LoadWorld) (tables : List (VarType × List Row)) (index : PlaceIndex)
    (id : String) : List (VarType × Row) :=
  (allRows tables).filter (Concerns w index id ·)

theorem index_of_mem_rowsOf (h : row ∈ rowsOf w tables index id) : row.1.index = index :=
  (of_decide_eq_true (List.mem_filter.mp h).2).1

theorem loadTables_eq (s : LoadState) : s.loadTables w tables =
    (allRows tables).foldl (fun s row => s.loadRow w row.1 row.2) s := by
  induction tables generalizing s with
  | nil => rfl
  | cons table tables ih =>
    rw [LoadState.loadTables, List.foldl_cons, allRows, List.flatMap_cons, List.foldl_append,
      List.foldl_map]
    exact ih _

theorem entry_foldl (rows : List (VarType × Row)) (s : LoadState) :
    (rows.foldl (fun s row => s.loadRow w row.1 row.2) s).entry index id =
      (rows.filter (Concerns w index id ·)).foldl (Entry.load w) (s.entry index id) := by
  induction rows generalizing s with
  | nil => rfl
  | cons row rows ih =>
    rw [List.foldl_cons, ih, entry_loadRow]
    by_cases hrow : Concerns w index id row
    · rw [if_pos hrow, List.filter_cons_of_pos (by simpa using hrow), List.foldl_cons]
    · rw [if_neg hrow, List.filter_cons_of_neg (by simpa using hrow)]

/-- An entry after a run is made by the rows of its id alone. -/
theorem entry_loadTables (w : LoadWorld) (tables : List (VarType × List Row)) (s : LoadState)
    (index : PlaceIndex) (id : String) : (s.loadTables w tables).entry index id =
    (rowsOf w tables index id).foldl (Entry.load w) (s.entry index id) := by
  rw [loadTables_eq, entry_foldl, rowsOf]

/-! ## Lists and sets -/

/-- Where a place is there already, its list takes all cities of a row, and no set changes. -/
theorem foldl_load_some (w : LoadWorld) (rows : List (VarType × Row)) (place : VarPlace)
    (Listed : VarType → String → Prop) : ∃ cids : List String,
      rows.foldl (Entry.load w) ⟨some place, Listed⟩ = ⟨some ⟨place._t, cids⟩, Listed⟩ ∧
        (place._cid_list.Nodup → cids.Nodup) ∧
        ∀ cid, cid ∈ cids ↔ cid ∈ place._cid_list ∨ ∃ row ∈ rows, cid ∈ row.2.cities w := by
  induction rows generalizing place with
  | nil => exact ⟨place._cid_list, rfl, id, by simp⟩
  | cons row rows ih =>
    obtain ⟨cids, heq, hnodup, hmem⟩ := ih
      ⟨place._t, mergeListUniq (uniqListOrder (row.2.cities w)) place._cid_list⟩
    refine ⟨cids, heq, fun _ => hnodup nodup_uniqListOrder, fun cid => ?_⟩
    rw [hmem, mem_mergeListUniq, mem_uniqListOrder, or_assoc]
    simp

/-- The entry that the first row of an id makes. -/
theorem entry_first {e : Entry} (hnone : e.place = none) (row : VarType × Row) :
    e.load w row = ⟨some ⟨row.1, (uniqListOrder (row.2.cities w)).filter (w.IsCity ·)⟩,
      fun typeI cid => e.Listed typeI cid ∨
        typeI = row.1 ∧ cid ∈ (uniqListOrder (row.2.cities w)).filter (w.IsCity ·)⟩ := by
  rw [Entry.load, hnone]

/-- No view, shop or restaurant is loaded. -/
structure LoadState.Fresh (s : LoadState) : Prop where
  places : ∀ index id place, s.places index id = some place → place._t = none
  cityPlaces : ∀ typeI cid, s.cityPlaces typeI cid = ∅

/-- The list of a place has the existing cities that the rows of its id name, once each, and these
cities have the place in their sets. -/
structure IndexedPlace (w : LoadWorld) (rows : List (VarType × Row)) (cidList : List String)
    (Listed : String → Prop) : Prop where
  nodup : cidList.Nodup
  named : ∀ cid, cid ∈ cidList ↔ w.IsCity cid ∧ ∃ row ∈ rows, cid ∈ row.2.cities w
  listed : ∀ cid, Listed cid ↔ cid ∈ cidList

/-- Lists and sets are in step, for all views, shops and restaurants. -/
def Indexed (w : LoadWorld) (tables : List (VarType × List Row)) (s : LoadState) : Prop :=
  ∀ typeI id place, s.places typeI.index id = some place → place._t = some typeI →
    IndexedPlace w (rowsOf w tables typeI.index id) place._cid_list
      fun cid => id ∈ s.cityPlaces typeI cid

/-- The repeated rows name nothing but existing cities that the first one names. -/
theorem indexedPlace_iff {first : VarType × Row} {rest : List (VarType × Row)} {cids : List String}
    (hnodup : cids.Nodup)
    (hmem : ∀ cid, cid ∈ cids ↔
      cid ∈ (uniqListOrder (first.2.cities w)).filter (w.IsCity ·) ∨
        ∃ row ∈ rest, cid ∈ row.2.cities w) :
    IndexedPlace w (first :: rest) cids
        (fun cid => cid ∈ (uniqListOrder (first.2.cities w)).filter (w.IsCity ·)) ↔
      ∀ row ∈ rest, ∀ cid ∈ row.2.cities w, w.IsCity cid ∧ cid ∈ first.2.cities w := by
  simp only [List.mem_filter, mem_uniqListOrder, decide_eq_true_eq] at hmem ⊢
  constructor
  · intro h row hrow cid hcid
    have hlisted := (h.listed cid).mpr ((hmem cid).mpr (.inr ⟨row, hrow, hcid⟩))
    exact ⟨hlisted.2, hlisted.1⟩
  · intro h
    have hfirst : ∀ cid, cid ∈ cids ↔ cid ∈ first.2.cities w ∧ w.IsCity cid := by
      intro cid
      rw [hmem]
      refine or_iff_left_of_imp ?_
      rintro ⟨row, hrow, hcid⟩
      exact (h row hrow cid hcid).symm
    refine ⟨hnodup, fun cid => ?_, fun cid => (hfirst cid).symm⟩
    rw [hfirst, and_comm]
    apply and_congr_right
    intro hcity
    rw [List.exists_mem_cons_iff]
    refine ⟨.inl, fun hnamed => ?_⟩
    rcases hnamed with hcid | ⟨row, hrow, hcid⟩
    · exact hcid
    · exact (h row hrow cid hcid).2

/-- What is stored under an id that was free, and the cities that have it. -/
theorem exists_loaded {s : LoadState} (hs : s.Fresh) {first : VarType × Row}
    {rest : List (VarType × Row)} (hnone : s.places index id = none)
    (hrows : rowsOf w tables index id = first :: rest) :
    ∃ cids : List String, (s.loadTables w tables).places index id = some ⟨first.1, cids⟩ ∧
      cids.Nodup ∧
      (∀ cid, cid ∈ cids ↔ cid ∈ (uniqListOrder (first.2.cities w)).filter (w.IsCity ·) ∨
        ∃ row ∈ rest, cid ∈ row.2.cities w) ∧
      (fun cid => id ∈ (s.loadTables w tables).cityPlaces first.1 cid) =
        fun cid => cid ∈ (uniqListOrder (first.2.cities w)).filter (w.IsCity ·) := by
  have hindex : first.1.index = index := index_of_mem_rowsOf (hrows ▸ List.mem_cons_self)
  have hentry := entry_loadTables w tables s index id
  rw [hrows, List.foldl_cons, entry_first hnone] at hentry
  obtain ⟨cids, heq, hnodup, hmem⟩ := foldl_load_some w rest
    ⟨first.1, (uniqListOrder (first.2.cities w)).filter (w.IsCity ·)⟩ _
  rw [heq] at hentry
  refine ⟨cids, congrArg Entry.place hentry, hnodup (nodup_uniqListOrder.filter _), hmem, ?_⟩
  funext cid
  have hlisted := congrFun (congrFun (congrArg Entry.Listed hentry) first.1) cid
  simpa [LoadState.entry, hindex, hs.cityPlaces] using hlisted

/-- The index is right exactly if no row that repeats an id names a city that the first row of the
id does not name, or that does not exist. -/
theorem loadTables_indexed_iff (w : LoadWorld) (tables : List (VarType × List Row)) (s : LoadState)
    (hs : s.Fresh) :
    Indexed w tables (s.loadTables w tables) ↔
      ∀ index id first rest, s.places index id = none → rowsOf w tables index id = first :: rest →
        ∀ row ∈ rest, ∀ cid ∈ row.2.cities w, w.IsCity cid ∧ cid ∈ first.2.cities w := by
  constructor
  · intro h index id first rest hnone hrows
    obtain ⟨cids, hplace, hnodup, hmem, hlisted⟩ := exists_loaded hs hnone hrows
    obtain rfl : first.1.index = index := index_of_mem_rowsOf (hrows ▸ List.mem_cons_self)
    have hindexed := h first.1 id _ hplace rfl
    rw [hrows, hlisted] at hindexed
    exact (indexedPlace_iff hnodup hmem).mp hindexed
  · intro h typeI id place hplace htype
    have hentry := entry_loadTables w tables s typeI.index id
    cases hold : s.places typeI.index id with
    | some old =>
      obtain ⟨cids, heq, -⟩ := foldl_load_some w (rowsOf w tables typeI.index id) old
        (s.entry typeI.index id).Listed
      have hkept : s.entry typeI.index id = ⟨some old, (s.entry typeI.index id).Listed⟩ := by
        rw [LoadState.entry, hold]
      rw [hkept, heq] at hentry
      obtain rfl := Option.some.inj (hplace.symm.trans (congrArg Entry.place hentry))
      rw [hs.places _ _ _ hold] at htype
      contradiction
    | none =>
      cases hrows : rowsOf w tables typeI.index id with
      | nil =>
        rw [hrows, List.foldl_nil] at hentry
        have hnone := (congrArg Entry.place hentry).trans hold
        exact absurd (hplace.symm.trans hnone) (Option.some_ne_none place)
      | cons first rest =>
        obtain ⟨cids, hplace', hnodup, hmem, hlisted⟩ := exists_loaded hs hold hrows
        obtain rfl := Option.some.inj (hplace.symm.trans hplace')
        obtain rfl := Option.some.inj htype
        rw [hlisted]
        exact (indexedPlace_iff hnodup hmem).mpr (h _ id first rest hold hrows)

/-- Two cities, and rules that are never checked. -/
def twoCities : LoadWorld where
  IsCity cid := cid = "a" ∨ cid = "b"
  decIsCity _ := inferInstance
  uppers _ := none
  checkOpenClose _ := true
  m_delOpenClose := true
  fixViewIntensity _ _ := true

def emptyState : LoadState := ⟨fun _ _ => none, fun _ _ => ∅⟩

/-- A view whose second row has another city. -/
def movedView : List (VarType × List Row) :=
  [(.view, [{ id := "v1", city_id := "a" }, { id := "v1", city_id := "b" }])]

theorem fresh_emptyState : emptyState.Fresh :=
  ⟨fun _ _ _ h => (Option.some_ne_none _ h.symm).elim, fun _ _ => rfl⟩

theorem loadTables_indexed_iff_movedView :
    Indexed twoCities movedView (emptyState.loadTables twoCities movedView) ↔
      ∀ index id first rest, emptyState.places index id = none →
        rowsOf twoCities movedView index id = first :: rest →
          ∀ row ∈ rest, ∀ cid ∈ row.2.cities twoCities,
            twoCities.IsCity cid ∧ cid ∈ first.2.cities twoCities :=
  loadTables_indexed_iff twoCities movedView emptyState fresh_emptyState

/-- The view lists the city `b`, and `b` does not list the view. -/
theorem not_indexed_movedView : emptyState.Fresh ∧
    ¬ Indexed twoCities movedView (emptyState.loadTables twoCities movedView) := by
  refine ⟨fresh_emptyState, fun h => ?_⟩
  have hview := (h .view "v1" ⟨some .view, ["a", "b"]⟩ rfl rfl).listed "b"
  revert hview
  decide

end PPView.LYConstData
