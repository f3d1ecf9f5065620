import PPView.PrivateData.Batches
import PPView.PrivateData.Index

/-!
# Updating and reloading

Loading the tables and updating changed rows are the same run of batches, from the empty data set.
What a run leaves behind depends on the tables at its end only, up to the shields, which are never
taken back.
-/

namespace PPView.PrivateData

variable {used : String → String → Prop} {live : String → Option Place} {d : PrivateConstData}
  {base : String → Bool} {rows : Table → Row → Prop} {content : Table → List Row}

/-! ## Runs -/

/-- The batches as which the tables are loaded. -/
def loadBatches (content : Table → List Row) : List (Table × List Row) :=
  [Table.city, .hotel, .attraction, .restaurant, .shopping].map fun table => (table, content table)

theorem PrivateConstData.load_eq (base : String → Bool) (content : Table → List Row) :
    load base content = (loadBatches content).foldl (update base) {} := rfl

theorem foldl_commit_loadBatches (content : Table → List Row) :
    (loadBatches content).foldl commit (fun _ => []) = content := by
  funext table
  cases table <;> rfl

theorem exists_mem_loadBatches (p : Table → Row → Prop) :
    (∃ batch ∈ loadBatches content, ∃ row ∈ batch.2, p batch.1 row) ↔
      ∃ table, ∃ row ∈ content table, p table row := by
  constructor
  · rintro ⟨batch, hbatch, row, hrow, hp⟩
    obtain ⟨table, -, rfl⟩ := List.mem_map.mp hbatch
    exact ⟨table, row, hrow, hp⟩
  · rintro ⟨table, row, hrow, hp⟩
    exact ⟨(table, content table), List.mem_map.mpr ⟨table, by cases table <;> decide, rfl⟩, row,
      hrow, hp⟩

/-- No batch disables a city that is there before it. -/
def KeepsAllCities (content : Table → List Row) : List (Table × List Row) → Prop
  | [] => True
  | batch :: batches => KeepsCities content batch ∧ KeepsAllCities (commit content batch) batches

/-- A row that a table has at first or that is in a batch. -/
def Occurs (content : Table → List Row) (batches : List (Table × List Row)) (table : Table)
    (row : Row) : Prop :=
  row ∈ content table ∨ ∃ batch ∈ batches, batch.1 = table ∧ row ∈ batch.2

/-- No id is ever used by two rows or two tenants. -/
structure History (content : Table → List Row) (batches : List (Table × List Row)) : Prop where
  oneRow : OneRow (Occurs content batches)
  content : ∀ table, Distinct (content table)
  batches : ∀ batch ∈ batches, Distinct batch.2

variable {batches : List (Table × List Row)}

theorem mem_commit {batch : Table × List Row} {table : Table} {row : Row}
    (h : row ∈ commit content batch table) :
    row ∈ content table ∨ batch.1 = table ∧ row ∈ batch.2 := by
  rcases mem_commit_iff.mp h with ⟨hold, -⟩ | ⟨ht, hnew⟩
  · exact .inl hold
  · exact .inr ⟨ht.symm, hnew⟩

theorem mem_foldl_commit {table : Table} {row : Row}
    (h : row ∈ batches.foldl commit content table) : Occurs content batches table row := by
  induction batches generalizing content with
  | nil => exact .inl h
  | cons batch batches ih =>
    rcases ih h with h | ⟨b, hb, hrest⟩
    · rcases mem_commit h with h | h
      · exact .inl h
      · exact .inr ⟨batch, List.mem_cons_self, h⟩
    · exact .inr ⟨b, List.mem_cons_of_mem _ hb, hrest⟩

theorem Distinct.upsert {old changed : List Row} (hold : Distinct old) (hnew : Distinct changed) :
    Distinct (upsert old changed) := by
  refine List.pairwise_append.mpr ⟨hold.filter _, hnew, fun row hrow row' hrow' _ heq => ?_⟩
  have hnot := (List.mem_filter.mp hrow).2
  simp only [decide_eq_true_eq] at hnot
  exact hnot row' hrow' heq.symm

theorem distinct_foldl_commit (hcontent : ∀ table, Distinct (content table))
    (hbatches : ∀ batch ∈ batches, Distinct batch.2) (table : Table) :
    Distinct (batches.foldl commit content table) := by
  induction batches generalizing content with
  | nil => exact hcontent table
  | cons batch batches ih =>
    obtain ⟨hbatch, hbatches⟩ := List.forall_mem_cons.mp hbatches
    refine ih (fun table' => ?_) hbatches
    rw [commit, Function.update_apply]
    split_ifs
    · exact (hcontent _).upsert hbatch
    · exact hcontent table'

theorem keepsCities_of_ne {batch : Table × List Row} (h : batch.1 ≠ .city) :
    KeepsCities content batch :=
  fun hcity => absurd hcity h

/-- The cities are loaded first, when there is none. -/
theorem keepsAllCities_loadBatches (content : Table → List Row) :
    KeepsAllCities (fun _ => []) (loadBatches content) := by
  refine ⟨fun _ row _ _ row' hrow' => absurd hrow' List.not_mem_nil, ?_⟩
  have hrest {table : Table} (h : table ≠ .city) {content' : Table → List Row} :
      KeepsCities content' (table, content table) := keepsCities_of_ne h
  exact ⟨hrest (by decide), hrest (by decide), hrest (by decide), hrest (by decide), trivial⟩

theorem keepsAllCities_append {batches' : List (Table × List Row)}
    (h : KeepsAllCities content batches)
    (h' : KeepsAllCities (batches.foldl commit content) batches') :
    KeepsAllCities content (batches ++ batches') := by
  induction batches generalizing content with
  | nil => exact h'
  | cons batch batches ih => exact ⟨h.1, ih h.2 h'⟩

namespace PrivateConstData

theorem foldl_update (hone : OneRow rows) (hused : Apart (UsedBy rows))
    (h : Rep (UsedBy rows) d live) (hagrees : Agrees base content live)
    (hcontent : ∀ table, ∀ row ∈ content table, rows table row)
    (hbatches : ∀ batch ∈ batches, Distinct batch.2 ∧ ∀ row ∈ batch.2, rows batch.1 row)
    (hcities : KeepsAllCities content batches) :
    ∃ live', Rep (UsedBy rows) (batches.foldl (update base) d) live' ∧
      Agrees base (batches.foldl commit content) live' := by
  induction batches generalizing content d live with
  | nil => exact ⟨live, h, hagrees⟩
  | cons batch batches ih =>
    obtain ⟨hbatch, hbatches⟩ := List.forall_mem_cons.mp hbatches
    obtain ⟨live', hrep, hagrees'⟩ := update_spec base hone hused h hagrees hcontent hbatch.2
      hbatch.1 hcities.1
    refine ih hrep hagrees' (fun table row hrow => ?_) hbatches hcities.2
    rcases mem_commit hrow with hold | ⟨rfl, hnew⟩
    · exact hcontent table row hold
    · exact hbatch.2 row hnew

theorem rep_empty : Rep used {} fun _ => none :=
  ⟨isLive_empty, repPlaces_empty, repCities_empty, nofun⟩

theorem agrees_empty (base : String → Bool) : Agrees base (fun _ => []) fun _ => none :=
  ⟨nofun, fun _ => rfl⟩

/-- Loading and then updating is a run of batches from the empty data set. -/
theorem foldl_update_load (base : String → Bool) (batches : List (Table × List Row))
    (hone : OneRow rows) (hused : Apart (UsedBy rows))
    (hcontent : ∀ table, Distinct (content table) ∧ ∀ row ∈ content table, rows table row)
    (hbatches : ∀ batch ∈ batches, Distinct batch.2 ∧ ∀ row ∈ batch.2, rows batch.1 row)
    (hcities : KeepsAllCities content batches) :
    ∃ live, Rep (UsedBy rows) (batches.foldl (update base) (load base content)) live ∧
      Agrees base (batches.foldl commit content) live := by
  have hload : ∀ batch ∈ loadBatches content,
      Distinct batch.2 ∧ ∀ row ∈ batch.2, rows batch.1 row := by
    intro batch hbatch
    obtain ⟨table, -, rfl⟩ := List.mem_map.mp hbatch
    exact hcontent table
  have hall : ∀ batch ∈ loadBatches content ++ batches,
      Distinct batch.2 ∧ ∀ row ∈ batch.2, rows batch.1 row := fun batch hbatch =>
    (List.mem_append.mp hbatch).elim (hload batch) (hbatches batch)
  have hkeeps : KeepsAllCities (fun _ => []) (loadBatches content ++ batches) :=
    keepsAllCities_append (keepsAllCities_loadBatches content)
      (by rwa [foldl_commit_loadBatches])
  obtain ⟨live, hrep, hagrees⟩ := foldl_update hone hused rep_empty (agrees_empty base)
    (fun _ _ hrow => absurd hrow List.not_mem_nil) hall
    hkeeps
  rw [List.foldl_append, foldl_commit_loadBatches] at hagrees
  rw [List.foldl_append, ← load_eq] at hrep
  exact ⟨live, hrep, hagrees⟩

end PrivateConstData

theorem Agrees.live_eq {content' : Table → List Row} {live' : String → Option Place}
    (h : Agrees base content live) (h' : Agrees base content' live')
    (hsame : ∀ table row, row ∈ content table ↔ row ∈ content' table) : live = live' := by
  funext id
  by_cases hrow : ∃ table, ∃ row ∈ content table, ∃ ptid, row.key = some (id, ptid)
  · obtain ⟨table, row, hrow, ptid, hkey⟩ := hrow
    rw [h.of_mem hrow hkey, h'.of_mem ((hsame table row).mp hrow) hkey]
  · push Not at hrow
    rw [h.none hrow, h'.none fun table row hrow' => hrow table row ((hsame table row).mpr hrow')]

/-- The live places determine the data set, up to the shields. -/
theorem Rep.eq {d' : PrivateConstData} (h : Rep used d live) (h' : Rep used d' live) :
    d.places = d'.places ∧ d.cityPlaces = d'.cityPlaces := by
  constructor
  · funext m key
    exact Option.ext fun p => by
      rw [h.places m key p, h'.places m key p]
  · funext m ptid cid
    exact Finset.ext fun id => by rw [h.cities, h'.cities]

/-! ## Shields -/

/-- The row hides a public place from its tenant. -/
def Row.Shields (row : Row) (table : Table) (ptid refer : String) : Prop :=
  table ≠ .city ∧ table ≠ .hotel ∧ (∃ id, row.key = some (id, ptid)) ∧
    row.refer.getD "" = refer ∧ refer ≠ "" ∧ row.disable = 1

namespace PrivateConstData

theorem mem_shields_insert2Shield {id ptid id' ptid' : String} (hptid : ptid ≠ "") :
    id' ∈ (d.insert2Shield id ptid).shields ptid' ↔
      id' ∈ d.shields ptid' ∨ ptid' = ptid ∧ id' = id := by
  rw [insert2Shield, if_pos hptid]
  dsimp only
  rw [Function.update_apply]
  split_ifs with h
  · subst h
    simp [or_comm]
  · simp [h]

theorem mem_shields_updateRow {table : Table} {row : Row} {ptid refer : String} :
    refer ∈ (updateRow base table d row).shields ptid ↔
      refer ∈ d.shields ptid ∨ row.Shields table ptid refer := by
  cases hkey : row.key with
  | none => simp [updateRow_of_key_eq_none hkey, Row.Shields, hkey]
  | some key =>
    obtain ⟨id, ptid'⟩ := key
    rw [Row.Shields, hkey]
    cases table
    case city =>
      rw [updateRow, updateCityRow, hkey]
      split_ifs <;> simp
    case hotel =>
      rw [updateRow, updateHotelRow, hkey]
      dsimp only
      split_ifs <;> simp
    all_goals
      rw [updateRow, loadVarPlaceRow, hkey]
      dsimp only
      have hrest (d₁ : PrivateConstData) (p : Place) :
          (if dangling base row ∨ row.disable = 1 then d₁
            else if row.mapInfo.all addId2Grid then (d₁.doInsert p).2 else d₁).shields =
            d₁.shields := by
        split_ifs <;> simp
      rw [hrest]
      by_cases hshield : row.refer.getD "" ≠ "" ∧ row.disable = 1
      · rw [if_pos hshield, mem_shields_insert2Shield (Row.key_eq_some hkey).2.2.2,
          shields_delLYPlace]
        refine or_congr_right ⟨?_, ?_⟩
        · rintro ⟨rfl, rfl⟩
          exact ⟨by decide, by decide, ⟨id, rfl⟩, rfl, hshield⟩
        · rintro ⟨-, -, ⟨_, hkey'⟩, rfl, -⟩
          exact ⟨(Prod.mk.inj (Option.some.inj hkey')).2.symm, rfl⟩
      · rw [if_neg hshield, shields_delLYPlace]
        refine (or_iff_left ?_).symm
        rintro ⟨-, -, -, rfl, hrefer⟩
        exact hshield hrefer

theorem mem_shields_update {batch : Table × List Row} {ptid refer : String} :
    refer ∈ (d.update base batch).shields ptid ↔
      refer ∈ d.shields ptid ∨ ∃ row ∈ batch.2, row.Shields batch.1 ptid refer := by
  obtain ⟨table, changed⟩ := batch
  rw [update]
  dsimp only
  induction changed generalizing d with
  | nil => simp
  | cons row changed ih =>
    rw [List.foldl_cons, ih, mem_shields_updateRow, or_assoc]
    simp only [List.mem_cons, exists_eq_or_imp]

theorem mem_shields_foldl_update {ptid refer : String} :
    refer ∈ (batches.foldl (update base) d).shields ptid ↔
      refer ∈ d.shields ptid ∨ ∃ batch ∈ batches, ∃ row ∈ batch.2,
        row.Shields batch.1 ptid refer := by
  induction batches generalizing d with
  | nil => simp
  | cons batch batches ih =>
    rw [List.foldl_cons, ih, mem_shields_update, or_assoc]
    simp only [List.mem_cons, exists_eq_or_imp]

end PrivateConstData

/-! ## Hot update -/

/-- The places and the lists of the cities are those of a fresh load, and the shields are those of
all rows that have occurred. -/
theorem hotUpdate_spec (base : String → Bool) (h : History content batches)
    (hapart : Apart (UsedBy (Occurs content batches))) (hcities : KeepsAllCities content batches)
    {final : Table → List Row}
    (hfinal : ∀ table, (final table).Perm (batches.foldl commit content table)) :
    let hot := batches.foldl (PrivateConstData.update base) (.load base content)
    let fresh := PrivateConstData.load base final
    hot.places = fresh.places ∧ hot.cityPlaces = fresh.cityPlaces ∧
      ∀ ptid refer, refer ∈ hot.shields ptid ↔
        ∃ table row, Occurs content batches table row ∧ row.Shields table ptid refer := by
  intro hot fresh
  have hbatches : ∀ batch ∈ batches, Distinct batch.2 ∧
      ∀ row ∈ batch.2, Occurs content batches batch.1 row := fun batch hbatch =>
    ⟨h.batches batch hbatch, fun row hrow => .inr ⟨batch, hbatch, rfl, hrow⟩⟩
  have hcontent : ∀ table, Distinct (content table) ∧
      ∀ row ∈ content table, Occurs content batches table row := fun table =>
    ⟨h.content table, fun row hrow => .inl hrow⟩
  have hnew : ∀ table, Distinct (final table) ∧
      ∀ row ∈ final table, Occurs content batches table row := fun table => by
    refine ⟨?_, fun row hrow => mem_foldl_commit ((hfinal table).mem_iff.mp hrow)⟩
    refine ((hfinal table).pairwise_iff fun hne hid heq => hne ?_ heq.symm).mpr
      (distinct_foldl_commit h.content h.batches table)
    rwa [← heq]
  obtain ⟨live, hrep, hagrees⟩ := PrivateConstData.foldl_update_load base batches h.oneRow
    hapart hcontent hbatches hcities
  obtain ⟨live', hrep', hagrees'⟩ := PrivateConstData.foldl_update_load base [] h.oneRow hapart
    hnew nofun trivial
  obtain rfl := hagrees.live_eq hagrees' fun table row => (hfinal table).mem_iff.symm
  refine ⟨(hrep.eq hrep').1, (hrep.eq hrep').2, fun ptid refer => ?_⟩
  rw [PrivateConstData.mem_shields_foldl_update, PrivateConstData.load_eq,
    PrivateConstData.mem_shields_foldl_update, exists_mem_loadBatches fun table row =>
      row.Shields table ptid refer]
  constructor
  · rintro ((hempty | ⟨table, row, hrow, hshield⟩) | ⟨batch, hbatch, row, hrow, hshield⟩)
    · exact absurd hempty (Finset.notMem_empty refer)
    · exact ⟨table, row, .inl hrow, hshield⟩
    · exact ⟨batch.1, row, .inr ⟨batch, hbatch, rfl, hrow⟩, hshield⟩
  · rintro ⟨table, row, hrow | ⟨batch, hbatch, rfl, hrow⟩, hshield⟩
    · exact .inl (.inr ⟨table, row, hrow, hshield⟩)
    · exact .inr ⟨batch, hbatch, row, hrow, hshield⟩

/-! ## Examples -/

/-- The tables with the given rows. -/
def tablesOf (entries : List (Table × Row)) (table : Table) : List Row :=
  entries.filterMap fun entry => if entry.1 = table then some entry.2 else none

/-- The rows that the tables have at first and those of the batches. -/
def entriesOf (entries : List (Table × Row)) (batches : List (Table × List Row)) :
    List (Table × Row) :=
  entries ++ batches.flatMap fun batch => batch.2.map (Prod.mk batch.1)

theorem mem_entriesOf {entries : List (Table × Row)} {table : Table} {row : Row}
    (h : Occurs (tablesOf entries) batches table row) :
    (table, row) ∈ entriesOf entries batches := by
  rcases h with h | ⟨batch, hbatch, rfl, hrow⟩
  · obtain ⟨⟨table', row'⟩, hentry, hrow⟩ := List.mem_filterMap.mp h
    split_ifs at hrow with ht
    obtain rfl := Option.some.inj hrow
    exact List.mem_append_left _ (ht ▸ hentry)
  · exact List.mem_append_right _ (List.mem_flatMap.mpr ⟨batch, hbatch, List.mem_map_of_mem hrow⟩)

theorem history_of_entriesOf {entries : List (Table × Row)}
    (howner : ∀ e ∈ entriesOf entries batches, ∀ e' ∈ entriesOf entries batches,
      e.2.id ≠ none → e.2.id = e'.2.id → e.1 = e'.1 ∧ e.2.ptid = e'.2.ptid)
    (hcoord : ∀ e ∈ entriesOf entries batches, e.2.mapInfo = none)
    (hcontent : ∀ table, Distinct (tablesOf entries table))
    (hbatches : ∀ batch ∈ batches, Distinct batch.2) : History (tablesOf entries) batches := by
  refine ⟨⟨fun h h' => howner _ (mem_entriesOf h) _ (mem_entriesOf h'), fun h => ?_⟩, hcontent,
    hbatches⟩
  rw [hcoord _ (mem_entriesOf h)]
  rfl

theorem distinct_singleton (row : Row) : Distinct [row] := List.pairwise_singleton _ _

/-- A view that stands for the public one under `base`. -/
def louvre (disable : Int) : Row where
  id := some "louvre"
  ptid := some "agency"
  refer := some "base"
  disable := disable
  cids := ["paris"]

/-- A shop whose id is the key of the view. -/
def gift : Row where
  id := some "louvre_agency"
  ptid := some "agency"
  cids := ["paris"]

def rome (disable : Int) : Row where
  id := some "rome"
  ptid := some "agency"
  disable := disable

/-- A hotel whose id is that of the hotel that is made for the city. -/
def romeInn : Row where
  id := some "coreHotelByMakeCidrome"
  ptid := some "agency"
  cids := ["rome"]

theorem distinct_tablesOf_pair {e e' : Table × Row} (h : e.1 ≠ e'.1) (table : Table) :
    Distinct (tablesOf [e, e'] table) := by
  rw [tablesOf, List.filterMap_cons, List.filterMap_cons, List.filterMap_nil]
  by_cases he : e.1 = table
  · rw [if_pos he, if_neg fun he' => h (he.trans he'.symm)]
    exact distinct_singleton _
  · rw [if_neg he]
    by_cases he' : e'.1 = table
    · rw [if_pos he']
      exact distinct_singleton _
    · rw [if_neg he']
      exact .nil

theorem distinct_tablesOf_singleton (e : Table × Row) (table : Table) :
    Distinct (tablesOf [e] table) := by
  rw [tablesOf, List.filterMap_cons, List.filterMap_nil]
  by_cases he : e.1 = table
  · rw [if_pos he]
    exact distinct_singleton _
  · rw [if_neg he]
    exact .nil

theorem history_singleton {table : Table} {row row' : Row} (hid : row.id = row'.id)
    (hptid : row.ptid = row'.ptid) (hmap : row.mapInfo = none) (hmap' : row'.mapInfo = none) :
    History (tablesOf [(table, row)]) [(table, [row'])] := by
  refine history_of_entriesOf ?_ ?_ (distinct_tablesOf_singleton _) ?_
  · simp [entriesOf, hid, hptid]
  · simp [entriesOf, hmap, hmap']
  · simp [distinct_singleton]

theorem apart_singleton {table : Table} {row row' : Row} {id ptid : String} (hid : row.id = some id)
    (hid' : row'.id = some id) (hptid : row.ptid = some ptid) (hptid' : row'.ptid = some ptid)
    (hbare : id ≠ qualified id ptid) (hcore : id.toList.head? ≠ some 'c') :
    Apart (UsedBy (Occurs (tablesOf [(table, row)]) [(table, [row'])])) := by
  have hused {i t : String}
      (h : UsedBy (Occurs (tablesOf [(table, row)]) [(table, [row'])]) i t) :
      i = id ∧ t = ptid := by
    obtain ⟨_, r, hr, hkey⟩ := h
    obtain ⟨hi, ht, -⟩ := Row.key_eq_some hkey
    have hmem := mem_entriesOf hr
    simp only [entriesOf, List.flatMap_cons, List.flatMap_nil, List.map_cons, List.map_nil,
      List.cons_append, List.nil_append, List.mem_cons, Prod.mk.injEq, List.not_mem_nil,
      or_false] at hmem
    rcases hmem with ⟨-, rfl⟩ | ⟨-, rfl⟩
    · exact ⟨Option.some.inj (hi.symm.trans hid), Option.some.inj (ht.symm.trans hptid)⟩
    · exact ⟨Option.some.inj (hi.symm.trans hid'), Option.some.inj (ht.symm.trans hptid')⟩
  refine ⟨fun hi hi' => ?_, fun hi hi' => ?_, fun hi hi' _ => ?_, fun hi cid => ?_⟩
  · rw [(hused hi).2, (hused hi').2]
  · rwa [(hused hi).1, (hused hi').1, (hused hi').2]
  · rw [(hused hi).1, (hused hi').1]
  · rw [(hused hi).1]
    exact ne_coreHotelId hcore cid

theorem history_louvre : History (tablesOf [(.attraction, louvre 1)]) [(.attraction, [louvre 0])] :=
  history_singleton rfl rfl rfl rfl

theorem apart_louvre : Apart (UsedBy (Occurs (tablesOf [(.attraction, louvre 1)])
    [(.attraction, [louvre 0])])) :=
  apart_singleton rfl rfl rfl rfl (by decide) (by decide)

theorem hotUpdate_louvre :
    ([(Table.attraction, [louvre 0])].foldl (PrivateConstData.update fun _ => true)
        (.load (fun _ => true) (tablesOf [(.attraction, louvre 1)]))).cityPlaces =
      (PrivateConstData.load (fun _ => true) ([(Table.attraction, [louvre 0])].foldl commit
        (tablesOf [(.attraction, louvre 1)]))).cityPlaces :=
  (hotUpdate_spec (fun _ => true) history_louvre apart_louvre
    ⟨keepsCities_of_ne (by decide), trivial⟩ fun _ => .rfl).2.1

/-- The data set when a batch is processed, and when the tables are loaded afresh. -/
def hotAndFresh (entries : List (Table × Row)) (batch : Table × List Row) :
    PrivateConstData × PrivateConstData :=
  ((PrivateConstData.load (fun _ => true) (tablesOf entries)).update (fun _ => true) batch,
    .load (fun _ => true) (commit (tablesOf entries) batch))

/-- A shield stays when its row is no longer disabled, and a city stays when it is disabled. A row
takes away the place whose id is its key, or the hotel that is made for a city. -/
theorem hotUpdate_ne_load :
    (History (tablesOf [(.attraction, louvre 1)]) [(.attraction, [louvre 0])] ∧
      let (hot, fresh) := hotAndFresh [(.attraction, louvre 1)] (.attraction, [louvre 0])
      hot.shields "agency" ≠ fresh.shields "agency") ∧
    (History (tablesOf [(.city, rome 0)]) [(.city, [rome 1])] ∧
      let (hot, fresh) := hotAndFresh [(.city, rome 0)] (.city, [rome 1])
      hot.places .citys "rome" ≠ fresh.places .citys "rome") ∧
    (History (tablesOf [(.attraction, louvre 0), (.shopping, gift)])
        [(.attraction, [louvre 0])] ∧
      let (hot, fresh) := hotAndFresh [(.attraction, louvre 0), (.shopping, gift)]
        (.attraction, [louvre 0])
      hot.cityPlaces .cityShops "agency" "paris" ≠ fresh.cityPlaces .cityShops "agency" "paris") ∧
    History (tablesOf [(.city, rome 0), (.hotel, romeInn)]) [(.city, [rome 0])] ∧
      let (hot, fresh) := hotAndFresh [(.city, rome 0), (.hotel, romeInn)] (.city, [rome 0])
      hot.places .hotels "coreHotelByMakeCidrome" ≠
        fresh.places .hotels "coreHotelByMakeCidrome" := by
  refine ⟨⟨history_louvre, ?_⟩, ⟨history_singleton rfl rfl rfl rfl, ?_⟩, ⟨?_, ?_⟩, ?_, ?_⟩
  · decide +kernel
  · decide +kernel
  · exact history_of_entriesOf (by decide +kernel) (by decide +kernel)
      (distinct_tablesOf_pair (by decide)) (by simp [distinct_singleton])
  · decide +kernel
  · exact history_of_entriesOf (by decide +kernel) (by decide +kernel)
      (distinct_tablesOf_pair (by decide)) (by simp [distinct_singleton])
  · decide +kernel

end PPView.PrivateData
