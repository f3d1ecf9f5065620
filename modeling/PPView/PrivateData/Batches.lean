import PPView.PrivateData.Live
import PPView.PrivateData.Tables

/-!
# Batches of rows

After the rows of a batch have been deleted and inserted anew, the live places are those of the
rows that the tables have then, as long as no city is disabled that is there.
-/

namespace PPView.PrivateData

variable {used : String → String → Prop} {live : String → Option Place} {d : PrivateConstData}
  {base : String → Bool}

/-! ## Rows -/

/-- The place that a row has when its table is loaded. -/
def rowPlace (base : String → Bool) (table : Table) (row : Row) : Option Place :=
  match row.key with
  | none => none
  | some (id, ptid) =>
    if (table ≠ .city ∧ PrivateConstData.dangling base row) ∨ row.disable = 1 then none
    else some (row.place table id ptid)

/-- A data set without tours stands for live places. -/
structure Rep (used : String → String → Prop) (d : PrivateConstData)
    (live : String → Option Place) : Prop where
  isLive : IsLive used live
  places : RepPlaces d live
  cities : RepCities d live
  noTour : ∀ {id p}, live id = some p → p.cls ≠ .tour

theorem Table.cls_ne_tour (table : Table) : table.cls ≠ .tour := by cases table <;> decide

theorem Row.placeMapOf_place (row : Row) (table : Table) (id ptid : String) :
    ∃ m, placeMapOf (row.place table id ptid).t = some m := by
  cases table
  · exact ⟨.citys, show placeMapOf LY_PLACE_TYPE_CITY = _ by decide⟩
  · exact ⟨.hotels, show placeMapOf LY_PLACE_TYPE_HOTEL = _ by decide⟩
  · exact ⟨.views, show placeMapOf LY_PLACE_TYPE_VIEW = _ by decide⟩
  · exact ⟨.shops, show placeMapOf LY_PLACE_TYPE_SHOP = _ by decide⟩
  · exact ⟨.restaurants, show placeMapOf LY_PLACE_TYPE_RESTAURANT = _ by decide⟩

theorem without_singleton (id : String) :
    without live [id] = Function.update live id none := by
  funext i
  simp [without, Function.update_apply]

namespace Rep

theorem delLYPlace (h : Rep used d live) (hused : Apart used) {id ptid : String}
    (hid : used id ptid) : Rep used (d.delLYPlace id ptid) (Function.update live id none) := by
  have hpoints {id : String} {p : Place} (hp : live id = some p) : p.points = [] :=
    if_neg fun hand => h.noTour hp hand.2
  have hafter : afterDel live id = Function.update live id none := by
    rw [afterDel]
    cases hp : live id with
    | none => rw [Option.elim_none, without_nil, ← hp, Function.update_eq_self]
    | some p => rw [Option.elim_some, hpoints hp, without_singleton]
  have hspec := PrivateConstData.delLYPlace_spec hused h.isLive h.places h.cities
    (fun hp g hg => absurd hg (by simp [hpoints hp])) hid
  rw [hafter] at hspec
  exact ⟨h.isLive.erase id, hspec.1, hspec.2, fun hq => h.noTour (update_none_eq.mp hq).2⟩

theorem doInsert (h : Rep used d live) (hused : Apart used) {p : Place} (hid : p.id ≠ "")
    (hp : used p.id p.ptid) (hnone : live p.id = none) (hcls : p.cls ≠ .tour)
    (hmap : ∃ m, placeMapOf p.t = some m) :
    Rep used (d.doInsert p).2 (Function.update live p.id (some p)) := by
  obtain ⟨m, hm⟩ := hmap
  obtain ⟨d', hinsert, hplaces, hcities⟩ :=
    PrivateConstData.doInsert_spec hused h.isLive h.places h.cities hid hp hnone hm
  rw [hinsert]
  refine ⟨h.isLive.insert hp hm, hplaces, hcities, fun hq => ?_⟩
  rcases update_some_eq.mp hq with ⟨-, rfl⟩ | ⟨-, hq⟩
  · exact hcls
  · exact h.noTour hq

theorem insert2Shield (h : Rep used d live) (refer ptid : String) :
    Rep used (d.insert2Shield refer ptid) live := by
  rw [PrivateConstData.insert2Shield]
  split_ifs
  · exact ⟨h.isLive, h.places, h.cities, h.noTour⟩
  · exact h

end Rep

theorem Row.key_eq_some {row : Row} {id ptid : String} (h : row.key = some (id, ptid)) :
    row.id = some id ∧ row.ptid = some ptid ∧ id ≠ "" ∧ ptid ≠ "" := by
  rw [key] at h
  split at h
  · split_ifs at h with hempty
    obtain ⟨rfl, rfl⟩ := Prod.mk.inj (Option.some.inj h)
    exact ⟨‹_›, ‹_›, not_or.mp hempty⟩
  · contradiction

namespace PrivateConstData

theorem updateRow_of_key_eq_none {row : Row} (h : row.key = none) (table : Table) :
    updateRow base table d row = d := by
  cases table
  case city =>
    rw [updateRow, updateCityRow, h]
    split_ifs <;> rfl
  case hotel => rw [updateRow, updateHotelRow, h]
  all_goals rw [updateRow, loadVarPlaceRow, h]

/-- Once the old place of the id is gone, the place of the row is inserted. -/
theorem doInsert_place_spec (hused : Apart used) {row : Row} (table : Table) {id ptid : String}
    (h : Rep used d (Function.update live id none)) (hkey : row.key = some (id, ptid))
    (hid : used id ptid) : Rep used (d.doInsert (row.place table id ptid)).2
      (Function.update live id (some (row.place table id ptid))) := by
  have hinsert := h.doInsert hused (p := row.place table id ptid) (Row.key_eq_some hkey).2.2.1 hid
    (Function.update_self ..) table.cls_ne_tour (row.placeMapOf_place table id ptid)
  rwa [show (row.place table id ptid).id = id from rfl, Function.update_idem] at hinsert

variable (base)

/-- A row of any table. The disabled row of a city leaves everything as it is. -/
theorem updateRow_spec (hused : Apart used) (h : Rep used d live) {table : Table} {row : Row}
    {id ptid : String} (hkey : row.key = some (id, ptid)) (hid : used id ptid)
    (hcoord : row.mapInfo.all addId2Grid)
    (hcity : table = .city → row.disable = 1 → live id = none) :
    Rep used (updateRow base table d row)
      (Function.update live id (rowPlace base table row)) := by
  have hdel := h.delLYPlace hused hid
  have hinsert (d' : PrivateConstData) (hd' : Rep used d' (Function.update live id none)) :=
    doInsert_place_spec hused table hd' hkey hid
  rw [rowPlace, hkey]
  dsimp only
  cases table
  case city =>
    rw [updateRow, updateCityRow, hkey]
    by_cases hdisable : row.disable = 1
    · rw [if_pos hdisable, if_pos (.inr hdisable), ← hcity rfl hdisable, Function.update_eq_self]
      exact h
    · rw [if_neg hdisable, if_neg (not_or.mpr ⟨fun hand => hand.1 rfl, hdisable⟩)]
      exact hinsert _ hdel
  case hotel =>
    rw [updateRow, updateHotelRow, hkey]
    dsimp only
    by_cases hskip : dangling base row ∨ row.disable = 1
    · rw [if_pos hskip, if_pos (hskip.imp_left fun hdang => ⟨by decide, hdang⟩)]
      exact hdel
    · rw [if_neg hskip, if_neg (mt (Or.imp_left And.right) hskip)]
      exact hinsert _ hdel
  all_goals
    rw [updateRow, loadVarPlaceRow, hkey]
    dsimp only
    have hshield : Rep used (if row.refer.getD "" ≠ "" ∧ row.disable = 1 then
        (d.delLYPlace id ptid).insert2Shield (row.refer.getD "") ptid else d.delLYPlace id ptid)
        (Function.update live id none) := by
      split_ifs
      · exact hdel.insert2Shield _ _
      · exact hdel
    by_cases hskip : dangling base row ∨ row.disable = 1
    · rw [if_pos hskip, if_pos (hskip.imp_left fun hdang => ⟨by decide, hdang⟩)]
      exact hshield
    · rw [if_neg hskip, if_neg (mt (Or.imp_left And.right) hskip), if_pos hcoord]
      exact hinsert _ hshield

end PrivateConstData

/-! ## Batches -/

/-- No id is used by two rows of a table. -/
def Distinct (rows : List Row) : Prop :=
  rows.Pairwise fun row row' => row.id ≠ none → row.id ≠ row'.id

/-- No id is used in two tables or by two tenants, and the coordinates are well formed. -/
structure OneRow (rows : Table → Row → Prop) : Prop where
  owner : ∀ {table row table' row'}, rows table row → rows table' row' → row.id ≠ none →
    row.id = row'.id → table = table' ∧ row.ptid = row'.ptid
  coord : ∀ {table row}, rows table row → row.mapInfo.all addId2Grid

/-- The ids of the rows, with their tenants. -/
def UsedBy (rows : Table → Row → Prop) (id ptid : String) : Prop :=
  ∃ table row, rows table row ∧ row.key = some (id, ptid)

/-- The live places are those of the rows of the tables. -/
structure Agrees (base : String → Bool) (content : Table → List Row)
    (live : String → Option Place) : Prop where
  of_mem : ∀ {table row id ptid}, row ∈ content table → row.key = some (id, ptid) →
    live id = rowPlace base table row
  none : ∀ {id}, (∀ table, ∀ row ∈ content table, ∀ ptid, row.key ≠ some (id, ptid)) →
    live id = none

/-- The batch disables no city that is there. -/
def KeepsCities (content : Table → List Row) (batch : Table × List Row) : Prop :=
  batch.1 = .city → ∀ row ∈ batch.2, row.disable = 1 →
    ∀ row' ∈ content .city, row'.id = row.id → row'.disable = 1

theorem Row.key_of_id {row row' : Row} {id ptid : String} (hkey : row.key = some (id, ptid))
    (hid : row'.id = row.id) (hptid : row'.ptid = row.ptid) : row'.key = some (id, ptid) := by
  rwa [key, hid, hptid, ← key]

variable {rows : Table → Row → Prop} {content : Table → List Row}

theorem OneRow.owner_of_key (hone : OneRow rows) {table table' : Table} {row row' : Row}
    (hrow : rows table row) (hrow' : rows table' row') {id ptid : String}
    (hkey : row.key = some (id, ptid)) (hid : row.id = row'.id) :
    table = table' ∧ row.ptid = row'.ptid :=
  hone.owner hrow hrow' (by simp [(Row.key_eq_some hkey).1]) hid

/-- The rows of a table after a batch. -/
theorem mem_commit_iff {table table' : Table} {changed : List Row} {row : Row} :
    row ∈ commit content (table, changed) table' ↔
      (row ∈ content table' ∧ (table' = table → ∀ r ∈ changed, r.id ≠ row.id)) ∨
        (table' = table ∧ row ∈ changed) := by
  rw [commit, Function.update_apply]
  split_ifs with ht
  · subst ht
    simp [upsert]
  · simp [ht]

/-- A city that is disabled now was not live before. -/
theorem live_eq_none_of_disabled (hone : OneRow rows) (hagrees : Agrees base content live)
    (hcontent : ∀ table, ∀ row ∈ content table, rows table row) {changed : List Row}
    (hbatch : ∀ row ∈ changed, rows .city row) (hcities : KeepsCities content (.city, changed))
    {row : Row} (hrow : row ∈ changed) (hdisable : row.disable = 1) {id ptid : String}
    (hkey : row.key = some (id, ptid)) : live id = none := by
  by_cases hold : ∃ row' ∈ content .city, row'.id = row.id
  · obtain ⟨row', hrow', hid⟩ := hold
    have howner := hone.owner_of_key (hbatch _ hrow) (hcontent _ _ hrow') hkey hid.symm
    have hkey' := Row.key_of_id hkey hid howner.2.symm
    rw [hagrees.of_mem hrow' hkey', rowPlace, hkey']
    exact if_pos (.inr (hcities rfl row hrow hdisable row' hrow' hid))
  · refine hagrees.none fun table' row' hrow' ptid' hkey' => hold ⟨row', ?_, ?_⟩
    · have howner := hone.owner_of_key (hcontent _ _ hrow') (hbatch _ hrow) hkey'
        ((Row.key_eq_some hkey').1.trans (Row.key_eq_some hkey).1.symm)
      obtain rfl : table' = .city := howner.1
      exact hrow'
    · rw [(Row.key_eq_some hkey').1, (Row.key_eq_some hkey).1]

/-- The live places are those of the new rows and those of the rows that stayed. -/
theorem Agrees.after (hone : OneRow rows) (hagrees : Agrees base content live)
    (hcontent : ∀ table, ∀ row ∈ content table, rows table row) {table : Table}
    {changed : List Row} (hbatch : ∀ row ∈ changed, rows table row)
    {live' : String → Option Place}
    (hmem : ∀ row ∈ changed, ∀ id ptid, row.key = some (id, ptid) →
      live' id = rowPlace base table row)
    (hrest : ∀ id, (∀ row ∈ changed, ∀ ptid, row.key ≠ some (id, ptid)) → live' id = live id) :
    Agrees base (commit content (table, changed)) live' := by
  refine ⟨fun {table' row id ptid} hrow hkey => ?_, fun {id} hnone => ?_⟩
  · rcases mem_commit_iff.mp hrow with ⟨hold, hnot⟩ | ⟨rfl, hnew⟩
    · rw [hrest id fun r hr ptid' hr' => ?_, hagrees.of_mem hold hkey]
      have hid : r.id = row.id := by rw [(Row.key_eq_some hr').1, (Row.key_eq_some hkey).1]
      exact hnot (hone.owner_of_key (hcontent _ _ hold) (hbatch r hr) hkey hid.symm).1 r hr hid
    · exact hmem row hnew id ptid hkey
  · have hchanged : ∀ row ∈ changed, ∀ ptid, row.key ≠ some (id, ptid) := fun row hrow ptid =>
      hnone table row (mem_commit_iff.mpr (.inr ⟨rfl, hrow⟩)) ptid
    rw [hrest id hchanged]
    refine hagrees.none fun table' row hrow ptid hkey => ?_
    by_cases hin : row ∈ commit content (table, changed) table'
    · exact hnone table' row hin ptid hkey
    · -- the row was replaced by one with the same key
      rw [mem_commit_iff, not_or] at hin
      obtain ⟨r, hr, hid⟩ : ∃ r ∈ changed, r.id = row.id := by
        by_contra hno
        exact hin.1 ⟨hrow, fun _ r hr hid => hno ⟨r, hr, hid⟩⟩
      have howner := hone.owner_of_key (hcontent _ _ hrow) (hbatch r hr) hkey hid.symm
      exact hchanged r hr ptid (Row.key_of_id hkey hid howner.2.symm)

namespace PrivateConstData

variable (base)

theorem foldl_updateRow (hone : OneRow rows) (hused : Apart (UsedBy rows)) {table : Table}
    {changed : List Row} (h : Rep (UsedBy rows) d live) (hrows : ∀ row ∈ changed, rows table row)
    (hdistinct : Distinct changed)
    (hcity : table = .city → ∀ row ∈ changed, row.disable = 1 → ∀ id ptid,
      row.key = some (id, ptid) → live id = none) :
    ∃ live', Rep (UsedBy rows) (changed.foldl (updateRow base table) d) live' ∧
      (∀ row ∈ changed, ∀ id ptid, row.key = some (id, ptid) →
        live' id = rowPlace base table row) ∧
      ∀ id, (∀ row ∈ changed, ∀ ptid, row.key ≠ some (id, ptid)) → live' id = live id := by
  induction changed generalizing d live with
  | nil => exact ⟨live, h, nofun, fun _ _ => rfl⟩
  | cons row changed ih =>
    obtain ⟨hrow, hrows'⟩ := List.forall_mem_cons.mp hrows
    obtain ⟨hne, hdistinct'⟩ := List.pairwise_cons.mp hdistinct
    rw [List.foldl_cons]
    cases hkey : row.key with
    | none =>
      rw [updateRow_of_key_eq_none hkey]
      obtain ⟨live', hrep, hmem, hrest⟩ := ih h hrows' hdistinct' fun ht r hr =>
        hcity ht r (List.mem_cons_of_mem _ hr)
      refine ⟨live', hrep, fun r hr id ptid hr' => ?_, fun id hid =>
        hrest id fun r hr => hid r (List.mem_cons_of_mem _ hr)⟩
      rcases List.mem_cons.mp hr with rfl | hr
      · rw [hkey] at hr'
        contradiction
      · exact hmem r hr id ptid hr'
    | some key =>
      obtain ⟨i, t⟩ := key
      have hid := (Row.key_eq_some hkey).1
      -- the rows behind this one have other ids
      have hother {r : Row} (hr : r ∈ changed) {id ptid : String}
          (hr' : r.key = some (id, ptid)) : id ≠ i := by
        rintro rfl
        exact hne r hr (by simp [hid]) (hid.trans (Row.key_eq_some hr').1.symm)
      have hstep := updateRow_spec base hused h hkey ⟨table, row, hrow, hkey⟩
        (hone.coord hrow) fun ht hdisable => hcity ht row List.mem_cons_self hdisable i t hkey
      obtain ⟨live', hrep, hmem, hrest⟩ := ih hstep hrows' hdistinct' fun ht r hr hdisable id ptid
        hr' => by
          rw [Function.update_of_ne (hother hr hr')]
          exact hcity ht r (List.mem_cons_of_mem _ hr) hdisable id ptid hr'
      refine ⟨live', hrep, fun r hr id ptid hr' => ?_, fun id hid' => ?_⟩
      · rcases List.mem_cons.mp hr with rfl | hr
        · obtain ⟨rfl, rfl⟩ := Prod.mk.inj (Option.some.inj (hkey.symm.trans hr'))
          rw [hrest i fun r hr ptid hr' => hother hr hr' rfl, Function.update_self]
        · exact hmem r hr id ptid hr'
      · rw [hrest id fun r hr => hid' r (List.mem_cons_of_mem _ hr), Function.update_of_ne]
        rintro rfl
        exact hid' row List.mem_cons_self t hkey

theorem update_spec (hone : OneRow rows) (hused : Apart (UsedBy rows)) {batch : Table × List Row}
    (h : Rep (UsedBy rows) d live) (hagrees : Agrees base content live)
    (hcontent : ∀ table, ∀ row ∈ content table, rows table row)
    (hbatch : ∀ row ∈ batch.2, rows batch.1 row) (hdistinct : Distinct batch.2)
    (hcities : KeepsCities content batch) :
    ∃ live', Rep (UsedBy rows) (d.update base batch) live' ∧
      Agrees base (commit content batch) live' := by
  obtain ⟨table, changed⟩ := batch
  have hcity : table = .city → ∀ row ∈ changed, row.disable = 1 → ∀ id ptid,
      row.key = some (id, ptid) → live id = none := by
    rintro rfl row hrow hdisable id ptid hkey
    exact live_eq_none_of_disabled hone hagrees hcontent hbatch hcities hrow hdisable hkey
  obtain ⟨live', hrep, hmem, hrest⟩ := foldl_updateRow base hone hused h hbatch hdistinct hcity
  exact ⟨live', hrep, hagrees.after hone hcontent hbatch hmem hrest⟩

end PrivateConstData

end PPView.PrivateData
