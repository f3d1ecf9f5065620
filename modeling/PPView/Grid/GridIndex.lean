import Mathlib.Data.List.Induction
import PPView.Grid.SquareGrid

/-!
# The two maps of the grid

Places are added and deleted, possibly added again. The key under an id and its coordinates are
always those of the last call (`recorded_runCalls`). In the cells this is so only as long as no
place moves to another cell: `addId2Grid` does not take an id out of the cell that it was in
(`runCalls_indexed_iff`).
-/

namespace PPView.MJSquareGrid

variable (sphere : Sphere)

/-- The calls from outside. -/
inductive Call where
  | add (id extraLogo mapInfo : Text)
  | del (id extraLogo : Text)

def Call.run (grid : Grid) : Call → Grid
  | .add id extraLogo mapInfo => (addIdLogo2Grid sphere grid id extraLogo mapInfo).1
  | .del id extraLogo => (delIdLogoFromGrid grid id extraLogo).1

def runCalls (calls : List Call) : Grid := calls.foldl (Call.run sphere) Grid.empty

/-- The key of the cell of well-formed coordinates. -/
def cellOf (mapInfo : Text) : Option Text :=
  (lonLat sphere mapInfo).map fun p => cellKey (sphere.cellX p.1 p.2) (sphere.cellY p.2)

/-! ## What the grid is to hold -/

/-- The coordinates of the ids that have been added and not deleted since. -/
def Call.place (places : Text → Option Text) : Call → Text → Option Text
  | .add id extraLogo mapInfo =>
    if (cellOf sphere mapInfo).isSome then
      Function.update places (logoId id extraLogo) (some mapInfo)
    else places
  | .del id extraLogo => Function.update places (logoId id extraLogo) none

def latest (calls : List Call) : Text → Option Text :=
  calls.foldl (Call.place sphere) fun _ => none

/-- An id is in the cell of its coordinates and in no other. -/
def Indexed (grid : Grid) (places : Text → Option Text) : Prop :=
  ∀ id key, id ∈ grid.m_gridMap key ↔
    ∃ mapInfo, places id = some mapInfo ∧ cellOf sphere mapInfo = some key

/-- What is kept under an id. -/
structure Recorded (grid : Grid) (places : Text → Option Text) : Prop where
  key : ∀ id, grid.m_Id2GridKeyMap id = (places id).bind (cellOf sphere)
  mapInfo : ∀ id mapInfo, places id = some mapInfo →
    grid.m_id2MapInfo id = some mapInfo ∧ (cellOf sphere mapInfo).isSome

/-- The call adds no place that is in another cell. -/
def Call.Stays (places : Text → Option Text) : Call → Prop
  | .add id extraLogo mapInfo =>
    ∀ old, places (logoId id extraLogo) = some old →
      (cellOf sphere mapInfo).isSome → cellOf sphere mapInfo = cellOf sphere old
  | .del _ _ => True

/-- No place moves to another cell. -/
def Stays (calls : List Call) : Prop :=
  ∀ before call behind, calls = before ++ call :: behind →
    call.Stays sphere (latest sphere before)

variable {sphere} {grid : Grid} {places : Text → Option Text} {id mapInfo key : Text}

/-! ## The operations -/

@[simp] theorem lonLat2Coord_key (grid : Grid) (lonDu latDu : ℚ) :
    (lonLat2Coord sphere grid lonDu latDu).2 =
      cellKey (sphere.cellX lonDu latDu) (sphere.cellY latDu) := by
  simp only [lonLat2Coord]
  split_ifs <;> rfl

/-- Computing a key changes the borders only. -/
theorem lonLat2Coord_grid (sphere : Sphere) (grid : Grid) (lonDu latDu : ℚ) :
    ∃ border, (lonLat2Coord sphere grid lonDu latDu).1 = { grid with m_gridBorder := border } := by
  simp only [lonLat2Coord]
  split_ifs
  · exact ⟨_, rfl⟩
  · exact ⟨_, rfl⟩

theorem addId2Grid_of_none (h : cellOf sphere mapInfo = none) (grid : Grid) (id : Text) :
    (addId2Grid sphere grid id mapInfo).1 = grid := by
  have hlonLat : lonLat sphere mapInfo = none := by simpa [cellOf] using h
  rw [addId2Grid, hlonLat]

theorem addId2Grid_of_some (h : cellOf sphere mapInfo = some key) (grid : Grid) (id : Text) :
    ∃ border, (addId2Grid sphere grid id mapInfo).1 =
      { m_gridMap := Function.update grid.m_gridMap key (insert id (grid.m_gridMap key))
        m_Id2GridKeyMap := Function.update grid.m_Id2GridKeyMap id (some key)
        m_id2MapInfo := Function.update grid.m_id2MapInfo id (some mapInfo)
        m_gridBorder := border } := by
  obtain ⟨⟨lonDu, latDu⟩, hlonLat, rfl⟩ := Option.map_eq_some_iff.mp h
  obtain ⟨border, hgrid⟩ := lonLat2Coord_grid sphere grid lonDu latDu
  refine ⟨border, ?_⟩
  simp only [addId2Grid, hlonLat, lonLat2Coord_key, hgrid]

/-- The new place is in its cell, and every other one where it was. -/
theorem mem_addId2Grid (h : cellOf sphere mapInfo = some key) {id' key' : Text} :
    id' ∈ (addId2Grid sphere grid id mapInfo).1.m_gridMap key' ↔
      (id' = id ∧ key' = key) ∨ id' ∈ grid.m_gridMap key' := by
  obtain ⟨border, hgrid⟩ := addId2Grid_of_some h grid id
  rw [hgrid]
  by_cases hkey : key' = key
  · subst hkey
    simp
  · simp [hkey]

theorem mem_delIdFromGrid {id' key' : Text} :
    id' ∈ (delIdFromGrid grid id).m_gridMap key' ↔
      id' ∈ grid.m_gridMap key' ∧ ¬ (id' = id ∧ grid.m_Id2GridKeyMap id = some key') := by
  unfold delIdFromGrid
  cases h : grid.m_Id2GridKeyMap id with
  | none => simp
  | some key =>
    by_cases hkey : key' = key
    · subst hkey
      simp [and_comm]
    · simp [hkey, Ne.symm hkey]

theorem delIdFromGrid_key (id' : Text) :
    (delIdFromGrid grid id).m_Id2GridKeyMap id' =
      if id' = id then none else grid.m_Id2GridKeyMap id' := by
  unfold delIdFromGrid
  cases h : grid.m_Id2GridKeyMap id with
  | none =>
    split_ifs with heq
    · rw [heq, h]
    · rfl
  | some key => exact Function.update_apply _ _ _ _

theorem delIdFromGrid_mapInfo : (delIdFromGrid grid id).m_id2MapInfo = grid.m_id2MapInfo := by
  unfold delIdFromGrid
  cases grid.m_Id2GridKeyMap id <;> rfl

/-! ## Runs -/

theorem recorded_run (h : Recorded sphere grid places) (call : Call) :
    Recorded sphere (call.run sphere grid) (call.place sphere places) := by
  cases call with
  | add id extraLogo mapInfo =>
    simp only [Call.run, Call.place, addIdLogo2Grid]
    cases hcell : cellOf sphere mapInfo with
    | none => simpa [addId2Grid_of_none hcell] using h
    | some key =>
      obtain ⟨border, hgrid⟩ := addId2Grid_of_some hcell grid (logoId id extraLogo)
      rw [hgrid]
      refine ⟨fun id' => ?_, fun id' m hm => ?_⟩
      · by_cases hid : id' = logoId id extraLogo
        · subst hid
          simp [hcell]
        · simpa [hid] using h.key id'
      · by_cases hid : id' = logoId id extraLogo
        · subst hid
          obtain rfl : mapInfo = m := by simpa using hm
          simp [hcell]
        · simpa [hid] using h.mapInfo id' m (by simpa [hid] using hm)
  | del id extraLogo =>
    refine ⟨fun id' => ?_, fun id' m hm => ?_⟩
    · rw [Call.run, delIdLogoFromGrid, delIdFromGrid_key]
      by_cases hid : id' = logoId id extraLogo
      · simp [hid, Call.place]
      · simpa [hid, Call.place] using h.key id'
    · by_cases hid : id' = logoId id extraLogo
      · simp [hid, Call.place] at hm
      · have hm : places id' = some m := by simpa [hid, Call.place] using hm
        simpa only [Call.run, delIdLogoFromGrid, delIdFromGrid_mapInfo] using h.mapInfo id' m hm

theorem runCalls_concat (calls : List Call) (call : Call) :
    runCalls sphere (calls ++ [call]) = call.run sphere (runCalls sphere calls) := by
  simp [runCalls]

theorem latest_concat (calls : List Call) (call : Call) :
    latest sphere (calls ++ [call]) = call.place sphere (latest sphere calls) := by
  simp [latest]

theorem recorded_runCalls (calls : List Call) :
    Recorded sphere (runCalls sphere calls) (latest sphere calls) := by
  induction calls using List.reverseRecOn with
  | nil => exact ⟨fun _ => rfl, fun _ _ h => nomatch h⟩
  | append_singleton calls call ih =>
    rw [runCalls_concat, latest_concat]
    exact recorded_run ih call

/-- Adding a place that does not move. -/
theorem indexed_add (h : Indexed sphere grid places) (hcell : cellOf sphere mapInfo = some key)
    (hstays : ∀ old, places id = some old → cellOf sphere mapInfo = cellOf sphere old) :
    Indexed sphere (addId2Grid sphere grid id mapInfo).1
      (Function.update places id (some mapInfo)) := by
  intro id' key'
  rw [mem_addId2Grid hcell, h id' key']
  by_cases hid : id' = id
  · subst hid
    simp only [Function.update_self, Option.some.injEq, exists_eq_left', hcell, true_and]
    constructor
    · rintro (rfl | ⟨old, hold, hkey⟩)
      · rfl
      · have hcells := hstays old hold
        rw [hcell, hkey] at hcells
        exact Option.some.inj hcells
    · intro heq
      exact .inl heq.symm
  · simp [hid]

theorem indexed_del (h : Indexed sphere grid places) (hrecorded : Recorded sphere grid places)
    (id : Text) : Indexed sphere (delIdFromGrid grid id) (Function.update places id none) := by
  intro id' key'
  rw [mem_delIdFromGrid, h id' key', hrecorded.key]
  by_cases hid : id' = id
  · subst hid
    simp only [Function.update_self, Option.bind_eq_some_iff, true_and, and_not_self, reduceCtorEq,
      false_and, exists_false]
  · simp [hid]

theorem indexed_run {call : Call} (h : Indexed sphere grid places)
    (hrecorded : Recorded sphere grid places) (hstays : call.Stays sphere places) :
    Indexed sphere (call.run sphere grid) (call.place sphere places) := by
  cases call with
  | add id extraLogo mapInfo =>
    simp only [Call.run, Call.place, addIdLogo2Grid]
    cases hcell : cellOf sphere mapInfo with
    | none => simpa [addId2Grid_of_none hcell] using h
    | some key =>
      refine indexed_add h hcell fun old hold => ?_
      exact hstays old hold (by simp [hcell])
  | del id extraLogo => exact indexed_del h hrecorded _

theorem stays_concat {calls : List Call} {call : Call} (h : Stays sphere (calls ++ [call])) :
    Stays sphere calls ∧ call.Stays sphere (latest sphere calls) := by
  refine ⟨fun before call' behind heq => ?_, h calls call [] rfl⟩
  exact h before call' (behind ++ [call]) (by simp [heq])

/-- As long as no place moves, the cells hold the places. -/
theorem indexed_runCalls {calls : List Call} (h : Stays sphere calls) :
    Indexed sphere (runCalls sphere calls) (latest sphere calls) := by
  induction calls using List.reverseRecOn with
  | nil =>
    intro id key
    simp [runCalls, latest, Grid.empty]
  | append_singleton calls call ih =>
    obtain ⟨hcalls, hcall⟩ := stays_concat h
    rw [runCalls_concat, latest_concat]
    exact indexed_run (ih hcalls) (recorded_runCalls calls) hcall

/-- A place that moves is still in the cell that it was in. -/
theorem stays_of_indexed {call : Call} (hrecorded : Recorded sphere grid places)
    (h : Indexed sphere grid places)
    (hnext : Indexed sphere (call.run sphere grid) (call.place sphere places)) :
    call.Stays sphere places := by
  cases call with
  | add id extraLogo mapInfo =>
    intro old hold hsome
    obtain ⟨key, hkey⟩ := Option.isSome_iff_exists.mp (hrecorded.mapInfo _ old hold).2
    obtain ⟨key', hkey'⟩ := Option.isSome_iff_exists.mp hsome
    have hin : logoId id extraLogo ∈ grid.m_gridMap key := (h _ key).mpr ⟨old, hold, hkey⟩
    obtain ⟨new, hnew, hcell⟩ := (hnext _ key).mp ((mem_addId2Grid hkey').mpr (.inr hin))
    rw [Call.place, if_pos hsome, Function.update_self] at hnew
    obtain rfl := Option.some.inj hnew
    rw [hcell, hkey]
  | del id extraLogo => trivial

/-- The cells hold the places after every call just where no place moves: what is added again
stays in the cell that it was in. -/
theorem runCalls_indexed_iff (sphere : Sphere) (calls : List Call) :
    (∀ before behind, calls = before ++ behind →
        Indexed sphere (runCalls sphere before) (latest sphere before)) ↔
      Stays sphere calls := by
  constructor
  · rintro h before call behind rfl
    have hnext := h (before ++ [call]) behind (by simp)
    rw [runCalls_concat, latest_concat] at hnext
    exact stays_of_indexed (recorded_runCalls before) (h before _ rfl) hnext
  · rintro h before behind rfl
    refine indexed_runCalls fun before' call behind' heq => ?_
    exact h before' call (behind' ++ behind) (by simp [heq])

/-- Functions that are as the real ones on the equator, at zero and nine degrees. -/
def equator : Sphere where
  atof s := if s = ['9'] then 9 else 0
  cellX lonDu _ := lonDu.floor * 111317 / 1000
  cellY latDu := latDu.floor * 110933 / 1000
  halfCircle _ := 20037
  caluateSphereDist place_a place_b := if place_a = place_b then 0 else 1001875

/-- A place is added, and added again nine degrees further east. It stays in its old cell. -/
theorem runCalls_not_indexed : ¬ ∀ (sphere : Sphere) (calls : List Call),
    Indexed sphere (runCalls sphere calls) (latest sphere calls) := by
  intro h
  have hcell := (h equator
    [.add ['a'] [] ['0', ',', '0'], .add ['a'] [] ['9', ',', '0']] ['a', '#'] ['0', '_', '0']).mp
    (by decide +kernel)
  obtain ⟨mapInfo, hlatest, hkey⟩ := hcell
  obtain rfl : ['9', ',', '0'] = mapInfo := by
    apply Option.some.inj
    rw [← hlatest]
    decide +kernel
  revert hkey
  decide +kernel

end PPView.MJSquareGrid
