import PPView.PrivateData.Live

/-!
# The lists of the cities

Along any calls that insert and delete places, the lists of the cities, the maps and the hotels
that are made for cities belong together.
-/

namespace PPView.PrivateData

inductive Call where
  | doInsert (place : Place)
  | delLYPlace (priID ptid : String)
  deriving DecidableEq

namespace PrivateConstData

def call (d : PrivateConstData) : Call → PrivateConstData
  | .doInsert place => (d.doInsert place).2
  | .delLYPlace priID ptid => d.delLYPlace priID ptid

def run (d : PrivateConstData) (calls : List Call) : PrivateConstData := calls.foldl call d

/-- Every id that a city lists is found and is a place of this kind in this city, every such place
is listed, and a city and its hotel are there together. -/
structure Consistent (d : PrivateConstData) : Prop where
  resolves : ∀ {m ptid cid id}, id ∈ d.cityPlaces m ptid cid →
    ∃ p, d.getLYPlace id ptid = some p ∧ p.id = id ∧ p.ptid = ptid ∧ cityMapOf p.t = some m ∧
      cid ∈ p.cidList
  listed : ∀ {m' key p m cid}, d.places m' key = some p → cityMapOf p.t = some m →
    cid ∈ p.cidList → p.id ∈ d.cityPlaces m p.ptid cid
  coreHotel : ∀ {key c}, d.places .citys key = some c →
    d.places .hotels (coreHotelId c.id) = some (coreHotel c)
  city : ∀ {cid h}, d.places .hotels (coreHotelId cid) = some h →
    ∃ c, d.places .citys cid = some c ∧ h = PrivateData.coreHotel c

end PrivateConstData

/-- The ids of the calls, with their tenants. -/
def Used (calls : List Call) (id ptid : String) : Prop :=
  .delLYPlace id ptid ∈ calls ∨
    ∃ p, .doInsert p ∈ calls ∧ (id = p.id ∧ ptid = p.ptid ∨ id ∈ p.points ∧ ptid = "")

/-- Each id is used by one tenant and one type. -/
structure OneOwner (calls : List Call) : Prop where
  tenant : ∀ {id ptid ptid'}, Used calls id ptid → Used calls id ptid' → ptid = ptid'
  type : ∀ {p q}, .doInsert p ∈ calls → .doInsert q ∈ calls → p.id = q.id → p.t = q.t

/-- Moreover no id is another key, and a point of a tour is in no city. -/
structure Regular (calls : List Call) : Prop extends OneOwner calls where
  apart : Apart (Used calls)
  points : ∀ {p q}, .doInsert p ∈ calls → .doInsert q ∈ calls → q.id ∈ p.points → q.cidList = []

/-- An id is not inserted while it is there under another key. -/
def Orderly (d : PrivateConstData) : List Call → Prop
  | [] => True
  | c :: calls => (∀ p q, c = .doInsert p → d.getLYPlace p.id p.ptid = some q →
      q.getUniqId = p.getUniqId) ∧ Orderly (d.call c) calls

namespace PrivateConstData

/-- The data set stands for live places that were inserted by `calls`. -/
def Represents (calls : List Call) (d : PrivateConstData) : Prop :=
  ∃ live, IsLive (Used calls) live ∧ RepPlaces d live ∧ RepCities d live ∧
    ∀ {id p}, live id = some p → .doInsert p ∈ calls

variable {calls : List Call} {d : PrivateConstData}

theorem Represents.consistent (hregular : Regular calls) (h : Represents calls d) :
    d.Consistent := by
  obtain ⟨live, hlive, hplaces, hcities, -⟩ := h
  refine ⟨fun hid => ?_, fun hp hm hcid => ?_, fun hc => ?_, fun hh => ?_⟩
  · obtain ⟨p, hp, rfl, hm, hcid⟩ := (hcities _ _ _ _).mp hid
    obtain rfl := hlive.id_eq hp
    refine ⟨p, ?_, rfl, rfl, hm, hcid⟩
    rw [getLYPlace_eq hregular.apart hlive hplaces (hlive.used hp), hp]
  · rcases (hplaces _ _ _).mp hp with ⟨hp, -, -⟩ | ⟨-, c, -, -, -, rfl⟩
    · exact (hcities _ _ _ _).mpr ⟨_, hp, rfl, hm, hcid⟩
    · contradiction
  · rcases (hplaces _ _ _).mp hc with ⟨hc, hm, -⟩ | ⟨hm, -⟩
    · exact (hplaces _ _ _).mpr (.inr ⟨rfl, _, hc, hm, rfl, rfl⟩)
    · contradiction
  · rcases (hplaces _ _ _).mp hh with ⟨hh, -, hkey⟩ | ⟨-, c, hc, hm, hkey, rfl⟩
    · exact absurd hkey.symm (hregular.apart.ne_core (hlive.used hh) (Place.isKey _) _)
    · refine ⟨c, (hplaces _ _ _).mpr (.inl ⟨hc, hm, ?_⟩), rfl⟩
      rw [c.getUniqId_of_placeMapOf (.inl hm), coreHotelId_injective hkey]

/-- One call keeps the representation. -/
theorem Represents.call (hregular : Regular calls) (h : Represents calls d) {c : Call}
    (hc : c ∈ calls) (horderly : ∀ p q, c = .doInsert p → d.getLYPlace p.id p.ptid = some q →
      q.getUniqId = p.getUniqId) : Represents calls (d.call c) := by
  obtain ⟨live, hlive, hplaces, hcities, hcalls⟩ := h
  have hsame : Represents calls d := ⟨live, hlive, hplaces, hcities, hcalls⟩
  cases c with
  | doInsert p =>
    have hused : Used calls p.id p.ptid := .inr ⟨p, hc, .inl ⟨rfl, rfl⟩⟩
    rw [PrivateConstData.call]
    by_cases hid : p.id = ""
    · rwa [doInsert, if_pos hid]
    · cases hm : placeMapOf p.t with
      | none => rwa [doInsert_of_placeMapOf hm]
      | some m =>
        cases hq : live p.id with
        | none =>
          obtain ⟨d', hinsert, hplaces', hcities'⟩ :=
            doInsert_spec hregular.apart hlive hplaces hcities hid hused hq hm
          rw [hinsert]
          refine ⟨_, hlive.insert hused hm, hplaces', hcities', fun hq => ?_⟩
          rcases update_some_eq.mp hq with ⟨-, rfl⟩ | ⟨-, hq⟩
          · exact hc
          · exact hcalls hq
        | some q =>
          -- the id is there under the same key
          have hget := getLYPlace_eq hregular.apart hlive hplaces hused
          have hkey := horderly p q rfl (hget.trans hq)
          have htype := hregular.type (hcalls hq) hc (hlive.id_eq hq)
          have hstored : d.places m p.getUniqId = some q :=
            (hplaces _ _ _).mpr (.inl ⟨hlive.id_eq hq ▸ hq, htype ▸ hm, hkey.symm⟩)
          rwa [doInsert_of_stored hm (by rw [hstored]; rfl)]
  | delLYPlace id ptid =>
    have hpoints : PointsOk (Used calls) live := fun hp g hg =>
      ⟨.inr ⟨_, hcalls hp, .inr ⟨hg, rfl⟩⟩, fun q hq =>
        hregular.points (hcalls hp) (hcalls hq) (hlive.id_eq hq ▸ hg)⟩
    obtain ⟨hplaces', hcities'⟩ := delLYPlace_spec hregular.apart hlive hplaces hcities hpoints
      (.inl hc)
    exact ⟨_, hlive.afterDel id, hplaces', hcities', fun hp => hcalls (afterDel_eq_some hp)⟩

theorem represents_run (hregular : Regular calls) {done rest : List Call}
    (h : Represents calls d) (hsub : ∀ c ∈ done, c ∈ calls) (horderly : Orderly d (done ++ rest)) :
    Represents calls (d.run done) := by
  induction done generalizing d with
  | nil => exact h
  | cons c done ih =>
    obtain ⟨hc, hdone⟩ := List.forall_mem_cons.mp hsub
    exact ih (h.call hregular hc horderly.1) hdone horderly.2

theorem represents_empty (calls : List Call) : Represents calls {} :=
  ⟨fun _ => none, isLive_empty, repPlaces_empty, repCities_empty, nofun⟩

/-- In every state of an orderly run. -/
theorem consistent_run (hregular : Regular calls) (horderly : Orderly {} calls)
    {done rest : List Call} (hsplit : calls = done ++ rest) :
    (run {} done).Consistent ∧
      ∀ p, ((run {} done).doInsert p).1 ≠ 0 → ((run {} done).doInsert p).2 = run {} done := by
  refine ⟨Represents.consistent hregular (represents_run hregular (represents_empty calls) ?_
    (hsplit ▸ horderly)), fun p => doInsert_of_ne_zero⟩
  exact fun c hc => hsplit ▸ List.mem_append_left rest hc

end PrivateConstData

/-! ## Lists of calls -/

namespace Call

def place? : Call → Option Place
  | .doInsert p => some p
  | .delLYPlace _ _ => none

def ids : Call → List (String × String)
  | .doInsert p => (p.id, p.ptid) :: p.points.map (·, "")
  | .delLYPlace id ptid => [(id, ptid)]

end Call

variable {calls : List Call}

theorem mem_filterMap_place? {p : Place} :
    p ∈ calls.filterMap Call.place? ↔ .doInsert p ∈ calls := by
  rw [List.mem_filterMap]
  constructor
  · rintro ⟨c, hc, hp⟩
    cases c with
    | doInsert q =>
      obtain rfl := Option.some.inj hp
      exact hc
    | delLYPlace => contradiction
  · intro hp
    exact ⟨_, hp, rfl⟩

theorem used_iff {id ptid : String} :
    Used calls id ptid ↔ (id, ptid) ∈ calls.flatMap Call.ids := by
  rw [List.mem_flatMap]
  constructor
  · rintro (hmem | ⟨p, hmem, ⟨rfl, rfl⟩ | ⟨hid, rfl⟩⟩)
    · exact ⟨_, hmem, List.mem_singleton_self _⟩
    · exact ⟨_, hmem, List.mem_cons_self⟩
    · exact ⟨_, hmem, List.mem_cons_of_mem _ (List.mem_map_of_mem hid)⟩
  · rintro ⟨c, hmem, hid⟩
    cases c with
    | delLYPlace =>
      obtain ⟨rfl, rfl⟩ := Prod.mk.inj (List.mem_singleton.mp hid)
      exact .inl hmem
    | doInsert p =>
      rcases List.mem_cons.mp hid with heq | hid
      · obtain ⟨rfl, rfl⟩ := Prod.mk.inj heq
        exact .inr ⟨p, hmem, .inl ⟨rfl, rfl⟩⟩
      · obtain ⟨point, hpoint, heq⟩ := List.mem_map.mp hid
        obtain ⟨rfl, rfl⟩ := Prod.mk.inj heq
        exact .inr ⟨p, hmem, .inr ⟨hpoint, rfl⟩⟩

theorem oneOwner_of_lists
    (htenant : ∀ a ∈ calls.flatMap Call.ids, ∀ b ∈ calls.flatMap Call.ids, a.1 = b.1 → a.2 = b.2)
    (htype : ∀ p ∈ calls.filterMap Call.place?, ∀ q ∈ calls.filterMap Call.place?,
      p.id = q.id → p.t = q.t) : OneOwner calls where
  tenant hid hid' := htenant _ (used_iff.mp hid) _ (used_iff.mp hid') rfl
  type hp hq := htype _ (mem_filterMap_place?.mpr hp) _ (mem_filterMap_place?.mpr hq)

theorem head?_append {pre : String} {c : Char} (h : pre.toList.head? = some c) (s : String) :
    (pre ++ s).toList.head? = some c := by
  rw [String.toList_append, List.head?_append, h]
  rfl

theorem ne_coreHotelId {id : String} (h : id.toList.head? ≠ some 'c') (cid : String) :
    id ≠ coreHotelId cid := by
  rintro rfl
  exact h (head?_append (by decide) cid)

theorem regular_of_lists (howner : OneOwner calls)
    (hids : ∀ a ∈ calls.flatMap Call.ids, a.1.toList.head? ≠ some 'c' ∧
      ∀ b ∈ calls.flatMap Call.ids, a.1 ≠ qualified b.1 b.2 ∧
        (qualified a.1 a.2 = qualified b.1 b.2 → a.1 = b.1))
    (hpoints : ∀ p ∈ calls.filterMap Call.place?, ∀ q ∈ calls.filterMap Call.place?,
      q.id ∈ p.points → q.cidList = []) : Regular calls where
  toOneOwner := howner
  apart := {
    tenant := howner.tenant
    bare := fun hid hid' => ((hids _ (used_iff.mp hid)).2 _ (used_iff.mp hid')).1
    qualified := fun hid hid' => ((hids _ (used_iff.mp hid)).2 _ (used_iff.mp hid')).2
    core := fun hid => ne_coreHotelId (hids _ (used_iff.mp hid)).1 }
  points hp hq := hpoints _ (mem_filterMap_place?.mpr hp) _ (mem_filterMap_place?.mpr hq)

theorem orderly_cons {d : PrivateConstData} {c : Call} : Orderly d (c :: calls) ↔
    (∀ p ∈ c.place?, ∀ q ∈ d.getLYPlace p.id p.ptid, q.getUniqId = p.getUniqId) ∧
      Orderly (d.call c) calls := by
  rw [Orderly]
  cases c with
  | doInsert p =>
    refine and_congr_left' ⟨fun h q hq q' => ?_, ?_⟩
    · exact h q q' (congrArg _ (Option.some.inj hq))
    · intro h p' q heq
      exact h p' (congrArg some (Call.doInsert.inj heq)) q
  | delLYPlace id ptid =>
    refine and_congr_left' (iff_of_true ?_ ?_)
    · exact nofun
    · exact nofun

instance decidableOrderly : (d : PrivateConstData) → (calls : List Call) →
    Decidable (Orderly d calls)
  | _, [] => inferInstanceAs (Decidable True)
  | d, c :: calls =>
    have : Decidable (Orderly (d.call c) calls) := decidableOrderly (d.call c) calls
    decidable_of_iff _ orderly_cons.symm

/-! ## Runs -/

/-- A view of one tenant. -/
def tower (refer : String) (cidList : List String) : Place where
  id := "tower"
  ptid := "agency"
  refer := refer
  cls := .view
  t := LY_PLACE_TYPE_VIEW
  cidList := cidList
  type_eq := fun _ h => Option.some.inj h

def paris : Place where
  id := "paris"
  ptid := "agency"
  cls := .city
  t := LY_PLACE_TYPE_CITY
  type_eq := fun _ h => Option.some.inj h

/-- Where the bus leaves and returns. -/
def station : Place where
  id := "station"
  ptid := ""
  cls := .view
  t := LY_PLACE_TYPE_VIEW
  type_eq := fun _ h => Option.some.inj h

def bus : Place where
  id := "bus"
  ptid := "agency"
  cls := .tour
  t := 0x4000
  cidList := ["paris"]
  gatherLocal := ["station"]
  dismissLocal := ["station"]
  type_eq := nofun

/-- The view is replaced, and the tour is deleted in the end. -/
def busCalls : List Call :=
  [.doInsert paris, .doInsert (tower "base" ["paris"]), .doInsert station, .doInsert bus,
    .delLYPlace "tower" "agency", .doInsert (tower "" ["paris", "lyon"]),
    .delLYPlace "bus" "agency"]

/-- The station goes with the tour. -/
theorem consistent_run_busCalls :
    (∀ done rest, busCalls = done ++ rest → (PrivateConstData.run {} done).Consistent) ∧
      "tower" ∈ (PrivateConstData.run {} busCalls).cityPlaces .cityViews "agency" "lyon" ∧
      (PrivateConstData.run {} (busCalls.take 6)).getLYPlace "station" "" = some station ∧
      (PrivateConstData.run {} busCalls).getLYPlace "station" "" = none := by
  have hregular : Regular busCalls :=
    regular_of_lists (oneOwner_of_lists (by decide +kernel) (by decide +kernel))
      (by decide +kernel) (by decide +kernel)
  have horderly : Orderly {} busCalls := by decide +kernel
  refine ⟨fun done rest hsplit => ?_, by decide +kernel, by decide +kernel, by decide +kernel⟩
  exact (PrivateConstData.consistent_run hregular horderly hsplit).1

/-- The same place with and without a public one. -/
def towerTwice : List Call := [.doInsert (tower "base" ["paris"]), .doInsert (tower "" ["lyon"])]

/-- A hotel whose id is the other key of the view. -/
def inn : Place where
  id := "tower_agency"
  ptid := "agency"
  cls := .hotel
  t := LY_PLACE_TYPE_HOTEL
  type_eq := fun _ h => Option.some.inj h

def towerAndInn : List Call := [.doInsert (tower "base" ["paris"]), .doInsert inn]

/-- One tenant and one type for each id are not enough, neither when a place is inserted twice nor
when an id is another key. -/
theorem not_consistent :
    (Regular towerTwice ∧ ¬ (PrivateConstData.run {} towerTwice).Consistent) ∧
      OneOwner towerAndInn ∧ Orderly {} towerAndInn ∧
        ¬ (PrivateConstData.run {} towerAndInn).Consistent := by
  have hregular : Regular towerTwice :=
    regular_of_lists (oneOwner_of_lists (by decide +kernel) (by decide +kernel))
      (by decide +kernel) (by decide +kernel)
  have howner : OneOwner towerAndInn := oneOwner_of_lists (by decide +kernel) (by decide +kernel)
  refine ⟨⟨hregular, fun h => ?_⟩, howner, by decide +kernel, fun h => ?_⟩
  · have hlisted : "tower" ∈ (PrivateConstData.run {} towerTwice).cityPlaces .cityViews "agency"
        "paris" := by decide +kernel
    obtain ⟨p, hp, -, -, -, hcid⟩ := h.resolves hlisted
    obtain rfl : tower "" ["lyon"] = p := Option.some.inj hp
    revert hcid
    decide
  · have hlisted : "tower" ∈ (PrivateConstData.run {} towerAndInn).cityPlaces .cityViews "agency"
        "paris" := by decide +kernel
    obtain ⟨p, hp, -, -, hm, -⟩ := h.resolves hlisted
    obtain rfl : inn = p := Option.some.inj hp
    revert hm
    decide

end PPView.PrivateData
