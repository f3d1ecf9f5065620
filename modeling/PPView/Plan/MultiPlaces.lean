import Mathlib.Logic.Function.Basic
import PPView.Library.Strings
import PPView.MyTime
import PPView.Plan.Durations

/-!
# Places that are visited more than once

`BasePlan::Insert2MultiMap` gives the first visit of a place the id of the place, and each further
one a copy of it under a numbered id. `GetCutId` cuts the number off.
-/

namespace PPView

open Strings (find)

/-- The classes of places. A ticket for a view is a tour. -/
inductive PlaceClass where
  | view
  | shop
  | restaurant
  | viewTicket
  | tour
  | station
  | hotel
  | carStore
  | other
  deriving DecidableEq, Repr

/-- Whether a `dynamic_cast` to the class succeeds. -/
def PlaceClass.isA (cls : PlaceClass) : PlaceClass → Bool
  | tour => cls = tour || cls = viewTicket
  | target => cls = target

/-- What is read of a `LYPlace` here. -/
structure MultiPlace where
  ID : Str
  t : ℕ
  cls : PlaceClass

namespace MultiPlace

/-- The class that the place is copied as. -/
def copyClass (place : MultiPlace) : Option PlaceClass :=
  if place.t &&& LY_PLACE_TYPE_VIEW ≠ 0 then some .view
  else if place.t &&& LY_PLACE_TYPE_SHOP ≠ 0 then some .shop
  else if place.t &&& LY_PLACE_TYPE_RESTAURANT ≠ 0 then some .restaurant
  else if place.t = LY_PLACE_TYPE_VIEWTICKET then some .viewTicket
  else if place.t &&& LY_PLACE_TYPE_TOURALL ≠ 0 then some .tour
  else if place.t &&& LY_PLACE_TYPE_ARRIVE ≠ 0 then some .station
  else if place.t &&& LY_PLACE_TYPE_HOTEL ≠ 0 then some .hotel
  else if place.t &&& LY_PLACE_TYPE_CAR_STORE ≠ 0 then some .carStore
  else none

/-- `newPlace`. -/
def copy (place : MultiPlace) : Option MultiPlace :=
  match place.copyClass with
  | some cls => if place.cls.isA cls then some { place with cls := cls } else none
  | none => none

theorem copy_ID {place newPlace : MultiPlace} (h : place.copy = some newPlace) :
    newPlace.ID = place.ID := by
  rw [copy] at h
  split at h
  · split_ifs at h
    cases h
    rfl
  · cases h

end MultiPlace

/-- The members of `BasePlan` that are read here. `places` stands for the custom places and the
constant ones. -/
structure MultiPlan where
  places : Str → Option MultiPlace
  placeNumberMap : Str → Option ℕ := fun _ => none
  multiPlaceMap : Str → Option MultiPlace := fun _ => none

/-- `"%s#%02d"` in a buffer of 1000 characters. An id has no zero byte. -/
def numberedId (id : Str) (number : ℕ) : Str :=
  (id ++ 35 :: MyTime.twoDigits number).take 999

def getCutId (id : Str) : Str :=
  match find [35] id with
  | some pos => id.take pos
  | none => id

namespace MultiPlan

section

variable (plan : MultiPlan)

def getLYPlace (id : Str) : Option MultiPlace :=
  match plan.multiPlaceMap id with
  | some place => some place
  | none => plan.places id

def setNumber (id : Str) (number : ℕ) : MultiPlan :=
  { plan with placeNumberMap := Function.update plan.placeNumberMap id (some number) }

def setMulti (id : Str) (place : MultiPlace) : MultiPlan :=
  { plan with multiPlaceMap := Function.update plan.multiPlaceMap id (some place) }

def insert2MultiMap (id : Str) : Str × MultiPlan :=
  if id = [] then ([], plan)
  else
    match plan.getLYPlace id with
    | none => ([], plan)
    | some place =>
      if plan.placeNumberMap id = none then (id, plan.setNumber id 0)
      else
        match place.copy with
        | none => ([], plan)
        | some newPlace =>
          let number := (plan.placeNumberMap newPlace.ID).getD 0 + 1
          let plan := plan.setNumber newPlace.ID number
          let newId := numberedId newPlace.ID number
          if plan.multiPlaceMap newId ≠ none then ([], plan)
          else (newId, plan.setMulti newId { newPlace with ID := newId })

/-- Each id that is asked for with the one that is returned. -/
def insertAll : MultiPlan → List Str → List (Str × Str)
  | _, [] => []
  | plan, id :: ids =>
    let (newId, plan) := plan.insert2MultiMap id
    (id, newId) :: insertAll plan ids

end

/-! ## One call -/

variable {plan : MultiPlan} {id newId : Str} {ids seen : List Str} {results : List (Str × Str)}

/-- The id of a place, which has no `#` in it. -/
structure Existing (places : Str → Option MultiPlace) (id : Str) : Prop where
  ne_nil : id ≠ []
  notMem : 35 ∉ id
  found : ∃ place, places id = some place ∧ place.ID = id

/-- Whether a place with the id can be copied. -/
def Copyable (places : Str → Option MultiPlace) (id : Str) : Prop :=
  ∃ place newPlace, places id = some place ∧ place.copy = some newPlace

theorem getCutId_of_notMem (h : 35 ∉ id) : getCutId id = id := by
  rw [getCutId, Strings.find_eq_none h]

theorem getCutId_append (h : 35 ∉ id) (s : Str) : getCutId (id ++ 35 :: s) = id := by
  rw [getCutId, Strings.find_singleton_append h]
  simp

/-- A numbered id keeps its mark if the id leaves room for it. -/
theorem numberedId_of_lt (hlength : id.length < 999) (number : ℕ) :
    ∃ s, numberedId id number = id ++ 35 :: s := by
  refine ⟨(MyTime.twoDigits number).take (998 - id.length), ?_⟩
  rw [numberedId, List.take_append, List.take_of_length_le hlength.le,
    show 999 - id.length = 998 - id.length + 1 by omega, List.take_succ_cons]

theorem numberedId_of_le (hlength : 999 ≤ id.length) (number : ℕ) :
    numberedId id number = id.take 999 := by
  rw [numberedId, List.take_append_of_le_length hlength]

/-- The calls so far have been with the ids `seen`, and all copies are numbered. -/
structure Ready (seen : List Str) (plan : MultiPlan) : Prop where
  notMem : ∀ id ∈ seen, 35 ∉ id
  number : ∀ id, plan.placeNumberMap id = none ↔ id ∉ seen
  multi : ∀ id, plan.multiPlaceMap id ≠ none → 35 ∈ id

/-- What a call can do: a first visit, a place that is not copied, a copy with an id that is taken,
and a copy. -/
inductive Inserts (seen : List Str) (plan : MultiPlan) (id : Str) : Str → MultiPlan → Prop
  | first (h : id ∉ seen) : Inserts seen plan id id (plan.setNumber id 0)
  | uncopied (h : id ∈ seen) (hcopy : ¬ Copyable plan.places id) : Inserts seen plan id [] plan
  | taken (h : id ∈ seen) (number : ℕ) (htaken : plan.multiPlaceMap (numberedId id number) ≠ none) :
      Inserts seen plan id [] (plan.setNumber id number)
  | copied (h : id ∈ seen) (number : ℕ) (place : MultiPlace)
      (hnew : plan.multiPlaceMap (numberedId id number) = none) (hcopy : Copyable plan.places id) :
      Inserts seen plan id (numberedId id number)
        ((plan.setNumber id number).setMulti (numberedId id number) place)

theorem insert2MultiMap_inserts (hready : Ready seen plan) (h : Existing plan.places id) :
    Inserts seen plan id (plan.insert2MultiMap id).1 (plan.insert2MultiMap id).2 := by
  obtain ⟨place, hplace, hid⟩ := h.found
  have hmulti : plan.multiPlaceMap id = none := by
    by_contra hno
    exact h.notMem (hready.multi id hno)
  rw [insert2MultiMap, if_neg h.ne_nil, getLYPlace, hmulti]
  dsimp only
  rw [hplace]
  dsimp only
  by_cases hnumber : plan.placeNumberMap id = none
  · rw [if_pos hnumber]
    exact .first ((hready.number id).mp hnumber)
  · have hseen : id ∈ seen := by
      by_contra hno
      exact hnumber ((hready.number id).mpr hno)
    rw [if_neg hnumber]
    cases hcopy : place.copy with
    | none =>
      refine .uncopied hseen ?_
      rintro ⟨other, newPlace, hother, hnew⟩
      rw [hplace] at hother
      cases hother
      rw [hcopy] at hnew
      cases hnew
    | some newPlace =>
      dsimp only
      rw [MultiPlace.copy_ID hcopy, hid]
      split_ifs with htaken
      · exact .taken hseen _ htaken
      · exact .copied hseen _ _ (not_not.mp htaken) ⟨place, newPlace, hplace, hcopy⟩

/-- An id that neither map has. -/
def Fresh (plan : MultiPlan) (id : Str) : Prop :=
  plan.placeNumberMap id = none ∧ plan.multiPlaceMap id = none

section

variable {plan' : MultiPlan}

theorem Inserts.places (h : Inserts seen plan id newId plan') : plan'.places = plan.places := by
  cases h <;> rfl

theorem fresh_setNumber {number : ℕ} {other : Str} :
    Fresh (plan.setNumber id number) other ↔ other ≠ id ∧ Fresh plan other := by
  by_cases heq : other = id <;> simp [Fresh, setNumber, heq]

theorem fresh_setMulti {place : MultiPlace} {other : Str} :
    Fresh (plan.setMulti id place) other ↔ other ≠ id ∧ Fresh plan other := by
  by_cases heq : other = id <;> simp [Fresh, setMulti, heq]

theorem Ready.setNumber (h : Ready seen plan) (hid : 35 ∉ id) (number : ℕ) :
    Ready (id :: seen) (plan.setNumber id number) where
  notMem := List.forall_mem_cons.mpr ⟨hid, h.notMem⟩
  number other := by
    rw [List.mem_cons, not_or, ← h.number]
    by_cases heq : other = id <;> simp [MultiPlan.setNumber, heq]
  multi := h.multi

theorem Ready.setMulti (h : Ready seen plan) (hid : 35 ∈ id) (place : MultiPlace) :
    Ready seen (plan.setMulti id place) where
  notMem := h.notMem
  number := h.number
  multi other hother := by
    simp only [MultiPlan.setMulti, Function.update_apply] at hother
    split_ifs at hother with heq
    · exact heq ▸ hid
    · exact h.multi other hother

theorem Ready.cons (h : Ready seen plan) (hid : id ∈ seen) : Ready (id :: seen) plan where
  notMem := List.forall_mem_cons.mpr ⟨h.notMem id hid, h.notMem⟩
  number other := by
    rw [h.number, List.mem_cons, not_or]
    exact ⟨fun hother => ⟨fun heq => hother (heq ▸ hid), hother⟩, And.right⟩
  multi := h.multi

/-- An id that leaves room for the number, or is not copied now. -/
def LeavesRoom (places : Str → Option MultiPlace) (seen : List Str) (id : Str) : Prop :=
  id ∈ seen → Copyable places id → id.length < 999

theorem Inserts.ready (h : Inserts seen plan id newId plan') (hready : Ready seen plan)
    (hid : 35 ∉ id) (hroom : LeavesRoom plan.places seen id) : Ready (id :: seen) plan' := by
  cases h with
  | first h => exact hready.setNumber hid 0
  | uncopied h hcopy => exact hready.cons h
  | taken h number htaken => exact hready.setNumber hid number
  | copied h number place hnew hcopy =>
    obtain ⟨s, hs⟩ := numberedId_of_lt (hroom h hcopy) number
    exact (hready.setNumber hid number).setMulti (by simp [hs]) place

/-- The id that is returned is fresh, and no longer fresh then. -/
theorem Inserts.fresh (h : Inserts seen plan id newId plan') (hready : Ready seen plan)
    (hid : 35 ∉ id) (hroom : LeavesRoom plan.places seen id) (hne : newId ≠ []) :
    getCutId newId = id ∧ Fresh plan newId ∧ ¬ Fresh plan' newId := by
  cases h with
  | first h =>
    refine ⟨getCutId_of_notMem hid, ⟨(hready.number id).mpr h, ?_⟩, ?_⟩
    · by_contra hno
      exact hid (hready.multi id hno)
    · rw [fresh_setNumber]
      exact fun hno => hno.1 rfl
  | uncopied h hcopy => exact absurd rfl hne
  | taken h number htaken => exact absurd rfl hne
  | copied h number place hnew hcopy =>
    obtain ⟨s, hs⟩ := numberedId_of_lt (hroom h hcopy) number
    refine ⟨by rw [hs, getCutId_append hid], ⟨(hready.number _).mpr fun hmem => ?_, hnew⟩, ?_⟩
    · exact hready.notMem _ hmem (by simp [hs])
    · rw [fresh_setMulti]
      exact fun hno => hno.1 rfl

/-- Any other id is as fresh as it was, but for the one that is asked for. -/
theorem Inserts.fresh_iff (h : Inserts seen plan id newId plan') (hready : Ready seen plan)
    {other : Str} (hne : other ≠ newId) : Fresh plan' other ↔ Fresh plan other := by
  have hother (hid : id ∈ seen) (hfresh : Fresh plan other) : other ≠ id := by
    rintro rfl
    exact (hready.number other).mp hfresh.1 hid
  cases h with
  | first h =>
    rw [fresh_setNumber]
    exact and_iff_right hne
  | uncopied h hcopy => rfl
  | taken h number htaken =>
    rw [fresh_setNumber]
    exact ⟨And.right, fun hfresh => ⟨hother h hfresh, hfresh⟩⟩
  | copied h number place hnew hcopy =>
    rw [fresh_setMulti, fresh_setNumber]
    exact ⟨fun hfresh => hfresh.2.2, fun hfresh => ⟨hne, hother h hfresh, hfresh⟩⟩

/-- Without room for the number, the id that is returned is that of another place or the first
visit. -/
theorem Inserts.of_not_leavesRoom (h : Inserts seen plan id newId plan') (hready : Ready seen plan)
    (hid : 35 ∉ id) (hroom : ¬ LeavesRoom plan.places seen id) :
    newId ≠ [] ∧ (getCutId newId = id → ¬ Fresh plan newId) := by
  rw [LeavesRoom, Classical.not_imp, Classical.not_imp, not_lt] at hroom
  obtain ⟨hseen, hcopyable, hlength⟩ := hroom
  have hnotMem (number : ℕ) : 35 ∉ numberedId id number := by
    rw [numberedId_of_le hlength]
    exact fun hmem => hid (List.mem_of_mem_take hmem)
  cases h with
  | first h => exact absurd hseen h
  | uncopied h hcopy => exact absurd hcopyable hcopy
  | taken h number htaken => exact absurd (hready.multi _ htaken) (hnotMem number)
  | copied h number place hnew hcopy =>
    refine ⟨?_, fun hcut hfresh => ?_⟩
    · rw [numberedId_of_le hlength]
      intro hnil
      have hzero := congrArg List.length hnil
      rw [List.length_take, List.length_nil] at hzero
      omega
    · rw [getCutId_of_notMem (hnotMem number)] at hcut
      rw [hcut] at hfresh
      exact (hready.number id).mp hfresh.1 h

end

/-! ## A run -/

/-- The ids that are returned are distinct, and each one is cut to the one asked for. -/
structure Told (results : List (Str × Str)) : Prop where
  distinct : results.Pairwise fun a b => a.2 ≠ [] → a.2 ≠ b.2
  cut : ∀ a ∈ results, a.2 ≠ [] → getCutId a.2 = a.1

/-- No id that is asked for again leaves no room for the number. -/
def RepeatsShort (places : Str → Option MultiPlace) (seen ids : List Str) : Prop :=
  ∀ before id behind, ids = before ++ id :: behind → LeavesRoom places (seen ++ before) id

theorem repeatsShort_cons {places : Str → Option MultiPlace} :
    RepeatsShort places seen (id :: ids) ↔
      LeavesRoom places seen id ∧ RepeatsShort places (id :: seen) ids := by
  constructor
  · intro h
    refine ⟨by simpa using h [] id ids rfl, fun before other behind heq hmem => ?_⟩
    refine h (id :: before) other behind (by rw [heq, List.cons_append]) ?_
    simpa [or_left_comm, or_assoc] using hmem
  · rintro ⟨hid, hids⟩ before other behind heq hmem
    cases before with
    | nil =>
      cases heq
      exact hid (by simpa using hmem)
    | cons first before =>
      obtain ⟨rfl, rfl⟩ := List.cons.inj heq
      refine hids before other behind rfl ?_
      simpa [or_left_comm, or_assoc] using hmem

theorem told_iff (hready : Ready seen plan) (h : ∀ id ∈ ids, Existing plan.places id) :
    (Told (plan.insertAll ids) ∧ ∀ a ∈ plan.insertAll ids, a.2 ≠ [] → Fresh plan a.2) ↔
      RepeatsShort plan.places seen ids := by
  induction ids generalizing plan seen with
  | nil =>
    refine iff_of_true ⟨⟨List.Pairwise.nil, List.forall_mem_nil _⟩, List.forall_mem_nil _⟩ ?_
    intro before id behind heq
    simp at heq
  | cons id ids ih =>
    obtain ⟨hid, hids⟩ := List.forall_mem_cons.mp h
    have hinserts := insert2MultiMap_inserts hready hid
    rw [repeatsShort_cons, insertAll]
    generalize plan.insert2MultiMap id = result at hinserts
    obtain ⟨newId, plan'⟩ := result
    dsimp only at hinserts ⊢
    by_cases hroom : LeavesRoom plan.places seen id
    · have hready' := hinserts.ready hready hid.notMem hroom
      have hrest := ih hready' (hinserts.places ▸ hids)
      rw [hinserts.places] at hrest
      rw [and_iff_right hroom, ← hrest, List.forall_mem_cons]
      constructor
      · rintro ⟨⟨hdistinct, hcut⟩, hfirst, hfresh⟩
        obtain ⟨hnew, hdistinct⟩ := List.pairwise_cons.mp hdistinct
        refine ⟨⟨hdistinct, (List.forall_mem_cons.mp hcut).2⟩, fun a ha hne => ?_⟩
        rcases eq_or_ne newId [] with rfl | hnewId
        · exact (hinserts.fresh_iff hready hne).mpr (hfresh a ha hne)
        · exact (hinserts.fresh_iff hready (hnew a ha hnewId).symm).mpr (hfresh a ha hne)
      · rintro ⟨⟨hdistinct, hcut⟩, hfresh⟩
        have hother (a : Str × Str) (ha : a ∈ plan'.insertAll ids) (hne : newId ≠ []) :
            a.2 ≠ newId := by
          intro heq
          have hnew := hfresh a ha (heq.symm ▸ hne)
          rw [heq] at hnew
          exact (hinserts.fresh hready hid.notMem hroom hne).2.2 hnew
        refine ⟨⟨List.pairwise_cons.mpr ⟨fun a ha hne => (hother a ha hne).symm, hdistinct⟩,
          List.forall_mem_cons.mpr ⟨fun hne => ?_, hcut⟩⟩, fun hne => ?_, fun a ha hne => ?_⟩
        · exact (hinserts.fresh hready hid.notMem hroom hne).1
        · exact (hinserts.fresh hready hid.notMem hroom hne).2.1
        · refine (hinserts.fresh_iff hready fun heq => ?_).mp (hfresh a ha hne)
          exact hother a ha (heq ▸ hne) heq
    · refine iff_of_false ?_ fun hall => hroom hall.1
      rintro ⟨⟨-, hcut⟩, hfresh⟩
      obtain ⟨hne, hold⟩ := hinserts.of_not_leavesRoom hready hid.notMem hroom
      exact hold ((List.forall_mem_cons.mp hcut).1 hne) ((List.forall_mem_cons.mp hfresh).1 hne)

/-- The calls on a new plan. -/
theorem insertAll_told_iff {places : Str → Option MultiPlace}
    (h : ∀ id ∈ ids, Existing places id) :
    Told (insertAll { places := places } ids) ↔
      ∀ before id behind, ids = before ++ id :: behind → id ∈ before → Copyable places id →
        id.length < 999 := by
  have hready : Ready [] { places := places } :=
    ⟨List.forall_mem_nil _, fun _ => iff_of_true rfl List.not_mem_nil, fun _ hno => absurd rfl hno⟩
  refine Iff.trans (and_iff_left fun _ _ _ => ⟨rfl, rfl⟩).symm ((told_iff hready h).trans ?_)
  simp only [RepeatsShort, LeavesRoom, List.nil_append]

/-- One view. -/
def oneView (id other : Str) : Option MultiPlace :=
  if other = id then some { ID := id, t := LY_PLACE_TYPE_VIEW, cls := .view } else none

theorem existing_oneView {id : Str} (hne : id ≠ []) (hid : 35 ∉ id) : Existing (oneView id) id :=
  ⟨hne, hid, _, if_pos rfl, rfl⟩

/-- `v1`, `v1#01` and `v1#02` -/
theorem insertAll_told_iff_oneView :
    Told (insertAll { places := oneView [118, 49] } [[118, 49], [118, 49], [118, 49]]) ↔
      ∀ before id behind, [[118, 49], [118, 49], [118, 49]] = before ++ id :: behind →
        id ∈ before → Copyable (oneView [118, 49]) id → id.length < 999 :=
  insertAll_told_iff fun id hid => by
    obtain rfl : id = [118, 49] := by simpa using hid
    exact existing_oneView (by decide) (by decide)

def longId : Str := List.replicate 999 97

/-- The number is cut off, and the copy is told the id of the place. -/
theorem not_insertAll_told : ¬ ∀ (places : Str → Option MultiPlace) (ids : List Str),
    (∀ id ∈ ids, Existing places id) → Told (insertAll { places := places } ids) := by
  intro hall
  have htold := hall (oneView longId) [longId, longId] fun id hid => by
    obtain rfl : id = longId := by simpa using hid
    exact existing_oneView (by decide) (by decide +kernel)
  have hrun : insertAll { places := oneView longId } [longId, longId] =
      [(longId, longId), (longId, longId)] := by decide +kernel
  rw [hrun] at htold
  exact (List.pairwise_cons.mp htold.distinct).1 _ (List.mem_singleton_self _) (by decide) rfl

end MultiPlan

end PPView
