import Mathlib.Data.Finset.Insert
import PPView.Library.Greedy
import PPView.Library.Json
import PPView.Library.StableSort

/-!
# Views of reference trips

`Planner::SetReferOriginViews` gives the cities of a request the views of the same cities of other
trips, those with the closest durations first. The position of a city in a trip is encoded as one
number.
-/

namespace PPView.Planner

/-- A city of a reference trip; `tour` says whether it has a member of that name. -/
structure ReferCity where
  cid : String
  arv_time : String
  dept_time : String
  tour : Bool
  view : Json
  checkin : Json
  checkout : Json

/-- A city of the request. -/
structure ReqCity where
  cid : String
  arv_time : String
  dept_time : String
  originView : Json

/-- The trips, by their routes if they have one. -/
abbrev ReferTrips := List (Option (List ReferCity))

/-- `MJ::MyTime::compareTimeStr` -/
abbrev CompareTimeStr := String → String → Int

/-- The durations are compared for the cities between the first and the last one of a trip. -/
def candidatesOf (compareTimeStr : CompareTimeStr) (isTourCity : Bool) (req : ReqCity) (k i : ℕ)
    (route : List ReferCity) : List (Int × ℕ × ℕ) :=
  (List.range' 1 (route.length - 2)).filterMap fun j =>
    match route[j]? with
    | none => none
    | some referCity =>
      if referCity.tour = isTourCity ∧ referCity.cid = req.cid then
        let reqSeconds := compareTimeStr req.arv_time req.dept_time
        let seconds := compareTimeStr referCity.arv_time referCity.dept_time
        some ((seconds - reqSeconds).natAbs, k, 100 * i + j)
      else none

/-- The entries of the multimap, in its order. -/
def playDurDist (compareTimeStr : CompareTimeStr) (isTourCity : Bool) (reqList : List ReqCity)
    (referTrips : ReferTrips) : List (Int × ℕ × ℕ) :=
  stableSort (fun x y => x.1 < y.1) <|
    reqList.zipIdx.flatMap fun (req, k) => referTrips.zipIdx.flatMap fun (trip, i) =>
      match trip with
      | none => []
      | some route => candidatesOf compareTimeStr isTourCity req k i route

/-- `referTrips[tripIdx]["route"][routeIdx]`, if there is such a city. -/
def referCityAt (referTrips : ReferTrips) (tripIdx routeIdx : ℕ) : Option ReferCity :=
  match referTrips[tripIdx]? with
  | some (some route) => route[routeIdx]?
  | _ => none

/-- The view that is given to a city. -/
def originViewOf (referTrips : ReferTrips) (tripIdx routeIdx : ℕ) : Option Json :=
  match referCityAt referTrips tripIdx routeIdx with
  | none => some .null
  | some referCity =>
    match referCity.checkin, referCity.checkout with
    | .str checkin, .str checkout =>
      if checkin.utf8ByteSize = 8 ∧ checkout.utf8ByteSize = 8 then do
        (← referCity.view.put "checkin" (.str checkin)).put "checkout" (.str checkout)
      else some referCity.view
    | _, _ => some referCity.view

/-- The state of the second loop. `refers` lists what is logged: the city, the trip and the index in
its route. -/
structure ReferState where
  reqList : List ReqCity
  reqRefered : Finset ℕ := ∅
  viewRefered : Finset ℕ := ∅
  refers : List (ℕ × ℕ × ℕ) := []

def referView (referTrips : ReferTrips) (s : ReferState) (entry : Int × ℕ × ℕ) :
    Option ReferState :=
  let reqCityIdx := entry.2.1
  let viewIdx := entry.2.2
  if reqCityIdx ∉ s.reqRefered ∧ viewIdx ∉ s.viewRefered then do
    let tripIdx := viewIdx / 100
    let routeIdx := viewIdx % 100
    let originView ← originViewOf referTrips tripIdx routeIdx
    pure {
      reqList := s.reqList.modify reqCityIdx ({ · with originView })
      reqRefered := insert reqCityIdx s.reqRefered
      viewRefered := insert viewIdx s.viewRefered
      refers := s.refers ++ [(reqCityIdx, tripIdx, routeIdx)] }
  else pure s

def setReferOriginViews (compareTimeStr : CompareTimeStr) (isTourCity : Bool)
    (reqList : List ReqCity) (referTrips : ReferTrips) : Option ReferState :=
  (playDurDist compareTimeStr isTourCity reqList referTrips).foldlM (referView referTrips)
    { reqList := reqList.map ({ · with originView := .null }) }

/-! ## Matches -/

variable {compareTimeStr : CompareTimeStr} {isTourCity : Bool} {reqList : List ReqCity}
  {referTrips : ReferTrips} {k i j : ℕ}

/-- The city `k` can have the view at the index `j` of the trip `i`. -/
def Matches (isTourCity : Bool) (reqList : List ReqCity) (referTrips : ReferTrips) (k i j : ℕ) :
    Prop :=
  ∃ req route referCity, reqList[k]? = some req ∧ referTrips[i]? = some (some route) ∧
    route[j]? = some referCity ∧ 1 ≤ j ∧ j + 1 < route.length ∧ referCity.tour = isTourCity ∧
    referCity.cid = req.cid

theorem mem_playDurDist_iff {key : ℕ} :
    (k, key) ∈ (playDurDist compareTimeStr isTourCity reqList referTrips).map Prod.snd ↔
      ∃ i j, key = 100 * i + j ∧ Matches isTourCity reqList referTrips k i j := by
  constructor
  · intro h
    obtain ⟨⟨diff, k', key'⟩, hmem, heq⟩ := List.mem_map.mp h
    obtain ⟨rfl, rfl⟩ := Prod.mk.inj heq
    rw [playDurDist, mem_stableSort, List.mem_flatMap] at hmem
    obtain ⟨⟨req, k''⟩, hreq, hmem⟩ := hmem
    obtain ⟨⟨trip, i⟩, htrip, hmem⟩ := List.mem_flatMap.mp hmem
    cases trip with
    | none => simp at hmem
    | some route =>
      obtain ⟨j, hj, hmem⟩ := List.mem_filterMap.mp hmem
      rw [List.mem_range'_1] at hj
      cases hcity : route[j]? with
      | none => simp [hcity] at hmem
      | some referCity =>
        rw [hcity] at hmem
        dsimp only at hmem
        split_ifs at hmem with hthis
        obtain ⟨-, rfl, rfl⟩ : _ ∧ k'' = k' ∧ 100 * i + j = key' := by simpa using hmem
        exact ⟨i, j, rfl, req, route, referCity,
          by simpa using List.mem_zipIdx_iff_getElem?.mp hreq,
          by simpa using List.mem_zipIdx_iff_getElem?.mp htrip, hcity, by omega, by omega, hthis⟩
  · rintro ⟨i, j, rfl, req, route, referCity, hreq, htrip, hcity, hj, hj', hthis⟩
    refine List.mem_map.mpr ⟨(((compareTimeStr referCity.arv_time referCity.dept_time -
      compareTimeStr req.arv_time req.dept_time).natAbs : Int), k, 100 * i + j), ?_, rfl⟩
    rw [playDurDist, mem_stableSort, List.mem_flatMap]
    refine ⟨(req, k), List.mem_zipIdx_iff_getElem?.mpr (by simpa using hreq), ?_⟩
    refine List.mem_flatMap.mpr
      ⟨(some route, i), List.mem_zipIdx_iff_getElem?.mpr (by simpa using htrip), ?_⟩
    refine List.mem_filterMap.mpr ⟨j, List.mem_range'_1.mpr (by omega), ?_⟩
    simp [hcity, hthis]

/-! ## The loop -/

/-- The position that a number stands for. -/
def decode (p : ℕ × ℕ) : ℕ × ℕ × ℕ := (p.1, p.2 / 100, p.2 % 100)

/-- The pairs in `m` are taken. -/
structure Taken (reqList : List ReqCity) (referTrips : ReferTrips) (m : List (ℕ × ℕ))
    (s : ReferState) : Prop where
  reqRefered : ∀ k, k ∈ s.reqRefered ↔ k ∈ m.map Prod.fst
  viewRefered : ∀ key, key ∈ s.viewRefered ↔ key ∈ m.map Prod.snd
  refers : s.refers = m.map decode
  length : s.reqList.length = reqList.length
  given : ∀ k req, s.reqList[k]? = some req →
    (∃ tripIdx routeIdx, (k, tripIdx, routeIdx) ∈ s.refers ∧
      originViewOf referTrips tripIdx routeIdx = some req.originView) ∨
    k ∉ s.refers.map Prod.fst ∧ req.originView = .null

theorem Taken.referView {m : List (ℕ × ℕ)} {s s' : ReferState} {entry : Int × ℕ × ℕ}
    (h : Taken reqList referTrips m s) (hs : referView referTrips s entry = some s') :
    Taken reqList referTrips (Greedy.take m entry.2) s' := by
  rw [Planner.referView] at hs
  dsimp only at hs
  split_ifs at hs with hfree
  · obtain ⟨originView, hview, hs⟩ := Option.bind_eq_some_iff.mp hs
    obtain rfl := Option.some.inj hs
    rw [h.reqRefered, h.viewRefered] at hfree
    rw [Greedy.take_of_not_mem (by tauto)]
    refine ⟨fun k => ?_, fun key => ?_, ?_, ?_, fun k req hreq => ?_⟩
    · simp [h.reqRefered, or_comm]
    · simp [h.viewRefered, or_comm]
    · simp [h.refers, decode]
    · simpa using h.length
    · rw [List.getElem?_modify] at hreq
      obtain ⟨req', hreq', rfl⟩ := Option.map_eq_some_iff.mp hreq
      by_cases hk : entry.2.1 = k
      · subst hk
        refine .inl ⟨entry.2.2 / 100, entry.2.2 % 100, by simp, ?_⟩
        simpa using hview
      · rw [if_neg hk]
        rcases h.given k req' hreq' with ⟨tripIdx, routeIdx, hmem, hview'⟩ | ⟨hnot, hnull⟩
        · exact .inl ⟨tripIdx, routeIdx, List.mem_append_left _ hmem, hview'⟩
        · exact .inr ⟨by simpa [Ne.symm hk] using hnot, hnull⟩
  · obtain rfl := Option.some.inj hs
    rw [h.reqRefered, h.viewRefered] at hfree
    rwa [Greedy.take_of_mem (by tauto)]

theorem setReferOriginViews_taken {s : ReferState}
    (h : setReferOriginViews compareTimeStr isTourCity reqList referTrips = some s) :
    Taken reqList referTrips (Greedy.matching
      ((playDurDist compareTimeStr isTourCity reqList referTrips).map Prod.snd)) s := by
  have loop : ∀ (l : List (Int × ℕ × ℕ)) m s s', Taken reqList referTrips m s →
      l.foldlM (referView referTrips) s = some s' →
      Taken reqList referTrips ((l.map Prod.snd).foldl Greedy.take m) s' := by
    intro l
    induction l with
    | nil =>
      intro m s s' hs hrun
      obtain rfl := Option.some.inj hrun
      exact hs
    | cons entry l ih =>
      intro m s s' hs hrun
      rw [List.foldlM_cons] at hrun
      obtain ⟨s₁, hstep, hrun⟩ := Option.bind_eq_some_iff.mp hrun
      exact ih _ s₁ s' (hs.referView hstep) hrun
  refine loop _ [] _ s ⟨by simp, by simp, rfl, by simp, fun k req hreq => .inr ⟨by simp, ?_⟩⟩ h
  rw [List.getElem?_map] at hreq
  obtain ⟨req', -, rfl⟩ := Option.map_eq_some_iff.mp hreq
  rfl

/-! ## The assignment -/

/-- Each city has at most one view, of its own city, no view is given twice, and a city without a
view has no match that is not given. The views are those that are given. -/
structure Assigns (isTourCity : Bool) (reqList : List ReqCity) (referTrips : ReferTrips)
    (s : ReferState) : Prop where
  once : (s.refers.map Prod.fst).Nodup
  same_city : ∀ k i j, (k, i, j) ∈ s.refers → Matches isTourCity reqList referTrips k i j
  distinct : (s.refers.map Prod.snd).Nodup
  complete : ∀ k i j, Matches isTourCity reqList referTrips k i j →
    k ∉ s.refers.map Prod.fst → (i, j) ∈ s.refers.map Prod.snd
  given : ∀ k req, s.reqList[k]? = some req →
    (∃ tripIdx routeIdx, (k, tripIdx, routeIdx) ∈ s.refers ∧
      originViewOf referTrips tripIdx routeIdx = some req.originView) ∨
    k ∉ s.refers.map Prod.fst ∧ req.originView = .null

/-- A city that has a match behind the first hundred entries of a route is given some match. -/
def FarServed (isTourCity : Bool) (reqList : List ReqCity) (referTrips : ReferTrips)
    (s : ReferState) : Prop :=
  ∀ k i j, Matches isTourCity reqList referTrips k i j → 100 ≤ j →
    ∃ i' j', (k, i', j') ∈ s.refers ∧ Matches isTourCity reqList referTrips k i' j'

theorem decode_injective : Function.Injective fun key : ℕ => (key / 100, key % 100) := by
  intro a b hab
  obtain ⟨hdiv, hmod⟩ := Prod.mk.inj hab
  omega

/-- What is given is decoded from a match of the city. -/
theorem exists_match {s : ReferState}
    (h : setReferOriginViews compareTimeStr isTourCity reqList referTrips = some s)
    {k tripIdx routeIdx : ℕ} (hk : (k, tripIdx, routeIdx) ∈ s.refers) :
    ∃ i j, Matches isTourCity reqList referTrips k i j ∧ tripIdx = (100 * i + j) / 100 ∧
      routeIdx = (100 * i + j) % 100 := by
  have htaken := setReferOriginViews_taken h
  rw [htaken.refers] at hk
  obtain ⟨⟨k', key⟩, hmem, heq⟩ := List.mem_map.mp hk
  obtain ⟨rfl, rfl, rfl⟩ : k' = k ∧ key / 100 = tripIdx ∧ key % 100 = routeIdx := by
    simpa [decode] using heq
  obtain ⟨i, j, rfl, hmatch⟩ :=
    mem_playDurDist_iff.mp ((Greedy.matching_isMaximal _).sub _ hmem)
  exact ⟨i, j, hmatch, rfl, rfl⟩

/-- A match within the first hundred entries is given, or its city has a view. -/
theorem given_or_served {s : ReferState}
    (h : setReferOriginViews compareTimeStr isTourCity reqList referTrips = some s)
    (hmatch : Matches isTourCity reqList referTrips k i j) (hj : j < 100) :
    k ∈ s.refers.map Prod.fst ∨ (i, j) ∈ s.refers.map Prod.snd := by
  have htaken := setReferOriginViews_taken h
  have hkey : (k, 100 * i + j) ∈
      (playDurDist compareTimeStr isTourCity reqList referTrips).map Prod.snd :=
    mem_playDurDist_iff.mpr ⟨i, j, rfl, hmatch⟩
  have hcovered := (Greedy.matching_isMaximal _).covered _ hkey
  rw [htaken.refers, List.map_map, List.map_map]
  refine hcovered.imp id fun hkey => ?_
  obtain ⟨p, hp, hkey⟩ := List.mem_map.mp hkey
  refine List.mem_map.mpr ⟨p, hp, Prod.ext ?_ ?_⟩
  · simp only [Function.comp_apply, decode, hkey]
    omega
  · simp only [Function.comp_apply, decode, hkey]
    omega

/-- The assignment is right exactly if every city with a match behind the first hundred entries of
a route gets one of its matches, and so if there are no such matches. -/
theorem setReferOriginViews_assigns {s : ReferState}
    (h : setReferOriginViews compareTimeStr isTourCity reqList referTrips = some s) :
    (Assigns isTourCity reqList referTrips s ↔ FarServed isTourCity reqList referTrips s) ∧
      ((∀ k i j, Matches isTourCity reqList referTrips k i j → j < 100) →
        Assigns isTourCity reqList referTrips s) := by
  have htaken := setReferOriginViews_taken h
  have hmax := Greedy.matching_isMaximal
    ((playDurDist compareTimeStr isTourCity reqList referTrips).map Prod.snd)
  have honce : (s.refers.map Prod.fst).Nodup := by
    rw [htaken.refers, List.map_map]
    exact hmax.nodup_fst
  have hiff : Assigns isTourCity reqList referTrips s ↔
      FarServed isTourCity reqList referTrips s := by
    constructor
    · intro hassigns k i j hmatch hfar
      by_cases hk : k ∈ s.refers.map Prod.fst
      · obtain ⟨⟨k', i', j'⟩, hmem, rfl⟩ := List.mem_map.mp hk
        exact ⟨i', j', hmem, hassigns.same_city _ _ _ hmem⟩
      · -- A position behind the first hundred is never decoded.
        obtain ⟨⟨k', i', j'⟩, hmem, hpos⟩ := List.mem_map.mp (hassigns.complete k i j hmatch hk)
        obtain ⟨rfl, rfl⟩ := Prod.mk.inj hpos
        obtain ⟨_, _, -, -, hmod⟩ := exists_match h hmem
        omega
    · intro hfar
      refine ⟨honce, fun k tripIdx routeIdx hmem => ?_, ?_, fun k i j hmatch hk => ?_, htaken.given⟩
      · obtain ⟨i, j, hmatch, htrip, hroute⟩ := exists_match h hmem
        by_cases hj : j < 100
        · rwa [htrip, hroute, show (100 * i + j) / 100 = i by omega,
            show (100 * i + j) % 100 = j by omega]
        · obtain ⟨i', j', hmem', hmatch'⟩ := hfar k i j hmatch (by omega)
          have heq := List.inj_on_of_nodup_map honce hmem hmem' rfl
          obtain ⟨-, rfl, rfl⟩ : k = k ∧ tripIdx = i' ∧ routeIdx = j' := by simpa using heq
          exact hmatch'
      · rw [htaken.refers, List.map_map]
        have hcomp : (Prod.snd ∘ decode : ℕ × ℕ → ℕ × ℕ) =
            (fun key => (key / 100, key % 100)) ∘ Prod.snd := rfl
        rw [hcomp, ← List.map_map]
        exact hmax.nodup_snd.map decode_injective
      · by_cases hj : j < 100
        · exact (given_or_served h hmatch hj).resolve_left hk
        · obtain ⟨i', j', hmem, -⟩ := hfar k i j hmatch (by omega)
          exact absurd (List.mem_map.mpr ⟨_, hmem, rfl⟩) hk
  refine ⟨hiff, fun hnear => hiff.mpr fun k i j hmatch hfar => ?_⟩
  have := hnear k i j hmatch
  omega

/-! ## Trips -/

def cityNamed (cid : String) : ReferCity := ⟨cid, "", "", false, .null, .null, .null⟩

/-- A route with `n` other cities in front of the city `X`. -/
def routeWith (n : ℕ) : List ReferCity :=
  List.replicate n (cityNamed "Y") ++ [cityNamed "X", cityNamed "Y"]

def reqOne : List ReqCity := [⟨"X", "", "", .null⟩]

/-- The seconds from nine o'clock. -/
def sinceNine : CompareTimeStr := fun _ dept_time =>
  if dept_time = "20180101_11:00" then 7200
  else if dept_time = "20180101_12:00" then 10800
  else if dept_time = "20180101_13:00" then 14400
  else 0

/-- Two stays in one city. -/
def reqTwo : List ReqCity :=
  [⟨"X", "20180101_09:00", "20180101_13:00", .null⟩,
    ⟨"X", "20180101_09:00", "20180101_12:00", .null⟩]

/-- A route that stays in the city `X` from nine o'clock. -/
def stayUntil (dept_time : String) : List ReferCity :=
  [cityNamed "Y", ⟨"X", "20180101_09:00", dept_time, false, .str dept_time, .null, .null⟩,
    cityNamed "Y"]

def twoTrips : ReferTrips := [some (stayUntil "20180101_11:00"), some (stayUntil "20180101_13:00")]

/-- The first city gets the view of the second trip, which is as long as its own stay. -/
theorem assigns_twoTrips : ∃ s, setReferOriginViews sinceNine false reqTwo twoTrips = some s ∧
    Assigns false reqTwo twoTrips s ∧ s.refers = [(0, 1, 1), (1, 0, 1)] := by
  have hrefers : (setReferOriginViews sinceNine false reqTwo twoTrips).map (·.refers) =
      some [(0, 1, 1), (1, 0, 1)] := by decide +kernel
  obtain ⟨s, hs, hrefers⟩ := Option.map_eq_some_iff.mp hrefers
  refine ⟨s, hs, (setReferOriginViews_assigns hs).2 ?_, hrefers⟩
  rintro k i j ⟨req, route, referCity, -, htrip, -, -, hj, -⟩
  have hroute : route ∈ [stayUntil "20180101_11:00", stayUntil "20180101_13:00"] := by
    simpa [twoTrips] using List.mem_of_getElem? htrip
  have hlen : route.length = 3 := by
    simp only [List.mem_cons, List.not_mem_nil, or_false] at hroute
    rcases hroute with rfl | rfl <;> rfl
  omega

/-- The city at the index 101 is taken for the one at the index 1 of the next trip. -/
theorem not_assigns_longRoute : ∃ s,
    setReferOriginViews (fun _ _ => 0) false reqOne [some (routeWith 101)] = some s ∧
      ¬ Assigns false reqOne [some (routeWith 101)] s := by
  have hrefers : (setReferOriginViews (fun _ _ => 0) false reqOne [some (routeWith 101)]).map
      (·.refers) = some [(0, 1, 1)] := by decide +kernel
  obtain ⟨s, hs, hrefers⟩ := Option.map_eq_some_iff.mp hrefers
  refine ⟨s, hs, fun hassigns => ?_⟩
  obtain ⟨req, route, referCity, -, htrip, -⟩ := hassigns.same_city 0 1 1 (by simp [hrefers])
  cases htrip

end PPView.Planner
