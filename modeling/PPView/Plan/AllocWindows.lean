import Mathlib.Data.List.Sublists
import PPView.Plan.PlaceInfoAlloc

/-!
# The windows that a block gets

What one round of `IsAllocable` can do: the plan changes by the duration of a tour only, and what a
block gets has a window to visit the place, and a null window only for the other meal of a
restaurant.
-/

namespace PPView

namespace InfoPlan

variable {plan plan' : InfoPlan} {fuel : ℕ} {tmp : TimeIR.DateRange} {date : Str}
  {vPlace : VarPlace} {pInfo : VarPlaceInfo}

/-! ## The information -/

/-- The types of a restaurant: its meals, or all of them for one that is only looked at. -/
def MealType (type : ℕ) : Prop :=
  type ∈ [RESTAURANT_TYPE_LUNCH, RESTAURANT_TYPE_SUPPER,
    RESTAURANT_TYPE_LUNCH ||| RESTAURANT_TYPE_SUPPER, NODE_FUNC_PLACE_RESTAURANT.toNat]

/-- Windows without a meal, or the lunch before the supper of a restaurant. -/
def Meals (type : ℕ) (windows : List MealWindow) : Prop :=
  (∀ window ∈ windows, window.meals = 0) ∨
    (windows.map MealWindow.meals).Sublist [RESTAURANT_TYPE_LUNCH, RESTAURANT_TYPE_SUPPER] ∧
      MealType type

/-- A `PlaceInfo` as `VarPlace2PlaceInfo` makes it. -/
structure Made (vPlace : VarPlace) (pInfo : VarPlaceInfo) : Prop where
  vPlace : pInfo.vPlace = vPlace.ID
  meals : Meals pInfo.type pInfo.openCloseList

theorem made_infoOf {type : ℕ} {openCloseList : List MealWindow}
    (h : ∀ window ∈ openCloseList, window.meals = 0) :
    Made vPlace (infoOf vPlace type openCloseList) := ⟨rfl, .inl h⟩

theorem made_lookInfo {type : ℕ} (h : plan.lookInfo date vPlace type = .ok (some pInfo)) :
    Made vPlace pInfo := by
  obtain ⟨day0, -, h⟩ := bind_ok.mp h
  obtain rfl := Option.some.inj (Except.ok.inj h)
  exact made_infoOf (by simp)

theorem made_view (h : plan.view2PlaceInfo fuel tmp date vPlace = .ok (some pInfo)) :
    Made vPlace pInfo := by
  unfold view2PlaceInfo at h
  split at h
  · exact made_lookInfo h
  · obtain ⟨datelist, -, h⟩ := bind_ok.mp h
    obtain ⟨range, -, rfl⟩ := Option.map_eq_some_iff.mp (Except.ok.inj h)
    exact made_infoOf (by simp)

theorem made_shop (h : plan.shop2PlaceInfo fuel tmp date vPlace = .ok (some pInfo)) :
    Made vPlace pInfo := by
  unfold shop2PlaceInfo at h
  split at h
  · exact made_lookInfo h
  · obtain ⟨datelist, -, h⟩ := bind_ok.mp h
    obtain ⟨range, -, rfl⟩ := Option.map_eq_some_iff.mp (Except.ok.inj h)
    exact made_infoOf (by simp)

theorem meals_mealWindow {restTime : RestaurantTime} {range : Option (Int × Int)}
    {window : MealWindow} (h : plan.mealWindow date vPlace restTime range = .ok (some window)) :
    window.meals = restTime.type := by
  cases range with
  | none => simp [mealWindow, pure, Except.pure] at h
  | some range =>
    obtain ⟨range, -, h⟩ := bind_ok.mp h
    have h := Except.ok.inj h
    split at h
    · simp at h
    · obtain rfl := Option.some.inj h
      rfl

theorem meals_mealWindows {meals : List RestaurantTime} {windows : List MealWindow}
    (h : plan.mealWindows fuel tmp date vPlace meals = .ok windows) :
    (windows.map MealWindow.meals).Sublist (meals.map RestaurantTime.type) := by
  induction meals generalizing windows with
  | nil =>
    obtain rfl := Except.ok.inj h
    exact .slnil
  | cons restTime meals ih =>
    obtain ⟨datelist, -, h⟩ := bind_ok.mp h
    obtain ⟨window, hwindow, h⟩ := bind_ok.mp h
    obtain ⟨rest, hrest, h⟩ := bind_ok.mp h
    obtain rfl := Except.ok.inj h
    cases window with
    | none => exact (ih hrest).cons _
    | some window =>
      rw [Option.toList_some, List.singleton_append, List.map_cons, List.map_cons,
        meals_mealWindow hwindow]
      exact (ih hrest).cons_cons _

theorem mealsOf_sublist (plan : InfoPlan) (vPlace : VarPlace) :
    ((plan.mealsOf vPlace).map RestaurantTime.type).Sublist
      [RESTAURANT_TYPE_LUNCH, RESTAURANT_TYPE_SUPPER] := by
  have hsub : (plan.mealsOf vPlace).Sublist (restaurantTimeList.filter fun restTime =>
      restTime.type = RESTAURANT_TYPE_LUNCH ∨ restTime.type = RESTAURANT_TYPE_SUPPER) := by
    unfold mealsOf
    refine List.monotone_filter_right _ fun restTime h => ?_
    simp only [decide_eq_true_eq] at h ⊢
    exact h.2
  exact hsub.map _

/-- The type of the meals that are left. -/
theorem mealType_of_sublist {meals : List ℕ} (hne : meals ≠ [])
    (h : meals.Sublist [RESTAURANT_TYPE_LUNCH, RESTAURANT_TYPE_SUPPER]) :
    MealType (meals.foldl (· ||| ·) 0) := by
  have hmem := List.mem_sublists.mpr h
  rw [show List.sublists [RESTAURANT_TYPE_LUNCH, RESTAURANT_TYPE_SUPPER] =
    [[], [RESTAURANT_TYPE_LUNCH], [RESTAURANT_TYPE_SUPPER],
      [RESTAURANT_TYPE_LUNCH, RESTAURANT_TYPE_SUPPER]] from rfl] at hmem
  simp only [List.mem_cons, hne, false_or, List.not_mem_nil, or_false] at hmem
  rcases hmem with rfl | rfl | rfl <;> simp [MealType]

theorem made_restaurant (h : plan.restaurant2PlaceInfo fuel tmp date vPlace = .ok (some pInfo)) :
    Made vPlace pInfo := by
  have hmeals := mealsOf_sublist plan vPlace
  obtain ⟨windows, hwindows, h⟩ := bind_ok.mp h
  have hsub := (meals_mealWindows hwindows).trans hmeals
  split at h
  · rename_i hne
    obtain rfl := Option.some.inj (Except.ok.inj h)
    have htype := mealType_of_sublist (by simpa using hne) hsub
    rw [List.foldl_map] at htype
    exact ⟨rfl, .inr ⟨hsub, htype⟩⟩
  · split at h
    · split at h
      · simp [pure, Except.pure] at h
      · rename_i restTime hlast
        obtain ⟨day0, -, h⟩ := bind_ok.mp h
        obtain rfl := Option.some.inj (Except.ok.inj h)
        have hmem := hmeals.subset (List.mem_map_of_mem (List.mem_of_getLast? hlast))
        refine ⟨rfl, .inr ⟨List.singleton_sublist.mpr hmem, ?_⟩⟩
        rcases List.mem_cons.mp hmem with hlunch | hsupper
        · simp only [infoOf, hlunch, MealType]
          decide
        · simp only [infoOf, List.mem_singleton.mp hsupper, MealType]
          decide
    · simp [pure, Except.pure] at h

/-! ## What changes -/

/-- The duration that the user gave for the place may change. -/
structure Resets (vPlace : VarPlace) (plan plan' : InfoPlan) : Prop where
  eq : plan' = { plan with userDurMap := plan'.userDurMap }
  isSome : (plan'.userDurMap.lookup vPlace.ID).isSome = (plan.userDurMap.lookup vPlace.ID).isSome
  other : ∀ id, id ≠ vPlace.ID → plan'.userDurMap.lookup id = plan.userDurMap.lookup id
  tour : vPlace.tour = none → plan' = plan

theorem Resets.refl (plan : InfoPlan) : Resets vPlace plan plan :=
  ⟨rfl, rfl, fun _ _ => rfl, fun _ => rfl⟩

theorem Resets.trans {plan₁ plan₂ plan₃ : InfoPlan} (h : Resets vPlace plan₁ plan₂)
    (h' : Resets vPlace plan₂ plan₃) : Resets vPlace plan₁ plan₃ where
  eq := by
    rw [h'.eq, h.eq]
  isSome := h'.isSome.trans h.isSome
  other id hid := (h'.other id hid).trans (h.other id hid)
  tour htour := (h'.tour htour).trans (h.tour htour)

theorem resets_foldl (htour : vPlace.tour ≠ none) (sessions : List (Int × Int)) :
    Resets vPlace plan (sessions.foldl (resetDur vPlace.ID) plan) := by
  induction sessions generalizing plan with
  | nil => exact .refl plan
  | cons session sessions ih =>
    refine Resets.trans ?_ ih
    unfold resetDur
    split
    · rename_i hsome
      refine ⟨rfl, by simp [setUserDur, hsome], fun id hid => ?_, fun h => absurd h htour⟩
      simp [setUserDur, List.lookup_cons, beq_eq_false_iff_ne.mpr hid]
    · exact .refl plan

theorem made_tour (h : plan.tour2PlaceInfo fuel tmp date vPlace = .ok (plan', some pInfo)) :
    Made vPlace pInfo := by
  unfold tour2PlaceInfo at h
  split at h
  · simp [pure, Except.pure] at h
  · obtain ⟨datelist, -, h⟩ := bind_ok.mp h
    split at h
    · simp [pure, Except.pure] at h
    · obtain ⟨-, hinfo⟩ := Prod.mk.inj (Except.ok.inj h)
      obtain rfl := Option.some.inj hinfo
      refine made_infoOf fun window hwindow => ?_
      obtain ⟨session, -, rfl⟩ := List.mem_map.mp hwindow
      rfl

theorem resets_tour {pInfo : Option VarPlaceInfo}
    (h : plan.tour2PlaceInfo fuel tmp date vPlace = .ok (plan', pInfo)) :
    Resets vPlace plan plan' := by
  unfold tour2PlaceInfo at h
  split at h
  · obtain ⟨rfl, -⟩ := Prod.mk.inj (Except.ok.inj h)
    exact .refl plan
  · rename_i htour
    obtain ⟨datelist, -, h⟩ := bind_ok.mp h
    split at h
    · obtain ⟨rfl, -⟩ := Prod.mk.inj (Except.ok.inj h)
      exact .refl plan
    · obtain ⟨rfl, -⟩ := Prod.mk.inj (Except.ok.inj h)
      exact resets_foldl (by simp [htour]) _

/-- Only a tour changes the plan. -/
theorem info_cases {pInfo : Option VarPlaceInfo}
    (h : plan.info fuel tmp date vPlace = .ok (plan', pInfo)) :
    Resets vPlace plan plan' ∧ ∀ info ∈ pInfo, Made vPlace info := by
  have hof : ∀ {x : Res (Option VarPlaceInfo)}, (plan, ·) <$> x = .ok (plan', pInfo) →
      (∀ info, x = .ok (some info) → Made vPlace info) →
      Resets vPlace plan plan' ∧ ∀ info ∈ pInfo, Made vPlace info := by
    intro x hx hmade
    cases x with
    | error e => simp [Functor.map, Except.map] at hx
    | ok info =>
      obtain ⟨rfl, rfl⟩ := Prod.mk.inj (Except.ok.inj hx)
      exact ⟨.refl plan, fun info hinfo => hmade info (by rw [hinfo])⟩
  unfold info at h
  split at h
  · exact hof h fun info hinfo => made_view hinfo
  split at h
  · exact hof h fun info hinfo => made_restaurant hinfo
  split at h
  · exact hof h fun info hinfo => made_shop hinfo
  split at h
  · refine ⟨resets_tour h, fun info hinfo => ?_⟩
    rw [hinfo] at h
    exact made_tour h
  · obtain ⟨rfl, rfl⟩ := Prod.mk.inj (Except.ok.inj h)
    exact ⟨.refl plan, by simp⟩

theorem varPlace2PlaceInfo_cases {pInfo : Option VarPlaceInfo}
    (h : plan.varPlace2PlaceInfo fuel tmp date vPlace = .ok (plan', pInfo)) :
    Resets vPlace plan plan' ∧ ∀ info ∈ pInfo, Made vPlace info := by
  obtain ⟨⟨plan₁, info⟩, hinfo, h⟩ := bind_ok.mp h
  obtain ⟨hresets, hmade⟩ := info_cases hinfo
  dsimp only at h
  split at h
  · obtain ⟨day0, -, h⟩ := bind_ok.mp h
    obtain ⟨rfl, rfl⟩ := Prod.mk.inj (Except.ok.inj h)
    refine ⟨hresets, fun info hinfo => ?_⟩
    obtain rfl := Option.some.inj hinfo
    exact made_infoOf (by simp)
  · obtain ⟨rfl, rfl⟩ := Prod.mk.inj (Except.ok.inj h)
    exact ⟨hresets, hmade⟩

end InfoPlan

namespace AllocPlan

open InfoPlan

variable {plan plan' : AllocPlan} {fuel : ℕ} {tmp : TimeIR.DateRange} {place : AllocPlace}
  {block : AllocBlock} {blocks blocks' : List AllocBlock} {pInfo : VarPlaceInfo} {i : ℕ}

/-! ## The windows that are kept -/

theorem some_mem_pairMeals {avail : List MealWindow} {window : MealWindow}
    (h : some window ∈ pairMeals place avail) : window ∈ avail := by
  unfold pairMeals at h
  dsimp only at h
  split_ifs at h <;> simpa using h

/-- A null window stands for the other meal of a restaurant. -/
theorem none_mem_pairMeals {type : ℕ} {avail : List MealWindow} (hmeals : Meals type avail)
    (h : none ∈ pairMeals place avail) :
    MealType type ∧ ∃ window,
      window.meals = RESTAURANT_TYPE_LUNCH ∧ pairMeals place avail = [some window, none] ∨
        window.meals = RESTAURANT_TYPE_SUPPER ∧ pairMeals place avail = [none, some window] := by
  unfold pairMeals at h ⊢
  dsimp only at h ⊢
  rcases hmeals with hmeals | ⟨hsub, htype⟩
  · have hcount : ∀ meal, 0 < meal →
        avail.countP (fun openClose => decide (openClose.meals = meal)) = 0 := by
      intro meal hmeal
      rw [List.countP_eq_zero]
      intro window hwindow
      simp [hmeals window hwindow, hmeal.ne]
    rw [hcount RESTAURANT_TYPE_LUNCH (by decide), hcount RESTAURANT_TYPE_SUPPER (by decide)] at h
    simp at h
  · refine ⟨htype, ?_⟩
    match avail, hsub with
    | [], _ => simp at h
    | [window], _ =>
      refine ⟨window, ?_⟩
      split_ifs at h ⊢ with hrest hlunch hsupper
      · exact .inl ⟨by simpa using hlunch.1, rfl⟩
      · exact .inr ⟨by simpa using hsupper.1, rfl⟩
      · simp at h
      · simp at h
    | [lunch, supper], hsub =>
      obtain ⟨hlunch, hsupper⟩ : lunch.meals = RESTAURANT_TYPE_LUNCH ∧
          supper.meals = RESTAURANT_TYPE_SUPPER := by
        simpa using hsub.eq_of_length rfl
      have hne : RESTAURANT_TYPE_LUNCH ≠ RESTAURANT_TYPE_SUPPER := by decide
      simp [hlunch, hsupper, hne, hne.symm] at h
    | _ :: _ :: _ :: _, hsub => exact absurd hsub.length_le (by simp)

/-- What a block knows about a place that it got, with the number `i` of the block. -/
structure Windows (plan : AllocPlan) (place : AllocPlace) (i : ℕ) (block : AllocBlock)
    (pInfo : VarPlaceInfo) : Prop where
  vPlace : pInfo.vPlace = place.ID
  availDur : 0 ≤ block.availDur
  play : block.isNotPlay = true → place.rawType &&& LY_PLACE_TYPE_CAR_STORE ≠ 0
  date : plan.isUserDateAvail place block.trafDate = true
  ne_nil : pInfo.availOpenCloseList ≠ []
  subset : ∀ window, some window ∈ pInfo.availOpenCloseList → window ∈ pInfo.openCloseList
  null : none ∈ pInfo.availOpenCloseList →
    MealType pInfo.type ∧ ∃ window,
      window.meals = RESTAURANT_TYPE_LUNCH ∧ pInfo.availOpenCloseList = [some window, none] ∨
        window.meals = RESTAURANT_TYPE_SUPPER ∧ pInfo.availOpenCloseList = [none, some window]
  /-- The key nodes of the block leave time for the place, the duration of a tour apart. -/
  fits : plan.faultTolerant = false → place.tour = none → plan.isPhotoRest place = false →
    ∃ fromKey toKey, plan.keyNode[i]? = some fromKey ∧ plan.keyNode[i + 1]? = some toKey ∧
      ∀ window, some window ∈ pInfo.availOpenCloseList →
        plan.Fits place fromKey toKey block.trafDate pInfo window.toOpenClose

theorem windows_availOf {avail : List (Option MealWindow)} (hmade : Made place.toVarPlace pInfo)
    (havailDur : ¬block.availDur < 0)
    (hplay : ¬(place.rawType &&& LY_PLACE_TYPE_CAR_STORE = 0 ∧ block.isNotPlay = true))
    (hdate : ¬(!plan.isUserDateAvail place block.trafDate) = true)
    (h : plan.availOf place i block.trafDate pInfo = .ok avail) (hne : avail ≠ []) :
    Windows plan place i block { pInfo with availOpenCloseList := avail } := by
  suffices hwindows : (∀ window, some window ∈ avail → window ∈ pInfo.openCloseList) ∧
      (none ∈ avail → MealType pInfo.type ∧ ∃ window,
        window.meals = RESTAURANT_TYPE_LUNCH ∧ avail = [some window, none] ∨
          window.meals = RESTAURANT_TYPE_SUPPER ∧ avail = [none, some window]) ∧
      (plan.faultTolerant = false → plan.isPhotoRest place = false → ∃ fromKey toKey,
        plan.keyNode[i]? = some fromKey ∧ plan.keyNode[i + 1]? = some toKey ∧
          ∀ window, some window ∈ avail →
            plan.Fits place fromKey toKey block.trafDate pInfo window.toOpenClose) by
    obtain ⟨hsubset, hnull, hfits⟩ := hwindows
    exact ⟨hmade.vPlace, not_lt.mp havailDur, fun hnot hcar => hplay ⟨hcar, hnot⟩,
      by simpa using hdate, hne, hsubset, hnull, fun htolerant _ hphoto => hfits htolerant hphoto⟩
  unfold availOf at h
  split at h
  · rename_i htolerant
    obtain rfl := Except.ok.inj h
    exact ⟨by simp, by simp, fun h => by simp [htolerant] at h⟩
  · split at h
    · rename_i fromKey toKey hfrom hto
      obtain rfl := Except.ok.inj h
      refine ⟨fun window hwindow => ?_, fun hnull => none_mem_pairMeals ?_ hnull,
        fun _ hphoto => ⟨fromKey, toKey, hfrom, hto, fun window hwindow => ?_⟩⟩
      · exact (List.mem_filter.mp (some_mem_pairMeals hwindow)).1
      · rcases hmade.meals with hmeals | ⟨hsub, htype⟩
        · exact .inl fun window hwindow => hmeals window (List.mem_filter.mp hwindow).1
        · exact .inr ⟨(List.filter_sublist.map _).trans hsub, htype⟩
      · have hkept := (List.mem_filter.mp (some_mem_pairMeals hwindow)).2
        simpa [hphoto] using hkept
    · simp at h

/-- The duration of a tour may change, and nothing else. -/
def Resets (place : AllocPlace) (plan plan' : AllocPlan) : Prop :=
  InfoPlan.Resets place.toVarPlace plan.toInfoPlan plan'.toInfoPlan ∧
    plan' = { plan with toInfoPlan := plan'.toInfoPlan }

theorem allocIn_cases {pInfo : Option VarPlaceInfo}
    (h : plan.allocIn fuel tmp place i block = .ok (plan', pInfo)) :
    Resets place plan plan' ∧ ∀ info ∈ pInfo, Windows plan' place i block info := by
  have hrefl : Except.ok (plan, none) = (.ok (plan', pInfo) : Res _) →
      Resets place plan plan' ∧ ∀ info ∈ pInfo, Windows plan' place i block info := fun heq => by
    obtain ⟨rfl, rfl⟩ := Prod.mk.inj (Except.ok.inj heq)
    exact ⟨⟨.refl _, rfl⟩, by simp⟩
  unfold allocIn at h
  split at h
  · exact hrefl h
  rename_i havailDur
  split at h
  · exact hrefl h
  rename_i hplay
  split at h
  · exact hrefl h
  rename_i hdate
  obtain ⟨⟨info, pInfo₁⟩, hinfo, h⟩ := bind_ok.mp h
  obtain ⟨hresets, hmade⟩ := varPlace2PlaceInfo_cases hinfo
  dsimp only at h
  have hnone : Except.ok ({ plan with toInfoPlan := info }, none) = (.ok (plan', pInfo) : Res _) →
      Resets place plan plan' ∧ ∀ info ∈ pInfo, Windows plan' place i block info := fun heq => by
    obtain ⟨rfl, rfl⟩ := Prod.mk.inj (Except.ok.inj heq)
    exact ⟨⟨hresets, rfl⟩, by simp⟩
  split at h
  · exact hnone h
  · rename_i pInfo₁
    split at h
    · exact hnone h
    · obtain ⟨avail, havail, h⟩ := bind_ok.mp h
      split at h
      · exact hnone h
      · rename_i hne
        obtain ⟨rfl, rfl⟩ := Prod.mk.inj (Except.ok.inj h)
        refine ⟨⟨hresets, rfl⟩, fun info hinfo => ?_⟩
        obtain rfl := Option.some.inj hinfo
        exact windows_availOf (hmade _ rfl) havailDur hplay hdate havail hne

end AllocPlan

end PPView
