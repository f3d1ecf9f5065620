import PPView.LightPlan.Insertions

/-!
# The days behind the change of the car stores

In a run the days of every city keep their dates and their other views, and each car store is
inserted once at most. A city has as many days as before when it had one for every index that is
looked up, and one at least.
-/

namespace PPView.LightPlan

open Json PostProcessor

def cities (req : Json) : List Json := (req.get "list").items.getD []

/-- The dates and the views that are no car stores, city by city and day by day. -/
def frame (req : Json) : List (List (Json × List Reading)) :=
  (cities req).map fun city => ((oldDays city).project stays).getD []

/-- The views that are car stores, of all cities and days. -/
def storeViews (req : Json) : Multiset Reading :=
  (req.get "list").total fun city => (oldDays city).total carStores

/-! ## Loops over the cities -/

section Loops

variable {σ : Type} {α : Type*} {f : σ → Json → Option (σ × Json)} {s s' : σ} {req req' : Json}

theorem items_of_visitRange {g : ℕ → σ → Json → Option (σ × Json)} {j j' : Json}
    (h : visitRange g s j j.size = some (s', j')) : ∃ items, j.items = some items := by
  by_contra hnone
  have hzero : j.size = 0 := by
    refine (visitRange_induct (P := fun i _ j' => i = 0 ∧ j' = j) ⟨rfl, rfl⟩ ?_ h).1
    rintro i s j₁ s' j₂ - ⟨-, rfl⟩ hitem
    obtain ⟨items, -, hitems, -⟩ := visitItem_eq_some hitem
    exact absurd ⟨items, hitems⟩ hnone
  cases j with
  | obj members =>
    cases members with
    | nil => exact hnone ⟨[], rfl⟩
    | cons m members => cases hzero
  | arr items => exact hnone ⟨items, rfl⟩
  | _ => exact hnone ⟨[], rfl⟩

/-- A loop makes of every city what `t` says. -/
theorem overList_map {p : Json → α} {t : α → α} {Q : α → Prop} {I : σ → Prop} (hs : I s)
    (hf : ∀ ⦃s city s' city'⦄, I s → f s city = some (s', city') →
      I s' ∧ Q (p city) ∧ p city' = t (p city))
    (h : overList f s req = some (s', req')) :
    I s' ∧ (∀ a ∈ (cities req).map p, Q a) ∧
      (cities req').map p = ((cities req).map p).map t := by
  obtain ⟨list, hrange, hput⟩ := visit_eq_some h
  obtain ⟨items, hitems⟩ := items_of_visitRange hrange
  have hlen := size_eq_length hitems
  obtain ⟨hs', hQ, hproject⟩ := visitRange_map hitems hlen.le hs hrange fun _ s v s' v' =>
    @hf s v s' v'
  rw [hlen, ← List.length_map p, List.take_length, List.drop_length, List.append_nil] at hproject
  rw [hlen, ← List.length_map p, List.take_length] at hQ
  obtain ⟨items', hitems', hmap⟩ := Option.map_eq_some_iff.mp hproject
  have hold : cities req = items := by rw [cities, hitems]; rfl
  have hnew : cities req' = items' := by
    rw [cities, get_put hput, if_pos rfl, hitems']
    rfl
  rw [hold, hnew]
  exact ⟨hs', hQ, hmap⟩

/-- What a loop does to the car stores. -/
theorem overList_moves {R : σ × Multiset Reading → σ × Multiset Reading → Prop} (hR : Moves R)
    {I : σ → Prop} (hs : I s)
    (hf : ∀ ⦃s city s' city'⦄, I s → f s city = some (s', city') →
      I s' ∧ R (s, (oldDays city).total carStores) (s', (oldDays city').total carStores))
    (h : overList f s req = some (s', req')) : R (s, storeViews req) (s', storeViews req') := by
  obtain ⟨list, hrange, hput⟩ := visit_eq_some h
  rw [storeViews, storeViews, get_put hput, if_pos rfl]
  refine (visitRange_induct (P := fun _ s' list => I s' ∧
    R (s, (req.get "list").total fun city => (oldDays city).total carStores)
      (s', list.total fun city => (oldDays city).total carStores)) ⟨hs, hR.refl _⟩ ?_ hrange).2
  rintro i s₁ j₁ s₂ j₂ - ⟨hs₁, hmove⟩ hitem
  obtain ⟨k, v, v', hv, hj₁, hj₂⟩ :=
    total_visitItem (c := fun city => (oldDays city).total carStores) rfl hitem
  obtain ⟨hs₂, hstep⟩ := hf hs₁ hv
  refine ⟨hs₂, hR.trans hmove ?_⟩
  rw [hj₁, hj₂]
  exact hR.add k hstep

/-- Nothing happens to the amounts. -/
theorem moves_same {M : Type*} [AddCommMonoid M] :
    Moves fun (x y : σ × M) => y.2 = x.2 where
  refl x := rfl
  trans x y z hxy hyz := hyz.trans hxy
  add s a s' b k h := by
    dsimp only at h ⊢
    rw [h]

end Loops

/-! ## Car stores in the other loops -/

variable {mj : MJ} {order : IterationOrder} {city city' : Json}

theorem oldDays_daysTranslate {t t' : Int → Int} (h : daysTranslate mj t city = some (t', city')) :
    oldDays city' = oldDays city := by
  rw [oldDays, oldDays, daysTranslate_get h]

theorem total_hotelSleepTimeRange {r r' : SleepTimeRange}
    (h : hotelSleepTimeRange mj r city = some (r', city')) :
    (oldDays city').total carStores = (oldDays city).total carStores := by
  obtain ⟨city₁, h₁, h⟩ := Option.bind_eq_some_iff.mp h
  have hold : oldDays city = oldDays city₁ := by rw [oldDays, oldDays, get_touch h₁]
  rw [hold]
  dsimp only at h
  split_ifs at h
  · obtain ⟨⟨⟨ranges, cidRead⟩, originView⟩, h₂, h⟩ := Option.bind_eq_some_iff.mp h
    obtain ⟨city₂, h₃, h⟩ := Option.bind_eq_some_iff.mp h
    obtain ⟨city₃, h₄, h⟩ := Option.bind_eq_some_iff.mp h
    cases h
    obtain ⟨day, hday, hput⟩ := visit_eq_some h₂
    rw [oldDays, get_touchIf h₄, get_put h₃, if_pos rfl, get_put hput, if_pos rfl]
    exact moves_same.visitRange (c := carStores) rfl hday
      fun i st v st' v' hv => carStores_eq (sleepDay_views hv).2
  · cases h
    rfl

/-- The days are a list when their summary is made. -/
theorem adaptCity_spec {req : Json} {u u' : Unit} (h : adaptCity mj req u city = some (u', city')) :
    oldDays city' = oldDays city ∧
      (city'.get "originView").isObject = (city.get "originView").isObject ∧
      ((city.get "originView").isObject → ((oldDays city).project stays).isSome) := by
  obtain ⟨originView, hview, hput⟩ := visit_eq_some h
  have hnew : city'.get "originView" = originView := by rw [get_put hput, if_pos rfl]
  rw [oldDays, hnew, oldDays]
  split_ifs at hview with hobj
  · obtain ⟨summary, hsummary, hput'⟩ := visit_eq_some hview
    obtain ⟨days, hdays, -⟩ := Option.bind_eq_some_iff.mp hsummary
    obtain ⟨items, hitems, -⟩ := Option.bind_eq_some_iff.mp hdays
    refine ⟨by rw [get_put hput', if_neg (by decide)], (isObject_put hput').trans hobj.symm,
      fun _ => ?_⟩
    rw [project, hitems]
    rfl
  · cases hview
    exact ⟨rfl, rfl, fun h => absurd h hobj⟩

/-! ## The run -/

theorem Shape.pad_pad (sh : Shape) (n m : ℕ) : (sh.pad n).pad m = sh.pad (max n m) := by
  rw [Shape.pad, Shape.pad, Shape.pad, Option.map_map]
  congr 2
  funext days
  exact rightpad_rightpad _ _ _ _

/-- The number of days for which a city is looked up. -/
def Shape.lookups (infos : CarStoreInfos) (sh : Shape) : ℕ :=
  max (max (if sh.isObject then 1 else 0) (if sh.ridx.isInt then sh.need fun _ => true else 0))
    (sh.need (hasStores infos sh.ridx))

/-- The car stores of the product, by the day to which they belong. -/
def carStoreInfos (mj : MJ) (m_cityDaysTranslate : Int → Int) (req : Json) : CarStoreInfos :=
  match readCarStores mj m_cityDaysTranslate req with
  | some r => r.1
  | none => fun _ => none

/-- Each car store of the product is inserted once at most. All others were there before. -/
def InsertsOnce (infos missing : CarStoreInfos) (req req' : Json) : Prop :=
  ∃ kept : Multiset Reading, ∃ ins : List Insertion, kept ≤ storeViews req ∧
    storeViews req' = kept + (ins.map Prod.snd : List Reading) ∧ (ins.map Prod.fst).Nodup ∧
      ∀ x ∈ ins, missing.lookup x.1 = none ∧
        ∃ info, infos.lookup x.1 = some info ∧ OfStore info x.2

variable {t : Int → Int} {req req' : Json} {members : Members}

/-- The requests between the loops. -/
structure Run (mj : MJ) (order : IterationOrder) (t : Int → Int) (req : Json) (members : Members)
    (req' : Json) where
  ranges : SleepTimeRange
  st : Removal
  translated : Json
  slept : Json
  removed : Json
  added : Json
  translate_run : overList (daysTranslate mj) t req = some (members.m_cityDaysTranslate, translated)
  sleep_run : overList (hotelSleepTimeRange mj) (fun _ => none) translated = some (ranges, slept)
  remove_run : overList removeCity ⟨carStoreInfos mj t req, []⟩ slept = some (st, removed)
  add_run : overList (addCity order st.originZucheKey) st.carStoreInfos removed =
    some (members.m_missCarStores, added)
  adapt_run : overList (adaptCity mj added) () added = some ((), req')

theorem exists_run (h : changeViewAboutCarStore mj order t req = some (members, req')) :
    Nonempty (Run mj order t req members req') := by
  obtain ⟨⟨infos, t', req₂⟩, hread, h⟩ := Option.bind_eq_some_iff.mp h
  have hinfos : carStoreInfos mj t req = infos := by rw [carStoreInfos, hread]
  obtain ⟨⟨t₁, req₁⟩, h₁, hread⟩ := Option.bind_eq_some_iff.mp hread
  obtain ⟨⟨ranges, req₂⟩, h₂, hread⟩ := Option.bind_eq_some_iff.mp hread
  obtain ⟨infos₁, -, hread⟩ := Option.bind_eq_some_iff.mp hread
  cases hread
  obtain ⟨⟨st, req₃⟩, h₃, h⟩ := Option.bind_eq_some_iff.mp h
  obtain ⟨⟨missing, req₄⟩, h₄, h⟩ := Option.bind_eq_some_iff.mp h
  obtain ⟨⟨u, req₅⟩, h₅, h⟩ := Option.bind_eq_some_iff.mp h
  cases h
  exact ⟨⟨ranges, st, req₁, req₂, req₃, req₄, h₁, h₂, hinfos ▸ h₃, h₄, h₅⟩⟩

variable (r : Run mj order t req members req')

theorem Run.shape_slept : (cities r.slept).map shape =
    ((cities req).map shape).map fun sh => sh.pad (if sh.isObject then 1 else 0) := by
  obtain ⟨-, -, htranslated⟩ := overList_map (p := shape) (t := id) (Q := fun _ => True)
    (I := fun _ => True) trivial
    (fun t city t' city' _ hcity => ⟨trivial, trivial, shape_daysTranslate hcity⟩) r.translate_run
  obtain ⟨-, -, hslept⟩ := overList_map (p := shape)
    (t := fun sh => sh.pad (if sh.isObject then 1 else 0)) (Q := fun _ => True)
    (I := fun _ => True) trivial
    (fun t city t' city' _ hcity => ⟨trivial, trivial, shape_hotelSleepTimeRange hcity⟩) r.sleep_run
  rw [hslept, htranslated, List.map_id]

theorem Run.shape_removed : Renews (carStoreInfos mj t req) r.st.carStoreInfos ∧
    (cities r.removed).map shape = ((cities r.slept).map shape).map fun sh =>
      sh.pad (if sh.ridx.isInt then sh.need fun _ => true else 0) := by
  obtain ⟨hrenews, -, hremoved⟩ := overList_map (p := shape)
    (t := fun sh => sh.pad (if sh.ridx.isInt then sh.need fun _ => true else 0))
    (Q := fun _ => True) (I := fun st => Renews (carStoreInfos mj t req) st.carStoreInfos)
    (Renews.refl _)
    (fun st city st' city' hst hcity =>
      ⟨(removeCity_spec hcity hst).1, trivial, (removeCity_spec hcity hst).2.2⟩) r.remove_run
  exact ⟨hrenews, hremoved⟩

theorem Run.shape_added : (cities r.added).map shape =
    ((cities r.removed).map shape).map fun sh =>
      sh.pad (sh.need (hasStores (carStoreInfos mj t req) sh.ridx)) :=
  (overList_map (p := shape)
    (t := fun sh => sh.pad (sh.need (hasStores (carStoreInfos mj t req) sh.ridx)))
    (Q := fun _ => True) (I := SameDays (carStoreInfos mj t req)) r.shape_removed.1.isSome
    (fun _ _ _ _ hdays hcity =>
      ⟨(addCity_spec hcity hdays).1, trivial, (addCity_spec hcity hdays).2.2⟩) r.add_run).2.2

/-- Every loop only creates days, and the last one finds a list of days in every old plan. -/
theorem Run.frame_eq (r : Run mj order t req members req') :
    frame req' = (cities req).map (fun city =>
      ((shape city).pad ((shape city).lookups (carStoreInfos mj t req))).days.getD []) ∧
    ∀ city ∈ cities req, (shape city).isObject → (shape city).days.isSome := by
  have hshapes : (cities r.added).map shape = ((cities req).map shape).map fun sh =>
      sh.pad (sh.lookups (carStoreInfos mj t req)) := by
    rw [r.shape_added, r.shape_removed.2, r.shape_slept, List.map_map, List.map_map]
    refine List.map_congr_left fun sh _ => ?_
    exact (congrArg (Shape.pad _) (Shape.pad_pad sh _ _)).trans (Shape.pad_pad sh _ _)
  obtain ⟨-, hsome, hadapted⟩ := overList_map (t := id)
    (p := fun city => ((city.get "originView").isObject, (oldDays city).project stays))
    (Q := fun x => x.1 → x.2.isSome) (I := fun _ => True) trivial
    (fun u city u' city' _ hcity => by
      obtain ⟨hold, hobj, hlist⟩ := adaptCity_spec hcity
      exact ⟨trivial, hlist, by rw [hold, hobj]; rfl⟩) r.adapt_run
  have hpair : (fun city => ((city.get "originView").isObject, (oldDays city).project stays)) =
      (fun sh : Shape => (sh.isObject, sh.days)) ∘ shape := rfl
  rw [hpair, ← List.map_map, hshapes] at hsome
  rw [List.map_id, hpair, ← List.map_map, ← List.map_map, hshapes] at hadapted
  constructor
  · have hframe : frame req' = ((cities req').map shape).map fun sh => sh.days.getD [] := by
      rw [frame, List.map_map]
      rfl
    have hdays := congrArg (List.map fun x => x.2.getD []) hadapted
    simp only [List.map_map] at hdays hframe
    rw [hframe]
    exact hdays
  · intro city hcity hobj
    have hcity' := hsome _ (List.mem_map_of_mem (List.mem_map_of_mem (List.mem_map_of_mem hcity)))
      hobj
    rwa [Shape.pad, Option.isSome_map] at hcity'

theorem Run.insertsOnce (r : Run mj order t req members req') :
    InsertsOnce (carStoreInfos mj t req) members.m_missCarStores req req' := by
  have hsame₁ := overList_moves moves_same (I := fun _ => True) trivial
    (fun t city t' city' _ hcity => ⟨trivial, by rw [oldDays_daysTranslate hcity]⟩) r.translate_run
  have hsame₂ := overList_moves moves_same (I := fun _ => True) trivial
    (fun t city t' city' _ hcity => ⟨trivial, total_hotelSleepTimeRange hcity⟩) r.sleep_run
  have hremoves := overList_moves moves_removes
    (I := fun st => Renews (carStoreInfos mj t req) st.carStoreInfos) (Renews.refl _)
    (fun st city st' city' hst hcity =>
      ⟨(removeCity_spec hcity hst).1, (removeCity_spec hcity hst).2.1⟩) r.remove_run
  obtain ⟨ins, hadd, htakes⟩ := overList_moves moves_adds
    (I := SameDays (carStoreInfos mj t req)) r.shape_removed.1.isSome
    (fun infos city infos' city' hdays hcity =>
      ⟨(addCity_spec hcity hdays).1, (addCity_spec hcity hdays).2.1⟩) r.add_run
  have hsame₃ := overList_moves moves_same (I := fun _ => True) trivial
    (fun u city u' city' _ hcity => ⟨trivial, by rw [(adaptCity_spec hcity).1]⟩) r.adapt_run
  refine ⟨storeViews r.removed, ins, ?_, hsame₃.trans hadd, htakes.nodup, fun x hx =>
    ⟨htakes.gone x hx, ?_⟩⟩
  · rw [Removes, hsame₂.trans hsame₁] at hremoves
    exact hremoves
  · obtain ⟨info, hinfo, hof⟩ := htakes.mem x hx
    obtain ⟨info₀, hinfo₀, hof₀⟩ := r.shape_removed.1.lookup hinfo
    refine ⟨info₀, hinfo₀, fun key hkey => ?_⟩
    rw [hof key hkey]
    exact hof₀ key hkey

/-! ## The frame -/

/-- A city with an old plan has a day, and one for each date of its summary for which it is looked
up: for every date if its index is a number, and for the dates with car stores in any case. -/
def EnoughDays (infos : CarStoreInfos) (city : Json) : Prop :=
  (shape city).isObject → ((shape city).days.getD []) ≠ [] ∧
    ∀ j date, ((shape city).dates.getD [])[j]? = some (str date) →
      (shape city).ridx.isInt ∨ hasStores infos (shape city).ridx date →
        j < ((shape city).days.getD []).length

theorem enoughDays_iff (infos : CarStoreInfos) (city : Json) : EnoughDays infos city ↔
    (shape city).lookups infos ≤ ((shape city).days.getD []).length := by
  rw [Shape.lookups, Nat.max_le, Nat.max_le, EnoughDays]
  by_cases hobj : (shape city).isObject
  · have hnonempty : ((shape city).days.getD []) ≠ [] ↔
        1 ≤ ((shape city).days.getD []).length := by
      rw [Nat.one_le_iff_ne_zero, Ne, Ne, List.length_eq_zero_iff]
    have hdate (P : String → Bool) : (shape city).need P ≤ ((shape city).days.getD []).length ↔
        ∀ j date, ((shape city).dates.getD [])[j]? = some (str date) → P date →
          j < ((shape city).days.getD []).length := by
      rw [Shape.need, reach_le_iff]
      constructor
      · intro hall j date hj hP
        obtain ⟨hlt, hget⟩ := List.getElem?_eq_some_iff.mp hj
        refine hall j hlt ?_
        rwa [List.getD_eq_getElem _ _ hlt, hget]
      · intro hall j hlt hreached
        rw [List.getD_eq_getElem _ _ hlt] at hreached
        cases hget : ((shape city).dates.getD [])[j] with
        | str date =>
          rw [hget] at hreached
          exact hall j date (List.getElem?_eq_some_iff.mpr ⟨hlt, hget⟩) hreached
        | _ =>
          rw [hget] at hreached
          cases hreached
    rw [if_pos hobj, hnonempty, hdate]
    constructor
    · intro h
      refine ⟨⟨(h hobj).1, ?_⟩, fun j date hj hhas => (h hobj).2 j date hj (.inr hhas)⟩
      split_ifs with hint
      · exact (hdate _).mpr fun j date hj _ => (h hobj).2 j date hj (.inl hint)
      · exact Nat.zero_le _
    · rintro ⟨⟨hone, hall⟩, hhas⟩ -
      refine ⟨hone, fun j date hj hor => ?_⟩
      rcases hor with hint | hor
      · rw [if_pos hint] at hall
        exact (hdate _).mp hall j date hj rfl
      · exact hhas j date hj hor
  · have hdates : (shape city).dates.getD [] = [] := summaryDates_of_not_isObject hobj
    rw [if_neg hobj, Shape.need_eq_zero hdates, Shape.need_eq_zero hdates]
    constructor
    · intro _
      exact ⟨⟨Nat.zero_le _, by split_ifs <;> exact Nat.zero_le _⟩, Nat.zero_le _⟩
    · exact fun _ h => absurd h hobj

/-- The dates and the other views stay as they are, and each car store is inserted once at most. -/
def LeavesDays (infos missing : CarStoreInfos) (req req' : Json) : Prop :=
  frame req' = frame req ∧ InsertsOnce infos missing req req'

theorem leavesDays_iff (h : changeViewAboutCarStore mj order t req = some (members, req')) :
    LeavesDays (carStoreInfos mj t req) members.m_missCarStores req req' ↔
      ∀ city ∈ cities req, EnoughDays (carStoreInfos mj t req) city := by
  obtain ⟨r⟩ := exists_run h
  obtain ⟨hframe, hsome⟩ := r.frame_eq
  rw [LeavesDays, and_iff_left r.insertsOnce, hframe, frame, List.map_inj_left]
  refine forall₂_congr fun city hcity => ?_
  rw [enoughDays_iff, show (oldDays city).project stays = (shape city).days from rfl, Shape.pad]
  cases hdays : (shape city).days with
  | none =>
    have hobj : ¬ (shape city).isObject := by
      intro hobj
      have hlist := hsome city hcity hobj
      rw [hdays] at hlist
      cases hlist
    have henough := (enoughDays_iff (carStoreInfos mj t req) city).mp fun h => absurd h hobj
    rw [hdays] at henough
    exact iff_of_true rfl henough
  | some days =>
    rw [Option.map_some, Option.getD_some, Option.getD_some]
    constructor
    · intro heq
      have hlen := congrArg List.length heq
      rw [length_rightpad] at hlen
      omega
    · exact rightpad_of_le _

/-- The values of the functions that are needed below. -/
def calls : MJ where
  toTime s := if s = "20180101_12:00" then 1514779200 else 1514736000
  toString _ := "20180101_13:00"
  datePlusOf date _ := date
  md5Last4 _ := 11663

def insertionOrder : IterationOrder := ⟨AList.entries, fun _ => .refl _⟩

/-- A city with an old plan. -/
def cityWith (day days : List Json) : Json :=
  obj [("arv_poi", null), ("arv_time", str "20180101_10:00"), ("cid", str "10001"),
    ("dept_poi", null), ("dept_time", str "20180101_20:00"),
    ("originView", obj [("day", arr day), ("expire", int 0),
      ("summary", obj [("arv_time", str "20180101_10:00"), ("days", arr days),
        ("dept_time", str "20180101_20:00")])]),
    ("ridx", int 0)]

/-- A museum at eleven o'clock, and a car that is fetched at noon. -/
def museumDay : Json :=
  obj [("list", arr [cityWith
      [obj [("date", str "20180101"), ("etime", str "20180101_20:00"),
        ("stime", str "20180101_10:00"),
        ("view", arr [obj [("dur", int 3600), ("etime", str "20180101_12:00"), ("id", str "v1"),
          ("stime", str "20180101_11:00"), ("type", int 2)]])]]
      [obj [("date", str "20180101"), ("pois", arr [obj [("id", str "v1")]])]]]),
    ("product", obj [("zuche", obj [("p1", obj [
      ("cars", arr [obj [("source", obj [
        ("start", obj [("coord", str "2.1,48.1"), ("date", str "20180101"), ("name", str "Hertz"),
          ("time", str "12:00")]),
        ("unionkey", str "k1")])]]),
      ("start", obj [("cid", str "10001"), ("ridx", int 0)])])])])]

theorem leavesDays_museumDay : ∃ members req',
    changeViewAboutCarStore calls insertionOrder (fun _ => 0) museumDay = some (members, req') ∧
      LeavesDays (carStoreInfos calls (fun _ => 0) museumDay) members.m_missCarStores museumDay
        req' := by
  obtain ⟨⟨members, req'⟩, h⟩ := Option.isSome_iff_exists.mp
    (show (changeViewAboutCarStore calls insertionOrder (fun _ => 0) museumDay).isSome by
      decide +kernel)
  refine ⟨members, req', h, (leavesDays_iff h).mpr fun city hcity => ?_⟩
  rw [enoughDays_iff]
  revert city
  decide +kernel

/-- A day without a date is created in an old plan without days. -/
theorem not_leavesDays : ∃ members req',
    changeViewAboutCarStore calls insertionOrder (fun _ => 0) (obj [("list", arr [cityWith [] []])]) =
        some (members, req') ∧
      ¬ LeavesDays (carStoreInfos calls (fun _ => 0) (obj [("list", arr [cityWith [] []])]))
        members.m_missCarStores (obj [("list", arr [cityWith [] []])]) req' := by
  obtain ⟨⟨members, req'⟩, h⟩ := Option.isSome_iff_exists.mp
    (show (changeViewAboutCarStore calls insertionOrder (fun _ => 0)
      (obj [("list", arr [cityWith [] []])])).isSome by decide +kernel)
  refine ⟨members, req', h, fun hleaves => ?_⟩
  have hlengths : ((changeViewAboutCarStore calls insertionOrder (fun _ => 0)
      (obj [("list", arr [cityWith [] []])])).map fun r => (frame r.2).map List.length) =
        some [1] := by
    decide +kernel
  rw [h, Option.map_some, hleaves.1] at hlengths
  revert hlengths
  decide +kernel

end PPView.LightPlan
