import Mathlib.Algebra.Order.Group.Multiset
import PPView.LightPlan.ChangeView

/-!
# What the loops keep of the days

Every loop over the cities keeps the dates and the views that are no car stores, but for days that
it creates behind the others. `Shape` is what is kept of a city, and `Shape.pad` what a loop makes
of it.
-/

namespace PPView

/-- An item that is there is changed. -/
theorem Json.project_visitItem_of_lt {σ : Type} {α : Type*} {p : Json → α} {i : ℕ} {j j' : Json}
    {s : σ} {f : Json → Option (σ × Json)} (hi : i < j.size) (h : j.visitItem i f = some (s, j'))
    (hp : ∀ ⦃v s v'⦄, f v = some (s, v') → p v' = p v) : j'.project p = j.project p := by
  obtain ⟨items, -, hitems, -⟩ := visitItem_eq_some h
  rw [size_eq_length hitems] at hi
  rw [project_visitItem h hp, project, hitems]
  refine congrArg some (rightpad_of_le _ ?_)
  rw [List.length_map]
  exact hi

namespace LightPlan

open Json PostProcessor

/-! ## Days -/

def isCarStore (v : Reading) : Bool := (v.1 "type").asInt.any (hasType · LY_PLACE_TYPE_CAR_STORE)

/-- The views, as they can be read. -/
def readings (view : Json) : List Reading := (view.project reading).getD []

/-- The views that are no car stores. -/
def stayViews (view : Json) : List Reading := (readings view).filter fun v => !isCarStore v

def carViews (view : Json) : Multiset Reading :=
  ((readings view).filter fun v => isCarStore v : List Reading)

/-- What is kept of a day. -/
def stays (day : Json) : Json × List Reading := (day.get "date", stayViews (day.get "view"))

def carStores (day : Json) : Multiset Reading := carViews (day.get "view")

theorem stays_eq {day day' : Json} (hdate : day'.get "date" = day.get "date")
    (hviews : readings (day'.get "view") = readings (day.get "view")) : stays day' = stays day := by
  rw [stays, stays, stayViews, stayViews, hdate, hviews]

theorem carStores_eq {day day' : Json}
    (hviews : readings (day'.get "view") = readings (day.get "view")) :
    carStores day' = carStores day := by
  rw [carStores, carStores, carViews, carViews, hviews]

/-! ## Cities -/

def oldDays (city : Json) : Json := (city.get "originView").get "day"

/-- The dates that the days of the summary have. -/
def summaryDates (originView : Json) : Option (List Json) :=
  ((originView.get "summary").get "days").project (Json.get "date")

structure Shape where
  ridx : Json
  isObject : Bool
  dates : Option (List Json)
  days : Option (List (Json × List Reading))

def shape (city : Json) : Shape where
  ridx := city.get "ridx"
  isObject := (city.get "originView").isObject
  dates := summaryDates (city.get "originView")
  days := (oldDays city).project stays

/-- Days are created up to the length `n`. -/
def Shape.pad (n : ℕ) (sh : Shape) : Shape :=
  { sh with days := sh.days.map (List.rightpad n (stays null)) }

theorem Shape.pad_zero (sh : Shape) : sh.pad 0 = sh := by
  rw [pad]
  cases hdays : sh.days with
  | none => rw [Option.map_none, ← hdays]
  | some days => rw [Option.map_some, rightpad_of_le _ (Nat.zero_le _), ← hdays]

/-! ## The first loops -/

variable {mj : MJ} {city city' : Json}

theorem daysTranslate_get {t t' : Int → Int} (h : daysTranslate mj t city = some (t', city'))
    (key : String) : city'.get key = city.get key := by
  rw [daysTranslate] at h
  obtain ⟨city₁, h₁, h⟩ := Option.bind_eq_some_iff.mp h
  have hget := get_touch h₁ key
  split_ifs at h with hint
  · obtain ⟨llridx, -, h⟩ := Option.bind_eq_some_iff.mp h
    obtain ⟨city₂, h₂, h⟩ := Option.bind_eq_some_iff.mp h
    replace hget := (get_touch h₂ key).trans hget
    obtain ⟨date, -, h⟩ := Option.bind_eq_some_iff.mp h
    cases date with
    | none =>
      cases h
      exact hget
    | some date =>
      obtain ⟨city₃, h₃, h⟩ := Option.bind_eq_some_iff.mp h
      replace hget := (get_touch h₃ key).trans hget
      cases harv : city₃.get "arv_time" with
      | str arvTime =>
        simp only [harv] at h
        split_ifs at h
        · obtain ⟨_, -, h⟩ := Option.bind_eq_some_iff.mp h
          obtain ⟨⟨checkin, city₄⟩, h₄, h⟩ := Option.bind_eq_some_iff.mp h
          cases h
          exact (get_of_reading (readString_eq_some h₄).2 key).trans hget
        · cases h
          exact hget
      | _ =>
        simp only [harv] at h
        cases h
        exact hget
  · cases h
    exact hget

theorem sleepView_reading {hotelKey : String} {r r' : SleepTimeRange} {v v' : Json}
    (h : sleepView mj hotelKey r v = some (r', v')) : v'.reading = v.reading := by
  obtain ⟨⟨type, v₁⟩, h₁, h⟩ := Option.bind_eq_some_iff.mp h
  have hread := (readInt_eq_some h₁).2
  dsimp only at h
  split_ifs at h
  · obtain ⟨v₂, h₂, h⟩ := Option.bind_eq_some_iff.mp h
    replace hread := (reading_touch h₂).trans hread
    split_ifs at h
    · obtain ⟨⟨stime, v₃⟩, h₃, h⟩ := Option.bind_eq_some_iff.mp h
      obtain ⟨⟨etime, v₄⟩, h₄, h⟩ := Option.bind_eq_some_iff.mp h
      cases h
      exact (readString_eq_some h₄).2.trans ((readString_eq_some h₃).2.trans hread)
    · cases h
      exact hread
  · cases h
    exact hread

theorem sleepDay_views {cid : Json} {st st' : SleepTimeRange × Bool} {day day' : Json}
    (h : sleepDay mj cid st day = some (st', day')) :
    day'.get "date" = day.get "date" ∧ readings (day'.get "view") = readings (day.get "view") := by
  obtain ⟨day₁, h₁, h⟩ := Option.bind_eq_some_iff.mp h
  have hget := get_touch h₁
  cases hdate : day₁.get "date" with
  | str date =>
    simp only [hdate] at h
    obtain ⟨cid, -, h⟩ := Option.bind_eq_some_iff.mp h
    obtain ⟨⟨ranges, day₂⟩, h₂, h⟩ := Option.bind_eq_some_iff.mp h
    cases h
    obtain ⟨view, hview, hput⟩ := visit_eq_some h₂
    refine ⟨by rw [get_put hput, if_neg (by decide), hget], ?_⟩
    rw [get_put hput, if_pos rfl, ← hget]
    split_ifs at hview with hsize
    · rw [readings, project_visitItem_of_lt (by omega) hview fun v s v' hv => sleepView_reading hv,
        readings]
    · cases hview
      rfl
  | _ =>
    simp only [hdate] at h
    cases h
    exact ⟨hget _, by rw [hget]⟩

theorem shape_congr (hridx : city'.get "ridx" = city.get "ridx")
    (hview : city'.get "originView" = city.get "originView") : shape city' = shape city := by
  rw [shape, shape, oldDays, oldDays, hridx, hview]

theorem shape_daysTranslate {t t' : Int → Int} (h : daysTranslate mj t city = some (t', city')) :
    shape city' = shape city :=
  shape_congr (daysTranslate_get h _) (daysTranslate_get h _)

/-- The loop creates the first day and no other one. -/
theorem map_rightpad_sleepDays (day : Json) :
    (day.project stays).map (List.rightpad (sleepDays day.size) (stays null)) =
      (day.project stays).map (List.rightpad 1 (stays null)) := by
  cases hitems : day.items with
  | none => simp [project, hitems]
  | some items =>
    rw [project, hitems, size_eq_length hitems, sleepDays]
    split_ifs with hlen
    · rfl
    · simp only [Option.map_some]
      rw [rightpad_of_le _ (by rw [List.length_map]; omega),
        rightpad_of_le _ (by rw [List.length_map]; omega)]

/-- The phantom day of a city without days. -/
theorem shape_hotelSleepTimeRange {r r' : SleepTimeRange}
    (h : hotelSleepTimeRange mj r city = some (r', city')) :
    shape city' = (shape city).pad (if (shape city).isObject then 1 else 0) := by
  obtain ⟨city₁, h₁, h⟩ := Option.bind_eq_some_iff.mp h
  have hget := get_touch h₁
  rw [← shape_congr (hget _) (hget _)]
  dsimp only at h
  rw [show (shape city₁).isObject = (city₁.get "originView").isObject from rfl]
  split_ifs at h ⊢ with hobj
  · obtain ⟨⟨⟨ranges, cidRead⟩, originView⟩, h₂, h⟩ := Option.bind_eq_some_iff.mp h
    obtain ⟨city₂, h₃, h⟩ := Option.bind_eq_some_iff.mp h
    obtain ⟨city₃, h₄, h⟩ := Option.bind_eq_some_iff.mp h
    cases h
    have hget' := get_touchIf h₄
    obtain ⟨day, hday, hput⟩ := visit_eq_some h₂
    have hdays : day.project stays = ((oldDays city₁).project stays).map
        (List.rightpad 1 (stays null)) := by
      rw [project_visitRange hday fun i s v s' v' hv => stays_eq (sleepDay_views hv).1
        (sleepDay_views hv).2]
      exact map_rightpad_sleepDays _
    have hview : city'.get "originView" = originView := by
      rw [hget', get_put h₃, if_pos rfl]
    have hridx : city'.get "ridx" = city₁.get "ridx" := by
      rw [hget', get_put h₃, if_neg (by decide)]
    have hget_day : originView.get "day" = day := by rw [get_put hput, if_pos rfl]
    have hget_summary : originView.get "summary" = (city₁.get "originView").get "summary" := by
      rw [get_put hput, if_neg (by decide)]
    rw [shape, oldDays, summaryDates, hview, hridx, hget_day, hget_summary, hdays,
      isObject_put hput, shape, Shape.pad, hobj, summaryDates]
  · cases h
    exact (Shape.pad_zero _).symm

/-! ## Days with their summary -/

section Days

variable {σ : Type} {skip : String → σ → Bool}
  {f : String → ℕ → σ → Json → Json → Option (σ × Json × Json)} {I : σ → Prop} {P : String → Bool}
  {R : σ × Multiset Reading → σ × Multiset Reading → Prop}

/-- What a change does to the views of a day. -/
structure Keeps (skip : String → σ → Bool)
    (f : String → ℕ → σ → Json → Json → Option (σ × Json × Json)) (I : σ → Prop) (P : String → Bool)
    (R : σ × Multiset Reading → σ × Multiset Reading → Prop) : Prop where
  moves : Moves R
  skips : ∀ ⦃s⦄, I s → ∀ date, skip date s = !P date
  step : ∀ ⦃date j s view pois s' view' pois'⦄, I s →
    f date j s view pois = some (s', view', pois') →
      I s' ∧ stayViews view' = stayViews view ∧ R (s, carViews view) (s', carViews view')

/-- The dates for which a day is needed. -/
def reached (P : String → Bool) : Json → Bool
  | str date => P date
  | _ => false

/-- The number of days that are needed for the first `n` dates. -/
def reach (P : String → Bool) (dates : List Json) : ℕ → ℕ
  | 0 => 0
  | n + 1 => if reached P (dates.getD n null) then n + 1 else reach P dates n

theorem reach_le (P : String → Bool) (dates : List Json) (n : ℕ) : reach P dates n ≤ n := by
  induction n with
  | zero => exact Nat.le_refl _
  | succ n ih =>
    rw [reach]
    split_ifs
    · exact Nat.le_refl _
    · omega

theorem reach_le_iff {dates : List Json} {n m : ℕ} :
    reach P dates n ≤ m ↔ ∀ j < n, reached P (dates.getD j null) → j < m := by
  induction n with
  | zero => simp [reach]
  | succ n ih =>
    rw [reach]
    split_ifs with h
    · constructor
      · intro hle j hj _
        omega
      · intro hall
        exact hall n (Nat.lt_succ_self n) h
    · rw [ih]
      constructor
      · intro hall j hj hreached
        rcases Nat.lt_succ_iff_lt_or_eq.mp hj with hj | rfl
        · exact hall j hj hreached
        · exact absurd hreached h
      · intro hall j hj
        exact hall j (Nat.lt_succ_of_lt hj)

theorem visitDay_date {j : ℕ} {st st' : σ × Json} {sday sday' : Json}
    (h : visitDay skip f j st sday = some (st', sday')) : sday'.get "date" = sday.get "date" := by
  obtain ⟨sday₁, h₁, h⟩ := Option.bind_eq_some_iff.mp h
  rw [← get_touch h₁]
  cases hdate : sday₁.get "date" with
  | str date =>
    simp only [hdate] at h
    split_ifs at h
    · cases h
      exact hdate
    · obtain ⟨_, -, h⟩ := Option.bind_eq_some_iff.mp h
      obtain ⟨sday₂, h₃, h⟩ := Option.bind_eq_some_iff.mp h
      cases h
      rw [get_put h₃, if_neg (by decide), hdate]
  | _ =>
    simp only [hdate] at h
    cases h
    exact hdate

theorem Keeps.visitView (hf : Keeps skip f I P R) {date : String} {j : ℕ} {s : σ} {pois v v' : Json}
    {r : σ × Json} (hs : I s)
    (hv : (v.visit "view" fun view => do
      let (s, view, pois) ← f date j s view pois
      pure ((s, pois), view)) = some (r, v')) :
    I r.1 ∧ stays v' = stays v ∧ R (s, carStores v) (r.1, carStores v') := by
  obtain ⟨view, hview, hput⟩ := visit_eq_some hv
  obtain ⟨⟨s₁, view₁, pois₁⟩, hcall, heq⟩ := Option.bind_eq_some_iff.mp hview
  cases heq
  obtain ⟨hs₁, hstay, hmove⟩ := hf.step hs hcall
  rw [stays, stays, carStores, carStores, get_put hput, get_put hput, if_pos rfl,
    if_neg (by decide), hstay]
  exact ⟨hs₁, rfl, hmove⟩

theorem Keeps.visitDay (hf : Keeps skip f I P R) {j : ℕ} {s s' : σ} {day day' sday sday' : Json}
    (hs : I s) (h : visitDay skip f j (s, day) sday = some ((s', day'), sday')) :
    I s' ∧ R (s, day.total carStores) (s', day'.total carStores) ∧
      day'.project stays = (day.project stays).map
        (List.rightpad (if reached P (sday.get "date") then j + 1 else 0) (stays null)) := by
  obtain ⟨sday₁, h₁, h⟩ := Option.bind_eq_some_iff.mp h
  have hget := get_touch h₁ "date"
  have hsame : day.project stays = (day.project stays).map (List.rightpad 0 (stays null)) := by
    cases day.project stays with
    | none => rfl
    | some days => exact congrArg some (rightpad_of_le _ (Nat.zero_le _)).symm
  rw [← hget]
  cases hdate : sday₁.get "date" with
  | str date =>
    simp only [hdate] at h
    rw [reached]
    split_ifs at h with hskip
    · cases h
      rw [hf.skips hs, Bool.not_eq_true'] at hskip
      rw [hskip]
      exact ⟨hs, hf.moves.refl _, hsame⟩
    · obtain ⟨⟨⟨s₁, pois⟩, day₁⟩, h₂, h⟩ := Option.bind_eq_some_iff.mp h
      obtain ⟨sday₂, h₃, h⟩ := Option.bind_eq_some_iff.mp h
      cases h
      rw [hf.skips hs, Bool.not_eq_true', Bool.not_eq_false] at hskip
      rw [hskip, if_pos rfl]
      obtain ⟨items, v, -, hv, -⟩ := visitItem_eq_some h₂
      obtain ⟨k, w, w', hw, htotal, htotal'⟩ := total_visitItem (c := carStores) rfl h₂
      refine ⟨(hf.visitView hs hv).1, ?_,
        project_visitItem h₂ fun v r v' hv => (hf.visitView hs hv).2.1⟩
      rw [htotal, htotal']
      exact hf.moves.add k (hf.visitView hs hw).2.2
  | _ =>
    simp only [hdate] at h
    cases h
    exact ⟨hs, hf.moves.refl _, hsame⟩

theorem Keeps.visitDays (hf : Keeps skip f I P R) {s s' : σ} {day day' summary summary' : Json}
    (hs : I s) (h : visitDays skip f s day summary = some (s', day', summary')) {dates : List Json}
    (hdates : (summary.get "days").project (Json.get "date") = some dates) :
    I s' ∧ R (s, day.total carStores) (s', day'.total carStores) ∧
      (summary'.get "days").project (Json.get "date") = some dates ∧
      day'.project stays = (day.project stays).map
        (List.rightpad (reach P dates dates.length) (stays null)) := by
  obtain ⟨⟨⟨s₁, day₁⟩, days⟩, hrange, h⟩ := Option.bind_eq_some_iff.mp h
  obtain ⟨summary₁, hput, h⟩ := Option.bind_eq_some_iff.mp h
  cases h
  obtain ⟨items, hitems, hmap⟩ := Option.map_eq_some_iff.mp hdates
  have hlen : (summary.get "days").size = dates.length := by
    rw [size_eq_length hitems, ← hmap, List.length_map]
  rw [get_put hput, if_pos rfl]
  rw [hlen] at hrange
  -- the days of the summary keep their dates, and the days grow with the dates that are reached
  refine visitRange_induct (P := fun i st days => I st.1 ∧
    R (s, day.total carStores) (st.1, st.2.total carStores) ∧
    days.project (Json.get "date") = some dates ∧ st.2.project stays =
      (day.project stays).map (List.rightpad (reach P dates i) (stays null))) ?_ ?_ hrange
  · refine ⟨hs, hf.moves.refl _, hdates, ?_⟩
    cases day.project stays with
    | none => rfl
    | some days => exact congrArg some (rightpad_of_le _ (Nat.zero_le _)).symm
  · rintro i ⟨s₁, day₁⟩ days₁ ⟨s₂, day₂⟩ days₂ hi ⟨hs₁, hmove, hproject, hstays⟩ hitem
    obtain ⟨items₁, v, hitems₁, hv, -⟩ := visitItem_eq_some hitem
    have hmap₁ : items₁.map (Json.get "date") = dates := by
      rw [project, hitems₁] at hproject
      exact Option.some.inj hproject
    have hi₁ : i < items₁.length := by rwa [← hmap₁, List.length_map] at hi
    have hdate : (items₁.getD i null).get "date" = dates.getD i null := by
      rw [List.getD_eq_getElem _ _ hi₁, List.getD_eq_getElem _ _ hi]
      simp only [← hmap₁, List.getElem_map]
    obtain ⟨hs₂, hmove₂, hstays₂⟩ := hf.visitDay hs₁ hv
    refine ⟨hs₂, hf.moves.trans hmove hmove₂, ?_, ?_⟩
    · rw [project_visitItem_of_lt (by rwa [size_eq_length hitems₁]) hitem
        fun v r v' hv => visitDay_date hv, hproject]
    · rw [hstays₂, hstays, Option.map_map, hdate]
      congr 1
      funext l
      rw [Function.comp, rightpad_rightpad, reach]
      have hle := reach_le P dates i
      split_ifs
      · rw [Nat.max_eq_right (by omega)]
      · rw [Nat.max_eq_left (Nat.zero_le _)]

/-- What a change does to the days with their summary. -/
def Reaches (F : σ → Json → Json → Option (σ × Json × Json)) (I : σ → Prop) (P : String → Bool)
    (R : σ × Multiset Reading → σ × Multiset Reading → Prop) : Prop :=
  ∀ ⦃s day summary s' day' summary' dates⦄, I s →
    F s day summary = some (s', day', summary') →
    (summary.get "days").project (Json.get "date") = some dates →
      I s' ∧ R (s, day.total carStores) (s', day'.total carStores) ∧
        (summary'.get "days").project (Json.get "date") = some dates ∧
        day'.project stays = (day.project stays).map
          (List.rightpad (reach P dates dates.length) (stays null))

/-- The number of days that are needed for the summary. -/
def Shape.need (P : String → Bool) (sh : Shape) : ℕ :=
  reach P (sh.dates.getD []) (sh.dates.getD []).length

theorem Shape.need_eq_zero {sh : Shape} (h : sh.dates.getD [] = []) : sh.need P = 0 := by
  rw [need, h]
  rfl

theorem summaryDates_of_not_isObject {originView : Json} (h : ¬ originView.isObject) :
    (summaryDates originView).getD [] = [] := by
  rw [summaryDates, get_of_not_isObject h]
  rfl

theorem summaryDates_of_summary_not_isObject {originView : Json}
    (h : ¬ (originView.get "summary").isObject) : (summaryDates originView).getD [] = [] := by
  rw [summaryDates, get_of_not_isObject h]
  rfl

/-- Nothing is reached without days of a summary. -/
theorem moves_of_summaryDates_nil (hR : Moves R) {city city' originView : Json}
    (hput : city.put "originView" originView = some city')
    (hobj : originView.isObject = (city.get "originView").isObject)
    (hday : originView.get "day" = (city.get "originView").get "day")
    (hdates : summaryDates originView = summaryDates (city.get "originView"))
    (hnone : (summaryDates originView).getD [] = []) (s : σ) :
    R (s, (oldDays city).total carStores) (s, (oldDays city').total carStores) ∧
      shape city' = (shape city).pad ((shape city).need P) := by
  have hnew : city'.get "originView" = originView := by rw [get_put hput, if_pos rfl]
  have hridx : city'.get "ridx" = city.get "ridx" := by rw [get_put hput, if_neg (by decide)]
  have hneed : (shape city).need P = 0 := 
    Shape.need_eq_zero (by rwa [hdates] at hnone)
  rw [hneed, Shape.pad_zero, shape, shape, oldDays, oldDays, hnew, hridx, hobj, hday, hdates]
  exact ⟨hR.refl _, rfl⟩

theorem Reaches.visitSummary {F : σ → Json → Json → Option (σ × Json × Json)}
    (hF : Reaches F I P R) (hR : Moves R) {s s' : σ} {city city' : Json} (hs : I s)
    (h : city.visit "originView" (visitSummary F s) = some (s', city')) :
    I s' ∧ R (s, (oldDays city).total carStores) (s', (oldDays city').total carStores) ∧
      shape city' = (shape city).pad ((shape city).need P) := by
  obtain ⟨originView, hview, hput⟩ := visit_eq_some h
  rw [LightPlan.visitSummary] at hview
  split_ifs at hview with hobj
  · obtain ⟨view₁, h₁, hview⟩ := Option.bind_eq_some_iff.mp hview
    have hget := get_touch h₁
    have hobj₁ : view₁.isObject := isObject_put h₁
    dsimp only at hview
    split_ifs at hview with hsummary
    · obtain ⟨summary, h₂, hview⟩ := Option.bind_eq_some_iff.mp hview
      have hget₂ := get_touch h₂ "days"
      split_ifs at hview with harray
      · obtain ⟨⟨s₁, day, summary₁⟩, hcall, hview⟩ := Option.bind_eq_some_iff.mp hview
        obtain ⟨view₂, h₃, hview⟩ := Option.bind_eq_some_iff.mp hview
        obtain ⟨view₃, h₄, hview⟩ := Option.bind_eq_some_iff.mp hview
        cases hview
        obtain ⟨dates, hdates⟩ : ∃ dates, (summary.get "days").project (Json.get "date") =
            some dates := by
          cases hdays : summary.get "days" with
          | arr days => exact ⟨_, rfl⟩
          | _ =>
            rw [hdays] at harray
            cases harray
        obtain ⟨hs₁, hmove, hdates₁, hstays⟩ := hF hs hcall hdates
        have hold : summaryDates (city.get "originView") = some dates := by
          rw [summaryDates, ← hget, ← hget₂, hdates]
        have hnewDates : summaryDates originView = some dates := by
          rw [summaryDates, get_put h₄, if_neg (by decide), get_put h₃, if_pos rfl, hdates₁]
        have hday : originView.get "day" = day := by rw [get_put h₄, if_pos rfl]
        have hnew : city'.get "originView" = originView := by rw [get_put hput, if_pos rfl]
        have hridx : city'.get "ridx" = city.get "ridx" := by
          rw [get_put hput, if_neg (by decide)]
        rw [shape, Shape.need, oldDays, oldDays, hnew, hridx, hday, hnewDates, isObject_put h₄]
        rw [hget] at hmove hstays
        refine ⟨hs₁, hmove, ?_⟩
        rw [shape, Shape.pad, oldDays, hold, hobj, hstays]
        rfl
      · obtain ⟨view₂, h₃, hview⟩ := Option.bind_eq_some_iff.mp hview
        cases hview
        refine ⟨hs, moves_of_summaryDates_nil hR hput
          ((isObject_put h₃).trans hobj.symm) ?_ ?_ ?_ _⟩
        · rw [get_put h₃, if_neg (by decide), hget]
        · rw [summaryDates, get_put h₃, if_pos rfl, hget₂, hget, summaryDates]
        · rw [summaryDates, get_put h₃, if_pos rfl]
          exact project_getD_of_not_isArray harray _
    · cases hview
      exact ⟨hs, moves_of_summaryDates_nil hR hput (hobj₁.trans hobj.symm) (hget _)
        (by rw [summaryDates, hget, summaryDates])
        (summaryDates_of_summary_not_isObject hsummary) _⟩
  · cases hview
    exact ⟨hs, moves_of_summaryDates_nil hR hput rfl rfl rfl (summaryDates_of_not_isObject hobj) _⟩

end Days

end LightPlan
end PPView
