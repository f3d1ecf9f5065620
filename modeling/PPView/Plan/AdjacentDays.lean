import PPView.Plan.OpenCloseTime

/-!
# Opening hours of adjacent days, joined

Each day gives at least one interval or is left out, so the lists of the days are joined as in
`Intervals.join`.
-/

namespace PPView.OpenPlan

open Intervals (Follows Increasing covered gaps join joints)

variable {plan : OpenPlan} {fuel : ℕ} {tmp : TimeIR.DateRange} {date : Str} {place : VarPlace}
variable {l : List (Int × Int)}

/-! ## The days -/

theorem tourTimes_ne_nil (h : plan.tourTimes date place = .ok (some l)) : l ≠ [] := by
  unfold tourTimes at h
  split at h
  · cases h
  · split_ifs at h
    · cases h
    · obtain ⟨day0, -, hsessions⟩ := bind_ok.mp h
      dsimp only at hsessions
      split at hsessions
      · cases hsessions
      · cases hsessions
        assumption

theorem userTimes_ne_nil {offset : Int × Int} {openCloseList : List (Int × Int)}
    (h : plan.userTimes date place offset openCloseList = .ok (some l)) : l ≠ [] := by
  obtain ⟨day0, -, h⟩ := bind_ok.mp h
  dsimp only at h
  split at h
  · split at h
    · cases h
    · split at h
      · cases h
        exact List.cons_ne_nil _ _
      · cases h
  · split at h
    · cases h
      exact List.cons_ne_nil _ _
    · cases h

/-- A day that is not left out has an interval. -/
theorem getOpenCloseTime_ne_nil (h : plan.getOpenCloseTime fuel tmp date place = .ok (some l)) :
    l ≠ [] := by
  obtain ⟨timeRules, -, h⟩ := bind_ok.mp h
  obtain ⟨openCloseList, -, h⟩ := bind_ok.mp h
  have hrest : (if openCloseList ≠ [] then pure (some openCloseList)
      else if place.t &&& LY_PLACE_TYPE_TOURALL ≠ 0 then plan.tourTimes date place
      else pure none : Res (Option (List (Int × Int)))) = .ok (some l) → l ≠ [] := by
    intro h
    split at h
    · cases h
      assumption
    · split at h
      · exact tourTimes_ne_nil h
      · cases h
  split at h
  · split at h
    · exact userTimes_ne_nil h
    · exact hrest h
  · exact hrest h

theorem addDay_some {openCloseList datelist : List (Int × Int)} (h : datelist ≠ []) :
    addDay openCloseList (some datelist) = .ok (join Near openCloseList datelist) := by
  obtain ⟨front, rest, rfl⟩ := List.exists_cons_of_ne_nil h
  rcases List.eq_nil_or_concat' openCloseList with rfl | ⟨init, back, rfl⟩
  · rfl
  · simp only [addDay, List.getLast?_concat, List.dropLast_concat]
    by_cases hnear : Near back.2 front.1
    · rw [Intervals.join_near hnear]
      exact if_pos hnear
    · rw [Intervals.join_far hnear]
      exact if_neg hnear

/-- The loop joins the days that it finds. -/
theorem foldlM_addDay {is : List Int} {acc : List (Int × Int)}
    (h : is.foldlM (fun openCloseList i => do
      let date0 ← MyTime.datePlusOf date i
      let datelist ← plan.getOpenCloseTime fuel tmp date0 place
      addDay openCloseList datelist) acc = .ok l) :
    ∃ ds : List (List (Int × Int)), (∀ d ∈ ds, d ≠ []) ∧ l = ds.foldl (join Near) acc ∧
      ∀ days : List (List (Int × Int)), is.foldlM (fun days i => do
        let date0 ← MyTime.datePlusOf date i
        let datelist ← plan.getOpenCloseTime fuel tmp date0 place
        pure (days ++ datelist.toList)) days = .ok (days ++ ds) := by
  induction is generalizing acc with
  | nil =>
    cases h
    exact ⟨[], by simp, rfl, fun days => by simp [pure, Except.pure]⟩
  | cons i is ih =>
    rw [List.foldlM_cons] at h
    obtain ⟨next, hbody, hrest⟩ := bind_ok.mp h
    obtain ⟨date0, hdate, hbody⟩ := bind_ok.mp hbody
    obtain ⟨datelist, htimes, hadd⟩ := bind_ok.mp hbody
    obtain ⟨ds, hne, rfl, hdays⟩ := ih hrest
    cases datelist with
    | none =>
      cases hadd
      refine ⟨ds, hne, rfl, fun days => ?_⟩
      simpa [hdate, htimes, pure, Except.pure, bind, Except.bind] using hdays days
    | some d =>
      have hd := getOpenCloseTime_ne_nil htimes
      rw [addDay_some hd] at hadd
      cases hadd
      refine ⟨d :: ds, List.forall_mem_cons.mpr ⟨hd, hne⟩, rfl, fun days => ?_⟩
      simpa [hdate, htimes, pure, Except.pure, bind, Except.bind] using hdays (days ++ [d])

/-! ## The joined list -/

/-- What the joined list has from the lists of the days. -/
structure AdjacentDays (days : List (List (Int × Int))) (l : List (Int × Int)) : Prop where
  covers : (∀ j ∈ joints days, Near j.1.2 j.2.1 → Follows j.1 j.2) →
    covered l = covered days.flatten ∪ gaps Near (joints days)
  increasing : (∀ j ∈ joints days, Near j.1.2 j.2.1 → Follows j.1 j.2) →
    (∀ d ∈ days, Increasing d) → Increasing l
  /-- Neighbours are either neighbours of one day, or more than ten minutes apart. -/
  apart : l.IsChain fun a b =>
    (∃ d ∈ days, ∃ x y, [x, y] <:+: d ∧ x.2 = a.2 ∧ y.1 = b.1) ∨ 10 * 60 < b.1 - a.2

theorem adjacentDays_foldl_join {ds : List (List (Int × Int))} (hne : ∀ d ∈ ds, d ≠ []) :
    AdjacentDays ds (ds.foldl (join Near) []) where
  covers := Intervals.covered_foldl_join hne
  increasing := Intervals.increasing_foldl_join
    (fun a b h => by simp only [Near] at h; omega) hne
  apart := (Intervals.foldl_join_neighbours ds).imp fun a b h => by
    simpa only [Near, not_le] using h

/-- `20170410` -/
def monday : Str := [50, 48, 49, 55, 48, 52, 49, 48]

/-- `<*><*><00:00-00:05,10:00-24:30><SURE>` -/
def behindMidnight : VarPlace where
  ID := "v100"
  t := LY_PLACE_TYPE_VIEW
  timeRule := [60, 42, 62, 60, 42, 62, 60, 48, 48, 58, 48, 48, 45, 48, 48, 58, 48, 53, 44, 49, 48,
    58, 48, 48, 45, 50, 52, 58, 51, 48, 62, 60, 83, 85, 82, 69, 62]

/-- The sessions `14:00` and `10:00`. -/
def twoSessions : VarPlace where
  ID := "v200"
  t := 0x8000
  tour := some { srcTimes := [some [49, 52, 58, 48, 48], some [49, 48, 58, 48, 48]] }

/-- `<*><*><00:00-00:05,10:00-23:58><SURE>` -/
def tillMidnight : VarPlace where
  ID := "v300"
  t := LY_PLACE_TYPE_VIEW
  timeRule := [60, 42, 62, 60, 42, 62, 60, 48, 48, 58, 48, 48, 45, 48, 48, 58, 48, 53, 44, 49, 48,
    58, 48, 48, 45, 50, 51, 58, 53, 56, 62, 60, 83, 85, 82, 69, 62]

def mondayDays : List (List (Int × Int)) :=
  [[(1491667200, 1491667500), (1491703200, 1491753480)],
    [(1491753600, 1491753900), (1491789600, 1491839880)],
    [(1491840000, 1491840300), (1491876000, 1491926280)]]

end PPView.OpenPlan
