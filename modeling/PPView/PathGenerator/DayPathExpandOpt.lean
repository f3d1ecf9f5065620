import PPView.PathGenerator.SelectFixed
import PPView.PathGenerator.TimeEnrich

/-!
# DayPathExpandOpt

The optimised expansion of a day: sessions are selected, or the day is expanded as it is if
that fails; the outcome is expanded once more with all flags cleared; then opening intervals
are selected and stays are enriched. The results of the inner calls are dropped, and the
function reports success whenever the input is accepted.
-/

namespace PPView

open NodeJ

namespace PathGenerator

/-- The route that selecting sessions, or the plain expansion in its place, leaves. -/
def baseRoute (g : PathGenerator) : Res PathGenerator := do
  let (success, g) ← g.selectFixedPoiTimes
  if success then pure g
  else do
    let (_, g) ← ({ g with outRouteJ := [] } : PathGenerator).dayPathExpand
    pure g

def dayPathExpandOptWith (expand : RouteJ → Res RouteJ) (late : Nat → Nat → Nat → Nat → Bool)
    (g : PathGenerator) : Res (Bool × PathGenerator) :=
  if !checkRouteJ g.inRouteJ then pure (false, g)
  else do
    let g ← g.baseRoute
    let outRouteJ ← expand (g.outRouteJ.map setDefaultError)
    let (_, outRouteJ) ← selectOpenCloseWith expand late outRouteJ
    if g.controls.keepTime then pure (true, { g with outRouteJ := outRouteJ })
    else do
      let (_, outRouteJ) ← timeEnrichWith expand outRouteJ
      pure (true, { g with outRouteJ := outRouteJ })

def dayPathExpandOpt (late : Nat → Nat → Nat → Nat → Bool) (g : PathGenerator) :
    Res (Bool × PathGenerator) :=
  dayPathExpandOptWith expandCopy late g

/-! ## The route before re-expansion -/

/-- `base` is a scheduled beginning of `r`, and all of it exactly when no edge is missing and
the start has a session to offer. -/
structure BaseRoute (r base : RouteJ) : Prop where
  scheduled : RouteJ.Scheduled base
  length_le : base.length ≤ r.length
  skeleton : base.map skeleton = (r.take base.length).map skeleton
  length_eq_iff : base.length = r.length ↔ RouteJ.Linked r ∧ canStart r

theorem baseRoute_spec {g g' : PathGenerator} (hr : RouteJ.Valid g.inRouteJ)
    (hout : g.outRouteJ = []) (hs : g.isSearch = false) (h : g.baseRoute = .ok g') :
    g' = { g with outRouteJ := g'.outRouteJ } ∧ BaseRoute g.inRouteJ g'.outRouteJ := by
  obtain ⟨b, g₁, hg₁, hframe, hsel, hiff⟩ := selectFixedPoiTimes_spec hr hout hs
  obtain ⟨⟨b', g₁'⟩, hg₁', h⟩ := bind_ok.mp h
  obtain ⟨rfl, rfl⟩ : b = b' ∧ g₁ = g₁' := by simpa [hg₁] using hg₁'
  have hpos : 0 < g.inRouteJ.length := Nat.lt_of_lt_of_le Nat.zero_lt_two hr.two_le
  cases b with
  | true =>
    obtain rfl : g₁ = g' := by simpa [pure, Except.pure] using h
    refine ⟨hframe, ?_⟩
    rcases hsel rfl with hnil | ⟨hsched, hskel⟩
    · rw [hnil] at hiff ⊢
      refine ⟨by simp [RouteJ.Scheduled], by simp, by simp, iff_of_false (by simp; omega) ?_⟩
      rintro ⟨hl, hc⟩
      simp [(hiff hl).mp ⟨rfl, rfl⟩] at hc
    · have hlen : g₁.outRouteJ.length = g.inRouteJ.length := by
        simpa using congrArg List.length hskel
      have hl : RouteJ.Linked g.inRouteJ :=
        (RouteJ.linked_iff_of_skeleton hskel).mp hsched.linked
      have hne : g₁.outRouteJ ≠ [] := List.ne_nil_of_length_pos (hlen ▸ hpos)
      refine ⟨hsched, hlen.le, by rw [hlen, List.take_length, hskel], iff_of_true hlen ⟨hl, ?_⟩⟩
      simpa [hne] using hiff hl
  | false =>
    obtain ⟨⟨b', g₂⟩, hg₂, h⟩ := bind_ok.mp h
    obtain rfl : g₂ = g' := by simpa [pure, Except.pure] using h
    have hin : ({ g₁ with outRouteJ := [] } : PathGenerator).inRouteJ = g.inRouteJ := by
      rw [hframe]
    obtain ⟨hframe', hpass⟩ := pass_of_dayPathExpand (by rwa [hin]) rfl hg₂
    rw [hin] at hpass
    refine ⟨by rw [hframe', hframe], hpass.scheduled, hpass.length_le,
      RouteJ.map_skeleton_of_bare hpass.bare, ?_⟩
    rw [hpass.length_eq_iff]
    refine ⟨fun hl => ⟨hl, ?_⟩, fun hl => hl.1⟩
    simpa using hiff hl

/-! ## The whole function -/

theorem begun_setDefaultError {base : RouteJ} (h : RouteJ.Begun base) :
    (∀ n ∈ base.map setDefaultError, n.checkNodeJ) ∧
      ∀ n ∈ (base.map setDefaultError).head?, n.isFixed := by
  refine ⟨fun n hn => ?_, fun n hn => ?_⟩
  · obtain ⟨m, hm, rfl⟩ := List.mem_map.mp hn
    exact h.check m hm
  · rw [List.head?_map] at hn
    obtain ⟨m, hm, rfl⟩ := Option.map_eq_some_iff.mp hn
    exact h.first m hm

theorem expandCopy_of_not_check {r : RouteJ} (h : checkRouteJ (touchBorders r) = false) :
    expandCopy r = .ok [] := by
  simp [expandCopy, dayPathExpand, create, h, bind, Except.bind, pure, Except.pure]

/-- The re-expansion of checked nodes that start with a fixed one leaves nothing unless they are a
valid route. -/
theorem expandCopy_of_not_valid {r : RouteJ} (hcheck : ∀ n ∈ r, n.checkNodeJ)
    (hfirst : ∀ n ∈ r.head?, n.isFixed) (h : ¬ RouteJ.Valid r) : expandCopy r = .ok [] := by
  match r with
  | [] => exact expandCopy_of_not_check (r := []) rfl
  | [n] => exact expandCopy_of_not_check (r := [n]) rfl
  | n :: m :: rest =>
    obtain ⟨mid, last, hrest⟩ : ∃ mid last, m :: rest = mid ++ [last] :=
      ⟨_, _, (List.dropLast_append_getLast (List.cons_ne_nil m rest)).symm⟩
    rw [hrest] at h hcheck hfirst ⊢
    cases hx : last.isFixed with
    | true =>
      refine absurd ⟨?_, hfirst, ?_⟩ h
      · rw [checkRouteJ, if_neg (by simp)]
        exact List.all_eq_true.mpr hcheck
      · rw [← List.cons_append, List.getLast?_concat]
        simpa using hx
    | false =>
      have hbad := checkNodeJ_touchTimes (checkNodeJ_xor (hcheck last (by simp))) hx
      exact expandCopy_of_not_check (by simp [touchBorders_concat, checkRouteJ, hbad])

theorem valid_or_nil {r r' : RouteJ} (hcheck : ∀ n ∈ r, n.checkNodeJ)
    (hfirst : ∀ n ∈ r.head?, n.isFixed) (h : expandCopy r = .ok r') : RouteJ.Valid r ∨ r' = [] := by
  by_cases hvalid : RouteJ.Valid r
  · exact .inl hvalid
  · right
    simpa [expandCopy_of_not_valid hcheck hfirst hvalid, eq_comm] using h

theorem BaseRoute.begun {r base : RouteJ} (hr : RouteJ.Valid r) (hb : BaseRoute r base) :
    RouteJ.Begun base :=
  hr.begun_of_take hb.skeleton hb.scheduled

/-- What is left of the route `r`. -/
theorem dayPathExpandOptWith_spec {Q : NodeJ → Prop} {expand : RouteJ → Res RouteJ}
    {late : Nat → Nat → Nat → Nat → Bool} {r : RouteJ} {controls : Controls} {g' : PathGenerator}
    {b : Bool} (hexp : Reschedules Q expand) (hr : RouteJ.Valid r)
    (h : (create r controls).dayPathExpandOptWith expand late = .ok (b, g')) :
    ∃ base, BaseRoute r base ∧ (g'.outRouteJ = [] ∧ base.length < r.length ∨
      RouteJ.Valid base ∧ Refit Q base g'.outRouteJ) := by
  have hin : (create r controls).inRouteJ = r := create_inRouteJ hr controls
  simp only [dayPathExpandOptWith, hin, hr.check, Bool.not_true, Bool.false_eq_true, if_false] at h
  obtain ⟨g₁, hg₁, h⟩ := bind_ok.mp h
  obtain ⟨outRouteJ, hexpand, h⟩ := bind_ok.mp h
  obtain ⟨⟨b₁, opened⟩, hopen, h⟩ := bind_ok.mp h
  obtain ⟨hframe, hbase⟩ := baseRoute_spec (by rwa [hin]) rfl rfl hg₁
  rw [hin] at hbase
  refine ⟨g₁.outRouteJ, hbase, ?_⟩
  generalize g₁.outRouteJ = base at hbase hexpand
  -- the last two passes, on a route with any property they keep
  have hpasses {P : RouteJ → Prop} (h₀ : P outRouteJ)
      (hopenP : ∀ b r₁ r₂, selectOpenCloseWith expand late r₁ = .ok (b, r₂) → P r₁ → P r₂)
      (henrichP : ∀ b r₁ r₂, timeEnrichWith expand r₁ = .ok (b, r₂) → P r₁ → P r₂) :
      P g'.outRouteJ := by
    have h₁ : P opened := hopenP _ _ _ hopen h₀
    split at h
    · obtain ⟨-, rfl⟩ : true = b ∧ { g₁ with outRouteJ := opened } = g' := by
        simpa [pure, Except.pure] using h
      exact h₁
    · obtain ⟨⟨b₂, enriched⟩, henrich, h⟩ := bind_ok.mp h
      obtain ⟨-, rfl⟩ : true = b ∧ { g₁ with outRouteJ := enriched } = g' := by
        simpa [pure, Except.pure] using h
      exact henrichP _ _ _ henrich h₁
  have hskel : (base.map setDefaultError).map skeleton = base.map skeleton := by
    simp [Function.comp_def]
  by_cases hvalid : RouteJ.Valid base
  · right
    refine ⟨hvalid, ?_⟩
    have htrial : RouteJ.Valid (base.map setDefaultError) := hvalid.of_skeleton hskel.symm
    have hlinked := (RouteJ.linked_iff_of_skeleton hskel).mpr hbase.scheduled.linked
    have hrefit : Refit Q base outRouteJ := by
      have := hexp.refit htrial hlinked hexpand
      refine ⟨this.core.trans ?_, this.scheduled, this.all⟩
      simp only [List.map_map, List.map_inj_left, Function.comp_apply]
      exact fun n _ => core_eq_of_bare rfl
    refine hpasses hrefit (fun _ _ _ h hP => ?_) (fun _ _ _ h hP => ?_)
    · exact hP.trans (selectOpenClose_refit hexp (hP.valid hvalid) hP.scheduled hP.all h)
    · exact hP.trans (timeEnrich_refit hexp (hP.valid hvalid) hP.scheduled hP.all h)
  · left
    have hlt : base.length < r.length := by
      refine lt_of_le_of_ne hbase.length_le fun hlen => hvalid (hr.of_skeleton ?_)
      rw [hbase.skeleton, hlen, List.take_length]
    refine ⟨?_, hlt⟩
    obtain ⟨hcheck, hfirst⟩ := begun_setDefaultError (hbase.begun hr)
    have hnil : outRouteJ = [] :=
      (valid_or_nil hcheck hfirst (hexp.copy _ _ hexpand)).resolve_left fun hv =>
        hvalid (hv.of_skeleton hskel)
    refine hpasses (P := fun r => r = []) hnil ?_ ?_
    · rintro b _ r₂ h rfl
      obtain ⟨-, rfl⟩ : true = b ∧ [] = r₂ := by
        simpa [selectOpenCloseWith, scan, pure, Except.pure] using h
      rfl
    · rintro b _ r₂ h rfl
      obtain ⟨-, rfl⟩ : true = b ∧ [] = r₂ := by
        simpa [timeEnrichWith, scan, pure, Except.pure] using h
      rfl

/-- The re-expansion of the source. -/
theorem reschedules_expandCopy : Reschedules (fun _ => True) expandCopy :=
  ⟨fun _ _ h => h, fun _ _ _ _ _ _ _ => trivial⟩

/-! ## No node is lost -/

/-- The result has the ids of the input iff no edge is missing and the start has a session to
offer. Otherwise the function still reports success. -/
theorem dayPathExpandOpt_ids_iff {r : RouteJ} {controls : Controls}
    {late : Nat → Nat → Nat → Nat → Bool} {g' : PathGenerator} (hr : RouteJ.Valid r)
    (h : (create r controls).dayPathExpandOpt late = .ok (true, g')) :
    g'.outRouteJ.map NodeJ.id = r.map NodeJ.id ↔ RouteJ.Linked r ∧ canStart r := by
  obtain ⟨base, hbase, ⟨hnil, hlt⟩ | ⟨-, hrefit⟩⟩ :=
    dayPathExpandOptWith_spec reschedules_expandCopy hr h
  · rw [← hbase.length_eq_iff, hnil]
    refine iff_of_false (fun hids => ?_) hlt.ne
    have := congrArg List.length hids
    simp at this
    omega
  · have hskel : g'.outRouteJ.map skeleton = (r.take base.length).map skeleton :=
      (RouteJ.map_skeleton_of_core hrefit.core).trans hbase.skeleton
    have hid (r : RouteJ) : r.map NodeJ.id = (r.map skeleton).map NodeJ.id := by simp
    rw [← hbase.length_eq_iff]
    constructor
    · intro hids
      have hlen := congrArg List.length hids
      have hlen' := congrArg List.length hskel
      have := hbase.length_le
      simp only [List.length_map, List.length_take] at hlen hlen'
      omega
    · intro hlen
      rw [hid, hskel, hlen, List.take_length, ← hid]

/-- `museumDay` as planned: the visit waits for the opening and is stretched to its recommended
stay. -/
def museumPlan : RouteJ :=
  [{ id := some "hotel", toNext := some [("museum", 1800)]
     fixed := some ⟨some [(0, 28800)], some 0⟩, rangeIdx := some 0, time := (0, 28800) },
   { id := some "museum", toNext := some [("inn", 1800)]
     free := some ⟨some [(32400, 64800)], some ⟨5400, 5400, 7200⟩⟩
     rangeIdx := some 0, time := (32400, 37800) },
   { id := some "inn", toNext := some []
     fixed := some ⟨some [(72000, 86400)], some 0⟩, rangeIdx := some 0, time := (72000, 86400) }]

theorem dayPathExpandOpt_museumDay :
    (create museumDay).dayPathExpandOpt (fun _ _ _ _ => false) =
      .ok (true, { create museumDay with outRouteJ := museumPlan }) := by
  decide +kernel

theorem dayPathExpandOpt_ids_iff_museumDay :
    museumPlan.map NodeJ.id = museumDay.map NodeJ.id ↔
      RouteJ.Linked museumDay ∧ canStart museumDay :=
  dayPathExpandOpt_ids_iff museumDay_valid dayPathExpandOpt_museumDay

/-- Two fixed nodes without a traffic edge between them. -/
def cutDay : RouteJ :=
  [{ id := some "hotel", toNext := some [], fixed := some ⟨some [(0, 28800)], some 0⟩ },
   { id := some "inn", toNext := some [], fixed := some ⟨some [(72000, 86400)], some 0⟩ }]

theorem cutDay_valid : RouteJ.Valid cutDay :=
  ⟨by decide, by simp [cutDay, isFixed], by simp [cutDay, isFixed]⟩

/-- On `cutDay` the function reports success and leaves no node at all. -/
theorem dayPathExpandOpt_loses_nodes :
    ¬ ∀ (r : RouteJ) (controls : Controls) (late : Nat → Nat → Nat → Nat → Bool)
      (g' : PathGenerator), RouteJ.Valid r →
      (create r controls).dayPathExpandOpt late = .ok (true, g') →
      g'.outRouteJ.length = r.length ∧ g'.outRouteJ.map NodeJ.id = r.map NodeJ.id := by
  intro h
  have := h cutDay {} (fun _ _ _ _ => false) (create cutDay) cutDay_valid rfl
  exact absurd this.1 (by decide)

/-! ## The spliced schedule is one schedule -/

/-- Expanding the result as a whole puts every node where it is: only flags may differ. -/
theorem dayPathExpand_dayPathExpandOpt {r : RouteJ} {controls : Controls}
    {late : Nat → Nat → Nat → Nat → Bool} {g' : PathGenerator} (hr : RouteJ.Valid r)
    (h : (create r controls).dayPathExpandOpt late = .ok (true, g'))
    (hlen : g'.outRouteJ.length = r.length) :
    ∃ g'', (create g'.outRouteJ controls).dayPathExpand = .ok (true, g'') ∧
      g''.outRouteJ.map NodeJ.time = g'.outRouteJ.map NodeJ.time ∧
      g''.outRouteJ.map setDefaultError = g'.outRouteJ.map setDefaultError := by
  obtain ⟨base, hbase, ⟨hnil, hlt⟩ | ⟨hvalid, hrefit⟩⟩ :=
    dayPathExpandOptWith_spec reschedules_expandCopy hr h
  · rw [hnil, List.length_nil] at hlen
    omega
  · obtain ⟨g'', hg'', hsame⟩ :=
      dayPathExpand_of_scheduled controls (hrefit.valid hvalid) hrefit.scheduled
    have htime (r : RouteJ) : r.map NodeJ.time = (r.map setDefaultError).map NodeJ.time := by
      simp [setDefaultError]
    exact ⟨g'', hg'', by rw [htime, hsame, ← htime], hsame⟩

theorem dayPathExpand_dayPathExpandOpt_museumDay :
    ∃ g'', (create museumPlan).dayPathExpand = .ok (true, g'') ∧
      g''.outRouteJ.map NodeJ.time = museumPlan.map NodeJ.time ∧
      g''.outRouteJ.map setDefaultError = museumPlan.map setDefaultError :=
  dayPathExpand_dayPathExpandOpt museumDay_valid dayPathExpandOpt_museumDay rfl

end PathGenerator

end PPView
