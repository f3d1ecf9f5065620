import Mathlib.Data.List.Chain
import PPView.Library.References
import PPView.PostProcessor.DayLists

/-!
# The two ends of a night

The hotel of a night is the last view of one day and the first view of the next one. `addResult`
gives both the same times, night by night, so the only view of a day is given times twice.
-/

namespace PPView

/-! ## Times of neighbouring days -/

namespace Nights

variable {α β : Type*} {day lastDay theDay nextDay : List (α × β)} {days : List (List (α × β))}

/-- The night between two days, by the start and end of each view. -/
def joinNight : List (α × β) → List (α × β) → List (α × β) × List (α × β)
  | lastDay, [] => (lastDay, [])
  | lastDay, dept :: theDay =>
    match lastDay.getLast? with
    | none => (lastDay, dept :: theDay)
    | some last => (lastDay.dropLast ++ [(last.1, dept.2)], (last.1, dept.2) :: theDay)

def joinNights (lastDay : List (α × β)) : List (List (α × β)) → List (List (α × β))
  | [] => [lastDay]
  | theDay :: days =>
    (joinNight lastDay theDay).1 :: joinNights (joinNight lastDay theDay).2 days

/-- The views on both sides of the night agree, if both days have views. -/
def SameStop (lastDay theDay : List (α × β)) : Prop :=
  ∀ last ∈ lastDay.getLast?, ∀ dept ∈ theDay.head?, last = dept

/-- The only view of a day between two days with views ends as the next day begins. -/
def Settled (days : List (List (α × β))) : Prop :=
  ∀ A lastDay theDay nextDay C, days = A ++ lastDay :: theDay :: nextDay :: C → lastDay ≠ [] →
    ∀ stop, theDay = [stop] → ∀ next ∈ nextDay.head?, stop.2 = next.2

theorem joinNight_nil_right (lastDay : List (α × β)) : joinNight lastDay [] = (lastDay, []) := by
  rw [joinNight]

theorem joinNight_nil_left (theDay : List (α × β)) : joinNight [] theDay = ([], theDay) := by
  cases theDay <;> rfl

theorem joinNight_concat_cons (lastDay theDay : List (α × β)) (last dept : α × β) :
    joinNight (lastDay ++ [last]) (dept :: theDay) =
      (lastDay ++ [(last.1, dept.2)], (last.1, dept.2) :: theDay) := by
  simp [joinNight]

theorem joinNight_snd_eq_nil : (joinNight lastDay theDay).2 = [] ↔ theDay = [] := by
  rcases List.eq_nil_or_concat lastDay with rfl | ⟨init, last, rfl⟩
  · simp [joinNight_nil_left]
  · rw [List.concat_eq_append]
    cases theDay with
    | nil => simp [joinNight_nil_right]
    | cons dept theDay => simp [joinNight_concat_cons]

/-- What the condition says of the first three days. -/
def SettledAt (lastDay theDay nextDay : List (α × β)) : Prop :=
  lastDay ≠ [] → ∀ stop, theDay = [stop] → ∀ next ∈ nextDay.head?, stop.2 = next.2

theorem settled_cons_cons_cons : Settled (lastDay :: theDay :: nextDay :: days) ↔
    SettledAt lastDay theDay nextDay ∧ Settled (theDay :: nextDay :: days) := by
  constructor
  · intro h
    exact ⟨h [] _ _ _ _ rfl, fun A a b c C heq => h (lastDay :: A) a b c C (by rw [heq]; rfl)⟩
  · rintro ⟨hhead, htail⟩ A a b c C heq
    cases A with
    | nil =>
      obtain ⟨rfl, rfl, rfl, rfl⟩ : lastDay = a ∧ theDay = b ∧ nextDay = c ∧ days = C := by
        simpa using heq
      exact hhead
    | cons _ A =>
      rw [List.cons_append, List.cons.injEq] at heq
      exact htail A a b c C heq.2

theorem settled_of_length_le (h : days.length ≤ 2) : Settled days := by
  rintro A a b c C rfl
  simp at h
  omega

/-- Only whether the first day has views matters. -/
theorem settled_congr_head (h : day = [] ↔ lastDay = []) :
    Settled (day :: days) ↔ Settled (lastDay :: days) := by
  match days with
  | [] => exact iff_of_true (settled_of_length_le (by simp)) (settled_of_length_le (by simp))
  | [_] => exact iff_of_true (settled_of_length_le (by simp)) (settled_of_length_le (by simp))
  | theDay :: nextDay :: days =>
    rw [settled_cons_cons_cons, settled_cons_cons_cons, SettledAt, SettledAt, ne_eq, ne_eq, h]

theorem sameStop_joinNight (lastDay theDay : List (α × β)) :
    SameStop (joinNight lastDay theDay).1 (joinNight lastDay theDay).2 := by
  rcases List.eq_nil_or_concat lastDay with rfl | ⟨init, last, rfl⟩
  · simp [SameStop, joinNight_nil_left]
  · rw [List.concat_eq_append]
    cases theDay with
    | nil => simp [SameStop, joinNight_nil_right]
    | cons dept theDay => simp [SameStop, joinNight_concat_cons]

/-- The night that follows keeps a night settled exactly if it does not move the end of the only
view of the day between them. -/
theorem sameStop_joinNight_joinNight (lastDay theDay nextDay : List (α × β)) :
    SameStop (joinNight lastDay theDay).1 (joinNight (joinNight lastDay theDay).2 nextDay).1 ↔
      SettledAt lastDay theDay nextDay := by
  rcases List.eq_nil_or_concat lastDay with rfl | ⟨init, last, rfl⟩
  · simp [SameStop, SettledAt, joinNight_nil_left]
  · rw [List.concat_eq_append]
    match theDay, nextDay with
    | [], nextDay => simp [SameStop, SettledAt, joinNight_nil_right, joinNight_nil_left]
    | dept :: theDay, [] => simp [SameStop, SettledAt, joinNight_concat_cons, joinNight_nil_right]
    | dept :: theDay, next :: nextDay =>
      rw [joinNight_concat_cons]
      rcases List.eq_nil_or_concat theDay with rfl | ⟨views, view, rfl⟩
      · rw [← List.nil_append [(last.1, dept.2)], joinNight_concat_cons]
        simp [SameStop, SettledAt]
      · rw [List.concat_eq_append, ← List.cons_append, joinNight_concat_cons]
        simp [SameStop, SettledAt]

/-- The nights agree on both sides exactly if the days are settled. -/
theorem isChain_joinNights_iff (lastDay : List (α × β)) (days : List (List (α × β))) :
    (joinNights lastDay days).IsChain SameStop ↔ Settled (lastDay :: days) := by
  induction days generalizing lastDay with
  | nil => exact iff_of_true (by simp [joinNights]) (settled_of_length_le (by simp))
  | cons theDay days ih =>
    have hrest := ih (joinNight lastDay theDay).2
    rw [settled_congr_head joinNight_snd_eq_nil] at hrest
    cases days with
    | nil =>
      refine iff_of_true ?_ (settled_of_length_le (by simp))
      simpa [joinNights] using sameStop_joinNight lastDay theDay
    | cons nextDay days =>
      rw [joinNights, settled_cons_cons_cons, ← hrest, joinNights, List.isChain_cons_cons,
        sameStop_joinNight_joinNight]

end Nights

namespace PostProcessor

open Json Nights

/-! ## Times of the views -/

/-- When a view starts and ends. -/
def stayOf (v : Json) : Option String × Option String :=
  ((v.get "stime").asString, (v.get "etime").asString)

def Day.stays (d : Day) : List (Option String × Option String) := d.views.map stayOf

theorem fixHotelTime_stays {dept last dept' last' : Json}
    (h : fixHotelTime dept last = some (dept', last')) :
    stayOf dept' = ((stayOf last).1, (stayOf dept).2) ∧
      stayOf last' = ((stayOf last).1, (stayOf dept).2) := by
  obtain ⟨last₁, hlast₁, h⟩ := Option.bind_eq_some_iff.mp h
  obtain ⟨stime, hstime, h⟩ := Option.bind_eq_some_iff.mp h
  obtain ⟨dept₁, hdept₁, h⟩ := Option.bind_eq_some_iff.mp h
  obtain ⟨etime, hetime, h⟩ := Option.bind_eq_some_iff.mp h
  obtain ⟨dept₂, hdept₂, h⟩ := Option.bind_eq_some_iff.mp h
  obtain ⟨last₂, hlast₂, h⟩ := Option.bind_eq_some_iff.mp h
  obtain ⟨dept₃, hdept₃, h⟩ := Option.bind_eq_some_iff.mp h
  obtain ⟨last₃, hlast₃, h⟩ := Option.bind_eq_some_iff.mp h
  obtain ⟨rfl, rfl⟩ : dept₃ = dept' ∧ last₃ = last' := by simpa [pure] using h
  rw [get_touch hlast₁] at hstime
  rw [get_touch hdept₁] at hetime
  constructor
  · simp [stayOf, get_put hdept₃, get_put hdept₂, get_touch hdept₁, hstime]
    rfl
  · simp [stayOf, get_put hlast₃, get_put hlast₂, get_touch hlast₁, hetime]
    rfl

theorem Day.views_eq {d : Day} {vs : List Json} (h : d.json.get "view" = arr vs) : d.views = vs :=
  Option.some.inj (d.view_eq.symm.trans (congrArg items h))

theorem fixNight_stays {lastDay theDay lastDay' theDay' : Day}
    (h : fixNight lastDay.json theDay.json = some (lastDay'.json, theDay'.json)) :
    (lastDay'.stays, theDay'.stays) = joinNight lastDay.stays theDay.stays := by
  obtain ⟨a, ha, h⟩ := Option.bind_eq_some_iff.mp h
  obtain ⟨b, hb, h⟩ := Option.bind_eq_some_iff.mp h
  have hva : (a.get "view").items = some lastDay.views := by
    rw [get_touch ha, lastDay.view_eq]
  have hvb : (b.get "view").items = some theDay.views := by
    rw [get_touch hb, theDay.view_eq]
  dsimp only at h
  by_cases hsize : (a.get "view").size > 0 ∧ (b.get "view").size > 0
  · rw [if_pos hsize] at h
    have ha' := eq_arr hva hsize.1
    have hb' := eq_arr hvb hsize.2
    rw [ha', hb', size, size] at hsize
    rw [ha', hb'] at h
    obtain ⟨init, last, hinit⟩ := List.eq_nil_or_concat lastDay.views |>.resolve_left fun hnil => by
      simp [hnil] at hsize
    obtain ⟨dept, rest, hrest⟩ := List.exists_cons_of_length_pos hsize.2
    rw [List.concat_eq_append] at hinit
    obtain ⟨dept', hdept', h⟩ := Option.bind_eq_some_iff.mp h
    obtain ⟨last', hlast', h⟩ := Option.bind_eq_some_iff.mp h
    obtain ⟨⟨dept'', last''⟩, hfix, h⟩ := Option.bind_eq_some_iff.mp h
    obtain ⟨w, hw, h⟩ := Option.bind_eq_some_iff.mp h
    obtain ⟨a', hput, h⟩ := Option.bind_eq_some_iff.mp h
    obtain ⟨w', hw', h⟩ := Option.bind_eq_some_iff.mp h
    obtain ⟨b', hput', h⟩ := Option.bind_eq_some_iff.mp h
    obtain ⟨rfl, rfl⟩ : a' = lastDay'.json ∧ b' = theDay'.json := by simpa [pure] using h
    obtain rfl : dept = dept' := by simpa [item, hrest] using hdept'
    obtain rfl : last = last' := by simpa [item, size, hinit] using hlast'
    rw [putItem_of_lt (by simpa [size] using hsize.1)] at hw
    rw [putItem_of_lt hsize.2] at hw'
    obtain ⟨hdept, hlast⟩ := fixHotelTime_stays hfix
    have hviews : lastDay'.views = init ++ [last''] := by
      refine Day.views_eq ?_
      rw [get_put hput, if_pos rfl, ← Option.some.inj hw]
      simp [size, hinit]
    have hviews' : theDay'.views = dept'' :: rest := by
      refine Day.views_eq ?_
      rw [get_put hput', if_pos rfl, ← Option.some.inj hw']
      simp [hrest]
    simp only [Day.stays, hviews, hviews', hinit, hrest, List.map_append, List.map_cons,
      List.map_nil, joinNight_concat_cons, hdept, hlast]
  · rw [if_neg hsize] at h
    obtain ⟨rfl, rfl⟩ : a = lastDay'.json ∧ b = theDay'.json := by simpa [pure] using h
    have hlast : lastDay'.views = lastDay.views := Option.some.inj (lastDay'.view_eq.symm.trans hva)
    have hthe : theDay'.views = theDay.views := Option.some.inj (theDay'.view_eq.symm.trans hvb)
    have hempty : lastDay.views = [] ∨ theDay.views = [] := by
      rw [Json.size_eq_length hva, Json.size_eq_length hvb] at hsize
      simpa [List.length_pos_iff, Classical.or_iff_not_imp_left] using hsize
    rw [Day.stays, Day.stays, Day.stays, Day.stays, hlast, hthe]
    rcases hempty with hnil | hnil
    · simp [hnil, joinNight_nil_left]
    · simp [hnil, joinNight_nil_right]

theorem fixNights_stays (lastDay : Day) (days : List Day) :
    ∃ out : List Day, fixNights lastDay.json (days.map Day.json) = some (out.map Day.json) ∧
      out.map Day.stays = joinNights lastDay.stays (days.map Day.stays) := by
  induction days generalizing lastDay with
  | nil => exact ⟨[lastDay], rfl, rfl⟩
  | cons theDay days ih =>
    obtain ⟨lastDay', theDay', hnight, -, -⟩ := fixNight_spec lastDay theDay
    obtain ⟨out, hrest, hout⟩ := ih theDay'
    refine ⟨lastDay' :: out, ?_, ?_⟩
    · rw [List.map_cons, fixNights, hnight]
      simp only [bind, Option.bind, hrest, Functor.map, Option.map, List.map_cons]
    · rw [List.map_cons, List.map_cons, joinNights, ← fixNight_stays hnight, hout]

/-! ## Merged lists -/

/-- The days before their nights are fixed. -/
def mergedDays (bases days : List Day) (dates : Finset String) : List Day :=
  if bases = [] then days else Sweep.sweep Day.date (· ∈ dates) bases days

/-- The two views of every night start and end at the same times. -/
def AgreeAtNight (out : List Day) : Prop :=
  out.IsChain fun lastDay theDay => ∀ last ∈ lastDay.views.getLast?, ∀ dept ∈ theDay.views.head?,
    (last.get "stime").asString = (dept.get "stime").asString ∧
      (last.get "etime").asString = (dept.get "etime").asString

/-- The only view of a day between two days with views ends as the next day begins. -/
def SettledDays (days : List Day) : Prop :=
  ∀ A lastDay theDay nextDay C, days = A ++ lastDay :: theDay :: nextDay :: C →
    lastDay.views ≠ [] → ∀ stop, theDay.views = [stop] → ∀ next ∈ nextDay.views.head?,
      (stop.get "etime").asString = (next.get "etime").asString

theorem agreeAtNight_iff (out : List Day) :
    AgreeAtNight out ↔ (out.map Day.stays).IsChain SameStop := by
  rw [AgreeAtNight, List.isChain_map]
  simp only [SameStop, Day.stays, List.getLast?_map, List.head?_map, Option.mem_def,
    Option.map_eq_some_iff, forall_exists_index, and_imp, forall_apply_eq_imp_iff₂, stayOf,
    Prod.mk.injEq]

theorem settledDays_iff (days : List Day) : SettledDays days ↔ Settled (days.map Day.stays) := by
  constructor
  · intro h A lastDay theDay nextDay C hsplit hne stop hstop next hnext
    obtain ⟨A, rest₁, rfl, -, hrest₁⟩ := List.map_eq_append_iff.mp hsplit
    obtain ⟨lastDay, rest₂, rfl, rfl, hrest₂⟩ := List.map_eq_cons_iff.mp hrest₁
    obtain ⟨theDay, rest₃, rfl, rfl, hrest₃⟩ := List.map_eq_cons_iff.mp hrest₂
    obtain ⟨nextDay, C, rfl, rfl, -⟩ := List.map_eq_cons_iff.mp hrest₃
    obtain ⟨stop, hviews, rfl⟩ := List.map_eq_singleton_iff.mp hstop
    rw [Day.stays, List.head?_map, Option.mem_def, Option.map_eq_some_iff] at hnext
    obtain ⟨next, hnext, rfl⟩ := hnext
    exact h A lastDay theDay nextDay C rfl (by simpa [Day.stays] using hne) stop hviews next hnext
  · rintro h A lastDay theDay nextDay C rfl hne stop hstop next hnext
    refine h (A.map Day.stays) lastDay.stays theDay.stays nextDay.stays (C.map Day.stays)
      (by simp) (by simpa [Day.stays] using hne) (stayOf stop) (by simp [Day.stays, hstop])
      (stayOf next) ?_
    rw [Day.stays, List.head?_map, Option.mem_def.mp hnext]
    rfl

/-- The second part of `addResult`. -/
def fixAll (resp : Json) : Option Json :=
  if resp.size > 1 then do
    match ← resp.items with
    | [] => pure resp
    | day :: days => .arr <$> fixNights day days
  else pure resp

theorem addResult_eq (bases days : List Day) (dates : Finset String) :
    ∃ merged : Json, merged.items = some ((mergedDays bases days dates).map Day.json) ∧
      addResult (arr (bases.map Day.json)) (arr (days.map Day.json)) dates = fixAll merged := by
  rw [addResult, mergedDays, size, List.length_map]
  by_cases hne : bases = []
  · rw [if_pos hne, if_neg (by simpa using hne)]
    exact ⟨_, rfl, rfl⟩
  · rw [if_neg hne, if_pos (by simpa using hne)]
    simp only [items, bind, Option.bind, splice_eq]
    cases Sweep.sweep Day.date (· ∈ dates) bases days with
    | nil => exact ⟨.null, rfl, rfl⟩
    | cons day rest => exact ⟨arr ((day :: rest).map Day.json), rfl, rfl⟩

theorem fixAll_stays {merged : Json} {days : List Day}
    (h : merged.items = some (days.map Day.json)) :
    ∃ resp, ∃ out : List Day, fixAll merged = some resp ∧ resp.items = some (out.map Day.json) ∧
      (AgreeAtNight out ↔ SettledDays days) := by
  rw [fixAll, size_eq_length h, List.length_map]
  by_cases hlen : days.length > 1
  · obtain ⟨day, days, rfl⟩ := List.exists_cons_of_length_pos (by omega : 0 < days.length)
    obtain ⟨out, hnights, hout⟩ := fixNights_stays day days
    refine ⟨arr (out.map Day.json), out, ?_, rfl, ?_⟩
    · rw [if_pos hlen, h, List.map_cons]
      simp only [bind, Option.bind, hnights, Functor.map, Option.map]
    · rw [agreeAtNight_iff, hout, isChain_joinNights_iff, settledDays_iff, List.map_cons]
  · rw [if_neg hlen]
    refine ⟨merged, days, rfl, h, iff_of_true ?_ ?_⟩
    · rcases days with _ | ⟨day, _ | ⟨day', days⟩⟩
      · exact .nil
      · exact .singleton day
      · simp at hlen
    · exact (settledDays_iff days).mpr (settled_of_length_le (by simp; omega))

/-- The nights of the merged list come out with equal times on both sides exactly if the only view
of a day between two days with views ends as the first view of the next day. -/
theorem addResult_agreeAtNight_iff (bases days : List Day) (dates : Finset String) :
    ∃ resp, ∃ out : List Day, addResult (arr (bases.map Day.json)) (arr (days.map Day.json)) dates =
        some resp ∧ resp.items = some (out.map Day.json) ∧
      (AgreeAtNight out ↔ SettledDays (mergedDays bases days dates)) := by
  obtain ⟨merged, hitems, hcall⟩ := addResult_eq bases days dates
  rw [hcall]
  exact fixAll_stays hitems

/-- A day with one view. -/
def shortDay (date stime etime : String) : Day where
  json := obj [("date", str date), ("view", arr [obj [("etime", str etime), ("stime", str stime)]])]
  date := date
  views := [obj [("etime", str etime), ("stime", str stime)]]
  isObject := rfl
  date_eq := rfl
  view_eq := rfl
  isView := by
    intro v hv
    rw [List.mem_singleton.mp hv]
    exact ⟨rfl, rfl, rfl⟩

/-- Three days with one view each: the second night takes the end of the first one. -/
theorem not_agreeAtNight_shortDays :
    ¬ ∃ resp, ∃ out : List Day, addResult (arr [])
        (arr ([shortDay "20180101" "20180101_20:00" "20180101_22:00",
          shortDay "20180102" "20180101_20:00" "20180102_09:00",
          shortDay "20180103" "20180102_20:00" "20180103_09:00"].map Day.json)) ∅ = some resp ∧
      resp.items = some (out.map Day.json) ∧ AgreeAtNight out := by
  rintro ⟨resp, out, hcall, hitems, hagree⟩
  cases hcall
  obtain ⟨first, rest, rfl, hfirst, hrest⟩ := List.map_eq_cons_iff.mp (Option.some.inj hitems).symm
  obtain ⟨second, rest, rfl, hsecond, -⟩ := List.map_eq_cons_iff.mp hrest
  have hviews := first.views_eq (congrArg (Json.get "view") hfirst)
  have hviews' := second.views_eq (congrArg (Json.get "view") hsecond)
  have hnight := (List.isChain_cons_cons.mp hagree).1 _ (by rw [hviews]; rfl) _
    (by rw [hviews']; rfl)
  exact absurd hnight.2 (by decide +kernel)

end PostProcessor

end PPView
