import PPView.Library.Sweep
import PPView.PostProcessor.AddResult

/-!
# The days of a merged list

On day lists `addResult` is `Sweep.sweep`, up to the times of the hotels at both ends of a day, and
so it merges the lists when no recomputed day is missing before one that is there.
-/

namespace PPView

/-- Reading and then setting an item that is there. -/
theorem Json.putItem_of_lt {items : List Json} {i : ℕ} (hi : i < items.length) (v : Json) :
    (arr items).putItem i v = some (arr (items.set i v)) := by
  rw [putItem, List.rightpad, Nat.sub_eq_zero_of_le hi, List.replicate_zero, List.append_nil]

theorem Json.eq_arr {j : Json} {vs : List Json} (h : j.items = some vs) (hsize : j.size > 0) :
    j = arr vs := by
  cases j with
  | arr items => rw [Option.some.inj h]
  | obj members =>
    cases members with
    | nil => cases hsize
    | cons m members => cases h
  | _ => cases hsize

namespace PostProcessor

open Json

/-! ## Views -/

/-- What `fixHotelTime` changes. -/
def hotelTimes : List String := ["stime", "etime", "dur"]

def SameView (v v' : Json) : Prop := v.without hotelTimes = v'.without hotelTimes

structure IsView (v : Json) : Prop where
  isObject : v.isObject
  stime : (v.get "stime").asString.isSome
  etime : (v.get "etime").asString.isSome

theorem IsView.put {v : Json} (h : IsView v) {key : String} (hkey : key ∈ hotelTimes) {w : Json}
    (hw : w.asString.isSome) : ∃ v', v.put key w = some v' ∧ IsView v' ∧ SameView v v' := by
  obtain ⟨v', hput, hobj⟩ := put_of_isObject h.isObject key w
  refine ⟨v', hput, ⟨hobj, ?_, ?_⟩, (without_put hkey h.isObject hput).symm⟩
  · rw [get_put hput]
    split_ifs
    · exact hw
    · exact h.stime
  · rw [get_put hput]
    split_ifs
    · exact hw
    · exact h.etime

theorem fixHotelTime_spec {dept last : Json} (hdept : IsView dept) (hlast : IsView last) :
    ∃ dept' last', fixHotelTime dept last = some (dept', last') ∧
      (IsView dept' ∧ SameView dept dept') ∧ IsView last' ∧ SameView last last' := by
  obtain ⟨last₁, htouch, hlast₁, hsame₁⟩ :=
    hlast.put (show "stime" ∈ hotelTimes by decide) hlast.stime
  obtain ⟨stime, hstime⟩ := Option.isSome_iff_exists.mp hlast₁.stime
  obtain ⟨dept₁, htouch', hdept₁, hsame₁'⟩ :=
    hdept.put (show "etime" ∈ hotelTimes by decide) hdept.etime
  obtain ⟨etime, hetime⟩ := Option.isSome_iff_exists.mp hdept₁.etime
  obtain ⟨dept₂, hput₂', hdept₂, hsame₂'⟩ := hdept₁.put (show "stime" ∈ hotelTimes by decide)
    (show (str stime).asString.isSome from rfl)
  obtain ⟨last₂, hput₂, hlast₂, hsame₂⟩ := hlast₁.put (show "etime" ∈ hotelTimes by decide)
    (show (str etime).asString.isSome from rfl)
  obtain ⟨dept₃, hput₃', hdept₃, hsame₃'⟩ := hdept₂.put (show "dur" ∈ hotelTimes by decide)
    (show (int (-1)).asString.isSome from rfl)
  obtain ⟨last₃, hput₃, hlast₃, hsame₃⟩ := hlast₂.put (show "dur" ∈ hotelTimes by decide)
    (show (int (-1)).asString.isSome from rfl)
  refine ⟨dept₃, last₃, ?_, ⟨hdept₃, hsame₁'.trans (hsame₂'.trans hsame₃')⟩, hlast₃,
    hsame₁.trans (hsame₂.trans hsame₃)⟩
  rw [← touch] at htouch htouch'
  simp only [fixHotelTime, htouch, htouch', hstime, hetime, hput₂, hput₂', hput₃, hput₃', bind,
    Option.bind, pure]

/-! ## Days -/

/-- A day of a day list: it has a date and, if any, views with times. -/
structure Day where
  json : Json
  date : String
  views : List Json
  isObject : json.isObject
  date_eq : dateOf json = some date
  view_eq : (json.get "view").items = some views
  isView : ∀ v ∈ views, IsView v

/-- The days differ in the times of the hotels at both ends at most. -/
structure SameDay (d d' : Day) : Prop where
  members : d.json.without ["view"] = d'.json.without ["view"]
  views : d.views.map (without hotelTimes) = d'.views.map (without hotelTimes)
  middle : d.views.tail.dropLast = d'.views.tail.dropLast

theorem SameDay.refl (d : Day) : SameDay d d := ⟨rfl, rfl, rfl⟩

theorem SameDay.trans {d d' d'' : Day} (h : SameDay d d') (h' : SameDay d' d'') : SameDay d d'' :=
  ⟨h.members.trans h'.members, h.views.trans h'.views, h.middle.trans h'.middle⟩

theorem Day.put (d : Day) {w : Json} {vs : List Json} (hw : w.items = some vs)
    (hvs : ∀ v ∈ vs, IsView v) :
    ∃ d' : Day, d.json.put "view" w = some d'.json ∧ d'.json.get "view" = w ∧ d'.views = vs ∧
      d.json.without ["view"] = d'.json.without ["view"] := by
  obtain ⟨j, hput, hobj⟩ := put_of_isObject d.isObject "view" w
  have hview : j.get "view" = w := by rw [get_put hput, if_pos rfl]
  have hdate : dateOf j = some d.date := by
    rw [← d.date_eq, dateOf, dateOf, get_put hput, if_neg (by decide)]
  exact ⟨⟨j, d.date, vs, hobj, hdate, hview ▸ hw, hvs⟩, hput, hview, rfl,
    (without_put (by simp) d.isObject hput).symm⟩

theorem map_set {vs : List Json} {k : ℕ} (hk : k < vs.length) {v : Json}
    (h : SameView vs[k] v) :
    vs.map (without hotelTimes) = (vs.set k v).map (without hotelTimes) := by
  have hset := List.set_getElem_self (show k < (vs.map (without hotelTimes)).length by simpa)
  rw [List.getElem_map, h] at hset
  rw [List.map_set, hset]

theorem middle_set {vs : List Json} {k : ℕ} (hk : k = 0 ∨ k = vs.length - 1) (v : Json) :
    (vs.set k v).tail.dropLast = vs.tail.dropLast := by
  refine List.ext_getElem (by simp) fun i hi hi' => ?_
  simp only [List.length_dropLast, List.length_tail] at hi'
  rw [List.getElem_dropLast, List.getElem_dropLast, List.getElem_tail, List.getElem_tail,
    List.getElem_set_ne (by omega)]

/-- A view at one of the ends of a day is replaced. -/
theorem Day.setView (d : Day) {k : ℕ} (hview : d.json.get "view" = arr d.views)
    (hk : k < d.views.length) (hend : k = 0 ∨ k = d.views.length - 1) {v : Json} (hv : IsView v)
    (hsame : SameView d.views[k] v) :
    ∃ w, ∃ d' : Day, (d.json.get "view").putItem k v = some w ∧
      d.json.put "view" w = some d'.json ∧ SameDay d d' := by
  obtain ⟨d', hput, -, hviews, hmembers⟩ := d.put (show (arr (d.views.set k v)).items = _ from rfl)
    fun v' hv' => (List.mem_or_eq_of_mem_set hv').elim (d.isView v') fun heq => heq ▸ hv
  refine ⟨_, d', by rw [hview, putItem_of_lt hk], hput, hmembers, ?_, ?_⟩
  · rw [hviews, ← map_set hk hsame]
  · rw [hviews, middle_set hend]

theorem fixNight_spec (lastDay theDay : Day) :
    ∃ lastDay' theDay' : Day, fixNight lastDay.json theDay.json =
      some (lastDay'.json, theDay'.json) ∧ SameDay lastDay lastDay' ∧ SameDay theDay theDay' := by
  obtain ⟨a, ha, hagetj, haviews, hamembers⟩ := lastDay.put lastDay.view_eq lastDay.isView
  obtain ⟨b, hb, hbgetj, hbviews, hbmembers⟩ := theDay.put theDay.view_eq theDay.isView
  have hsame_a : SameDay lastDay a := ⟨hamembers, by rw [haviews], by rw [haviews]⟩
  have hsame_b : SameDay theDay b := ⟨hbmembers, by rw [hbviews], by rw [hbviews]⟩
  rw [← touch] at ha hb
  by_cases hsize : (a.json.get "view").size > 0 ∧ (b.json.get "view").size > 0
  · have hva := eq_arr a.view_eq hsize.1
    have hvb := eq_arr b.view_eq hsize.2
    have hsa : (a.json.get "view").size = a.views.length := by rw [hva, size]
    have hsb : (b.json.get "view").size = b.views.length := by rw [hvb, size]
    have hka : a.views.length - 1 < a.views.length := by omega
    have hkb : 0 < b.views.length := by omega
    obtain ⟨dept, last, hfix, ⟨hdept, hsame_dept⟩, hlast, hsame_last⟩ := fixHotelTime_spec
      (b.isView _ (List.getElem_mem hkb)) (a.isView _ (List.getElem_mem hka))
    obtain ⟨wa, a', hitem_a, hput_a, hsame_a'⟩ := a.setView hva hka (.inr rfl) hlast hsame_last
    obtain ⟨wb, b', hitem_b, hput_b, hsame_b'⟩ := b.setView hvb hkb (.inl rfl) hdept hsame_dept
    refine ⟨a', b', ?_, hsame_a.trans hsame_a', hsame_b.trans hsame_b'⟩
    have hread_a : (a.json.get "view").item (a.views.length - 1) =
        some a.views[a.views.length - 1] := by
      rw [hva, item, List.getD_eq_getElem _ _ hka]
    have hread_b : (b.json.get "view").item 0 = some b.views[0] := by
      rw [hvb, item, List.getD_eq_getElem _ _ hkb]
    rw [hsa, hsb] at hsize
    simp only [fixNight, ha, hb, bind, Option.bind, hsa, hsb, if_pos hsize, hread_a, hread_b, hfix,
      hitem_a, hput_a, hitem_b, hput_b, pure]
  · refine ⟨a, b, ?_, hsame_a, hsame_b⟩
    simp only [fixNight, ha, hb, bind, Option.bind, if_neg hsize, pure]

theorem fixNights_spec (lastDay : Day) (days : List Day) :
    ∃ out : List Day, fixNights lastDay.json (days.map Day.json) = some (out.map Day.json) ∧
      List.Forall₂ SameDay (lastDay :: days) out := by
  induction days generalizing lastDay with
  | nil => exact ⟨[lastDay], rfl, .cons (.refl _) .nil⟩
  | cons theDay days ih =>
    obtain ⟨lastDay', theDay', hnight, hlast, hthe⟩ := fixNight_spec lastDay theDay
    obtain ⟨out, hrest, hout⟩ := ih theDay'
    refine ⟨lastDay' :: out, ?_, .cons hlast ?_⟩
    · rw [List.map_cons, fixNights, hnight]
      simp only [bind, Option.bind, hrest, Functor.map, Option.map, List.map_cons]
    · cases hout with
      | cons hhead htail => exact .cons (hthe.trans hhead) htail

/-! ## Lists -/

theorem seek_eq (date : String) (days : List Day) : seek date (days.map Day.json) =
    some ((days.dropWhile (·.date ≠ date)).map Day.json) := by
  induction days with
  | nil => rfl
  | cons day days ih =>
    rw [List.map_cons, seek, day.date_eq, List.dropWhile_cons]
    by_cases hdate : day.date = date
    · simp [hdate]
    · simp [hdate, ih]

theorem splice_eq (dates : Finset String) (bases days : List Day) :
    splice dates (bases.map Day.json) (some (days.map Day.json)) =
      some ((Sweep.sweep Day.date (· ∈ dates) bases days).map Day.json) := by
  induction bases generalizing days with
  | nil => rfl
  | cons base bases ih =>
    rw [List.map_cons, splice, base.date_eq, Sweep.sweep]
    by_cases hin : base.date ∈ dates
    · simp only [bind, Option.bind, if_pos hin, seek_eq]
      cases hrest : days.dropWhile (·.date ≠ base.date) with
      | nil => simpa using ih []
      | cons day rest =>
        have hih := ih (day :: rest)
        rw [List.map_cons] at hih
        simp [hih]
    · simp only [bind, Option.bind, if_neg hin, ih, Functor.map, Option.map, List.map_cons]

/-- What `addResult` makes of day lists. -/
theorem addResult_spec {bases : List Day} (hne : bases ≠ []) (days : List Day)
    (dates : Finset String) :
    ∃ resp, ∃ out : List Day, addResult (arr (bases.map Day.json)) (arr (days.map Day.json)) dates =
        some resp ∧ resp.items = some (out.map Day.json) ∧
      List.Forall₂ SameDay (Sweep.sweep Day.date (· ∈ dates) bases days) out := by
  have hsize : (arr (bases.map Day.json)).size ≠ 0 := by
    rw [size, List.length_map]
    exact fun h => hne (List.eq_nil_of_length_eq_zero h)
  rw [addResult, if_pos hsize]
  simp only [items, bind, Option.bind, splice_eq]
  cases hsweep : Sweep.sweep Day.date (· ∈ dates) bases days with
  | nil => exact ⟨.null, [], rfl, rfl, .nil⟩
  | cons day rest =>
    cases rest with
    | nil => exact ⟨_, [day], rfl, rfl, .cons (.refl _) .nil⟩
    | cons day' rest =>
      obtain ⟨out, hnights, hout⟩ := fixNights_spec day (day' :: rest)
      refine ⟨arr (out.map Day.json), out, ?_, rfl, hout⟩
      rw [List.map_cons]
      simp only [pure, size, List.length_cons, List.length_map, Functor.map, Option.map]
      rw [if_pos (by omega), hnights]

/-- Each day whose date is in `dates` is replaced, if there is a day for it. -/
def Merges (bases days : List Day) (dates : Finset String) : Prop :=
  ∃ resp, ∃ out : List Day, addResult (arr (bases.map Day.json)) (arr (days.map Day.json)) dates =
      some resp ∧ resp.items = some (out.map Day.json) ∧
    List.Forall₂ SameDay (Sweep.merge Day.date (· ∈ dates) bases days) out

theorem merges_iff {bases days : List Day} {dates : Finset String} (hne : bases ≠ [])
    (horder : Sweep.SameOrder Day.date bases days) :
    Merges bases days dates ↔ Sweep.NoGap Day.date (· ∈ dates) bases days := by
  obtain ⟨resp, out, hcall, hitems, hout⟩ := addResult_spec hne days dates
  constructor
  · rintro ⟨resp', out', hcall', hitems', hout'⟩
    by_contra hgap
    have hlt := Sweep.length_sweep_lt (List.Sublist.refl days) hgap
    obtain rfl : resp' = resp := Option.some.inj (hcall'.symm.trans hcall)
    have hlen := congrArg List.length (Option.some.inj (hitems'.symm.trans hitems))
    rw [List.length_map, List.length_map, ← hout'.length_eq, ← hout.length_eq] at hlen
    omega
  · intro hgap
    exact ⟨resp, out, hcall, hitems, Sweep.sweep_eq_merge horder hgap ▸ hout⟩

/-- A day with one view. -/
def stopDay (date : String) : Day where
  json := obj [("date", str date), ("view", arr [obj [("etime", str ""), ("stime", str "")]])]
  date := date
  views := [obj [("etime", str ""), ("stime", str "")]]
  isObject := rfl
  date_eq := rfl
  view_eq := rfl
  isView := by
    intro v hv
    rw [List.mem_singleton.mp hv]
    exact ⟨rfl, rfl, rfl⟩

theorem merges_twoDays :
    Merges [stopDay "20180101", stopDay "20180102"] [stopDay "20180102"] {"20180102"} :=
  (merges_iff (by simp) (by simp [Sweep.SameOrder])).mpr (by simp [Sweep.NoGap, stopDay])

/-- The second day is recomputed, the first one is not, and the second day is lost. -/
theorem not_merges_missingDay :
    ¬ Merges [stopDay "20180101", stopDay "20180102"] [stopDay "20180102"]
      {"20180101", "20180102"} := by
  rintro ⟨resp, out, hcall, hitems, hout⟩
  cases hcall
  obtain rfl : out = [] := List.map_eq_nil_iff.mp (Option.some.inj hitems).symm
  simp [Sweep.merge, stopDay] at hout

end PostProcessor

end PPView
