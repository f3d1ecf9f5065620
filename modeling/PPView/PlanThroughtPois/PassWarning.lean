import PPView.PlanThroughtPois.TrafficPass

/-!
# The warning about stops on the way

The loop over the days of the summary ends at a day that has no more members than its index, so
only the days before it are compared with the way.
-/

namespace PPView

namespace Json

variable {j j₁ j₂ v v' : Json} {key : String}

theorem insertMember_insertMember (key : String) (v v' : Json) (members : List (String × Json)) :
    insertMember key v' (insertMember key v members) = insertMember key v' members := by
  induction members with
  | nil => simp [insertMember]
  | cons m members ih =>
    rw [insertMember, insertMember]
    split_ifs with heq hlt
    · simp [insertMember]
    · simp [insertMember]
    · rw [insertMember, if_neg heq, if_neg hlt, ih]

theorem length_insertMember (key : String) (v v' : Json) (members : List (String × Json)) :
    (insertMember key v members).length = (insertMember key v' members).length := by
  induction members with
  | nil => rfl
  | cons m members ih =>
    rw [insertMember, insertMember]
    split_ifs with heq hlt
    · rfl
    · rfl
    · rw [List.length_cons, List.length_cons, ih]

/-- A member that is set keeps the number of members. -/
theorem size_put_put (h : j.put key v = some j₁) (h' : j₁.put key v' = some j₂) :
    j₂.size = j₁.size := by
  cases j with
  | obj members =>
    obtain rfl := Option.some.inj h
    obtain rfl := Option.some.inj h'
    rw [size, size, insertMember_insertMember, length_insertMember key v' v]
  | null =>
    obtain rfl := Option.some.inj h
    obtain rfl := Option.some.inj h'
    simp [size, insertMember]
  | _ => cases h

theorem items_append (h : j.append v = some j') :
    ∃ items, j.items = some items ∧ j'.items = some (items ++ [v]) := by
  cases j with
  | arr items =>
    obtain rfl := Option.some.inj h
    refine ⟨items, rfl, congrArg some ?_⟩
    simp [size, List.rightpad]
  | null =>
    obtain rfl := Option.some.inj h
    exact ⟨[], rfl, rfl⟩
  | _ => cases h

end Json

namespace PlanThroughtPois

open Json

variable {w : PassWorld} {c : PassCall} {j j' : Json}

/-! ## Points -/

/-- The `pdur` of a list of points. -/
def pointDurs : Json → Option (List Int)
  | .arr pois => some (pois.map poiDur)
  | _ => none

theorem dayDur_eq (day : Json) : dayDur day = ((pointDurs (day.get "pois")).getD []).sum := by
  rw [dayDur]
  cases day.get "pois" <;> rfl

structure SamePoints (jPois jPois' : Json) : Prop where
  size_eq : jPois'.size = jPois.size
  durs_eq : pointDurs jPois' = pointDurs jPois

theorem SamePoints.trans {a b d : Json} (h : SamePoints a b) (h' : SamePoints b d) :
    SamePoints a d :=
  ⟨h'.size_eq.trans h.size_eq, h'.durs_eq.trans h.durs_eq⟩

theorem samePoints_putItem {i : ℕ} {jPois poi poi' jPois' : Json} (hi : i < jPois.size)
    (hitem : jPois.item i = some poi) (hpoi : poiDur poi' = poiDur poi)
    (h : jPois.putItem i poi' = some jPois') : SamePoints jPois jPois' := by
  cases jPois with
  | arr pois =>
    rw [size] at hi
    rw [item, List.getD_eq_getElem _ _ hi] at hitem
    obtain rfl := Option.some.inj hitem
    have hpad : pois.rightpad (i + 1) null = pois := rightpad_of_le _ hi
    obtain rfl := Option.some.inj h
    refine ⟨by rw [hpad, size, size, List.length_set], ?_⟩
    rw [hpad, pointDurs, pointDurs, List.map_set, hpoi]
    congr 1
    have hset := List.set_getElem_self (show i < (pois.map poiDur).length by simpa using hi)
    rwa [List.getElem_map] at hset
  | null => cases hi
  | _ => cases hitem

theorem passProduct_points {i : ℕ} {jPoi jPois jPoi' jPois' : Json} (hi : i < jPois.size)
    (h : passProduct c i jPoi jPois = some (jPoi', jPois')) : SamePoints jPois jPois' := by
  rw [passProduct] at h
  split at h
  · split_ifs at h with hprod
    · obtain ⟨⟨stime, jPoi₁⟩, -, h⟩ := Option.bind_eq_some_iff.mp h
      obtain ⟨product, -, h⟩ := Option.bind_eq_some_iff.mp h
      obtain ⟨jPoi₂, -, h⟩ := Option.bind_eq_some_iff.mp h
      obtain ⟨poi, hitem, h⟩ := Option.bind_eq_some_iff.mp h
      split_ifs at h with hmember
      · obtain ⟨poi', hput, h⟩ := Option.bind_eq_some_iff.mp h
        obtain ⟨jPois₁, hputItem, h⟩ := Option.bind_eq_some_iff.mp h
        obtain ⟨-, rfl⟩ : jPoi₂ = jPoi' ∧ jPois₁ = jPois' := by simpa [pure] using h
        refine samePoints_putItem hi hitem ?_ hputItem
        have hpdur : poi'.get "pdur" = poi.get "pdur" := by
          rw [get_put hput, if_neg (by decide)]
        rw [poiDur, poiDur, hpdur]
      · obtain ⟨-, rfl⟩ : jPoi₂ = jPoi' ∧ jPois = jPois' := by simpa [pure] using h
        exact ⟨rfl, rfl⟩
    · obtain ⟨-, rfl⟩ : jPoi = jPoi' ∧ jPois = jPois' := by simpa [pure] using h
      exact ⟨rfl, rfl⟩
  · obtain ⟨-, rfl⟩ : jPoi = jPoi' ∧ jPois = jPois' := by simpa [pure] using h
    exact ⟨rfl, rfl⟩

theorem passPoi_points {time_Zone : Int} {dayStime : Json} {s s' : PassState} {i : ℕ}
    (hi : i < s.jPois.size) (h : passPoi w c time_Zone dayStime s i = some s') :
    SamePoints s.jPois s'.jPois := by
  obtain ⟨item, -, h⟩ := Option.bind_eq_some_iff.mp h
  obtain ⟨⟨dur, jPoi⟩, -, h⟩ := Option.bind_eq_some_iff.mp h
  obtain ⟨⟨custom, jPoi⟩, -, h⟩ := Option.bind_eq_some_iff.mp h
  obtain ⟨jPoi, -, h⟩ := Option.bind_eq_some_iff.mp h
  obtain ⟨⟨stime, jPoi⟩, -, h⟩ := Option.bind_eq_some_iff.mp h
  obtain ⟨jPoi, -, h⟩ := Option.bind_eq_some_iff.mp h
  obtain ⟨⟨jPoi, jPois⟩, hproduct, h⟩ := Option.bind_eq_some_iff.mp h
  obtain ⟨views, -, h⟩ := Option.bind_eq_some_iff.mp h
  obtain rfl := Option.some.inj h
  exact passProduct_points hi hproduct

theorem passPois_points {time_Zone : Int} {dayStime : Json} {l : List ℕ} {s s' : PassState}
    (hl : ∀ i ∈ l, i < s.jPois.size)
    (h : l.foldlM (passPoi w c time_Zone dayStime) s = some s') : SamePoints s.jPois s'.jPois := by
  induction l generalizing s with
  | nil =>
    obtain rfl := Option.some.inj h
    exact ⟨rfl, rfl⟩
  | cons i l ih =>
    rw [List.foldlM_cons] at h
    obtain ⟨s₁, hstep, h⟩ := Option.bind_eq_some_iff.mp h
    have hfirst := passPoi_points (hl i List.mem_cons_self) hstep
    refine hfirst.trans (ih (fun k hk => ?_) h)
    rw [hfirst.size_eq]
    exact hl k (List.mem_cons_of_mem _ hk)

theorem passDay_points {time_Zone : Int} {jDay jPois jDay' jPois' : Json}
    {custom custom' : Option Json}
    (h : passDay w c time_Zone jDay jPois custom = some (jDay', jPois', custom')) :
    SamePoints jPois jPois' := by
  obtain ⟨jDay₁, -, h⟩ := Option.bind_eq_some_iff.mp h
  obtain ⟨⟨stime, jDay₂⟩, -, h⟩ := Option.bind_eq_some_iff.mp h
  obtain ⟨jDay₃, -, h⟩ := Option.bind_eq_some_iff.mp h
  obtain ⟨s, hloop, h⟩ := Option.bind_eq_some_iff.mp h
  obtain ⟨jDay₄, -, h⟩ := Option.bind_eq_some_iff.mp h
  obtain ⟨jDay₅, -, h⟩ := Option.bind_eq_some_iff.mp h
  obtain ⟨-, rfl, -⟩ : jDay₅ = jDay' ∧ s.jPois = jPois' ∧ s.custom = custom' := by
    simpa [pure] using h
  refine passPois_points (fun i hi => ?_) hloop
  exact lt_of_lt_of_le (List.mem_range.mp hi) (min_le_right ..)

/-! ## Days -/

/-- The days of the summary. -/
def summaryDays (jSummary : Json) : List Json :=
  match jSummary.get "days" with
  | .arr days => days
  | _ => []

/-- The first day of the summary has a member `pois` from the loop over the days on. -/
def openDays (jDays jSummary : Json) : List Json :=
  match summaryDays jSummary with
  | [] => []
  | day :: days =>
    (if jDays.size > 0 then (day.touch "pois").getD day else day) :: days

theorem passDurOf_eq (jSummary : Json) :
    passDurOf jSummary = trafficPassDur 0 (summaryDays jSummary) := by
  rw [passDurOf, summaryDays]
  cases jSummary.get "days" <;> rfl

theorem passDays_summary {time_Zone : Int} {jDays jSummary jDays' jSummary' : Json}
    (h : passDays w c time_Zone jDays jSummary = some (jDays', jSummary')) :
    jSummary'.get "warning" = jSummary.get "warning" ∧
      passDurOf jSummary' = trafficPassDur 0 (openDays jDays jSummary) := by
  rw [passDays] at h
  dsimp only at h
  split_ifs at h with hsize
  · obtain ⟨day, hday, h⟩ := Option.bind_eq_some_iff.mp h
    obtain ⟨sday, htouch, h⟩ := Option.bind_eq_some_iff.mp h
    obtain ⟨jDay, -, h⟩ := Option.bind_eq_some_iff.mp h
    obtain ⟨⟨jDay', jPois, custom⟩, hpass, h⟩ := Option.bind_eq_some_iff.mp h
    obtain ⟨sday', hput, h⟩ := Option.bind_eq_some_iff.mp h
    obtain ⟨days', hdays, h⟩ := Option.bind_eq_some_iff.mp h
    obtain ⟨jSummary₁, hput₁, h⟩ := Option.bind_eq_some_iff.mp h
    obtain ⟨jSummary₂, hput₂, h⟩ := Option.bind_eq_some_iff.mp h
    obtain ⟨jDays₁, -, h⟩ := Option.bind_eq_some_iff.mp h
    obtain ⟨-, rfl⟩ : jDays₁ = jDays' ∧ jSummary₂ = jSummary' := by simpa [pure] using h
    -- `customTraffic` is none of the members that are looked at.
    have hget : ∀ key, key ≠ "customTraffic" → jSummary₂.get key = jSummary₁.get key := by
      intro key hkey
      cases custom with
      | none => rw [Option.some.inj hput₂]
      | some jTraffic => rw [get_put hput₂, if_neg hkey]
    have hpoints := passDay_points hpass
    refine ⟨by rw [hget _ (by decide), get_put hput₁, if_neg (by decide)], ?_⟩
    rw [passDurOf, openDays, summaryDays, hget _ (by decide), get_put hput₁, if_pos rfl]
    cases hlist : jSummary.get "days" with
    | arr days =>
      rw [hlist] at hday hdays hsize
      cases days with
      | nil => exact absurd hsize.2 (by simp [size])
      | cons d days =>
        obtain rfl : d = day := Option.some.inj hday
        obtain rfl : arr (sday' :: days) = days' := by simpa [putItem, List.rightpad] using hdays
        have hdur : dayDur sday' = dayDur sday := by
          rw [dayDur_eq, dayDur_eq, get_put hput, if_pos rfl, hpoints.durs_eq]
        dsimp only
        rw [if_pos hsize.1, htouch, Option.getD_some, trafficPassDur, trafficPassDur,
          size_put_put htouch hput, hdur]
    | null => rw [hlist] at hsize; exact absurd hsize.2 (by simp [size])
    | _ => rw [hlist] at hday; cases hday
  · obtain ⟨rfl, rfl⟩ : jDays = jDays' ∧ jSummary = jSummary' := by simpa [pure] using h
    refine ⟨rfl, ?_⟩
    rw [passDurOf_eq, openDays]
    cases hlist : summaryDays jSummary with
    | nil => rfl
    | cons day days =>
      have hpos : (jSummary.get "days").size > 0 := by
        rw [summaryDays] at hlist
        split at hlist
        · next heq => rw [heq, hlist, size]; simp
        · cases hlist
      dsimp only
      rw [if_neg fun hjDays => hsize ⟨hjDays, hpos⟩]

/-- The days that the loop reaches: the ones before the first day without more members than its
index. -/
def countedDays (days : List Json) : List Json :=
  (days.zipIdx.takeWhile fun day => day.2 < day.1.size).map Prod.fst

theorem trafficPassDur_eq (days : List Json) (i : ℕ) :
    trafficPassDur i days = (((days.zipIdx i).takeWhile fun day =>
      day.2 < day.1.size).map fun day => dayDur day.1).sum := by
  induction days generalizing i with
  | nil => rfl
  | cons day days ih =>
    rw [trafficPassDur, List.zipIdx_cons, List.takeWhile_cons]
    by_cases hlt : i < day.size
    · simp [hlt, ih]
    · simp [hlt]

/-- What the points of all days of the summary take. -/
def wholeDur (jTrafficPass : Json) : Int :=
  ((summaryDays (jTrafficPass.get "summary")).map dayDur).sum

/-- What the points of the days take that the loop reaches. -/
def countedDur (jTrafficPass : Json) : Int :=
  ((countedDays (openDays (jTrafficPass.get "day") (jTrafficPass.get "summary"))).map dayDur).sum

/-! ## Warnings -/

def isPassWarning (warning : Json) : Bool := (warning.get "type").asInt = some 8

def warningsOf (jTrafficPass : Json) : List Json :=
  (((jTrafficPass.get "summary").get "warning").items).getD []

/-- One of the warnings of type 8 is gone, if there is one. -/
structure Removed (ws ws' : List Json) : Prop where
  count : ws'.countP isPassWarning = ws.countP isPassWarning - 1
  others : (ws'.filter (!isPassWarning ·)).map reading = (ws.filter (!isPassWarning ·)).map reading

theorem removeFirst_removed {ws ws' : List Json} (h : removeFirst ws = some ws') :
    Removed ws ws' := by
  induction ws generalizing ws' with
  | nil =>
    obtain rfl := Option.some.inj h
    exact ⟨rfl, rfl⟩
  | cons warning ws ih =>
    obtain ⟨⟨type, warning'⟩, hread, h⟩ := Option.bind_eq_some_iff.mp h
    obtain ⟨htype, hreading⟩ := readInt_eq_some hread
    dsimp only at h
    split_ifs at h with height
    · obtain rfl := Option.some.inj h
      have hthis : isPassWarning warning = true := by simp [isPassWarning, htype, height]
      exact ⟨by simp [hthis], by simp [hthis]⟩
    · obtain ⟨rest, hrest, rfl⟩ := Option.map_eq_some_iff.mp h
      have hthis : isPassWarning warning = false := by simp [isPassWarning, htype, height]
      have hthis' : isPassWarning warning' = false := by
        rw [← hthis, isPassWarning, isPassWarning, get_of_reading hreading]
      have hrest := ih hrest
      exact ⟨by simp [hthis, hthis', hrest.count], by simp [hthis, hthis', hrest.others, hreading]⟩

theorem removeWarning_removed {jWarnings jWarnings' : Json}
    (h : removeWarning jWarnings = some jWarnings') :
    Removed (jWarnings.items.getD []) (jWarnings'.items.getD []) := by
  rw [removeWarning] at h
  split_ifs at h with hsize
  · obtain rfl := Option.some.inj h
    have hnil : jWarnings.items.getD [] = [] := by
      cases hitems : jWarnings.items with
      | none => rfl
      | some items =>
        rw [size_eq_length hitems] at hsize
        rw [Option.getD_some, List.eq_nil_of_length_eq_zero hsize]
    rw [hnil]
    exact ⟨rfl, rfl⟩
  · obtain ⟨ws, hitems, h⟩ := Option.bind_eq_some_iff.mp h
    obtain ⟨ws', hremove, h⟩ := Option.bind_eq_some_iff.mp h
    obtain rfl := Option.some.inj h
    rw [hitems]
    exact removeFirst_removed hremove

/-- The stops take longer than the way. -/
def Exceeds (c : PassCall) (dur : Int) : Prop := 0 < c.trafficDur ∧ c.trafficDur < dur

instance (c : PassCall) (dur : Int) : Decidable (Exceeds c dur) :=
  inferInstanceAs (Decidable (_ ∧ _))

theorem isPassWarning_durWarning (fromName toName : Option String) (passDur trafficDur : Int) :
    isPassWarning (durWarning fromName toName passDur trafficDur) = true :=
  show decide ((Json.int 8).asInt = some 8) = true by decide +kernel

/-- The warnings after the call: the old one is gone, and the new one is there if it has to be. -/
theorem editWarnings_spec {passDur : Int} {jWarnings jWarnings' : Json}
    (h : editWarnings w c passDur jWarnings j = some (jWarnings', j')) :
    ∃ ws, Removed (jWarnings.items.getD []) ws ∧
      ((¬ Exceeds c passDur ∧ jWarnings'.items.getD [] = ws) ∨
        Exceeds c passDur ∧ ∃ warning, isPassWarning warning = true ∧
          jWarnings'.items.getD [] = ws ++ [warning]) := by
  rw [editWarnings] at h
  split_ifs at h with hdur
  · obtain ⟨⟨fromID, j₁⟩, -, h⟩ := Option.bind_eq_some_iff.mp h
    obtain ⟨⟨toID, j₂⟩, -, h⟩ := Option.bind_eq_some_iff.mp h
    obtain ⟨removed, hremoved, h⟩ := Option.bind_eq_some_iff.mp h
    obtain ⟨appended, happend, h⟩ := Option.bind_eq_some_iff.mp h
    obtain ⟨rfl, -⟩ : appended = jWarnings' ∧ j₂ = j' := by simpa [pure] using h
    obtain ⟨items, hitems, hitems'⟩ := items_append happend
    refine ⟨items, ?_, .inr ⟨⟨hdur.2.1, hdur.2.2⟩, _, ?_, congrArg (Option.getD · []) hitems'⟩⟩
    · have hspec := removeWarning_removed hremoved
      rwa [hitems] at hspec
    · exact isPassWarning_durWarning _ _ _ _
  · obtain ⟨removed, hremoved, h⟩ := Option.bind_eq_some_iff.mp h
    obtain ⟨rfl, -⟩ : removed = jWarnings' ∧ j = j' := by simpa [pure] using h
    refine ⟨_, removeWarning_removed hremoved, .inl ⟨fun hexceeds => hdur ?_, rfl⟩⟩
    obtain ⟨hpos, hlt⟩ := hexceeds
    exact ⟨by omega, hpos, hlt⟩

/-- The call as a whole: an unknown city leaves everything, otherwise the warning depends on the
days that the loop reaches. -/
theorem handleTrafficPass_warnings {ret : Int} (h : handleTrafficPass w c j = some (ret, j')) :
    (passZone w j = none ∧ warningsOf j' = warningsOf j) ∨
      passZone w j ≠ none ∧ ∃ ws, Removed (warningsOf j) ws ∧
        ((¬ Exceeds c (countedDur j) ∧ warningsOf j' = ws) ∨
          Exceeds c (countedDur j) ∧ ∃ warning, isPassWarning warning = true ∧
            warningsOf j' = ws ++ [warning]) := by
  rw [handleTrafficPass] at h
  cases hzone : passZone w j with
  | none =>
    rw [hzone] at h
    obtain ⟨-, rfl⟩ : 1 = ret ∧ j = j' := by simpa using h
    exact .inl ⟨rfl, rfl⟩
  | some time_Zone =>
    rw [hzone] at h
    obtain ⟨j₁, hday, h⟩ := Option.bind_eq_some_iff.mp h
    obtain ⟨j₂, hsummary, h⟩ := Option.bind_eq_some_iff.mp h
    obtain ⟨jSummary, hdays, h⟩ := Option.bind_eq_some_iff.mp h
    obtain ⟨⟨jDays', jSummary₁⟩, hpass, h⟩ := Option.bind_eq_some_iff.mp h
    obtain ⟨j₃, -, h⟩ := Option.bind_eq_some_iff.mp h
    obtain ⟨jSummary₂, htouch, h⟩ := Option.bind_eq_some_iff.mp h
    obtain ⟨⟨jWarnings, j₄⟩, hedit, h⟩ := Option.bind_eq_some_iff.mp h
    obtain ⟨jSummary₃, hput, h⟩ := Option.bind_eq_some_iff.mp h
    obtain ⟨j₅, hput', h⟩ := Option.bind_eq_some_iff.mp h
    obtain ⟨-, rfl⟩ : 0 = ret ∧ j₅ = j' := by simpa [pure] using h
    obtain ⟨hwarning, hdur⟩ := passDays_summary hpass
    have hget : ∀ key, jSummary.get key = (j.get "summary").get key := fun key => by
      rw [get_touch hdays, get_touch hsummary, get_touch hday]
    have hopen : openDays (j₂.get "day") jSummary = openDays (j.get "day") (j.get "summary") := by
      rw [openDays, openDays, summaryDays, summaryDays, hget, get_touch hsummary, get_touch hday]
    have hcounted : passDurOf jSummary₂ = countedDur j := by
      rw [passDurOf, get_touch htouch, ← passDurOf, hdur, hopen, trafficPassDur_eq, countedDur,
        countedDays, List.map_map]
      rfl
    have hbefore : (jSummary₂.get "warning").items.getD [] = warningsOf j := by
      rw [get_touch htouch, hwarning, hget]
      rfl
    have hafter : warningsOf j₅ = jWarnings.items.getD [] := by
      rw [warningsOf, get_put hput', if_pos rfl, get_put hput, if_pos rfl]
    have hspec := editWarnings_spec hedit
    rw [hcounted, hbefore, ← hafter] at hspec
    exact .inr ⟨by simp, hspec⟩

/-! ## The result -/

/-- The warning is there exactly if the stops take longer than the way, at most once if it was there
at most once, and the other warnings read as before. -/
structure WarnsRightly (c : PassCall) (j j' : Json) : Prop where
  present : (∃ warning ∈ warningsOf j', isPassWarning warning) ↔ Exceeds c (wholeDur j)
  single : (warningsOf j).countP isPassWarning ≤ 1 → (warningsOf j').countP isPassWarning ≤ 1
  others : ((warningsOf j').filter (!isPassWarning ·)).map reading =
    ((warningsOf j).filter (!isPassWarning ·)).map reading

/-- Whether a warning is there after the call. -/
def Warned (w : PassWorld) (c : PassCall) (j : Json) : Prop :=
  if passZone w j = none then 0 < (warningsOf j).countP isPassWarning
  else Exceeds c (countedDur j) ∨ 2 ≤ (warningsOf j).countP isPassWarning

instance (w : PassWorld) (c : PassCall) (j : Json) : Decidable (Warned w c j) :=
  inferInstanceAs (Decidable (if passZone w j = none then _ else _))

theorem handleTrafficPass_warned {ret : Int} (h : handleTrafficPass w c j = some (ret, j')) :
    ((∃ warning ∈ warningsOf j', isPassWarning warning) ↔ Warned w c j) ∧
      ((warningsOf j).countP isPassWarning ≤ 1 → (warningsOf j').countP isPassWarning ≤ 1) ∧
      ((warningsOf j').filter (!isPassWarning ·)).map reading =
        ((warningsOf j).filter (!isPassWarning ·)).map reading := by
  rw [← List.countP_pos_iff, Warned]
  rcases handleTrafficPass_warnings h with ⟨hzone, heq⟩ | ⟨hzone, ws, hremoved, hspec⟩
  · rw [heq, if_pos hzone]
    exact ⟨.rfl, id, rfl⟩
  · rw [if_neg hzone]
    have hcount := hremoved.count
    rcases hspec with ⟨hnot, heq⟩ | ⟨hexceeds, warning, hthis, heq⟩
    · rw [heq]
      refine ⟨⟨fun hpos => .inr (by omega), ?_⟩, by omega, hremoved.others⟩
      rintro (hexceeds | htwo)
      · exact absurd hexceeds hnot
      · omega
    · rw [heq, List.countP_append, List.filter_append]
      refine ⟨iff_of_true (by simp [hthis]) (.inl hexceeds), ?_, ?_⟩
      · rw [List.countP_singleton, if_pos hthis]
        omega
      · simpa [hthis] using hremoved.others

/-- The warnings are right exactly if the days that the loop reaches warn as all days do: for a
known city there is no second old warning to be left over, for an unknown one the old warning was
right. -/
theorem handleTrafficPass_warnsRightly_iff {ret : Int}
    (h : handleTrafficPass w c j = some (ret, j')) :
    WarnsRightly c j j' ↔ (Warned w c j ↔ Exceeds c (wholeDur j)) := by
  obtain ⟨hpresent, hsingle, hothers⟩ := handleTrafficPass_warned h
  rw [← hpresent]
  exact ⟨fun hright => hright.present, fun hiff => ⟨hiff, hsingle, hothers⟩⟩

/-! ## Ways -/

/-- A day of the summary with one point. -/
def oneStop (date : String) (pdur : Int) : Json :=
  .obj [("date", .str date), ("pois", .arr [.obj [("pdur", .int pdur)]])]

def wayWith (days warnings : List Json) : Json :=
  .obj [("summary", .obj [("days", .arr days), ("warning", .arr warnings)])]

def quietWorld : PassWorld where
  cityZone _ := none
  placeName _ := none
  toTime _ _ := 0
  toString _ _ := ""

def callFor (trafficDur : Int) : PassCall := ⟨"", trafficDur, .null, .null⟩

/-- A way with two days. -/
def shortWay : Json := wayWith [oneStop "20180101" 3600, oneStop "20180102" 3600] []

/-- A way with a long stop on its third day. Each day has two members. -/
def longWay : Json :=
  wayWith [oneStop "20180101" 600, oneStop "20180102" 600, oneStop "20180103" 7200] []

theorem warnsRightly_shortWay :
    ∃ ret j', handleTrafficPass quietWorld (callFor 5400) shortWay = some (ret, j') ∧
      WarnsRightly (callFor 5400) shortWay j' := by
  obtain ⟨⟨ret, j'⟩, hcall⟩ := Option.isSome_iff_exists.mp
    (show (handleTrafficPass quietWorld (callFor 5400) shortWay).isSome by decide +kernel)
  exact ⟨ret, j', hcall, (handleTrafficPass_warnsRightly_iff hcall).mpr (by decide +kernel)⟩

/-- The stop on the third day is not counted. -/
theorem not_warnsRightly_longWay :
    ∃ ret j', handleTrafficPass quietWorld (callFor 5400) longWay = some (ret, j') ∧
      ¬ WarnsRightly (callFor 5400) longWay j' := by
  obtain ⟨⟨ret, j'⟩, hcall⟩ := Option.isSome_iff_exists.mp
    (show (handleTrafficPass quietWorld (callFor 5400) longWay).isSome by decide +kernel)
  refine ⟨ret, j', hcall, fun hright => ?_⟩
  have hwarned := (handleTrafficPass_warned hcall).1.mp (hright.present.mpr (by decide +kernel))
  exact absurd hwarned (by decide +kernel)

end PlanThroughtPois

end PPView
