import PPView.Plan.Durations

/-!
# The order of the durations of a place

The zipped and the extended duration are kept between the least and the greatest one, the
recommended duration is scaled without regard to them.
-/

namespace PPView

def DurS.Ordered (d : DurS) : Prop :=
  d.min ≤ d.zip ∧ d.zip ≤ d.rcmd ∧ d.rcmd ≤ d.extend ∧ d.extend ≤ d.max

instance (d : DurS) : Decidable d.Ordered := inferInstanceAs (Decidable (_ ∧ _))

namespace DurPlan

/-- What the least and the greatest half hours are that the scaled duration may be nearest to. -/
def lowerEnd (minDur : Int) : ℚ := ((minDur + 1799) / 1800 * 1800 - 900 : Int)

def upperEnd (maxDur : Int) : ℚ := (maxDur / 1800 * 1800 + 900 : Int)

def zippedDur (scalePrefer : ℚ) (dur : Int) : ℚ := toDouble (dur * scalePrefer)

def stretchedDur (scalePrefer : ℚ) (dur : Int) : ℚ :=
  toDouble (dur * toDouble (scalePrefer + toDouble (1 / 100)))

/-- The scaled duration, to the nearest half hour, stays between `minDur` and `maxDur`. A theme
park has its recommended duration as the least one. What does not fit an `int` is below all. -/
def ScaledWithin (scalePrefer : ℚ) (dur minDur maxDur : Int) (park : Bool) : Prop :=
  (scalePrefer < toDouble (9 / 10) → 1800 < dur → dur < 28800 →
    (park ∨ minDur ≤ 900 ∨ lowerEnd minDur ≤ zippedDur scalePrefer dur) ∧
    zippedDur scalePrefer dur < upperEnd maxDur) ∧
  (toDouble (11 / 10) < scalePrefer → dur ≤ 21600 →
    (park ∨ stretchedDur scalePrefer dur < 2 ^ 31 ∧
      lowerEnd minDur ≤ stretchedDur scalePrefer dur) ∧
    (28800 ≤ maxDur ∨ 2 ^ 31 ≤ stretchedDur scalePrefer dur ∨
      stretchedDur scalePrefer dur < upperEnd maxDur))

/-- By what the recommended duration is multiplied for the extended one. -/
def extendFactor (place : VarPlace) : ℚ :=
  if place.ranking ≤ 3 then 19 / 10
  else if place.hotRank < toDouble (1 / 10) then 16 / 10
  else if place.hotRank < toDouble (3 / 10) then 15 / 10
  else 1

/-- The extended duration fits an `int`. -/
def ExtendFits (place : VarPlace) (dur : Int) : Prop :=
  toDouble (dur * toDouble (extendFactor place)) < 2 ^ 31

/-- Stored durations are ordered, and intensities leave room for the scaled one. -/
def DursFit (plan : DurPlan) (place : VarPlace) : Prop :=
  (∀ durS, plan.durSMap.lookup place.ID = some durS → durS.Ordered) ∧
  (plan.durSMap.lookup place.ID = none → plan.userDurMap.lookup place.ID = none →
    plan.vPlaceOpenMap.lookup place.ID = none → place.t &&& LY_PLACE_TYPE_RESTAURANT = 0 →
    place.t &&& LY_PLACE_TYPE_VAR_PLACE ≠ 0 →
    ∀ rcmd ∈ place.rcmdIntensity, ∀ front ∈ place.intensityList.head?,
      ∀ back ∈ place.intensityList.getLast?,
        ScaledWithin plan.scalePrefer rcmd.dur front.dur back.dur (place.isPark plan.tagpark) ∧
          (place.isPark plan.tagpark ∨ ExtendFits place rcmd.dur))

/-! ## Rounding -/

variable {x s : ℚ} {n m M dur : Int} {park : Bool}

theorem toDouble_mono : Monotone toDouble := Rounding.mono _

theorem toDouble_nonneg (h : 0 ≤ x) : 0 ≤ toDouble x := Rounding.round_nonneg _ h

theorem toDouble_intCast (h : |n| < 2 ^ 53) : toDouble n = n := Binary.round_intCast h

/-- An upper bound that is a `double` is one of the rounded number. -/
theorem toDouble_le (h : x ≤ n) (hn : |n| < 2 ^ 53) : toDouble x ≤ n :=
  (toDouble_mono h).trans (toDouble_intCast hn).le

theorem le_toDouble (h : (n : ℚ) ≤ x) (hn : |n| < 2 ^ 53) : (n : ℚ) ≤ toDouble x :=
  (toDouble_intCast hn).ge.trans (toDouble_mono h)

theorem toInt_of_nonneg (h : 0 ≤ x) (hlt : x < 2 ^ 31) : toInt x = ⌊x⌋ := by
  have hnonneg := Int.floor_nonneg.mpr h
  have hbound : ⌊x⌋ < 2 ^ 31 := Int.floor_lt.mpr (by exact_mod_cast hlt)
  rw [toInt, if_neg (not_lt.mpr h), if_pos ⟨by omega, hbound⟩]

theorem toInt_of_ge (h : 2 ^ 31 ≤ x) : toInt x = -2 ^ 31 := by
  have hbound : 2 ^ 31 ≤ ⌊x⌋ := Int.le_floor.mpr (by exact_mod_cast h)
  have hneg : ¬ x < 0 := by
    intro hx
    norm_num at h
    linarith
  rw [toInt, if_neg hneg]
  exact if_neg (by omega)

theorem toHalfHours_of_nonneg (h : 0 ≤ n) : toHalfHours n = (n + 900) / 1800 * 1800 := by
  rw [toHalfHours, Int.tdiv_eq_ediv_of_nonneg h, Int.tmod_eq_emod_of_nonneg h]
  split_ifs <;> omega

theorem toHalfHours_toInt (h : 0 ≤ x) (hlt : x < 2 ^ 31) :
    toHalfHours (toInt x) = (⌊x⌋ + 900) / 1800 * 1800 := by
  rw [toInt_of_nonneg h hlt, toHalfHours_of_nonneg (Int.floor_nonneg.mpr h)]

theorem le_toHalfHours_iff (h : 0 ≤ x) (hlt : x < 2 ^ 31) :
    m ≤ toHalfHours (toInt x) ↔ lowerEnd m ≤ x := by
  rw [toHalfHours_toInt h hlt, lowerEnd, ← Int.le_floor]
  omega

theorem toHalfHours_le_iff (h : 0 ≤ x) (hlt : x < 2 ^ 31) :
    toHalfHours (toInt x) ≤ M ↔ x < upperEnd M := by
  rw [toHalfHours_toInt h hlt, upperEnd, ← Int.floor_lt]
  omega

/-! ### Scaled durations -/

theorem zippedDur_bounds (hlow : s < toDouble (9 / 10)) (hs : 0 < s) (hdur : 0 ≤ dur)
    (hunder : dur < 28800) : 0 ≤ zippedDur s dur ∧ zippedDur s dur ≤ 28800 := by
  have hcast : (0 : ℚ) ≤ dur := by exact_mod_cast hdur
  have hone : s ≤ 1 := hlow.le.trans (Rounding.round_le_one _ (by norm_num))
  refine ⟨toDouble_nonneg (by positivity), ?_⟩
  have hle : dur * s ≤ ((28800 : Int) : ℚ) :=
    (mul_le_of_le_one_right hcast hone).trans (by exact_mod_cast hunder.le)
  exact_mod_cast toDouble_le hle (by norm_num)

theorem stretchedDur_nonneg (hs : 0 < s) (hdur : 0 ≤ dur) : 0 ≤ stretchedDur s dur := by
  have hcast : (0 : ℚ) ≤ dur := by exact_mod_cast hdur
  have hpart : 0 ≤ toDouble (1 / 100) := toDouble_nonneg (by norm_num)
  have hfactor : 0 ≤ toDouble (s + toDouble (1 / 100)) := toDouble_nonneg (by positivity)
  exact toDouble_nonneg (by positivity)

theorem nine_tenths_le : toDouble (9 / 10) ≤ toDouble (11 / 10) := toDouble_mono (by norm_num)

theorem scaleDur_of_lt (hlow : s < toDouble (9 / 10)) : scaleDur s dur =
    if dur > 1800 ∧ dur < 3600 * 8 then
      if toHalfHours (toInt (zippedDur s dur)) ≤ 0 then 900
      else toHalfHours (toInt (zippedDur s dur))
    else dur := by
  rw [scaleDur, if_pos hlow]
  rfl

theorem scaleDur_of_gt (hhigh : toDouble (11 / 10) < s) : scaleDur s dur =
    if dur ≤ 3600 * 6 then
      if toHalfHours (toInt (stretchedDur s dur)) > 3600 * 8 then 3600 * 8
      else toHalfHours (toInt (stretchedDur s dur))
    else dur := by
  rw [scaleDur, if_neg (not_lt.mpr (nine_tenths_le.trans hhigh.le)), if_pos hhigh]
  rfl

/-- Compressed durations. -/
theorem zipped_between_iff (hlow : s < toDouble (9 / 10)) (hs : 0 < s) (hm : 0 ≤ m)
    (hmin : m ≤ dur) (hmax : dur ≤ M) :
    ((park ∨ m ≤ scaleDur s dur) ∧ scaleDur s dur ≤ M) ↔ ScaledWithin s dur m M park := by
  have hnot : ¬ toDouble (11 / 10) < s := not_lt.mpr (hlow.le.trans nine_tenths_le)
  rw [scaleDur_of_lt hlow, ScaledWithin]
  by_cases hrange : dur > 1800 ∧ dur < 3600 * 8
  · have hover : 1800 < dur := hrange.1
    have hunder : dur < 28800 := hrange.2
    obtain ⟨hx, hle⟩ := zippedDur_bounds hlow hs (hm.trans hmin) hunder
    have hlt : zippedDur s dur < 2 ^ 31 := hle.trans_lt (by norm_num)
    have hhalf := toHalfHours_toInt hx hlt
    have hfloor := Int.floor_nonneg.mpr hx
    rw [← le_toHalfHours_iff (m := m) hx hlt, ← toHalfHours_le_iff (M := M) hx hlt, if_pos hrange]
    generalize toHalfHours (toInt (zippedDur s dur)) = q at hhalf
    simp only [hlow, hnot, hover, hunder, forall_const, false_imp_iff, and_true]
    split_ifs <;> cases park <;> simp <;> omega
  · rw [if_neg hrange]
    exact iff_of_true ⟨.inr hmin, hmax⟩
      ⟨fun _ hover hunder => absurd ⟨hover, hunder⟩ hrange, fun h => absurd h hnot⟩

/-- Stretched durations. -/
theorem extended_between_iff (hhigh : toDouble (11 / 10) < s) (hs : 0 < s) (hm : 0 ≤ m)
    (hmin : m ≤ dur) (hmax : dur ≤ M) :
    ((park ∨ m ≤ scaleDur s dur) ∧ scaleDur s dur ≤ M) ↔ ScaledWithin s dur m M park := by
  have hnot : ¬ s < toDouble (9 / 10) := not_lt.mpr (nine_tenths_le.trans hhigh.le)
  rw [scaleDur_of_gt hhigh, ScaledWithin]
  by_cases hrange : dur ≤ 3600 * 6
  · have hunder : dur ≤ 21600 := hrange
    have hx := stretchedDur_nonneg hs (hm.trans hmin)
    rw [if_pos hrange]
    simp only [hhigh, hnot, hunder, forall_const, false_imp_iff, true_and]
    by_cases hlt : stretchedDur s dur < 2 ^ 31
    · have hge : ¬ 2 ^ 31 ≤ stretchedDur s dur := not_le.mpr hlt
      rw [← le_toHalfHours_iff (m := m) hx hlt, ← toHalfHours_le_iff (M := M) hx hlt]
      generalize toHalfHours (toInt (stretchedDur s dur)) = q
      simp only [hlt, hge, true_and, false_or]
      split_ifs <;> cases park <;> simp <;> omega
    · have hge : 2 ^ 31 ≤ stretchedDur s dur := not_lt.mp hlt
      have hhalf : toHalfHours (-2 ^ 31) = -2147482800 := by decide
      rw [toInt_of_ge hge, hhalf]
      simp only [hlt, hge, false_and, true_or, or_true, and_true]
      cases park <;> simp <;> omega
  · rw [if_neg hrange]
    exact iff_of_true ⟨.inr hmin, hmax⟩ ⟨fun h => absurd h hnot, fun _ h => absurd h hrange⟩

/-- The scaled duration is between the bounds that the one before is between. -/
theorem scaleDur_between_iff (hs : 0 < s) (hm : 0 ≤ m) (hmin : m ≤ dur) (hmax : dur ≤ M) :
    ((park ∨ m ≤ scaleDur s dur) ∧ scaleDur s dur ≤ M) ↔ ScaledWithin s dur m M park := by
  by_cases hlow : s < toDouble (9 / 10)
  · exact zipped_between_iff hlow hs hm hmin hmax
  by_cases hhigh : toDouble (11 / 10) < s
  · exact extended_between_iff hhigh hs hm hmin hmax
  · rw [scaleDur, if_neg hlow, if_neg hhigh]
    simp [ScaledWithin, hlow, hhigh, hmin, hmax]

/-- Only durations of a day's visit are scaled, and to such. -/
theorem scaleDur_eq_or (hs : 0 < s) (hdur : 0 ≤ dur) :
    scaleDur s dur = dur ∨ dur ≤ 28800 ∧ scaleDur s dur ≤ 28800 := by
  by_cases hlow : s < toDouble (9 / 10)
  · rw [scaleDur_of_lt hlow]
    split_ifs with hrange
    · exact .inr ⟨by omega, by omega⟩
    · obtain ⟨hx, hle⟩ := zippedDur_bounds hlow hs hdur hrange.2
      have hhalf := toHalfHours_toInt hx (hle.trans_lt (by norm_num))
      have hfloor : ⌊zippedDur s dur⌋ < 28801 := Int.floor_lt.mpr (by push_cast; linarith)
      exact .inr ⟨by omega, by omega⟩
    · exact .inl rfl
  by_cases hhigh : toDouble (11 / 10) < s
  · rw [scaleDur_of_gt hhigh]
    split_ifs with hrange
    · exact .inr ⟨by omega, by omega⟩
    · exact .inr ⟨by omega, by omega⟩
    · exact .inl rfl
  · rw [scaleDur, if_neg hlow, if_neg hhigh]
    exact .inl rfl

/-! ## The order -/

theorem mulDur_le {c : ℚ} (hn : 0 ≤ n) (hbound : n < 2 ^ 31) (hc : 0 ≤ c) (hone : c ≤ 1) :
    mulDur n c ≤ n := by
  have hcast : (0 : ℚ) ≤ n := by exact_mod_cast hn
  have hfactor : 0 ≤ toDouble c := toDouble_nonneg hc
  have hle : toDouble (n * toDouble c) ≤ n :=
    toDouble_le (mul_le_of_le_one_right hcast (Rounding.round_le_one _ hone)) (by
      rw [abs_of_nonneg hn]
      omega)
  have hlt : (n : ℚ) < 2 ^ 31 := by exact_mod_cast hbound
  rw [mulDur, toInt_of_nonneg (toDouble_nonneg (by positivity)) (hle.trans_lt hlt)]
  exact_mod_cast (Int.floor_le _).trans hle

theorem le_mulDur_iff {c : ℚ} (hn : 0 ≤ n) (hbound : n < 2 ^ 31) (hone : 1 ≤ c) :
    n ≤ mulDur n c ↔ toDouble (n * toDouble c) < 2 ^ 31 := by
  have hcast : (0 : ℚ) ≤ n := by exact_mod_cast hn
  have hle : (n : ℚ) ≤ toDouble (n * toDouble c) :=
    le_toDouble (le_mul_of_one_le_right hcast (Rounding.one_le_round _ hone)) (by
      rw [abs_of_nonneg hn]
      omega)
  rw [mulDur]
  constructor
  · intro h
    by_contra hge
    rw [toInt_of_ge (not_lt.mp hge)] at h
    omega
  · intro hlt
    rw [toInt_of_nonneg (hcast.trans hle) hlt]
    exact Int.le_floor.mpr hle

/-- The zipped duration is at most the recommended one or the least one, the extended one at
least the recommended one where it fits. -/
theorem zipExtend_spec (place : VarPlace) (m : Int) (hn : 0 ≤ n) (hbound : n < 2 ^ 31) :
    ((place.zipExtend m n).1 ≤ n ∨ (place.zipExtend m n).1 = m) ∧
      (n ≤ (place.zipExtend m n).2 ↔ ExtendFits place n) := by
  unfold VarPlace.zipExtend ExtendFits extendFactor
  split_ifs
  · exact ⟨.inl (mulDur_le hn hbound (by norm_num) (by norm_num)),
      le_mulDur_iff hn hbound (by norm_num)⟩
  · exact ⟨.inl (mulDur_le hn hbound (by norm_num) (by norm_num)),
      le_mulDur_iff hn hbound (by norm_num)⟩
  · exact ⟨.inl (mulDur_le hn hbound (by norm_num) (by norm_num)),
      le_mulDur_iff hn hbound (by norm_num)⟩
  · exact ⟨.inr rfl, le_mulDur_iff hn hbound le_rfl⟩

theorem durSOf_ordered_iff (place : VarPlace) (tagpark : Str) (hm : 0 ≤ m) (hbound : n < 2 ^ 31) :
    (place.durSOf tagpark m n M).Ordered ↔
      (place.isPark tagpark ∨ m ≤ n ∧ ExtendFits place n) ∧ n ≤ M := by
  rw [VarPlace.durSOf, DurS.Ordered]
  cases place.isPark tagpark with
  | true =>
    simp only [if_true, true_or, true_and]
    omega
  | false =>
    simp only [Bool.false_eq_true, if_false, false_or]
    rcases lt_or_ge n 0 with hneg | hn
    · -- the zipped duration is not negative
      constructor
      · rintro ⟨-, hzip, -⟩
        omega
      · rintro ⟨⟨hle, -⟩, -⟩
        omega
    · obtain ⟨hzip, hextend⟩ := zipExtend_spec place m hn hbound
      rw [← hextend]
      omega

theorem extendFactor_le (place : VarPlace) : extendFactor place ≤ 2 := by
  unfold extendFactor
  split_ifs <;> norm_num

theorem extendFactor_pos (place : VarPlace) : 0 < extendFactor place := by
  unfold extendFactor
  split_ifs <;> norm_num

/-- Whether the extended duration fits does not depend on the preference. -/
theorem extendFits_of_le (place : VarPlace) (hle : dur ≤ 28800) : ExtendFits place dur := by
  have htwo : toDouble (extendFactor place) ≤ 2 := by
    exact_mod_cast toDouble_le (n := 2) (by exact_mod_cast extendFactor_le place) (by norm_num)
  have hfactor : 0 ≤ toDouble (extendFactor place) := toDouble_nonneg (extendFactor_pos place).le
  have hcast : (dur : ℚ) ≤ 28800 := by exact_mod_cast hle
  have hprod : dur * toDouble (extendFactor place) ≤ ((57600 : Int) : ℚ) := by
    push_cast
    nlinarith
  have hround := toDouble_le hprod (by norm_num)
  exact hround.trans_lt (by norm_num)

theorem extendFits_scaleDur_iff (place : VarPlace) (hs : 0 < s) (hdur : 0 ≤ dur) :
    ExtendFits place (scaleDur s dur) ↔ ExtendFits place dur := by
  rcases scaleDur_eq_or hs hdur with heq | ⟨hle, hscaled⟩
  · rw [heq]
  · exact iff_of_true (extendFits_of_le place hscaled) (extendFits_of_le place hle)

theorem scaleDur_lt (hs : 0 < s) (hdur : 0 ≤ dur) (hbound : dur < 2 ^ 31) :
    scaleDur s dur < 2 ^ 31 := by
  rcases scaleDur_eq_or hs hdur with heq | ⟨-, hscaled⟩ <;> omega

theorem toQuarters_mono {a b : Int} (h : a ≤ b) : toQuarters a ≤ toQuarters b := by
  have hquot : a.tdiv 900 ≤ b.tdiv 900 := Int.tdiv_le_tdiv (by decide) h
  unfold toQuarters
  split_ifs <;> omega

/-- The durations are ordered, and `DaysPlan` can set them. -/
structure DursOk (plan : DurPlan) (place : VarPlace) : Prop where
  ordered : (plan.getDurS place).Ordered
  accepted : ∀ nodeJ : NodeJ, ((plan.setPlanDurs place nodeJ).free.bind Free.durs) =
    some ⟨toQuarters (plan.getDurS place).zip, toQuarters (plan.getDurS place).rcmd,
      toQuarters (plan.getDurS place).extend⟩

theorem dursOk_iff_ordered (plan : DurPlan) (place : VarPlace) :
    plan.DursOk place ↔ (plan.getDurS place).Ordered := by
  refine ⟨DursOk.ordered, fun h => ⟨h, fun nodeJ => ?_⟩⟩
  rw [setPlanDurs, NodeJ.setDurs, if_pos ⟨toQuarters_mono h.2.1, toQuarters_mono h.2.2.1⟩]
  rfl

/-- The least and the greatest duration of a sorted list. -/
theorem between_of_mem {front : Intensity} {rest : List Intensity} {rcmd : Intensity}
    (hsorted : (front :: rest).Pairwise (·.dur ≤ ·.dur)) (hmem : rcmd ∈ front :: rest) :
    front.dur ≤ rcmd.dur ∧
      rcmd.dur ≤ ((front :: rest).getLast (List.cons_ne_nil front rest)).dur := by
  constructor
  · rcases List.mem_cons.mp hmem with rfl | hmem
    · exact le_rfl
    · exact (List.pairwise_cons.mp hsorted).1 rcmd hmem
  · have hlast := List.dropLast_append_getLast (List.cons_ne_nil front rest)
    rw [← hlast, List.mem_append, List.mem_singleton] at hmem
    rcases hmem with hmem | hmem
    · rw [← hlast, List.pairwise_append] at hsorted
      exact hsorted.2.2 rcmd hmem _ (List.mem_singleton.mpr rfl)
    · rw [← hmem]

/-- The durations of a place are ordered iff those that are stored are and the intensities leave
room for the scaled duration. -/
theorem dursOk_iff (plan : DurPlan) (place : VarPlace) (hscale : 0 < plan.scalePrefer)
    (hsorted : place.intensityList.Pairwise (·.dur ≤ ·.dur))
    (hmem : ∀ rcmd ∈ place.rcmdIntensity, rcmd ∈ place.intensityList) :
    plan.DursOk place ↔ plan.DursFit place := by
  rw [dursOk_iff_ordered, DursFit, getDurS]
  cases plan.durSMap.lookup place.ID with
  | some durS => simp
  | none =>
    cases plan.userDurMap.lookup place.ID with
    | some userDur => simp [DurS.Ordered]
    | none =>
      cases plan.vPlaceOpenMap.lookup place.ID with
      | some window => simp [DurS.Ordered]
      | none =>
        have hdefault : defaultDurS.Ordered := by decide
        by_cases hrest : place.t &&& LY_PLACE_TYPE_RESTAURANT = 0
        · by_cases hvar : place.t &&& LY_PLACE_TYPE_VAR_PLACE = 0
          · simpa [hrest, hvar] using hdefault
          · cases hlist : place.intensityList with
            | nil => simpa [hrest, hvar] using hdefault
            | cons front rest =>
              cases hrcmd : place.rcmdIntensity with
              | none => simpa [hrest, hvar] using hdefault
              | some rcmd =>
                have hin := hmem rcmd hrcmd
                rw [hlist] at hsorted hin
                obtain ⟨hmin, hmax⟩ := between_of_mem hsorted hin
                have hbetween : _ ↔ ScaledWithin plan.scalePrefer rcmd.dur front.dur _
                    (place.isPark plan.tagpark) :=
                  scaleDur_between_iff hscale front.dur_nonneg hmin hmax
                have hordered := durSOf_ordered_iff place plan.tagpark
                  (M := ((front :: rest).getLast (List.cons_ne_nil front rest)).dur)
                  front.dur_nonneg (scaleDur_lt hscale rcmd.dur_nonneg rcmd.dur_lt)
                rw [extendFits_scaleDur_iff place hscale rcmd.dur_nonneg, or_and_left,
                  and_right_comm, hbetween] at hordered
                simpa [hrest, hvar, List.getLast?_eq_some_getLast] using hordered
        · simp [hrest, DurS.Ordered]

/-- A view with two hours as its only intensity. -/
def hallView : VarPlace :=
  { ID := "hall", t := LY_PLACE_TYPE_VIEW, intensityList := [⟨7200, by decide, by decide⟩],
    rcmdIntensity := some ⟨7200, by decide, by decide⟩ }

theorem dursOk_iff_hallView : ({} : DurPlan).DursOk hallView := by
  refine (dursOk_iff {} hallView (by decide) (by decide) (by decide)).mpr ⟨nofun, ?_⟩
  intro _ _ _ _ _ rcmd hrcmd front hfront back hback
  obtain rfl := Option.some.inj hrcmd
  refine ⟨⟨fun h => ?_, fun h => ?_⟩, .inr (extendFits_of_le _ (by decide))⟩
  · exact absurd h (by decide +kernel)
  · exact absurd h (by decide +kernel)

/-- With short stays preferred it is recommended for less than its only intensity. -/
theorem not_dursOk : ¬ ∀ (plan : DurPlan) (place : VarPlace), 0 < plan.scalePrefer →
    place.intensityList.Pairwise (·.dur ≤ ·.dur) →
    (∀ rcmd ∈ place.rcmdIntensity, rcmd ∈ place.intensityList) → plan.DursOk place := by
  intro hall
  have hok := hall { scalePrefer := toDouble (7 / 10) } hallView (by decide +kernel) (by decide)
    (by decide)
  replace hok := hok.ordered
  have hdurS : ({ scalePrefer := toDouble (7 / 10) } : DurPlan).getDurS hallView =
      ⟨7200, 7200, 5400, 7200, 7200⟩ := by decide +kernel
  rw [hdurS] at hok
  exact absurd hok.2.1 (by decide)

/-- A product that is not the exact one: seven tenths of an hour and a half lack a second. -/
example : mulDur 5400 (7 / 10) = 3779 := by decide +kernel

end DurPlan

end PPView
