import PPView.TimeIR.OpeningRule

/-!
# Date ranges with a day on one side only

`CheckDate` splits a range at its dash and accepts each side with or without a day. `Date_rule`
looks for the first and for the last mark of the whole range.
-/

namespace PPView.TimeIR

open Strings (find rfind split)

inductive DateShape where
  /-- `m月d日` -/
  | date (m d : Num)
  /-- `m月[d日]-m月[d日]` -/
  | range (m : Num) (d : Option Num) (m' : Num) (d' : Option Num)

def renderDay : Option Num → Str
  | none => []
  | some d => d.digits ++ ri

namespace DateShape

def render : DateShape → Str
  | date m d => m.digits ++ (yue ++ (d.digits ++ ri))
  | range m d m' d' =>
    m.digits ++ (yue ++ (renderDay d ++ (45 :: (m'.digits ++ (yue ++ renderDay d')))))

/-- A side without a day begins on the first and ends on the 31st. -/
def toRange : DateShape → DateRange
  | date m d => ⟨m.val * 100 + d.val, m.val * 100 + d.val⟩
  | range m d m' d' => ⟨m.val * 100 + d.elim 1 Num.val, m'.val * 100 + d'.elim 31 Num.val⟩

/-- A day on one side only is the day that the other side has by default. -/
def OwnDays : DateShape → Prop
  | range _ none _ (some d') => d'.val = 1
  | range _ (some d) _ none => d.val = 31
  | _ => True

/-- What the marks of the whole range give: a single day counts on both sides. -/
def readRange : DateShape → DateRange
  | range m none m' (some d') => ⟨m.val * 100 + d'.val, m'.val * 100 + d'.val⟩
  | range m (some d) m' none => ⟨m.val * 100 + d.val, m'.val * 100 + d.val⟩
  | shape => shape.toRange

theorem readRange_eq_toRange_iff (shape : DateShape) :
    shape.readRange = shape.toRange ↔ shape.OwnDays := by
  unfold readRange OwnDays
  split
  · simp [toRange]
  · simp only [toRange, DateRange.mk.injEq, Option.elim, true_and]
    omega
  · simp

/-! ## Reading a range -/

variable (m m' d d' : Num)

/-- Both sides alike: the string of a `DateItem`. -/
theorem render_days :
    (range m (some d) m' (some d')).render = (DateItem.days m d m' d').render := by
  simp [render, renderDay, DateItem.render]

theorem render_months : (range m none m' none).render = (DateItem.months m m').render := by
  simp [render, renderDay, DateItem.render]

theorem render_lastDay : (range m none m' (some d')).render =
    m.digits ++ (yue ++ (45 :: (m'.digits ++ (yue ++ (d'.digits ++ ri))))) := rfl

theorem render_firstDay : (range m (some d) m' none).render =
    m.digits ++ (yue ++ (d.digits ++ (ri ++ (45 :: (m'.digits ++ yue))))) := by
  simp [render, renderDay]

/-- The only day mark is the first one and the last one. -/
theorem getData_lastDay (order : Bool) :
    getData (range m none m' (some d')).render ri order = some (d'.val : Int) := by
  have hpos := getData_num (p := m.digits ++ (yue ++ (45 :: m'.digits)) ++ yue) (k := ri)
    (o := order) (q := ri) d' last_yue
    (by
      cases order <;>
        simp [find_ri_num, find_ri_yue, find_ri_dash, find_ri_end, rfind_ri_num, rfind_ri_yue,
          rfind_ri_dash, rfind_ri_end, length_yue] <;> omega)
  simpa [render_lastDay] using hpos

theorem getData_firstDay (order : Bool) :
    getData (range m (some d) m' none).render ri order = some (d.val : Int) := by
  have hpos := getData_num (p := m.digits ++ yue) (k := ri) (o := order)
    (q := ri ++ (45 :: (m'.digits ++ yue))) d last_yue
    (by
      cases order <;>
        simp [find_ri_num, find_ri_yue, find_ri_ri, rfind_ri_num, rfind_ri_yue, rfind_ri_ri,
          rfind_ri_dash, rfind_ri_yue_end, length_yue] <;> omega)
  simpa [render_firstDay] using hpos

/-- The first month mark belongs to the first side. -/
theorem getData_firstMonth :
    getData (range m (some d) m' none).render yue true = some (m.val : Int) ∧
      getData (range m none m' (some d')).render yue true = some (m.val : Int) :=
  ⟨getData_num (p := []) m (by simp) (by simp [find_yue_num, find_yue_yue]),
    getData_num (p := []) m (by simp) (by simp [find_yue_num, find_yue_yue])⟩

/-- The last month mark belongs to the last side. -/
theorem getData_lastMonth :
    getData (range m (some d) m' none).render yue false = some (m'.val : Int) ∧
      getData (range m none m' (some d')).render yue false = some (m'.val : Int) := by
  constructor
  · have hpos := getData_num (p := m.digits ++ (yue ++ (d.digits ++ ri)) ++ [45]) (k := yue)
      (o := false) (q := yue) m' last_dash
      (by
        simp [rfind_yue_num, rfind_yue_yue, rfind_yue_ri, rfind_yue_dash, rfind_yue_end,
          length_yue, length_ri]
        omega)
    simpa [render_firstDay] using hpos
  · have hpos := getData_num (p := m.digits ++ yue ++ [45]) (k := yue) (o := false)
      (q := yue ++ (d'.digits ++ ri)) m' last_dash
      (by
        simp [rfind_yue_num, rfind_yue_yue, rfind_yue_dash, rfind_yue_ri_end, length_yue]
        omega)
    simpa [render_lastDay] using hpos

theorem readDate_render (shape : DateShape) (old : Int) :
    readDate old shape.render true 1 = shape.readRange.sDate ∧
      readDate old shape.render false 31 = shape.readRange.eDate := by
  match shape with
  | date m d => exact ⟨readDate_first (.day m d) old, readDate_last (.day m d) old⟩
  | range m none m' none =>
    rw [render_months]
    exact ⟨readDate_first (.months m m') old, readDate_last (.months m m') old⟩
  | range m (some d) m' (some d') =>
    rw [render_days]
    exact ⟨readDate_first (.days m d m' d') old, readDate_last (.days m d m' d') old⟩
  | range m none m' (some d') =>
    simp [readDate, getData_lastDay, (getData_firstMonth m m' d' d').2,
      (getData_lastMonth m m' d' d').2, readRange]
  | range m (some d) m' none =>
    simp [readDate, getData_firstDay, (getData_firstMonth m m' d d).1,
      (getData_lastMonth m m' d d).1, readRange]

/-! ## Reading a list -/

theorem isSep_renderDay (d : Option Num) : ∀ c ∈ renderDay d, isSep c = false := by
  cases d with
  | none => simp [renderDay]
  | some d => grind [renderDay, Num.isSep, isSep_ri]

theorem isSep_render (shape : DateShape) : ∀ c ∈ shape.render, isSep c = false := by
  have hdash : isSep 45 = false := rfl
  cases shape <;> grind [render, Num.isSep, isSep_yue, isSep_ri, isSep_renderDay]

theorem render_ne_nil (shape : DateShape) : shape.render ≠ [] := by
  cases shape <;> simp [render, yue]

theorem dateRanges_map (tmp : DateRange) (shapes : List DateShape) :
    dateRanges tmp (shapes.map render) = shapes.map readRange := by
  induction shapes generalizing tmp with
  | nil => rfl
  | cons shape shapes ih =>
    rw [List.map_cons, dateRanges, (shape.readDate_render _).1, (shape.readDate_render _).2, ih]
    rfl

/-- Every range of a list is read as its marks give it. -/
theorem dateRule_list (tmp : DateRange) (shapes : List DateShape) :
    dateRule tmp ([44].intercalate (shapes.map render)) = shapes.map readRange := by
  have hshapes : ∀ x ∈ shapes.map render, (∀ c ∈ x, isSep c = false) ∧ x ≠ [] :=
    List.forall_mem_map.mpr fun shape _ => ⟨shape.isSep_render, shape.render_ne_nil⟩
  rw [dateRule, if_neg (list_ne_star hshapes), split_list hshapes, dateRanges_map]

end DateShape

/-- The ranges of a list are the written ones iff no range has a day on one side only, other than
the day that the side without one would have. -/
theorem dateRule_shapes_iff (tmp : DateRange) (shapes : List DateShape) :
    dateRule tmp ([44].intercalate (shapes.map DateShape.render)) =
        shapes.map DateShape.toRange ↔
      ∀ shape ∈ shapes, shape.OwnDays := by
  rw [DateShape.dateRule_list, List.map_inj_left]
  simp only [DateShape.readRange_eq_toRange_iff]

/-- `1月-5月3日` -/
def untilThirdOfMay : DateShape :=
  .range (.digit 1) none (.digit 5) (some (.digit 3))

/-- `1月-5月3日` is read as from the third of January on. -/
theorem not_dateRule_shapes : ¬ ∀ (tmp : DateRange) (shapes : List DateShape),
    dateRule tmp ([44].intercalate (shapes.map DateShape.render)) =
      shapes.map DateShape.toRange := by
  intro hall
  have hread := hall ⟨0, 0⟩ [untilThirdOfMay]
  have hthird : dateRule ⟨0, 0⟩ ([44].intercalate ([untilThirdOfMay].map DateShape.render)) =
      [⟨103, 503⟩] := by decide +kernel
  rw [hthird] at hread
  revert hread
  decide +kernel

end PPView.TimeIR
