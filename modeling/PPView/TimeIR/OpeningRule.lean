import Mathlib.Tactic.IntervalCases
import PPView.TimeIR.Termination

/-!
# Well-formed opening rules

The rules that the format comment in `TimeIR.cpp` describes, as a syntax with the string of each
term. `ruleNodes` reads the string of a rule as the ranges of its clauses.
-/

namespace PPView.TimeIR

open Strings (find rfind split)

/-! ## Syntax -/

/-- A number of one or two digits. -/
structure Num where
  digits : Str
  ne_nil : digits ≠ []
  length_le : digits.length ≤ 2
  isDigit : ∀ c ∈ digits, Str.isDigit c

/-- The number of one digit. -/
def Num.digit (d : ℕ) : Num where
  digits := [48 + UInt8.ofNat (d % 10)]
  ne_nil := by simp
  length_le := by simp
  isDigit := by
    have hd : ∀ k < 10, Str.isDigit (48 + UInt8.ofNat k) := by decide +kernel
    exact List.forall_mem_singleton.mpr (hd (d % 10) (Nat.mod_lt d (by decide)))

def Num.val (n : Num) : ℕ := Str.digitsVal 0 n.digits

inductive DateItem where
  /-- `m月d日` -/
  | day (m d : Num)
  /-- `m月d日-m月d日` -/
  | days (m d m' d' : Num)
  /-- `m月-m月` -/
  | months (m m' : Num)

inductive Dates where
  | any
  | list (items : List DateItem)

/-- A day of the week, from one for Monday. -/
structure Weekday where
  val : ℕ
  one_le : 1 ≤ val
  le_seven : val ≤ 7

inductive WeekItem where
  /-- `周a` -/
  | day (a : Weekday)
  /-- `周a-周b` -/
  | days (a b : Weekday) (h : a.val ≤ b.val)

inductive Weeks where
  | any
  | list (items : List WeekItem)

/-- `H:MM` -/
structure Time where
  hour : Num
  minute : Num
  minute_length : minute.digits.length = 2

inductive Times where
  | any
  | allDay
  | closed
  | list (ranges : List (Time × Time))

structure Clause where
  dates : Dates
  weeks : Weeks
  times : Times
  isSure : Bool

/-! ## Strings -/

namespace DateItem

def render : DateItem → Str
  | day m d => m.digits ++ (yue ++ (d.digits ++ ri))
  | days m d m' d' =>
    m.digits ++ (yue ++ (d.digits ++ (ri ++ (45 :: (m'.digits ++ (yue ++ (d'.digits ++ ri)))))))
  | months m m' => m.digits ++ (yue ++ (45 :: (m'.digits ++ yue)))

end DateItem

def Dates.render : Dates → Str
  | any => star
  | list items => [44].intercalate (items.map DateItem.render)

def Weekday.render (a : Weekday) : Str := zhou ++ [UInt8.ofNat (48 + a.val)]

def WeekItem.render : WeekItem → Str
  | day a => a.render
  | days a b _ => a.render ++ 45 :: b.render

def Weeks.render : Weeks → Str
  | any => star
  | list items => [44].intercalate (items.map WeekItem.render)

def Time.render (t : Time) : Str := t.hour.digits ++ 58 :: t.minute.digits

def renderRange (r : Time × Time) : Str := r.1.render ++ 45 :: r.2.render

def Times.render : Times → Str
  | any => star
  | allDay => quantian
  | closed => bukaimen
  | list ranges => [44].intercalate (ranges.map renderRange)

namespace Clause

def type (c : Clause) : Str := if c.isSure then sure else notSure

def render (c : Clause) : Str :=
  [c.dates.render, c.weeks.render, c.times.render, c.type].flatMap fun part => 60 :: (part ++ [62])

end Clause

def renderRule (rule : List Clause) : Str := [124].intercalate (rule.map Clause.render)

/-! ## Ranges -/

namespace DateItem

/-- The month and the day of the first date. -/
def first : DateItem → ℕ × ℕ
  | day m d => (m.val, d.val)
  | days m d _ _ => (m.val, d.val)
  | months m _ => (m.val, 1)

/-- The month and the day of the last date. -/
def last : DateItem → ℕ × ℕ
  | day m d => (m.val, d.val)
  | days _ _ m' d' => (m'.val, d'.val)
  | months _ m' => (m'.val, 31)

def toRange (item : DateItem) : DateRange :=
  ⟨item.first.1 * 100 + item.first.2, item.last.1 * 100 + item.last.2⟩

end DateItem

def Dates.toRanges : Dates → List DateRange
  | any => [⟨101, 1231⟩]
  | list items => items.map DateItem.toRange

def WeekItem.toRange : WeekItem → WeekRange
  | day a => ⟨a.val, a.val⟩
  | days a b _ => ⟨a.val, b.val⟩

def Weeks.toRanges : Weeks → List WeekRange
  | any => [⟨1, 7⟩]
  | list items => items.map WeekItem.toRange

namespace Time

/-- `00:00` -/
def dayStart : Time := ⟨⟨[48, 48], by decide, by decide, by decide +kernel⟩,
  ⟨[48, 48], by decide, by decide, by decide +kernel⟩, rfl⟩

/-- `24:00` -/
def dayEnd : Time := ⟨⟨[50, 52], by decide, by decide, by decide +kernel⟩,
  ⟨[48, 48], by decide, by decide, by decide +kernel⟩, rfl⟩

end Time

/-- The ranges that `times` opens. -/
def Times.opens : Times → List (Time × Time)
  | any => [(Time.dayStart, Time.dayEnd)]
  | allDay => [(Time.dayStart, Time.dayEnd)]
  | closed => []
  | list ranges => ranges

def Times.toStrs : Times → List Str
  | closed => [[]]
  | times => times.opens.map renderRange

def Clause.toNode (c : Clause) : RuleNode where
  dateRange := c.dates.toRanges
  weekRange := c.weeks.toRanges
  timeRange := c.times.toStrs
  type := some (if c.isSure then 1 else 2)

/-! ## Characters -/

/-- The marks of a rule. -/
def isMark (c : UInt8) : Bool := c == 60 || c == 62 || c == 124

/-- The marks of a rule, and what only a list or `*` contains. -/
def isSep (c : UInt8) : Bool := isMark c || c == 44 || c == 42

theorem isDigit_toNat {c : UInt8} (h : Str.isDigit c) : 48 ≤ c.toNat ∧ c.toNat ≤ 57 := by
  simpa [Str.isDigit, UInt8.le_iff_toNat_le] using h

theorem ne_of_isDigit {c d : UInt8} (h : Str.isDigit c) (hd : Str.isDigit d = false) : c ≠ d := by
  rintro rfl
  rw [h] at hd
  contradiction

theorem Num.notMem (n : Num) {d : UInt8} (hd : Str.isDigit d = false) : d ∉ n.digits :=
  fun hmem => ne_of_isDigit (n.isDigit d hmem) hd rfl

theorem isSep_of_isDigit {c : UInt8} (h : Str.isDigit c) : isSep c = false := by
  have hne {d : UInt8} (hd : Str.isDigit d = false) : (c == d) = false :=
    beq_eq_false_iff_ne.mpr (ne_of_isDigit h hd)
  simp [isSep, isMark, hne (d := 60) rfl, hne (d := 62) rfl, hne (d := 124) rfl,
    hne (d := 44) rfl, hne (d := 42) rfl]

theorem Num.isSep (n : Num) : ∀ c ∈ n.digits, isSep c = false :=
  fun c hc => isSep_of_isDigit (n.isDigit c hc)


/-! ## The numbers of a date -/

variable {p q s : Str}

/-- The digits in front of a position, back to what is no digit. -/
theorem getDataBefore_num (n : Num) (hp : ∀ c ∈ p.getLast?, Str.isDigit c = false) :
    getDataBefore (p ++ (n.digits ++ q)) (p.length + n.digits.length) = n.val := by
  have htake : (p ++ (n.digits ++ q)).take (p.length + n.digits.length) = p ++ n.digits := by
    rw [← List.append_assoc, ← List.length_append, List.take_left]
  have hrest : p.reverse.takeWhile Str.isDigit = [] := by
    rw [List.getLast?_eq_head?_reverse] at hp
    cases h : p.reverse with
    | nil => rfl
    | cons c p => exact List.takeWhile_cons_of_neg (by simpa [h] using hp)
  have hdigits : ((p ++ n.digits).reverse.takeWhile Str.isDigit) = n.digits.reverse := by
    rw [List.reverse_append, List.takeWhile_append_of_pos, hrest, List.append_nil]
    simpa using n.isDigit
  rw [getDataBefore, htake, hdigits, Num.val]
  obtain ⟨digits, hne, hlen, hdig⟩ := n
  match digits with
  | [] => contradiction
  | [a] =>
    have := isDigit_toNat (hdig a (by simp))
    simp [Str.digitsVal]
    omega
  | [a, b] =>
    have := isDigit_toNat (hdig a (by simp))
    have := isDigit_toNat (hdig b (by simp))
    simp [Str.digitsVal]
    omega
  | _ :: _ :: _ :: _ => simp at hlen

theorem getData_num {k : Str} {o : Bool} (n : Num)
    (hp : ∀ c ∈ p.getLast?, Str.isDigit c = false)
    (hpos : (if o then find k (p ++ (n.digits ++ q)) else rfind k (p ++ (n.digits ++ q))) =
      some (p.length + n.digits.length)) :
    getData (p ++ (n.digits ++ q)) k o = some (n.val : Int) := by
  rw [getData, hpos, Option.map_some, getDataBefore_num n hp]

theorem find_yue_num (n : Num) : find yue (n.digits ++ s) =
    (find yue s).map (· + n.digits.length) :=
  Strings.find_append_of_notMem (n.notMem rfl)

theorem find_ri_num (n : Num) : find ri (n.digits ++ s) = (find ri s).map (· + n.digits.length) :=
  Strings.find_append_of_notMem (n.notMem rfl)

theorem rfind_yue_num (n : Num) :
    rfind yue (n.digits ++ s) = (rfind yue s).map (· + n.digits.length) :=
  Strings.rfind_append_of_notMem (n.notMem rfl)

theorem rfind_ri_num (n : Num) :
    rfind ri (n.digits ++ s) = (rfind ri s).map (· + n.digits.length) :=
  Strings.rfind_append_of_notMem (n.notMem rfl)

theorem find_yue_yue : find yue (yue ++ s) = some 0 := Strings.find_append_self

theorem find_ri_ri : find ri (ri ++ s) = some 0 := Strings.find_append_self

/-- `月` and `日` begin alike, but are not the same. -/
theorem find_ri_yue : find ri (yue ++ s) = (find ri s).map (· + 3) := by
  cases h : find ri s <;> simp_all [yue, ri, find]

theorem find_ri_dash : find ri (45 :: s) = (find ri s).map (· + 1) := by
  simp [ri, find]

theorem rfind_yue_yue : rfind yue (yue ++ s) = some (((rfind yue s).map (· + 3)).getD 0) := by
  cases h : rfind yue s <;> simp_all [yue, rfind]

theorem rfind_ri_ri : rfind ri (ri ++ s) = some (((rfind ri s).map (· + 3)).getD 0) := by
  cases h : rfind ri s <;> simp_all [ri, rfind]

theorem rfind_yue_ri : rfind yue (ri ++ s) = (rfind yue s).map (· + 3) := by
  cases h : rfind yue s <;> simp_all [yue, ri, rfind]

theorem rfind_ri_yue : rfind ri (yue ++ s) = (rfind ri s).map (· + 3) := by
  cases h : rfind ri s <;> simp_all [yue, ri, rfind]

theorem rfind_yue_dash : rfind yue (45 :: s) = (rfind yue s).map (· + 1) := by
  cases h : rfind yue s <;> simp_all [yue, rfind]

theorem rfind_ri_dash : rfind ri (45 :: s) = (rfind ri s).map (· + 1) := by
  cases h : rfind ri s <;> simp_all [ri, rfind]

theorem find_ri_end : find ri ri = some 0 := rfl

theorem find_ri_yue_end : find ri yue = none := rfl

theorem rfind_yue_end : rfind yue yue = some 0 := rfl

theorem rfind_ri_end : rfind ri ri = some 0 := rfl

theorem rfind_yue_ri_end : rfind yue ri = none := rfl

theorem rfind_ri_yue_end : rfind ri yue = none := rfl

theorem length_yue : yue.length = 3 := rfl

theorem length_ri : ri.length = 3 := rfl

theorem last_yue : ∀ c ∈ (p ++ yue).getLast?, Str.isDigit c = false := by
  simp [yue, Str.isDigit]

theorem last_dash : ∀ c ∈ (p ++ [45]).getLast?, Str.isDigit c = false := by
  simp [Str.isDigit]

/-- The first date is read from the first marks. -/
theorem readDate_first (item : DateItem) (old : Int) :
    readDate old item.render true 1 = item.toRange.sDate := by
  cases item with
  | day m d =>
    have hm : getData (DateItem.day m d).render yue true = some (m.val : Int) :=
      getData_num (p := []) m (by simp) (by simp [find_yue_num, find_yue_yue])
    have hd : getData (DateItem.day m d).render ri true = some (d.val : Int) := by
      have hpos := getData_num (p := m.digits ++ yue) (q := ri) (k := ri) (o := true) d
        last_yue
        (by simp [find_ri_num, find_ri_yue, find_ri_end, length_yue]; omega)
      simpa [DateItem.render] using hpos
    simp [readDate, hm, hd, DateItem.toRange, DateItem.first]
  | days m d m' d' =>
    have hm : getData (DateItem.days m d m' d').render yue true = some (m.val : Int) :=
      getData_num (p := []) m (by simp) (by simp [find_yue_num, find_yue_yue])
    have hd : getData (DateItem.days m d m' d').render ri true = some (d.val : Int) := by
      have hpos := getData_num (p := m.digits ++ yue) (k := ri) (o := true)
        (q := ri ++ 45 :: (m'.digits ++ (yue ++ (d'.digits ++ ri)))) d last_yue
        (by simp [find_ri_num, find_ri_yue, find_ri_ri, length_yue]; omega)
      simpa [DateItem.render] using hpos
    simp [readDate, hm, hd, DateItem.toRange, DateItem.first]
  | months m m' =>
    have hm : getData (DateItem.months m m').render yue true = some (m.val : Int) :=
      getData_num (p := []) m (by simp) (by simp [find_yue_num, find_yue_yue])
    have hd : getData (DateItem.months m m').render ri true = none := by
      simp [getData, DateItem.render, find_ri_num, find_ri_yue, find_ri_dash, find_ri_yue_end]
    simp [readDate, hm, hd, DateItem.toRange, DateItem.first]

/-- The last date is read from the last marks. -/
theorem readDate_last (item : DateItem) (old : Int) :
    readDate old item.render false 31 = item.toRange.eDate := by
  cases item with
  | day m d =>
    have hm : getData (DateItem.day m d).render yue false = some (m.val : Int) :=
      getData_num (p := []) m (by simp)
        (by simp [rfind_yue_num, rfind_yue_yue, rfind_yue_ri_end])
    have hd : getData (DateItem.day m d).render ri false = some (d.val : Int) := by
      have hpos := getData_num (p := m.digits ++ yue) (q := ri) (k := ri) (o := false) d
        last_yue
        (by simp [rfind_ri_num, rfind_ri_yue, rfind_ri_end, length_yue]; omega)
      simpa [DateItem.render] using hpos
    simp [readDate, hm, hd, DateItem.toRange, DateItem.last]
  | days m d m' d' =>
    have hm : getData (DateItem.days m d m' d').render yue false = some (m'.val : Int) := by
      have hpos := getData_num (p := m.digits ++ (yue ++ (d.digits ++ ri)) ++ [45]) (k := yue)
        (o := false) (q := yue ++ (d'.digits ++ ri)) m' last_dash
        (by
          simp [rfind_yue_num, rfind_yue_yue, rfind_yue_ri, rfind_yue_dash, rfind_yue_ri_end,
            length_yue, length_ri]
          omega)
      simpa [DateItem.render] using hpos
    have hd : getData (DateItem.days m d m' d').render ri false = some (d'.val : Int) := by
      have hpos := getData_num
        (p := m.digits ++ (yue ++ (d.digits ++ (ri ++ 45 :: m'.digits))) ++ yue) (k := ri)
        (o := false) (q := ri) d' last_yue
        (by
          simp [rfind_ri_num, rfind_ri_ri, rfind_ri_yue, rfind_ri_dash, rfind_ri_end,
            length_yue, length_ri]
          omega)
      simpa [DateItem.render] using hpos
    simp [readDate, hm, hd, DateItem.toRange, DateItem.last]
  | months m m' =>
    have hm : getData (DateItem.months m m').render yue false = some (m'.val : Int) := by
      have hpos := getData_num (p := m.digits ++ yue ++ [45]) (k := yue) (o := false)
        (q := yue) m' last_dash
        (by simp [rfind_yue_num, rfind_yue_yue, rfind_yue_dash, rfind_yue_end, length_yue]; omega)
      simpa [DateItem.render] using hpos
    have hd : getData (DateItem.months m m').render ri false = none := by
      simp [getData, DateItem.render, rfind_ri_num, rfind_ri_yue, rfind_ri_dash, rfind_ri_yue_end]
    simp [readDate, hm, hd, DateItem.toRange, DateItem.last]

/-! ## Lists -/

section Lists

variable {strs : List Str}

theorem list_ne_of_notMem {c : UInt8} {key : Str} (hc : c ∈ key) (hcomma : c ≠ 44)
    (h : ∀ x ∈ strs, c ∉ x) : [44].intercalate strs ≠ key := by
  rintro rfl
  rcases Strings.mem_intercalate hc with heq | ⟨x, hx, hmem⟩
  · exact hcomma heq
  · exact h x hx hmem

theorem notMem_of_isSep {c : UInt8} (hc : isSep c) (h : ∀ c ∈ s, isSep c = false) : c ∉ s := by
  intro hmem
  rw [h c hmem] at hc
  contradiction

theorem split_list (h : ∀ x ∈ strs, (∀ c ∈ x, isSep c = false) ∧ x ≠ []) :
    split 44 ([44].intercalate strs) = strs :=
  Strings.split_intercalate (fun x hx => notMem_of_isSep rfl (h x hx).1) fun x hx => (h x hx).2

theorem list_ne_star (h : ∀ x ∈ strs, (∀ c ∈ x, isSep c = false) ∧ x ≠ []) :
    [44].intercalate strs ≠ star :=
  list_ne_of_notMem (List.mem_singleton.mpr rfl) (by decide) fun x hx =>
    notMem_of_isSep rfl (h x hx).1

theorem isMark_list (h : ∀ x ∈ strs, (∀ c ∈ x, isSep c = false) ∧ x ≠ []) :
    ∀ c ∈ [44].intercalate strs, isMark c = false := by
  intro c hc
  rcases Strings.mem_intercalate hc with rfl | ⟨x, hx, hmem⟩
  · rfl
  · have := (h x hx).1 c hmem
    simp only [isSep, Bool.or_eq_false_iff] at this
    exact this.1.1

end Lists

theorem isSep_yue : ∀ c ∈ yue, isSep c = false := by decide +kernel

theorem isSep_ri : ∀ c ∈ ri, isSep c = false := by decide +kernel

theorem DateItem.isSep_render (item : DateItem) : ∀ c ∈ item.render, isSep c = false := by
  have hdash : isSep 45 = false := rfl
  cases item <;> grind [render, Num.isSep, isSep_yue, isSep_ri]

theorem DateItem.render_ne_nil (item : DateItem) : item.render ≠ [] := by
  cases item <;> simp [render, yue]

theorem WeekItem.isSep_render (item : WeekItem) : ∀ c ∈ item.render, isSep c = false := by
  have hday (a : Weekday) : ∀ c ∈ a.render, isSep c = false := by
    obtain ⟨val, hone, hseven⟩ := a
    dsimp only [Weekday.render]
    interval_cases val <;> decide +kernel
  cases item with
  | day a => exact hday a
  | days a b h =>
    simp only [render, List.mem_append, List.mem_cons]
    rintro c (hc | rfl | hc)
    · exact hday a c hc
    · rfl
    · exact hday b c hc

theorem WeekItem.render_ne_nil (item : WeekItem) : item.render ≠ [] := by
  cases item <;> simp [render, Weekday.render, zhou]

theorem isSep_renderRange (r : Time × Time) : ∀ c ∈ renderRange r, isSep c = false := by
  have hdash : isSep 45 = false := rfl
  have hcolon : isSep 58 = false := rfl
  grind [renderRange, Time.render, Num.isSep]

theorem renderRange_ne_nil (r : Time × Time) : renderRange r ≠ [] := by
  simp [renderRange]

theorem notMem_renderRange (r : Time × Time) {c : UInt8} (hdigit : Str.isDigit c = false)
    (hcolon : c ≠ 58) (hdash : c ≠ 45) : c ∉ renderRange r := by
  simp [renderRange, Time.render, Num.notMem _ hdigit, hcolon, hdash]

/-! ## The fields of a clause -/

theorem dateRanges_map (tmp : DateRange) (items : List DateItem) :
    dateRanges tmp (items.map DateItem.render) = items.map DateItem.toRange := by
  induction items generalizing tmp with
  | nil => rfl
  | cons item items ih =>
    simp only [List.map_cons, dateRanges, readDate_first, readDate_last]
    rw [ih]

theorem dateRule_render (tmp : DateRange) (dates : Dates) :
    dateRule tmp dates.render = dates.toRanges := by
  cases dates with
  | any => rfl
  | list items =>
    have hitems : ∀ x ∈ items.map DateItem.render, (∀ c ∈ x, isSep c = false) ∧ x ≠ [] :=
      List.forall_mem_map.mpr fun item _ => ⟨item.isSep_render, item.render_ne_nil⟩
    rw [Dates.render, dateRule, if_neg (list_ne_star hitems), split_list hitems, dateRanges_map]
    rfl

theorem weekRange_render (item : WeekItem) : weekRange item.render = some item.toRange := by
  cases item with
  | day a =>
    obtain ⟨val, hone, hseven⟩ := a
    dsimp only [WeekItem.render, Weekday.render, WeekItem.toRange]
    interval_cases val <;> rfl
  | days a b h =>
    obtain ⟨a, hone, -⟩ := a
    obtain ⟨b, -, hseven⟩ := b
    have hle : a ≤ b := h
    dsimp only [WeekItem.render, Weekday.render, WeekItem.toRange]
    interval_cases b <;> interval_cases a <;> rfl

theorem weekRule_render (weeks : Weeks) : weekRule weeks.render = weeks.toRanges := by
  cases weeks with
  | any => rfl
  | list items =>
    have hitems : ∀ x ∈ items.map WeekItem.render, (∀ c ∈ x, isSep c = false) ∧ x ≠ [] :=
      List.forall_mem_map.mpr fun item _ => ⟨item.isSep_render, item.render_ne_nil⟩
    rw [Weeks.render, weekRule, if_neg (list_ne_star hitems), split_list hitems,
      List.filterMap_map]
    simp [weekRange_render, Weeks.toRanges]

theorem timeRule_render (times : Times) : timeRule times.render = times.toStrs := by
  cases times with
  | any => rfl
  | allDay => rfl
  | closed => rfl
  | list ranges =>
    have hitems : ∀ x ∈ ranges.map renderRange, (∀ c ∈ x, isSep c = false) ∧ x ≠ [] :=
      List.forall_mem_map.mpr fun r _ => ⟨isSep_renderRange r, renderRange_ne_nil r⟩
    have hwhole : [44].intercalate (ranges.map renderRange) ≠ quantian :=
      list_ne_of_notMem (c := 0xE5) (by decide) (by decide) <|
        List.forall_mem_map.mpr fun r _ => notMem_renderRange r rfl (by decide) (by decide)
    have hclosed : [44].intercalate (ranges.map renderRange) ≠ bukaimen :=
      list_ne_of_notMem (c := 0xE4) (by decide) (by decide) <|
        List.forall_mem_map.mpr fun r _ => notMem_renderRange r rfl (by decide) (by decide)
    rw [Times.render, timeRule, if_neg (list_ne_star hitems), if_neg hwhole, if_neg hclosed,
      split_list hitems]
    rfl

theorem typeRule_type (c : Clause) : typeRule c.type = some (if c.isSure then 1 else 2) := by
  unfold Clause.type
  cases c.isSure <;> rfl

/-! ## The clauses of a rule -/

theorem part_field {a : Str} (b : Str) (h : 62 ∉ a) :
    part [60] [62] (60 :: (a ++ 62 :: b)) = a := by
  have hright : find [62] (60 :: (a ++ 62 :: b)) = some (a.length + 1) :=
    Strings.find_singleton_append (a := 60 :: a) (by simpa using h)
  have hcount : ((a.length + 1 : ℕ) : Int) - 1 = a.length := by omega
  rw [part, hright, show find [60] (60 :: (a ++ 62 :: b)) = some 0 by simp [find]]
  simp only [index, List.length_singleton, Int.natCast_one, hcount]
  rw [substr, if_neg (by omega)]
  simp

theorem getVecStrBetween_fields {parts : List Str} (h : ∀ a ∈ parts, 62 ∉ a) (hne : parts ≠ []) :
    getVecStrBetween [60] [62] (fuel + parts.length)
      (parts.flatMap fun part => 60 :: (part ++ [62])) = .ok parts := by
  induction parts with
  | nil => contradiction
  | cons a parts ih =>
    obtain ⟨ha, hparts⟩ := List.forall_mem_cons.mp h
    have hrest : (a :: parts).flatMap (fun part => 60 :: (part ++ [62])) =
        (60 :: a) ++ 62 :: parts.flatMap fun part => 60 :: (part ++ [62]) := by
      simp
    rw [hrest, List.length_cons, ← Nat.add_assoc, getVecStrBetween_of_mark (by simpa using ha),
      List.cons_append, part_field _ ha]
    by_cases hnil : parts = []
    · subst hnil
      rfl
    · rw [if_neg (by simpa using List.exists_mem_of_ne_nil parts hnil), ih hparts hnil]
      rfl

namespace Clause

def parts (c : Clause) : List Str := [c.dates.render, c.weeks.render, c.times.render, c.type]

theorem isMark_parts (c : Clause) : ∀ a ∈ c.parts, ∀ x ∈ a, isMark x = false := by
  have hdates : ∀ x ∈ c.dates.render, isMark x = false := by
    cases c.dates with
    | any => decide +kernel
    | list items =>
      exact isMark_list <| List.forall_mem_map.mpr fun item _ =>
        ⟨item.isSep_render, item.render_ne_nil⟩
  have hweeks : ∀ x ∈ c.weeks.render, isMark x = false := by
    cases c.weeks with
    | any => decide +kernel
    | list items =>
      exact isMark_list <| List.forall_mem_map.mpr fun item _ =>
        ⟨item.isSep_render, item.render_ne_nil⟩
  have htimes : ∀ x ∈ c.times.render, isMark x = false := by
    cases c.times with
    | any => decide +kernel
    | allDay => decide +kernel
    | closed => decide +kernel
    | list ranges =>
      exact isMark_list <| List.forall_mem_map.mpr fun r _ =>
        ⟨isSep_renderRange r, renderRange_ne_nil r⟩
  have htype : ∀ x ∈ c.type, isMark x = false := by
    unfold type
    cases c.isSure <;> decide +kernel
  simpa [parts] using ⟨hdates, hweeks, htimes, htype⟩

theorem notMem_parts (c : Clause) {x : UInt8} (hx : isMark x) : ∀ a ∈ c.parts, x ∉ a := by
  intro a ha hmem
  rw [c.isMark_parts a ha x hmem] at hx
  contradiction

theorem getVecStrBetween_render (c : Clause) :
    getVecStrBetween [60] [62] (fuel + 4) c.render = .ok c.parts :=
  getVecStrBetween_fields (c.notMem_parts rfl) (List.cons_ne_nil _ _)

theorem bar_notMem_render (c : Clause) : 124 ∉ c.render := by
  intro hmem
  obtain ⟨a, ha, hbar⟩ := List.mem_flatMap.mp hmem
  have := c.notMem_parts (x := 124) rfl a ha
  simp_all

theorem getLast?_render (c : Clause) : c.render.getLast? = some 62 := by
  rw [List.getLast?_eq_some_iff]
  refine ⟨60 :: (c.dates.render ++ 62 :: 60 :: (c.weeks.render ++ 62 :: 60 ::
    (c.times.render ++ 62 :: 60 :: c.type))), ?_⟩
  simp [render]

theorem render_ne_nil (c : Clause) : c.render ≠ [] := by
  simp [render]

end Clause

/-- Nothing is cut off behind the last mark. -/
theorem substr_rfind (h : s.getLast? = some 62) : substr s 0 (index (rfind [62] s) + 1) = s := by
  obtain ⟨init, rfl⟩ := List.getLast?_eq_some_iff.mp h
  rw [Strings.rfind_singleton_concat, substr, index, if_neg (by omega)]
  exact List.take_of_length_le (by simp)

theorem ruleItems_renderRule (rule : List Clause) :
    ruleItems (renderRule rule) = rule.map Clause.render := by
  by_cases hrule : rule = []
  · subst hrule
    rfl
  · have hlast : (renderRule rule).getLast? = some 62 :=
      Strings.getLast?_intercalate (by simpa using hrule)
        (List.forall_mem_map.mpr fun c _ => c.getLast?_render)
    rw [ruleItems, substr_rfind hlast, renderRule, Strings.split_intercalate]
    · exact List.forall_mem_map.mpr fun c _ => c.bar_notMem_render
    · exact List.forall_mem_map.mpr fun c _ => c.render_ne_nil

/-- The string of a rule is read as the nodes of its clauses. -/
theorem ruleNodes_render (tmp : DateRange) (rule : List Clause) :
    ruleNodes (fuel + 4) tmp (rule.map Clause.render) = .ok (some (rule.map Clause.toNode)) := by
  induction rule with
  | nil => rfl
  | cons c rule ih =>
    have htype : c.type ≠ null := by
      unfold Clause.type
      cases c.isSure <;> decide
    rw [List.map_cons, ruleNodes, c.getVecStrBetween_render]
    simp only [Clause.parts, bind, Except.bind, if_neg htype, ih, dateRule_render,
      weekRule_render, timeRule_render, typeRule_type]
    rfl

end PPView.TimeIR
