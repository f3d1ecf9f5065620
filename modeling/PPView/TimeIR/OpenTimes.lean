import PPView.TimeIR.Date
import PPView.TimeIR.OpeningRule

/-!
# The opening times of a date

A clause matches a date when its dates and its weeks contain it. Every matching clause adds its
times, so the result is the union of them in order. A closing clause adds nothing, and removes
nothing either.
-/

namespace PPView.TimeIR

open Strings (find)

/-! ## Clauses and dates -/

/-- Not after, for months and days. -/
def NotAfter (a b : ℕ × ℕ) : Prop := a.1 < b.1 ∨ a.1 = b.1 ∧ a.2 ≤ b.2

instance (a b : ℕ × ℕ) : Decidable (NotAfter a b) := inferInstanceAs (Decidable (_ ∨ _))

/-- From the first date to the last, around the year where that comes before. -/
def DateItem.Contains (item : DateItem) (md : ℕ × ℕ) : Prop :=
  if NotAfter item.first item.last then NotAfter item.first md ∧ NotAfter md item.last
  else NotAfter item.first md ∨ NotAfter md item.last

instance (item : DateItem) (md : ℕ × ℕ) : Decidable (item.Contains md) :=
  inferInstanceAs (Decidable (ite ..))

def Dates.Contains (md : ℕ × ℕ) : Dates → Prop
  | any => True
  | list items => ∃ item ∈ items, item.Contains md

def WeekItem.Contains (w : Int) : WeekItem → Prop
  | day a => w = a.val
  | days a b _ => a.val ≤ w ∧ w ≤ b.val

def Weeks.Contains (w : Int) : Weeks → Prop
  | any => True
  | list items => ∃ item ∈ items, item.Contains w

/-- The dates and the weeks of the clause contain the date, with the day of the week in the
calendar. -/
def Clause.Contains (c : Clause) (date : Date) : Prop :=
  c.dates.Contains (date.month, date.day) ∧ c.weeks.Contains date.weekday

/-- The same with the day of the week that the code computes. -/
def Clause.Matches (c : Clause) (date : Date) : Prop :=
  c.dates.Contains (date.month, date.day) ∧
    ∃ w, getWeekByDate date.str = .ok w ∧ c.weeks.Contains w

/-- With two digits for the hour. -/
def Time.padded (t : Time) : Str :=
  if t.hour.digits.length = 1 then 48 :: t.render else t.render

/-- `20180101_10:00-20180101_12:30` -/
def interval (inDate : Str) (r : Time × Time) : Str :=
  inDate ++ 95 :: (r.1.padded ++ 45 :: (inDate ++ 95 :: r.2.padded))

/-! ## Ranges -/

theorem Num.val_lt (n : Num) : n.val < 100 := by
  obtain ⟨digits, hne, hlen, hdig⟩ := n
  match digits with
  | [] => contradiction
  | [a] =>
    have := isDigit_toNat (hdig a (by simp))
    simp [val, Str.digitsVal]
    omega
  | [a, b] =>
    have := isDigit_toNat (hdig a (by simp))
    have := isDigit_toNat (hdig b (by simp))
    simp [val, Str.digitsVal]
    omega
  | _ :: _ :: _ :: _ => simp at hlen

theorem notAfter_iff {a b : ℕ × ℕ} (ha : a.2 < 100) (hb : b.2 < 100) :
    NotAfter a b ↔ (a.1 * 100 + a.2 : Int) ≤ b.1 * 100 + b.2 := by
  unfold NotAfter
  omega

theorem inRange_iff {s e x : Int} :
    inRange s e x ↔ if s ≤ e then s ≤ x ∧ x ≤ e else s ≤ x ∨ x ≤ e := by
  unfold inRange
  split_ifs <;> simp

theorem DateItem.inRange_toRange (item : DateItem) {m : ℕ × ℕ} (hm : m.2 < 100) :
    inRange item.toRange.sDate item.toRange.eDate (m.1 * 100 + m.2) ↔ item.Contains m := by
  have hfirst : item.first.2 < 100 := by
    cases item <;> first | exact Num.val_lt _ | exact (by decide : 1 < 100)
  have hlast : item.last.2 < 100 := by
    cases item <;> first | exact Num.val_lt _ | exact (by decide : 31 < 100)
  simp only [inRange_iff, toRange, Contains, ← notAfter_iff hfirst hm, ← notAfter_iff hm hlast]
  by_cases h : NotAfter item.first item.last
  · rw [if_pos h, if_pos ((notAfter_iff hfirst hlast).mp h)]
  · rw [if_neg h, if_neg (mt (notAfter_iff hfirst hlast).mpr h)]

theorem WeekItem.inRange_toRange (item : WeekItem) {w : Int} :
    inRange item.toRange.sWeek item.toRange.eWeek w ↔ item.Contains w := by
  cases item with
  | day a =>
    simp only [inRange_iff, toRange, Contains, le_refl, if_true]
    omega
  | days a b h => simp [inRange_iff, toRange, Contains, h]

variable {date : Date} {c : Clause}

theorem checkDate_str (range : DateRange) : checkDate range date.str =
    .ok (inRange range.sDate range.eDate (date.month * 100 + date.day)) := by
  rw [checkDate, monthDay_str]
  rfl

/-- One of the ranges of a clause contains the date. -/
theorem Dates.exists_toRanges (dates : Dates) :
    (∃ range ∈ dates.toRanges, inRange range.sDate range.eDate (date.month * 100 + date.day)) ↔
      dates.Contains (date.month, date.day) := by
  have := date.day_le
  have := date.one_le_day
  have := date.month_le
  have := date.one_le_month
  cases dates with
  | any =>
    simp only [toRanges, List.mem_singleton, exists_eq_left, Contains, iff_true, inRange_iff]
    rw [if_pos (by decide)]
    omega
  | list items =>
    simp only [toRanges, List.mem_map, exists_exists_and_eq_and, Contains]
    exact exists_congr fun item => and_congr_right fun _ =>
      item.inRange_toRange (m := (date.month, date.day)) (by dsimp only; omega)

theorem Weeks.exists_toRanges (weeks : Weeks) {w : Int} (hone : 1 ≤ w) (hseven : w ≤ 7) :
    (∃ range ∈ weeks.toRanges, inRange range.sWeek range.eWeek w) ↔ weeks.Contains w := by
  cases weeks with
  | any =>
    simp only [toRanges, List.mem_singleton, exists_eq_left, Contains, iff_true, inRange_iff]
    rw [if_pos (by decide)]
    omega
  | list items =>
    simp only [toRanges, List.mem_map, exists_exists_and_eq_and, Contains]
    exact exists_congr fun item => and_congr_right fun _ => item.inRange_toRange

theorem getWeekByDate_bounds {inDate : Str} {w : Int} (h : getWeekByDate inDate = .ok w) :
    1 ≤ w ∧ w ≤ 7 := by
  obtain ⟨tt, -, hw⟩ := bind_ok.mp h
  obtain rfl : _ = w := Except.ok.inj hw
  omega

/-! ## The times of a clause -/

theorem pad_render (t : Time) : pad t.render = t.padded := by
  have hlen : t.render.length = t.hour.digits.length + 3 := by
    simp [Time.render, t.minute_length]
  have := List.length_pos_iff.mpr t.hour.ne_nil
  have := t.hour.length_le
  rw [pad, Time.padded, hlen]
  split_ifs <;> first | rfl | omega

theorem stampRange_render (inDate : Str) (r : Time × Time) :
    stampRange inDate (renderRange r) = interval inDate r := by
  have hdash : (45 : UInt8) ∉ r.1.render := by
    simp [Time.render, Num.notMem _ (show Str.isDigit 45 = false from rfl)]
  have hs : substr (renderRange r) 0 r.1.render.length = r.1.render := by
    rw [substr, if_neg (by omega), renderRange]
    simp
  have he : (renderRange r).drop ((r.1.render.length : Int) + 1).toNat = r.2.render := by
    rw [renderRange, show ((r.1.render.length : Int) + 1).toNat = r.1.render.length + 1 by omega]
    simp
  rw [stampRange]
  rw [show find [45] (renderRange r) = some r.1.render.length from
    Strings.find_singleton_append hdash]
  simp only [index, hs, he, pad_render, stamp, interval]
  simp

/-! ## What is added -/

/-- `out'` is `out` with the strings of `P`, and in order if `out` is. -/
structure Adds (P : Str → Prop) (out out' : List Str) : Prop where
  sorted : out.Pairwise (· ≤ ·) → out'.Pairwise (· ≤ ·)
  mem_iff : ∀ s, s ∈ out' ↔ s ∈ out ∨ P s

namespace Adds

variable {P Q : Str → Prop} {out out' out'' : List Str}

theorem rfl_of_not (h : ∀ s, ¬ P s) : Adds P out out := ⟨id, by simp [h]⟩

theorem trans (h : Adds P out out') (h' : Adds Q out' out'') :
    Adds (fun s => P s ∨ Q s) out out'' :=
  ⟨h'.sorted ∘ h.sorted, fun s => by rw [h'.mem_iff, h.mem_iff, or_assoc]⟩

theorem congr (h : Adds P out out') (hPQ : ∀ s, P s ↔ Q s) : Adds Q out out' :=
  ⟨h.sorted, fun s => by rw [h.mem_iff, hPQ]⟩

/-- A loop adds what its steps add. -/
theorem foldlM {α : Type} {f : List Str → α → Res (List Str)} {P : α → Str → Prop} {l : List α}
    (h : ∀ a ∈ l, ∀ out, ∃ out', f out a = .ok out' ∧ Adds (P a) out out') (out : List Str) :
    ∃ out', l.foldlM f out = .ok out' ∧ Adds (fun s => ∃ a ∈ l, P a s) out out' := by
  induction l generalizing out with
  | nil => exact ⟨out, rfl, rfl_of_not (by simp)⟩
  | cons a l ih =>
    obtain ⟨ha, hl⟩ := List.forall_mem_cons.mp h
    obtain ⟨out', hout', hadds⟩ := ha out
    obtain ⟨out'', hout'', hadds'⟩ := ih hl out'
    refine ⟨out'', ?_, (hadds.trans hadds').congr fun s => by simp⟩
    rw [List.foldlM_cons, hout']
    exact hout''

end Adds

/-- The strings of the times of a clause. -/
def Clause.IsInterval (c : Clause) (date : Date) (s : Str) : Prop :=
  ∃ r ∈ c.times.opens, interval date.str r = s

theorem getOpenTimeRange_adds (c : Clause) (date : Date) (out : List Str) :
    Adds (c.IsInterval date) out (getOpenTimeRange c.times.toStrs date.str out) := by
  by_cases hopens : c.times.opens = []
  · have hout : getOpenTimeRange c.times.toStrs date.str out = out := by
      rw [getOpenTimeRange, if_pos]
      cases htimes : c.times <;> simp_all [Times.toStrs, Times.opens]
    rw [hout]
    exact .rfl_of_not (by simp [Clause.IsInterval, hopens])
  · have hstrs : c.times.toStrs = c.times.opens.map renderRange := by
      cases htimes : c.times <;> simp_all [Times.toStrs, Times.opens]
    have hhead : ¬ (c.times.toStrs = [] ∨ c.times.toStrs.head? = some []) := by
      rw [hstrs]
      rintro (hnil | hnil)
      · exact hopens (List.map_eq_nil_iff.mp hnil)
      · obtain ⟨r, -, hr⟩ := List.mem_map.mp (List.mem_of_head? hnil)
        exact renderRange_ne_nil r hr
    rw [getOpenTimeRange, if_neg hhead, hstrs, List.map_map]
    refine ⟨fun _ => List.pairwise_insertionSort _ _, fun s => ?_⟩
    simp [List.mem_insertionSort, stampRange_render, Clause.IsInterval]

theorem weekTimes_adds (c : Clause) (date : Date) (out : List Str) :
    ∃ out', weekTimes c.toNode date.str out = .ok out' ∧
      Adds (fun s => (∃ w, getWeekByDate date.str = .ok w ∧ c.weeks.Contains w) ∧
        c.IsInterval date s) out out' := by
  obtain ⟨w, hw⟩ := exists_getWeekByDate date
  obtain ⟨hone, hseven⟩ := getWeekByDate_bounds hw
  have hstep (range : WeekRange) : checkWeek range date.str =
      .ok (inRange range.sWeek range.eWeek w) := by
    rw [checkWeek, hw]
    rfl
  have hloop := Adds.foldlM (l := c.toNode.weekRange)
    (P := fun range s => inRange range.sWeek range.eWeek w ∧ c.IsInterval date s)
    (f := fun outTimes weekRange => do
      if ← checkWeek weekRange date.str then
        pure (getOpenTimeRange c.toNode.timeRange date.str outTimes)
      else pure outTimes) (fun range _ out => ?_) out
  · obtain ⟨out', hout', hadds⟩ := hloop
    refine ⟨out', hout', hadds.congr fun s => ?_⟩
    simp only [hw, Except.ok.injEq, exists_eq_left', ← c.weeks.exists_toRanges hone hseven,
      Clause.toNode, ← and_assoc, exists_and_right]
  · rw [hstep]
    cases inRange range.sWeek range.eWeek w with
    | true => exact ⟨_, rfl, (getOpenTimeRange_adds c date out).congr fun s => by simp⟩
    | false => exact ⟨out, rfl, .rfl_of_not fun s => by simp⟩

theorem nodeTimes_adds (c : Clause) (date : Date) (out : List Str) :
    ∃ out', nodeTimes c.toNode date.str out = .ok out' ∧
      Adds (fun s => c.Matches date ∧ c.IsInterval date s) out out' := by
  have hloop := Adds.foldlM (l := c.toNode.dateRange)
    (P := fun range s => inRange range.sDate range.eDate (date.month * 100 + date.day) ∧
      (∃ w, getWeekByDate date.str = .ok w ∧ c.weeks.Contains w) ∧ c.IsInterval date s)
    (f := fun outTimes dateRange => do
      if ← checkDate dateRange date.str then weekTimes c.toNode date.str outTimes
      else pure outTimes) (fun range _ out => ?_) out
  · obtain ⟨out', hout', hadds⟩ := hloop
    refine ⟨out', hout', hadds.congr fun s => ?_⟩
    simp only [Clause.Matches, ← c.dates.exists_toRanges, Clause.toNode, ← and_assoc,
      exists_and_right]
  · rw [checkDate_str]
    cases inRange range.sDate range.eDate (date.month * 100 + date.day) with
    | true =>
      obtain ⟨out', hout', hadds⟩ := weekTimes_adds c date out
      exact ⟨out', hout', hadds.congr fun s => by simp⟩
    | false => exact ⟨out, rfl, .rfl_of_not fun s => by simp⟩

/-- The result is the union of what the matching clauses open. -/
theorem getTheDateOpenTimeRange_adds (fuel : ℕ) (tmp : DateRange) (rule : List Clause)
    (date : Date) (outTimes : List Str) :
    ∃ out, getTheDateOpenTimeRange (fuel + 4) tmp (renderRule rule) date.str outTimes = .ok out ∧
      Adds (fun s => ∃ c ∈ rule, c.Matches date ∧ c.IsInterval date s) outTimes out := by
  have hloop := Adds.foldlM (l := rule)
    (f := fun outTimes c => nodeTimes c.toNode date.str outTimes)
    (fun c _ out => nodeTimes_adds c date out) outTimes
  obtain ⟨out, hout, hadds⟩ := hloop
  refine ⟨out, ?_, hadds⟩
  rw [getTheDateOpenTimeRange, ruleItems_renderRule, ruleNodes_render]
  exact (List.foldlM_map ..).trans hout

theorem Clause.matches_iff (h : 1970 ≤ date.year) : c.Matches date ↔ c.Contains date := by
  simp [Matches, Contains, getWeekByDate_eq date h]

/-- The opening times of a date are the intervals of the clauses that contain it. -/
theorem getTheDateOpenTimeRange_union (fuel : ℕ) (tmp : DateRange) (rule : List Clause)
    (date : Date) (h : date.InTime) :
    ∃ out, getTheDateOpenTimeRange (fuel + 4) tmp (renderRule rule) date.str = .ok out ∧
      out.Pairwise (· ≤ ·) ∧
      ∀ s, s ∈ out ↔ ∃ c ∈ rule, c.Contains date ∧ ∃ r ∈ c.times.opens, interval date.str r = s := by
  obtain ⟨out, hout, hadds⟩ := getTheDateOpenTimeRange_adds fuel tmp rule date []
  refine ⟨out, hout, hadds.sorted .nil, fun s => ?_⟩
  simp only [hadds.mem_iff, List.not_mem_nil, false_or, Clause.matches_iff h.1, Clause.IsInterval]

/-- `10:00-12:00` -/
def lateMorning : Time × Time :=
  ({ Time.dayStart with hour := ⟨[49, 48], by decide, by decide, by decide +kernel⟩ },
    { Time.dayStart with hour := ⟨[49, 50], by decide, by decide, by decide +kernel⟩ })

/-- `<*><周5><10:00-12:00><SURE>` -/
def fridayRule : List Clause :=
  [⟨.any, .list [.day ⟨5, by decide, by decide⟩], .list [lateMorning], true⟩]

/-- The fifth of January 2018, a Friday. -/
def friday : Date := ⟨2018, 1, 5, by decide, by decide, by decide, by decide, by decide⟩

theorem getTheDateOpenTimeRange_union_friday :
    ∃ out, getTheDateOpenTimeRange 4 ⟨0, 0⟩ (renderRule fridayRule) friday.str = .ok out ∧
      interval friday.str lateMorning ∈ out := by
  obtain ⟨out, hout, -, hmem⟩ :=
    getTheDateOpenTimeRange_union 0 ⟨0, 0⟩ fridayRule friday (by decide +kernel)
  have hweekday : friday.weekday = 5 := by decide +kernel
  refine ⟨out, hout, (hmem _).mpr ⟨_, List.mem_cons_self, ⟨trivial, ?_⟩, ?_⟩⟩
  · exact ⟨_, List.mem_cons_self, hweekday⟩
  · exact ⟨_, List.mem_cons_self, rfl⟩

/-- Also a Friday, but in front of 1970, where the code loses a day. -/
def oldFriday : Date := ⟨1960, 1, 1, by decide, by decide, by decide, by decide, by decide⟩

theorem getWeekByDate_oldFriday :
    oldFriday.weekday = 5 ∧ getWeekByDate oldFriday.str = .ok 6 := by
  constructor
  · decide +kernel
  · rw [getWeekByDate, toTime_str]
    rfl

theorem not_union_oldFriday : ¬ ∀ fuel tmp rule (date : Date),
    (∀ c ∈ rule, c.Contains date → c.times ≠ .closed) →
    ∃ out, getTheDateOpenTimeRange (fuel + 4) tmp (renderRule rule) date.str = .ok out ∧
      out.Pairwise (· ≤ ·) ∧
      ∀ s, s ∈ out ↔ ∃ c ∈ rule, c.Contains date ∧ ∃ r ∈ c.times.opens, interval date.str r = s := by
  intro h
  obtain ⟨hweekday, hcode⟩ := getWeekByDate_oldFriday
  obtain ⟨out, hout, -, hmem⟩ := h 0 ⟨0, 0⟩ fridayRule oldFriday (by simp [fridayRule])
  obtain ⟨out', hout', hadds⟩ :=
    getTheDateOpenTimeRange_adds 0 ⟨0, 0⟩ fridayRule oldFriday []
  obtain rfl : out = out' := Except.ok.inj (hout.symm.trans hout')
  have hin : interval oldFriday.str lateMorning ∈ out :=
    (hmem _).mpr ⟨_, List.mem_cons_self, ⟨trivial, _, List.mem_cons_self, hweekday⟩, _,
      List.mem_cons_self, rfl⟩
  have hnot := (hadds.mem_iff (interval oldFriday.str lateMorning)).mp hin
  simp [fridayRule, Clause.Matches, hcode, Weeks.Contains, WeekItem.Contains] at hnot

/-! ## Closing clauses -/

/-- Some matching clause closes. -/
def Closes (rule : List Clause) (date : Date) : Prop :=
  ∃ c ∈ rule, c.Matches date ∧ c.times = .closed

/-- Some matching clause opens. -/
def Opens (rule : List Clause) (date : Date) : Prop :=
  ∃ c ∈ rule, c.Matches date ∧ c.times.opens ≠ []

theorem eq_nil_iff_not_opens (fuel : ℕ) (tmp : DateRange) (rule : List Clause) (date : Date) :
    getTheDateOpenTimeRange (fuel + 4) tmp (renderRule rule) date.str = .ok [] ↔
      ¬ Opens rule date := by
  obtain ⟨out, hout, hadds⟩ := getTheDateOpenTimeRange_adds fuel tmp rule date []
  have hnil : out = [] ↔ ¬ Opens rule date := by
    simp only [List.eq_nil_iff_forall_not_mem, hadds.mem_iff, List.not_mem_nil, false_or, Opens]
    constructor
    · rintro h ⟨c, hc, hmatches, hopens⟩
      obtain ⟨r, hr⟩ := List.exists_mem_of_ne_nil _ hopens
      exact h _ ⟨c, hc, hmatches, r, hr, rfl⟩
    · rintro h s ⟨c, hc, hmatches, r, hr, -⟩
      exact h ⟨c, hc, hmatches, List.ne_nil_of_mem hr⟩
  rw [hout, Except.ok.injEq, hnil]

/-- `<1月-5月><*><10:00-12:00><SURE>|<1月1日><*><不开门><SURE>` -/
def holidayRule : List Clause :=
  let one : Num := .digit 1
  let five : Num := .digit 5
  let ten : Num := ⟨[49, 48], by decide, by decide, by decide +kernel⟩
  let twelve : Num := ⟨[49, 50], by decide, by decide, by decide +kernel⟩
  let onTheHour (hour : Num) : Time := { Time.dayStart with hour }
  [⟨.list [.months one five], .any, .list [(onTheHour ten, onTheHour twelve)], true⟩,
    ⟨.list [.day one one], .any, .closed, true⟩]

def newYear : Date := ⟨2018, 1, 1, by decide, by decide, by decide, by decide, by decide⟩

end PPView.TimeIR
