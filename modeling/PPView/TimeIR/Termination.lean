import PPView.TimeIR.TimeIR

/-!
# Which rules are read to their end

`getVecStrBetween` takes a part and goes on behind the next `>`. It stops when that was the last
character. Where no `>` is left in what remains, the string stays as it is.
-/

namespace PPView.TimeIR

open Strings (find split)

/-- Empty, or closed by its last character. -/
def Closed (item : Str) : Prop := item = [] ∨ item.getLast? = some 62

instance (item : Str) : Decidable (Closed item) := inferInstanceAs (Decidable (_ ∨ _))

/-- The number of the parts of a closed item. -/
def fields (item : Str) : ℕ := if item = [] then 1 else item.count 62

/-- Every item is closed that has only items of four parts before it. -/
def Vetted : List Str → Prop
  | [] => True
  | item :: items => Closed item ∧ (fields item = 4 → Vetted items)

instance : (items : List Str) → Decidable (Vetted items)
  | [] => inferInstanceAs (Decidable True)
  | item :: items =>
    have : Decidable (Vetted items) := instDecidableVetted items
    inferInstanceAs (Decidable (Closed item ∧ (fields item = 4 → Vetted items)))

variable {fuel : ℕ} {item : Str} {items : List Str}

/-! ## The parts of one item -/

/-- Without a mark the string stays as it is. -/
theorem getVecStrBetween_of_notMem (h : 62 ∉ item) (hne : item ≠ []) :
    ∀ fuel, getVecStrBetween [60] [62] fuel item = .error .outOfFuel
  | 0 => rfl
  | fuel + 1 => by
    have hbreak : (-1 : Int) ≠ (item.length : Int) - 1 := by
      have := List.length_pos_iff.mpr hne
      omega
    have ih := getVecStrBetween_of_notMem h hne fuel
    rw [getVecStrBetween]
    simp only [Strings.find_eq_none h, index, if_neg hbreak]
    simp [ih, bind, Except.bind]

/-- With a mark it becomes what is behind the first one. -/
theorem getVecStrBetween_of_mark {a b : Str} (h : 62 ∉ a) :
    getVecStrBetween [60] [62] (fuel + 1) (a ++ 62 :: b) =
      if b = [] then pure [part [60] [62] (a ++ 62 :: b)]
      else (part [60] [62] (a ++ 62 :: b) :: ·) <$> getVecStrBetween [60] [62] fuel b := by
  have hbreak : ((a.length : Int) = ((a ++ 62 :: b).length : Int) - 1) ↔ b = [] := by
    rw [List.length_append, List.length_cons, ← List.length_eq_zero_iff]
    omega
  have hrest : (a ++ 62 :: b).drop ((a.length : Int) + 1).toNat = b := by
    rw [show ((a.length : Int) + 1).toNat = (a ++ [62]).length by simp,
      show a ++ 62 :: b = (a ++ [62]) ++ b by simp, List.drop_left]
  rw [getVecStrBetween, map_eq_pure_bind]
  simp only [Strings.find_singleton_append h, index, hbreak, List.length_singleton,
    Int.natCast_one, hrest]

theorem closed_append_mark {a b : Str} : Closed (a ++ 62 :: b) ↔ Closed b := by
  cases b with
  | nil => simp [Closed]
  | cons c b => simp [Closed, List.getLast?_append]

theorem fields_append_mark {a b : Str} (h : 62 ∉ a) :
    fields (a ++ 62 :: b) = if b = [] then 1 else fields b + 1 := by
  rw [fields, if_neg (by simp), List.count_append, List.count_eq_zero_of_not_mem h,
    List.count_cons_self]
  by_cases hb : b = []
  · rw [if_pos hb, hb, List.count_nil]
  · rw [if_neg hb, fields, if_neg hb]
    omega

/-- Either the loop goes on, or the item is closed and its parts are counted. -/
theorem getVecStrBetween_cases : ∀ (fuel : ℕ) (item : Str),
    getVecStrBetween [60] [62] fuel item = .error .outOfFuel ∨
      Closed item ∧ ∃ parts, getVecStrBetween [60] [62] fuel item = .ok parts ∧
        parts.length = fields item
  | 0, _ => .inl rfl
  | fuel + 1, item => by
    by_cases hmem : 62 ∈ item
    · obtain ⟨a, b, rfl, ha⟩ := List.eq_append_cons_of_mem hmem
      rw [getVecStrBetween_of_mark ha, closed_append_mark, fields_append_mark ha]
      by_cases hb : b = []
      · exact .inr ⟨.inl hb, _, by rw [if_pos hb]; rfl, by rw [if_pos hb]; rfl⟩
      · simp only [if_neg hb]
        rcases getVecStrBetween_cases fuel b with hrest | ⟨hclosed, parts, hparts, hlen⟩
        · exact .inl (by rw [hrest]; rfl)
        · exact .inr ⟨hclosed, _, by rw [hparts]; rfl, by rw [List.length_cons, hlen]⟩
    · by_cases hne : item = []
      · subst hne
        exact .inr ⟨.inl rfl, [[]], rfl, rfl⟩
      · exact .inl (getVecStrBetween_of_notMem hmem hne _)

/-- The loop ends at a closed item. -/
theorem getVecStrBetween_ne_outOfFuel : ∀ (fuel : ℕ) {item : Str}, Closed item →
    item.length < fuel → getVecStrBetween [60] [62] fuel item ≠ .error .outOfFuel
  | fuel + 1, item, hclosed, hlt => by
    by_cases hmem : 62 ∈ item
    · obtain ⟨a, b, rfl, ha⟩ := List.eq_append_cons_of_mem hmem
      rw [List.length_append, List.length_cons] at hlt
      have ih := getVecStrBetween_ne_outOfFuel fuel (closed_append_mark.mp hclosed) (by omega)
      rw [getVecStrBetween_of_mark ha]
      by_cases hb : b = []
      · simp [hb, pure, Except.pure]
      · obtain ⟨-, parts, hparts, -⟩ := (getVecStrBetween_cases fuel b).resolve_left ih
        simp [hb, hparts]
    · obtain rfl : item = [] := hclosed.resolve_right fun h => hmem (List.mem_of_getLast? h)
      simp [getVecStrBetween, find, index, pure, Except.pure]

/-! ## The items of a rule -/

def itemOk (fuel : ℕ) (item : Str) : Res Bool := do
  let items ← getVecStrBetween [60] [62] fuel item
  pure (items.length = 4)

theorem itemOk_cases (fuel : ℕ) (item : Str) : itemOk fuel item = .error .outOfFuel ∨
    Closed item ∧ itemOk fuel item = .ok (fields item = 4) := by
  rcases getVecStrBetween_cases fuel item with h | ⟨hclosed, parts, hparts, hlen⟩
  · exact .inl (by rw [itemOk, h]; rfl)
  · exact .inr ⟨hclosed, by rw [itemOk, hparts, ← hlen]; rfl⟩

theorem vetted_of_allM (h : items.allM (itemOk fuel) ≠ .error .outOfFuel) : Vetted items := by
  induction items with
  | nil => trivial
  | cons item items ih =>
    rw [List.allM_cons] at h
    rcases itemOk_cases fuel item with hitem | ⟨hclosed, hitem⟩
    · exact absurd (by rw [hitem]; rfl) h
    · refine ⟨hclosed, fun hfour => ih ?_⟩
      simpa [hitem, hfour, bind, Except.bind] using h

theorem allM_ne_outOfFuel (hvetted : Vetted items) (hlt : ∀ item ∈ items, item.length < fuel) :
    items.allM (itemOk fuel) ≠ .error .outOfFuel := by
  induction items with
  | nil => simp [pure, Except.pure]
  | cons item items ih =>
    obtain ⟨hitem, hitems⟩ := List.forall_mem_cons.mp hlt
    have hne := getVecStrBetween_ne_outOfFuel fuel hvetted.1 hitem
    obtain ⟨-, parts, hparts, hlen⟩ := (getVecStrBetween_cases fuel item).resolve_left hne
    have hok : itemOk fuel item = .ok (fields item = 4) := by rw [itemOk, hparts, ← hlen]; rfl
    rw [List.allM_cons, hok]
    by_cases hfour : fields item = 4
    · simpa [hfour, bind, Except.bind] using ih (hvetted.2 hfour) hitems
    · simp [hfour, bind, Except.bind, pure, Except.pure]

theorem exists_fuel (items : List Str) : ∃ fuel, ∀ item ∈ items, item.length < fuel := by
  induction items with
  | nil => exact ⟨0, by simp⟩
  | cons item items ih =>
    obtain ⟨fuel, hfuel⟩ := ih
    refine ⟨max (item.length + 1) fuel, List.forall_mem_cons.mpr ⟨by omega, fun x hx => ?_⟩⟩
    exact (hfuel x hx).trans_le (le_max_right _ _)

/-! ## Behind the parsing nothing loops -/

section Returns

variable {α β : Type}

theorem bind_ne_outOfFuel {x : Res α} {f : α → Res β} (hx : x ≠ .error .outOfFuel)
    (hf : ∀ a, f a ≠ .error .outOfFuel) : x >>= f ≠ .error .outOfFuel := by
  cases x with
  | error e => simpa [bind, Except.bind] using hx
  | ok a => exact hf a

theorem foldlM_ne_outOfFuel {f : β → α → Res β} (hf : ∀ b a, f b a ≠ .error .outOfFuel)
    (l : List α) (b : β) : l.foldlM f b ≠ .error .outOfFuel := by
  induction l generalizing b with
  | nil => simp [pure, Except.pure]
  | cons a l ih =>
    rw [List.foldlM_cons]
    exact bind_ne_outOfFuel (hf b a) ih

theorem pure_ne_outOfFuel (a : α) : (pure a : Res α) ≠ .error .outOfFuel := nofun

end Returns

theorem ofFields_ne_outOfFuel (year month day hour min zone : Int) :
    MyTime.ofFields year month day hour min zone ≠ .error .outOfFuel := by
  refine bind_ne_outOfFuel ?_ fun _ => pure_ne_outOfFuel _
  rw [MyTime.monthOffset]
  split_ifs <;> nofun

theorem toTime_ne_outOfFuel (s : Str) (zone : Int) : MyTime.toTime s zone ≠ .error .outOfFuel := by
  rw [MyTime.toTime]
  dsimp only
  split
  · exact ofFields_ne_outOfFuel _ _ _ _ _ _
  · split <;> exact ofFields_ne_outOfFuel _ _ _ _ _ _

theorem checkDate_ne_outOfFuel (range : DateRange) (inDate : Str) :
    checkDate range inDate ≠ .error .outOfFuel := by
  refine bind_ne_outOfFuel (foldlM_ne_outOfFuel (fun strTime i => ?_) _ _) fun _ =>
    pure_ne_outOfFuel _
  refine bind_ne_outOfFuel ?_ fun _ => pure_ne_outOfFuel _
  rw [charAt]
  split_ifs <;> nofun

theorem checkWeek_ne_outOfFuel (range : WeekRange) (inDate : Str) :
    checkWeek range inDate ≠ .error .outOfFuel :=
  bind_ne_outOfFuel
    (bind_ne_outOfFuel (toTime_ne_outOfFuel inDate 0) fun _ => pure_ne_outOfFuel _) fun _ =>
      pure_ne_outOfFuel _

theorem weekTimes_ne_outOfFuel (node : RuleNode) (inDate : Str) (outTimes : List Str) :
    weekTimes node inDate outTimes ≠ .error .outOfFuel := by
  refine foldlM_ne_outOfFuel (fun outTimes range => ?_) _ _
  refine bind_ne_outOfFuel (checkWeek_ne_outOfFuel range inDate) fun inWeeks => ?_
  split_ifs <;> exact pure_ne_outOfFuel _

theorem nodeTimes_ne_outOfFuel (node : RuleNode) (inDate : Str) (outTimes : List Str) :
    nodeTimes node inDate outTimes ≠ .error .outOfFuel := by
  refine foldlM_ne_outOfFuel (fun outTimes range => ?_) _ _
  refine bind_ne_outOfFuel (checkDate_ne_outOfFuel range inDate) fun inDates => ?_
  split_ifs
  · exact weekTimes_ne_outOfFuel _ _ _
  · exact pure_ne_outOfFuel _

theorem ruleNodes_ne_outOfFuel {tmp : DateRange} (hvetted : Vetted items)
    (hlt : ∀ item ∈ items, item.length < fuel) :
    ruleNodes fuel tmp items ≠ .error .outOfFuel := by
  induction items with
  | nil => exact pure_ne_outOfFuel _
  | cons item items ih =>
    obtain ⟨hitem, hitems⟩ := List.forall_mem_cons.mp hlt
    have hne := getVecStrBetween_ne_outOfFuel fuel hvetted.1 hitem
    obtain ⟨-, parts, hparts, hlen⟩ := (getVecStrBetween_cases fuel item).resolve_left hne
    rw [ruleNodes, hparts]
    dsimp only [bind, Except.bind]
    split
    · split_ifs
      · exact pure_ne_outOfFuel _
      · exact bind_ne_outOfFuel (ih (hvetted.2 hlen.symm) hitems) fun _ => pure_ne_outOfFuel _
    · exact pure_ne_outOfFuel _

/-! ## The functions -/

def Terminates (rule : Str) : Prop :=
  (∃ fuel, checkTimeRule fuel rule ≠ .error .outOfFuel) ∧
    ∀ tmp inDate outTimes,
      ∃ fuel, getTheDateOpenTimeRange fuel tmp rule inDate outTimes ≠ .error .outOfFuel

theorem terminates_iff_vetted (rule : Str) : Terminates rule ↔ Vetted (ruleItems rule) := by
  constructor
  · rintro ⟨⟨fuel, hcheck⟩, -⟩
    rw [checkTimeRule] at hcheck
    by_cases hitems : (ruleItems rule).length ≤ 0
    · rw [List.length_eq_zero_iff.mp (Nat.le_zero.mp hitems)]
      trivial
    · rw [if_neg hitems] at hcheck
      exact vetted_of_allM hcheck
  · intro hvetted
    obtain ⟨fuel, hfuel⟩ := exists_fuel (ruleItems rule)
    refine ⟨⟨fuel, ?_⟩, fun tmp inDate outTimes => ⟨fuel, ?_⟩⟩
    · rw [checkTimeRule]
      split_ifs
      · exact pure_ne_outOfFuel _
      · exact allM_ne_outOfFuel hvetted hfuel
    · refine bind_ne_outOfFuel (ruleNodes_ne_outOfFuel hvetted hfuel) fun nodes => ?_
      cases nodes with
      | none => exact pure_ne_outOfFuel _
      | some nodes =>
        exact foldlM_ne_outOfFuel (fun outTimes node => nodeTimes_ne_outOfFuel _ _ _) _ _

/-- `a|<x>`: the first item has no mark at all. -/
theorem not_terminates_unmarked : ¬ Terminates [97, 124, 60, 120, 62] := by
  rintro ⟨⟨fuel, hcheck⟩, -⟩
  have hitem := getVecStrBetween_of_notMem (show 62 ∉ [97] by decide) (by decide) fuel
  have hitems : ruleItems [97, 124, 60, 120, 62] = [[97], [60, 120, 62]] := by decide
  refine hcheck ?_
  rw [checkTimeRule, hitems, if_neg (by decide), List.allM_cons, hitem]
  rfl

end PPView.TimeIR
