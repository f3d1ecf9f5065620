import Mathlib.Data.List.Forall2
import PPView.ConstData.ConstDataCheck
import PPView.TimeIR.OpeningRule

/-!
# Validated rules as they are read

`GetItemsBracket` passes over what stands outside of the brackets. `getVecStrBetween` counts from
the start of what is left, and goes on until a bracket ends it. Both see the same fields where
there is nothing outside.
-/

namespace PPView.ConstDataCheck

open LYConstData (fixMarks fixOpenRule isClosing resortItems)
open Strings (find rfind split)
open TimeIR (getVecStrBetween ruleItems part isMark null)

/-- A field in its brackets. -/
def bracket (field : Str) : Str := 60 :: (field ++ [62])

/-- Fields in brackets, one behind the other. -/
def Bracketed (clause : Str) : Prop :=
  ∃ fields : List Str, (∀ field ∈ fields, 62 ∉ field) ∧ clause = fields.flatMap bracket

/-- The clauses of a rule, the closing ones first. -/
def clauses (openCloseStr : Str) : List Str := resortItems (split 124 openCloseStr)

/-- Nothing stands outside of the brackets, but behind the last clause. -/
def Tight (rules : List Str) : Prop :=
  (∀ clause ∈ rules.dropLast, Bracketed clause) ∧
    ∀ clause ∈ rules.getLast?, ∃ body tail, Bracketed body ∧ 62 ∉ tail ∧ clause = body ++ tail

variable {fuel : ℕ} {rule field a b x y : Str}

/-! ## The fields of a clause -/

theorem itemsBracketFrom_field (ha : 60 ∉ a) (ha' : 62 ∉ a) (hfield : 62 ∉ field) :
    itemsBracketFrom [60] [62] (fuel + 1) (a ++ 60 :: (field ++ 62 :: b)) =
      field :: itemsBracketFrom [60] [62] fuel b := by
  have hleft : find [60] (a ++ 60 :: (field ++ 62 :: b)) = some a.length :=
    Strings.find_singleton_append ha
  have hright : find [62] (a ++ 60 :: (field ++ 62 :: b)) = some (a ++ 60 :: field).length := by
    rw [show a ++ 60 :: (field ++ 62 :: b) = (a ++ 60 :: field) ++ 62 :: b by simp]
    exact Strings.find_singleton_append (by simp [ha', hfield])
  rw [itemsBracketFrom, hleft, hright]
  simp only [List.length_append, List.length_cons, List.length_nil]
  rw [if_pos (by omega)]
  have hbehind : (a ++ 60 :: (field ++ 62 :: b)).drop (a.length + (0 + 1)) = field ++ 62 :: b := by
    rw [show a ++ 60 :: (field ++ 62 :: b) = (a ++ [60]) ++ (field ++ 62 :: b) by simp]
    exact List.drop_left' (by simp)
  have hrest : (a ++ 60 :: (field ++ 62 :: b)).drop (a.length + (field.length + 1) + (0 + 1)) =
      b := by
    rw [show a ++ 60 :: (field ++ 62 :: b) = (a ++ 60 :: (field ++ [62])) ++ b by simp]
    exact List.drop_left' (by simp; omega)
  rw [hbehind, hrest, List.take_left' (by omega)]

theorem itemsBracketFrom_of_notMem (h : 62 ∉ rule) :
    ∀ fuel, itemsBracketFrom [60] [62] fuel rule = []
  | 0 => rfl
  | fuel + 1 => by
    rw [itemsBracketFrom, Strings.find_eq_none h]
    cases find [60] rule <;> rfl

/-- The loop ends where the next left bracket stands behind the right one. -/
theorem itemsBracketFrom_of_right (h : 60 ∉ a) (h' : 62 ∉ a) :
    ∀ fuel, itemsBracketFrom [60] [62] fuel (a ++ 62 :: b) = []
  | 0 => rfl
  | fuel + 1 => by
    rw [itemsBracketFrom, Strings.find_singleton_append h', Strings.find_append_of_notMem h]
    cases find [60] (62 :: b) with
    | none => rfl
    | some i => simp

/-- Either the loop ends at once, or there is a field. -/
theorem itemsBracketFrom_cases (rule : Str) :
    (∀ fuel, itemsBracketFrom [60] [62] fuel rule = []) ∨
      ∃ a field b, rule = a ++ 60 :: (field ++ 62 :: b) ∧ 60 ∉ a ∧ 62 ∉ a ∧ 62 ∉ field := by
  by_cases hright : 62 ∈ rule
  · obtain ⟨c, b, rfl, hc⟩ := List.eq_append_cons_of_mem hright
    by_cases hleft : 60 ∈ c
    · obtain ⟨a, field, rfl, ha⟩ := List.eq_append_cons_of_mem hleft
      obtain ⟨ha', hfield⟩ : 62 ∉ a ∧ 62 ∉ field := by simpa using hc
      exact .inr ⟨a, field, b, by simp, ha, ha', hfield⟩
    · exact .inl (itemsBracketFrom_of_right hleft hc)
  · exact .inl (itemsBracketFrom_of_notMem hright)

theorem itemsBracketFrom_congr (fuel : ℕ) : ∀ (fuel' : ℕ) (rule : Str), rule.length ≤ fuel →
    rule.length ≤ fuel' →
    itemsBracketFrom [60] [62] fuel rule = itemsBracketFrom [60] [62] fuel' rule := by
  induction fuel with
  | zero =>
    intro fuel' rule hle _
    obtain rfl : rule = [] := List.length_eq_zero_iff.mp (Nat.le_zero.mp hle)
    exact (itemsBracketFrom_of_notMem List.not_mem_nil fuel').symm
  | succ fuel ih =>
    intro fuel' rule hle hle'
    rcases itemsBracketFrom_cases rule with hend | ⟨a, field, b, rfl, ha, ha', hfield⟩
    · rw [hend, hend]
    · simp only [List.length_append, List.length_cons] at hle hle'
      obtain ⟨fuel', rfl⟩ : ∃ n, fuel' = n + 1 := ⟨fuel' - 1, by omega⟩
      rw [itemsBracketFrom_field ha ha' hfield, itemsBracketFrom_field ha ha' hfield,
        ih fuel' b (by omega) (by omega)]

theorem getItemsBracket_of_notMem (h : 62 ∉ rule) : getItemsBracket [60] [62] rule = [] :=
  itemsBracketFrom_of_notMem h _

theorem getItemsBracket_field (ha : 60 ∉ a) (ha' : 62 ∉ a) (hfield : 62 ∉ field) :
    getItemsBracket [60] [62] (a ++ 60 :: (field ++ 62 :: b)) =
      field :: getItemsBracket [60] [62] b := by
  have hlen : (a ++ 60 :: (field ++ 62 :: b)).length =
      (a.length + field.length + b.length + 1) + 1 := by
    simp only [List.length_append, List.length_cons]
    omega
  rw [getItemsBracket, hlen, itemsBracketFrom_field ha ha' hfield, getItemsBracket,
    itemsBracketFrom_congr _ b.length b (by omega) le_rfl]

theorem getItemsBracket_cases (rule : Str) : getItemsBracket [60] [62] rule = [] ∨
    ∃ a field b, rule = a ++ 60 :: (field ++ 62 :: b) ∧ 60 ∉ a ∧ 62 ∉ a ∧ 62 ∉ field :=
  (itemsBracketFrom_cases rule).imp_left fun hend => hend _

/-- The brackets and what stands behind the last one. -/
theorem getItemsBracket_flatMap {fields : List Str} (hfields : ∀ field ∈ fields, 62 ∉ field)
    (hb : 62 ∉ b) : getItemsBracket [60] [62] (fields.flatMap bracket ++ b) = fields := by
  induction fields with
  | nil => exact getItemsBracket_of_notMem hb
  | cons field fields ih =>
    obtain ⟨hfield, hfields⟩ := List.forall_mem_cons.mp hfields
    have hitem := getItemsBracket_field (b := fields.flatMap bracket ++ b) List.not_mem_nil
      List.not_mem_nil hfield
    rw [ih hfields] at hitem
    simpa [bracket] using hitem

theorem notMem_of_mem_getItemsBracket : ∀ {rule : Str}, field ∈ getItemsBracket [60] [62] rule →
    62 ∉ field := by
  intro rule hfield
  induction hn : rule.length using Nat.strongRecOn generalizing rule with
  | ind n ih =>
    rcases getItemsBracket_cases rule with hnil | ⟨a, first, b, rfl, ha, ha', hfirst⟩
    · rw [hnil] at hfield
      contradiction
    · simp only [List.length_append, List.length_cons] at hn
      rw [getItemsBracket_field ha ha' hfirst, List.mem_cons] at hfield
      rcases hfield with rfl | hfield
      · exact hfirst
      · exact ih b.length (by omega) hfield rfl

/-- Up to the first right bracket. -/
theorem getItemsBracket_right (h : 62 ∉ a) : ∃ first : List Str, ∀ b,
    getItemsBracket [60] [62] (a ++ 62 :: b) = first.flatMap fun field =>
      field :: getItemsBracket [60] [62] b := by
  by_cases hleft : 60 ∈ a
  · obtain ⟨a, field, rfl, ha⟩ := List.eq_append_cons_of_mem hleft
    obtain ⟨ha', hfield⟩ : 62 ∉ a ∧ 62 ∉ field := by simpa using h
    refine ⟨[field], fun b => ?_⟩
    rw [List.append_assoc, List.cons_append, getItemsBracket_field ha ha' hfield]
    simp
  · exact ⟨[], fun b => itemsBracketFrom_of_right hleft h _⟩

/-- What stands behind the last right bracket plays no role. -/
theorem getItemsBracket_tail (hy : 62 ∉ y) :
    getItemsBracket [60] [62] (x ++ 62 :: y) = getItemsBracket [60] [62] (x ++ [62]) := by
  induction hn : x.length using Nat.strongRecOn generalizing x with
  | ind n ih =>
    by_cases hmem : 62 ∈ x
    · obtain ⟨a, x, rfl, ha⟩ := List.eq_append_cons_of_mem hmem
      rw [List.length_append, List.length_cons] at hn
      obtain ⟨first, hfirst⟩ := getItemsBracket_right ha
      rw [List.append_assoc, List.append_assoc, List.cons_append, List.cons_append, hfirst, hfirst,
        ih x.length (by omega) rfl]
    · obtain ⟨first, hfirst⟩ := getItemsBracket_right hmem
      rw [hfirst, hfirst, getItemsBracket_of_notMem hy, getItemsBracket_of_notMem List.not_mem_nil]

/-! ## Correcting the marks -/

theorem notMem_wideMarks {c : UInt8} (hc : isMark c) :
    c ∉ LYConstData.enDash ∧ c ∉ LYConstData.wideColon ∧ c ∉ [(45 : UInt8)] ∧
      c ∉ [(58 : UInt8)] := by
  obtain (rfl | rfl) | rfl : (c = 60 ∨ c = 62) ∨ c = 124 := by simpa [isMark] using hc
  all_goals decide

theorem fixMarks_append {c : UInt8} (hc : isMark c) (a b : Str) :
    fixMarks (a ++ c :: b) = fixMarks a ++ c :: fixMarks b := by
  obtain ⟨hdash, hcolon, -⟩ := notMem_wideMarks hc
  simp only [fixMarks, ToolFunc.replaceString]
  rw [Strings.replace_append hdash, Strings.replace_append hcolon]

theorem fixMarks_eq_nil_iff (s : Str) : fixMarks s = [] ↔ s = [] := by
  simp only [fixMarks, ToolFunc.replaceString]
  rw [Strings.replace_eq_nil_iff (by simp), Strings.replace_eq_nil_iff (by simp)]

theorem mem_fixMarks {c : UInt8} (hc : isMark c) {s : Str} (h : c ∈ fixMarks s) : c ∈ s := by
  obtain ⟨hdash, hcolon, hdash', hcolon'⟩ := notMem_wideMarks hc
  exact Strings.mem_replace hdash hdash' (Strings.mem_replace hcolon hcolon' h)

theorem isClosing_fixMarks (s : Str) : isClosing (fixMarks s) = isClosing s := by
  simp only [fixMarks, ToolFunc.replaceString, isClosing, TimeIR.bukaimen, LYConstData.enDash,
    LYConstData.wideColon]
  rw [Strings.find_replace (by decide) (by decide) (by decide +kernel) (by simp),
    Strings.find_replace (by decide) (by decide) (by decide +kernel) (by simp)]

theorem splitOn_fixMarks (s : Str) :
    (fixMarks s).splitOn 124 = (s.splitOn 124).map fixMarks :=
  Strings.splitOn_map (fixMarks_append rfl) (fun _ => mem_fixMarks rfl) s

theorem resortItems_map_fixMarks (items : List Str) :
    resortItems (items.map fixMarks) = (resortItems items).map fixMarks := by
  simp [resortItems, List.filter_map, Function.comp_def, isClosing_fixMarks]

/-! ## The parts of a clause -/

/-- The count is right where nothing stands before the bracket. -/
theorem part_eq_iff (hleft : 60 ∉ a) (hright : 62 ∉ a) (hfield : 62 ∉ field) :
    part [60] [62] (a ++ 60 :: (field ++ 62 :: b)) = field ↔ a = [] := by
  constructor
  · intro hpart
    have hopen : find [60] (a ++ 60 :: (field ++ 62 :: b)) = some a.length :=
      Strings.find_singleton_append hleft
    have hclose : find [62] (a ++ 60 :: (field ++ 62 :: b)) =
        some (a ++ 60 :: field).length := by
      rw [show a ++ 60 :: (field ++ 62 :: b) = (a ++ 60 :: field) ++ 62 :: b by simp]
      exact Strings.find_singleton_append (by simp [hright, hfield])
    have hlen := congrArg List.length hpart
    rw [part, hopen, hclose, TimeIR.substr] at hlen
    simp only [TimeIR.index, List.length_append, List.length_cons, List.length_nil] at hlen
    rw [if_neg (by omega), List.length_take, List.length_drop, List.length_append,
      List.length_cons, List.length_append, List.length_cons] at hlen
    exact List.length_eq_zero_iff.mp (by omega)
  · rintro rfl
    exact TimeIR.part_field b hfield

theorem getVecStrBetween_ne_nil (fuel : ℕ) (item : Str) :
    getVecStrBetween [60] [62] fuel item ≠ .ok [] := by
  intro h
  cases fuel with
  | zero => simp [getVecStrBetween] at h
  | succ fuel =>
    rw [getVecStrBetween] at h
    split_ifs at h
    · cases h
    · obtain ⟨rest, -, hrest⟩ := bind_ok.mp h
      cases hrest

/-- A clause that is read as its fields consists of them. -/
theorem eq_flatMap_of_getVecStrBetween (fuel : ℕ) : ∀ clause : Str,
    getItemsBracket [60] [62] clause ≠ [] →
    getVecStrBetween [60] [62] fuel (fixMarks clause) =
      .ok ((getItemsBracket [60] [62] clause).map fixMarks) →
    clause = (getItemsBracket [60] [62] clause).flatMap bracket := by
  induction fuel with
  | zero => exact fun _ _ h => by cases h
  | succ fuel ih =>
    intro clause hne h
    obtain ⟨a, field, b, rfl, ha, ha', hfield⟩ := (getItemsBracket_cases clause).resolve_left hne
    have hfix : fixMarks (a ++ 60 :: (field ++ 62 :: b)) =
        fixMarks a ++ 60 :: (fixMarks field ++ 62 :: fixMarks b) := by
      rw [fixMarks_append rfl, fixMarks_append rfl]
    have hfa : 60 ∉ fixMarks a := fun hmem => ha (mem_fixMarks rfl hmem)
    have hfa' : 62 ∉ fixMarks a := fun hmem => ha' (mem_fixMarks rfl hmem)
    have hff : 62 ∉ fixMarks field := fun hmem => hfield (mem_fixMarks rfl hmem)
    have hfirst : 62 ∉ fixMarks a ++ 60 :: fixMarks field := by simp [hfa', hff]
    have hpart := part_eq_iff (b := fixMarks b) hfa hfa' hff
    rw [getItemsBracket_field ha ha' hfield, hfix, ← List.cons_append, ← List.append_assoc,
      TimeIR.getVecStrBetween_of_mark hfirst, List.map_cons] at h
    rw [← List.cons_append, ← List.append_assoc] at hpart
    rw [getItemsBracket_field ha ha' hfield, List.flatMap_cons]
    by_cases hb : fixMarks b = []
    · rw [if_pos hb] at h
      obtain ⟨hhead, -⟩ := List.cons.inj (Except.ok.inj h)
      obtain rfl : a = [] := (fixMarks_eq_nil_iff a).mp (hpart.mp hhead)
      obtain rfl : b = [] := (fixMarks_eq_nil_iff b).mp hb
      simp [bracket, getItemsBracket_of_notMem]
    · rw [if_neg hb] at h
      obtain ⟨rest, hrest, hcons⟩ := bind_ok.mp h
      obtain ⟨hhead, rfl⟩ := List.cons.inj (Except.ok.inj hcons)
      obtain rfl : a = [] := (fixMarks_eq_nil_iff a).mp (hpart.mp hhead)
      have hbne : getItemsBracket [60] [62] b ≠ [] := by
        intro hnil
        rw [hnil] at hrest
        exact getVecStrBetween_ne_nil _ _ hrest
      rw [← ih b hbne hrest]
      simp [bracket]

theorem getVecStrBetween_of_bracketed (fuel : ℕ) {fields : List Str}
    (hfields : ∀ field ∈ fields, 62 ∉ field) (hne : fields ≠ []) :
    getVecStrBetween [60] [62] (fuel + fields.length) (fixMarks (fields.flatMap bracket)) =
      .ok (fields.map fixMarks) := by
  have hfix : fixMarks (fields.flatMap bracket) =
      (fields.map fixMarks).flatMap fun part => 60 :: (part ++ [62]) := by
    clear hne
    induction fields with
    | nil => rfl
    | cons field fields ih =>
      have hitem : (field :: fields).flatMap bracket =
          [] ++ 60 :: (field ++ 62 :: fields.flatMap bracket) := by
        simp [bracket]
      rw [hitem, fixMarks_append rfl, fixMarks_append rfl,
        ih (List.forall_mem_cons.mp hfields).2, List.map_cons, List.flatMap_cons]
      simp [(fixMarks_eq_nil_iff []).mpr]
  rw [hfix, ← List.length_map (f := fixMarks)]
  refine TimeIR.getVecStrBetween_fields (List.forall_mem_map.mpr fun field hfield hmem => ?_)
    (by simpa using hne)
  exact hfields field hfield (mem_fixMarks rfl hmem)

/-! ## The clauses of a rule -/

variable {str e : Str} {init : List Str}

theorem resortItems_concat_nil (items : List Str) :
    resortItems (items ++ [[]]) = resortItems items ++ [[]] := by
  simp [resortItems, List.filter_append, show isClosing [] = false by decide]

theorem mem_clauses : x ∈ clauses str ↔ x ∈ split 124 str := by
  simp only [clauses, resortItems, List.mem_append, List.mem_filter]
  cases isClosing x <;> simp

/-- The corrected rule has the corrected clauses. -/
theorem fixOpenRule_eq (h : split 124 str ≠ []) : ∃ e, 62 ∉ e ∧
    fixOpenRule str = [124].intercalate ((clauses str).map fixMarks) ++ e := by
  have hstr : fixMarks str ≠ [] := by
    rw [ne_eq, fixMarks_eq_nil_iff]
    rintro rfl
    exact h Strings.split_nil
  have hne : (clauses str).map fixMarks ≠ [] := by
    obtain ⟨x, hx⟩ := List.exists_mem_of_ne_nil _ h
    simpa using List.ne_nil_of_mem (mem_clauses.mpr hx)
  rw [fixOpenRule, ToolFunc.sepString_singleton 124 hstr, splitOn_fixMarks,
    resortItems_map_fixMarks, ToolFunc.join2String]
  rcases Strings.splitOn_eq_split 124 str with hsplit | hsplit
  · exact ⟨[], List.not_mem_nil, by rw [hsplit, List.append_nil, clauses]⟩
  · refine ⟨[124], by decide, ?_⟩
    rw [hsplit, resortItems_concat_nil, ← clauses, List.map_append, List.map_singleton,
      (fixMarks_eq_nil_iff []).mpr rfl]
    generalize (clauses str).map fixMarks = items at hne
    obtain ⟨init, last, rfl⟩ := (List.eq_nil_or_concat' items).resolve_left hne
    rw [Strings.intercalate_concat, Strings.intercalate_concat]
    simp

/-- The rule is cut off behind its last right bracket. -/
theorem ruleItems_append (h : 62 ∉ y) : ruleItems (x ++ 62 :: y) = split 124 (x ++ [62]) := by
  have hcut : TimeIR.substr (x ++ 62 :: y) 0 (x.length + 1) = x ++ [62] := by
    rw [TimeIR.substr, if_neg (by omega), show x ++ 62 :: y = (x ++ [62]) ++ y by simp]
    exact List.take_left' (by simp)
  rw [ruleItems, Strings.rfind_singleton_append h, TimeIR.index, hcut]

theorem ruleItems_fixOpenRule (hclauses : clauses str = init ++ [x ++ 62 :: y]) (hy : 62 ∉ y)
    (hinit : ∀ z ∈ init, z ≠ []) :
    ruleItems (fixOpenRule str) = (init ++ [x ++ [62]]).map fixMarks := by
  have hbar : ∀ z ∈ clauses str, 124 ∉ fixMarks z := by
    intro z hz hmem
    refine Strings.notMem_of_mem_splitOn (s := str) ?_ (mem_fixMarks rfl hmem)
    rcases Strings.splitOn_eq_split 124 str with hsplit | hsplit <;> rw [hsplit]
    · exact mem_clauses.mp hz
    · exact List.mem_append_left _ (mem_clauses.mp hz)
  have hmem : x ++ 62 :: y ∈ clauses str := by simp [hclauses]
  have hsplit : split 124 str ≠ [] := List.ne_nil_of_mem (mem_clauses.mp hmem)
  obtain ⟨e, he, heq⟩ := fixOpenRule_eq hsplit
  have htail : 62 ∉ fixMarks y ++ e := by
    simpa [he] using fun hmem => hy (mem_fixMarks rfl hmem)
  have hlast : fixMarks (x ++ [62]) = fixMarks x ++ [62] := by
    rw [fixMarks_append rfl, (fixMarks_eq_nil_iff []).mpr rfl]
  rw [hclauses] at hbar
  simp only [List.forall_mem_append, List.forall_mem_singleton] at hbar
  rw [fixMarks_append rfl] at hbar
  have hjoin : [124].intercalate ((init ++ [x ++ [62]]).map fixMarks) =
      ((init.map fixMarks).flatMap fun z => z ++ [124]) ++ (fixMarks x ++ [62]) := by
    rw [List.map_append, List.map_singleton, hlast, Strings.intercalate_concat]
  rw [heq, hclauses, List.map_append, List.map_singleton, fixMarks_append rfl,
    Strings.intercalate_concat, List.append_assoc, List.append_assoc, List.cons_append,
    ← List.append_assoc, ruleItems_append htail, List.append_assoc, ← hjoin]
  refine Strings.split_intercalate (List.forall_mem_map.mpr fun z hz => ?_)
    (List.forall_mem_map.mpr fun z hz => ?_)
  · rcases List.mem_append.mp hz with hz | hz
    · exact hbar.1 z hz
    · rw [List.mem_singleton.mp hz, hlast]
      simpa using fun hmem => hbar.2 (List.mem_append_left _ hmem)
  · rw [ne_eq, fixMarks_eq_nil_iff]
    rcases List.mem_append.mp hz with hz | hz
    · exact hinit z hz
    · rw [List.mem_singleton.mp hz]
      simp

/-! ## Validated rules -/

theorem checkRule_iff : checkRule rule ↔ ∃ dates weeks days type,
    getItemsBracket [60] [62] rule = [dates, weeks, days, type] ∧ checkDate dates ∧
      checkWeek weeks ∧ checkDay days ∧ checkSure type := by
  rw [checkRule, Bool.and_eq_true, decide_eq_true_iff]
  constructor
  · rintro ⟨-, h⟩
    split at h
    · exact ⟨_, _, _, _, by assumption, by simpa [and_assoc] using h⟩
    · contradiction
  · rintro ⟨dates, weeks, days, type, hitems, h⟩
    refine ⟨?_, by simpa [hitems, and_assoc] using h⟩
    rintro rfl
    rw [getItemsBracket_of_notMem List.not_mem_nil] at hitems
    contradiction

theorem checkOpenClose_iff : checkOpenClose str ↔
    clauses str ≠ [] ∧ ∀ clause ∈ clauses str, checkRule clause := by
  have hnil : clauses str = [] ↔ split 124 str = [] := by
    simp only [List.eq_nil_iff_forall_not_mem, mem_clauses]
  simp only [checkOpenClose, Bool.and_eq_true, decide_eq_true_iff, List.all_eq_true, ne_eq, hnil,
    mem_clauses, List.length_eq_zero_iff]

/-- Each part that is read is what the corrected clause has as its fields. -/
def ReadsFields (fuel : ℕ) (items rules : List Str) : Prop :=
  List.Forall₂ (fun item clause => getVecStrBetween [60] [62] fuel item =
    .ok ((getItemsBracket [60] [62] clause).map fixMarks)) items rules

/-- The corrected rule is split into the corrected fields of its clauses, `CheckTimeRule` accepts
it, and only a clause of the type `NULL` makes it fall back, on whatever date. -/
structure ReadAsValidated (str : Str) : Prop where
  fields : ∃ fuel, ReadsFields fuel (ruleItems (fixOpenRule str)) (clauses str)
  accepted : ∃ fuel, TimeIR.checkTimeRule fuel (fixOpenRule str) = .ok true
  fallback : ∃ fuel, ∀ tmp, ∃ nodes,
    TimeIR.ruleNodes fuel tmp (ruleItems (fixOpenRule str)) = .ok nodes ∧
      (nodes = none → ∃ clause ∈ clauses str, (getItemsBracket [60] [62] clause)[3]? = some null)

variable {items rules : List Str}

theorem allM_itemOk (hfields : ReadsFields fuel items rules)
    (hcheck : ∀ clause ∈ rules, checkRule clause) :
    items.allM (TimeIR.itemOk fuel) = .ok true := by
  induction hfields with
  | nil => rfl
  | cons hitem _ ih =>
    obtain ⟨hclause, hcheck⟩ := List.forall_mem_cons.mp hcheck
    obtain ⟨dates, weeks, days, type, hfour, -⟩ := checkRule_iff.mp hclause
    rw [List.allM_cons, TimeIR.itemOk, hitem, hfour]
    exact ih hcheck

theorem eq_null_of_fixMarks {type : Str} (hsure : checkSure type) (h : fixMarks type = null) :
    type = null := by
  obtain (rfl | rfl) | rfl : (type = null ∨ type = TimeIR.sure) ∨ type = TimeIR.notSure := by
    simpa [checkSure] using hsure
  · rfl
  · exact absurd h (by decide)
  · exact absurd h (by decide)

theorem ruleNodes_of_fields (tmp : TimeIR.DateRange) (hfields : ReadsFields fuel items rules)
    (hcheck : ∀ clause ∈ rules, checkRule clause) :
    ∃ nodes, TimeIR.ruleNodes fuel tmp items = .ok nodes ∧
      (nodes = none → ∃ clause ∈ rules, (getItemsBracket [60] [62] clause)[3]? = some null) := by
  induction hfields with
  | nil => exact ⟨some [], rfl, nofun⟩
  | cons hitem _ ih =>
    obtain ⟨hclause, hcheck⟩ := List.forall_mem_cons.mp hcheck
    obtain ⟨dates, weeks, days, type, hfour, -, -, -, hsure⟩ := checkRule_iff.mp hclause
    obtain ⟨nodes, hnodes, hnone⟩ := ih hcheck
    rw [TimeIR.ruleNodes, hitem, hfour]
    by_cases hnull : fixMarks type = null
    · refine ⟨none, by simp [hnull, bind, Except.bind, pure, Except.pure], fun _ => ?_⟩
      refine ⟨_, List.mem_cons_self, ?_⟩
      rw [hfour, eq_null_of_fixMarks hsure hnull]
      rfl
    · refine ⟨_, by simp [hnull, hnodes, bind, Except.bind, pure, Except.pure]; rfl, fun h => ?_⟩
      obtain ⟨clause, hmem, htype⟩ := hnone (by simpa using h)
      exact ⟨clause, List.mem_cons_of_mem _ hmem, htype⟩

/-! ## Which rules are read as they were validated -/

theorem length_getItemsBracket (h : checkRule rule) :
    (getItemsBracket [60] [62] rule).length = 4 := by
  obtain ⟨dates, weeks, days, type, hfour, -⟩ := checkRule_iff.mp h
  rw [hfour]
  rfl

theorem mem_of_checkRule (h : checkRule rule) : 62 ∈ rule := by
  by_contra hmem
  have hlen := length_getItemsBracket h
  rw [getItemsBracket_of_notMem hmem] at hlen
  contradiction

/-- Every clause is split whole, but the last one up to its last bracket. -/
theorem readsFields_iff (hclauses : clauses str = init ++ [x ++ 62 :: y]) (hy : 62 ∉ y)
    (hinit : ∀ z ∈ init, z ≠ []) :
    ReadsFields fuel (ruleItems (fixOpenRule str)) (clauses str) ↔
      ∀ clause ∈ init ++ [x ++ [62]], getVecStrBetween [60] [62] fuel (fixMarks clause) =
        .ok ((getItemsBracket [60] [62] clause).map fixMarks) := by
  have htail : (init ++ [x ++ 62 :: y]).map (getItemsBracket [60] [62]) =
      (init ++ [x ++ [62]]).map (getItemsBracket [60] [62]) := by
    simp [getItemsBracket_tail hy]
  rw [ReadsFields, ruleItems_fixOpenRule hclauses hy hinit, hclauses,
    List.forall₂_map_left_iff, ← List.forall₂_map_right_iff (f := getItemsBracket [60] [62])
      (R := fun clause fields => getVecStrBetween [60] [62] fuel (fixMarks clause) =
        .ok (fields.map fixMarks)),
    htail, List.forall₂_map_right_iff, List.forall₂_same]

theorem bracketed_of_reads (h : (getItemsBracket [60] [62] rule).length = 4)
    (hreads : getVecStrBetween [60] [62] fuel (fixMarks rule) =
      .ok ((getItemsBracket [60] [62] rule).map fixMarks)) : Bracketed rule := by
  refine ⟨getItemsBracket [60] [62] rule, fun field => notMem_of_mem_getItemsBracket, ?_⟩
  refine eq_flatMap_of_getVecStrBetween fuel rule (fun hnil => ?_) hreads
  rw [hnil] at h
  contradiction

theorem reads_of_bracketed (h : (getItemsBracket [60] [62] rule).length = 4)
    (hrule : Bracketed rule) : getVecStrBetween [60] [62] 4 (fixMarks rule) =
      .ok ((getItemsBracket [60] [62] rule).map fixMarks) := by
  obtain ⟨fields, hfields, rfl⟩ := hrule
  have hitems := getItemsBracket_flatMap hfields (b := []) List.not_mem_nil
  rw [List.append_nil] at hitems
  rw [hitems] at h ⊢
  have hreads := getVecStrBetween_of_bracketed 0 hfields (by rintro rfl; contradiction)
  rwa [h] at hreads

/-- A validated rule is read as it was validated iff nothing stands outside of its brackets. -/
theorem readAsValidated_iff (h : checkOpenClose str) :
    ReadAsValidated str ↔ Tight (clauses str) := by
  obtain ⟨hne, hcheck⟩ := checkOpenClose_iff.mp h
  obtain ⟨init, last, hclauses⟩ := (List.eq_nil_or_concat' (clauses str)).resolve_left hne
  have hall := hcheck
  rw [hclauses, List.forall_mem_append, List.forall_mem_singleton] at hall
  obtain ⟨hinit, hlast⟩ := hall
  have hinitne : ∀ z ∈ init, z ≠ [] := fun z hz =>
    List.ne_nil_of_mem (mem_of_checkRule (hinit z hz))
  rw [Tight, hclauses, List.dropLast_concat, List.getLast?_concat]
  constructor
  · rintro ⟨⟨fuel, hfields⟩, -, -⟩
    obtain ⟨x, y, rfl, hy⟩ := Strings.eq_append_cons_of_mem_last (mem_of_checkRule hlast)
    have hreads := (readsFields_iff hclauses hy hinitne).mp hfields
    rw [List.forall_mem_append, List.forall_mem_singleton] at hreads
    refine ⟨fun clause hclause =>
      bracketed_of_reads (length_getItemsBracket (hinit clause hclause)) (hreads.1 clause hclause),
      fun clause hclause => ?_⟩
    obtain rfl := Option.mem_some.mp hclause
    have hbody : (getItemsBracket [60] [62] (x ++ [62])).length = 4 :=
      getItemsBracket_tail hy ▸ length_getItemsBracket hlast
    exact ⟨x ++ [62], y, bracketed_of_reads hbody hreads.2, hy, by simp⟩
  · rintro ⟨htight, htail⟩
    obtain ⟨body, tail, hbody, hnotMem, rfl⟩ := htail last rfl
    have hmem : 62 ∈ body :=
      (List.mem_append.mp (mem_of_checkRule hlast)).resolve_right hnotMem
    obtain ⟨x, rfl⟩ : ∃ x, body = x ++ [62] := by
      obtain ⟨fields, -, rfl⟩ := hbody
      rcases List.eq_nil_or_concat' fields with rfl | ⟨fields, field, rfl⟩
      · simp at hmem
      · exact ⟨fields.flatMap bracket ++ 60 :: field, by simp [bracket]⟩
    rw [List.append_assoc, List.singleton_append] at hclauses hlast
    have hfields : ReadsFields 4 (ruleItems (fixOpenRule str)) (clauses str) := by
      rw [readsFields_iff hclauses hnotMem hinitne, List.forall_mem_append,
        List.forall_mem_singleton]
      refine ⟨fun clause hclause =>
        reads_of_bracketed (length_getItemsBracket (hinit clause hclause)) (htight clause hclause),
        reads_of_bracketed ?_ hbody⟩
      rw [← getItemsBracket_tail hnotMem]
      exact length_getItemsBracket hlast
    refine ⟨⟨4, hfields⟩, ⟨4, ?_⟩, 4, fun tmp => ruleNodes_of_fields tmp hfields hcheck⟩
    have hitems : ruleItems (fixOpenRule str) ≠ [] := by
      rw [ruleItems_fixOpenRule hclauses hnotMem hinitne]
      simp
    rw [TimeIR.checkTimeRule, if_neg (by simpa using hitems)]
    exact allM_itemOk hfields hcheck

/-- `<*><*><*><SURE>` -/
def everyDay : Str := [60, 42, 62, 60, 42, 62, 60, 42, 62, 60, 83, 85, 82, 69, 62]

/-- A space behind the last clause is cut off. -/
theorem readAsValidated_iff_everyDay :
    ReadAsValidated (everyDay ++ 124 :: (everyDay ++ [32])) := by
  have hevery : Bracketed everyDay :=
    ⟨[TimeIR.star, TimeIR.star, TimeIR.star, TimeIR.sure], by decide, by decide⟩
  have hclauses : clauses (everyDay ++ 124 :: (everyDay ++ [32])) =
      [everyDay, everyDay ++ [32]] := by decide +kernel
  refine (readAsValidated_iff (by decide +kernel)).mpr ⟨fun clause hclause => ?_,
    fun clause hclause => ?_⟩ <;> rw [hclauses] at hclause
  · obtain rfl : clause = everyDay := by simpa using hclause
    exact hevery
  · obtain rfl : everyDay ++ [32] = clause := by simpa using hclause
    exact ⟨everyDay, [32], hevery, by decide, rfl⟩

/-- Behind the first clause it stays, and the split of the clause does not end. -/
theorem not_readAsValidated : ¬ ∀ str, checkOpenClose str → ReadAsValidated str := by
  intro hall
  obtain ⟨⟨fuel, hfields⟩, -, -⟩ := hall (everyDay ++ 32 :: 124 :: everyDay) (by decide +kernel)
  have hitems : ruleItems (fixOpenRule (everyDay ++ 32 :: 124 :: everyDay)) =
      [everyDay ++ [32], everyDay] := by decide +kernel
  rw [hitems] at hfields
  cases hclauses : clauses (everyDay ++ 32 :: 124 :: everyDay) with
  | nil => simp [hclauses, ReadsFields] at hfields
  | cons clause rules =>
    rw [hclauses] at hfields
    obtain ⟨hfirst, -⟩ := List.forall₂_cons.mp hfields
    rcases TimeIR.getVecStrBetween_cases fuel (everyDay ++ [32]) with herror | ⟨hclosed, -⟩
    · rw [herror] at hfirst
      contradiction
    · exact absurd hclosed (by decide)

end PPView.ConstDataCheck
