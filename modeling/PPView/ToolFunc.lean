import Mathlib.Data.Finset.Insert
import PPView.Library.Strings
import PPView.MyTime

/-!
# Functions on strings and lists

Those of `ToolFunc.cpp` that other modules use.
-/

namespace PPView.ToolFunc

open Strings (find replace)

def replaceString (oriStr repFrom repTo : Str) : Str := replace repFrom repTo oriStr

/-- The loop of `sepString`. A separator is at least one character long. -/
def sepStringFrom (sep : Str) : ℕ → Str → List Str
  | 0, _ => []
  | fuel + 1, tmpStr =>
    if tmpStr = [] then []
    else
      match find sep tmpStr with
      | some pos =>
        let rest := tmpStr.drop (pos + sep.length)
        tmpStr.take pos :: if rest = [] then [[]] else sepStringFrom sep fuel rest
      | none => [tmpStr]

def sepString (input sep : Str) : List Str := sepStringFrom sep input.length input

def join2String (input : List Str) (sep : Str) : Str := sep.intercalate input

/-- Between single characters stand the parts of the whole string. -/
theorem sepStringFrom_singleton (c : UInt8) : ∀ (fuel : ℕ) (s : Str), s ≠ [] → s.length ≤ fuel →
    sepStringFrom [c] fuel s = s.splitOn c
  | 0, s, hne, hle => absurd (List.length_eq_zero_iff.mp (Nat.le_zero.mp hle)) hne
  | fuel + 1, s, hne, hle => by
    rw [sepStringFrom, if_neg hne]
    rcases Strings.find_singleton_eq (c := c) s with ⟨hfind, hmem⟩ | ⟨a, b, rfl, hmem, hfind⟩
    · rw [hfind, List.splitOn_eq_singleton hmem]
    · have hrest : (a ++ c :: b).drop (a.length + [c].length) = b := by
        rw [show a ++ c :: b = (a ++ [c]) ++ b by simp]
        exact List.drop_left' (by simp)
      rw [List.length_append, List.length_cons] at hle
      rw [hfind, List.splitOn_append_cons_self_of_not_mem hmem]
      simp only [hrest, List.take_left]
      split_ifs with hb
      · rw [hb, List.splitOn_nil]
      · rw [sepStringFrom_singleton c fuel b hb (by omega)]

theorem sepString_singleton (c : UInt8) {s : Str} (h : s ≠ []) :
    sepString s [c] = s.splitOn c :=
  sepStringFrom_singleton c s.length s h (Nat.le_refl _)

theorem sepStringFrom_ne_nil {sep s : Str} {fuel : ℕ} (hs : s ≠ []) (hfuel : s.length ≤ fuel) :
    sepStringFrom sep fuel s ≠ [] := by
  cases fuel with
  | zero => exact absurd (List.length_eq_zero_iff.mp (Nat.le_zero.mp hfuel)) hs
  | succ fuel =>
    rw [sepStringFrom, if_neg hs]
    cases find sep s with
    | none => exact List.cons_ne_nil _ _
    | some pos => exact List.cons_ne_nil _ _

theorem intercalate_sepStringFrom {sep : Str} (hsep : sep ≠ []) (fuel : ℕ) (s : Str)
    (hfuel : s.length ≤ fuel) : sep.intercalate (sepStringFrom sep fuel s) = s := by
  induction fuel generalizing s with
  | zero => rw [List.length_eq_zero_iff.mp (Nat.le_zero.mp hfuel)]; rfl
  | succ fuel ih =>
    rw [sepStringFrom]
    split_ifs with hs
    · rw [hs]
      rfl
    · cases hfind : find sep s with
      | none => simp
      | some pos =>
        obtain ⟨a, b, rfl, rfl⟩ := Strings.eq_append_of_find hfind
        have hpos : 0 < sep.length := List.length_pos_iff.mpr hsep
        have hrest : (a ++ sep ++ b).drop (a.length + sep.length) = b :=
          List.drop_left' (by simp)
        have htake : (a ++ sep ++ b).take a.length = a := by simp
        simp only [hrest, htake]
        split_ifs with hb
        · simp [hb, List.intercalate]
        · simp only [List.length_append] at hfuel
          have hlen : b.length ≤ fuel := by omega
          rw [List.intercalate_cons_of_ne_nil (sepStringFrom_ne_nil hb hlen), ih b hlen]

theorem intercalate_singleton_ne_nil (c : UInt8) {l : List Str} (hnil : l ≠ [])
    (hempty : l ≠ [[]]) : [c].intercalate l ≠ [] := by
  match l with
  | [] => contradiction
  | [x] => simpa using hempty
  | x :: y :: l =>
    rw [List.intercalate_cons_of_ne_nil (List.cons_ne_nil y l)]
    simp

/-- Splitting and joining are inverse to each other. A string is split at any separator; parts
between single characters come back if none contains the character and they are not one empty
part. -/
theorem join2String_sepString :
    (∀ s sep : Str, sep ≠ [] → join2String (sepString s sep) sep = s) ∧
      ∀ (c : UInt8) (l : List Str), (∀ x ∈ l, c ∉ x) → l ≠ [[]] →
        sepString (join2String l [c]) [c] = l := by
  constructor
  · intro s sep hsep
    exact intercalate_sepStringFrom hsep s.length s (Nat.le_refl _)
  · intro c l hl hempty
    by_cases hnil : l = []
    · rw [hnil]
      rfl
    · rw [join2String, sepString_singleton c (intercalate_singleton_ne_nil c hnil hempty),
        List.splitOn_intercalate c hl hnil]

/-- `a--b--` at `--`, and `a,,` at `,`. -/
theorem join2String_sepString_commas :
    join2String (sepString [97, 45, 45, 98, 45, 45] [45, 45]) [45, 45] = [97, 45, 45, 98, 45, 45] ∧
      sepString (join2String [[97], [], []] [44]) [44] = [[97], [], []] :=
  ⟨join2String_sepString.1 _ _ (by decide), join2String_sepString.2 _ _ (by decide) (by decide)⟩

/-! ## Lists without repetition -/

variable {α : Type*} [DecidableEq α]

def uniqListOrderFrom (addSet : Finset α) : List α → List α
  | [] => []
  | a :: inList =>
    if a ∈ addSet then uniqListOrderFrom addSet inList
    else a :: uniqListOrderFrom (insert a addSet) inList

/-- The first of the elements that are equal stays. -/
def uniqListOrder (inList : List α) : List α := uniqListOrderFrom ∅ inList

def mergeListUniq (addList oriList : List α) : List α := uniqListOrder (oriList ++ addList)

variable {a : α} {addSet : Finset α} {inList addList oriList : List α}

theorem mem_uniqListOrderFrom :
    a ∈ uniqListOrderFrom addSet inList ↔ a ∈ inList ∧ a ∉ addSet := by
  induction inList generalizing addSet with
  | nil => simp [uniqListOrderFrom]
  | cons b inList ih =>
    rw [uniqListOrderFrom]
    split_ifs with hb
    · rw [ih]
      grind
    · rw [List.mem_cons, ih]
      grind

theorem nodup_uniqListOrderFrom : (uniqListOrderFrom addSet inList).Nodup := by
  induction inList generalizing addSet with
  | nil => exact List.nodup_nil
  | cons b inList ih =>
    rw [uniqListOrderFrom]
    split_ifs with hb
    · exact ih
    · refine List.nodup_cons.mpr ⟨fun hmem => ?_, ih⟩
      exact (mem_uniqListOrderFrom.mp hmem).2 (Finset.mem_insert_self b addSet)

@[simp] theorem mem_uniqListOrder : a ∈ uniqListOrder inList ↔ a ∈ inList := by
  simp [uniqListOrder, mem_uniqListOrderFrom]

theorem nodup_uniqListOrder : (uniqListOrder inList).Nodup := nodup_uniqListOrderFrom

@[simp] theorem mem_mergeListUniq : a ∈ mergeListUniq addList oriList ↔ a ∈ oriList ∨ a ∈ addList := by
  rw [mergeListUniq, mem_uniqListOrder, List.mem_append]

end PPView.ToolFunc
