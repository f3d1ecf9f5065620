import Mathlib.Order.MinMax
import Mathlib.Tactic.Order
import Mathlib.Tactic.SplitIfs

/-!
# Filling gaps

Intervals of a linear order, one behind the other from a start on, and the gaps between them. An
interval has its start, but not its end.
-/

namespace PPView.Gaps

variable {D : Type*} [LinearOrder D] {a e : D} {l : List (D × D)}

def Contains (d : D) (s : D × D) : Bool := s.1 ≤ d ∧ d < s.2

/-- The intervals begin at `a` or later, and each one behind the end of the one before. -/
def Apart : D → List (D × D) → Prop
  | _, [] => True
  | a, s :: l => a ≤ s.1 ∧ s.1 ≤ s.2 ∧ Apart s.2 l

/-- The gaps in front of the intervals. -/
def between : D → List (D × D) → List (D × D)
  | _, [] => []
  | a, s :: l => (if a < s.1 then [(a, s.1)] else []) ++ between s.2 l

def lastEnd : D → List (D × D) → D
  | a, [] => a
  | _, s :: l => lastEnd s.2 l

/-- All gaps up to `e`. -/
def gaps (a : D) (l : List (D × D)) (e : D) : List (D × D) :=
  between a l ++ if lastEnd a l < e then [(lastEnd a l, e)] else []

theorem gaps_cons (a : D) (s : D × D) (l : List (D × D)) (e : D) :
    gaps a (s :: l) e = (if a < s.1 then [(a, s.1)] else []) ++ gaps s.2 l e := by
  rw [gaps, between, lastEnd, List.append_assoc, gaps]

/-- A point between the start and the end is in one interval or gap, and no other point is. -/
theorem countP_fill (h : Apart a l) (hl : ∀ s ∈ l, s.2 ≤ e) (hae : a ≤ e) (d : D) :
    (l ++ gaps a l e).countP (Contains d) = if a ≤ d ∧ d < e then 1 else 0 := by
  induction l generalizing a with
  | nil =>
    rw [gaps, between, lastEnd, List.nil_append, List.nil_append]
    by_cases hlt : a < e
    · rw [if_pos hlt, List.countP_singleton]
      simp [Contains]
    · rw [if_neg hlt, List.countP_nil, if_neg]
      rintro ⟨had, hde⟩
      order
  | cons s l ih =>
    obtain ⟨has, hs, hrest⟩ := h
    have hse := hl s List.mem_cons_self
    have hfirst : (if a < s.1 then [(a, s.1)] else []).countP (Contains d) =
        if a ≤ d ∧ d < s.1 then 1 else 0 := by
      by_cases hlt : a < s.1
      · rw [if_pos hlt, List.countP_singleton]
        simp [Contains]
      · rw [if_neg hlt, List.countP_nil, if_neg]
        rintro ⟨had, hds⟩
        order
    have htail := ih hrest (fun s' hs' => hl s' (List.mem_cons_of_mem _ hs')) hse
    rw [List.countP_append] at htail
    rw [gaps_cons, List.cons_append, List.countP_cons, List.countP_append,
      List.countP_append, hfirst]
    -- The point is in front of the interval, in it, or behind it.
    have hcases : (if s.2 ≤ d ∧ d < e then 1 else 0) + (if Contains d s then 1 else 0) +
        (if a ≤ d ∧ d < s.1 then 1 else 0) = if a ≤ d ∧ d < e then 1 else 0 := by
      simp only [Contains, decide_eq_true_eq]
      split_ifs
      all_goals first | rfl | (exfalso; grind)
    omega

/-- Every gap lies between the start and the end. -/
theorem mem_gaps (h : Apart a l) (hl : ∀ s ∈ l, s.2 ≤ e) {g : D × D} (hg : g ∈ gaps a l e) :
    a ≤ g.1 ∧ g.1 ≤ g.2 ∧ g.2 ≤ e := by
  induction l generalizing a with
  | nil =>
    rw [gaps, between, lastEnd, List.nil_append] at hg
    split_ifs at hg with hlt
    · rw [List.mem_singleton.mp hg]
      exact ⟨le_rfl, hlt.le, le_rfl⟩
    · contradiction
  | cons s l ih =>
    obtain ⟨has, hs, hrest⟩ := h
    rw [gaps_cons] at hg
    rcases List.mem_append.mp hg with hg | hg
    · split_ifs at hg with hlt
      · rw [List.mem_singleton.mp hg]
        exact ⟨le_rfl, hlt.le, hs.trans (hl s List.mem_cons_self)⟩
      · contradiction
    · obtain ⟨hsg, hgg, hge⟩ := ih hrest (fun s' hs' => hl s' (List.mem_cons_of_mem _ hs')) hg
      exact ⟨has.trans (hs.trans hsg), hgg, hge⟩

theorem Apart.mem (h : Apart a l) {s : D × D} (hs : s ∈ l) : a ≤ s.1 ∧ s.1 ≤ s.2 := by
  induction l generalizing a with
  | nil => contradiction
  | cons s' l ih =>
    obtain ⟨has, hle, hrest⟩ := h
    rcases List.mem_cons.mp hs with rfl | hs
    · exact ⟨has, hle⟩
    · obtain ⟨hend, hle'⟩ := ih hrest hs
      exact ⟨has.trans (hle.trans hend), hle'⟩

end PPView.Gaps
