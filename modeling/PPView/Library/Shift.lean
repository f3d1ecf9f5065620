import Mathlib.Data.List.Induction
import Mathlib.Tactic.Common

/-!
# Moving one entry of a list

The loops that make room for an entry, or that close the gap it leaves, one copy at a time.
-/

namespace PPView.Shift

variable {α : Type*}

/-- The entry at `j` goes to `i`. -/
def copy (l : List α) (i j : ℕ) : List α :=
  match l[j]? with
  | some x => l.set i x
  | none => l

/-- The `n` entries from `index` on move one place up, the last one first. -/
def up (index : ℕ) : ℕ → List α → List α
  | 0, l => l
  | n + 1, l => up index n (copy l (index + n + 1) (index + n))

/-- The `n` entries behind `i` move one place down, the first one first. -/
def down : ℕ → ℕ → List α → List α
  | 0, _, l => l
  | n + 1, i, l => down n (i + 1) (copy l i (i + 1))

variable {P M R : List α} {x y : α}

theorem copy_up : copy (P ++ x :: y :: R) (P.length + 1) P.length = P ++ x :: x :: R := by
  simp [copy]

theorem copy_down : copy (P ++ x :: y :: R) P.length (P.length + 1) = P ++ y :: y :: R := by
  simp [copy]

/-- What stood behind the entries that moved is overwritten. -/
theorem set_up (P M : List α) (x y : α) (R : List α) :
    (up P.length M.length (P ++ (M ++ x :: R))).set P.length y = P ++ (y :: M ++ R) := by
  induction M using List.reverseRecOn generalizing x R with
  | nil => simp [up]
  | append_singleton M m ih =>
    have hcopy := copy_up (P := P ++ M) (x := m) (y := x) (R := R)
    rw [List.length_append] at hcopy
    rw [List.length_append, List.length_singleton, up, List.append_assoc, List.singleton_append,
      ← List.append_assoc, hcopy, List.append_assoc, ih]
    simp

theorem set_down (P : List α) (x y : α) (M R : List α) :
    (down M.length P.length (P ++ (x :: M ++ R))).set (P.length + M.length) y =
      P ++ (M ++ y :: R) := by
  induction M generalizing P x with
  | nil => simp [down]
  | cons m M ih =>
    have hstep := ih (P ++ [m]) m
    rw [List.length_cons, down, List.cons_append, List.cons_append, copy_down]
    simpa [Nat.add_assoc, Nat.add_comm 1] using hstep

end PPView.Shift
