import Mathlib.Data.List.Sort

/-!
# The least values of a stream

A set of at most `k` values in ascending order, into which values are put one by one. A value that
is there is not put in again, and a set that gets too long loses its greatest value.

`Keeps k seen xs` says that `xs` holds the `k` least of the different values seen, or all of them
where there are fewer. It holds after any number of values.
-/

namespace PPView.LeastValues

variable {α : Type*} [LinearOrder α] {k : ℕ} {seen xs : List α}

def push (k : ℕ) (xs : List α) (x : α) : List α :=
  let xs := if x ∈ xs then xs else xs.orderedInsert (· ≤ ·) x
  if xs.length > k then xs.dropLast else xs

/-- `xs` holds the `k` least values of `seen`, each once and in ascending order. -/
structure Keeps (k : ℕ) (seen xs : List α) : Prop where
  sorted : xs.Pairwise (· < ·)
  length_le : xs.length ≤ k
  subset : xs ⊆ seen
  rest : ∀ y ∈ seen, y ∉ xs → xs.length = k ∧ ∀ x ∈ xs, x < y

theorem keeps_nil : Keeps k ([] : List α) [] := ⟨List.Pairwise.nil, by simp, by simp, by simp⟩

/-- As long as there is room, every value is kept. -/
theorem Keeps.mem_iff (h : Keeps k seen xs) (hlen : xs.length < k) {y : α} :
    y ∈ seen ↔ y ∈ xs := by
  refine ⟨fun hy => ?_, fun hy => h.subset hy⟩
  by_contra hn
  exact hlen.ne (h.rest y hy hn).1

/-- A new value gets its place between the others. -/
theorem orderedInsert_sorted (h : xs.Pairwise (· < ·)) {x : α} (hx : x ∉ xs) :
    (xs.orderedInsert (· ≤ ·) x).Pairwise (· < ·) := by
  have hle : (xs.orderedInsert (· ≤ ·) x).Pairwise (· ≤ ·) :=
    (h.imp le_of_lt).orderedInsert x xs
  have hnodup : (xs.orderedInsert (· ≤ ·) x).Nodup :=
    (List.perm_orderedInsert _ x xs).nodup_iff.mpr (List.nodup_cons.mpr ⟨hx, h.imp ne_of_lt⟩)
  exact (hle.and hnodup).imp fun h => lt_of_le_of_ne h.1 h.2

/-- A value that is new to a full set drives the greatest one out. -/
theorem insert_full (h : Keeps k seen xs) (hlen : xs.length = k) {x m : α} {ys : List α}
    (hperm : (ys ++ [m]).Perm (x :: xs)) (hsorted : (ys ++ [m]).Pairwise (· < ·)) :
    Keeps k (seen ++ [x]) ys := by
  obtain ⟨hys, -, hm⟩ := List.pairwise_append.mp hsorted
  have hm : ∀ y ∈ ys, y < m := by simpa using hm
  have hmem : ∀ y, y ∈ ys ∨ y = m ↔ y = x ∨ y ∈ xs := by simpa using fun y => hperm.mem_iff (a := y)
  have hk : ys.length = k := by simpa [hlen] using hperm.length_eq
  refine ⟨hys, hk.le, fun y hy => ?_, fun y hy hn => ⟨hk, ?_⟩⟩
  · rcases (hmem y).mp (.inl hy) with rfl | hy
    · simp
    · exact List.mem_append_left _ (h.subset hy)
  · by_cases hyx : y = x ∨ y ∈ xs
    · rcases (hmem y).mpr hyx with hy | rfl
      · exact absurd hy hn
      · exact hm
    · -- `y` was above all of the old values, and the one that leaves is above the new one
      push Not at hyx
      have hseen : y ∈ seen := by simpa [hyx.1] using hy
      have hlt := (h.rest y hseen hyx.2).2
      intro z hz
      rcases (hmem z).mp (.inl hz) with rfl | hzx
      · rcases (hmem m).mp (.inr rfl) with rfl | hmx
        · exact absurd (hm _ hz) (lt_irrefl _)
        · exact (hm z hz).trans (hlt m hmx)
      · exact hlt z hzx

theorem push_keeps (h : Keeps k seen xs) (x : α) : Keeps k (seen ++ [x]) (push k xs x) := by
  by_cases hx : x ∈ xs
  · rw [push, if_pos hx, if_neg (by have := h.length_le; omega)]
    refine ⟨h.sorted, h.length_le, fun y hy => by simp [h.subset hy], fun y hy hn => ?_⟩
    rcases List.mem_append.mp hy with hy | hy
    · exact h.rest y hy hn
    · exact absurd (List.mem_singleton.mp hy ▸ hx) hn
  · have hperm := List.perm_orderedInsert (· ≤ ·) x xs
    have hsorted := orderedInsert_sorted h.sorted hx
    have hins := List.orderedInsert_length (· ≤ ·) xs x
    rw [push, if_neg hx]
    by_cases hlen : xs.length = k
    · rw [if_pos (by omega)]
      have hne : xs.orderedInsert (· ≤ ·) x ≠ [] := by
        rintro hnil
        simp [hnil] at hins
      rw [← List.dropLast_append_getLast hne] at hperm hsorted
      exact insert_full h hlen hperm hsorted
    · have hlt := lt_of_le_of_ne h.length_le hlen
      rw [if_neg (by omega)]
      refine ⟨hsorted, by omega, fun y hy => ?_, fun y hy hn => ?_⟩
      · rcases List.mem_cons.mp (hperm.mem_iff.mp hy) with rfl | hy
        · simp
        · simp [h.subset hy]
      · have hn : y ≠ x ∧ y ∉ xs := by simpa using fun hy => hn (hperm.mem_iff.mpr hy)
        exact absurd (h.rest y (by simpa [hn.1] using hy) hn.2).1 hlen

/-- What is kept after all of `ys` have been put in. -/
theorem foldl_push_keeps (h : Keeps k seen xs) (ys : List α) :
    Keeps k (seen ++ ys) (ys.foldl (push k) xs) := by
  induction ys generalizing seen xs with
  | nil => simpa using h
  | cons y ys ih => simpa using ih (push_keeps h y)

end PPView.LeastValues
