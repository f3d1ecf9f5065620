import Mathlib.Data.List.Sort

/-!
# Bounded lists of best elements

A list of at most `k` elements in ascending order of a key, into which elements are pushed one
by one. A full list takes an element only if its key exceeds the least, which then leaves.

`Keeps k key seen xs` says that `xs` holds `min k seen.length` of the elements seen and that no
other element seen has a greater key than one of them. It holds after any number of pushes.
-/

namespace PPView.BestList

variable {α β : Type*} [LinearOrder β] (k : ℕ) (key : α → β)

/-- Insertion behind the elements of the same key, as in a multimap. -/
def insertKey (xs : List α) (x : α) : List α := xs.orderedInsert (fun a b => key a < key b) x

def push (xs : List α) (x : α) : List α :=
  let xs' :=
    if xs.length = k then
      match xs with
      | [] => xs
      | least :: _ => if key least < key x then insertKey key xs x else xs
    else insertKey key xs x
  if xs'.length > k then xs'.tail else xs'

/-- `xs` holds the `k` best elements of `seen`, in ascending order. -/
structure Keeps (seen xs : List α) : Prop where
  sorted : xs.Pairwise fun a b => key a ≤ key b
  length : xs.length = min k seen.length
  rest : ∃ rest, seen.Perm (xs ++ rest) ∧ ∀ x ∈ rest, ∀ y ∈ xs, key x ≤ key y

variable {k key} {seen xs : List α} {x : α}

theorem insertKey_perm (xs : List α) (x : α) : (insertKey key xs x).Perm (x :: xs) :=
  List.perm_orderedInsert _ x xs

theorem length_insertKey (xs : List α) (x : α) :
    (insertKey key xs x).length = xs.length + 1 := List.orderedInsert_length _ xs x

theorem insertKey_sorted (h : xs.Pairwise fun a b => key a ≤ key b) (x : α) :
    (insertKey key xs x).Pairwise fun a b => key a ≤ key b := by
  induction xs with
  | nil => simp [insertKey]
  | cons y xs ih =>
    obtain ⟨hy, hxs⟩ := List.pairwise_cons.mp h
    rw [insertKey, List.orderedInsert_cons]
    split_ifs with hlt
    · refine List.pairwise_cons.mpr ⟨fun z hz => ?_, h⟩
      rcases List.mem_cons.mp hz with rfl | hz
      · exact hlt.le
      · exact hlt.le.trans (hy z hz)
    · refine List.pairwise_cons.mpr ⟨fun z hz => ?_, ih hxs⟩
      rcases List.mem_cons.mp ((insertKey_perm xs x).mem_iff.mp hz) with rfl | hz
      · exact not_lt.mp hlt
      · exact hy z hz

theorem keeps_nil : Keeps k key [] [] := ⟨List.Pairwise.nil, by simp, [], by simp, by simp⟩

/-- As long as the list is not full, everything seen is in it. -/
theorem Keeps.push_of_lt (h : Keeps k key seen xs) (hlt : xs.length < k) :
    Keeps k key (x :: seen) (push k key xs x) := by
  have hlen : (insertKey key xs x).length = xs.length + 1 := length_insertKey xs x
  have hpush : push k key xs x = insertKey key xs x := by
    simp only [push, hlt.ne, if_false, hlen]
    rw [if_neg (by omega)]
  have hlength := h.length
  obtain ⟨rest, hperm, -⟩ := h.rest
  have hrest : rest = [] := by
    have := hperm.length_eq
    rw [List.length_append] at this
    exact List.length_eq_zero_iff.mp (by omega)
  rw [hpush]
  refine ⟨insertKey_sorted h.sorted x, ?_, [], ?_, by simp⟩
  · rw [hlen, List.length_cons]
    omega
  · subst hrest
    simpa using ((insertKey_perm xs x).trans (by simpa using hperm.symm.cons x)).symm

theorem Keeps.push_of_eq (h : Keeps k key seen xs) (hk : 0 < k) (heq : xs.length = k) :
    Keeps k key (x :: seen) (push k key xs x) := by
  obtain ⟨least, xs, rfl⟩ := List.exists_cons_of_length_pos (heq ▸ hk)
  obtain ⟨rest, hperm, hbound⟩ := h.rest
  obtain ⟨hleast, hsorted⟩ := List.pairwise_cons.mp h.sorted
  have hlength := h.length
  by_cases hlt : key least < key x
  · -- the list starts with `least`, which leaves
    have hins : insertKey key (least :: xs) x = least :: insertKey key xs x := by
      rw [insertKey, List.orderedInsert_cons, if_neg (not_lt.mpr hlt.le)]
      rfl
    have hlen : (insertKey key xs x).length = xs.length + 1 := length_insertKey xs x
    have hpush : push k key (least :: xs) x = insertKey key xs x := by
      simp only [push, heq, if_true, hlt, hins, List.length_cons, hlen]
      rw [if_pos (by simp only [List.length_cons] at heq; omega)]
      rfl
    rw [hpush]
    refine ⟨insertKey_sorted hsorted x, ?_, least :: rest, ?_, ?_⟩
    · simp only [List.length_cons, hlen] at heq hlength ⊢
      omega
    · calc (x :: seen).Perm (x :: (least :: xs ++ rest)) := hperm.cons x
        List.Perm _ (x :: xs ++ least :: rest) := by simpa using List.perm_middle.symm.cons x
        List.Perm _ (insertKey key xs x ++ least :: rest) :=
          ((insertKey_perm xs x).append_right _).symm
    · intro z hz y hy
      have hzle : key z ≤ key least := by
        rcases List.mem_cons.mp hz with rfl | hz
        · exact le_rfl
        · exact hbound z hz least (by simp)
      rcases List.mem_cons.mp ((insertKey_perm xs x).mem_iff.mp hy) with rfl | hy
      · exact hzle.trans hlt.le
      · exact hzle.trans (hleast y hy)
  · have hpush : push k key (least :: xs) x = least :: xs := by
      simp only [push, heq, if_true, hlt, if_false, gt_iff_lt, lt_irrefl]
    rw [hpush]
    refine ⟨h.sorted, ?_, x :: rest, (hperm.cons x).trans List.perm_middle.symm, ?_⟩
    · have : (x :: seen).length = seen.length + 1 := rfl
      omega
    · intro z hz y hy
      rcases List.mem_cons.mp hz with rfl | hz
      · have hle : key z ≤ key least := not_lt.mp hlt
        rcases List.mem_cons.mp hy with rfl | hy
        · exact hle
        · exact hle.trans (hleast y hy)
      · exact hbound z hz y hy

theorem Keeps.push (h : Keeps k key seen xs) (hk : 0 < k) (x : α) :
    Keeps k key (x :: seen) (push k key xs x) := by
  have hlength := h.length
  rcases Nat.lt_or_ge xs.length k with hlt | hge
  · exact h.push_of_lt hlt
  · exact h.push_of_eq hk (by omega)

theorem Keeps.perm {seen' : List α} (h : Keeps k key seen xs) (hperm : seen.Perm seen') :
    Keeps k key seen' xs := by
  obtain ⟨rest, hrest, hbound⟩ := h.rest
  exact ⟨h.sorted, hperm.length_eq ▸ h.length, rest, hperm.symm.trans hrest, hbound⟩

/-- After any number of pushes the list holds the best elements pushed. -/
theorem Keeps.foldl (h : Keeps k key seen xs) (hk : 0 < k) (ys : List α) :
    Keeps k key (ys ++ seen) (ys.foldl (BestList.push k key) xs) := by
  induction ys generalizing seen xs with
  | nil => exact h
  | cons y ys ih => exact (ih (h.push hk y)).perm List.perm_middle

end PPView.BestList
