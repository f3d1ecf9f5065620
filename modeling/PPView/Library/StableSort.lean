import Mathlib.Data.List.Sort

/-!
# Stable sorting with a comparator

`std::stable_sort` with the comparator `cmp`, where `cmp x y` says that `x` goes before `y`. The
result is in order as soon as the negated comparator is transitive and relates the elements at any
two positions in one direction. A comparator need not be irreflexive for that.
-/

namespace PPView

variable {α : Type*} {cmp : α → α → Bool}

/-- `y` need not go before `x`. -/
abbrev InOrder (cmp : α → α → Bool) (x y : α) : Prop := cmp y x = false

def stableSort (cmp : α → α → Bool) (xs : List α) : List α := xs.insertionSort (InOrder cmp)

theorem stableSort_perm (cmp : α → α → Bool) (xs : List α) : (stableSort cmp xs).Perm xs :=
  List.perm_insertionSort _ xs

@[simp] theorem mem_stableSort {xs : List α} {x : α} : x ∈ stableSort cmp xs ↔ x ∈ xs :=
  (stableSort_perm cmp xs).mem_iff

theorem pairwise_orderedInsert
    (htrans : ∀ x y z, InOrder cmp x y → InOrder cmp y z → InOrder cmp x z) {x : α} {ys : List α}
    (htotal : ∀ y ∈ ys, InOrder cmp x y ∨ InOrder cmp y x)
    (hys : ys.Pairwise (InOrder cmp)) :
    (ys.orderedInsert (InOrder cmp) x).Pairwise (InOrder cmp) := by
  induction ys with
  | nil => simp
  | cons y ys ih =>
    obtain ⟨hxy, htotal⟩ := List.forall_mem_cons.mp htotal
    obtain ⟨hy, hys⟩ := List.pairwise_cons.mp hys
    rw [List.orderedInsert_cons]
    split_ifs with hle
    · refine List.pairwise_cons.mpr ⟨fun z hz => ?_, List.pairwise_cons.mpr ⟨hy, hys⟩⟩
      rcases List.mem_cons.mp hz with rfl | hz
      · exact hle
      · exact htrans x y z hle (hy z hz)
    · refine List.pairwise_cons.mpr ⟨fun z hz => ?_, ih htotal hys⟩
      rcases (List.mem_orderedInsert _).mp hz with rfl | hz
      · exact hxy.resolve_left hle
      · exact hy z hz

theorem stableSort_pairwise
    (htrans : ∀ x y z, InOrder cmp x y → InOrder cmp y z → InOrder cmp x z) {xs : List α}
    (htotal : xs.Pairwise fun x y => InOrder cmp x y ∨ InOrder cmp y x) :
    (stableSort cmp xs).Pairwise (InOrder cmp) := by
  induction xs with
  | nil => exact List.Pairwise.nil
  | cons x xs ih =>
    obtain ⟨hx, hxs⟩ := List.pairwise_cons.mp htotal
    refine pairwise_orderedInsert htrans (fun y hy => hx y ?_) (ih hxs)
    exact mem_stableSort.mp hy

/-- Sorting by a key. -/
theorem pairwise_insertionSort_key {β : Type*} [LinearOrder β] (key : α → β) (xs : List α) :
    (xs.insertionSort fun x y => key x ≤ key y).Pairwise fun x y => key x ≤ key y := by
  have htotal : Std.Total fun x y => key x ≤ key y := ⟨fun x y => le_total (key x) (key y)⟩
  have htrans : IsTrans α fun x y => key x ≤ key y := ⟨fun _ _ _ => le_trans⟩
  exact List.pairwise_insertionSort _ xs

end PPView
