import Mathlib.Data.Finset.Sort
import Mathlib.Data.List.Lex
import Mathlib.Data.List.Sort

/-!
# Partitions in slots

A list is split over slots, some of which may be empty. Two of the slots can be joined. Splits of
a list without repetition are told apart by their blocks, and by what is left when all slots are
sorted.
-/

namespace PPView.Slots

variable {α : Type*} {l : List α} {len c : ℕ} {r s A B C : List (List α)} {X Y : List α}

/-- The elements of `l` over `len` slots, of which `c` are not empty. -/
structure Splits (l : List α) (len c : ℕ) (r : List (List α)) : Prop where
  perm : r.flatten.Perm l
  length_eq : r.length = len
  count : r.countP (· ≠ []) = c

theorem pairwise_disjoint (h : r.flatten.Nodup) : r.Pairwise List.Disjoint :=
  (List.nodup_flatten.mp h).2

theorem perm_filter_append : r.Perm (r.filter (· ≠ []) ++ r.filter (· = [])) := by
  have h := (List.filter_append_perm (fun x : List α => decide (x ≠ [])) r).symm
  simpa using h

theorem filter_eq_replicate :
    r.filter (· = []) = List.replicate (r.length - r.countP (· ≠ [])) [] := by
  rw [List.eq_replicate_iff]
  constructor
  · have := List.length_eq_countP_add_countP (fun x : List α => decide (x ≠ [])) (l := r)
    rw [← List.countP_eq_length_filter]
    simp at this ⊢
    omega
  · intro x hx
    simpa using List.of_mem_filter hx

/-! ## Joining -/

/-- The slot of `Y` goes to that of `X`. -/
theorem Splits.join (h : Splits l len c (A ++ X :: (B ++ Y :: C))) (hX : X ≠ []) (hY : Y ≠ []) :
    Splits l len (c - 1) (A ++ (X ++ Y) :: (B ++ [] :: C)) where
  perm := by
    refine List.Perm.trans ?_ h.perm
    simp only [List.flatten_append, List.flatten_cons, List.nil_append, List.append_assoc]
    refine List.Perm.append_left _ (List.Perm.append_left _ ?_)
    exact List.perm_append_comm_assoc _ _ _
  length_eq := by
    rw [← h.length_eq]
    simp
  count := by
    have := h.count
    simp [hX, hY] at this ⊢
    omega

/-- Two slots that are not empty, in order. -/
theorem exists_two (h : 2 ≤ r.countP (· ≠ [])) :
    ∃ A X B Y C, r = A ++ X :: (B ++ Y :: C) ∧ X ≠ [] ∧ Y ≠ [] := by
  obtain ⟨X, hX, hXne⟩ := List.countP_pos_iff.mp (by omega : 0 < r.countP (· ≠ []))
  obtain ⟨A, D, rfl⟩ := List.append_of_mem hX
  have hcount : 0 < A.countP (· ≠ []) ∨ 0 < D.countP (· ≠ []) := by
    rw [List.countP_append, List.countP_cons] at h
    split_ifs at h
    all_goals omega
  rcases hcount with hA | hD
  · obtain ⟨W, hW, hWne⟩ := List.countP_pos_iff.mp hA
    obtain ⟨A', B, rfl⟩ := List.append_of_mem hW
    exact ⟨A', W, B, X, D, by simp, by simpa using hWne, by simpa using hXne⟩
  · obtain ⟨Y, hY, hYne⟩ := List.countP_pos_iff.mp hD
    obtain ⟨B, C, rfl⟩ := List.append_of_mem hY
    exact ⟨A, X, B, Y, C, rfl, by simpa using hXne, by simpa using hYne⟩

/-! ## Sorting -/

variable [LinearOrder α]

/-- The partition that the slots stand for. -/
def blocks (r : List (List α)) : Finset (Finset α) :=
  ((r.filter (· ≠ [])).map List.toFinset).toFinset

/-- The slots in order, each of them in order. -/
def canon (r : List (List α)) : List (List α) :=
  (r.map (List.insertionSort (· ≤ ·))).insertionSort (· ≤ ·)

theorem insertionSort_eq_iff {β : Type*} [LinearOrder β] {a b : List β} :
    a.insertionSort (· ≤ ·) = b.insertionSort (· ≤ ·) ↔ a.Perm b := by
  constructor
  · intro h
    exact (List.perm_insertionSort _ a).symm.trans (h ▸ List.perm_insertionSort _ b)
  · intro h
    refine List.Perm.eq_of_pairwise' (List.pairwise_insertionSort _ _)
      (List.pairwise_insertionSort _ _) ?_
    exact ((List.perm_insertionSort _ a).trans h).trans (List.perm_insertionSort _ b).symm

theorem canon_eq_iff : canon r = canon s ↔
    (r.map (List.insertionSort (· ≤ ·))).Perm (s.map (List.insertionSort (· ≤ ·))) :=
  insertionSort_eq_iff

/-- An empty slot more on both sides makes no difference. -/
theorem canon_eq_iff_of_empty : canon (A ++ [] :: B) = canon (C ++ [] :: s) ↔
    canon (A ++ B) = canon (C ++ s) := by
  simp only [canon_eq_iff, List.map_append, List.map_cons, List.insertionSort_nil]
  rw [List.perm_middle.congr_left, List.perm_middle.congr_right, List.perm_cons]

/-! ## Blocks -/

/-- Slots that are not empty are different, even up to the order of their elements. -/
theorem nodup_map_sort (h : r.flatten.Nodup) :
    ((r.filter (· ≠ [])).map (List.insertionSort (· ≤ ·))).Nodup := by
  have hdisj := (pairwise_disjoint h).filter (· ≠ [])
  refine List.pairwise_map.mpr (hdisj.imp_of_mem ?_)
  intro a b ha _ hab heq
  have hne : a ≠ [] := by simpa using List.of_mem_filter ha
  obtain ⟨x, hx⟩ := List.exists_mem_of_ne_nil a hne
  exact hab hx ((insertionSort_eq_iff.mp heq).subset hx)

theorem mem_map_sort_of_blocks (hr : r.flatten.Nodup) (hs : s.flatten.Nodup)
    (h : blocks r = blocks s) {t : List α}
    (ht : t ∈ (r.filter (· ≠ [])).map (List.insertionSort (· ≤ ·))) :
    t ∈ (s.filter (· ≠ [])).map (List.insertionSort (· ≤ ·)) := by
  obtain ⟨a, ha, rfl⟩ := List.mem_map.mp ht
  have hblock : a.toFinset ∈ blocks s := by
    rw [← h]
    exact List.mem_toFinset.mpr (List.mem_map_of_mem ha)
  obtain ⟨b, hb, heq⟩ := List.mem_map.mp (List.mem_toFinset.mp hblock)
  have hanodup : a.Nodup := (List.nodup_flatten.mp hr).1 a (List.mem_of_mem_filter ha)
  have hbnodup : b.Nodup := (List.nodup_flatten.mp hs).1 b (List.mem_of_mem_filter hb)
  have hperm : b.Perm a := (List.perm_ext_iff_of_nodup hbnodup hanodup).mpr fun x => by
    simpa using Finset.ext_iff.mp heq x
  exact List.mem_map.mpr ⟨b, hb, insertionSort_eq_iff.mpr hperm⟩

/-- Splits with the same blocks are the same when they are sorted. -/
theorem canon_eq_of_blocks (hl : l.Nodup) (hr : Splits l len c r) (hs : Splits l len c s)
    (h : blocks r = blocks s) : canon r = canon s := by
  have hrn : r.flatten.Nodup := hr.perm.nodup_iff.mpr hl
  have hsn : s.flatten.Nodup := hs.perm.nodup_iff.mpr hl
  have hfilter : ((r.filter (· ≠ [])).map (List.insertionSort (· ≤ ·))).Perm
      ((s.filter (· ≠ [])).map (List.insertionSort (· ≤ ·))) :=
    (List.perm_ext_iff_of_nodup (nodup_map_sort hrn) (nodup_map_sort hsn)).mpr fun _ =>
      ⟨mem_map_sort_of_blocks hrn hsn h, mem_map_sort_of_blocks hsn hrn h.symm⟩
  have hempty : r.filter (· = []) = s.filter (· = []) := by
    rw [filter_eq_replicate, filter_eq_replicate, hr.length_eq, hs.length_eq, hr.count, hs.count]
  rw [canon_eq_iff]
  refine (perm_filter_append.map _).trans ?_
  refine List.Perm.trans ?_ (perm_filter_append.map _).symm
  rw [List.map_append, List.map_append, hempty]
  exact hfilter.append_right _

end PPView.Slots
