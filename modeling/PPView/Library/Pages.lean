import Mathlib.Data.List.Basic

/-!
# Pages of accepted items

The pages of a list from which only some items are shown. A page starts behind the items on the
pages before it, whether they are shown or not, but ends with its last shown item.
-/

namespace PPView.Pages

variable {α β : Type*} {f : α → Option β} {l : List α} {n k p i : ℕ}

/-- The shown items of the page `p`, of which there are at most `n`. -/
def pageOf (f : α → Option β) (n : ℕ) (l : List α) (p : ℕ) : List β :=
  ((l.drop (p * n)).filterMap f).take n

/-- The shown ones of the `n` items that start a page. -/
def blockOf (f : α → Option β) (n : ℕ) (l : List α) (p : ℕ) : List β :=
  ((l.drop (p * n)).take n).filterMap f

/-- What a page shows beyond its block. -/
def surplus (f : α → Option β) (n : ℕ) (l : List α) (p : ℕ) : List β :=
  ((l.drop ((p + 1) * n)).filterMap f).take (n - (blockOf f n l p).length)

/-- An item that is not shown has no item behind its block that is. -/
def NoGap (f : α → Option β) (n : ℕ) (l : List α) : Prop :=
  ∀ i j a b, l[i]? = some a → l[j]? = some b → f a = none → f b ≠ none → j / n ≤ i / n

theorem length_blockOf_le (f : α → Option β) (n : ℕ) (l : List α) (p : ℕ) :
    (blockOf f n l p).length ≤ n := by
  have h := List.length_filterMap_le f ((l.drop (p * n)).take n)
  rw [List.length_take] at h
  exact Nat.le_trans h (Nat.min_le_left ..)

theorem pageOf_eq (f : α → Option β) (n : ℕ) (l : List α) (p : ℕ) :
    pageOf f n l p = blockOf f n l p ++ surplus f n l p := by
  have hsplit : l.drop (p * n) = (l.drop (p * n)).take n ++ l.drop ((p + 1) * n) := by
    rw [Nat.succ_mul, ← List.drop_drop, List.take_append_drop]
  rw [pageOf, hsplit, List.filterMap_append, List.take_append, surplus]
  congr 1
  exact List.take_of_length_le (length_blockOf_le f n l p)

theorem flatMap_blockOf (f : α → Option β) (n : ℕ) (l : List α) (k : ℕ) :
    (List.range k).flatMap (blockOf f n l) = (l.take (k * n)).filterMap f := by
  induction k with
  | zero => simp
  | succ k ih =>
    rw [List.range_succ, List.flatMap_append, ih, List.flatMap_singleton, blockOf,
      ← List.filterMap_append, Nat.succ_mul, List.take_add]

theorem flatMap_blockOf_of_le (h : l.length ≤ k * n) :
    (List.range k).flatMap (blockOf f n l) = l.filterMap f := by
  rw [flatMap_blockOf, List.take_of_length_le h]

theorem length_flatMap_pageOf (f : α → Option β) (n : ℕ) (l : List α) (k : ℕ) :
    ((List.range k).flatMap (pageOf f n l)).length =
      ((List.range k).flatMap (blockOf f n l)).length +
        ((List.range k).flatMap (surplus f n l)).length := by
  induction k with
  | zero => rfl
  | succ k ih =>
    simp only [List.range_succ, List.flatMap_append, List.length_append, ih, List.flatMap_singleton,
      pageOf_eq]
    omega

/-- The pages together show what the blocks show exactly if there is no surplus. -/
theorem flatMap_pageOf_eq_iff (h : l.length ≤ k * n) :
    (List.range k).flatMap (pageOf f n l) = l.filterMap f ↔ ∀ p < k, surplus f n l p = [] := by
  constructor
  · intro heq p hp
    have hlen := length_flatMap_pageOf f n l k
    rw [heq, flatMap_blockOf_of_le h] at hlen
    have hnil : (List.range k).flatMap (surplus f n l) = [] :=
      List.eq_nil_of_length_eq_zero (by omega)
    exact List.flatMap_eq_nil_iff.mp hnil p (List.mem_range.mpr hp)
  · intro hnil
    rw [← flatMap_blockOf_of_le h]
    refine List.flatMap_congr fun p hp => ?_
    rw [pageOf_eq, hnil p (List.mem_range.mp hp), List.append_nil]

/-! ## Surplus -/

theorem filterMap_drop_eq_nil_iff :
    (l.drop i).filterMap f = [] ↔ ∀ j b, l[j]? = some b → i ≤ j → f b = none := by
  rw [List.filterMap_eq_nil_iff]
  constructor
  · intro h j b hj hij
    refine h b (List.mem_iff_getElem?.mpr ⟨j - i, ?_⟩)
    rw [List.getElem?_drop, Nat.add_sub_cancel' hij, hj]
  · intro h b hb
    obtain ⟨j, hj⟩ := List.mem_iff_getElem?.mp hb
    rw [List.getElem?_drop] at hj
    exact h (i + j) b hj (by omega)

/-- A block that is full and of shown items only has `n` of them. -/
theorem length_blockOf_eq_iff (h : (p + 1) * n ≤ l.length) :
    (blockOf f n l p).length = n ↔
      ∀ i a, l[i]? = some a → p * n ≤ i → i < (p + 1) * n → f a ≠ none := by
  have hlen : ((l.drop (p * n)).take n).length = n := by
    rw [List.length_take, List.length_drop]
    rw [Nat.succ_mul] at h
    omega
  have hall : (blockOf f n l p).length = n ↔ ∀ a ∈ (l.drop (p * n)).take n, (f a).isSome := by
    rw [blockOf, List.length_filterMap_eq_countP]
    conv_lhs => rhs; rw [← hlen]
    exact List.countP_eq_length
  rw [hall]
  constructor
  · intro h i a hi hpi hip hnone
    have hmem : a ∈ (l.drop (p * n)).take n := by
      refine List.mem_iff_getElem?.mpr ⟨i - p * n, ?_⟩
      rw [Nat.succ_mul] at hip
      rw [List.getElem?_take_of_lt (by omega), List.getElem?_drop, Nat.add_sub_cancel' hpi, hi]
    simpa [hnone] using h a hmem
  · intro h a ha
    obtain ⟨i, hi⟩ := List.mem_iff_getElem?.mp ha
    have hin : i < n := by
      by_contra hle
      rw [List.getElem?_take_eq_none (by omega)] at hi
      contradiction
    rw [List.getElem?_take_of_lt hin, List.getElem?_drop] at hi
    refine Option.isSome_iff_ne_none.mpr (h (p * n + i) a hi (by omega) ?_)
    rw [Nat.succ_mul]
    omega

theorem surplus_eq_nil_iff (hn : 0 < n) : surplus f n l p = [] ↔
    ∀ i j a b, l[i]? = some a → l[j]? = some b → f a = none → f b ≠ none → i / n = p →
      j / n ≤ p := by
  have hlt : ∀ i, i / n < p + 1 ↔ i < (p + 1) * n := fun i => Nat.div_lt_iff_lt_mul hn
  have hle : ∀ i, p ≤ i / n ↔ p * n ≤ i := fun i => Nat.le_div_iff_mul_le hn
  rw [surplus, List.take_eq_nil_iff]
  by_cases hrest : (l.drop ((p + 1) * n)).filterMap f = []
  · refine iff_of_true (.inr hrest) fun i j a b _ hj _ hb _ => ?_
    by_contra hlater
    have := (hlt j).not.mp (by omega)
    exact hb (filterMap_drop_eq_nil_iff.mp hrest j b hj (by omega))
  · have hshown := hrest
    rw [filterMap_drop_eq_nil_iff] at hshown
    push Not at hshown
    obtain ⟨j, b, hj, hij, hb⟩ := hshown
    have hjlen := (List.getElem?_eq_some_iff.mp hj).1
    have hfull := length_blockOf_eq_iff (f := f) (show (p + 1) * n ≤ l.length by omega)
    have hblock : n - (blockOf f n l p).length = 0 ↔ (blockOf f n l p).length = n := by
      have := length_blockOf_le f n l p
      omega
    rw [or_iff_left hrest, hblock, hfull]
    constructor
    · rintro h i - a - hi - ha - hip
      exact absurd ha (h i a hi ((hle i).mp (by omega)) ((hlt i).mp (by omega)))
    · intro h i a hi hpi hip ha
      have := h i j a b hi hj ha hb (by have := (hle i).mpr hpi; have := (hlt i).mpr hip; omega)
      have := (hlt j).mp (by omega)
      omega

/-- All pages, one after the other, show every shown item once and in order exactly if there is no
gap. -/
theorem flatMap_pageOf_iff (hn : 0 < n) :
    (∃ K, ∀ k ≥ K, (List.range k).flatMap (pageOf f n l) = l.filterMap f) ↔ NoGap f n l := by
  have hbig : ∀ {k}, l.length ≤ k → l.length ≤ k * n := fun h =>
    Nat.le_trans h (Nat.le_mul_of_pos_right _ hn)
  constructor
  · rintro ⟨K, hK⟩ i j a b hi hj ha hb
    have hk := hK (max K (max l.length (i / n + 1))) (Nat.le_max_left ..)
    rw [flatMap_pageOf_eq_iff (hbig (by omega))] at hk
    exact (surplus_eq_nil_iff hn).mp (hk (i / n) (by omega)) i j a b hi hj ha hb rfl
  · intro h
    refine ⟨l.length, fun k hk => (flatMap_pageOf_eq_iff (hbig hk)).mpr fun p _ => ?_⟩
    refine (surplus_eq_nil_iff hn).mpr fun i j a b hi hj ha hb hip => ?_
    exact hip ▸ h i j a b hi hj ha hb

end PPView.Pages
