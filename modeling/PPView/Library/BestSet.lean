import Mathlib.Data.Finset.Max
import Mathlib.Data.Finset.Card

/-!
# The best elements of a finite set

`kBest k s` holds the `k` least elements of `s`, or all of them where there are fewer. What is not
among the best of a part is not among the best of the whole, so the best of a union can be found
from the best of its parts (`kBest_union_kBest`).
-/

namespace PPView.BestSet

variable {β : Type*} [LinearOrder β] {k : ℕ} {s t : Finset β} {m y : β}

/-- The elements of `s` with fewer than `k` elements of `s` below them. -/
def kBest (k : ℕ) (s : Finset β) : Finset β :=
  s.filter fun y => (s.filter (· < y)).card < k

theorem mem_kBest : y ∈ kBest k s ↔ y ∈ s ∧ (s.filter (· < y)).card < k := Finset.mem_filter

theorem kBest_subset : kBest k s ⊆ s := Finset.filter_subset _ _

/-- Where there are no more than `k` elements, all are kept. -/
theorem kBest_of_card_le (h : s.card ≤ k) : kBest k s = s := by
  refine Finset.filter_true_of_mem fun y hy => lt_of_lt_of_le ?_ h
  refine Finset.card_lt_card ⟨Finset.filter_subset _ _, fun hs => ?_⟩
  exact lt_irrefl y (Finset.mem_filter.mp (hs hy)).2

/-- The best of a set are among the best of every part that they are in. -/
theorem kBest_mono (hts : t ⊆ s) (hy : y ∈ kBest k s) (hyt : y ∈ t) : y ∈ kBest k t :=
  mem_kBest.mpr ⟨hyt,
    (Finset.card_le_card (Finset.filter_subset_filter _ hts)).trans_lt (mem_kBest.mp hy).2⟩

theorem mem_kBest_of_le (hm : m ∈ kBest k s) (hy : y ∈ s) (hle : y ≤ m) : y ∈ kBest k s := by
  refine mem_kBest.mpr ⟨hy, lt_of_le_of_lt (Finset.card_le_card fun x hx => ?_) (mem_kBest.mp hm).2⟩
  obtain ⟨hxs, hxy⟩ := Finset.mem_filter.mp hx
  exact Finset.mem_filter.mpr ⟨hxs, hxy.trans_le hle⟩

/-! ## An element above the others -/

/-- A new greatest element is kept only while there is room. -/
theorem kBest_insert_max (hm : ∀ x ∈ s, x < m) :
    kBest k (insert m s) = if s.card < k then insert m (kBest k s) else kBest k s := by
  have hself : (insert m s).filter (· < m) = s := by
    rw [Finset.filter_insert, if_neg (lt_irrefl m)]
    exact Finset.filter_true_of_mem hm
  have hbelow : ∀ x ∈ s, (insert m s).filter (· < x) = s.filter (· < x) := fun x hx => by
    rw [Finset.filter_insert, if_neg (hm x hx).not_gt]
  have hs : s.filter (fun y => ((insert m s).filter (· < y)).card < k) = kBest k s :=
    Finset.filter_congr fun x hx => by rw [hbelow x hx]
  rw [kBest, Finset.filter_insert, hself, hs]

theorem card_kBest : (kBest k s).card = min k s.card := by
  induction s using Finset.induction_on_max with
  | empty => simp [kBest]
  | insert m s hm ih =>
    have hms : m ∉ s := fun h => lt_irrefl m (hm m h)
    rw [kBest_insert_max hm, Finset.card_insert_of_notMem hms]
    split_ifs with hlt
    · rw [Finset.card_insert_of_notMem fun h => hms (kBest_subset h), ih]
      omega
    · omega

/-- A part with room left is the whole. -/
theorem kBest_eq_of_card_lt (h : (kBest k s).card < k) : kBest k s = s := by
  rw [card_kBest] at h
  exact kBest_of_card_le (by omega)

/-- A part that holds the best of the whole has the same best. -/
theorem kBest_eq_of_subset (hst : kBest k s ⊆ t) (hts : t ⊆ s) : kBest k t = kBest k s := by
  refine Finset.Subset.antisymm (fun y hy => ?_) fun y hy => kBest_mono hts hy (hst hy)
  by_contra hn
  obtain ⟨hyt, hlt⟩ := mem_kBest.mp hy
  have hge : k ≤ (s.filter (· < y)).card := by
    simpa [mem_kBest, hts hyt] using hn
  -- the `k` best below `y` are in `t` as well
  have hsub : kBest k (s.filter (· < y)) ⊆ t.filter (· < y) := fun x hx => by
    obtain ⟨hxs, hxk⟩ := mem_kBest.mp hx
    obtain ⟨hxs, hxy⟩ := Finset.mem_filter.mp hxs
    have hxbelow : (s.filter (· < y)).filter (· < x) = s.filter (· < x) := by
      rw [Finset.filter_filter]
      exact Finset.filter_congr fun z _ => ⟨And.right, fun h => ⟨h.trans hxy, h⟩⟩
    rw [hxbelow] at hxk
    exact Finset.mem_filter.mpr ⟨hst (mem_kBest.mpr ⟨hxs, hxk⟩), hxy⟩
  have hcard := Finset.card_le_card hsub
  rw [card_kBest] at hcard
  omega

theorem kBest_kBest : kBest k (kBest k s) = kBest k s :=
  kBest_eq_of_subset subset_rfl kBest_subset

/-- Only the best of a part matter for the best of a union. -/
theorem kBest_union_kBest : kBest k (kBest k s ∪ t) = kBest k (s ∪ t) := by
  refine kBest_eq_of_subset (fun y hy => ?_) (Finset.union_subset_union kBest_subset subset_rfl)
  rcases Finset.mem_union.mp (kBest_subset hy) with h | h
  · exact Finset.mem_union_left _ (kBest_mono Finset.subset_union_left hy h)
  · exact Finset.mem_union_right _ h

theorem kBest_insert_kBest : kBest k (insert m (kBest k s)) = kBest k (insert m s) := by
  have := kBest_union_kBest (k := k) (s := s) (t := {m})
  rwa [Finset.union_comm, ← Finset.insert_eq, Finset.union_comm, ← Finset.insert_eq] at this

/-! ## One more element -/

/-- While there is room, every new element is kept. -/
theorem kBest_insert_of_card_lt (h : (kBest k s).card < k) :
    kBest k (insert m s) = insert m (kBest k s) := by
  have hs := kBest_eq_of_card_lt h
  rw [hs] at h ⊢
  exact kBest_of_card_le ((Finset.card_insert_le m s).trans h)

/-- An element that is not below the worst of `k` best ones changes nothing. -/
theorem kBest_insert_of_le (hk : k ≤ (kBest k s).card) (hm : ∀ y ∈ kBest k s, y ≤ m) :
    kBest k (insert m s) = kBest k s := by
  rw [← kBest_insert_kBest]
  by_cases hmem : m ∈ kBest k s
  · rw [Finset.insert_eq_of_mem hmem, kBest_kBest]
  · have hlt : ∀ y ∈ kBest k s, y < m := fun y hy =>
      (hm y hy).lt_of_ne fun h => hmem (h ▸ hy)
    rw [kBest_insert_max hlt, if_neg hk.not_gt, kBest_kBest]

/-- A new element below the worst of `k` best ones takes its place. -/
theorem kBest_insert_of_lt {worst : β} (hk : k ≤ (kBest k s).card) (hw : worst ∈ kBest k s)
    (hmax : ∀ y ∈ kBest k s, y ≤ worst) (hm : m < worst) (hnew : m ∉ s) :
    kBest k (insert m s) = insert m ((kBest k s).erase worst) := by
  have hmk : m ∉ kBest k s := fun h => hnew (kBest_subset h)
  have hcard : (insert m ((kBest k s).erase worst)).card = k := by
    rw [Finset.card_insert_of_notMem fun h => hmk (Finset.mem_of_mem_erase h),
      Finset.card_erase_of_mem hw]
    have := card_kBest (k := k) (s := s)
    have : 0 < (kBest k s).card := Finset.card_pos.mpr ⟨worst, hw⟩
    omega
  have hinsert : insert m (kBest k s) = insert worst (insert m ((kBest k s).erase worst)) := by
    rw [Finset.insert_comm, Finset.insert_erase hw]
  rw [← kBest_insert_kBest, hinsert, kBest_insert_max, if_neg hcard.not_lt,
    kBest_of_card_le hcard.le]
  intro x hx
  rcases Finset.mem_insert.mp hx with rfl | hx
  · exact hm
  · obtain ⟨hne, hx⟩ := Finset.mem_erase.mp hx
    exact (hmax x hx).lt_of_ne hne

/-! ## Elements told apart by a key -/

/-- The elements with the best keys, where the key tells the elements of the set apart. -/
theorem mem_kBest_image {α : Type*} {key : α → β} {s : Finset α} {x : α}
    (hinj : Set.InjOn key s) :
    key x ∈ kBest k (s.image key) ↔
      key x ∈ s.image key ∧ (s.filter fun y => key y < key x).card < k := by
  rw [mem_kBest, Finset.filter_image, Finset.card_image_of_injOn]
  exact hinj.mono fun y hy => Finset.mem_of_mem_filter y hy

end PPView.BestSet
