import Mathlib.Algebra.Order.BigOperators.Group.List
import Mathlib.Algebra.Order.Group.Int
import PPView.Bag.MyCluster
import PPView.Library.LeastValues

/-!
# The distance of two clusters

`GetClusterDist` is to be the mean of the three shortest distances between two clusters. It keeps
different distances only, so a distance that several pairs have counts once. `MeanUnaffected` says
for which distances the mean is that of the three shortest all the same.
-/

namespace PPView.HierarchicalClustering

/-- The distances of all pairs. -/
def crossDists (m_baseMatrix : BaseMatrix) (setA setB : List ℕ) : List Int :=
  setA.flatMap fun a => setB.map fun b => (m_baseMatrix.getD a []).getD b 0

/-- The mean of the three least numbers, or of all of them where there are fewer. -/
def meanOfShortest (dists : List Int) : Int :=
  let shortest := (dists.insertionSort (· ≤ ·)).take 3
  shortest.sum / shortest.length

/-- The shortest three are different, or none is longer than the shortest by more than one.
Otherwise the two means agree only through their rounding. -/
def RoundAlike (dists : List Int) (a b c : Int) : Prop :=
  (a < b ∧ b < c) ∨ (∀ d ∈ dists, d ≤ a + 1) ∨
  (a = b ∧ c = a + 3 ∧ ∀ d ∈ dists, d ≤ c) ∨
  (b = c ∧ (b = a + 2 ∨ b = a + 4) ∧ ∀ d ∈ dists, d ≤ b) ∨
  (a < b ∧ b = c ∧ (b - a) % 3 = 0 ∧ ∃ d ∈ dists, b < d ∧ d ≤ b + 2) ∨
  (a < b ∧ b = c ∧ (b - a) % 3 = 2 ∧ b + 1 ∈ dists)

/-- The condition for three distances or more; with fewer there is none. -/
def MeanUnaffected (dists : List Int) : Prop :=
  match dists.insertionSort (· ≤ ·) with
  | a :: b :: c :: _ => RoundAlike dists a b c
  | _ => True

theorem insertDist_eq_push (distSet : List Int) (dist : Int) :
    insertDist distSet dist = LeastValues.push 3 distSet dist := by
  rfl

/-- What the loops keep of the distances of all pairs. -/
theorem getClusterDist_eq (m_baseMatrix : BaseMatrix) (setA setB : List ℕ) :
    ∃ distSet, LeastValues.Keeps 3 (crossDists m_baseMatrix setA setB) distSet ∧
      getClusterDist m_baseMatrix setA setB =
        distSet.sum.tdiv (if distSet.length = 0 then 1 else distSet.length : ℕ) := by
  refine ⟨(crossDists m_baseMatrix setA setB).foldl (LeastValues.push 3) [], ?_, ?_⟩
  · simpa using LeastValues.foldl_push_keeps LeastValues.keeps_nil _
  · simp only [getClusterDist, insertDist_eq_push, crossDists, List.foldl_flatMap, List.foldl_map]

/-! ## Which mean it is -/

section

variable {dists kept rest : List Int} {a b c : Int}

/-- With three distances or more: `a`, `b` and `c` are the shortest, in order. -/
structure Shortest (dists : List Int) (a b c : Int) : Prop where
  mem : a ∈ dists ∧ b ∈ dists ∧ c ∈ dists
  le : a ≤ b ∧ b ≤ c
  rest : ∀ d ∈ dists, d = a ∨ d = b ∨ c ≤ d

theorem shortest_of_sorted (h : dists.insertionSort (· ≤ ·) = a :: b :: c :: rest) :
    Shortest dists a b c := by
  have hsorted := List.pairwise_insertionSort (· ≤ ·) dists
  have hmem (d : Int) : d ∈ dists ↔ d ∈ a :: b :: c :: rest := by
    rw [← h, List.mem_insertionSort]
  simp only [h, List.pairwise_cons, List.mem_cons] at hsorted
  obtain ⟨ha, hb, hc, -⟩ := hsorted
  refine ⟨⟨(hmem a).mpr (by simp), (hmem b).mpr (by simp), (hmem c).mpr (by simp)⟩,
    ⟨ha b (.inl rfl), hb c (.inl rfl)⟩, fun d hd => ?_⟩
  have hd : d = a ∨ d = b ∨ d = c ∨ d ∈ rest := by simpa using (hmem d).mp hd
  rcases hd with hd | hd | rfl | hd
  · exact .inl hd
  · exact .inr (.inl hd)
  · exact .inr (.inr le_rfl)
  · exact .inr (.inr (hc d hd))

variable {x y z : Int}

theorem one_kept (hs : Shortest dists a b c) (h : LeastValues.Keeps 3 dists [x]) :
    x = (a + b + c) / 3 ↔ RoundAlike dists a b c := by
  have heq : ∀ d ∈ dists, d = x := fun d hd => by
    simpa using (h.mem_iff (by simp)).mp hd
  obtain ⟨ha, hb, hc⟩ := hs.mem
  have := heq a ha
  have := heq b hb
  have := heq c hc
  have hright : RoundAlike dists a b c :=
    .inr (.inl fun d hd => by have := heq d hd; omega)
  exact ⟨fun _ => hright, fun _ => by omega⟩

theorem two_kept (hs : Shortest dists a b c) (h : LeastValues.Keeps 3 dists [x, y]) :
    (x + y) / 2 = (a + b + c) / 3 ↔ RoundAlike dists a b c := by
  have hmem (d : Int) : d ∈ dists ↔ d = x ∨ d = y := by
    simpa using h.mem_iff (y := d) (by simp)
  have hxy : x < y := by simpa using h.sorted
  have hall (t : Int) : (∀ d ∈ dists, d ≤ t) ↔ y ≤ t := by
    simp only [hmem, forall_eq_or_imp, forall_eq]
    omega
  have hex : (∃ d ∈ dists, b < d ∧ d ≤ b + 2) ↔ (b < x ∧ x ≤ b + 2) ∨ (b < y ∧ y ≤ b + 2) := by
    simp only [hmem, or_and_right, exists_or, exists_eq_left]
  obtain ⟨ha, hb, hc⟩ := hs.mem
  obtain ⟨hab, hbc⟩ := hs.le
  have hx := hs.rest x ((hmem x).mpr (.inl rfl))
  have hy := hs.rest y ((hmem y).mpr (.inr rfl))
  rw [hmem] at ha hb hc
  rw [RoundAlike, hex, hall, hall, hall, hmem]
  have hax : a = x := by omega
  clear hex hall hmem hx hy ha
  subst hax
  rcases hb with rfl | rfl
  · rcases hc with rfl | rfl
    · omega
    · omega
  · obtain rfl : c = b := by omega
    omega

theorem three_kept (hs : Shortest dists a b c) (h : LeastValues.Keeps 3 dists [x, y, z]) :
    (x + y + z) / 3 = (a + b + c) / 3 ↔ RoundAlike dists a b c := by
  have hmem : ∀ d ∈ dists, d = x ∨ d = y ∨ d = z ∨ z < d := fun d hd => by
    by_cases hn : d ∈ [x, y, z]
    · simp only [List.mem_cons, List.not_mem_nil, or_false] at hn
      tauto
    · exact .inr (.inr (.inr ((h.rest d hd hn).2 z (by simp))))
  have hin : x ∈ dists ∧ y ∈ dists ∧ z ∈ dists := by simpa using h.subset
  obtain ⟨⟨hxy, -⟩, hyz⟩ : (x < y ∧ x < z) ∧ y < z := by simpa using h.sorted
  obtain ⟨ha, hb, hc⟩ := hs.mem
  obtain ⟨hab, hbc⟩ := hs.le
  have hx := hs.rest x hin.1
  have hy := hs.rest y hin.2.1
  have hz := hs.rest z hin.2.2
  replace ha := hmem a ha
  replace hb := hmem b hb
  replace hc := hmem c hc
  have hax : a = x := by omega
  have hcases : (b = y ∧ c = z) ∨ (b = y ∧ c = y) ∨ (b = x ∧ c ≤ y) := by omega
  clear ha hb hc hx hy hz
  have hall (t : Int) (ht : t < z) : ¬ ∀ d ∈ dists, d ≤ t :=
    fun hd => absurd (hd z hin.2.2) (by omega)
  rcases hcases with ⟨rfl, rfl⟩ | ⟨rfl, rfl⟩ | ⟨rfl, hcy⟩
  · exact iff_of_true (by rw [hax]) (.inl ⟨by omega, by omega⟩)
  · -- the third value kept is the next longer one
    have hnear : (∃ d ∈ dists, c < d ∧ d ≤ c + 2) ↔ z ≤ c + 2 := by
      refine ⟨fun ⟨d, hd, hlt, hle⟩ => ?_, fun hle => ⟨z, hin.2.2, hyz, hle⟩⟩
      have := hmem d hd
      omega
    have hnext : c + 1 ∈ dists ↔ z = c + 1 := by
      refine ⟨fun hd => ?_, fun hz => hz ▸ hin.2.2⟩
      have := hmem _ hd
      omega
    rw [RoundAlike, iff_false_intro (hall (a + 1) (by omega)),
      iff_false_intro (hall c (by omega)), hnear, hnext]
    simp only [hax, hxy, lt_irrefl, and_false, false_or, true_and]
    clear hnear
    omega
  · rw [RoundAlike, iff_false_intro (hall (a + 1) (by omega)),
      iff_false_intro (hall c (by omega)), iff_false_intro (hall b (by omega))]
    simp only [and_false, false_or]
    refine iff_of_false (by omega) ?_
    rintro (⟨hlt, -⟩ | ⟨hlt, -⟩ | ⟨hlt, -⟩) <;> omega

/-- With one or two distances there is nothing to leave out but one of two equal ones. -/
theorem few_kept (hmem : ∀ d, d ∈ dists ↔ d = a ∨ d = b) (hab : a ≤ b)
    (h : LeastValues.Keeps 3 dists kept) : (a = b ∧ kept = [a]) ∨ kept = [a, b] := by
  have hin : ∀ d ∈ kept, d = a ∨ d = b := fun d hd => (hmem d).mp (h.subset hd)
  rcases kept with _ | ⟨x, _ | ⟨y, _ | ⟨z, t⟩⟩⟩
  · exact absurd ((h.mem_iff (by simp)).mp ((hmem a).mpr (.inl rfl))) (by simp)
  · have ha : a = x := by simpa using (h.mem_iff (by simp)).mp ((hmem a).mpr (.inl rfl))
    have hb : b = x := by simpa using (h.mem_iff (by simp)).mp ((hmem b).mpr (.inr rfl))
    exact .inl ⟨ha.trans hb.symm, by rw [ha]⟩
  · have hxy : x < y := by simpa using h.sorted
    have hx := hin x (by simp)
    have hy := hin y (by simp)
    obtain ⟨rfl, rfl⟩ : x = a ∧ y = b := by omega
    exact .inr rfl
  · have hsorted := h.sorted
    simp only [List.pairwise_cons, List.mem_cons] at hsorted
    have hxy := hsorted.1 y (.inl rfl)
    have hyz := hsorted.2.1 z (.inl rfl)
    have hx := hin x (by simp)
    have hy := hin y (by simp)
    have hz := hin z (by simp)
    omega

/-- The mean of the values kept against that of the shortest. -/
theorem mean_kept_iff (h : LeastValues.Keeps 3 dists kept) (hne : dists ≠ []) :
    kept.sum / kept.length = meanOfShortest dists ↔ MeanUnaffected dists := by
  unfold meanOfShortest MeanUnaffected
  have hmem (d : Int) : d ∈ dists ↔ d ∈ dists.insertionSort (· ≤ ·) := List.mem_insertionSort _ |>.symm
  have hsorted := List.pairwise_insertionSort (· ≤ ·) dists
  rcases hsort : dists.insertionSort (· ≤ ·) with _ | ⟨a, _ | ⟨b, _ | ⟨c, rest⟩⟩⟩
  · exact absurd ((List.perm_insertionSort _ dists).symm.trans (by rw [hsort])).eq_nil hne
  · obtain ⟨-, rfl⟩ | rfl := few_kept (a := a) (b := a) (by simp [hmem, hsort]) le_rfl h
    · simp
    · simpa using h.sorted
  · have hab : a ≤ b := by simpa [hsort] using hsorted
    obtain ⟨rfl, rfl⟩ | rfl := few_kept (a := a) (b := b) (by simp [hmem, hsort]) hab h
    · have : (a + a) / 2 = a := by omega
      simpa using this.symm
    · simp
  · have hs := shortest_of_sorted hsort
    have hthree : ((a :: b :: c :: rest).take 3).sum /
        (((a :: b :: c :: rest).take 3).length : Int) = (a + b + c) / 3 := by
      simp [add_assoc]
    rw [hthree]
    rcases kept with _ | ⟨x, _ | ⟨y, _ | ⟨z, _ | ⟨w, t⟩⟩⟩⟩
    · exact absurd ((h.mem_iff (by simp)).mp hs.mem.1) (by simp)
    · simpa using one_kept hs h
    · simpa using two_kept hs h
    · simpa [add_assoc] using three_kept hs h
    · exact absurd h.length_le (by simp)

end

/-! ## The distance -/

theorem nonneg_of_mem_crossDists {m_baseMatrix : BaseMatrix}
    (hm : ∀ row ∈ m_baseMatrix, ∀ d ∈ row, 0 ≤ d) {setA setB : List ℕ} {d : Int}
    (hd : d ∈ crossDists m_baseMatrix setA setB) : 0 ≤ d := by
  simp only [crossDists, List.mem_flatMap, List.mem_map] at hd
  obtain ⟨a, -, b, -, rfl⟩ := hd
  -- outside the matrix it is `0`
  have hrow : ∀ d ∈ m_baseMatrix.getD a [], 0 ≤ d := by
    rw [List.getD_eq_getElem?_getD]
    cases h : m_baseMatrix[a]? with
    | none => simp
    | some row => exact hm row (List.mem_of_getElem? h)
  rw [List.getD_eq_getElem?_getD]
  cases h : (m_baseMatrix.getD a [])[b]? with
  | none => exact le_rfl
  | some d => exact hrow d (List.mem_of_getElem? h)

/-- The distance is the mean of the three shortest, a distance of several pairs counted for each,
just where counting it once makes no difference. -/
theorem getClusterDist_eq_meanOfShortest_iff {m_baseMatrix : BaseMatrix}
    (hm : ∀ row ∈ m_baseMatrix, ∀ d ∈ row, 0 ≤ d) {setA setB : List ℕ}
    (hA : setA ≠ []) (hB : setB ≠ []) :
    getClusterDist m_baseMatrix setA setB = meanOfShortest (crossDists m_baseMatrix setA setB) ↔
      MeanUnaffected (crossDists m_baseMatrix setA setB) := by
  obtain ⟨distSet, hkeeps, heq⟩ := getClusterDist_eq m_baseMatrix setA setB
  have hne : crossDists m_baseMatrix setA setB ≠ [] := by
    obtain ⟨a, ha⟩ := List.exists_mem_of_ne_nil setA hA
    obtain ⟨b, hb⟩ := List.exists_mem_of_ne_nil setB hB
    exact List.ne_nil_of_mem (List.mem_flatMap.mpr ⟨a, ha, List.mem_map_of_mem hb⟩)
  have hlen : distSet.length ≠ 0 := by
    intro hnil
    obtain ⟨d, hd⟩ := List.exists_mem_of_ne_nil _ hne
    have hmem := (hkeeps.mem_iff (by omega)).mp hd
    simp [List.length_eq_zero_iff.mp hnil] at hmem
  have hsum : 0 ≤ distSet.sum :=
    List.sum_nonneg fun d hd => nonneg_of_mem_crossDists hm (hkeeps.subset hd)
  rw [heq, if_neg hlen, Int.tdiv_eq_ediv_of_nonneg hsum]
  exact mean_kept_iff hkeeps hne

theorem getClusterDist_eq_meanOfShortest_two :
    getClusterDist [[0, 4, 4], [4, 0, 1], [4, 1, 0]] [0] [1, 2] =
        meanOfShortest (crossDists [[0, 4, 4], [4, 0, 1], [4, 1, 0]] [0] [1, 2]) ↔
      MeanUnaffected (crossDists [[0, 4, 4], [4, 0, 1], [4, 1, 0]] [0] [1, 2]) :=
  getClusterDist_eq_meanOfShortest_iff (by decide) (by decide) (by decide)

/-- One point against three, two of them near and equally far. -/
theorem getClusterDist_ne_meanOfShortest :
    ¬ ∀ (m_baseMatrix : BaseMatrix) (setA setB : List ℕ),
      (∀ row ∈ m_baseMatrix, ∀ d ∈ row, 0 ≤ d) → setA ≠ [] → setB ≠ [] →
        getClusterDist m_baseMatrix setA setB =
          meanOfShortest (crossDists m_baseMatrix setA setB) := by
  intro h
  have := h [[0, 1, 1, 9], [1, 0, 5, 5], [1, 5, 0, 5], [9, 5, 5, 0]] [0] [1, 2, 3]
    (by decide) (by decide) (by decide)
  revert this
  decide

end PPView.HierarchicalClustering
