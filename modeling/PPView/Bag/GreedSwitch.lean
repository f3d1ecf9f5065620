import Mathlib.Algebra.Order.BigOperators.Group.List
import Mathlib.Algebra.Order.Ring.Int
import PPView.Bag.KmeansBooks

/-!
# Taking points out of clusters that are too long

`GreedSwitchAllPoint` goes over the clusters that are not legal. A round moves one point to a
cluster that was legal at the start. The first pass spares points that form a group; the second
takes any. A first pass that finds nothing sets `canSwitch` to false, and it stays so if the second
pass moves a point. The cluster is then left as it is, even if more of its points could go.
-/

namespace PPView.MyKmeans

open UnorderedSet (toList)

/-! ## Single clusters -/

/-- The second cluster is as full as the first, or fuller. -/
structure ClusterNode.Fuller (c d : ClusterNode) : Prop where
  leftTime : d.m_leftTime ≤ c.m_leftTime
  length : c.m_node.length ≤ d.m_node.length
  bidx : d.m_bidx = c.m_bidx

section

variable {k : Kmeans} {c d e : ClusterNode} {p : ℕ} {dur : Int}

theorem isLegal_iff :
    isLegal k c = true ↔ 0 ≤ c.m_leftTime ∧ c.m_node.length ≤ k.m_dayViewLimit := by
  simp [isLegal]

theorem hasRoom_iff :
    hasRoom k c dur = true ↔ dur ≤ c.m_leftTime ∧ c.m_node.length < k.m_dayViewLimit := by
  simp [hasRoom]

theorem isLegal_plus (h : hasRoom k c (durOf k p) = true) : isLegal k (c.plus k p) = true := by
  obtain ⟨htime, hlen⟩ := hasRoom_iff.mp h
  refine isLegal_iff.mpr ⟨?_, ?_⟩
  · simp only [ClusterNode.plus]
    omega
  · simpa [ClusterNode.plus, Nat.succ_le_iff] using hlen

theorem ClusterNode.Fuller.refl (c : ClusterNode) : c.Fuller c := ⟨le_rfl, le_rfl, rfl⟩

theorem ClusterNode.Fuller.trans (h : c.Fuller d) (h' : d.Fuller e) : c.Fuller e :=
  ⟨h'.leftTime.trans h.leftTime, h.length.trans h'.length, h'.bidx.trans h.bidx⟩

theorem ClusterNode.Fuller.hasRoom (h : c.Fuller d) (hd : hasRoom k d dur = true) :
    hasRoom k c dur = true := by
  obtain ⟨htime, hlen⟩ := hasRoom_iff.mp hd
  exact hasRoom_iff.mpr ⟨htime.trans h.leftTime, h.length.trans_lt hlen⟩

theorem ClusterNode.fuller_plus (h : 0 ≤ durOf k p) : c.Fuller (c.plus k p) := by
  refine ⟨?_, by simp [ClusterNode.plus], rfl⟩
  simp only [ClusterNode.plus]
  omega

end

section

variable {σ : Type} {k : Kmeans} {s s' : State σ} {legal : List ℕ} {c : ClusterNode} {a b p : ℕ}

/-! ## The passes -/

theorem mem_candidates {careGroup : Bool} (h : (p, b) ∈ candidates k s legal c careGroup) :
    numLeast k c < c.m_node.length ∧ p ∈ c.m_node ∧
      ∃ j ∈ legal, hasRoom k (s.clusterAt j) (durOf k p) = true ∧ b = (s.clusterAt j).m_bidx := by
  rw [candidates] at h
  split_ifs at h with hlen
  · obtain ⟨⟨q, i⟩, hq, hmem⟩ := List.mem_flatMap.mp h
    dsimp only at hmem
    split_ifs at hmem
    · cases hmem
    · obtain ⟨d, hd, heq⟩ := List.mem_map.mp hmem
      obtain ⟨hd, hroom⟩ := List.mem_filter.mp hd
      obtain ⟨j, hj, rfl⟩ := List.mem_map.mp hd
      obtain ⟨rfl, rfl⟩ := Prod.mk.inj heq
      exact ⟨hlen, List.mem_of_getElem? (List.mk_mem_zipIdx_iff_getElem?.mp hq), j, hj, hroom, rfl⟩
  · cases h

/-- The second pass looks at every point of the cluster. -/
theorem mem_candidates_false {j : ℕ} (hlen : numLeast k c < c.m_node.length) (hp : p ∈ c.m_node)
    (hj : j ∈ legal) (hroom : hasRoom k (s.clusterAt j) (durOf k p) = true) :
    (p, (s.clusterAt j).m_bidx) ∈ candidates k s legal c false := by
  rw [candidates, if_pos hlen]
  obtain ⟨i, hi⟩ := List.mem_iff_getElem?.mp hp
  refine List.mem_flatMap.mpr ⟨(p, i), List.mk_mem_zipIdx_iff_getElem?.mpr hi, ?_⟩
  simp only [Bool.false_and, Bool.false_eq_true, if_false]
  exact List.mem_map.mpr ⟨s.clusterAt j,
    List.mem_filter.mpr ⟨List.mem_map_of_mem hj, hroom⟩, rfl⟩

/-- What either pass finds. -/
theorem findMove_eq_some {careGroup : Bool} (h : findMove k s legal c careGroup = some (p, b)) :
    numLeast k c < c.m_node.length ∧ p ∈ c.m_node ∧ s.m_P2Cluster p b < farAway ∧
      ∃ j ∈ legal, hasRoom k (s.clusterAt j) (durOf k p) = true ∧ b = (s.clusterAt j).m_bidx := by
  obtain ⟨hmem, hlt, -⟩ := mem_of_least h
  obtain ⟨hlen, hp, hj⟩ := mem_candidates hmem
  exact ⟨hlen, hp, hlt, hj⟩

theorem mem_legalClusterList {i : ℕ} : i ∈ legalClusterList k s ↔
    i < s.m_cluster.length ∧ isLegal k (s.clusterAt i) = true := by
  simp [legalClusterList]

theorem mem_illegalClusterList {i : ℕ} : i ∈ illegalClusterList k s ↔
    i < s.m_cluster.length ∧ isLegal k (s.clusterAt i) = false := by
  rw [illegalClusterList, (k.sort_perm _ _).mem_iff]
  simp

theorem lt_of_mem_legalClusterList : ∀ j ∈ legalClusterList k s, j < s.m_cluster.length :=
  fun _ hj => (mem_legalClusterList.mp hj).1

theorem lt_of_mem_illegalClusterList : ∀ a ∈ illegalClusterList k s, a < s.m_cluster.length :=
  fun _ ha => (mem_illegalClusterList.mp ha).1

theorem not_mem_legalClusterList : ∀ a ∈ illegalClusterList k s, a ∉ legalClusterList k s :=
  fun _ ha hal =>
    absurd ((mem_illegalClusterList.mp ha).2.symm.trans (mem_legalClusterList.mp hal).2) (by decide)

end

/-! ## Finite distances -/

/-- What `InitInfo` and `List2Matrix` give: no duration is negative, a point is bound to itself at
least, and distances on the earth are below `farAway`. -/
structure Regular (k : Kmeans) : Prop where
  dur_nonneg : ∀ node ∈ k.m_bindInfo, 0 ≤ node.m_dur
  bound_ne : ∀ node ∈ k.m_bindInfo, node.m_bindInfo ≠ []
  dist_lt : ∀ row ∈ k.m_baseMatrix, ∀ dist ∈ row, dist < farAway

section

variable {k : Kmeans} {p : ℕ} {centerIdx : Option ℕ}

theorem Regular.durOf_nonneg (h : Regular k) (p : ℕ) : 0 ≤ durOf k p := by
  rw [durOf]
  cases hp : k.m_bindInfo[p]? with
  | none => simp
  | some node => exact h.dur_nonneg node (List.mem_of_getElem? hp)

theorem Regular.getDist_lt (h : Regular k) (i j : ℕ) : getDist k i j < farAway := by
  rw [getDist, List.getD_eq_getElem?_getD, List.getD_eq_getElem?_getD]
  cases hrow : k.m_baseMatrix[i]? with
  | none => simp [farAway]
  | some row =>
    cases hdist : row[j]? with
    | none => simp [hdist, farAway]
    | some dist =>
      simpa [hdist] using
        h.dist_lt row (List.mem_of_getElem? hrow) dist (List.mem_of_getElem? hdist)

/-- A mean is below what all values are below. -/
theorem tdiv_lt_of_forall_lt {l : List Int} {bound : Int} (hne : l ≠ []) (hbound : 0 < bound)
    (h : ∀ x ∈ l, x < bound) : l.sum.tdiv l.length < bound := by
  have hlen : (0 : Int) < l.length := by
    have := List.length_pos_iff.mpr hne
    omega
  rcases le_or_gt 0 l.sum with hsum | hsum
  · have hle : l.sum ≤ l.length • (bound - 1) :=
      List.sum_le_card_nsmul l (bound - 1) fun x hx => by have := h x hx; omega
    rw [nsmul_eq_mul, mul_sub, mul_one, mul_comm] at hle
    rw [Int.tdiv_eq_ediv_of_nonneg hsum]
    exact Int.ediv_lt_of_lt_mul hlen (by omega)
  · have hle := Int.tdiv_le_tdiv hlen hsum.le
    rw [Int.zero_tdiv] at hle
    exact hle.trans_lt hbound

/-- The distance to a center that is a point, or to none, is finite. -/
theorem Regular.calPointToClusterDistOneNode_lt (h : Regular k) (hp : p < k.m_bindInfo.length)
    (hcenter : ∀ q ∈ centerIdx, q < k.m_bindInfo.length) :
    calPointToClusterDistOneNode k p centerIdx < farAway := by
  cases centerIdx with
  | none =>
    show emptyDist < farAway
    decide
  | some q =>
    have hq := hcenter q rfl
    simp only [calPointToClusterDistOneNode, List.getElem?_eq_getElem hp,
      List.getElem?_eq_getElem hq]
    have hne : (k.m_bindInfo[p].m_bindInfo.flatMap fun source =>
        k.m_bindInfo[q].m_bindInfo.map fun target => getDist k source target) ≠ [] := by
      obtain ⟨source, hsource⟩ :=
        List.exists_mem_of_ne_nil _ (h.bound_ne _ (List.getElem_mem hp))
      obtain ⟨target, htarget⟩ :=
        List.exists_mem_of_ne_nil _ (h.bound_ne _ (List.getElem_mem hq))
      exact List.ne_nil_of_mem
        (List.mem_flatMap.mpr ⟨source, hsource, List.mem_map_of_mem htarget⟩)
    rw [if_neg hne]
    refine tdiv_lt_of_forall_lt hne (by decide) fun x hx => ?_
    obtain ⟨source, -, hx⟩ := List.mem_flatMap.mp hx
    obtain ⟨target, -, rfl⟩ := List.mem_map.mp hx
    exact h.getDist_lt source target

/-- With regular data the distances that are not infinite are those of the points that the block
takes, and all of them are below `farAway`. -/
theorem Regular.finite_iff {t : ℕ → ℕ → Int} {j : ℕ} (h : Regular k)
    (hcol : IsColumn k t j centerIdx) (hcenter : ∀ q ∈ centerIdx, q < k.m_bindInfo.length)
    (hj : j < k.m_blockInfo.length) (hp : p < k.m_bindInfo.length) :
    (t p j ≠ intMax ↔ Takes k j p) ∧ (t p j < farAway ↔ Takes k j p) := by
  have htakes : t p j < farAway → Takes k j p := hcol.takes hj hp
  have hlt : Takes k j p → t p j < farAway := by
    rintro ⟨block, node, hblock, hnode, hadmits⟩
    rw [hcol p node block hnode hblock]
    rw [Admits] at hadmits
    rw [pointDist]
    by_cases hplay : block.m_is_not_play
    · rw [if_pos hplay] at hadmits ⊢
      rw [if_pos hadmits]
      decide
    · rw [if_neg hplay] at hadmits ⊢
      rw [if_neg hadmits]
      exact h.calPointToClusterDistOneNode_lt hp hcenter
  refine ⟨⟨fun hne => ?_, fun ht heq => ?_⟩, htakes, hlt⟩
  · by_contra hnot
    have hblock := List.getElem?_eq_getElem hj
    have hnode := List.getElem?_eq_getElem hp
    refine hne ((hcol p _ _ hnode hblock).trans (pointDist_of_not_admits fun hadmits => ?_))
    exact hnot ⟨_, _, hblock, hnode, hadmits⟩
  · have := hlt ht
    rw [heq] at this
    exact absurd this (by decide)

end

/-! ## States of a clustering -/

section

variable {σ : Type} [UnorderedSet σ ℕ] (k : Kmeans)

/-- What holds of the members of a `MyKmeans` once the table is calculated: the books are right,
`m_bidx` is the position, and a column is that for a center that is a point. -/
structure Clustering (s : State σ) : Prop where
  books : Books k s
  bidx : ∀ i < s.m_cluster.length, (s.clusterAt i).m_bidx = i
  column : ∀ j < s.m_cluster.length, ∃ centerIdx, IsColumn k s.m_P2Cluster j centerIdx ∧
    ∀ q ∈ centerIdx, q < k.m_bindInfo.length
  points_le : k.m_bindInfo.length ≤ tableSize
  clusters_le : s.m_cluster.length ≤ tableSize

end

variable {σ : Type} [UnorderedSet σ ℕ] {k : Kmeans} {s s' t : State σ} {legal l : List ℕ}
  {a b p : ℕ}

/-- A move between two clusters changes these two. -/
theorem movePoint_clusters (hab : a ≠ b)
    (h : movePointFromClusterAToClusterB k s p a b = .ok s') :
    s'.m_cluster.length = s.m_cluster.length ∧
      s'.clusterAt a = (s.clusterAt a).without k p ∧ s'.clusterAt b = (s.clusterAt b).plus k p ∧
      ∀ i, i ≠ a → i ≠ b → s'.clusterAt i = s.clusterAt i := by
  obtain ⟨s₁, s₂, hsub, hadd, hc, -, -, -⟩ := movePoint_cases h
  obtain ⟨ca, _, hca, -, -, -, rfl⟩ := clusterSubPoint_cases hsub
  obtain ⟨cb, _, hcb, -, -, rfl⟩ := clusterAddPoint_cases hadd
  simp only [State.replace] at hcb hc
  rw [List.getElem?_set_ne hab] at hcb
  have ha := (List.getElem?_eq_some_iff.mp hca).1
  have hb := (List.getElem?_eq_some_iff.mp hcb).1
  rw [clusterAt_eq hca, clusterAt_eq hcb]
  refine ⟨by simp [hc], clusterAt_eq ?_, clusterAt_eq ?_, fun i hia hib => ?_⟩
  · rw [hc, List.getElem?_set_ne (Ne.symm hab), List.getElem?_set_self ha]
  · rw [hc, List.getElem?_set_self (by simpa using hb)]
  · rw [State.clusterAt, State.clusterAt, hc, List.getD_eq_getElem?_getD,
      List.getElem?_set_ne (Ne.symm hib), List.getElem?_set_ne (Ne.symm hia),
      ← List.getD_eq_getElem?_getD]

theorem getCenter_mem {set : σ} {q : ℕ} (h : getCenter k set = some q) : q ∈ toList set := by
  rw [getCenter] at h
  rcases mem_of_leastFrom h with h | h
  · exact List.mem_of_mem_head? h
  · exact h

/-- The center of a set of the result is a point. -/
theorem Books.center_lt (h : Books k s) {q : ℕ}
    (hq : s.clusterResult[a]?.bind (getCenter k) = some q) : q < k.m_bindInfo.length := by
  obtain ⟨set, hset, hcenter⟩ := Option.bind_eq_some_iff.mp hq
  have ha : a < s.m_cluster.length := by
    rw [← h.length_eq]
    exact (List.getElem?_eq_some_iff.mp hset).1
  have hc := getElem?_clusterAt ha
  exact h.isPoint q
    (mem_placed.mpr ⟨a, _, hc, (h.set_iff a _ set hc hset q).mp (getCenter_mem hcenter)⟩)

theorem Clustering.move (h : Clustering k s) (hab : a ≠ b)
    (hs' : movePointFromClusterAToClusterB k s p a b = .ok s') : Clustering k s' := by
  have hbooks := h.books.move hs'
  obtain ⟨hlen, hca, hcb, hother⟩ := movePoint_clusters hab hs'
  refine ⟨hbooks, fun i hi => ?_, fun j hj => ?_, h.points_le, hlen ▸ h.clusters_le⟩
  · refine Eq.trans ?_ (h.bidx i (hlen ▸ hi))
    by_cases hia : i = a
    · rw [hia, hca]
      rfl
    by_cases hib : i = b
    · rw [hib, hcb]
      rfl
    rw [hother i hia hib]
  · obtain ⟨-, -, -, -, -, -, hcol, hstay⟩ := movePoint_cases hs'
    by_cases hjab : j = a ∨ j = b
    · exact ⟨_, hcol j hjab, fun q hq => hbooks.center_lt hq⟩
    · obtain ⟨centerIdx, hcenter, hpoint⟩ := h.column j (hlen ▸ hj)
      obtain ⟨hja, hjb⟩ := not_or.mp hjab
      exact ⟨centerIdx, hcenter.congr fun i => hstay i j hja hjb, hpoint⟩

/-! ## One round -/

/-- A point of the cluster could go to a cluster that was legal: there is time, room and a finite
distance. -/
def Movable (k : Kmeans) (s : State σ) (legal : List ℕ) (a : ℕ) : Prop :=
  ∃ p ∈ (s.clusterAt a).m_node, ∃ j ∈ legal,
    hasRoom k (s.clusterAt j) (durOf k p) = true ∧ s.m_P2Cluster p j ≠ intMax

/-- The cluster is legal, has its least size, or holds no point that could go. -/
def Settled (k : Kmeans) (s : State σ) (legal : List ℕ) (a : ℕ) : Prop :=
  isLegal k (s.clusterAt a) = true ∨
    (s.clusterAt a).m_node.length ≤ numLeast k (s.clusterAt a) ∨ ¬ Movable k s legal a

/-- What the rounds of the clusters in `l` do. -/
structure Switched (k : Kmeans) (legal l : List ℕ) (s t : State σ) : Prop where
  clustering : Clustering k t
  placed : t.placed.Perm s.placed
  length : t.m_cluster.length = s.m_cluster.length
  isLegal : ∀ j ∈ legal, isLegal k (s.clusterAt j) = true → isLegal k (t.clusterAt j) = true
  fuller : Regular k → ∀ j ∈ legal, (s.clusterAt j).Fuller (t.clusterAt j)
  other : ∀ i ∉ legal, i ∉ l → t.clusterAt i = s.clusterAt i

theorem Switched.refl (h : Clustering k s) : Switched k legal l s s :=
  ⟨h, List.Perm.refl _, rfl, fun _ _ => id, fun _ _ _ => .refl _, fun _ _ _ => rfl⟩

theorem Switched.mono {l' : List ℕ} (h : Switched k legal l s t) (hl : l ⊆ l') :
    Switched k legal l' s t :=
  { h with other := fun i hi hil => h.other i hi fun hil' => hil (hl hil') }

theorem Switched.trans (h : Switched k legal l s t) (h' : Switched k legal l t s') :
    Switched k legal l s s' where
  clustering := h'.clustering
  placed := h'.placed.trans h.placed
  length := h'.length.trans h.length
  isLegal j hj hs := h'.isLegal j hj (h.isLegal j hj hs)
  fuller hk j hj := (h.fuller hk j hj).trans (h'.fuller hk j hj)
  other i hi hia := (h'.other i hi hia).trans (h.other i hi hia)

/-- What the move of a pass does. -/
theorem switched_move {careGroup : Bool} (h : Clustering k s)
    (hlegal : ∀ j ∈ legal, j < s.m_cluster.length) (ha : a < s.m_cluster.length) (hal : a ∉ legal)
    (hfind : findMove k s legal (s.clusterAt a) careGroup = some (p, b)) :
    ∃ s', movePointFromClusterAToClusterB k s p (s.clusterAt a).m_bidx b = .ok s' ∧
      Switched k legal [a] s s' ∧ p ∈ (s.clusterAt a).m_node ∧
      s'.clusterAt a = (s.clusterAt a).without k p ∧
      ∀ j ∈ legal, s'.clusterAt j =
        if j = b then (s.clusterAt j).plus k p else s.clusterAt j := by
  obtain ⟨-, hp, -, j, hj, hroom, rfl⟩ := findMove_eq_some hfind
  have hjl := hlegal j hj
  rw [h.bidx a ha, h.bidx j hjl]
  have haj : a ≠ j := fun haj => hal (haj ▸ hj)
  obtain ⟨s', hs'⟩ := h.books.move_ok hp ha hjl h.points_le h.clusters_le
  obtain ⟨hlen, hca, hcj, hother⟩ := movePoint_clusters haj hs'
  have hat : ∀ i ∈ legal, s'.clusterAt i =
      if i = j then (s.clusterAt i).plus k p else s.clusterAt i := by
    intro i hi
    split_ifs with hij
    · exact hij ▸ hcj
    · exact hother i (fun hia => hal (hia ▸ hi)) hij
  refine ⟨s', hs', ⟨h.move haj hs', movePoint_placed hs', hlen, ?_, ?_, ?_⟩, hp, hca, hat⟩
  · intro i hi hs
    rw [hat i hi]
    split_ifs with hij
    · exact isLegal_plus (hij ▸ hroom)
    · exact hs
  · intro hk i hi
    rw [hat i hi]
    split_ifs with hij
    · exact ClusterNode.fuller_plus (hk.durOf_nonneg p)
    · exact .refl _
  · exact fun i hi hia => hother i (by simpa using hia) fun hij => hi (hij ▸ hj)

/-! ## Settled clusters -/

theorem Clustering.finite_iff (h : Clustering k s) (hk : Regular k) {j : ℕ}
    (hj : j < s.m_cluster.length) (ha : a < s.m_cluster.length)
    (hp : p ∈ (s.clusterAt a).m_node) :
    (s.m_P2Cluster p j ≠ intMax ↔ Takes k j p) ∧ (s.m_P2Cluster p j < farAway ↔ Takes k j p) := by
  obtain ⟨centerIdx, hcol, hcenter⟩ := h.column j hj
  exact hk.finite_iff hcol hcenter (h.books.lt_blocks hj)
    (h.books.isPoint p (mem_placed.mpr ⟨a, _, getElem?_clusterAt ha, hp⟩))

theorem Clustering.movable_iff (h : Clustering k s) (hk : Regular k)
    (hlegal : ∀ j ∈ legal, j < s.m_cluster.length) (ha : a < s.m_cluster.length) :
    Movable k s legal a ↔ ∃ p ∈ (s.clusterAt a).m_node, ∃ j ∈ legal,
      Takes k j p ∧ hasRoom k (s.clusterAt j) (durOf k p) = true := by
  constructor
  · rintro ⟨p, hp, j, hj, hroom, hfinite⟩
    exact ⟨p, hp, j, hj, (h.finite_iff hk (hlegal j hj) ha hp).1.mp hfinite, hroom⟩
  · rintro ⟨p, hp, j, hj, htakes, hroom⟩
    exact ⟨p, hp, j, hj, hroom, (h.finite_iff hk (hlegal j hj) ha hp).1.mpr htakes⟩

/-- The rounds of other clusters leave no more room to the points of a cluster. -/
theorem Settled.switched {i : ℕ} (hi : Settled k s legal i) (hk : Regular k) (h : Clustering k s)
    (hs' : Switched k legal l s s') (hlegal : ∀ j ∈ legal, j < s.m_cluster.length)
    (hlen : i < s.m_cluster.length) (hlt : i ∉ legal) (hil : i ∉ l) : Settled k s' legal i := by
  have hc := hs'.other i hlt hil
  rw [Settled, hc]
  refine hi.imp id (Or.imp id fun hnot hmov => hnot ?_)
  rw [hs'.clustering.movable_iff hk (hs'.length ▸ hlegal) (hs'.length ▸ hlen)] at hmov
  obtain ⟨p, hp, j, hj, htakes, hroom⟩ := hmov
  rw [h.movable_iff hk hlegal hlen]
  exact ⟨p, hc ▸ hp, j, hj, htakes, (hs'.fuller hk j hj).hasRoom hroom⟩

/-- If the second pass finds nothing, no point could go. -/
theorem settled_of_findMove (h : Clustering k s) (hk : Regular k)
    (hlegal : ∀ j ∈ legal, j < s.m_cluster.length) (ha : a < s.m_cluster.length)
    (hfind : findMove k s legal (s.clusterAt a) false = none) : Settled k s legal a := by
  by_cases hlen : numLeast k (s.clusterAt a) < (s.clusterAt a).m_node.length
  · refine .inr (.inr fun hmov => ?_)
    obtain ⟨p, hp, j, hj, hroom, hfinite⟩ := hmov
    have hmem := mem_candidates_false hlen hp hj hroom
    rw [h.bidx j (hlegal j hj)] at hmem
    have hfar := least_eq_none_iff.mp hfind _ hmem
    have hiff := h.finite_iff hk (hlegal j hj) ha hp
    exact absurd (hiff.2.mpr (hiff.1.mp hfinite)) (not_lt.mpr hfar)
  · exact .inr (.inl (not_lt.mp hlen))

/-! ## The rounds of a cluster -/

/-- If only the second pass finds a move, the cluster is legal without the point, or has its least
size, or none of its other points could go then. -/
def SecondPassSuffices (k : Kmeans) (legal : List ℕ) (s : State σ) (a : ℕ) : Prop :=
  ∀ p b, findMove k s legal (s.clusterAt a) true = none →
    findMove k s legal (s.clusterAt a) false = some (p, b) →
    let c := (s.clusterAt a).without k p
    isLegal k c = true ∨ c.m_node.length ≤ numLeast k c ∨
      ∀ q ∈ c.m_node, ∀ j ∈ legal, Takes k j q →
        hasRoom k (if j = b then (s.clusterAt j).plus k p else s.clusterAt j) (durOf k q) = false

/-- The rounds of a cluster from `s` come to a round in `t`. -/
inductive LoopRound (k : Kmeans) (legal : List ℕ) (a : ℕ) : State σ → State σ → Prop where
  | here {s : State σ} : isLegal k (s.clusterAt a) = false → LoopRound k legal a s s
  | again {s s' t : State σ} {p b : ℕ} : isLegal k (s.clusterAt a) = false →
      findMove k s legal (s.clusterAt a) true = some (p, b) →
      movePointFromClusterAToClusterB k s p (s.clusterAt a).m_bidx b = .ok s' →
      LoopRound k legal a s' t → LoopRound k legal a s t

/-- On its way over the clusters of the list from `s`, the loop comes to `a` in `t`. -/
inductive Begins (k : Kmeans) (legal : List ℕ) : State σ → List ℕ → State σ → ℕ → Prop where
  | here {s : State σ} {a : ℕ} {rest : List ℕ} : Begins k legal s (a :: rest) s a
  | next {s s' t : State σ} {a c : ℕ} {rest : List ℕ} : switchCluster k legal s a = .ok s' →
      Begins k legal s' rest t c → Begins k legal s (a :: rest) t c

/-- After the move of a second pass the cluster is settled if the pass suffices, and only then. -/
theorem settled_move_iff (hk : Regular k) (h : Clustering k s)
    (hlegal : ∀ j ∈ legal, j < s.m_cluster.length) (ha : a < s.m_cluster.length) (hal : a ∉ legal)
    (hfirst : findMove k s legal (s.clusterAt a) true = none)
    (hsecond : findMove k s legal (s.clusterAt a) false = some (p, b))
    (hs' : movePointFromClusterAToClusterB k s p (s.clusterAt a).m_bidx b = .ok s') :
    Settled k s' legal a ↔ SecondPassSuffices k legal s a := by
  obtain ⟨s₁, hs₁, hswitch, -, hca, hat⟩ := switched_move h hlegal ha hal hsecond
  obtain rfl : s₁ = s' := Except.ok.inj (hs₁.symm.trans hs')
  have hmov := hswitch.clustering.movable_iff hk (hswitch.length ▸ hlegal) (hswitch.length ▸ ha)
  rw [hca] at hmov
  have hnot : ¬ Movable k s₁ legal a ↔
      ∀ q ∈ ((s.clusterAt a).without k p).m_node, ∀ j ∈ legal, Takes k j q →
        hasRoom k (if j = b then (s.clusterAt j).plus k p else s.clusterAt j) (durOf k q) =
          false := by
    rw [hmov]
    constructor
    · intro hno q hq j hj htakes
      rw [← hat j hj]
      by_contra hroom
      exact hno ⟨q, hq, j, hj, htakes, by simpa using hroom⟩
    · rintro hno ⟨q, hq, j, hj, htakes, hroom⟩
      rw [hat j hj, hno q hq j hj htakes] at hroom
      cases hroom
  rw [Settled, hca, hnot]
  refine ⟨fun hset q c _ hq => ?_, fun hsuff => hsuff p b hfirst hsecond⟩
  obtain ⟨rfl, rfl⟩ := Prod.mk.inj (Option.some.inj (hsecond.symm.trans hq))
  exact hset

theorem not_loopRound (h : isLegal k (s.clusterAt a) = true) : ¬ LoopRound k legal a s t := by
  intro ht
  cases ht with
  | here h' => exact absurd (h.symm.trans h') (by decide)
  | again h' => exact absurd (h.symm.trans h') (by decide)

/-- After a move of the first pass the rounds go on. -/
theorem forall_loopRound_of_first {C : State σ → Prop} (h : isLegal k (s.clusterAt a) = false)
    (hfirst : findMove k s legal (s.clusterAt a) true = some (p, b))
    (hs' : movePointFromClusterAToClusterB k s p (s.clusterAt a).m_bidx b = .ok s') (hC : C s) :
    (∀ t, LoopRound k legal a s t → C t) ↔ ∀ t, LoopRound k legal a s' t → C t := by
  refine ⟨fun hall t ht => hall t (.again h hfirst hs' ht), fun hall t ht => ?_⟩
  cases ht with
  | here => exact hC
  | again _ hfirst' hs₁ ht =>
    obtain ⟨rfl, rfl⟩ := Prod.mk.inj (Option.some.inj (hfirst.symm.trans hfirst'))
    obtain rfl := Except.ok.inj (hs'.symm.trans hs₁)
    exact hall t ht

/-- If the first pass finds nothing, the round is the last. -/
theorem forall_loopRound_of_none {C : State σ → Prop} (h : isLegal k (s.clusterAt a) = false)
    (hfirst : findMove k s legal (s.clusterAt a) true = none) :
    (∀ t, LoopRound k legal a s t → C t) ↔ C s := by
  refine ⟨fun hall => hall s (.here h), fun hC t ht => ?_⟩
  cases ht with
  | here => exact hC
  | again _ hfirst' => exact absurd (hfirst.symm.trans hfirst') (by simp)

/-- The rounds of a cluster end. They leave it settled if every second pass that moves a point
suffices, and only then. -/
theorem switchLoop_spec {fuel : ℕ} (h : Clustering k s)
    (hlegal : ∀ j ∈ legal, j < s.m_cluster.length) (ha : a < s.m_cluster.length) (hal : a ∉ legal)
    (hfuel : (s.clusterAt a).m_node.length < fuel) :
    ∃ s', switchLoop k legal a fuel s = .ok s' ∧ Switched k legal [a] s s' ∧
      (Regular k → (Settled k s' legal a ↔
        ∀ t, LoopRound k legal a s t → SecondPassSuffices k legal t a)) := by
  induction fuel generalizing s with
  | zero => omega
  | succ fuel ih =>
    cases hleg : isLegal k (s.clusterAt a) with
    | true =>
      refine ⟨s, by rw [switchLoop, if_pos hleg]; rfl, .refl h, fun _ => ?_⟩
      exact ⟨fun _ t ht => absurd ht (not_loopRound hleg), fun _ => .inl hleg⟩
    | false =>
      cases hfirst : findMove k s legal (s.clusterAt a) true with
      | some move =>
        obtain ⟨p, b⟩ := move
        obtain ⟨s₁, hs₁, hswitch, hp, hca, -⟩ := switched_move h hlegal ha hal hfirst
        have hsize : (s₁.clusterAt a).m_node.length < fuel := by
          have := List.length_erase_of_mem hp
          have := List.length_pos_of_mem hp
          rw [hca, ClusterNode.without]
          dsimp only
          omega
        obtain ⟨s', hs', hswitch', hiff⟩ := ih hswitch.clustering (hswitch.length ▸ hlegal)
          (hswitch.length ▸ ha) hsize
        refine ⟨s', ?_, hswitch.trans hswitch', fun hk => (hiff hk).trans ?_⟩
        · simp only [switchLoop, switchRound, hleg, hfirst, hs₁]
          exact hs'
        · refine (forall_loopRound_of_first hleg hfirst hs₁ fun q c hnone => ?_).symm
          exact absurd (hfirst.symm.trans hnone) (by simp)
      | none =>
        cases hsecond : findMove k s legal (s.clusterAt a) false with
        | some move =>
          obtain ⟨p, b⟩ := move
          obtain ⟨s', hs', hswitch, -⟩ := switched_move h hlegal ha hal hsecond
          refine ⟨s', ?_, hswitch, fun hk => ?_⟩
          · simp only [switchLoop, switchRound, hleg, hfirst, hsecond, hs']
            rfl
          · rw [forall_loopRound_of_none hleg hfirst]
            exact settled_move_iff hk h hlegal ha hal hfirst hsecond hs'
        | none =>
          refine ⟨s, ?_, .refl h, fun hk => ?_⟩
          · simp only [switchLoop, switchRound, hleg, hfirst, hsecond]
            rfl
          · rw [forall_loopRound_of_none hleg hfirst]
            refine ⟨fun _ q c _ hq => ?_, fun _ => settled_of_findMove h hk hlegal ha hsecond⟩
            exact absurd (hsecond.symm.trans hq) (by simp)

theorem switchCluster_spec (h : Clustering k s) (hlegal : ∀ j ∈ legal, j < s.m_cluster.length)
    (ha : a < s.m_cluster.length) (hal : a ∉ legal) :
    ∃ s', switchCluster k legal s a = .ok s' ∧ Switched k legal [a] s s' ∧
      (Regular k → (Settled k s' legal a ↔
        ∀ t, LoopRound k legal a s t → SecondPassSuffices k legal t a)) :=
  switchLoop_spec h hlegal ha hal (Nat.lt_succ_self _)

/-! ## All clusters -/

theorem foldlM_switchCluster (h : Clustering k s) (hlegal : ∀ j ∈ legal, j < s.m_cluster.length)
    (hlen : ∀ a ∈ l, a < s.m_cluster.length) (hl : ∀ a ∈ l, a ∉ legal) (hnodup : l.Nodup) :
    ∃ s', l.foldlM (switchCluster k legal) s = .ok s' ∧ Switched k legal l s s' ∧
      (Regular k → (∀ t t' a, Begins k legal s l t a → switchCluster k legal t a = .ok t' →
        Settled k t' legal a) → ∀ a ∈ l, Settled k s' legal a) := by
  induction l generalizing s with
  | nil => exact ⟨s, rfl, .refl h, by simp⟩
  | cons a l ih =>
    obtain ⟨hal, hnodup⟩ := List.nodup_cons.mp hnodup
    have ha := hlen a (by simp)
    have hla := hl a (by simp)
    obtain ⟨s₁, hs₁, hswitch, -⟩ := switchCluster_spec h hlegal ha hla
    have hlegal₁ : ∀ j ∈ legal, j < s₁.m_cluster.length := hswitch.length ▸ hlegal
    obtain ⟨s', hs', hswitch', hall⟩ := ih hswitch.clustering hlegal₁
      (fun c hc => hswitch.length ▸ hlen c (by simp [hc])) (fun c hc => hl c (by simp [hc])) hnodup
    refine ⟨s', ?_, (hswitch.mono (by simp)).trans (hswitch'.mono (by simp)), fun hk hend => ?_⟩
    · rw [List.foldlM_cons, hs₁]
      exact hs'
    · intro c hc
      rcases List.mem_cons.mp hc with rfl | hc
      · have hset := hend s s₁ c .here hs₁
        exact hset.switched hk hswitch.clustering hswitch' hlegal₁ (hswitch.length ▸ ha) hla hal
      · exact hall hk (fun t t' d ht => hend t t' d (.next hs₁ ht)) c hc

/-- Every cluster is settled when its rounds end if every second pass that moves a point suffices,
and only then. -/
theorem forall_settled_iff (hk : Regular k) (h : Clustering k s)
    (hlegal : ∀ j ∈ legal, j < s.m_cluster.length) (hlen : ∀ a ∈ l, a < s.m_cluster.length)
    (hl : ∀ a ∈ l, a ∉ legal) :
    (∀ t a, Begins k legal s l t a → ∀ r, LoopRound k legal a t r →
      SecondPassSuffices k legal r a) ↔
    ∀ t t' a, Begins k legal s l t a → switchCluster k legal t a = .ok t' →
      Settled k t' legal a := by
  have hbegins : ∀ t a, Begins k legal s l t a → ∃ t', switchCluster k legal t a = .ok t' ∧
      (Settled k t' legal a ↔ ∀ r, LoopRound k legal a t r → SecondPassSuffices k legal r a) := by
    intro t a ht
    induction ht with
    | here =>
      obtain ⟨t', ht', -, hiff⟩ := switchCluster_spec h hlegal (hlen _ List.mem_cons_self)
          (hl _ List.mem_cons_self)
      exact ⟨t', ht', hiff hk⟩
    | next hs₁ _ ih =>
      obtain ⟨s₁, hs₁', hswitch, -⟩ :=
        switchCluster_spec h hlegal (hlen _ List.mem_cons_self)
          (hl _ List.mem_cons_self)
      obtain rfl := Except.ok.inj (hs₁'.symm.trans hs₁)
      exact ih hswitch.clustering (hswitch.length ▸ hlegal)
        (fun c hc => hswitch.length ▸ hlen c (by simp [hc])) fun c hc => hl c (by simp [hc])
  constructor
  · intro hsuff t t' a ht ht'
    obtain ⟨t₁, ht₁, hiff⟩ := hbegins t a ht
    obtain rfl := Except.ok.inj (ht₁.symm.trans ht')
    exact hiff.mpr (hsuff t a ht)
  · intro hset t a ht
    obtain ⟨t', ht', hiff⟩ := hbegins t a ht
    exact hiff.mp (hset t t' a ht ht')

theorem greedSwitchAllPoint_spec (h : Clustering k s) :
    ∃ s', greedSwitchAllPoint k s = .ok s' ∧
      Switched k (legalClusterList k s) (illegalClusterList k s) s s' ∧
      (Regular k → (∀ t t' a, Begins k (legalClusterList k s) s (illegalClusterList k s) t a →
          switchCluster k (legalClusterList k s) t a = .ok t' →
            Settled k t' (legalClusterList k s) a) →
        ∀ a ∈ illegalClusterList k s, Settled k s' (legalClusterList k s) a) :=
  foldlM_switchCluster h lt_of_mem_legalClusterList lt_of_mem_illegalClusterList
    not_mem_legalClusterList ((k.sort_perm _ _).nodup_iff.mpr (List.nodup_range.filter _))

/-- `GreedSwitchAllPoint` ends, loses no point and keeps legal clusters legal. Every cluster is
settled when its rounds end if and only if every second pass that moves a point suffices, and then
all are settled on return. -/
theorem greedSwitchAllPoint_settled (h : Clustering k s) :
    ∃ s', greedSwitchAllPoint k s = .ok s' ∧ s'.placed.Perm s.placed ∧
      (∀ i < s.m_cluster.length, isLegal k (s.clusterAt i) = true →
        isLegal k (s'.clusterAt i) = true) ∧
      (Regular k →
        let legal := legalClusterList k s
        let illegal := illegalClusterList k s
        ((∀ t a, Begins k legal s illegal t a → ∀ r, LoopRound k legal a t r →
            SecondPassSuffices k legal r a) ↔
          ∀ t t' a, Begins k legal s illegal t a → switchCluster k legal t a = .ok t' →
            Settled k t' legal a) ∧
        ((∀ t a, Begins k legal s illegal t a → ∀ r, LoopRound k legal a t r →
            SecondPassSuffices k legal r a) →
          ∀ i < s.m_cluster.length, Settled k s' legal i)) := by
  obtain ⟨s', hs', hswitch, hall⟩ := greedSwitchAllPoint_spec h
  have hkeep : ∀ i < s.m_cluster.length, isLegal k (s.clusterAt i) = true →
      isLegal k (s'.clusterAt i) = true := fun i hi hleg =>
    hswitch.isLegal i (mem_legalClusterList.mpr ⟨hi, hleg⟩) hleg
  refine ⟨s', hs', hswitch.placed, hkeep, fun hk => ?_⟩
  have hiff := forall_settled_iff hk h (lt_of_mem_legalClusterList (k := k))
    (lt_of_mem_illegalClusterList (k := k)) not_mem_legalClusterList
  refine ⟨hiff, fun hsuff i hi => ?_⟩
  cases hleg : isLegal k (s.clusterAt i) with
  | true => exact .inl (hkeep i hi hleg)
  | false => exact hall hk (hiff.mp hsuff) i (mem_illegalClusterList.mpr ⟨hi, hleg⟩)

/-! ## Four points in one cluster -/

section

variable (dur : Int)

/-- Four points near each other, and two blocks of three hours. -/
def fourPoints : Kmeans where
  m_bindInfo := (List.range 4).map fun i => ⟨i, dur, LY_PLACE_TYPE_VIEW, [i]⟩
  m_blockInfo := [⟨0, 10800, false⟩, ⟨1, 10800, false⟩]
  m_baseMatrix := [[0, 100, 100, 100], [100, 0, 100, 100], [100, 100, 0, 100], [100, 100, 100, 0]]
  m_clusterNum := 2
  getVType _ _ := NODE_FUNC_PLACE_VIEW_SHOP
  sort lt l := l.insertionSort (lt · ·)
  sort_perm _ _ := List.perm_insertionSort _ _

/-- All four points in one set. -/
def oneSet : List {l : List ℕ // l.Nodup} := [⟨[0, 1, 2, 3], by decide⟩, ⟨[], List.nodup_nil⟩]

/-- All four points in the first cluster, as `KmeansAdjust` puts them. -/
def fourTogether : State {l : List ℕ // l.Nodup} where
  m_P2Cluster i j := ((fourPoints dur).m_blockInfo[j]?).elim 0 fun block =>
    ((fourPoints dur).m_bindInfo[i]?).elim 0
      (pointDist (fourPoints dur) block (if j = 0 then some 0 else none) i)
  m_cluster := [⟨[0, 1, 2, 3], 4 * dur, 10800 - 4 * dur, 0⟩, ⟨[], 0, 10800, 1⟩]
  clusterResult := oneSet

theorem fourTogether_books : Books (fourPoints dur) (fourTogether dur) where
  length_eq := rfl
  set_iff
    | 0, c, set, hc, hset, p => by
      obtain rfl := Option.some.inj hc
      obtain rfl := Option.some.inj hset
      exact Iff.rfl
    | 1, c, set, hc, hset, p => by
      obtain rfl := Option.some.inj hc
      obtain rfl := Option.some.inj hset
      exact Iff.rfl
    | i + 2, c, set, hc, hset, p => by cases hc
  duration c hc := by
    rcases List.mem_cons.mp hc with rfl | hc
    · simp only [durOf, fourPoints, List.getElem?_map, List.map_cons, List.sum_cons]
      simp
      omega
    · obtain rfl := List.mem_singleton.mp hc
      rfl
  leftTime
    | 0, c, hc => by
      obtain rfl := Option.some.inj hc
      exact ⟨_, rfl, rfl⟩
    | 1, c, hc => by
      obtain rfl := Option.some.inj hc
      exact ⟨_, rfl, rfl⟩
    | i + 2, c, hc => by cases hc
  nodup := by
    show [0, 1, 2, 3].Nodup
    decide
  isPoint := by
    show ∀ p ∈ [0, 1, 2, 3], p < 4
    decide

theorem fourTogether_clustering : Clustering (fourPoints dur) (fourTogether dur) where
  books := fourTogether_books dur
  bidx
    | 0, _ => rfl
    | 1, _ => rfl
  column j _ := by
    refine ⟨if j = 0 then some 0 else none, fun i node block hnode hblock => ?_, fun q hq => ?_⟩
    · simp only [fourTogether, hnode, hblock]
      rfl
    · split_ifs at hq
      · obtain rfl := Option.some.inj hq
        show 0 < 4
        decide
      · cases hq
  points_le := by
    show 4 ≤ tableSize
    decide
  clusters_le := by
    show 2 ≤ tableSize
    decide

theorem fourPoints_regular (h : 0 ≤ dur) : Regular (fourPoints dur) where
  dur_nonneg node hnode := by
    obtain ⟨i, -, rfl⟩ := List.mem_map.mp hnode
    exact h
  bound_ne node hnode := by
    obtain ⟨i, -, rfl⟩ := List.mem_map.mp hnode
    exact List.cons_ne_nil i []
  dist_lt := by
    show ∀ row ∈ (fourPoints 0).m_baseMatrix, ∀ dist ∈ row, dist < farAway
    decide

end

/-- Without one of four points of 3000 seconds the cluster is legal. -/
theorem greedSwitchAllPoint_settled_fourTogether :
    ∃ s', greedSwitchAllPoint (fourPoints 3000) (fourTogether 3000) = .ok s' ∧
      s'.placed.Perm [0, 1, 2, 3] ∧ isLegal (fourPoints 3000) (s'.clusterAt 1) = true ∧
      ∀ i < 2, Settled (fourPoints 3000) s' [1] i := by
  have hill : illegalClusterList (fourPoints 3000) (fourTogether 3000) = [0] := by decide +kernel
  have hleg : legalClusterList (fourPoints 3000) (fourTogether 3000) = [1] := by decide +kernel
  obtain ⟨s', hs', hperm, hkeep, hset⟩ :=
    greedSwitchAllPoint_settled (fourTogether_clustering 3000)
  have hall := (hset (fourPoints_regular 3000 (by decide))).2 fun t a ht => ?_
  · rw [hleg] at hall
    exact ⟨s', hs', hperm, hkeep 1 (by decide) (by decide +kernel), hall⟩
  · rw [hill, hleg] at ht
    cases ht with
    | here =>
      rw [hleg, forall_loopRound_of_none (by decide +kernel) (by decide +kernel)]
      intro p b _ hsecond
      have hmove : findMove (fourPoints 3000) (fourTogether 3000) [1]
          ((fourTogether 3000).clusterAt 0) false = some (0, 1) := by decide +kernel
      obtain ⟨rfl, rfl⟩ := Prod.mk.inj (Option.some.inj (hmove.symm.trans hsecond))
      exact .inl (by decide +kernel)
    | next _ ht => cases ht

/-- Of four points of 5000 seconds one goes. The cluster stays too long by 4200 seconds, and the
other has 5800 seconds left. -/
theorem not_greedSwitchAllPoint_settled :
    ¬ ∀ (σ : Type) [UnorderedSet σ ℕ] (k : Kmeans) (s : State σ), Clustering k s → Regular k →
      ∃ s', greedSwitchAllPoint k s = .ok s' ∧ s'.placed.Perm s.placed ∧
        (∀ i < s.m_cluster.length, isLegal k (s.clusterAt i) = true →
          isLegal k (s'.clusterAt i) = true) ∧
        ∀ i < s.m_cluster.length, Settled k s' (legalClusterList k s) i := by
  intro h
  obtain ⟨s', hs', -, -, hset⟩ := h _ (fourPoints 5000) (fourTogether 5000)
    (fourTogether_clustering 5000) (fourPoints_regular 5000 (by decide))
  have hleg : legalClusterList (fourPoints 5000) (fourTogether 5000) = [1] := by decide +kernel
  have hrun : (greedSwitchAllPoint (fourPoints 5000) (fourTogether 5000)).toOption.map
      (fun t => (t.clusterAt 0, t.clusterAt 1, t.m_P2Cluster 1 1)) =
        some (⟨[1, 2, 3], 15000, -4200, 0⟩, ⟨[0], 5000, 5800, 1⟩, 100) := by decide +kernel
  rw [hs'] at hrun
  simp only [Except.toOption, Option.map_some, Option.some.injEq, Prod.mk.injEq] at hrun
  obtain ⟨hfirst, hsecond, hdist⟩ := hrun
  have hzero := hset 0 (by decide)
  rw [hleg, Settled, hfirst] at hzero
  rcases hzero with hlegal | hsize | hnot
  · exact absurd hlegal (by decide +kernel)
  · exact absurd hsize (by decide +kernel)
  · refine hnot ⟨1, by simp [hfirst], 1, by simp, ?_, ?_⟩
    · rw [hsecond]
      decide +kernel
    · rw [hdist]
      decide

end PPView.MyKmeans
