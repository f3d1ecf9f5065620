import Mathlib.Algebra.BigOperators.Group.List.Basic
import PPView.Bag.MyKmeans

/-!
# The books of the clusters

What is in a cluster is kept three times: as the list `m_node`, as the set of the result, and in
the times. `Books` says that the three agree and that no point is in two clusters. `KmeansAdjust`
leaves the books so, and a move keeps them.
-/

namespace PPView.MyKmeans

open UnorderedSet (toList ofList)

/-- Replacing one list of many changes the whole by what the list held. -/
theorem exists_perm_set {α β : Type} (f : α → List β) {l : List α} {i : ℕ} {a : α}
    (h : l[i]? = some a) :
    ∃ rest, (l.flatMap f).Perm (f a ++ rest) ∧
      ∀ a', ((l.set i a').flatMap f).Perm (f a' ++ rest) := by
  induction l generalizing i with
  | nil => simp at h
  | cons b l ih =>
    cases i with
    | zero =>
      obtain rfl : b = a := by simpa using h
      exact ⟨l.flatMap f, by simp, by simp⟩
    | succ i =>
      obtain ⟨rest, hperm, hset⟩ := ih (by simpa using h)
      refine ⟨f b ++ rest, ?_, fun a' => ?_⟩
      · exact (hperm.append_left (f b)).trans (List.perm_append_comm_assoc _ _ _)
      · exact ((hset a').append_left (f b)).trans (List.perm_append_comm_assoc _ _ _)

theorem eq_of_getElem?_set {α : Type} {l : List α} {i : ℕ} {a b : α}
    (h : (l.set i a)[i]? = some b) : a = b := by
  have hi := (List.getElem?_eq_some_iff.mp h).1
  rw [List.getElem?_set_self (by simpa using hi)] at h
  exact Option.some.inj h

section

variable {σ : Type} {k : Kmeans} {s s' : State σ} {a p : ℕ}

theorem mem_placed : p ∈ s.placed ↔
    ∃ (i : ℕ) (c : ClusterNode), s.m_cluster[i]? = some c ∧ p ∈ c.m_node := by
  constructor
  · intro h
    obtain ⟨c, hc, hp⟩ := List.mem_flatMap.mp h
    obtain ⟨i, hi⟩ := List.mem_iff_getElem?.mp hc
    exact ⟨i, c, hi, hp⟩
  · rintro ⟨i, c, hc, hp⟩
    exact List.mem_flatMap.mpr ⟨c, List.mem_of_getElem? hc, hp⟩

theorem clusterAt_eq {c : ClusterNode} (h : s.m_cluster[a]? = some c) : s.clusterAt a = c := by
  simp [State.clusterAt, List.getD_eq_getElem?_getD, h]

theorem getElem?_clusterAt (h : a < s.m_cluster.length) :
    s.m_cluster[a]? = some (s.clusterAt a) := by
  simp [State.clusterAt, List.getD_eq_getElem?_getD, List.getElem?_eq_getElem h]

theorem durOf_eq {node : NodeInfo} (h : k.m_bindInfo[p]? = some node) :
    durOf k p = node.m_dur := by
  simp [durOf, h]

/-! ## The table -/

/-- The column of a cluster is that for the center. -/
def IsColumn (k : Kmeans) (m_P2Cluster : ℕ → ℕ → Int) (j : ℕ) (centerIdx : Option ℕ) : Prop :=
  ∀ (i : ℕ) (node : NodeInfo) (block : BlockInfo), k.m_bindInfo[i]? = some node →
    k.m_blockInfo[j]? = some block → m_P2Cluster i j = pointDist k block centerIdx i node

theorem IsColumn.congr {t t' : ℕ → ℕ → Int} {j : ℕ} {centerIdx : Option ℕ}
    (h : IsColumn k t j centerIdx) (ht : ∀ i, t' i j = t i j) : IsColumn k t' j centerIdx :=
  fun i node block hnode hblock => (ht i).trans (h i node block hnode hblock)

theorem calPointToClusterDistOneCluster_cases {centerIdx : Option ℕ}
    (h : calPointToClusterDistOneCluster k s a centerIdx = .ok s') :
    s'.m_cluster = s.m_cluster ∧ s'.clusterResult = s.clusterResult ∧
      IsColumn k s'.m_P2Cluster a centerIdx ∧
      ∀ i j, j ≠ a → s'.m_P2Cluster i j = s.m_P2Cluster i j := by
  rw [calPointToClusterDistOneCluster] at h
  by_cases hempty : k.m_bindInfo = []
  · rw [if_pos hempty] at h
    obtain rfl := Except.ok.inj h
    exact ⟨rfl, rfl, fun i node block hnode => by simp [hempty] at hnode, fun _ _ _ => rfl⟩
  · rw [if_neg hempty] at h
    split at h
    · cases h
    · rename_i block hblock
      split_ifs at h
      obtain rfl := Except.ok.inj h
      refine ⟨rfl, rfl, fun i node block' hnode hblock' => ?_, fun i j hj => ?_⟩
      · obtain rfl : block = block' := Option.some.inj (hblock.symm.trans hblock')
        simp [hnode]
      · simp [hj]

theorem calPointToClusterDistOneCluster_ok {centerIdx : Option ℕ}
    (ha : a < k.m_blockInfo.length) (hpoints : k.m_bindInfo.length ≤ tableSize)
    (hlt : a < tableSize) : ∃ s', calPointToClusterDistOneCluster k s a centerIdx = .ok s' := by
  rw [calPointToClusterDistOneCluster]
  by_cases hempty : k.m_bindInfo = []
  · exact ⟨s, if_pos hempty⟩
  · rw [if_neg hempty, List.getElem?_eq_getElem ha]
    exact ⟨_, if_pos ⟨hpoints, hlt⟩⟩

/-- The columns before the first center stay, and those of the centers are written. -/
theorem calPointToClusterDist_columns {vCenter : List (Option ℕ)} {n : ℕ}
    (h : (vCenter.zipIdx n).foldlM
      (fun s (centerIdx, i) => calPointToClusterDistOneCluster k s i centerIdx) s = .ok s') :
    s'.m_cluster = s.m_cluster ∧ s'.clusterResult = s.clusterResult ∧
      (∀ i, ∀ j < n, s'.m_P2Cluster i j = s.m_P2Cluster i j) ∧
      ∀ (j : ℕ) (centerIdx : Option ℕ), vCenter[j]? = some centerIdx →
        IsColumn k s'.m_P2Cluster (n + j) centerIdx := by
  induction vCenter generalizing n s with
  | nil =>
    obtain rfl : s = s' := by simpa [pure, Except.pure] using h
    exact ⟨rfl, rfl, fun _ _ _ => rfl, by simp⟩
  | cons centerIdx vCenter ih =>
    rw [List.zipIdx_cons, List.foldlM_cons] at h
    obtain ⟨s₁, hs₁, h⟩ := bind_ok.mp h
    obtain ⟨hc, hr, hcol, hother⟩ := calPointToClusterDistOneCluster_cases hs₁
    obtain ⟨hc', hr', hstay, hcols⟩ := ih h
    refine ⟨hc'.trans hc, hr'.trans hr, fun i j hj => ?_, fun j center hcenter => ?_⟩
    · exact (hstay i j (by omega)).trans (hother i j hj.ne)
    · cases j with
      | zero =>
        obtain rfl : centerIdx = center := by simpa using hcenter
        exact hcol.congr fun i => hstay i n (by omega)
      | succ j =>
        have := hcols j center (by simpa using hcenter)
        rwa [Nat.add_assoc, Nat.add_comm 1] at this

theorem calPointToClusterDist_cases {vCenter : List (Option ℕ)}
    (h : calPointToClusterDist k s vCenter = .ok s') :
    s'.m_cluster = s.m_cluster ∧ s'.clusterResult = s.clusterResult ∧
      ∀ (j : ℕ) (centerIdx : Option ℕ), vCenter[j]? = some centerIdx →
        IsColumn k s'.m_P2Cluster j centerIdx := by
  obtain ⟨hc, hr, -, hcols⟩ := calPointToClusterDist_columns h
  exact ⟨hc, hr, by simpa using hcols⟩

/-- All columns are written if there is a center for each. -/
theorem exists_isColumn {vCenter : List (Option ℕ)}
    (h : calPointToClusterDist k s vCenter = .ok s') :
    ∀ j < vCenter.length, ∃ centerIdx, IsColumn k s'.m_P2Cluster j centerIdx := fun j hj =>
  ⟨_, (calPointToClusterDist_cases h).2.2 j _ (List.getElem?_eq_getElem hj)⟩

theorem calPointToClusterDist_ok {vCenter : List (Option ℕ)}
    (hpoints : k.m_bindInfo.length ≤ tableSize)
    (hblocks : vCenter.length ≤ k.m_blockInfo.length) (hlen : vCenter.length ≤ tableSize) :
    ∃ s', calPointToClusterDist k s vCenter = .ok s' := by
  have hstep : ∀ t : State σ, ∀ c ∈ vCenter.zipIdx, True →
      ∃ t', calPointToClusterDistOneCluster k t c.2 c.1 = .ok t' ∧ True := by
    intro t c hc _
    have hi := List.snd_lt_of_mem_zipIdx hc
    obtain ⟨t', ht'⟩ := calPointToClusterDistOneCluster_ok (s := t) (hi.trans_le hblocks) hpoints
      (hi.trans_le hlen)
    exact ⟨t', ht', trivial⟩
  obtain ⟨s', hs', -⟩ := foldlM_ok hstep trivial
  exact ⟨s', hs'⟩

/-! ## Filling the clusters -/

/-- The cluster has the least distance to the point, and that is finite. -/
structure Nearest (k : Kmeans) (m_P2Cluster : ℕ → ℕ → Int) (p j : ℕ) : Prop where
  lt_clusterNum : j < k.m_clusterNum
  lt_farAway : m_P2Cluster p j < farAway
  le : ∀ j' < k.m_clusterNum, m_P2Cluster p j ≤ m_P2Cluster p j'

theorem placePoint_cases {m_P2Cluster : ℕ → ℕ → Int} {clusters clusters' : List ClusterNode} {i : ℕ}
    (h : placePoint k m_P2Cluster clusters i = .ok clusters') :
    clusters' = clusters ∨ ∃ (j : ℕ) (c : ClusterNode), clusters[j]? = some c ∧
      Nearest k m_P2Cluster i j ∧
      clusters' = clusters.set j { c with m_node := c.m_node ++ [i] } := by
  simp only [placePoint] at h
  split_ifs at h
  split at h
  · exact .inl (Except.ok.inj h).symm
  · rename_i j hj
    obtain ⟨hmem, hlt, hmin⟩ := mem_of_least hj
    split_ifs at h with hlen
    refine .inr ⟨j, clusters[j], List.getElem?_eq_getElem hlen,
      ⟨List.mem_range.mp hmem, hlt, fun j' hj' => hmin j' (List.mem_range.mpr hj')⟩, ?_⟩
    rw [← Except.ok.inj h, List.modify_eq_set_getElem?]
    simp [List.getElem?_eq_getElem hlen]

theorem map_bidx_set {clusters : List ClusterNode} {j : ℕ} {c d : ClusterNode}
    (h : clusters[j]? = some c) (hd : d.m_bidx = c.m_bidx) :
    (clusters.set j d).map (·.m_bidx) = clusters.map (·.m_bidx) := by
  obtain ⟨hj, rfl⟩ := List.getElem?_eq_some_iff.mp h
  rw [List.map_set, hd, ← List.getElem_map ClusterNode.m_bidx (h := by simpa using hj),
    List.set_getElem_self]

/-- Each point is put into a nearest cluster, or into none. -/
theorem fill_spec {m_P2Cluster : ℕ → ℕ → Int} {l : List ℕ} {clusters filled : List ClusterNode}
    (h : l.foldlM (placePoint k m_P2Cluster) clusters = .ok filled) :
    filled.map (·.m_bidx) = clusters.map (·.m_bidx) ∧
    (∃ put, put.Sublist l ∧
      (filled.flatMap (·.m_node)).Perm (clusters.flatMap (·.m_node) ++ put)) ∧
    ∀ (j : ℕ) (c : ClusterNode), filled[j]? = some c → ∀ p ∈ c.m_node,
      (∃ c₀ : ClusterNode, clusters[j]? = some c₀ ∧ p ∈ c₀.m_node) ∨
        Nearest k m_P2Cluster p j := by
  induction l generalizing clusters with
  | nil =>
    obtain rfl : clusters = filled := by simpa [pure, Except.pure] using h
    exact ⟨rfl, ⟨[], List.Sublist.refl _, by simp⟩, fun j c hc p hp => .inl ⟨c, hc, hp⟩⟩
  | cons i l ih =>
    rw [List.foldlM_cons] at h
    obtain ⟨clusters', hplace, h⟩ := bind_ok.mp h
    obtain ⟨hbidx, ⟨put, hput, hperm⟩, hin⟩ := ih h
    rcases placePoint_cases hplace with rfl | ⟨j, c, hc, hnear, rfl⟩
    · exact ⟨hbidx, ⟨put, hput.cons i, hperm⟩, hin⟩
    · obtain ⟨rest, hrest, hset⟩ := exists_perm_set (·.m_node) hc
      refine ⟨hbidx.trans (map_bidx_set hc rfl), ⟨i :: put, hput.cons_cons i, ?_⟩, ?_⟩
      · have hput : ((clusters.set j { c with m_node := c.m_node ++ [i] }).flatMap
            (·.m_node)).Perm (clusters.flatMap (·.m_node) ++ [i]) := by
          refine (hset _).trans (List.Perm.trans ?_ (hrest.symm.append_right [i]))
          simp only [List.append_assoc]
          exact List.perm_append_comm.append_left c.m_node
        refine hperm.trans ((hput.append_right put).trans ?_)
        simp
      · intro j' c' hc' p hp
        rcases hin j' c' hc' p hp with ⟨c₀, hc₀, hp₀⟩ | hnear'
        · by_cases hjj : j = j'
          · subst hjj
            obtain rfl := eq_of_getElem?_set hc₀
            rcases List.mem_append.mp hp₀ with hp₀ | hp₀
            · exact .inl ⟨c, hc, hp₀⟩
            · obtain rfl : p = i := by simpa using hp₀
              exact .inr hnear
          · rw [List.getElem?_set_ne hjj] at hc₀
            exact .inl ⟨c₀, hc₀, hp₀⟩
        · exact .inr hnear'

/-! ## Admission -/

/-- A block that is not played takes only car stores, where they stand for a view or a shop. Any
other takes what has a type there. -/
def Admits (k : Kmeans) (block : BlockInfo) (node : NodeInfo) : Prop :=
  if block.m_is_not_play then
    node.rawType = LY_PLACE_TYPE_CAR_STORE ∧
      k.getVType block.m_idx node.m_idx = NODE_FUNC_PLACE_VIEW_SHOP
  else k.getVType block.m_idx node.m_idx ≠ NODE_FUNC_NULL

instance (k : Kmeans) (block : BlockInfo) (node : NodeInfo) : Decidable (Admits k block node) :=
  inferInstanceAs (Decidable (if block.m_is_not_play then _ else _))

/-- The block of the cluster takes the point. -/
def Takes (k : Kmeans) (i p : ℕ) : Prop :=
  ∃ (block : BlockInfo) (node : NodeInfo), k.m_blockInfo[i]? = some block ∧
    k.m_bindInfo[p]? = some node ∧ Admits k block node

theorem pointDist_of_not_admits {block : BlockInfo} {node : NodeInfo} {centerIdx : Option ℕ} {i : ℕ}
    (h : ¬ Admits k block node) : pointDist k block centerIdx i node = intMax := by
  rw [Admits] at h
  rw [pointDist]
  by_cases hplay : block.m_is_not_play
  · rw [if_pos hplay] at h ⊢
    exact if_neg h
  · rw [if_neg hplay] at h ⊢
    exact if_pos (not_not.mp h)

theorem IsColumn.takes {t : ℕ → ℕ → Int} {j : ℕ} {centerIdx : Option ℕ}
    (h : IsColumn k t j centerIdx)
    (hj : j < k.m_blockInfo.length) (hp : p < k.m_bindInfo.length) (hlt : t p j < farAway) :
    Takes k j p := by
  have hblock := List.getElem?_eq_getElem hj
  have hnode := List.getElem?_eq_getElem hp
  refine ⟨_, _, hblock, hnode, ?_⟩
  by_contra hadmits
  rw [h p _ _ hnode hblock, pointDist_of_not_admits hadmits] at hlt
  exact absurd hlt (by decide)

/-- Every point is in a cluster whose block takes it. -/
def Admitted (k : Kmeans) (s : State σ) : Prop :=
  ∀ (i p : ℕ) (c : ClusterNode), s.m_cluster[i]? = some c → p ∈ c.m_node → Takes k i p

theorem Admitted.congr (h : Admitted k s) (hc : s'.m_cluster = s.m_cluster) : Admitted k s' := by
  rw [Admitted, hc]
  exact h

/-! ## One cluster is changed -/

/-- The cluster without the point. -/
def ClusterNode.without (k : Kmeans) (c : ClusterNode) (p : ℕ) : ClusterNode :=
  { c with
    m_node := c.m_node.erase p
    m_duration := c.m_duration - durOf k p
    m_leftTime := c.m_leftTime + durOf k p }

/-- The cluster with one more point. -/
def ClusterNode.plus (k : Kmeans) (c : ClusterNode) (p : ℕ) : ClusterNode :=
  { c with
    m_node := c.m_node ++ [p]
    m_duration := c.m_duration + durOf k p
    m_leftTime := c.m_leftTime - durOf k p }

/-- A cluster and its set are replaced. -/
def State.replace (s : State σ) (i : ℕ) (c : ClusterNode) (set : σ) : State σ :=
  { s with m_cluster := s.m_cluster.set i c, clusterResult := s.clusterResult.set i set }

theorem Admitted.replace {c : ClusterNode} {set : σ} (h : Admitted k s)
    (hc : ∀ q ∈ c.m_node, Takes k a q) : Admitted k (s.replace a c set) := by
  intro i q d hd hq
  simp only [State.replace] at hd
  by_cases hia : a = i
  · subst hia
    obtain rfl := eq_of_getElem?_set hd
    exact hc q hq
  · rw [List.getElem?_set_ne hia] at hd
    exact h i q d hd hq

end

section

variable {σ : Type} [UnorderedSet σ ℕ] (k : Kmeans)

/-- The list, the set and the times of every cluster agree, and no point is in two clusters. -/
structure Books (s : State σ) : Prop where
  length_eq : s.clusterResult.length = s.m_cluster.length
  set_iff : ∀ (i : ℕ) (c : ClusterNode) (set : σ), s.m_cluster[i]? = some c →
    s.clusterResult[i]? = some set → ∀ p, p ∈ toList set ↔ p ∈ c.m_node
  duration : ∀ c ∈ s.m_cluster, c.m_duration = (c.m_node.map (durOf k)).sum
  leftTime : ∀ (i : ℕ) (c : ClusterNode), s.m_cluster[i]? = some c →
    ∃ block : BlockInfo, k.m_blockInfo[i]? = some block ∧
      c.m_leftTime = block.m_dur - c.m_duration
  nodup : s.placed.Nodup
  isPoint : ∀ p ∈ s.placed, p < k.m_bindInfo.length

end

variable {σ : Type} [UnorderedSet σ ℕ] {k : Kmeans} {s s' : State σ} {a b p : ℕ}

theorem Books.congr (h : Books k s) (hc : s'.m_cluster = s.m_cluster)
    (hr : s'.clusterResult = s.clusterResult) : Books k s' where
  length_eq := by rw [hr, hc, h.length_eq]
  set_iff := by rw [hr, hc]; exact h.set_iff
  duration := by rw [hc]; exact h.duration
  leftTime := by rw [hc]; exact h.leftTime
  nodup := by rw [State.placed, hc]; exact h.nodup
  isPoint := by rw [State.placed, hc]; exact h.isPoint

theorem Books.replace {c c' : ClusterNode} {set : σ} (h : Books k s)
    (hc : s.m_cluster[a]? = some c) (hset : ∀ p, p ∈ toList set ↔ p ∈ c'.m_node)
    (hdur : c'.m_duration = (c'.m_node.map (durOf k)).sum)
    (hleft : c'.m_leftTime + c'.m_duration = c.m_leftTime + c.m_duration)
    (hnodup : (s.replace a c' set).placed.Nodup)
    (hpoint : ∀ p ∈ (s.replace a c' set).placed, p < k.m_bindInfo.length) :
    Books k (s.replace a c' set) where
  length_eq := by simpa [State.replace] using h.length_eq
  set_iff i d set' hd hset' := by
    simp only [State.replace] at hd hset'
    by_cases hia : a = i
    · subst hia
      obtain rfl := eq_of_getElem?_set hd
      obtain rfl := eq_of_getElem?_set hset'
      exact hset
    · rw [List.getElem?_set_ne hia] at hd hset'
      exact h.set_iff i d set' hd hset'
  duration d hd := by
    rcases List.mem_or_eq_of_mem_set hd with hd | rfl
    · exact h.duration d hd
    · exact hdur
  leftTime i d hd := by
    simp only [State.replace] at hd
    by_cases hia : a = i
    · subst hia
      obtain rfl := eq_of_getElem?_set hd
      obtain ⟨block, hblock, hleft'⟩ := h.leftTime a c hc
      exact ⟨block, hblock, by omega⟩
    · rw [List.getElem?_set_ne hia] at hd
      exact h.leftTime i d hd
  nodup := hnodup
  isPoint := hpoint

/-! ## Moves -/

theorem clusterSubPoint_eq {c : ClusterNode} {set : σ} (hc : s.m_cluster[a]? = some c)
    (hset : s.clusterResult[a]? = some set) (hpoint : p < k.m_bindInfo.length)
    (hp : p ∈ c.m_node) :
    clusterSubPoint k s a p = .ok (s.replace a (c.without k p) (UnorderedSet.erase set p)) := by
  have hnode := List.getElem?_eq_getElem hpoint
  simp only [clusterSubPoint, hc, hset, hnode, if_pos hp, ClusterNode.without, durOf_eq hnode]
  rfl

theorem clusterSubPoint_cases (h : clusterSubPoint k s a p = .ok s') :
    ∃ (c : ClusterNode) (set : σ), s.m_cluster[a]? = some c ∧ s.clusterResult[a]? = some set ∧
      p < k.m_bindInfo.length ∧ p ∈ c.m_node ∧
      s' = s.replace a (c.without k p) (UnorderedSet.erase set p) := by
  have h' := h
  simp only [clusterSubPoint] at h
  split at h
  · rename_i c set node hc hset hnode
    split_ifs at h with hp
    have hpoint := (List.getElem?_eq_some_iff.mp hnode).1
    rw [clusterSubPoint_eq hc hset hpoint hp] at h'
    exact ⟨c, set, hc, hset, hpoint, hp, (Except.ok.inj h').symm⟩
  · cases h

theorem clusterAddPoint_eq {c : ClusterNode} {set : σ} (hc : s.m_cluster[a]? = some c)
    (hset : s.clusterResult[a]? = some set) (hpoint : p < k.m_bindInfo.length) :
    clusterAddPoint k s a p = .ok (s.replace a (c.plus k p) (UnorderedSet.insert set p)) := by
  have hnode := List.getElem?_eq_getElem hpoint
  simp only [clusterAddPoint, hc, hset, hnode, ClusterNode.plus, durOf_eq hnode]
  rfl

theorem clusterAddPoint_cases (h : clusterAddPoint k s a p = .ok s') :
    ∃ (c : ClusterNode) (set : σ), s.m_cluster[a]? = some c ∧ s.clusterResult[a]? = some set ∧
      p < k.m_bindInfo.length ∧ s' = s.replace a (c.plus k p) (UnorderedSet.insert set p) := by
  have h' := h
  simp only [clusterAddPoint] at h
  split at h
  · rename_i c set node hc hset hnode
    have hpoint := (List.getElem?_eq_some_iff.mp hnode).1
    rw [clusterAddPoint_eq hc hset hpoint] at h'
    exact ⟨c, set, hc, hset, hpoint, (Except.ok.inj h').symm⟩
  · cases h

/-- The point leaves the placed ones. -/
theorem placed_sub (h : clusterSubPoint k s a p = .ok s') : s.placed.Perm (p :: s'.placed) := by
  obtain ⟨c, set, hc, -, -, hp, rfl⟩ := clusterSubPoint_cases h
  obtain ⟨rest, hperm, hset⟩ := exists_perm_set (·.m_node) hc
  refine hperm.trans (((List.perm_cons_erase hp).append_right rest).trans ?_)
  exact ((hset (c.without k p)).cons p).symm

/-- The point joins the placed ones. -/
theorem placed_add (h : clusterAddPoint k s a p = .ok s') : s'.placed.Perm (p :: s.placed) := by
  obtain ⟨c, set, hc, -, -, rfl⟩ := clusterAddPoint_cases h
  obtain ⟨rest, hperm, hset⟩ := exists_perm_set (·.m_node) hc
  refine (hset (c.plus k p)).trans (List.Perm.trans ?_ (hperm.symm.cons p))
  rw [ClusterNode.plus, List.append_assoc]
  exact List.perm_middle

theorem Books.sub (h : Books k s) (hs' : clusterSubPoint k s a p = .ok s') : Books k s' := by
  have hperm := placed_sub hs'
  have hnodup := hperm.nodup_iff.mp h.nodup
  obtain ⟨c, set, hc, hset, -, hp, rfl⟩ := clusterSubPoint_cases hs'
  refine h.replace hc (fun q => ?_) ?_ ?_ (List.nodup_cons.mp hnodup).2 fun q hq =>
    h.isPoint q (hperm.mem_iff.mpr (List.mem_cons_of_mem p hq))
  · have hcnodup : c.m_node.Nodup :=
      (List.nodup_flatMap.mp h.nodup).1 c (List.mem_of_getElem? hc)
    rw [UnorderedSet.mem_erase, h.set_iff a c set hc hset q, ClusterNode.without,
      hcnodup.mem_erase_iff]
  · have hsum := ((List.perm_cons_erase hp).map (durOf k)).sum_eq
    rw [List.map_cons, List.sum_cons] at hsum
    have := h.duration c (List.mem_of_getElem? hc)
    simp only [ClusterNode.without]
    omega
  · simp only [ClusterNode.without]
    omega

theorem Books.add (h : Books k s) (hp : p ∉ s.placed) (hs' : clusterAddPoint k s a p = .ok s') :
    Books k s' := by
  have hperm := placed_add hs'
  have hnodup := hperm.nodup_iff.mpr (List.nodup_cons.mpr ⟨hp, h.nodup⟩)
  obtain ⟨c, set, hc, hset, hpoint, rfl⟩ := clusterAddPoint_cases hs'
  refine h.replace hc (fun q => ?_) ?_ ?_ hnodup fun q hq => ?_
  · rw [UnorderedSet.mem_insert, h.set_iff a c set hc hset q]
    simp [ClusterNode.plus, or_comm]
  · have := h.duration c (List.mem_of_getElem? hc)
    simp only [ClusterNode.plus, List.map_append, List.map_cons, List.map_nil, List.sum_append,
      List.sum_cons, List.sum_nil]
    omega
  · simp only [ClusterNode.plus]
    omega
  · rcases List.mem_cons.mp (hperm.mem_iff.mp hq) with rfl | hq
    · exact hpoint
    · exact h.isPoint q hq

/-- What a move does, step by step. -/
theorem movePoint_cases (h : movePointFromClusterAToClusterB k s p a b = .ok s') :
    ∃ s₁ s₂, clusterSubPoint k s a p = .ok s₁ ∧ clusterAddPoint k s₁ b p = .ok s₂ ∧
      s'.m_cluster = s₂.m_cluster ∧ s'.clusterResult = s₂.clusterResult ∧
      (∀ j, j = a ∨ j = b → IsColumn k s'.m_P2Cluster j
        (s'.clusterResult[j]?.bind (getCenter k))) ∧
      ∀ i j, j ≠ a → j ≠ b → s'.m_P2Cluster i j = s.m_P2Cluster i j := by
  obtain ⟨s₁, hsub, h⟩ := bind_ok.mp h
  obtain ⟨s₂, hadd, h⟩ := bind_ok.mp h
  obtain ⟨s₃, ha, hb⟩ := bind_ok.mp h
  obtain ⟨hc₃, hr₃, hcol₃, hother₃⟩ := calPointToClusterDistOneCluster_cases ha
  obtain ⟨hc, hr, hcol, hother⟩ := calPointToClusterDistOneCluster_cases hb
  refine ⟨s₁, s₂, hsub, hadd, hc.trans hc₃, hr.trans hr₃, fun j hj => ?_, fun i j hja hjb => ?_⟩
  · by_cases hjb : j = b
    · subst hjb
      rwa [hr]
    · obtain rfl := hj.resolve_right hjb
      rw [hr, hr₃]
      exact hcol₃.congr fun i => hother i j hjb
  · have hs₂ : s₂.m_P2Cluster = s.m_P2Cluster := by
      obtain ⟨_, _, -, -, -, -, rfl⟩ := clusterSubPoint_cases hsub
      obtain ⟨_, _, -, -, -, rfl⟩ := clusterAddPoint_cases hadd
      rfl
    rw [hother i j hjb, hother₃ i j hja, hs₂]

theorem movePoint_placed (h : movePointFromClusterAToClusterB k s p a b = .ok s') :
    s'.placed.Perm s.placed := by
  obtain ⟨s₁, s₂, hsub, hadd, hc, -, -, -⟩ := movePoint_cases h
  have hs' : s'.placed = s₂.placed := by rw [State.placed, State.placed, hc]
  rw [hs']
  exact (placed_add hadd).trans (placed_sub hsub).symm

theorem Books.move (h : Books k s) (hs' : movePointFromClusterAToClusterB k s p a b = .ok s') :
    Books k s' := by
  obtain ⟨s₁, s₂, hsub, hadd, hc, hr, -, -⟩ := movePoint_cases hs'
  have hp : p ∉ s₁.placed := (List.nodup_cons.mp ((placed_sub hsub).nodup_iff.mp h.nodup)).1
  exact ((h.sub hsub).add hp hadd).congr hc hr

theorem Books.lt_blocks (h : Books k s) (ha : a < s.m_cluster.length) :
    a < k.m_blockInfo.length := by
  obtain ⟨block, hblock, -⟩ := h.leftTime a _ (getElem?_clusterAt ha)
  exact (List.getElem?_eq_some_iff.mp hblock).1

/-- A move out of the cluster that holds the point does not fail. -/
theorem Books.move_ok (h : Books k s) (hp : p ∈ (s.clusterAt a).m_node)
    (ha : a < s.m_cluster.length) (hb : b < s.m_cluster.length)
    (hpoints : k.m_bindInfo.length ≤ tableSize) (hclusters : s.m_cluster.length ≤ tableSize) :
    ∃ s', movePointFromClusterAToClusterB k s p a b = .ok s' := by
  have hca := getElem?_clusterAt ha
  have hpoint := h.isPoint p (mem_placed.mpr ⟨a, _, hca, hp⟩)
  have hresult : ∀ i < s.m_cluster.length, ∃ set, s.clusterResult[i]? = some set := fun i hi =>
    ⟨_, List.getElem?_eq_getElem (by rw [h.length_eq]; exact hi)⟩
  obtain ⟨setA, hsetA⟩ := hresult a ha
  obtain ⟨setB, hsetB⟩ := hresult b hb
  have hsub := clusterSubPoint_eq hca hsetA hpoint hp
  obtain ⟨c, hc⟩ : ∃ c, (s.replace a ((s.clusterAt a).without k p)
      (UnorderedSet.erase setA p)).m_cluster[b]? = some c :=
    ⟨_, List.getElem?_eq_getElem (by simpa [State.replace] using hb)⟩
  obtain ⟨set, hset⟩ : ∃ set, (s.replace a ((s.clusterAt a).without k p)
      (UnorderedSet.erase setA p)).clusterResult[b]? = some set :=
    ⟨_, List.getElem?_eq_getElem (by simpa [State.replace, h.length_eq] using hb)⟩
  have hadd := clusterAddPoint_eq hc hset hpoint
  obtain ⟨s₃, hs₃⟩ := calPointToClusterDistOneCluster_ok (h.lt_blocks ha) hpoints
    (ha.trans_le hclusters)
  obtain ⟨s₄, hs₄⟩ := calPointToClusterDistOneCluster_ok (h.lt_blocks hb) hpoints
    (hb.trans_le hclusters)
  exact ⟨s₄, bind_ok.mpr ⟨_, hsub, bind_ok.mpr ⟨_, hadd, bind_ok.mpr ⟨s₃, hs₃, hs₄⟩⟩⟩⟩

/-! ## What `KmeansAdjust` leaves -/

theorem kmeansAdjust_cases (h : kmeansAdjust k s = .ok s') :
    ∃ filled, (List.range k.m_bindInfo.length).foldlM (placePoint k s.m_P2Cluster)
        (s.m_cluster.map fun c => { c with m_node := [] }) = .ok filled ∧
      filled.length ≤ k.m_blockInfo.length ∧
      s'.m_P2Cluster = s.m_P2Cluster ∧
      s'.m_cluster = List.zipWith (retime k) filled k.m_blockInfo ∧
      s'.clusterResult = s'.m_cluster.map fun c => ofList c.m_node := by
  obtain ⟨filled, hfill, h⟩ := bind_ok.mp h
  dsimp only at h
  split_ifs at h with hlen
  obtain rfl := Except.ok.inj h
  exact ⟨filled, hfill, hlen, rfl, rfl, rfl⟩

theorem getElem?_retime {filled : List ClusterNode} {i : ℕ} {c : ClusterNode}
    (h : (List.zipWith (retime k) filled k.m_blockInfo)[i]? = some c) :
    ∃ (c₀ : ClusterNode) (block : BlockInfo), filled[i]? = some c₀ ∧
      k.m_blockInfo[i]? = some block ∧ c = retime k c₀ block := by
  obtain ⟨c₀, block, hc₀, hblock, hc⟩ := List.getElem?_zipWith_eq_some.mp h
  exact ⟨c₀, block, hc₀, hblock, hc.symm⟩

theorem flatMap_retime {filled : List ClusterNode} {blocks : List BlockInfo}
    (h : filled.length ≤ blocks.length) :
    (List.zipWith (retime k) filled blocks).flatMap (·.m_node) = filled.flatMap (·.m_node) := by
  induction filled generalizing blocks with
  | nil => rfl
  | cons c filled ih =>
    cases blocks with
    | nil => simp at h
    | cons block blocks =>
      rw [List.zipWith_cons_cons, List.flatMap_cons, List.flatMap_cons, ih (by simpa using h)]
      rfl

theorem map_bidx_retime {filled : List ClusterNode} {blocks : List BlockInfo}
    (h : filled.length ≤ blocks.length) :
    (List.zipWith (retime k) filled blocks).map (·.m_bidx) = filled.map (·.m_bidx) := by
  refine List.ext_getElem (by simpa using h) fun i hi _ => ?_
  simp [retime]

/-- `KmeansAdjust` changes no `m_bidx`. -/
theorem map_bidx_kmeansAdjust (h : kmeansAdjust k s = .ok s') :
    s'.m_cluster.map (·.m_bidx) = s.m_cluster.map (·.m_bidx) := by
  obtain ⟨filled, hfill, hlen, -, hc, -⟩ := kmeansAdjust_cases h
  rw [hc, map_bidx_retime hlen, (fill_spec hfill).1, List.map_map]
  rfl

theorem Books.kmeansAdjust (h : kmeansAdjust k s = .ok s') : Books k s' := by
  obtain ⟨filled, hfill, hlen, -, hc, hr⟩ := kmeansAdjust_cases h
  obtain ⟨-, ⟨put, hput, hperm⟩, -⟩ := fill_spec hfill
  have hplaced : s'.placed.Perm put := by
    rw [State.placed, hc, flatMap_retime hlen]
    refine hperm.trans (List.Perm.of_eq ?_)
    simp [List.flatMap_map]
  refine ⟨by rw [hr, List.length_map], ?_, ?_, ?_, ?_, ?_⟩
  · intro i c set hci hset p
    rw [hr, List.getElem?_map, hci] at hset
    obtain rfl := Option.some.inj hset
    exact UnorderedSet.mem_ofList
  · intro c hcm
    obtain ⟨i, hi⟩ := List.mem_iff_getElem?.mp hcm
    rw [hc] at hi
    obtain ⟨c₀, block, -, -, rfl⟩ := getElem?_retime hi
    rfl
  · intro i c hci
    rw [hc] at hci
    obtain ⟨c₀, block, -, hblock, rfl⟩ := getElem?_retime hci
    exact ⟨block, hblock, rfl⟩
  · exact hplaced.nodup_iff.mpr (hput.nodup List.nodup_range)
  · exact fun p hp => List.mem_range.mp (hput.subset (hplaced.mem_iff.mp hp))

/-- Every point that is placed is in a nearest cluster. -/
theorem kmeansAdjust_nearest {c : ClusterNode} (h : kmeansAdjust k s = .ok s')
    (hc : s'.m_cluster[a]? = some c) (hp : p ∈ c.m_node) : Nearest k s.m_P2Cluster p a := by
  obtain ⟨filled, hfill, -, -, hcluster, -⟩ := kmeansAdjust_cases h
  rw [hcluster] at hc
  obtain ⟨c₀, block, hc₀, -, rfl⟩ := getElem?_retime hc
  rcases (fill_spec hfill).2.2 a c₀ hc₀ p hp with ⟨c', hc', hp'⟩ | hnear
  · obtain ⟨_, -, rfl⟩ := List.mem_map.mp (List.mem_of_getElem? hc')
    cases hp'
  · exact hnear

theorem length_kmeansAdjust (h : kmeansAdjust k s = .ok s') :
    s'.m_cluster.length = s.m_cluster.length := by
  simpa using congrArg List.length (map_bidx_kmeansAdjust h)

/-! ## Every point is admitted -/

theorem Admitted.kmeansAdjust
    (hcol : ∀ j < k.m_clusterNum, ∃ centerIdx, IsColumn k s.m_P2Cluster j centerIdx)
    (h : kmeansAdjust k s = .ok s') : Admitted k s' := by
  intro i p c hc hp
  have hbooks := Books.kmeansAdjust h
  have hnear := kmeansAdjust_nearest h hc hp
  obtain ⟨centerIdx, hcol⟩ := hcol i hnear.lt_clusterNum
  exact hcol.takes (hbooks.lt_blocks (List.getElem?_eq_some_iff.mp hc).1)
    (hbooks.isPoint p (mem_placed.mpr ⟨i, c, hc, hp⟩)) hnear.lt_farAway

theorem Admitted.sub (h : Admitted k s) (hs' : clusterSubPoint k s a p = .ok s') :
    Admitted k s' := by
  obtain ⟨c, set, hc, -, -, -, rfl⟩ := clusterSubPoint_cases hs'
  exact h.replace fun q hq => h a q c hc (List.mem_of_mem_erase hq)

theorem Admitted.add (h : Admitted k s) (hp : Takes k a p)
    (hs' : clusterAddPoint k s a p = .ok s') : Admitted k s' := by
  obtain ⟨c, set, hc, -, -, rfl⟩ := clusterAddPoint_cases hs'
  refine h.replace fun q hq => ?_
  rcases List.mem_append.mp hq with hq | hq
  · exact h a q c hc hq
  · obtain rfl : q = p := by simpa using hq
    exact hp

theorem Admitted.move (h : Admitted k s) (hp : Takes k b p)
    (hs' : movePointFromClusterAToClusterB k s p a b = .ok s') : Admitted k s' := by
  obtain ⟨s₁, s₂, hsub, hadd, hc, -, -, -⟩ := movePoint_cases hs'
  exact ((h.sub hsub).add hp hadd).congr hc

end PPView.MyKmeans
