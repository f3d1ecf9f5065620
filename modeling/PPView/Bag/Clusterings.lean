import Mathlib.Data.List.GetD
import PPView.Bag.MyCluster
import PPView.Library.Slots

/-!
# The clusterings that are found

A step joins two slots that are not empty, so at depth `d` the points are split over `n - d` sets.
What is noted at a depth tells the splits of the next depth apart, and a result is only pushed
behind a note that was new. The first edge at every depth is new, so there is a result.
-/

namespace PPView.HierarchicalClustering

open Slots (Splits blocks canon)

/-! ## Edges -/

/-- The edge joins `X` to `Y` in these slots. -/
structure Joins (edge : Edge) (A : Result) (X : List ℕ) (B : Result) (Y : List ℕ) : Prop where
  idx_eq : edge.idx = A.length
  idy_eq : edge.idy = A.length + 1 + B.length
  left_ne_nil : X ≠ []
  right_ne_nil : Y ≠ []

variable {sort : List Edge → List Edge} {m_baseMatrix : BaseMatrix} {edge : Edge}
  {result A B C : Result} {X Y : List ℕ} {i j : ℕ}

theorem exists_split (h : j < result.length) :
    ∃ A C, result = A ++ result.getD j [] :: C ∧ A.length = j := by
  refine ⟨result.take j, result.drop (j + 1), ?_, by simp; omega⟩
  rw [List.getD_eq_getElem _ _ h, ← List.drop_eq_getElem_cons h, List.take_append_drop]

theorem exists_split_two (hij : i < j) (hj : j < result.length) :
    ∃ A B C, result = A ++ result.getD i [] :: (B ++ result.getD j [] :: C) ∧
      i = A.length ∧ j = A.length + 1 + B.length := by
  obtain ⟨D, C, hD, hDlen⟩ := exists_split hj
  obtain ⟨A, B, hA, hAlen⟩ := exists_split (hDlen.symm ▸ hij : i < D.length)
  have hi : result.getD i [] = D.getD i [] := by
    rw [hD, List.getD_append _ _ _ _ (hDlen.symm ▸ hij)]
  refine ⟨A, B, C, ?_, hAlen.symm, ?_⟩
  · rw [hi]
    calc result = D ++ result.getD j [] :: C := hD
      _ = (A ++ D.getD i [] :: B) ++ result.getD j [] :: C := congrArg (· ++ _) hA
      _ = _ := List.append_assoc ..
  · have := congrArg List.length hA
    simp at this
    omega

theorem exists_joins (h : edge ∈ edgesOf m_baseMatrix result) :
    ∃ A X B Y C, result = A ++ X :: (B ++ Y :: C) ∧ Joins edge A X B Y := by
  simp only [edgesOf, List.mem_flatMap, List.mem_range] at h
  obtain ⟨i, hi, h⟩ := h
  by_cases hX : result.getD i [] = []
  · rw [if_pos hX] at h
    contradiction
  · rw [if_neg hX] at h
    simp only [List.mem_filterMap, List.mem_range'_1] at h
    obtain ⟨j, hj, h⟩ := h
    by_cases hY : result.getD j [] = []
    · rw [if_pos hY] at h
      contradiction
    · rw [if_neg hY] at h
      obtain rfl := Option.some.inj h
      obtain ⟨A, B, C, hsplit, hi, hj⟩ := exists_split_two (show i < j by omega)
        (show j < result.length by omega)
      exact ⟨A, _, B, _, C, hsplit, hi, hj, hX, hY⟩

theorem getD_left : (A ++ X :: C).getD A.length [] = X := by simp

theorem getD_right : (A ++ X :: (B ++ Y :: C)).getD (A.length + 1 + B.length) [] = Y := by
  rw [List.getD_append_right _ _ _ _ (by omega)]
  simp [show A.length + 1 + B.length - A.length = B.length + 1 by omega]

/-- Two slots that are not empty have an edge. -/
theorem edgesOf_ne_nil (h : 2 ≤ result.countP (· ≠ [])) : edgesOf m_baseMatrix result ≠ [] := by
  obtain ⟨A, X, B, Y, C, rfl, hX, hY⟩ := Slots.exists_two h
  intro hnil
  have hi := List.flatMap_eq_nil_iff.mp hnil A.length (by simp)
  rw [getD_left, if_neg hX] at hi
  have hj := List.filterMap_eq_nil_iff.mp hi (A.length + 1 + B.length) (by simp; omega)
  rw [getD_right, if_neg hY] at hj
  contradiction

/-! ## Joining -/

theorem modify_left (f : List ℕ → List ℕ) :
    (A ++ X :: C).modify A.length f = A ++ f X :: C := by
  induction A with
  | nil => rfl
  | cons Z A ih => simpa using ih

theorem mergeResult_eq (h : Joins edge A X B Y) (hdisj : List.Disjoint X Y) :
    mergeResult (A ++ X :: (B ++ Y :: C)) edge = A ++ (X ++ Y) :: (B ++ [] :: C) := by
  have hfilter : Y.filter (· ∉ X) = Y := by
    rw [List.filter_eq_self]
    intro y hy
    simpa using fun hx => hdisj hx hy
  have hassoc : A ++ (X ++ Y) :: (B ++ Y :: C) = (A ++ (X ++ Y) :: B) ++ Y :: C := by simp
  have hlen : A.length + 1 + B.length = (A ++ (X ++ Y) :: B).length := by simp; omega
  rw [mergeResult, h.idx_eq, h.idy_eq, modify_left, getD_right, hfilter, hassoc, hlen]
  simp

/-- Away from the joined slots the sets are sorted as they are. -/
theorem map_zipIdx_eq (edge : Edge) (Y : List ℕ) (D : Result) (k : ℕ)
    (hk : ∀ i, k ≤ i → i < k + D.length → i ≠ edge.idx ∧ i ≠ edge.idy) :
    ((D.zipIdx k).filter fun x => x.2 ≠ edge.idy).map (fun x =>
      (x.1 ++ if x.2 = edge.idx then Y else []).insertionSort (· ≤ ·)) =
      D.map (List.insertionSort (· ≤ ·)) := by
  induction D generalizing k with
  | nil => rfl
  | cons Z D ih =>
    obtain ⟨hidx, hidy⟩ := hk k le_rfl (by simp)
    have hrest := ih (k + 1) fun i hi hlt => hk i (by omega) (by simp; omega)
    rw [List.zipIdx_cons, List.filter_cons_of_pos (by simpa using hidy), List.map_cons,
      List.map_cons, hrest]
    simp [hidx]

theorem mergedSets_eq (h : Joins edge A X B Y) :
    mergedSets (A ++ X :: (B ++ Y :: C)) edge = canon (A ++ (X ++ Y) :: (B ++ C)) := by
  have hx := h.idx_eq
  have hy := h.idy_eq
  have hA := map_zipIdx_eq edge Y A 0 fun i _ hlt => by omega
  have hB := map_zipIdx_eq edge Y B (A.length + 1) fun i _ hlt => by omega
  have hC := map_zipIdx_eq edge Y C (A.length + 1 + B.length + 1) fun i _ hlt => by omega
  have hX : ((X, A.length) : List ℕ × ℕ).2 ≠ edge.idy := by simp; omega
  rw [mergedSets, hy, getD_right, ← hy, canon]
  congr 1
  rw [List.zipIdx_append, List.zipIdx_cons, List.zipIdx_append, List.zipIdx_cons,
    List.filter_append, List.filter_cons_of_pos (by simpa using hX), List.filter_append,
    List.filter_cons_of_neg (by simp [hy])]
  simp only [List.map_append, List.map_cons, Nat.zero_add, hA, hB, hC, if_pos hx.symm]

/-- `key` is a result in order, one empty slot left out. -/
def IsKey (key : UniqueCluster) (r : Result) : Prop :=
  ∃ A B, r = A ++ [] :: B ∧ key = canon (A ++ B)

theorem IsKey.eq_iff {key key' : UniqueCluster} {r r' : Result} (h : IsKey key r)
    (h' : IsKey key' r') : canon r = canon r' ↔ key = key' := by
  obtain ⟨A, B, rfl, rfl⟩ := h
  obtain ⟨A', B', rfl, rfl⟩ := h'
  exact Slots.canon_eq_iff_of_empty

/-- A step joins two sets, and what it notes tells the result apart. -/
theorem merge_spec {l : List ℕ} {len c : ℕ} (hl : l.Nodup) (hr : Splits l len c result)
    (he : edge ∈ edgesOf m_baseMatrix result) :
    Splits l len (c - 1) (mergeResult result edge) ∧
      IsKey (mergedSets result edge) (mergeResult result edge) := by
  obtain ⟨A, X, B, Y, C, rfl, hjoins⟩ := exists_joins he
  have hdisj : List.Disjoint X Y := by
    have hpair := Slots.pairwise_disjoint (hr.perm.nodup_iff.mpr hl)
    exact (List.pairwise_cons.mp (List.pairwise_append.mp hpair).2.1).1 Y (by simp)
  rw [mergeResult_eq hjoins hdisj, mergedSets_eq hjoins]
  exact ⟨hr.join hjoins.left_ne_nil hjoins.right_ne_nil, A ++ (X ++ Y) :: B, C, by simp, by simp⟩

/-! ## The search -/

/-- What holds of the results between two steps, `n` points for `k` sets. -/
structure Found (n k : ℕ) (search : Search) : Prop where
  splits : ∀ r ∈ search.m_result, Splits (List.range n) n k r
  distinct : search.m_result.Pairwise fun r r' => canon r ≠ canon r'
  noted : ∀ r ∈ search.m_result, ∃ visited,
    search.m_hasVisitSet[n - k - 1]? = some visited ∧ ∃ key ∈ visited, IsKey key r

/-- Nothing is forgotten. -/
structure Grows (search search' : Search) : Prop where
  length_eq : search'.m_hasVisitSet.length = search.m_hasVisitSet.length
  result : search.m_result <+: search'.m_result

/-- Nothing is noted from `depth` on. -/
def Fresh (depth : ℕ) (search : Search) : Prop :=
  ∀ d, depth ≤ d → ∀ visited, search.m_hasVisitSet[d]? = some visited → visited = []

/-- A result at the last depth has just been noted, and is none of those before. -/
def New (n k depth : ℕ) (r : Result) (search : Search) : Prop :=
  depth = n - k → (∃ visited, search.m_hasVisitSet[n - k - 1]? = some visited ∧
    ∃ key ∈ visited, IsKey key r) ∧ ∀ r' ∈ search.m_result, canon r' ≠ canon r

/-- What a call at `depth` leaves. -/
structure Leaves (n k depth : ℕ) (search search' : Search) : Prop where
  grows : Grows search search'
  found : Found n k search'
  ne_nil : 1 ≤ k → Fresh depth search → search'.m_result ≠ []

variable {n k depth : ℕ} {search search' search'' : Search} {clusterInfo : ClusterInfo}

theorem Grows.refl (search : Search) : Grows search search := ⟨rfl, List.prefix_rfl⟩

theorem Grows.trans (h : Grows search search') (h' : Grows search' search'') :
    Grows search search'' :=
  ⟨h'.length_eq.trans h.length_eq, h.result.trans h'.result⟩

theorem Found.push (h : Found n k search) (hr : Splits (List.range n) n k result)
    (hnew : New n k (n - k) result search) :
    Found n k { search with m_result := search.m_result ++ [result] } where
  splits := by
    simpa [or_imp, forall_and] using ⟨h.splits, hr⟩
  distinct := by
    rw [List.pairwise_append]
    exact ⟨h.distinct, by simp, by simpa using (hnew rfl).2⟩
  noted := by
    simpa [or_imp, forall_and] using ⟨h.noted, (hnew rfl).1⟩

/-- What `canMerge` answers: the sets were noted before, or they are new and noted now. -/
theorem canMerge_spec (hdepth : depth < n - k) (hlen : n - k ≤ search.m_hasVisitSet.length)
    (hfound : Found n k search)
    (hkey : IsKey (mergedSets clusterInfo.m_result edge) result) :
    (canMerge clusterInfo edge depth search = .ok (false, search) ∧ ¬ Fresh depth search) ∨
      ∃ search', canMerge clusterInfo edge depth search = .ok (true, search') ∧
        Grows search search' ∧ Found n k search' ∧ New n k (depth + 1) result search' ∧
        (Fresh depth search → Fresh (depth + 1) search') := by
  obtain ⟨visited, hvisited⟩ : ∃ visited, search.m_hasVisitSet[depth]? = some visited :=
    ⟨_, List.getElem?_eq_getElem (by omega)⟩
  rw [canMerge]
  simp only [hvisited]
  by_cases hmem : mergedSets clusterInfo.m_result edge ∈ visited
  · refine .inl ⟨by rw [if_pos hmem]; rfl, fun hfresh => ?_⟩
    rw [hfresh depth le_rfl visited hvisited] at hmem
    contradiction
  · have hset (d : ℕ) : (search.m_hasVisitSet.set depth
        (mergedSets clusterInfo.m_result edge :: visited))[d]? =
        if depth = d then some (mergedSets clusterInfo.m_result edge :: visited)
        else search.m_hasVisitSet[d]? := by
      rw [List.getElem?_set]
      split_ifs <;> first | rfl | omega
    refine .inr ⟨⟨search.m_hasVisitSet.set depth (mergedSets clusterInfo.m_result edge :: visited),
      search.m_result⟩, by rw [if_neg hmem]; rfl,
      ⟨by simp, List.prefix_rfl⟩, ⟨hfound.splits, hfound.distinct, fun r hr => ?_⟩,
      fun hlast => ⟨⟨_ :: visited, ?_, _, List.mem_cons_self, hkey⟩, fun r hr => ?_⟩,
      fun hfresh d hd => ?_⟩
    · obtain ⟨visited', hvisited', key, hkey', hiskey⟩ := hfound.noted r hr
      rw [hset]
      split_ifs with hd
      · obtain rfl : visited = visited' := by
          rw [hd, hvisited'] at hvisited
          exact (Option.some.inj hvisited).symm
        exact ⟨_, rfl, key, List.mem_cons_of_mem _ hkey', hiskey⟩
      · exact ⟨visited', hvisited', key, hkey', hiskey⟩
    · rw [hset, if_pos (by omega)]
    · obtain ⟨visited', hvisited', key, hkey', hiskey⟩ := hfound.noted r hr
      rw [show n - k - 1 = depth by omega, hvisited] at hvisited'
      obtain rfl := Option.some.inj hvisited'
      rw [ne_eq, hiskey.eq_iff hkey]
      rintro rfl
      exact hmem hkey'
    · rw [hset, if_neg (by omega)]
      exact hfresh d (by omega)

/-- The recursive call of the loop, on what a step makes. -/
def CallsLeave (sort : List Edge → List Edge) (m_baseMatrix : BaseMatrix) (n k depth : ℕ)
    (dfs : ClusterInfo → Search → Res (ClusterInfo × Search)) : Prop :=
  ∀ result search, Splits (List.range n) n (n - depth) result → Found n k search →
    n - k ≤ search.m_hasVisitSet.length → New n k depth result search →
    ∃ info' search', dfs (calClusterDist sort m_baseMatrix result) search = .ok (info', search') ∧
      Leaves n k depth search search'

/-- The loop, over edges of the argument as it was at first. -/
theorem visitEdges_spec {dfs : ClusterInfo → Search → Res (ClusterInfo × Search)}
    (hdfs : CallsLeave sort m_baseMatrix n k (depth + 1) dfs) (hdepth : depth < n - k)
    (hresult : Splits (List.range n) n (n - depth) result) (maxCluster : ℕ) :
    ∀ (edges : List Edge) (cnt : ℕ) (clusterInfo : ClusterInfo) (search : Search),
      (∀ edge ∈ edges, edge ∈ edgesOf m_baseMatrix result) →
      (cnt < maxCluster → clusterInfo.m_result = result) → Found n k search →
      n - k ≤ search.m_hasVisitSet.length →
      ∃ info' search', visitEdges sort m_baseMatrix dfs maxCluster depth edges cnt clusterInfo
          search = .ok (info', search') ∧
        Grows search search' ∧ Found n k search' ∧
        (1 ≤ k → Fresh depth search → edges ≠ [] → cnt < maxCluster → search'.m_result ≠ [])
  | [], cnt, clusterInfo, search, _, _, hfound, _ =>
    ⟨clusterInfo, search, rfl, .refl _, hfound, fun _ _ h => absurd rfl h⟩
  | edge :: edges, cnt, clusterInfo, search, hedges, hinfo, hfound, hlen => by
    obtain ⟨hedge, hrest⟩ := List.forall_mem_cons.mp hedges
    rw [visitEdges]
    by_cases hcnt : cnt < maxCluster
    · have hinfo' := hinfo hcnt
      obtain ⟨hmerge, hkey⟩ := merge_spec List.nodup_range hresult hedge
      have hnote : IsKey (mergedSets clusterInfo.m_result edge) (mergeResult result edge) := by
        rwa [hinfo']
      rw [if_pos hcnt]
      rcases canMerge_spec hdepth hlen hfound hnote with
        ⟨hcan, hfresh⟩ | ⟨search₁, hcan, hgrows, hfound₁, hnew, hfresh₁⟩
      · obtain ⟨info', search', hloop, hgrows, hfound', -⟩ :=
          visitEdges_spec hdfs hdepth hresult maxCluster edges cnt clusterInfo search
          hrest hinfo hfound hlen
        exact ⟨info', search', by rw [hcan]; exact hloop, hgrows, hfound',
          fun _ h => absurd h hfresh⟩
      · obtain ⟨info₂, search₂, hcall, hleaves⟩ :=
          hdfs _ search₁ (by simpa [Nat.sub_sub] using hmerge)
          hfound₁ (hgrows.length_eq ▸ hlen) hnew
        have hlen₂ := hleaves.grows.length_eq.trans hgrows.length_eq
        obtain ⟨info', search', hloop, hgrows', hfound', -⟩ :=
          visitEdges_spec hdfs hdepth hresult maxCluster edges (cnt + 1)
            (if maxCluster > 1 then clusterInfo else info₂) search₂ hrest
            (fun hlt => by rw [if_pos (by omega), hinfo']) hleaves.found (hlen₂ ▸ hlen)
        refine ⟨info', search', ?_, (hgrows.trans hleaves.grows).trans hgrows', hfound',
          fun hk hfresh _ _ => ?_⟩
        · rw [hcan]
          simp only [bind, Except.bind, if_true, merge, hinfo', hcall]
          exact hloop
        · exact hgrows'.result.ne_nil (hleaves.ne_nil hk (hfresh₁ hfresh))
    · exact ⟨clusterInfo, search, by rw [if_neg hcnt]; rfl, .refl _, hfound,
        fun _ _ _ h => absurd h hcnt⟩

/-- `DfsCluster` pushes clusterings that are new, and at least one at first. -/
theorem dfsCluster_spec (hsort : ∀ edges, (sort edges).Perm edges)
    (hkn : k < m_baseMatrix.length) :
    ∀ (fuel depth : ℕ), depth ≤ m_baseMatrix.length - k → m_baseMatrix.length - k ≤ fuel + depth →
      CallsLeave sort m_baseMatrix m_baseMatrix.length k depth
        (dfsCluster sort m_baseMatrix k fuel depth)
  | fuel, depth, hdepth, hfuel => by
    intro result search hresult hfound hlen hnew
    rw [dfsCluster.eq_def]
    dsimp only
    by_cases hlast : m_baseMatrix.length ≤ k + depth
    · obtain rfl : depth = m_baseMatrix.length - k := by omega
      rw [if_pos hlast]
      have hpush := hfound.push (by rwa [show m_baseMatrix.length - (m_baseMatrix.length - k) = k
        by omega] at hresult) hnew
      exact ⟨_, _, rfl, ⟨⟨rfl, List.prefix_append _ _⟩, hpush, fun _ _ => by simp⟩⟩
    · rw [if_neg hlast]
      cases fuel with
      | zero => omega
      | succ fuel =>
        have hcalls := dfsCluster_spec hsort hkn fuel (depth + 1) (by omega) (by omega)
        obtain ⟨info', search', hloop, hgrows, hfound', hne⟩ := visitEdges_spec hcalls
          (by omega) hresult (if depth ≥ 3 then 1 else 3) (sort (edgesOf m_baseMatrix result)) 0
          (calClusterDist sort m_baseMatrix result) search
          (fun edge hedge => (hsort _).subset hedge) (fun _ => rfl) hfound hlen
        refine ⟨info', search', hloop, hgrows, hfound', fun hk hfresh => hne hk hfresh ?_ ?_⟩
        · intro hnil
          have hedges : edgesOf m_baseMatrix result ≠ [] :=
            edgesOf_ne_nil (by rw [hresult.count]; omega)
          exact hedges (hnil ▸ hsort _).nil_eq.symm
        · split_ifs <;> omega

/-! ## The run -/

theorem initResult_splits : Splits (List.range m_baseMatrix.length) (max m_baseMatrix.length k)
    m_baseMatrix.length (initResult m_baseMatrix k) where
  perm := by
    have hpoints (l : List ℕ) : (l.map fun i => [i]).flatten = l := by
      induction l with
      | nil => rfl
      | cons i l ih => simp [ih]
    rw [initResult, List.flatten_append, hpoints]
    simp
  length_eq := by
    simp [initResult]
    omega
  count := by
    have hpoints : ((List.range m_baseMatrix.length).map fun i => [i]).countP (· ≠ []) =
        m_baseMatrix.length := by
      rw [List.countP_eq_length.mpr (by simp)]
      simp
    rw [initResult, List.countP_append, hpoints]
    simp [List.countP_replicate]

/-- For no sets at all the search goes on until there is no edge, and finds nothing. -/
theorem run_splits (sort : List Edge → List Edge) (m_baseMatrix : BaseMatrix) (k : ℕ)
    (hsort : ∀ edges, (sort edges).Perm edges) (hn : m_baseMatrix.length ≤ 160) :
    ∃ results, run sort m_baseMatrix k = .ok results ∧
      (∀ r ∈ results, Splits (List.range m_baseMatrix.length) (max m_baseMatrix.length k)
        (min m_baseMatrix.length k) r) ∧
      results.Pairwise (fun r r' => blocks r ≠ blocks r') ∧
      (1 ≤ k → 1 ≤ m_baseMatrix.length → results ≠ []) := by
  by_cases hkn : k < m_baseMatrix.length
  · have hlen : (List.replicate 160 ([] : List UniqueCluster)).length = 160 :=
      List.length_replicate
    have hinit : initResult m_baseMatrix k = (List.range m_baseMatrix.length).map fun i => [i] := by
      simp [initResult, show k - m_baseMatrix.length = 0 by omega]
    have hsplits : Splits (List.range m_baseMatrix.length) m_baseMatrix.length
        (m_baseMatrix.length - 0) (initResult m_baseMatrix k) := by
      have hmax : Splits _ (max m_baseMatrix.length k) _ (initResult m_baseMatrix k) :=
        initResult_splits
      rwa [Nat.max_eq_left hkn.le] at hmax
    obtain ⟨info', search', hdfs, hleaves⟩ := dfsCluster_spec hsort hkn m_baseMatrix.length 0
      (by omega) (by omega) (initResult m_baseMatrix k) ⟨List.replicate 160 [], []⟩ hsplits
      ⟨nofun, .nil, nofun⟩ (by rw [hlen]; omega) (fun h => by omega)
    have hfresh : Fresh 0 ⟨List.replicate 160 [], []⟩ := by
      intro d _ visited hvisited
      exact (List.mem_replicate.mp (List.mem_of_getElem? hvisited)).2
    refine ⟨search'.m_result, by rw [run, hdfs]; rfl, ?_, ?_, fun hk _ =>
      hleaves.ne_nil hk hfresh⟩
    · rw [Nat.max_eq_left hkn.le, Nat.min_eq_right hkn.le]
      exact hleaves.found.splits
    · refine hleaves.found.distinct.imp_of_mem fun hr hr' hne hblocks => hne ?_
      exact Slots.canon_eq_of_blocks List.nodup_range (hleaves.found.splits _ hr)
        (hleaves.found.splits _ hr') hblocks
  · have hle : m_baseMatrix.length ≤ k := by omega
    refine ⟨[initResult m_baseMatrix k], ?_, ?_, by simp, by simp⟩
    · rw [run, dfsCluster.eq_def]
      dsimp only
      rw [if_pos (by omega)]
      rfl
    · rw [Nat.min_eq_left hle]
      simpa using initResult_splits

/-- Every clustering is a partition of the points into `min n k` sets, they are different, and
there is one. -/
theorem run_spec (sort : List Edge → List Edge) (m_baseMatrix : BaseMatrix) (k : ℕ)
    (hsort : ∀ edges, (sort edges).Perm edges) (hn : m_baseMatrix.length ≤ 160) (hk : 1 ≤ k) :
    ∃ results, run sort m_baseMatrix k = .ok results ∧
      (∀ r ∈ results, Splits (List.range m_baseMatrix.length) (max m_baseMatrix.length k)
        (min m_baseMatrix.length k) r) ∧
      results.Pairwise (fun r r' => blocks r ≠ blocks r') ∧
      (1 ≤ m_baseMatrix.length → results ≠ []) := by
  obtain ⟨results, hrun, hsplits, hdistinct, hne⟩ := run_splits sort m_baseMatrix k hsort hn
  exact ⟨results, hrun, hsplits, hdistinct, hne hk⟩

theorem run_spec_fourPoints :
    ∃ results, run (List.insertionSort fun a b => a.value ≤ b.value)
        [[0, 1, 5, 6], [1, 0, 4, 3], [5, 4, 0, 2], [6, 3, 2, 0]] 2 = .ok results ∧
      (∀ r ∈ results, Splits (List.range 4) 4 2 r) ∧
      results.Pairwise (fun r r' => blocks r ≠ blocks r') ∧ (1 ≤ 4 → results ≠ []) :=
  run_spec _ _ 2 (List.perm_insertionSort _) (by decide) (by decide)

end PPView.HierarchicalClustering
