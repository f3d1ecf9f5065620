import PPView.Bag.GreedSwitch
import PPView.Library.Pairings

/-!
# The result of `Run`

Every round leaves the books right and every point in a cluster whose block takes it: a point goes
to a cluster only over a distance below `farAway`, and the table has none where the block does not
take the point.
-/

namespace PPView.MyKmeans

open UnorderedSet (toList)

/-! ## Sizes -/

section

variable {σ : Type} {k : Kmeans} {s s' : State σ} {vCenter : List (Option ℕ)}

/-- The table is large enough, and the clusters have blocks and know their positions. -/
structure Sized (k : Kmeans) (s : State σ) : Prop where
  points_le : k.m_bindInfo.length ≤ tableSize
  clusterNum_le : k.m_clusterNum ≤ s.m_cluster.length
  clusters_le : s.m_cluster.length ≤ tableSize
  blocks_le : s.m_cluster.length ≤ k.m_blockInfo.length
  bidx : ∀ i < s.m_cluster.length, (s.clusterAt i).m_bidx = i

theorem bidx_clusterAt (s : State σ) (i : ℕ) :
    (s.clusterAt i).m_bidx = (s.m_cluster.map (·.m_bidx)).getD i 0 := by
  rw [State.clusterAt, List.getD_eq_getElem?_getD, List.getD_eq_getElem?_getD, List.getElem?_map]
  cases s.m_cluster[i]? <;> rfl

theorem Sized.congr (h : Sized k s)
    (hs' : s'.m_cluster.map (·.m_bidx) = s.m_cluster.map (·.m_bidx)) : Sized k s' := by
  have hlen : s'.m_cluster.length = s.m_cluster.length := by
    simpa using congrArg List.length hs'
  refine ⟨h.points_le, hlen ▸ h.clusterNum_le, hlen ▸ h.clusters_le, hlen ▸ h.blocks_le,
    fun i hi => ?_⟩
  rw [bidx_clusterAt, hs', ← bidx_clusterAt]
  exact h.bidx i (hlen ▸ hi)

theorem Sized.calPointToClusterDist_ok (h : Sized k s) (hlen : vCenter.length = s.m_cluster.length)
    (t : State σ) : ∃ t', calPointToClusterDist k t vCenter = .ok t' :=
  MyKmeans.calPointToClusterDist_ok h.points_le (hlen ▸ h.blocks_le) (hlen ▸ h.clusters_le)

end

/-! ## What the rounds keep -/

section

variable {σ : Type} [UnorderedSet σ ℕ]

/-- There are as many clusters as asked for, the books are right, every point is admitted, and the
table is one for some centers. -/
structure Sound (k : Kmeans) (s : State σ) : Prop where
  clusterNum_le : k.m_clusterNum ≤ s.m_cluster.length
  books : Books k s
  admitted : Admitted k s
  column : ∀ j < s.m_cluster.length, ∃ centerIdx, IsColumn k s.m_P2Cluster j centerIdx

/-- Moves that take a point out of the cluster that holds it. -/
inductive Moves (k : Kmeans) : State σ → State σ → Prop where
  | refl (s : State σ) : Moves k s s
  | move {s t t' : State σ} {p a b : ℕ} : Moves k s t → p ∈ (t.clusterAt a).m_node →
      movePointFromClusterAToClusterB k t p a b = .ok t' → Moves k s t'

end

variable {σ : Type} [UnorderedSet σ ℕ] {k : Kmeans} {s s' : State σ} {a b p : ℕ}
  {legal : List ℕ} {vCenter : List (Option ℕ)}

theorem Books.moves (h : Books k s) (hs' : Moves k s s') : Books k s' := by
  induction hs' with
  | refl => exact h
  | move _ _ hmove ih => exact ih.move hmove

theorem Sound.move (h : Sound k s) (hlt : s.m_P2Cluster p b < farAway)
    (hs' : movePointFromClusterAToClusterB k s p a b = .ok s') : Sound k s' := by
  obtain ⟨s₁, s₂, hsub, hadd, hc, -, hcol, hstay⟩ := movePoint_cases hs'
  obtain ⟨ca, seta, hca, -, hpoint, -, hs₁⟩ := clusterSubPoint_cases hsub
  obtain ⟨cb, setb, hcb, -, -, hs₂⟩ := clusterAddPoint_cases hadd
  have hlen : s'.m_cluster.length = s.m_cluster.length := by
    simp [hc, hs₂, hs₁, State.replace]
  have hb : b < s.m_cluster.length := by
    have := (List.getElem?_eq_some_iff.mp hcb).1
    simpa [hs₁, State.replace] using this
  obtain ⟨centerIdx, hcenter⟩ := h.column b hb
  refine ⟨hlen ▸ h.clusterNum_le, h.books.move hs', h.admitted.move ?_ hs', fun j hj => ?_⟩
  · exact hcenter.takes (h.books.lt_blocks hb) hpoint hlt
  · by_cases hjab : j = a ∨ j = b
    · exact ⟨_, hcol j hjab⟩
    · obtain ⟨center, hj⟩ := h.column j (hlen ▸ hj)
      obtain ⟨hja, hjb⟩ := not_or.mp hjab
      exact ⟨center, hj.congr fun i => hstay i j hja hjb⟩

theorem Sound.findMove {c : ClusterNode} {careGroup : Bool} (h : Sound k s)
    (hfind : findMove k s legal c careGroup = some (p, b))
    (hs' : movePointFromClusterAToClusterB k s p a b = .ok s') : Sound k s' :=
  h.move (findMove_eq_some hfind).2.2.1 hs'

theorem Sound.switchRound {canSwitch : Bool} (h : Sound k s)
    (hs' : switchRound k legal a s = .ok (s', canSwitch)) : Sound k s' := by
  simp only [MyKmeans.switchRound] at hs'
  split at hs'
  · rename_i p b hfind
    obtain ⟨s₁, hs₁, hpure⟩ := bind_ok.mp hs'
    obtain ⟨rfl, -⟩ := Prod.mk.inj (Except.ok.inj hpure)
    exact h.findMove hfind hs₁
  · split at hs'
    · rename_i p b hfind
      obtain ⟨s₁, hs₁, hpure⟩ := bind_ok.mp hs'
      obtain ⟨rfl, -⟩ := Prod.mk.inj (Except.ok.inj hpure)
      exact h.findMove hfind hs₁
    · obtain ⟨rfl, -⟩ := Prod.mk.inj (Except.ok.inj hs')
      exact h

theorem Sound.switchLoop {fuel : ℕ} (h : Sound k s) (hs' : switchLoop k legal a fuel s = .ok s') :
    Sound k s' := by
  induction fuel generalizing s with
  | zero => cases hs'
  | succ fuel ih =>
    rw [MyKmeans.switchLoop] at hs'
    by_cases hleg : isLegal k (s.clusterAt a) = true
    · rw [if_pos hleg] at hs'
      obtain rfl := Except.ok.inj hs'
      exact h
    · rw [if_neg hleg] at hs'
      obtain ⟨⟨s₁, canSwitch⟩, hs₁, hs'⟩ := bind_ok.mp hs'
      have hround := h.switchRound hs₁
      cases canSwitch with
      | true => exact ih hround hs'
      | false =>
        obtain rfl := Except.ok.inj hs'
        exact hround

theorem Sound.greedSwitchAllPoint (h : Sound k s) (hs' : greedSwitchAllPoint k s = .ok s') :
    Sound k s' :=
  foldlM_keeps (P := Sound k) (fun _ _ _ ht ht' => ht.switchLoop ht') h hs'

/-! ## Rounds -/

theorem length_getAllCenters (clusterResult : List σ) :
    (getAllCenters k clusterResult).length = clusterResult.length := by
  simp [getAllCenters]

theorem Sound.runRound (hlen : k.m_clusterNum ≤ s.m_cluster.length)
    (hcenter : vCenter.length = s.m_cluster.length) (h : runRound k vCenter s = .ok s') :
    Sound k s' := by
  obtain ⟨s₁, hs₁, h⟩ := bind_ok.mp h
  obtain ⟨s₂, hs₂, h⟩ := bind_ok.mp h
  obtain ⟨s₃, hs₃, h⟩ := bind_ok.mp h
  obtain ⟨hc₁, -, -⟩ := calPointToClusterDist_cases hs₁
  obtain ⟨hc₃, hr₃, -⟩ := calPointToClusterDist_cases hs₃
  have hlen₃ : s₃.m_cluster.length = s.m_cluster.length := by
    rw [hc₃, length_kmeansAdjust hs₂, hc₁]
  have hadmitted : Admitted k s₂ :=
    Admitted.kmeansAdjust (fun j hj => exists_isColumn hs₁ j (by omega)) hs₂
  have hsound : Sound k s₃ :=
    ⟨hlen₃ ▸ hlen, (Books.kmeansAdjust hs₂).congr hc₃ hr₃, hadmitted.congr hc₃, fun j hj =>
      exists_isColumn hs₃ j (by omega)⟩
  exact hsound.greedSwitchAllPoint h

theorem Sound.runRounds {n : ℕ} {preCluster : List (List ℕ)}
    (hlen : k.m_clusterNum ≤ s.m_cluster.length) (hcenter : vCenter.length = s.m_cluster.length)
    (hs : n = 0 → Sound k s) (h : runRounds k n vCenter preCluster s = .ok s') : Sound k s' := by
  induction n generalizing s vCenter preCluster with
  | zero =>
    obtain rfl := Except.ok.inj h
    exact hs rfl
  | succ n ih =>
    obtain ⟨s₁, hs₁, h⟩ := bind_ok.mp h
    have hsound := Sound.runRound hlen hcenter hs₁
    dsimp only at h
    split_ifs at h with hsame
    · obtain rfl := Except.ok.inj h
      exact hsound
    · refine ih hsound.clusterNum_le ?_ (fun _ => hsound) h
      rw [length_getAllCenters, hsound.books.length_eq]

/-! ## `Run` returns -/

theorem placePoint_ok {m_P2Cluster : ℕ → ℕ → Int} {clusters : List ClusterNode} {i : ℕ}
    (hi : i < tableSize) (hnum : k.m_clusterNum ≤ clusters.length)
    (hclusters : clusters.length ≤ tableSize) :
    ∃ clusters', placePoint k m_P2Cluster clusters i = .ok clusters' ∧
      clusters'.length = clusters.length := by
  rw [placePoint, if_pos (.inr ⟨hi, hnum.trans hclusters⟩)]
  split
  · exact ⟨clusters, rfl, rfl⟩
  · rename_i j hj
    have hj := List.mem_range.mp (mem_of_least hj).1
    rw [if_pos (hj.trans_le hnum)]
    exact ⟨_, rfl, by simp⟩

theorem kmeansAdjust_ok (h : Sized k s) : ∃ s', kmeansAdjust k s = .ok s' := by
  have hstep : ∀ clusters, ∀ i ∈ List.range k.m_bindInfo.length,
      clusters.length = s.m_cluster.length →
      ∃ clusters', placePoint k s.m_P2Cluster clusters i = .ok clusters' ∧
        clusters'.length = s.m_cluster.length := by
    intro clusters i hi hlen
    obtain ⟨clusters', hplace, hlen'⟩ := placePoint_ok
      ((List.mem_range.mp hi).trans_le h.points_le) (hlen ▸ h.clusterNum_le)
      (hlen ▸ h.clusters_le)
    exact ⟨clusters', hplace, hlen'.trans hlen⟩
  obtain ⟨filled, hfill, hlen⟩ := foldlM_ok hstep (List.length_map fun c => { c with m_node := [] })
  exact ⟨_, bind_ok.mpr ⟨filled, hfill, if_pos (hlen ▸ h.blocks_le)⟩⟩

theorem runRound_ok (h : Sized k s) (hlen : vCenter.length = s.m_cluster.length)
    (hcenter : ∀ center ∈ vCenter, ∀ q ∈ center, q < k.m_bindInfo.length) :
    ∃ s', runRound k vCenter s = .ok s' ∧ Clustering k s' ∧
      s'.m_cluster.length = s.m_cluster.length := by
  obtain ⟨s₁, hs₁⟩ := h.calPointToClusterDist_ok hlen s
  obtain ⟨hc₁, -, -⟩ := calPointToClusterDist_cases hs₁
  obtain ⟨s₂, hs₂⟩ := kmeansAdjust_ok (h.congr (congrArg _ hc₁))
  obtain ⟨s₃, hs₃⟩ := h.calPointToClusterDist_ok hlen s₂
  obtain ⟨hc₃, hr₃, hcol⟩ := calPointToClusterDist_cases hs₃
  have hsized : Sized k s₃ := h.congr (by rw [hc₃, map_bidx_kmeansAdjust hs₂, hc₁])
  have hlen₃ : s₃.m_cluster.length = s.m_cluster.length := by
    rw [hc₃, length_kmeansAdjust hs₂, hc₁]
  have hclustering : Clustering k s₃ := by
    refine ⟨(Books.kmeansAdjust hs₂).congr hc₃ hr₃, hsized.bidx, fun j hj => ?_, h.points_le,
      hsized.clusters_le⟩
    have hj := List.getElem?_eq_getElem (hlen ▸ hlen₃ ▸ hj : j < vCenter.length)
    exact ⟨_, hcol j _ hj, hcenter _ (List.mem_of_getElem? hj)⟩
  obtain ⟨s', hs', hswitch, -⟩ := greedSwitchAllPoint_spec hclustering
  refine ⟨s', ?_, hswitch.clustering, hswitch.length.trans hlen₃⟩
  exact bind_ok.mpr ⟨s₁, hs₁, bind_ok.mpr ⟨s₂, hs₂, bind_ok.mpr ⟨s₃, hs₃, hs'⟩⟩⟩

theorem Books.getAllCenters_lt (h : Books k s) :
    ∀ center ∈ getAllCenters k s.clusterResult, ∀ q ∈ center, q < k.m_bindInfo.length := by
  intro center hc q hq
  obtain ⟨set, hset, rfl⟩ := List.mem_map.mp hc
  obtain ⟨i, hi⟩ := List.mem_iff_getElem?.mp hset
  exact h.center_lt (Option.bind_eq_some_iff.mpr ⟨set, hi, hq⟩)

theorem runRounds_ok {n : ℕ} {preCluster : List (List ℕ)} (h : Sized k s)
    (hlen : vCenter.length = s.m_cluster.length)
    (hcenter : ∀ center ∈ vCenter, ∀ q ∈ center, q < k.m_bindInfo.length) :
    ∃ s', runRounds k n vCenter preCluster s = .ok s' := by
  induction n generalizing s vCenter preCluster with
  | zero => exact ⟨s, rfl⟩
  | succ n ih =>
    obtain ⟨s₁, hs₁, hclustering, hlen₁⟩ := runRound_ok h hlen hcenter
    by_cases hsame : sortedSets s₁.clusterResult = preCluster
    · exact ⟨s₁, bind_ok.mpr ⟨s₁, hs₁, if_pos hsame⟩⟩
    · have hsized : Sized k s₁ := ⟨h.points_le, hlen₁ ▸ h.clusterNum_le, hlen₁ ▸ h.clusters_le,
        hlen₁ ▸ h.blocks_le, hclustering.bidx⟩
      have hlen' : (getAllCenters k s₁.clusterResult).length = s₁.m_cluster.length := by
        rw [length_getAllCenters, hclustering.books.length_eq]
      obtain ⟨s', hs'⟩ : ∃ s', runRounds k n (getAllCenters k s₁.clusterResult)
          (sortedSets s₁.clusterResult) s₁ = .ok s' :=
        ih hsized hlen' hclustering.books.getAllCenters_lt
      exact ⟨s', bind_ok.mpr ⟨s₁, hs₁, (if_neg hsame).trans hs'⟩⟩

theorem length_initState (m_P2Cluster : ℕ → ℕ → Int) (initCluster : List σ) :
    (initState k m_P2Cluster initCluster).m_cluster.length = initCluster.length := by
  simp [initState, (k.sort_perm _ _).length_eq]

/-- With one block for each cluster, a table that is large enough and sets of points, `Run`
returns. -/
theorem run_ok (m_P2Cluster : ℕ → ℕ → Int) (initCluster : List σ)
    (hinit : initCluster.length = k.m_clusterNum) (hblocks : k.m_blockInfo.length = k.m_clusterNum)
    (hpoints : k.m_bindInfo.length ≤ tableSize) (hclusters : k.m_clusterNum ≤ tableSize)
    (hset : ∀ set ∈ initCluster, ∀ p ∈ toList set, p < k.m_bindInfo.length) :
    ∃ result, run k m_P2Cluster initCluster = .ok result := by
  have hlen := length_initState (k := k) m_P2Cluster initCluster
  have hsized : Sized k (initState k m_P2Cluster initCluster) := by
    refine ⟨hpoints, by omega, by omega, by omega, fun i hi => ?_⟩
    rw [State.clusterAt, List.getD_eq_getElem?_getD, List.getElem?_eq_getElem hi]
    simp [initState]
  have hcenter : ∀ center ∈ getAllCenters k initCluster, ∀ q ∈ center,
      q < k.m_bindInfo.length := by
    intro center hc q hq
    obtain ⟨set, hmem, rfl⟩ := List.mem_map.mp hc
    exact hset set hmem q (getCenter_mem hq)
  obtain ⟨s', hs'⟩ : ∃ s', runRounds k 10 (getAllCenters k initCluster) (sortedSets initCluster)
      (initState k m_P2Cluster initCluster) = .ok s' :=
    runRounds_ok hsized ((length_getAllCenters initCluster).trans hlen.symm) hcenter
  exact ⟨_, (if_neg (by omega)).trans (bind_ok.mpr ⟨s', hs', rfl⟩)⟩

/-- The sets of a result are those of clusters with right books. -/
theorem run_sound {m_P2Cluster : ℕ → ℕ → Int} {initCluster result : List σ}
    (hinit : k.m_clusterNum ≤ initCluster.length) (hrun : run k m_P2Cluster initCluster = .ok result) :
    ∃ s : State σ, Sound k s ∧ s.clusterResult = result := by
  rw [run, if_neg (by omega)] at hrun
  obtain ⟨s, hs, hresult⟩ := bind_ok.mp hrun
  have hlen := length_initState (k := k) m_P2Cluster initCluster
  exact ⟨s, Sound.runRounds (hlen ▸ hinit) ((length_getAllCenters _).trans hlen.symm) (by simp) hs,
    Except.ok.inj hresult⟩

theorem Sound.takes {i : ℕ} {set : σ} (h : Sound k s) (hset : s.clusterResult[i]? = some set)
    (hp : p ∈ toList set) : Takes k i p := by
  have hi : i < s.m_cluster.length := by
    rw [← h.books.length_eq]
    exact (List.getElem?_eq_some_iff.mp hset).1
  have hc := getElem?_clusterAt hi
  exact h.admitted i p _ hc ((h.books.set_iff i _ set hc hset p).mp hp)

/-- No point is in two sets. -/
theorem Books.flatMap_perm (h : Books k s) : (s.clusterResult.flatMap toList).Perm s.placed := by
  have hnodup := (List.nodup_flatMap.mp h.nodup).1
  have hsets : List.Forall₂ (fun set c => (toList set).Perm c.m_node) s.clusterResult
      s.m_cluster := by
    refine List.forall₂_iff_get.mpr ⟨h.length_eq, fun i hset hc => ?_⟩
    refine (List.perm_ext_iff_of_nodup (UnorderedSet.nodup_toList _)
      (hnodup _ (List.get_mem _ _))).mpr fun p => ?_
    exact h.set_iff i _ _ (List.getElem?_eq_getElem hc) (List.getElem?_eq_getElem hset) p
  exact forall₂_flatMap_perm hsets

/-- The books are right after `KmeansAdjust` and after any moves that follow it, and every point of
a result of `Run` is in a cluster whose block takes it. -/
theorem myKmeans_books (k : Kmeans) :
    (∀ s s₀ s' : State σ, kmeansAdjust k s = .ok s₀ → Moves k s₀ s' → Books k s') ∧
    ∀ (m_P2Cluster : ℕ → ℕ → Int) (initCluster result : List σ),
      k.m_clusterNum ≤ initCluster.length → run k m_P2Cluster initCluster = .ok result →
      ∀ (i : ℕ) (set : σ), result[i]? = some set → ∀ p ∈ toList set, Takes k i p := by
  refine ⟨fun s s₀ s' hadjust hmoves => (Books.kmeansAdjust hadjust).moves hmoves, ?_⟩
  intro m_P2Cluster initCluster result hinit hrun i set hset p hp
  obtain ⟨s, hsound, rfl⟩ := run_sound hinit hrun
  exact hsound.takes hset hp

/-- Four points are put into one cluster, and one goes on to the other. Then a whole run. -/
theorem myKmeans_books_fourPoints :
    (∃ s₀ s', kmeansAdjust (fourPoints 3000) (fourTogether 3000) = .ok s₀ ∧
      movePointFromClusterAToClusterB (fourPoints 3000) s₀ 2 0 1 = .ok s' ∧
      Books (fourPoints 3000) s') ∧
    ∃ result : List {l : List ℕ // l.Nodup},
      run (fourPoints 3000) (fun _ _ => 0) oneSet = .ok result ∧
      ∀ (i : ℕ) (set : {l : List ℕ // l.Nodup}), result[i]? = some set →
        ∀ p ∈ toList set, Takes (fourPoints 3000) i p := by
  have hbooks := myKmeans_books (σ := {l : List ℕ // l.Nodup}) (fourPoints 3000)
  constructor
  · have hmove : (kmeansAdjust (fourPoints 3000) (fourTogether 3000)).toOption.any (fun t =>
        decide (2 ∈ (t.clusterAt 0).m_node) &&
          (movePointFromClusterAToClusterB (fourPoints 3000) t 2 0 1).toOption.isSome) = true := by
      decide +kernel
    cases hs₀ : kmeansAdjust (fourPoints 3000) (fourTogether 3000) with
    | error e =>
      rw [hs₀] at hmove
      cases hmove
    | ok s₀ =>
      rw [hs₀] at hmove
      obtain ⟨hmem, hsome⟩ := (Bool.and_eq_true _ _).mp hmove
      cases hs' : movePointFromClusterAToClusterB (fourPoints 3000) s₀ 2 0 1 with
      | error e =>
        rw [hs'] at hsome
        cases hsome
      | ok s' =>
        exact ⟨s₀, s', rfl, hs',
          hbooks.1 _ s₀ s' hs₀ (.move (.refl s₀) (of_decide_eq_true hmem) hs')⟩
  · obtain ⟨result, hresult⟩ := run_ok (k := fourPoints 3000) (fun _ _ => 0) oneSet rfl rfl
      (by decide) (by decide) (by decide)
    exact ⟨result, hresult, hbooks.2 _ _ result (by decide) hresult⟩

end PPView.MyKmeans
