import Mathlib.Data.List.GetD
import Mathlib.Tactic.Tauto
import PPView.PathGenerator.Paths

/-!
# One choice of the search

`getNextNodeByGreedy_spec` and `placeNext_spec` specify the two halves of a choice. The greedy
choice yields one of the `candidates` of its level as long as there is one, since no traffic time
reaches the initial minimum. A node that is placed has an edge from the node before it.
-/

namespace PPView

open NodeJ

namespace NodeJ

/-- No traffic time of the node is `int`'s maximum. -/
def Bounded (n : NodeJ) : Prop := ∀ name traf, n.traffic name = some traf → traf < intMax

end NodeJ

namespace Search

/-- What the search needs of its input and never changes. -/
structure Fit (s : Search) : Prop where
  length_le : s.poiList.length ≤ dayNodeLimit
  check : ∀ n ∈ s.poiList, n.checkNodeJ
  nodup : (s.poiList.map ident).Nodup
  bounded : ∀ n ∈ s.poiList, n.Bounded

def nodeAt (s : Search) (i : Nat) : NodeJ := s.poiList.getD i default

variable {s : Search}

theorem nodeAt_eq {i : Nat} (hi : i < s.poiList.length) : s.nodeAt i = s.poiList[i] := by
  rw [nodeAt, List.getD_eq_getElem _ _ hi]

theorem Fit.check_nodeAt (hs : s.Fit) {i : Nat} (hi : i < s.poiList.length) :
    (s.nodeAt i).checkNodeJ := by
  rw [nodeAt_eq hi]
  exact hs.check _ (List.getElem_mem hi)

/-! ## The greedy choice -/

theorem id_eq_of_check {n : NodeJ} (h : n.checkNodeJ) : n.id = some n.ident := by
  unfold NodeJ.checkNodeJ at h
  cases hid : n.id with
  | none => simp [hid] at h
  | some x => simp [ident, hid]

theorem Fit.nodeAt_inj (hs : s.Fit) {i j : Nat} (hi : i < s.poiList.length)
    (hj : j < s.poiList.length) (h : (s.nodeAt i).ident = (s.nodeAt j).ident) : i = j := by
  rw [nodeAt_eq hi, nodeAt_eq hj] at h
  apply (List.getElem?_inj (by simpa) hs.nodup).mp
  simp [hi, hj, h]

theorem getIdxByIdstr_eq_some (hs : s.Fit) {name : String} {i : Nat} :
    s.getIdxByIdstr name = some i ↔ i < s.poiList.length ∧ (s.nodeAt i).ident = name := by
  have hid {j : Nat} (hj : j < s.poiList.length) : s.poiList[j].id = some (s.nodeAt j).ident := by
    rw [nodeAt_eq hj]
    exact id_eq_of_check (hs.check _ (List.getElem_mem hj))
  rw [getIdxByIdstr, List.findIdx?_eq_some_iff_getElem]
  constructor
  · rintro ⟨hi, hname, -⟩
    exact ⟨hi, by simpa [hid hi] using hname⟩
  · rintro ⟨hi, rfl⟩
    refine ⟨hi, by simp [hid hi], fun j hj => ?_⟩
    have hj' : j < s.poiList.length := hj.trans hi
    simp only [hid hj', Option.some_beq_some, beq_iff_eq]
    intro h
    exact hj.ne (hs.nodeAt_inj hj' hi h)

/-- The number `i` has been chosen neither at the level `idx` nor for the route. -/
def IsOpen (s : Search) (idx i : Nat) : Prop := s.idxVisited idx i = false ∧ s.visited i = false

theorem greedyLoop_spec (hs : s.Fit) (nodeJ : NodeJ) {idx : Nat} (hidx : idx < dayNodeLimit)
    (minTrafTime : Int) (nextIdx : Option Nat) (its : List String) :
    ∃ res, greedyLoop s nodeJ idx minTrafTime nextIdx its = .ok res ∧
      (res = nextIdx ∨ ∃ name ∈ its, ∃ i, res = some i ∧ s.getIdxByIdstr name = some i ∧
        s.IsOpen idx i) ∧
      (res = none → nextIdx = none ∧ ∀ name ∈ its, (nodeJ.traffic name).getD 0 < minTrafTime →
        ∀ i, s.getIdxByIdstr name = some i → ¬ s.IsOpen idx i) := by
  induction its generalizing minTrafTime nextIdx with
  | nil => exact ⟨nextIdx, rfl, .inl rfl, by simp⟩
  | cons name its ih =>
    -- a name that is passed over adds nothing
    have hskip (hnot : (nodeJ.traffic name).getD 0 < minTrafTime →
        ∀ i, s.getIdxByIdstr name = some i → ¬ s.IsOpen idx i) :
        ∃ res, greedyLoop s nodeJ idx minTrafTime nextIdx its = .ok res ∧
          (res = nextIdx ∨ ∃ name' ∈ name :: its, ∃ i, res = some i ∧
            s.getIdxByIdstr name' = some i ∧ s.IsOpen idx i) ∧
          (res = none → nextIdx = none ∧ ∀ name' ∈ name :: its,
            (nodeJ.traffic name').getD 0 < minTrafTime →
            ∀ i, s.getIdxByIdstr name' = some i → ¬ s.IsOpen idx i) := by
      obtain ⟨res, hres, hsome, hnone⟩ := ih minTrafTime nextIdx
      refine ⟨res, hres, hsome.imp_right ?_, fun h => ⟨(hnone h).1, ?_⟩⟩
      · rintro ⟨name', hname', h⟩
        exact ⟨name', by simp [hname'], h⟩
      · exact List.forall_mem_cons.mpr ⟨hnot, (hnone h).2⟩
    simp only [greedyLoop]
    by_cases hlt : (nodeJ.traffic name).getD 0 < minTrafTime
    · rw [if_pos hlt]
      cases hget : s.getIdxByIdstr name with
      | none => exact hskip (by simp [hget])
      | some i =>
        have hi : i < dayNodeLimit :=
          ((getIdxByIdstr_eq_some hs).mp hget).1.trans_le hs.length_le
        simp only [getIdxVisited, getVisited, hidx, hi, and_self, if_true, bind, Except.bind, pure,
          Except.pure]
        cases hlevel : s.idxVisited idx i with
        | true =>
          refine hskip fun _ j hj hopen => ?_
          obtain rfl : i = j := by simpa [hget] using hj
          simp [IsOpen, hlevel] at hopen
        | false =>
          cases hroute : s.visited i with
          | true =>
            refine hskip fun _ j hj hopen => ?_
            obtain rfl : i = j := by simpa [hget] using hj
            simp [IsOpen, hroute] at hopen
          | false =>
            obtain ⟨res, hres, hsome, hnone⟩ := ih ((nodeJ.traffic name).getD 0) (some i)
            refine ⟨res, hres, .inr ?_, fun h => absurd (hnone h).1 (by simp)⟩
            rcases hsome with rfl | ⟨name', hname', h⟩
            · exact ⟨name, by simp, i, rfl, hget, hlevel, hroute⟩
            · exact ⟨name', by simp [hname'], h⟩
    · rw [if_neg hlt]
      exact hskip fun h => absurd h hlt

/-- The numbers that are not on the route. -/
def unused (s : Search) : List Nat := (List.range s.poiList.length).filter fun i => !s.visited i

/-- The numbers that the level `idx` after `nodeJ` still has to choose. -/
def candidates (s : Search) (nodeJ : NodeJ) (idx : Nat) : List Nat :=
  s.unused.filter fun i => !s.idxVisited idx i && (nodeJ.traffic (s.nodeAt i).ident).isSome

theorem mem_unused {i : Nat} : i ∈ s.unused ↔ i < s.poiList.length ∧ s.visited i = false := by
  simp [unused]

theorem mem_candidates {nodeJ : NodeJ} {idx i : Nat} : i ∈ s.candidates nodeJ idx ↔
    i < s.poiList.length ∧ s.IsOpen idx i ∧ (nodeJ.traffic (s.nodeAt i).ident).isSome := by
  simp only [candidates, List.mem_filter, mem_unused, IsOpen, Bool.and_eq_true, Bool.not_eq_true']
  tauto

theorem unused_nodup : s.unused.Nodup := List.nodup_range.filter _

theorem candidates_nodup {nodeJ : NodeJ} {idx : Nat} : (s.candidates nodeJ idx).Nodup :=
  unused_nodup.filter _

theorem mem_members_of_traffic {n : NodeJ} {name : String} :
    (n.traffic name).isSome ↔ name ∈ n.members.map Prod.fst := by
  rw [traffic, ← not_iff_not, Option.not_isSome_iff_eq_none, List.lookup_eq_none_iff]
  grind

theorem getNextNodeByGreedy_spec (hs : s.Fit) {nodeJ : NodeJ} (hb : nodeJ.Bounded) {idx : Nat}
    (hidx : idx < dayNodeLimit) :
    ∃ res, s.getNextNodeByGreedy nodeJ idx = .ok res ∧ (res = none → s.candidates nodeJ idx = []) ∧
      ∀ i, res = some i → i ∈ s.candidates nodeJ idx := by
  obtain ⟨res, hres, hsome, hnone⟩ :=
    greedyLoop_spec hs nodeJ hidx intMax none (nodeJ.members.map Prod.fst)
  refine ⟨res, hres, fun h => ?_, fun i h => ?_⟩
  · refine List.eq_nil_iff_forall_not_mem.mpr fun i hi => ?_
    obtain ⟨hlt, hopen, htraf⟩ := mem_candidates.mp hi
    refine (hnone h).2 _ (mem_members_of_traffic.mp htraf) ?_ i
      ((getIdxByIdstr_eq_some hs).mpr ⟨hlt, rfl⟩) hopen
    obtain ⟨traf, htraf⟩ := Option.isSome_iff_exists.mp htraf
    simpa [htraf] using hb _ _ htraf
  · rcases hsome with rfl | ⟨name, hname, j, hj, hget, hopen⟩
    · simp at h
    · obtain rfl : j = i := by simpa [hj] using h
      obtain ⟨hlt, rfl⟩ := (getIdxByIdstr_eq_some hs).mp hget
      exact mem_candidates.mpr ⟨hlt, hopen, mem_members_of_traffic.mpr hname⟩

/-- A level chooses at most as often as its loop runs. -/
theorem length_candidates_le (hs : s.Fit) (nodeJ : NodeJ) (idx : Nat) :
    (s.candidates nodeJ idx).length ≤ nodeJ.members.length := by
  have hnodup : ((s.candidates nodeJ idx).map fun i => (s.nodeAt i).ident).Nodup := by
    refine candidates_nodup.map_on fun i hi j hj h => ?_
    exact hs.nodeAt_inj (mem_candidates.mp hi).1 (mem_candidates.mp hj).1 h
  have hsub : ((s.candidates nodeJ idx).map fun i => (s.nodeAt i).ident) ⊆
      nodeJ.members.map Prod.fst := by
    intro name hname
    obtain ⟨i, hi, rfl⟩ := List.mem_map.mp hname
    exact mem_members_of_traffic.mp (mem_candidates.mp hi).2.2
  simpa using (hnodup.subperm hsub).length_le

end Search

/-! ## Placing a node -/

namespace PathGenerator

variable {g : PathGenerator} {n : NodeJ}

/-- A node that is placed has an edge from the node before it and keeps its skeleton. -/
theorem placeNext_spec (hn : n.Single) :
    ∃ res, g.placeNext n = .ok res ∧
      ∀ m, res = some m → HasEdge g.lastNode n ∧ m.skeleton = n.skeleton := by
  have hedge {stime : Int} (h : g.arrival n = some stime) : HasEdge g.lastNode n := by
    obtain ⟨traf, htraf, -⟩ := Option.map_eq_some_iff.mp h
    simp [HasEdge, htraf]
  have hn' : n.setDefaultError.Single := hn
  have harr : g.arrival n.setDefaultError = g.arrival n := rfl
  suffices h : ∃ placed : Option NodeJ, g.placeNext n = .ok (placed.bind fun m =>
      if g.isConflictWithBorders m && m.isNodeCanDel then none else some m) ∧
      ∀ m, placed = some m → HasEdge g.lastNode n ∧ m.skeleton = n.skeleton by
    obtain ⟨placed, hplaced, hspec⟩ := h
    refine ⟨_, hplaced, fun m hm => ?_⟩
    obtain ⟨m', hm', hif⟩ := Option.bind_eq_some_iff.mp hm
    split_ifs at hif
    obtain rfl : m' = m := by simpa using hif
    exact hspec m' hm'
  simp only [placeNext]
  cases hx : n.isFixed with
  | true =>
    have hx' : n.setDefaultError.isFixed := hx
    rw [if_pos hx']
    cases ha : g.arrival n with
    | none =>
      obtain ⟨m, hm⟩ := setFixedPoiTimes_of_noEdge hn' (harr.trans ha)
      refine ⟨none, ?_, by simp⟩
      simp [hm, bind, Except.bind, pure, Except.pure]
    | some stime =>
      obtain ⟨b, m, hbm, -, hm⟩ := setFixedPoiTimes_spec hn' hx' (harr.trans ha)
      refine ⟨if b then some m else none, ?_, fun m' hm' => ⟨hedge ha, ?_⟩⟩
      · simp only [hbm, bind, Except.bind, pure, Except.pure]
        cases b with
        | true => simp only [if_true, Option.bind_some]; split_ifs <;> rfl
        | false => rfl
      · split_ifs at hm' with hb
        obtain ⟨j, -, rfl, -⟩ := hm hb
        obtain rfl := Option.some.inj hm'
        rfl
  | false =>
    have hx' : n.setDefaultError.isFixed = false := hx
    have hfree : n.setDefaultError.isFree := hn'.isFree hx'
    rw [if_neg (by simp [hx']), if_pos hfree,
      setNodeError_eq_arrival g (single_setRangeIdx hn' (-1))]
    have harr' : g.arrival (n.setDefaultError.setRangeIdx (-1)) = g.arrival n := rfl
    rw [harr']
    cases ha : g.arrival n with
    | none => exact ⟨none, by simp [bind, Except.bind, pure, Except.pure], by simp⟩
    | some stime =>
      refine ⟨some (g.arranged stime (n.setDefaultError.setRangeIdx (-1))), ?_,
        fun m hm => ⟨hedge ha, ?_⟩⟩
      · simp only [idxOk_setRangeIdx_neg, if_true, bind, Except.bind, pure, Except.pure,
          Option.bind_some]
        split_ifs <;> rfl
      · obtain rfl := Option.some.inj hm
        rfl

theorem next_eq_some_iff {g' : PathGenerator} :
    g.next n = some g' ↔ ∃ m, g.placeNext n = .ok (some m) ∧ g' = g.append m := by
  unfold next
  cases g.placeNext n with
  | error e => simp
  | ok res => cases res <;> simp [eq_comm]

theorem placeLast_spec (hn : (g.inRouteJ.getLastD default).Single)
    (hx : (g.inRouteJ.getLastD default).isFixed) : ∃ res, g.placeLast = .ok res := by
  simp only [placeLast]
  rw [setNodeError_eq_arrival g (n := (g.inRouteJ.getLastD default).setDefaultError) hn]
  cases g.arrival (g.inRouteJ.getLastD default).setDefaultError with
  | none => exact ⟨none, rfl⟩
  | some stime =>
    have hidx : (g.inRouteJ.getLastD default).setDefaultError.idxOk := idxOk_of_fixed hx
    simp only [hidx, if_true, bind, Except.bind]
    split_ifs
    · exact ⟨none, rfl⟩
    · exact ⟨_, rfl⟩

end PathGenerator

end PPView
