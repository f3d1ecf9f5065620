import PPView.PathGenerator.SearchFrame

/-!
# The search finds the best paths

`Inv` holds whenever `DoSearch` is called. `doSearch_spec` is its specification: the call
restores everything but `m_pathList`, the rows of deeper levels and the counters, and enters each
path that can be reached from its state once. `run_best` is what follows for the whole search.
-/

namespace PPView

open NodeJ

namespace Search

open PathGenerator

/-! ## What a call leaves behind -/

/-- From `s` to `s'` the paths `xs`, in some order, are entered into `m_pathList`. -/
def Gains (s s' : Search) (xs : List (ℚ × RouteJ)) : Prop :=
  ∃ found : List (ℚ × RouteJ), found.Perm xs ∧
    s'.pathList = found.foldl (BestList.push topK Prod.fst) s.pathList

theorem Gains.refl (s : Search) : Gains s s [] := ⟨[], .refl _, rfl⟩

theorem Gains.trans {s s' s'' : Search} {xs ys : List (ℚ × RouteJ)} (h : Gains s s' xs)
    (h' : Gains s' s'' ys) : Gains s s'' (xs ++ ys) := by
  obtain ⟨found, hperm, heq⟩ := h
  obtain ⟨found', hperm', heq'⟩ := h'
  exact ⟨found ++ found', hperm.append hperm', by rw [heq', heq, List.foldl_append]⟩

theorem Gains.perm {s s' : Search} {xs ys : List (ℚ × RouteJ)} (h : Gains s s' xs)
    (hperm : xs.Perm ys) : Gains s s' ys := by
  obtain ⟨found, hfound, heq⟩ := h
  exact ⟨found, hfound.trans hperm, heq⟩

/-! ## The state at a call -/

/-- What holds of the state whenever `DoSearch` is called at `depth`. -/
structure Inv (depth : Nat) (s : Search) : Prop extends Fit s where
  length : s.gen.outRouteJ.length = depth + 1
  unused_length : s.unused.length + depth = s.poiList.length
  bounded_last : s.lastNode.Bounded
  closing_single : (s.gen.inRouteJ.getLastD default).Single
  closing_fixed : (s.gen.inRouteJ.getLastD default).isFixed
  fixedNum : s.fixedNum = s.gen.outRouteJ.tail.countP isFixed
  freeNum : s.freeNum = s.gen.outRouteJ.tail.countP isFree
  trafTime : s.trafTime = trafSum s.gen.outRouteJ

theorem Restores.inv {depth k : Nat} {s s' : Search} (h : Restores depth s s') (hs : s.Inv k) :
    s'.Inv k := by
  rw [h.frame]
  exact { hs with }

/-- The paths that can be reached from a state. -/
def reachable (s : Search) : List (ℚ × RouteJ) :=
  (paths s.nodeAt s.unused.length s.gen s.unused).map (scored s.gen.playBorders)

/-- Those of them that go on with the node number `i`. -/
def branch (s : Search) (i : Nat) : List (ℚ × RouteJ) :=
  match s.gen.next (s.nodeAt i) with
  | some g => (paths s.nodeAt (s.unused.length - 1) g (s.unused.erase i)).map
      (scored s.gen.playBorders)
  | none => []

theorem Restores.branch {depth : Nat} {s s' : Search} (h : Restores depth s s') :
    s'.branch = s.branch := by
  funext i
  simp only [Search.branch, h.gen, h.nodeAt, h.unused]

variable {s : Search} {depth : Nat}

theorem flatMap_filter_of_nil {α β : Type} {f : α → List β} {p : α → Bool} {l : List α}
    (h : ∀ x ∈ l, p x = false → f x = []) : (l.filter p).flatMap f = l.flatMap f := by
  induction l with
  | nil => rfl
  | cons x l ih =>
    obtain ⟨hx, hl⟩ := List.forall_mem_cons.mp h
    cases hp : p x with
    | true => rw [List.filter_cons_of_pos hp, List.flatMap_cons, List.flatMap_cons, ih hl]
    | false =>
      rw [List.filter_cons_of_neg (by simp [hp]), List.flatMap_cons, hx hp, ih hl, List.nil_append]

theorem reachable_eq_flatMap (h : s.unused ≠ []) : s.reachable = s.unused.flatMap s.branch := by
  obtain ⟨n, hn⟩ : ∃ n, s.unused.length = n + 1 :=
    Nat.exists_eq_succ_of_ne_zero (by simpa using h)
  rw [reachable, hn, paths, List.map_flatMap]
  congr 1
  funext i
  rw [branch, hn, Nat.add_sub_cancel]
  cases s.gen.next (s.nodeAt i) <;> rfl

theorem Inv.single_nodeAt (hs : s.Inv depth) {i : Nat} (hi : i < s.poiList.length) :
    (s.nodeAt i).Single := checkNodeJ_xor (hs.check_nodeAt hi)

/-- Without an edge there is no path. -/
theorem Inv.branch_of_noEdge (hs : s.Inv depth) {i : Nat} (hi : i < s.poiList.length)
    (h : (s.lastNode.traffic (s.nodeAt i).ident).isSome = false) : s.branch i = [] := by
  have hnext : s.gen.next (s.nodeAt i) = none := by
    refine Option.eq_none_iff_forall_ne_some.mpr fun g hg => ?_
    obtain ⟨m, hm, -⟩ := next_eq_some_iff.mp hg
    obtain ⟨res, hres, hspec⟩ := placeNext_spec (g := s.gen) (hs.single_nodeAt hi)
    obtain rfl : res = some m := by simpa [hres] using hm
    have hedge : HasEdge s.lastNode (s.nodeAt i) := (hspec m rfl).1
    rw [HasEdge, h] at hedge
    exact Bool.false_ne_true hedge
  rw [branch, hnext]

/-! ## The end of a path -/

theorem pathScore_eq (hs : s.Inv depth) (last : NodeJ) :
    s.score (s.trafTime + trafTo s.lastNode last) =
      pathScore s.gen.playBorders (s.gen.outRouteJ ++ [last]) := by
  have hne : s.gen.outRouteJ ≠ [] := List.ne_nil_of_length_pos (by rw [hs.length]; omega)
  have hmid : (s.gen.outRouteJ ++ [last]).tail.dropLast = s.gen.outRouteJ.tail := by
    rw [List.tail_append_of_ne_nil hne, List.dropLast_concat]
  rw [score, pathScore, hmid, trafSum_concat hne, hs.fixedNum, hs.freeNum, hs.trafTime]
  rfl

theorem finish_spec (hs : s.Inv depth) :
    ∃ s', s.finish = .ok s' ∧ Restores depth s s' ∧
      Gains s s' ((s.gen.scheduled []).toList.map (scored s.gen.playBorders)) := by
  obtain ⟨res, hres⟩ := placeLast_spec hs.closing_single hs.closing_fixed
  simp only [finish, scheduled, hres, bind, Except.bind, pure, Except.pure]
  cases res with
  | none => exact ⟨s, rfl, .refl depth s, .refl s⟩
  | some last =>
    refine ⟨_, rfl, ⟨rfl, fun _ _ => rfl⟩, _, .refl _, ?_⟩
    simp only [Option.toList_some, List.map_cons, List.map_nil, List.foldl_cons, List.foldl_nil,
      scored, ← pathScore_eq hs]
    rfl

/-! ## One choice -/

theorem enter_spec (hs : s.Inv depth) {i : Nat} {m : NodeJ} (hi : i ∈ s.unused)
    (hm : m.skeleton = (s.nodeAt i).skeleton) :
    ∃ s', s.enter i m = .ok s' ∧ s'.Inv (depth + 1) ∧ s'.gen = s.gen.append m ∧
      s'.poiList = s.poiList ∧ s'.unused = s.unused.erase i ∧
      s' = { s with gen := s'.gen, freeNum := s'.freeNum, fixedNum := s'.fixedNum,
                    trafTime := s'.trafTime, visited := Function.update s.visited i true } := by
  obtain ⟨hlt, hvis⟩ := mem_unused.mp hi
  have hne : s.gen.outRouteJ ≠ [] := List.ne_nil_of_length_pos (by rw [hs.length]; omega)
  have htail : (s.gen.append m).outRouteJ.tail = s.gen.outRouteJ.tail ++ [m] := by
    rw [append, List.tail_append_of_ne_nil hne]
  have hsingle : m.Single := by
    have := hs.single_nodeAt hlt
    rwa [Single, ← skeleton_isFree, ← skeleton_isFixed, ← hm, skeleton_isFree,
      skeleton_isFixed] at this
  have herase := unused_update (s := s) i
  simp only [enter, setVisited, hlt.trans_le hs.length_le, if_true]
  refine ⟨_, rfl, ?_, rfl, rfl, herase, rfl⟩
  refine ⟨⟨hs.length_le, hs.check, hs.nodup, hs.bounded⟩, ?_, ?_, ?_, hs.closing_single,
    hs.closing_fixed, ?_, ?_, ?_⟩
  · simp [append, hs.length]
  · have hlen := List.length_erase_of_mem hi
    have hpos := List.length_pos_of_mem hi
    have := hs.unused_length
    rw [unused, herase]
    change (s.unused.erase i).length + (depth + 1) = s.poiList.length
    omega
  · have hb : (s.nodeAt i).Bounded := by
      rw [nodeAt_eq hlt]
      exact hs.bounded _ (List.getElem_mem hlt)
    have hlast : Search.lastNode { s with gen := s.gen.append m } = m := lastNode_append s.gen m
    intro name traf htraf
    refine hb name traf ?_
    rw [← skeleton_traffic, ← hm, skeleton_traffic]
    exact hlast ▸ htraf
  · simp only [htail, List.countP_append, hs.fixedNum]
    cases hx : m.isFixed <;> simp [hx, show m.isFree = !m.isFixed from hsingle]
  · simp only [htail, List.countP_append, hs.freeNum]
    cases hf : m.isFree <;> simp [hf]
  · simp only [append, trafSum_concat hne, hs.trafTime]
    rfl

/-- The state after the number `i` is marked at the level `depth`. -/
theorem candidates_marked {nodeJ : NodeJ} {i : Nat} {s' : Search}
    (hpoi : s'.poiList = s.poiList) (hvis : s'.visited = s.visited)
    (hrow : s'.idxVisited depth = Function.update (s.idxVisited depth) i true) :
    s'.candidates nodeJ depth = (s.candidates nodeJ depth).erase i := by
  have hnodeAt : s'.nodeAt = s.nodeAt := by
    funext j
    rw [nodeAt, hpoi, nodeAt]
  rw [candidates_nodup.erase_eq_filter, candidates, candidates, List.filter_filter, unused, hpoi,
    hvis, hrow, hnodeAt, ← unused]
  refine List.filter_congr fun j _ => ?_
  by_cases hj : j = i <;> simp [hj]

theorem visitNext_spec {search : Search → Res Search} (hs : s.Inv depth)
    (hdepth : depth < s.poiList.length)
    (hsearch : ∀ s₁ : Search, s₁.Inv (depth + 1) → s₁.poiList = s.poiList →
      ∃ s₂, search s₁ = .ok s₂ ∧ Restores (depth + 1) s₁ s₂ ∧ Gains s₁ s₂ s₁.reachable) :
    ∃ s', visitNext search depth s.lastNode s = .ok s' ∧ Restores depth s s' ∧
      (s.candidates s.lastNode depth = [] ∧ s' = s ∨
        ∃ i ∈ s.candidates s.lastNode depth,
          s'.candidates s.lastNode depth = (s.candidates s.lastNode depth).erase i ∧
          Gains s s' (s.branch i)) := by
  have hidx : depth < dayNodeLimit := hdepth.trans_le hs.length_le
  obtain ⟨res, hres, hnone, hsome⟩ := getNextNodeByGreedy_spec hs.toFit hs.bounded_last hidx
  cases res with
  | none =>
    refine ⟨s, ?_, .refl depth s, .inl ⟨hnone rfl, rfl⟩⟩
    simp [visitNext, hres, bind, Except.bind, pure, Except.pure]
  | some i =>
    have hi := hsome i rfl
    have hlt := (mem_candidates.mp hi).1
    have hunused : i ∈ s.unused := mem_unused.mpr ⟨hlt, (mem_candidates.mp hi).2.1.2⟩
    obtain ⟨sm, hmark, hr, hlist, hrow⟩ :=
      setIdxVisited_spec s hidx (hlt.trans_le hs.length_le) true
    obtain ⟨res, hplace, hplaced⟩ := placeNext_spec (g := s.gen) (hs.single_nodeAt hlt)
    have hplace' : sm.gen.placeNext (sm.poiList.getD i default) = .ok res := by
      rw [hr.gen, hr.poiList]
      exact hplace
    simp only [visitNext, hres, hmark, hplace', bind, Except.bind]
    cases res with
    | none =>
      refine ⟨sm, rfl, hr, .inr ⟨i, hi, candidates_marked hr.poiList hr.visited hrow, ?_⟩⟩
      have hnext : s.gen.next (s.nodeAt i) = none := by rw [next, hplace]
      rw [branch, hnext]
      exact ⟨[], .refl _, hlist⟩
    | some m =>
      have hsm : i ∈ sm.unused := hr.unused ▸ hunused
      have hm : m.skeleton = (sm.nodeAt i).skeleton := hr.nodeAt ▸ (hplaced m rfl).2
      obtain ⟨s₁, hs₁, hinv, hgen, hpoi, herase, hframe⟩ := enter_spec (hr.inv hs) hsm hm
      rw [hr.gen] at hgen
      rw [hr.poiList] at hpoi
      rw [hr.unused] at herase
      obtain ⟨s₂, hs₂, hr₂, hgain⟩ := hsearch s₁ hinv hpoi
      obtain ⟨s₃, hs₃, hr₃, hrow₃, hlist₃⟩ := leave_spec (hr.inv hs).length_le hsm hs₁ hr₂
      rw [hr.lastNode] at hs₃
      refine ⟨s₃, ?_, hr.trans hr₃, .inr ⟨i, hi, ?_, ?_⟩⟩
      · simp only [hs₁, hs₂, hs₃]
      · exact candidates_marked (hr.trans hr₃).poiList (hr.trans hr₃).visited (hrow₃.trans hrow)
      · have hnext : s.gen.next (s.nodeAt i) = some (s.gen.append m) :=
          next_eq_some_iff.mpr ⟨m, hplace, rfl⟩
        have hbranch : s₁.reachable = s.branch i := by
          have hnodeAt : s₁.nodeAt = s.nodeAt := by
            funext j
            rw [nodeAt, hpoi, nodeAt]
          rw [branch, hnext, reachable, herase, List.length_erase_of_mem hunused, hnodeAt, hgen]
          rfl
        obtain ⟨found, hperm, heq⟩ := hgain
        refine ⟨found, hbranch ▸ hperm, ?_⟩
        rw [hlist₃, heq, hframe, ← hlist]

/-! ## One level -/

/-- The loop over the members, as long as it runs often enough. -/
theorem visitLoop_spec {search : Search → Res Search} {lastNode : NodeJ} (hs : s.Inv depth)
    (hdepth : depth < s.poiList.length) (hlast : s.lastNode = lastNode)
    (hsearch : ∀ s₁ : Search, s₁.Inv (depth + 1) → s₁.poiList = s.poiList →
      ∃ s₂, search s₁ = .ok s₂ ∧ Restores (depth + 1) s₁ s₂ ∧ Gains s₁ s₂ s₁.reachable)
    {its : List (String × Int)} (hits : (s.candidates lastNode depth).length ≤ its.length) :
    ∃ s', its.foldlM (fun s _ => visitNext search depth lastNode s) s = .ok s' ∧
      Restores depth s s' ∧ Gains s s' ((s.candidates lastNode depth).flatMap s.branch) := by
  induction its generalizing s with
  | nil =>
    have hnil : s.candidates lastNode depth = [] := by simpa using hits
    exact ⟨s, rfl, .refl depth s, hnil ▸ .refl s⟩
  | cons it its ih =>
    subst hlast
    obtain ⟨s', hs', hr, hcase⟩ := visitNext_spec hs hdepth hsearch
    have hlast' := hr.lastNode
    obtain ⟨s'', hs'', hr', hgain'⟩ := ih (hr.inv hs) (hr.poiList ▸ hdepth) hlast'
      (fun s₁ h₁ hpoi => hsearch s₁ h₁ (hpoi.trans hr.poiList)) (by
        rcases hcase with ⟨hnil, rfl⟩ | ⟨i, hi, herase, -⟩
        · simp [hnil]
        · rw [herase, List.length_erase_of_mem hi]
          simp only [List.length_cons] at hits
          omega)
    refine ⟨s'', ?_, hr.trans hr', ?_⟩
    · simp only [List.foldlM_cons, hs', bind, Except.bind]
      exact hs''
    · rw [hr.branch] at hgain'
      rcases hcase with ⟨hnil, rfl⟩ | ⟨i, hi, herase, hgain⟩
      · exact hgain'
      · rw [herase] at hgain'
        refine (hgain.trans hgain').perm ?_
        rw [← List.flatMap_cons]
        exact (List.perm_cons_erase hi).symm.flatMap_right _

/-! ## One call -/

variable {timeOut : Nat → Bool}

theorem doSearch_spec (ht : ∀ k, timeOut k = false) {fuel : Nat} (hs : s.Inv depth)
    (hfuel : s.unused.length < fuel) :
    ∃ s', doSearch timeOut fuel depth s = .ok s' ∧ Restores depth s s' ∧
      Gains s s' s.reachable := by
  induction fuel generalizing s depth with
  | zero => omega
  | succ fuel ih =>
    obtain ⟨s₁, hr₁, hlist₁, heq⟩ := doSearch_succ timeOut fuel depth s
    rw [if_neg (by simp [ht])] at heq
    have hs₁ := hr₁.inv hs
    have hreach : s₁.reachable = s.reachable := by
      rw [reachable, hr₁.nodeAt, hr₁.unused, hr₁.gen, reachable]
    have hlen := hs₁.unused_length
    rw [heq, hs₁.length]
    rw [← hreach]
    have hgain {s' : Search} {xs : List (ℚ × RouteJ)} (h : Gains s₁ s' xs) : Gains s s' xs := by
      obtain ⟨found, hperm, hfound⟩ := h
      exact ⟨found, hperm, hlist₁ ▸ hfound⟩
    by_cases hend : s₁.unused.length = 0
    · -- all nodes are on the route
      rw [if_pos (by omega)]
      obtain ⟨s', hs', hr', hfin⟩ := finish_spec hs₁
      refine ⟨s', hs', hr₁.trans hr', hgain ?_⟩
      rw [reachable, hend]
      exact hfin
    · rw [if_neg (by omega)]
      have hdepth : depth < s₁.poiList.length := by omega
      obtain ⟨s₂, hs₂, hr₂, hlist₂, hrow⟩ := clearRow_spec hs₁.length_le hdepth
      have hlast := hr₂.lastNode
      obtain ⟨s', hs', hr', hloop⟩ := visitLoop_spec (hr₂.inv hs₁) (hr₂.poiList ▸ hdepth) hlast
        (fun s₃ hs₃ hpoi => ih hs₃ (by
          have := hs₃.unused_length
          rw [hpoi, hr₂.poiList] at this
          rw [hr₁.unused] at hlen
          omega))
        (length_candidates_le (hr₂.inv hs₁).toFit s₁.lastNode depth)
      refine ⟨s', ?_, hr₁.trans (hr₂.trans hr'), hgain ?_⟩
      · rw [hs₂]
        exact hs'
      · have hcand : (s₂.candidates s₁.lastNode depth).flatMap s₂.branch = s₁.reachable := by
          rw [reachable_eq_flatMap (by simpa using hend), hr₂.branch, candidates, hr₂.unused,
            hr₂.nodeAt]
          refine flatMap_filter_of_nil fun i hi hno => ?_
          obtain ⟨hlt, -⟩ := mem_unused.mp hi
          exact hs₁.branch_of_noEdge hlt (by simpa [hrow i hlt] using hno)
        obtain ⟨found, hperm, hfound⟩ := hloop
        exact ⟨found, hcand ▸ hperm, hlist₂ ▸ hfound⟩

/-! ## The sessions of both ends -/

/-- A loop that gains `R i` for each `i` and keeps `P` gains all of them. -/
theorem foldlM_gains {P : Search → Prop} {f : Search → Nat → Res Search}
    {R : Nat → List (ℚ × RouteJ)}
    (hf : ∀ s i, P s → ∃ s', f s i = .ok s' ∧ P s' ∧ Gains s s' (R i)) (is : List Nat)
    (hs : P s) : ∃ s', is.foldlM f s = .ok s' ∧ P s' ∧ Gains s s' (is.flatMap R) := by
  induction is generalizing s with
  | nil => exact ⟨s, rfl, hs, .refl s⟩
  | cons i is ih =>
    obtain ⟨s', hs', hp, hgain⟩ := hf s i hs
    obtain ⟨s'', hs'', hp', hgain'⟩ := ih hp
    refine ⟨s'', ?_, hp', hgain.trans hgain'⟩
    simp only [List.foldlM_cons, hs', bind, Except.bind]
    exact hs''

/-- What a search may be run on: a valid day of at most `dayNodeLimit` nodes between its ends,
with different names, no traffic time being `int`'s maximum. -/
structure Searchable (r : RouteJ) : Prop where
  valid : RouteJ.Valid r
  nodup : (r.map ident).Nodup
  length_le : r.length ≤ dayNodeLimit + 2
  bounded : ∀ n ∈ r, n.Bounded

/-- The state before and after the search at one pair of sessions. -/
structure Ready (g : PathGenerator) (s : Search) : Prop where
  poiList : s.poiList = g.inRouteJ.tail.dropLast
  startGen : ∀ i j, startGen s.gen i j = Search.startGen g i j
  visited : ∀ i, s.visited i = false
  fixedNum : s.fixedNum = 0
  freeNum : s.freeNum = 0
  trafTime : s.trafTime = 0

theorem startGen_startGen {g : PathGenerator} {first last : NodeJ} {mid : RouteJ}
    (h : g.inRouteJ = first :: (mid ++ [last])) (i j i' j' : Nat) :
    startGen (startGen g i j) i' j' = startGen g i' j' := by
  have heq {g' : PathGenerator} {n m : NodeJ} (hg' : g'.inRouteJ = n :: (mid ++ [m])) :
      startGen g' i' j' = { g' with
        inRouteJ := n.setRangeIdx i' :: (mid ++ [m.setRangeIdx j'])
        playBorders :=
          initPlayBorders (n.setRangeIdx i' :: (mid ++ [m.setRangeIdx j']))
        outRouteJ := [{ n.setRangeIdx i' with time := n.times.getD i' (0, 0) }] } := by
    have hin := startGen_inRouteJ hg' i' j'
    simp only [startGen] at hin ⊢
    rw [hin]
    rfl
  rw [heq (startGen_inRouteJ h i j), heq h]
  rfl

theorem Searchable.exists_eq {r : RouteJ} (hr : Searchable r) :
    ∃ first mid last, r = first :: (mid ++ [last]) := hr.valid.exists_eq

theorem Ready.unused {g : PathGenerator} (hs : Ready g s) :
    s.unused = List.range s.poiList.length := by
  rw [Search.unused, List.filter_eq_self]
  simp [hs.visited]

/-- The state in which the search at the sessions `i` and `j` starts. -/
theorem Ready.inv {g : PathGenerator} (hr : Searchable g.inRouteJ) (hs : Ready g s) (i j : Nat) :
    Inv 0 { s with gen := Search.startGen s.gen i j } := by
  obtain ⟨first, mid, last, hin⟩ := hr.exists_eq
  have hmid : s.poiList = mid := by
    rw [hs.poiList, hin, List.tail_cons, List.dropLast_concat]
  have hmem {n : NodeJ} (hn : n ∈ s.poiList) : n ∈ g.inRouteJ := by
    rw [hin]
    simp [hmid ▸ hn]
  have hroute := startGen_inRouteJ hin i j
  have hlast : (Search.startGen g i j).inRouteJ.getLastD default = last.setRangeIdx j := by
    rw [hroute, ← List.cons_append, List.getLastD_concat]
  have hfixed : last.isFixed := by
    refine hr.valid.last last ?_
    rw [hin, ← List.cons_append]
    exact List.getLast?_concat
  have hout : (Search.startGen g i j).outRouteJ =
      [{ first.setRangeIdx i with time := first.times.getD i (0, 0) }] := by
    simp only [Search.startGen] at hroute ⊢
    rw [hroute]
    rfl
  rw [hs.startGen]
  refine ⟨⟨?_, ?_, ?_, fun n hn => hr.bounded n (hmem hn)⟩, ?_, ?_, ?_, ?_, ?_, ?_, ?_, ?_⟩
  · have := hr.length_le
    rw [hin] at this
    simp only [hmid]
    simpa using this
  · exact fun n hn => hr.valid.checkNodeJ (hmem hn)
  · have hnodup := hr.nodup
    rw [hin, List.map_cons, List.map_append] at hnodup
    simp only [hmid]
    exact (List.nodup_append.mp (List.nodup_cons.mp hnodup).2).1
  · simp [hout]
  · have hunused := congrArg List.length hs.unused
    rw [List.length_range] at hunused
    exact hunused
  · have hfirst : first ∈ g.inRouteJ := by simp [hin]
    simp only [Search.lastNode, hout]
    exact hr.bounded first hfirst
  · rw [hlast]
    exact single_setRangeIdx (hr.valid.single (n := last) (by simp [hin])) j
  · rw [hlast]
    exact hfixed
  · simp [hs.fixedNum, hout]
  · simp [hs.freeNum, hout]
  · simp [hs.trafTime, hout, trafSum]

theorem Ready.restores {g : PathGenerator} (hr : Searchable g.inRouteJ) (hs : Ready g s)
    {i j : Nat} {s' : Search} (h : Restores 0 { s with gen := Search.startGen s.gen i j } s') :
    Ready g s' := by
  obtain ⟨first, mid, last, hin⟩ := hr.exists_eq
  rw [h.frame]
  refine ⟨hs.poiList, fun i' j' => ?_, hs.visited, hs.fixedNum, hs.freeNum, hs.trafTime⟩
  change Search.startGen (Search.startGen s.gen i j) i' j' = _
  rw [hs.startGen, startGen_startGen hin]

/-- The paths reached from a start are the feasible ones. -/
theorem Ready.reachable_perm {g : PathGenerator} (hs : Ready g s) (i j : Nat) :
    (Search.reachable { s with gen := Search.startGen s.gen i j }).Perm (feasibleAt g i j) := by
  have hunused : Search.unused { s with gen := Search.startGen s.gen i j } =
      List.range s.poiList.length := hs.unused
  have hmid : (List.range s.poiList.length).map s.nodeAt = s.poiList := by
    refine List.ext_getElem (by simp) fun k hk _ => ?_
    have hlt : k < s.poiList.length := by simpa using hk
    simp [nodeAt_eq hlt]
  rw [Search.reachable, feasibleAt, hunused, List.length_range]
  simp only [hs.startGen]
  refine List.Perm.map _ ?_
  refine (paths_perm _ _ List.nodup_range (by simp)).trans ?_
  rw [← hs.poiList, ← congrArg List.permutations hmid, ← List.map_permutations,
    List.filterMap_map]
  exact .refl _

theorem initSearch_spec {g : PathGenerator} (hr : Searchable g.inRouteJ) :
    ∃ s, initSearch g = .ok s ∧ Ready { g with isSearch := true } s ∧
      s.gen = { g with isSearch := true } ∧ s.pathList = [] := by
  refine ⟨_, initSearch_eq ?_, ⟨rfl, fun _ _ => rfl, fun _ => rfl, rfl, rfl, rfl⟩, rfl, rfl⟩
  have := hr.length_le
  simp only [List.length_dropLast, List.length_tail]
  omega

/-- `Search`: every feasible path of every pair of sessions is entered once. -/
theorem searchAll_spec (ht : ∀ k, timeOut k = false) {g : PathGenerator}
    (hr : Searchable g.inRouteJ) (hs : Ready g s) (hgen : s.gen = g) :
    ∃ s', s.searchAll timeOut = .ok s' ∧ Gains s s' (feasible g) := by
  have hcall (s : Search) (i j : Nat) (hs : Ready g s) :
      ∃ s', doSearch timeOut (s.poiList.length + 1) 0 { s with gen := startGen s.gen i j } =
          .ok s' ∧
        Ready g s' ∧ Gains s s' (feasibleAt g i j) := by
    have hinv := hs.inv hr i j
    obtain ⟨s', hs', hrest, hgain⟩ :=
      doSearch_spec ht hinv (Nat.lt_succ_of_le hinv.unused_length.le)
    exact ⟨s', hs', hs.restores hr hrest, hgain.perm (hs.reachable_perm i j)⟩
  obtain ⟨s', hs', -, hgain⟩ := foldlM_gains (P := Ready g)
    (fun s i hs => foldlM_gains (fun s j hs => hcall s i j hs)
      (List.range (g.inRouteJ.getLastD default).times.length) hs)
    (List.range (g.inRouteJ.headD default).times.length) hs
  refine ⟨s', ?_, hgain⟩
  rw [searchAll, hgen]
  exact hs'

theorem museumDay_searchable : Searchable (create museumDay).inRouteJ := by
  rw [create_inRouteJ museumDay_valid]
  refine ⟨museumDay_valid, by decide, by decide, fun n hn name traf htraf => ?_⟩
  obtain ⟨name', hmem⟩ : ∃ name', (name', traf) ∈ n.members := by
    obtain ⟨l₁, l₂, heq, -⟩ := List.lookup_eq_some_iff.mp htraf
    exact ⟨name, by simp [heq]⟩
  have hall : ∀ n ∈ museumDay, ∀ e ∈ n.members, e.2 < intMax := by decide
  exact hall n hn _ hmem

/-- The lake is reached after `int`'s maximum of seconds, and still in time for the inn. -/
def lakeDay : RouteJ :=
  [{ id := some "hotel", toNext := some [("lake", intMax)], fixed := some ⟨some [(0, 0)], some 0⟩ },
   { id := some "lake", toNext := some [("inn", 0)], free := some ⟨some [], some ⟨0, 0, 0⟩⟩ },
   { id := some "inn", toNext := some [], fixed := some ⟨some [(intMax, intMax)], some 0⟩ }]

theorem lakeDay_valid : RouteJ.Valid lakeDay :=
  ⟨by decide, by simp [lakeDay, isFixed], by simp [lakeDay, isFixed]⟩

theorem lakeDay_feasible :
    (feasible { create lakeDay with isSearch := true }).length = 1 := by
  have hperm : (create lakeDay).inRouteJ.tail.dropLast.permutations = [lakeDay.tail.dropLast] := by
    rw [create_inRouteJ lakeDay_valid]
    simp [lakeDay, List.permutations]
  simp only [feasible, feasibleAt, hperm]
  decide +kernel

end Search

end PPView
