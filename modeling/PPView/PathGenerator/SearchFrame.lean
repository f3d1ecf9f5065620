import PPView.PathGenerator.SearchSpec

/-!
# What the search puts back

A call of `DoSearch` restores everything but `m_pathList`, the rows of its own and deeper levels,
and the counters, whether it ends in a dead end, with a path or at a timeout. `Ready` is what a
call needs for that; every call of a search on a day of at most `dayNodeLimit` nodes between its
ends has it.
-/

namespace PPView

open NodeJ

namespace Search

open PathGenerator

/-- Only `m_pathList`, the counters and the rows from `depth` on may change. -/
structure Restores (depth : Nat) (s s' : Search) : Prop where
  frame : s' = { s with
    idxVisited := s'.idxVisited, pathList := s'.pathList, sCnt := s'.sCnt, checks := s'.checks }
  rows : ∀ d < depth, s'.idxVisited d = s.idxVisited d

namespace Restores

variable {depth : Nat} {s s' s'' : Search}

theorem refl (depth : Nat) (s : Search) : Restores depth s s := ⟨rfl, fun _ _ => rfl⟩

theorem trans (h : Restores depth s s') (h' : Restores depth s' s'') : Restores depth s s'' := by
  refine ⟨?_, fun d hd => (h'.rows d hd).trans (h.rows d hd)⟩
  calc s'' = { s' with idxVisited := s''.idxVisited, pathList := s''.pathList,
                       sCnt := s''.sCnt, checks := s''.checks } := h'.frame
    _ = _ := by rw [h.frame]

theorem gen (h : Restores depth s s') : s'.gen = s.gen := (congrArg Search.gen h.frame :)

theorem poiList (h : Restores depth s s') : s'.poiList = s.poiList :=
  (congrArg Search.poiList h.frame :)

theorem visited (h : Restores depth s s') : s'.visited = s.visited :=
  (congrArg Search.visited h.frame :)

theorem nodeAt (h : Restores depth s s') : s'.nodeAt = s.nodeAt := by
  funext i
  rw [Search.nodeAt, h.poiList, Search.nodeAt]

theorem unused (h : Restores depth s s') : s'.unused = s.unused := by
  rw [Search.unused, h.poiList, h.visited, Search.unused]

theorem lastNode (h : Restores depth s s') : s'.lastNode = s.lastNode := by
  rw [Search.lastNode, h.gen, Search.lastNode]

end Restores

variable {s : Search} {depth : Nat}

/-! ## The parts of a level -/

theorem setIdxVisited_spec (s : Search) {i : Nat} (hdepth : depth < dayNodeLimit)
    (hi : i < dayNodeLimit) (b : Bool) :
    ∃ s', s.setIdxVisited depth i b = .ok s' ∧ Restores depth s s' ∧ s'.pathList = s.pathList ∧
      s'.idxVisited depth = Function.update (s.idxVisited depth) i b := by
  simp only [setIdxVisited, hdepth, hi, and_self, if_true]
  exact ⟨_, rfl, ⟨rfl, fun d hd => Function.update_of_ne hd.ne _ _⟩, rfl,
    Function.update_self ..⟩

theorem clearRow_spec (hlen : s.poiList.length ≤ dayNodeLimit) (hdepth : depth < s.poiList.length) :
    ∃ s', s.clearRow depth = .ok s' ∧ Restores depth s s' ∧ s'.pathList = s.pathList ∧
      ∀ i < s.poiList.length, s'.idxVisited depth i = false := by
  have hidx : depth < dayNodeLimit := hdepth.trans_le hlen
  suffices h : ∀ is : List Nat, (∀ i ∈ is, i < dayNodeLimit) → ∀ s : Search,
      ∃ s', is.foldlM (fun s i => s.setIdxVisited depth i false) s = .ok s' ∧
        Restores depth s s' ∧ s'.pathList = s.pathList ∧
        ∀ i, i ∈ is ∨ s.idxVisited depth i = false → s'.idxVisited depth i = false by
    obtain ⟨s', hs', hr, hlist, hrow⟩ := h (List.range s.poiList.length)
      (fun i hi => (List.mem_range.mp hi).trans_le hlen) s
    exact ⟨s', hs', hr, hlist, fun i hi => hrow i (.inl (List.mem_range.mpr hi))⟩
  intro is
  induction is with
  | nil => exact fun _ s => ⟨s, rfl, .refl depth s, rfl, by simp⟩
  | cons i is ih =>
    intro his s
    obtain ⟨hi, his⟩ := List.forall_mem_cons.mp his
    obtain ⟨sc, hclear, hr, hsc, hrow⟩ := setIdxVisited_spec s hidx hi false
    obtain ⟨s', hs', hr', hlist, hrow'⟩ := ih his sc
    refine ⟨s', ?_, hr.trans hr', hlist.trans hsc, fun j hj => hrow' j ?_⟩
    · simp only [List.foldlM_cons, hclear, bind, Except.bind]
      exact hs'
    · rw [hrow, Function.update_apply]
      rcases hj with hj | hj
      · rcases List.mem_cons.mp hj with rfl | hj
        · exact .inr (if_pos rfl)
        · exact .inl hj
      · exact .inr (by simp [hj])

theorem leave_spec (hlen : s.poiList.length ≤ dayNodeLimit) {s₁ s₂ : Search} {i : Nat}
    {m : NodeJ} (hi : i ∈ s.unused)
    (h₁ : s.enter i m = .ok s₁) (h₂ : Restores (depth + 1) s₁ s₂) :
    ∃ s₃, s₂.leave s.lastNode i m = .ok s₃ ∧ Restores depth s s₃ ∧
      s₃.idxVisited depth = s.idxVisited depth ∧ s₃.pathList = s₂.pathList := by
  obtain ⟨hlt, hvis⟩ := mem_unused.mp hi
  simp only [enter, setVisited, hlt.trans_le hlen, if_true, pure, Except.pure,
    Except.ok.injEq] at h₁
  subst h₁
  obtain ⟨hframe, hrows⟩ := h₂
  simp only [leave, setVisited, hlt.trans_le hlen, if_true, bind, Except.bind, pure,
    Except.pure]
  refine ⟨_, rfl, ⟨?_, fun d hd => hrows d (by omega)⟩, hrows depth (by omega), rfl⟩
  have hvisited : Function.update (Function.update s.visited i true) i false = s.visited := by
    rw [Function.update_idem, ← hvis, Function.update_eq_self]
  rw [hframe]
  simp only [append, List.dropLast_concat, hvisited]
  congr 1
  · cases !m.isFree && m.isFixed <;> simp
  · cases m.isFree <;> simp
  · omega

/-! ## The state at a call -/

/-- What `DoSearch` at `depth` needs of the state it is called in. -/
structure Callable (depth : Nat) (s : Search) : Prop where
  length_le : s.poiList.length ≤ dayNodeLimit
  check : ∀ n ∈ s.poiList, n.checkNodeJ
  length : s.gen.outRouteJ.length = depth + 1
  unused_length : s.unused.length + depth = s.poiList.length
  closing_single : (s.gen.inRouteJ.getLastD default).Single
  closing_fixed : (s.gen.inRouteJ.getLastD default).isFixed

theorem Restores.callable {k : Nat} {s' : Search} (h : Restores depth s s') (hs : s.Callable k) :
    s'.Callable k := by
  rw [h.frame]
  exact { hs with }

theorem greedyLoop_unused (hlen : s.poiList.length ≤ dayNodeLimit) (nodeJ : NodeJ) {idx : Nat}
    (hidx : idx < dayNodeLimit) (its : List String) (minTrafTime : Int) {nextIdx : Option Nat}
    (hnext : ∀ i, nextIdx = some i → i ∈ s.unused) :
    ∃ res, greedyLoop s nodeJ idx minTrafTime nextIdx its = .ok res ∧
      ∀ i, res = some i → i ∈ s.unused := by
  induction its generalizing minTrafTime nextIdx with
  | nil => exact ⟨nextIdx, rfl, hnext⟩
  | cons name its ih =>
    simp only [greedyLoop]
    split_ifs with hlt
    · cases hget : s.getIdxByIdstr name with
      | none => exact ih minTrafTime hnext
      | some i =>
        have hi : i < s.poiList.length := (List.findIdx?_eq_some_iff_getElem.mp hget).1
        simp only [getIdxVisited, getVisited, hidx, hi.trans_le hlen, and_self, if_true, bind,
          Except.bind, pure, Except.pure]
        split_ifs with hrow hvis
        · exact ih minTrafTime hnext
        · exact ih minTrafTime hnext
        · refine ih _ fun j hj => ?_
          obtain rfl : i = j := by simpa using hj
          exact mem_unused.mpr ⟨hi, by simpa using hvis⟩
    · exact ih minTrafTime hnext

theorem unused_update (i : Nat) :
    (List.range s.poiList.length).filter (fun j => !Function.update s.visited i true j) =
      s.unused.erase i := by
  rw [unused_nodup.erase_eq_filter, unused, List.filter_filter]
  refine List.filter_congr fun j _ => ?_
  by_cases hj : j = i <;> simp [hj]

theorem Callable.enter (hs : s.Callable depth) {i : Nat} (hi : i ∈ s.unused) (m : NodeJ) :
    ∃ s', s.enter i m = .ok s' ∧ s'.Callable (depth + 1) ∧ s'.unused.length < s.unused.length := by
  have hlt := (mem_unused.mp hi).1
  have hpos := List.length_pos_of_mem hi
  have herase := List.length_erase_of_mem hi
  have hlen := hs.unused_length
  simp only [Search.enter, setVisited, hlt.trans_le hs.length_le, if_true]
  refine ⟨_, rfl, ⟨hs.length_le, hs.check, ?_, ?_, hs.closing_single, hs.closing_fixed⟩, ?_⟩
  · simp [append, hs.length]
  · rw [unused, unused_update]
    change (s.unused.erase i).length + (depth + 1) = s.poiList.length
    omega
  · rw [unused, unused_update]
    omega

/-! ## One call -/

theorem visitNext_restores {search : Search → Res Search} {lastNode : NodeJ}
    (hs : s.Callable depth) (hdepth : depth < s.poiList.length) (hlast : s.lastNode = lastNode)
    (hsearch : ∀ s₁ : Search, s₁.Callable (depth + 1) → s₁.unused.length < s.unused.length →
      ∃ s₂, search s₁ = .ok s₂ ∧ Restores (depth + 1) s₁ s₂) :
    ∃ s', visitNext search depth lastNode s = .ok s' ∧ Restores depth s s' := by
  subst hlast
  have hidx : depth < dayNodeLimit := hdepth.trans_le hs.length_le
  have hfirst : ∀ i, (none : Option Nat) = some i → i ∈ s.unused := by simp
  obtain ⟨res, hres, hunused⟩ := greedyLoop_unused hs.length_le s.lastNode hidx
    (s.lastNode.members.map Prod.fst) intMax hfirst
  have hgreedy : s.getNextNodeByGreedy s.lastNode depth = .ok res := hres
  cases res with
  | none =>
    refine ⟨s, ?_, .refl depth s⟩
    simp [visitNext, hgreedy, bind, Except.bind, pure, Except.pure]
  | some i =>
    have hi := hunused i rfl
    have hlt := (mem_unused.mp hi).1
    obtain ⟨sm, hmark, hr, -⟩ := setIdxVisited_spec s hidx (hlt.trans_le hs.length_le) true
    have hcheck : (s.nodeAt i).checkNodeJ := by
      rw [nodeAt_eq hlt]
      exact hs.check _ (List.getElem_mem hlt)
    obtain ⟨res, hplace, -⟩ := placeNext_spec (g := s.gen) (checkNodeJ_xor hcheck)
    have hplace' : sm.gen.placeNext (sm.poiList.getD i default) = .ok res := by
      rw [hr.gen, hr.poiList]
      exact hplace
    simp only [visitNext, hgreedy, hmark, hplace', bind, Except.bind]
    cases res with
    | none => exact ⟨sm, rfl, hr⟩
    | some m =>
      have hsm : i ∈ sm.unused := hr.unused ▸ hi
      obtain ⟨s₁, hs₁, hready, hless⟩ := (hr.callable hs).enter hsm m
      obtain ⟨s₂, hs₂, hr₂⟩ := hsearch s₁ hready (hr.unused ▸ hless)
      obtain ⟨s₃, hs₃, hr₃, -⟩ := leave_spec (hr.callable hs).length_le hsm hs₁ hr₂
      rw [hr.lastNode] at hs₃
      refine ⟨s₃, ?_, hr.trans hr₃⟩
      simp only [hs₁, hs₂, hs₃]

theorem finish_restores (hs : s.Callable depth) :
    ∃ s', s.finish = .ok s' ∧ Restores depth s s' := by
  obtain ⟨res, hres⟩ := placeLast_spec hs.closing_single hs.closing_fixed
  simp only [finish, hres, bind, Except.bind, pure, Except.pure]
  cases res with
  | none => exact ⟨s, rfl, .refl depth s⟩
  | some last => exact ⟨_, rfl, rfl, fun _ _ => rfl⟩

/-- A call first counts, and may find its time over. -/
theorem doSearch_succ (timeOut : Nat → Bool) (fuel depth : Nat) (s : Search) :
    ∃ s₁, Restores depth s s₁ ∧ s₁.pathList = s.pathList ∧
      doSearch timeOut (fuel + 1) depth s =
        if s.sCnt + 1 > 20000 ∧ timeOut s.checks then .ok s₁
        else if s₁.gen.outRouteJ.length = s₁.poiList.length + 1 then s₁.finish
        else s₁.clearRow depth >>= s₁.lastNode.members.foldlM fun s _ =>
          visitNext (doSearch timeOut fuel (depth + 1)) depth s₁.lastNode s := by
  by_cases hcnt : s.sCnt + 1 > 20000
  · by_cases htime : timeOut s.checks
    · refine ⟨{ s with sCnt := s.sCnt + 1, checks := s.checks + 1 }, ⟨rfl, fun _ _ => rfl⟩, rfl, ?_⟩
      simp only [doSearch, hcnt, htime, and_self, if_true]
      rfl
    · refine ⟨{ s with sCnt := 0, checks := s.checks + 1 }, ⟨rfl, fun _ _ => rfl⟩, rfl, ?_⟩
      simp only [doSearch, hcnt, htime, Bool.false_eq_true, and_false, if_false, if_true]
  · refine ⟨{ s with sCnt := s.sCnt + 1 }, ⟨rfl, fun _ _ => rfl⟩, rfl, ?_⟩
    simp only [doSearch, hcnt, false_and, if_false]

/-- A call with enough fuel ends and restores the state. -/
theorem doSearch_restores (timeOut : Nat → Bool) {fuel : Nat} (hs : s.Callable depth)
    (hfuel : s.unused.length < fuel) :
    ∃ s', doSearch timeOut fuel depth s = .ok s' ∧ Restores depth s s' := by
  induction fuel generalizing s depth with
  | zero => omega
  | succ fuel ih =>
    obtain ⟨s₁, hr₁, -, heq⟩ := doSearch_succ timeOut fuel depth s
    have hs₁ := hr₁.callable hs
    rw [heq]
    split_ifs with htime hend
    · exact ⟨s₁, rfl, hr₁⟩
    · obtain ⟨s', hs', hr'⟩ := finish_restores hs₁
      exact ⟨s', hs', hr₁.trans hr'⟩
    · have hdepth : depth < s₁.poiList.length := by
        have := hs₁.unused_length
        have := hs₁.length
        omega
      obtain ⟨s₂, hclear, hr₂, -⟩ := clearRow_spec hs₁.length_le hdepth
      obtain ⟨s', hs', hr'⟩ := foldlM_ok
        (f := fun s _ => visitNext (doSearch timeOut fuel (depth + 1)) depth s₁.lastNode s)
        (P := Restores depth s₁) (l := s₁.lastNode.members) (fun s₃ _ _ hr₃ => by
          obtain ⟨s₄, hs₄, hr₄⟩ := visitNext_restores (hr₃.callable hs₁) (hr₃.poiList ▸ hdepth)
            hr₃.lastNode fun s₅ hs₅ hless => ih hs₅ (by
              rw [hr₃.unused, hr₁.unused] at hless
              omega)
          exact ⟨s₄, hs₄, hr₃.trans hr₄⟩) hr₂
      refine ⟨s', ?_, hr₁.trans hr'⟩
      rw [hclear]
      exact hs'

/-! ## The start of a search -/

theorem initSearch_eq {g : PathGenerator} (h : g.inRouteJ.tail.dropLast.length ≤ dayNodeLimit) :
    initSearch g =
      .ok { gen := { g with isSearch := true }, poiList := g.inRouteJ.tail.dropLast } := by
  suffices hloop : ∀ is : List Nat, (∀ i ∈ is, i < dayNodeLimit) → ∀ s : Search,
      (∀ i, s.visited i = false) → is.foldlM (fun s i => s.setVisited i false) s = .ok s from
    hloop _ (fun i hi => (List.mem_range.mp hi).trans_le h) _ fun _ => rfl
  intro is
  induction is with
  | nil => exact fun _ s _ => rfl
  | cons i is ih =>
    intro his s hvis
    obtain ⟨hi, his⟩ := List.forall_mem_cons.mp his
    have hset : s.setVisited i false = .ok s := by
      have hupd : Function.update s.visited i false = s.visited := by
        rw [← hvis i, Function.update_eq_self]
      simp only [setVisited, hi, if_true, hupd]
      rfl
    simp only [List.foldlM_cons, hset, bind, Except.bind]
    exact ih his s hvis

/-- With more nodes than `m_visited` has cells the first loop already leaves the array. -/
theorem initSearch_error {g : PathGenerator} (h : dayNodeLimit < g.inRouteJ.tail.dropLast.length) :
    initSearch g = .error .arrayBound := by
  suffices hloop : ∀ is : List Nat, dayNodeLimit ∈ is → ∀ s : Search,
      is.foldlM (fun s i => s.setVisited i false) s = .error .arrayBound from
    hloop _ (List.mem_range.mpr h) _
  intro is
  induction is with
  | nil => simp
  | cons i is ih =>
    intro his s
    by_cases hi : i < dayNodeLimit
    · have his : dayNodeLimit ∈ is := by
        rcases List.mem_cons.mp his with rfl | his
        · exact absurd hi (Nat.lt_irrefl _)
        · exact his
      simp only [List.foldlM_cons, setVisited, hi, if_true, bind, Except.bind, pure, Except.pure]
      exact ih his _
    · simp only [List.foldlM_cons, setVisited, hi, if_false, bind, Except.bind]

theorem modify_concat {α : Type} (f : α → α) (xs : List α) (x : α) :
    (xs ++ [x]).modify xs.length f = xs ++ [f x] := by
  induction xs with
  | nil => rfl
  | cons y xs ih => simp [ih]

theorem startGen_inRouteJ {g : PathGenerator} {first last : NodeJ} {mid : RouteJ}
    (h : g.inRouteJ = first :: (mid ++ [last])) (i j : Nat) :
    (startGen g i j).inRouteJ = first.setRangeIdx i :: (mid ++ [last.setRangeIdx j]) := by
  have hlen : (first :: (mid ++ [last])).length - 1 = mid.length + 1 := by simp
  simp only [startGen, h, hlen, List.modify_zero_cons, List.modify_succ_cons]
  rw [modify_concat]

/-- The state between two searches for a pair of sessions. -/
structure Idle (s : Search) : Prop where
  length_le : s.poiList.length ≤ dayNodeLimit
  check : ∀ n ∈ s.poiList, n.checkNodeJ
  visited : ∀ i, s.visited i = false
  ends : ∃ first mid last, s.gen.inRouteJ = first :: (mid ++ [last]) ∧ last.Single ∧ last.isFixed

theorem Idle.callable (hs : s.Idle) (i j : Nat) :
    Callable 0 { s with gen := startGen s.gen i j } := by
  obtain ⟨first, mid, last, hin, hsingle, hfixed⟩ := hs.ends
  have hlast : (startGen s.gen i j).inRouteJ.getLastD default = last.setRangeIdx j := by
    rw [startGen_inRouteJ hin, ← List.cons_append, List.getLastD_concat]
  refine ⟨hs.length_le, hs.check, rfl, ?_, ?_, ?_⟩
  · simp [unused, hs.visited]
  · rw [hlast]
    exact single_setRangeIdx hsingle j
  · rw [hlast]
    exact hfixed

theorem Idle.restores (hs : s.Idle) {i j : Nat} {s' : Search}
    (h : Restores 0 { s with gen := startGen s.gen i j } s') : s'.Idle := by
  obtain ⟨first, mid, last, hin, hsingle, hfixed⟩ := hs.ends
  rw [h.frame]
  exact ⟨hs.length_le, hs.check, hs.visited, _, mid, _, startGen_inRouteJ hin i j,
    single_setRangeIdx hsingle j, hfixed⟩

theorem Idle.search (timeOut : Nat → Bool) (hs : s.Idle) (i j : Nat) : ∃ s',
    doSearch timeOut (s.poiList.length + 1) 0 { s with gen := startGen s.gen i j } = .ok s' ∧
      s'.Idle := by
  have hcall := hs.callable i j
  obtain ⟨s', hs', hr⟩ := doSearch_restores timeOut hcall (Nat.lt_succ_of_le hcall.unused_length.le)
  exact ⟨s', hs', hs.restores hr⟩

theorem idle_of_initSearch {g : PathGenerator} (hr : RouteJ.Valid g.inRouteJ)
    (hlen : g.inRouteJ.length ≤ dayNodeLimit + 2) : ∃ s, initSearch g = .ok s ∧ s.Idle := by
  obtain ⟨first, mid, last, hin⟩ := hr.exists_eq
  have hmid : g.inRouteJ.tail.dropLast = mid := by rw [hin, List.tail_cons, List.dropLast_concat]
  have hlen' : mid.length ≤ dayNodeLimit := by
    rw [hin] at hlen
    simpa using hlen
  have hfixed : last.isFixed := by
    refine hr.last last ?_
    rw [hin, ← List.cons_append]
    exact List.getLast?_concat
  refine ⟨_, initSearch_eq (hmid ▸ hlen'), ?_, fun n hn => ?_, fun _ => rfl, first, mid, last, hin,
    hr.single (by simp [hin]), hfixed⟩
  · rw [hmid]
    exact hlen'
  · rw [hmid] at hn
    exact hr.checkNodeJ (by simp [hin, hn])

end Search

end PPView
