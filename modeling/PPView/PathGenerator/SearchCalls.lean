import PPView.PathGenerator.DayPathExpandOpt
import PPView.PathGenerator.SearchFrame

/-!
# The calls of a search

`Called` lists the calls of `DoSearch` in a search on a day: those that `Search` makes for the
sessions of the ends, in whatever order, and those that a call makes for the nodes it appends.
Every one of them restores the state (`doSearch_restores_entry`), and as long as the day fits the
tables no access leaves them (`searchRoute_inBounds_iff`).
-/

namespace PPView

open NodeJ

namespace Search

open PathGenerator

/-! ## The calls -/

/-- The states between the calls of `Search`. -/
inductive Between (timeOut : Nat → Bool) (g : PathGenerator) : Search → Prop
  | init {s} (h : initSearch g = .ok s) : Between timeOut g s
  | step {s s' i j} (h : Between timeOut g s)
      (hcall : doSearch timeOut (s.poiList.length + 1) 0 { s with gen := startGen s.gen i j } =
        .ok s') : Between timeOut g s'

/-- The calls, each with its fuel, its depth and the state it is made in. A nested call is made
in the loop over the members of `lastNode.toNext` after the members `done`; `c` and `k` are the
counters after the check of the timers. -/
inductive Called (timeOut : Nat → Bool) (g : PathGenerator) : Nat → Nat → Search → Prop
  | top {s i j} (h : Between timeOut g s) :
      Called timeOut g (s.poiList.length + 1) 0 { s with gen := startGen s.gen i j }
  | nested {fuel depth s sc s₁ s₂ s₃ c k nextIdx node} {done : List (String × Int)}
      (h : Called timeOut g (fuel + 1) depth s)
      (hend : s.gen.outRouteJ.length ≠ s.poiList.length + 1)
      (hclear : clearRow { s with sCnt := c, checks := k } depth = .ok sc)
      (hdone : done <+: s.lastNode.members)
      (hloop : done.foldlM
        (fun s' _ => visitNext (doSearch timeOut fuel (depth + 1)) depth s.lastNode s') sc = .ok s₁)
      (hnext : s₁.getNextNodeByGreedy s.lastNode depth = .ok (some nextIdx))
      (hmark : s₁.setIdxVisited depth nextIdx true = .ok s₂)
      (hplace : s₂.gen.placeNext (s₂.poiList.getD nextIdx default) = .ok (some node))
      (henter : s₂.enter nextIdx node = .ok s₃) : Called timeOut g fuel (depth + 1) s₃

variable {timeOut : Nat → Bool} {g : PathGenerator} {s : Search} {fuel depth : Nat}

theorem Between.idle (hr : RouteJ.Valid g.inRouteJ) (hlen : g.inRouteJ.length ≤ dayNodeLimit + 2)
    (h : Between timeOut g s) : s.Idle := by
  induction h with
  | init h =>
    obtain ⟨s', hs', hidle⟩ := idle_of_initSearch hr hlen
    obtain rfl := Except.ok.inj (h.symm.trans hs')
    exact hidle
  | step _ hcall ih =>
    obtain ⟨s', hs', hidle⟩ := ih.search timeOut _ _
    obtain rfl := Except.ok.inj (hcall.symm.trans hs')
    exact hidle

/-- The loop over the members, from a state that is like the one at the call. -/
theorem Restores.visitLoop {s₀ s₁ : Search} {done : List (String × Int)} (hs : s.Callable depth)
    (hdepth : depth < s.poiList.length) (hfuel : s.unused.length ≤ fuel)
    (h : Restores depth s s₀)
    (hloop : done.foldlM
      (fun s' _ => visitNext (doSearch timeOut fuel (depth + 1)) depth s.lastNode s') s₀ = .ok s₁) :
    Restores depth s s₁ := by
  obtain ⟨s', hs', hr⟩ := foldlM_ok (l := done) (P := Restores depth s)
    (f := fun s' _ => visitNext (doSearch timeOut fuel (depth + 1)) depth s.lastNode s')
    (fun s₁ _ _ hr₁ => by
      obtain ⟨s₂, hs₂, hr₂⟩ := visitNext_restores (hr₁.callable hs) (hr₁.poiList ▸ hdepth)
        hr₁.lastNode fun s₃ hs₃ hless => doSearch_restores timeOut hs₃ (by
          rw [hr₁.unused] at hless
          exact hless.trans_le hfuel)
      exact ⟨s₂, hs₂, hr₁.trans hr₂⟩) h
  obtain rfl := Except.ok.inj (hloop.symm.trans hs')
  exact hr

theorem Called.callable (hr : RouteJ.Valid g.inRouteJ)
    (hlen : g.inRouteJ.length ≤ dayNodeLimit + 2) (h : Called timeOut g fuel depth s) :
    Callable depth s ∧ s.unused.length < fuel := by
  induction h with
  | @top s i j h =>
    have hcall := (h.idle hr hlen).callable i j
    exact ⟨hcall, Nat.lt_succ_of_le hcall.unused_length.le⟩
  | @nested fuel depth s sc s₁ s₂ s₃ c k nextIdx node done h hend hclear hdone hloop hnext hmark
      hplace henter ih =>
    obtain ⟨hs, hfuel⟩ := ih
    have hdepth : depth < s.poiList.length := by
      have := hs.unused_length
      have := hs.length
      omega
    have hidx : depth < dayNodeLimit := hdepth.trans_le hs.length_le
    have hcount : Restores depth s { s with sCnt := c, checks := k } := ⟨rfl, fun _ _ => rfl⟩
    obtain ⟨sc', hclear', hrc, -⟩ := clearRow_spec (hcount.callable hs).length_le hdepth
    obtain rfl := Except.ok.inj (hclear.symm.trans hclear')
    have hr₁ : Restores depth s s₁ :=
      Restores.visitLoop hs hdepth (Nat.le_of_lt_succ hfuel) (hcount.trans hrc) hloop
    have hs₁ := hr₁.callable hs
    have hfirst : ∀ i, (none : Option Nat) = some i → i ∈ s₁.unused := by simp
    obtain ⟨res, hres, hunused⟩ := greedyLoop_unused hs₁.length_le s.lastNode hidx
      (s.lastNode.members.map Prod.fst) intMax hfirst
    obtain rfl := Except.ok.inj (hnext.symm.trans hres)
    have hi := hunused nextIdx rfl
    have hlt := ((mem_unused.mp hi).1).trans_le hs₁.length_le
    obtain ⟨s₂', hmark', hr₂, -⟩ := setIdxVisited_spec s₁ hidx hlt true
    obtain rfl := Except.ok.inj (hmark.symm.trans hmark')
    obtain ⟨s₃', henter', hcall, hless⟩ := (hr₂.callable hs₁).enter (hr₂.unused ▸ hi) node
    obtain rfl := Except.ok.inj (henter.symm.trans henter')
    refine ⟨hcall, ?_⟩
    rw [hr₂.unused, hr₁.unused] at hless
    omega

/-- Every call in a search on a day of at most `dayNodeLimit` nodes between its ends returns, and
leaves the route, the visited nodes and the running sums as they were. -/
theorem doSearch_restores_entry {r : RouteJ} {controls : Controls}
    (hcheck : checkRouteJ (create r controls).inRouteJ)
    (hlen : (create r controls).inRouteJ.length ≤ dayNodeLimit + 2)
    (h : Called timeOut (create r controls) fuel depth s) :
    ∃ s', doSearch timeOut fuel depth s = .ok s' ∧ s'.gen.outRouteJ = s.gen.outRouteJ ∧
      s'.visited = s.visited ∧ s'.trafTime = s.trafTime ∧ s'.fixedNum = s.fixedNum ∧
      s'.freeNum = s.freeNum := by
  have hr : RouteJ.Valid (create r controls).inRouteJ := (valid_of_check hcheck).1
  obtain ⟨hcall, hfuel⟩ := h.callable hr hlen
  obtain ⟨s', hs', hrest⟩ := doSearch_restores timeOut hcall hfuel
  exact ⟨s', hs', congrArg PathGenerator.outRouteJ hrest.gen, hrest.visited,
    (congrArg Search.trafTime hrest.frame :), (congrArg Search.fixedNum hrest.frame :),
    (congrArg Search.freeNum hrest.frame :)⟩

theorem doSearch_restores_entry_museumDay :
    ∃ s s', Called (fun _ => false) (create museumDay) 2 0 s ∧
      doSearch (fun _ => false) 2 0 s = .ok s' ∧ s'.gen.outRouteJ = s.gen.outRouteJ ∧
      s'.visited = s.visited ∧ s'.trafTime = s.trafTime ∧ s'.fixedNum = s.fixedNum ∧
      s'.freeNum = s.freeNum :=
  have hcalled := @Called.top (fun _ => false) (create museumDay) _ 0 0
    (.init (initSearch_eq (by decide)))
  have ⟨s', hs'⟩ := doSearch_restores_entry (by decide) (by decide) hcalled
  ⟨_, s', hcalled, hs'⟩

/-! ## The tables -/

/-- `DayPathSearch` before the best path is selected; `none` stands for a route it refuses. -/
def searchRoute (timeOut : Nat → Bool) (g : PathGenerator) : Res (Option Search) :=
  if !checkRouteJ g.inRouteJ then pure none else some <$> run timeOut g

theorem Idle.sessions (timeOut : Nat → Bool) (hs : s.Idle) :
    ∃ s', s.searchAll timeOut = .ok s' := by
  have hloop (is js : List Nat) : ∃ s', is.foldlM (fun s i => js.foldlM (fun s j =>
      doSearch timeOut (s.poiList.length + 1) 0 { s with gen := startGen s.gen i j }) s) s =
        .ok s' ∧ s'.Idle :=
    foldlM_ok (fun s i _ hs => foldlM_ok (fun s j _ hs => hs.search timeOut i j) hs) hs
  obtain ⟨s', hs', -⟩ := hloop (List.range (s.gen.inRouteJ.headD default).times.length)
    (List.range (s.gen.inRouteJ.getLastD default).times.length)
  exact ⟨s', hs'⟩

theorem length_touchBorders {r : RouteJ} (h : r ≠ []) : (touchBorders r).length = r.length := by
  match r with
  | [] => exact absurd rfl h
  | [n] => rfl
  | n :: m :: rest => simp [touchBorders]

/-- The search stays within its tables iff the route, unless it is refused, has at most
`dayNodeLimit` nodes between its ends. -/
theorem searchRoute_inBounds_iff {r : RouteJ} (controls : Controls) (hr : checkRouteJ r) :
    searchRoute timeOut (create r controls) ≠ .error .arrayBound ↔
      ((∀ n ∈ r.head?, n.isFixed) ∧ (∀ n ∈ r.getLast?, n.isFixed) →
        r.length ≤ dayNodeLimit + 2) := by
  have hne : r ≠ [] := by
    rintro rfl
    simp [checkRouteJ] at hr
  have hlen : (create r controls).inRouteJ.length = r.length := length_touchBorders hne
  rw [← check_create_iff controls hr]
  cases hcheck : checkRouteJ (create r controls).inRouteJ with
  | false => simp [searchRoute, hcheck, pure, Except.pure]
  | true =>
    simp only [forall_const, searchRoute, hcheck, Bool.not_true, Bool.false_eq_true, if_false, run]
    by_cases hle : r.length ≤ dayNodeLimit + 2
    · obtain ⟨s, hs, hidle⟩ := idle_of_initSearch (valid_of_check hcheck).1 (hlen ▸ hle)
      obtain ⟨s', hs'⟩ := hidle.sessions timeOut
      simp [hs, hs', hle, bind, Except.bind]
    · have hlong : dayNodeLimit < (create r controls).inRouteJ.tail.dropLast.length := by
        simp only [List.length_dropLast, List.length_tail]
        omega
      simp [initSearch_error hlong, hle, bind, Except.bind]

/-- A day with `n` visits between two stays. -/
def longDay (n : Nat) : RouteJ :=
  { id := some "hotel", toNext := some [("museum", 1800)]
    fixed := some ⟨some [(0, 28800)], some 0⟩ } ::
  (List.replicate n { id := some "museum", toNext := some [("inn", 1800)]
                      free := some ⟨some [(32400, 64800)], some ⟨3600, 5400, 7200⟩⟩ } ++
    [{ id := some "inn", toNext := some [], fixed := some ⟨some [(72000, 86400)], some 0⟩ }])

theorem searchRoute_inBounds_museumDay :
    searchRoute (fun _ => false) (create museumDay) ≠ .error .arrayBound :=
  (searchRoute_inBounds_iff {} (by decide)).mpr fun _ => by decide

/-- Nothing on the way to the tables counts the nodes. -/
theorem not_searchRoute_inBounds :
    ¬ ∀ (r : RouteJ) (controls : Controls) (timeOut : Nat → Bool), checkRouteJ r →
      searchRoute timeOut (create r controls) ≠ .error .arrayBound := fun h =>
  h (longDay 21) {} (fun _ => false) (by decide) rfl

end Search

end PPView
