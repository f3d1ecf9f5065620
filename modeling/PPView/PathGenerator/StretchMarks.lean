import Mathlib.Data.List.GetD
import PPView.PathGenerator.Lengthening

/-!
# Marks of earlier stretches

`TimeEnrich` marks the nodes whose stay is final by their position in the stretch, and the marks
of one stretch are still there when the next one is worked on. `timeEnrich_alone_iff` says when
this makes no difference: when no step that would keep a longer stay meets a mark of an earlier
stretch.
-/

namespace PPView

open NodeJ

namespace PathGenerator

/-! ## The run on one stretch -/

/-- The steps of `TimeEnrich` on a stretch of `len` nodes: the round and the node. -/
def enrichLoop (len : Nat) : List (Nat × Nat) :=
  (List.range' 1 enrichSteps).flatMap fun u => (List.range' 1 (len - 2)).map fun j => (u, j)

def enrichAt (state : (Nat → Bool) × RouteJ) (p : Nat × Nat) : Res ((Nat → Bool) × RouteJ) :=
  enrichNode expandCopy p.1 state p.2

theorem foldlM_nested {α β γ : Type} (f : γ → α × β → Res γ) (js : List β) (us : List α) (s : γ) :
    us.foldlM (fun s u => js.foldlM (fun s j => f s (u, j)) s) s =
      (us.flatMap fun u => js.map fun j => (u, j)).foldlM f s := by
  induction us generalizing s with
  | nil => rfl
  | cons u us ih =>
    rw [List.foldlM_cons, List.flatMap_cons, List.foldlM_append, List.foldlM_map]
    congr 1
    funext s'
    exact ih s'

theorem enrichStretch_eq (i : Nat) (vis : Nat → Bool) (seg : RouteJ) :
    enrichStretch expandCopy i vis seg = (do
      let (vis, temp) ← (enrichLoop seg.length).foldlM enrichAt (vis, seg)
      pure (vis, false, temp)) := by
  unfold enrichLoop
  rw [← foldlM_nested]
  rfl

theorem le_of_mem_enrichLoop {len : Nat} {p : Nat × Nat} (h : p ∈ enrichLoop len) :
    p.1 ≤ enrichSteps := by
  obtain ⟨u, hu, hp⟩ := List.mem_flatMap.mp h
  obtain ⟨j, -, rfl⟩ := List.mem_map.mp hp
  have := List.mem_range'_1.mp hu
  omega

theorem exists_of_mem_enrichLoop {len : Nat} {p : Nat × Nat} (h : p ∈ enrichLoop len) :
    ∃ k, p.2 = k + 1 ∧ k < len - 2 := by
  obtain ⟨u, -, hp⟩ := List.mem_flatMap.mp h
  obtain ⟨j, hj, rfl⟩ := List.mem_map.mp hp
  obtain ⟨h1, h2⟩ := List.mem_range'_1.mp hj
  exact ⟨j - 1, by simp only; omega, by omega⟩

/-- From the state on, no step that keeps a longer stay meets a mark in `marks`. -/
def Undisturbed (marks : Nat → Bool) : List (Nat × Nat) → (Nat → Bool) × RouteJ → Prop
  | [], _ => True
  | (u, j) :: steps, (vis, temp) =>
    (marks j → vis j = false → ¬ Keeps u temp j) ∧
      ∀ state, enrichNode expandCopy u (vis, temp) j = .ok state → Undisturbed marks steps state

/-- The marks `vis` on top of `marks`. -/
def addMarks (marks vis : Nat → Bool) : Nat → Bool := fun k => vis k || marks k

theorem addMarks_update {marks vis : Nat → Bool} (j : Nat) :
    addMarks marks (Function.update vis j true) = Function.update (addMarks marks vis) j true := by
  funext k
  by_cases hk : k = j <;> simp [addMarks, hk]

theorem addMarks_update_of_marked {marks vis : Nat → Bool} {j : Nat} (h : marks j) :
    addMarks marks (Function.update vis j true) = addMarks marks vis := by
  funext k
  by_cases hk : k = j
  · simp [addMarks, hk, h]
  · simp [addMarks, hk]

section Run

variable {seg temp : RouteJ}

/-- A run ends. The stay at a node stays as it is, or changes for good, and it cannot change at
a marked node. -/
theorem enrichRun_spec (hseg : RouteJ.Valid seg) (h : Enriched seg temp) (vis : Nat → Bool)
    {steps : List (Nat × Nat)} (hsteps : ∀ p ∈ steps, p.1 ≤ enrichSteps) :
    ∃ vis' out, steps.foldlM enrichAt (vis, temp) = .ok (vis', out) ∧ Enriched seg out ∧
      ∀ k, (out.getD k default).durs = (temp.getD k default).durs ∨
        vis k = false ∧ Changed (temp.getD k default).durs (out.getD k default).durs := by
  induction steps generalizing temp vis with
  | nil => exact ⟨vis, temp, rfl, h, fun _ => .inl rfl⟩
  | cons p steps ih =>
    obtain ⟨u, j⟩ := p
    obtain ⟨hu, hsteps⟩ := List.forall_mem_cons.mp hsteps
    obtain ⟨mark, temp', hstep⟩ := exists_stepAt hseg h hu j
    rw [List.foldlM_cons, show enrichAt (vis, temp) (u, j) = _ from hstep.eq vis]
    cases hvis : vis j with
    | true => exact ih h vis hsteps
    | false =>
      obtain ⟨vis', out, hrun, hout, hdurs⟩ :=
        ih hstep.enriched (if mark then Function.update vis j true else vis) hsteps
      refine ⟨vis', out, hrun, hout, fun k => ?_⟩
      -- marks are never taken back
      have hmarks (k : Nat) (h : (if mark then Function.update vis j true else vis) k = false) :
          vis k = false := by
        by_cases hk : k = j
        · rw [hk, hvis]
        · split_ifs at h
          · simpa [hk] using h
          · exact h
      by_cases hk : k = j
      · subst hk
        by_cases hkeeps : Keeps u temp k
        · right
          rcases hdurs k with heq | ⟨-, hch⟩
          · exact ⟨hvis, heq ▸ hstep.changed hkeeps⟩
          · exact ⟨hvis, (hstep.changed hkeeps).trans hch⟩
        · rw [hstep.stays hkeeps] at hdurs
          exact (hdurs k).imp_right fun h => ⟨hmarks k h.1, h.2⟩
      · rw [← hstep.others k hk]
        exact (hdurs k).imp_right fun h => ⟨hmarks k h.1, h.2⟩

theorem durs_of_enrichRun (hseg : RouteJ.Valid seg) (h : Enriched seg temp)
    {steps : List (Nat × Nat)} (hsteps : ∀ p ∈ steps, p.1 ≤ enrichSteps) {vis vis' : Nat → Bool}
    {out : RouteJ} (hrun : steps.foldlM enrichAt (vis, temp) = .ok (vis', out)) (k : Nat) :
    (out.getD k default).durs = (temp.getD k default).durs ∨
      vis k = false ∧ Changed (temp.getD k default).durs (out.getD k default).durs := by
  obtain ⟨v, o, hrun', -, hdurs⟩ := enrichRun_spec hseg h vis hsteps
  obtain ⟨-, rfl⟩ : v = vis' ∧ o = out := by simpa [hrun'] using hrun
  exact hdurs k

theorem undisturbed_cons_iff {u j : Nat} {mark : Bool} {temp' : RouteJ}
    (hstep : StepAt seg u temp j mark temp') {marks vis : Nat → Bool} {steps : List (Nat × Nat)} :
    Undisturbed marks ((u, j) :: steps) (vis, temp) ↔
      (marks j → vis j = false → ¬ Keeps u temp j) ∧
        Undisturbed marks steps (if vis j then (vis, temp)
          else (if mark then Function.update vis j true else vis, temp')) := by
  simp only [Undisturbed, hstep.eq vis, Except.ok.injEq, forall_eq']

/-- A stay that is kept longer in the run that comes to it unmarked, and not in the other. -/
theorem durs_ne_of_keeps (hseg : RouteJ.Valid seg) (h : Enriched seg temp) {u j : Nat}
    {mark : Bool} {temp' : RouteJ} (hstep : StepAt seg u temp j mark temp')
    (hkeeps : Keeps u temp j) {steps : List (Nat × Nat)} (hsteps : ∀ p ∈ steps, p.1 ≤ enrichSteps)
    {vis vis' marked visM : Nat → Bool} {out outM : RouteJ} (hmarked : marked j)
    (hrun : steps.foldlM enrichAt (vis, temp') = .ok (vis', out))
    (hrunM : steps.foldlM enrichAt (marked, temp) = .ok (visM, outM)) :
    (outM.getD j default).durs ≠ (out.getD j default).durs := by
  have hday : (outM.getD j default).durs = (temp.getD j default).durs :=
    (durs_of_enrichRun hseg h hsteps hrunM j).resolve_right fun h => by simp [hmarked] at h
  have halone : Changed (temp.getD j default).durs (out.getD j default).durs := by
    rcases durs_of_enrichRun hseg hstep.enriched hsteps hrun j with heq | ⟨-, hch⟩
    · exact heq ▸ hstep.changed hkeeps
    · exact (hstep.changed hkeeps).trans hch
  rw [hday]
  exact halone.ne.symm

/-- The run on top of `marks` against the run without them. -/
theorem enrichRun_addMarks (hseg : RouteJ.Valid seg) (h : Enriched seg temp)
    (marks vis : Nat → Bool)
    {steps : List (Nat × Nat)} (hsteps : ∀ p ∈ steps, p.1 ≤ enrichSteps) {vis' visM : Nat → Bool}
    {out outM : RouteJ} (hrun : steps.foldlM enrichAt (vis, temp) = .ok (vis', out))
    (hrunM : steps.foldlM enrichAt (addMarks marks vis, temp) = .ok (visM, outM)) :
    (Undisturbed marks steps (vis, temp) → visM = addMarks marks vis' ∧ outM = out) ∧
      (¬ Undisturbed marks steps (vis, temp) →
        ∃ p ∈ steps, (outM.getD p.2 default).durs ≠ (out.getD p.2 default).durs) := by
  induction steps generalizing temp vis with
  | nil =>
    obtain ⟨rfl, rfl⟩ : vis = vis' ∧ temp = out := by simpa [pure, Except.pure] using hrun
    obtain ⟨rfl, rfl⟩ : addMarks marks vis = visM ∧ temp = outM := by
      simpa [pure, Except.pure] using hrunM
    exact ⟨fun _ => ⟨rfl, rfl⟩, fun h => absurd trivial h⟩
  | cons p steps ih =>
    obtain ⟨u, j⟩ := p
    obtain ⟨hu, hsteps⟩ := List.forall_mem_cons.mp hsteps
    obtain ⟨mark, temp', hstep⟩ := exists_stepAt hseg h hu j
    rw [undisturbed_cons_iff hstep]
    -- a stay that differs after the remaining steps
    have hlater {C : Prop} {S : Prop}
        (h : (S → visM = addMarks marks vis' ∧ outM = out) ∧
          (¬ S → ∃ p ∈ steps, (outM.getD p.2 default).durs ≠ (out.getD p.2 default).durs))
        (hC : C) : (C ∧ S → visM = addMarks marks vis' ∧ outM = out) ∧
          (¬ (C ∧ S) → ∃ p ∈ (u, j) :: steps,
            (outM.getD p.2 default).durs ≠ (out.getD p.2 default).durs) := by
      refine ⟨fun hS => h.1 hS.2, fun hS => ?_⟩
      obtain ⟨p, hp, hne⟩ := h.2 fun hS' => hS ⟨hC, hS'⟩
      exact ⟨p, List.mem_cons_of_mem _ hp, hne⟩
    rw [List.foldlM_cons, show enrichAt (vis, temp) (u, j) = _ from hstep.eq vis] at hrun
    rw [List.foldlM_cons, show enrichAt (addMarks marks vis, temp) (u, j) = _ from
      hstep.eq _] at hrunM
    cases hvis : vis j with
    | true =>
      have hover : addMarks marks vis j = true := by simp [addMarks, hvis]
      rw [hvis] at hrun
      rw [hover] at hrunM
      exact hlater (ih h vis hsteps hrun hrunM) fun _ h => by simp at h
    | false =>
      rw [hvis] at hrun
      cases hmark : marks j with
      | false =>
        -- the mark is not there: both runs take the same step
        have hover : addMarks marks vis j = false := by simp [addMarks, hvis, hmark]
        have hnext :
            (if mark then Function.update (addMarks marks vis) j true else addMarks marks vis) =
            addMarks marks (if mark then Function.update vis j true else vis) := by
          split_ifs
          · exact (addMarks_update j).symm
          · rfl
        rw [hover, if_neg Bool.false_ne_true, hnext] at hrunM
        exact hlater (ih hstep.enriched _ hsteps hrun hrunM) fun h => by simp at h
      | true =>
        have hover : addMarks marks vis j = true := by simp [addMarks, hmark]
        rw [hover] at hrunM
        by_cases hkeeps : Keeps u temp j
        · -- the stay changes in one run only
          refine ⟨fun hund => absurd hkeeps (hund.1 rfl rfl),
            fun _ => ⟨(u, j), List.mem_cons_self, ?_⟩⟩
          exact durs_ne_of_keeps hseg h hstep hkeeps hsteps hover hrun hrunM
        · have hnext : addMarks marks vis =
              addMarks marks (if mark then Function.update vis j true else vis) := by
            split_ifs
            · exact (addMarks_update_of_marked hmark).symm
            · rfl
          rw [hstep.stays hkeeps] at hrun ⊢
          rw [if_pos rfl, hnext] at hrunM
          exact hlater (ih h _ hsteps hrun hrunM) fun _ _ => hkeeps

end Run

/-! ## A stretch in the day and alone -/

/-- The durations and times in `seg'` are those that `TimeEnrich` gives to `seg` alone. -/
def SameAsAlone (seg seg' : RouteJ) : Prop :=
  ∃ alone, timeEnrich seg = .ok (true, alone) ∧
    seg'.map (fun n => (n.durs, n.time)) = alone.map (fun n => (n.durs, n.time))

/-- On each stretch alone, no step that keeps a longer stay is at a position that a stretch before
it has marked. `marks` are the marks on the way in. -/
def Independent : (Nat → Bool) → List RouteJ → Prop
  | _, [] => True
  | marks, seg :: segs =>
    Undisturbed marks (enrichLoop seg.length) (fun _ => false, seg) ∧
      ∀ vis out, enrichStretch expandCopy 0 (fun _ => false) seg = .ok (vis, false, out) →
        Independent (addMarks marks vis) segs

section Stretch

variable {f : Nat → (Nat → Bool) → RouteJ → Res ((Nat → Bool) × Bool × RouteJ)}

/-- The walk collects the free nodes up to the next fixed one. -/
theorem scan_append {vis : Nat → Bool} {before stretch mid rest : RouteJ}
    (hmid : ∀ n ∈ mid, n.isFixed = false) :
    scan (fun _ => false) f vis before stretch (mid ++ rest) =
      scan (fun _ => false) f vis before (stretch ++ mid) rest := by
  induction mid generalizing stretch with
  | nil => simp
  | cons n mid ih =>
    obtain ⟨hn, hmid⟩ := List.forall_mem_cons.mp hmid
    rw [List.cons_append, scan, if_neg Bool.false_ne_true, if_neg (by simp [hn]), ih hmid,
      List.append_assoc]
    rfl

variable {x y : NodeJ} {mid : RouteJ}

theorem enrichStretch_nil (i : Nat) (vis : Nat → Bool) :
    enrichStretch expandCopy i vis [x, y] = .ok (vis, false, [x, y]) := rfl

/-- `TimeEnrich` on a stretch alone. -/
theorem timeEnrich_stretch (hx : x.isFixed) (hy : y.isFixed) (hmid : ∀ n ∈ mid, n.isFixed = false)
    {vis : Nat → Bool} {x' y' : NodeJ} {mid' : RouteJ} (hlen : mid'.length = mid.length)
    (h : enrichStretch expandCopy 0 (fun _ => false) (x :: (mid ++ [y])) =
      .ok (vis, false, x' :: (mid' ++ [y']))) :
    timeEnrich (x :: (mid ++ [y])) = .ok (true, x :: (mid' ++ [y])) := by
  rw [timeEnrich, timeEnrichWith, scan, if_neg Bool.false_ne_true, if_pos hx,
    if_neg (by simp), scan_append hmid, scan, if_neg Bool.false_ne_true, if_pos hy]
  split_ifs with hmore
  · have hcall : enrichStretch expandCopy (([] ++ [] : RouteJ).length + ([x] ++ mid).length)
        (fun _ => false) ([x] ++ mid ++ [y]) = .ok (vis, false, x' :: (mid' ++ [y'])) := h
    rw [hcall]
    have hsplice : splice (x :: mid) (x' :: (mid' ++ [y'])) = x :: mid' := splice_eq hlen
    simp [bind, Except.bind, hsplice, scan, pure, Except.pure]
  · obtain rfl : mid = [] := by simpa using hmore
    obtain rfl : mid' = [] := by simpa using hlen
    rfl

theorem getD_durs_inside {k : Nat} (hk : k < mid.length) :
    ((x :: (mid ++ [y])).getD (k + 1) default).durs = (mid.map durs).getD k {} := by
  rw [List.getD_cons_succ, List.getD_append _ _ _ _ hk]
  exact (List.getD_map mid default durs).symm

/-- The work on a stretch after the marks `marks`, against the work on it alone. -/
theorem enrichStretch_sameAsAlone_iff (hx : x.isFixed) (hy : y.isFixed)
    (hmid : ∀ n ∈ mid, n.isFixed = false) (hseg : RouteJ.Expanded (x :: (mid ++ [y]))) (i : Nat)
    (marks : Nat → Bool) :
    ∃ visM x' mid' y', enrichStretch expandCopy i marks (x :: (mid ++ [y])) =
        .ok (visM, false, x' :: (mid' ++ [y'])) ∧
      mid'.length = mid.length ∧ (∀ n ∈ mid', n.isFixed = false) ∧
      (SameAsAlone (x :: (mid ++ [y])) (x :: (mid' ++ [y])) ↔
        Undisturbed marks (enrichLoop (x :: (mid ++ [y])).length)
          (fun _ => false, x :: (mid ++ [y]))) ∧
      (Undisturbed marks (enrichLoop (x :: (mid ++ [y])).length)
          (fun _ => false, x :: (mid ++ [y])) →
        ∀ vis out, enrichStretch expandCopy 0 (fun _ => false) (x :: (mid ++ [y])) =
          .ok (vis, false, out) → visM = addMarks marks vis) := by
  have hsteps : ∀ p ∈ enrichLoop (x :: (mid ++ [y])).length, p.1 ≤ enrichSteps :=
    fun p => le_of_mem_enrichLoop
  have hstart := Enriched.refl hseg
  obtain ⟨vis, out, hrun, hout, -⟩ := enrichRun_spec hseg.valid hstart (fun _ => false) hsteps
  obtain ⟨visM, outM, hrunM, houtM, -⟩ := enrichRun_spec hseg.valid hstart marks hsteps
  have hover : addMarks marks (fun _ => false) = marks := by
    funext k
    simp [addMarks]
  obtain ⟨hund, hdist⟩ := enrichRun_addMarks hseg.valid hstart marks (fun _ => false) hsteps hrun
    (hover ▸ hrunM)
  -- the ends are not written back
  obtain ⟨x₁, mid₁, y₁, rfl, hlen₁, -⟩ := hout.exists_eq
  obtain ⟨x₂, mid₂, y₂, rfl, hlen₂, hfree₂⟩ := houtM.exists_eq
  have hwork (i : Nat) : enrichStretch expandCopy i (fun _ => false) (x :: (mid ++ [y])) =
      .ok (vis, false, x₁ :: (mid₁ ++ [y₁])) := by
    rw [enrichStretch_eq, hrun]
    rfl
  have halone := timeEnrich_stretch hx hy hmid hlen₁ (hwork 0)
  refine ⟨visM, x₂, mid₂, y₂, ?_, hlen₂, hfree₂ hmid, ⟨fun hsame => ?_, fun h => ?_⟩,
    fun h vis' out' hwork' => ?_⟩
  · rw [enrichStretch_eq, hrunM]
    rfl
  · by_contra hnot
    obtain ⟨p, hp, hne⟩ := hdist hnot
    obtain ⟨alone, halone', hmap⟩ := hsame
    obtain rfl : x :: (mid₁ ++ [y]) = alone := by simpa [halone] using halone'
    have hdurs : mid₂.map durs = mid₁.map durs := by
      have hmap := congrArg (List.map Prod.fst) hmap
      simpa [Function.comp_def] using hmap
    obtain ⟨k, hk, hklen⟩ := exists_of_mem_enrichLoop hp
    rw [hk, getD_durs_inside (by simpa [hlen₂] using hklen),
      getD_durs_inside (by simpa [hlen₁] using hklen), hdurs] at hne
    exact hne rfl
  · obtain ⟨-, hsame⟩ := hund h
    obtain ⟨rfl, hrest⟩ := List.cons_eq_cons.mp hsame
    obtain ⟨rfl, -⟩ := List.append_inj' hrest rfl
    exact ⟨_, halone, rfl⟩
  · obtain ⟨rfl, -⟩ : vis = vis' ∧ x₁ :: (mid₁ ++ [y₁]) = out' := by simpa [hwork 0] using hwork'
    exact (hund h).1

end Stretch

/-! ## The day -/

/-- The walk at a fixed node. A stretch without free nodes is passed over, which is the same as
working on it. -/
theorem scan_of_isFixed {marks visM : Nat → Bool} {before mid mid' rest : RouteJ}
    {x x' y' node : NodeJ} (hy : node.isFixed) (hlen : mid'.length = mid.length)
    (hwork : enrichStretch expandCopy (before.length + (x :: mid).length) marks
      (x :: (mid ++ [node])) = .ok (visM, false, x' :: (mid' ++ [y']))) :
    scan (fun _ => false) (enrichStretch expandCopy) marks before (x :: mid) (node :: rest) =
      scan (fun _ => false) (enrichStretch expandCopy) visM (before ++ x :: mid') [node] rest := by
  rw [scan, if_neg Bool.false_ne_true, if_pos hy]
  split_ifs with hmore
  · have hcall : enrichStretch expandCopy (before.length + (x :: mid).length) marks
        (x :: mid ++ [node]) = .ok (visM, false, x' :: (mid' ++ [y'])) := hwork
    rw [hcall]
    simp only [bind, Except.bind, splice_eq hlen]
    rfl
  · obtain rfl : mid = [] := by simpa using hmore
    obtain rfl : mid' = [] := by simpa using hlen
    obtain ⟨rfl, -⟩ : marks = visM ∧ [x, node] = [x', y'] := by
      simpa [enrichStretch_nil] using hwork
    rfl

theorem scan_sameAsAlone_iff (marks : Nat → Bool) (before mid : RouteJ) {rest : RouteJ}
    {x : NodeJ} (hx : x.isFixed) (hmid : ∀ n ∈ mid, n.isFixed = false)
    (hcheck : ∀ n ∈ x :: (mid ++ rest), n.checkNodeJ)
    (hs : RouteJ.Scheduled (x :: (mid ++ rest))) :
    ∃ tail, scan (fun _ => false) (enrichStretch expandCopy) marks before (x :: mid) rest =
        .ok (true, before ++ x :: tail) ∧
      (List.Forall₂ SameAsAlone (RouteJ.stretchesFrom (x :: mid) rest)
      (RouteJ.stretches (x :: tail)) ↔
        Independent marks (RouteJ.stretchesFrom (x :: mid) rest)) := by
  induction rest generalizing marks before mid x with
  | nil =>
    have hnone : RouteJ.stretches (x :: mid) = [] := by
      simpa [RouteJ.stretchesFrom] using RouteJ.stretches_cons_append hmid x []
    refine ⟨mid, rfl, ?_⟩
    rw [hnone]
    exact ⟨fun _ => trivial, fun _ => .nil⟩
  | cons node rest ih =>
    by_cases hy : node.isFixed
    · obtain ⟨hseg, hcheck', hs₂⟩ := RouteJ.expanded_stretch hx hy hcheck hs
      obtain ⟨visM, x', mid', y', hwork, hlen, hmid', hsame, hmarks⟩ :=
        enrichStretch_sameAsAlone_iff hx hy hmid hseg (before.length + (x :: mid).length) marks
      obtain ⟨vis, out, hfresh, -⟩ := enrichStretch_spec hseg 0 (fun _ => false)
      obtain ⟨tail, hscan, hrest⟩ := ih visM (before ++ x :: mid') [] hy (by simp) hcheck' hs₂
      refine ⟨mid' ++ node :: tail, ?_, ?_⟩
      · rw [scan_of_isFixed hy hlen hwork, hscan]
        simp
      · rw [RouteJ.stretchesFrom_cons_of_isFixed hy,
          RouteJ.stretches_cons_append_cons hmid' hy, List.forall₂_cons]
        constructor
        · rintro ⟨hhead, htail⟩
          refine ⟨hsame.mp hhead, fun vis₀ out₀ hfresh₀ => ?_⟩
          rw [← hmarks (hsame.mp hhead) vis₀ out₀ hfresh₀]
          exact hrest.mp htail
        · rintro ⟨hund, hind⟩
          refine ⟨hsame.mpr hund, hrest.mpr ?_⟩
          rw [hmarks hund vis out hfresh]
          exact hind vis out hfresh
    · obtain ⟨tail, hscan, hrest⟩ := ih marks before (mid ++ [node]) hx
        (List.forall_mem_append.mpr ⟨hmid, by simpa using hy⟩) (by simpa using hcheck)
        (by simpa using hs)
      refine ⟨tail, ?_, ?_⟩
      · rw [scan, if_neg Bool.false_ne_true, if_neg hy]
        exact hscan
      · rw [RouteJ.stretchesFrom_cons_of_not_isFixed hy]
        exact hrest

/-- The marks that `TimeEnrich` keeps from one stretch to the next make no difference exactly when
none of them is at the position of a stay that would be made longer. -/
theorem timeEnrich_alone_iff {r : RouteJ} (hr : RouteJ.Begun r) :
    ∃ r', timeEnrich r = .ok (true, r') ∧
      (List.Forall₂ SameAsAlone r.stretches r'.stretches ↔
        Independent (fun _ => false) r.stretches) := by
  cases r with
  | nil => exact ⟨[], rfl, fun _ => trivial, fun _ => .nil⟩
  | cons first rest =>
    have hx : first.isFixed := hr.first first (by simp)
    obtain ⟨tail, hscan, hiff⟩ := scan_sameAsAlone_iff (fun _ => false) [] [] hx (by simp) hr.check
      hr.scheduled
    refine ⟨first :: tail, ?_, hiff⟩
    rw [timeEnrich, timeEnrichWith, scan, if_neg Bool.false_ne_true, if_pos hx, if_neg (by simp)]
    exact hscan

theorem timeEnrich_alone_iff_earlyMuseum :
    ∃ r', timeEnrich earlyMuseum = .ok (true, r') ∧
      (List.Forall₂ SameAsAlone (RouteJ.stretches earlyMuseum) (RouteJ.stretches r') ↔
        Independent (fun _ => false) (RouteJ.stretches earlyMuseum)) :=
  timeEnrich_alone_iff (begun_of_dayPathExpand dayPathExpand_museumDay)

/-- A chapel whose visit takes an hour in any case, and a museum at the same place in the next
stretch. -/
def chapelDay : RouteJ :=
  [{ id := some "hotel", toNext := some [("chapel", 1800)]
     fixed := some ⟨some [(0, 28800)], some 0⟩ },
   { id := some "chapel", toNext := some [("station", 1800)]
     free := some ⟨some [(28800, 64800)], some ⟨3600, 3600, 3600⟩⟩ },
   { id := some "station", toNext := some [("museum", 1800)]
     fixed := some ⟨some [(39600, 43200)], some 0⟩ },
   { id := some "museum", toNext := some [("inn", 1800)]
     free := some ⟨some [(28800, 64800)], some ⟨3600, 5400, 7200⟩⟩ },
   { id := some "inn", toNext := some []
     fixed := some ⟨some [(72000, 86400)], some 0⟩ }]

/-- The second stretch of `chapelDay`, expanded. -/
def afterStation : RouteJ :=
  [{ id := some "station", toNext := some [("museum", 1800)]
     fixed := some ⟨some [(39600, 43200)], some 0⟩, time := (39600, 43200) },
   { id := some "museum", toNext := some [("inn", 1800)]
     free := some ⟨some [(28800, 64800)], some ⟨3600, 5400, 7200⟩⟩, time := (45000, 48600) },
   { id := some "inn", toNext := some []
     fixed := some ⟨some [(72000, 86400)], some 0⟩, time := (72000, 86400) }]

def chapelPlan : RouteJ :=
  [{ id := some "hotel", toNext := some [("chapel", 1800)]
     fixed := some ⟨some [(0, 28800)], some 0⟩, time := (0, 28800) },
   { id := some "chapel", toNext := some [("station", 1800)]
     free := some ⟨some [(28800, 64800)], some ⟨3600, 3600, 3600⟩⟩, time := (30600, 34200) }] ++
  afterStation

theorem dayPathExpand_chapelDay : (create chapelDay).dayPathExpand =
    .ok (true, { create chapelDay with outRouteJ := chapelPlan }) := by
  decide +kernel

/-- The museum could be visited for an hour and a half, but its place is marked by the chapel. -/
theorem not_timeEnrich_alone :
    ¬ ∀ (r : RouteJ) (g' : PathGenerator), (create r).dayPathExpand = .ok (true, g') →
      ∀ r', timeEnrich g'.outRouteJ = .ok (true, r') →
        List.Forall₂ SameAsAlone (RouteJ.stretches g'.outRouteJ) (RouteJ.stretches r') := by
  intro h
  have hday : timeEnrich chapelPlan = .ok (true, chapelPlan) := by decide +kernel
  have hstretches : RouteJ.stretches chapelPlan = [chapelPlan.take 3, afterStation] := by
    decide +kernel
  have hsame := h chapelDay _ dayPathExpand_chapelDay chapelPlan hday
  simp only [hstretches, List.forall₂_cons, List.forall₂_nil_right_iff] at hsame
  obtain ⟨-, ⟨alone, halone, hmap⟩, -⟩ := hsame
  have hlonger : (timeEnrich afterStation).map (fun p => p.2.map durs) ≠
      .ok (afterStation.map durs) := by decide +kernel
  have hdurs : afterStation.map durs = alone.map durs := by
    have hmap := congrArg (List.map Prod.fst) hmap
    simpa [Function.comp_def] using hmap
  rw [halone, hdurs] at hlonger
  exact hlonger rfl

end PathGenerator

end PPView
