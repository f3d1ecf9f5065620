import PPView.PathGenerator.SelectOpenClose

/-!
# Enriching the stays

`TimeEnrich` lengthens the stays of the free nodes of a stretch step by step towards the
recommended duration and keeps a step when the re-expanded stretch shows no more errors.
-/

namespace PPView

open NodeJ

namespace PathGenerator

section Loops

variable (expand : RouteJ → Res RouteJ)

def errorCount (r : RouteJ) : Nat :=
  (r.map fun nodeJ => (List.finRange 7).countP fun j => nodeJ.error j = 1).sum

def enrichSteps : Nat := 10

/-- The body of the inner loop: step `u` at node `j`. `vis` marks the nodes whose stay is final;
it is indexed by the position in the stretch and shared by all stretches. -/
def enrichNode (u : Nat) (state : (Nat → Bool) × RouteJ) (j : Nat) :
    Res ((Nat → Bool) × RouteJ) :=
  let (vis, tempRouteJ) := state
  let curNode := tempRouteJ.getD j default
  if curNode.isFree && !vis j then
    let time := curNode.durs
    if time.min = time.rcmd ∧ time.rcmd = time.max then
      pure (Function.update vis j true, tempRouteJ)
    else
      let oriTime := time.min
      -- the step is a multiple of a quarter of an hour
      let stepTime := ((time.rcmd - time.min).tdiv (1 + enrichSteps - u)).tdiv 900 * 900
      if stepTime = 0 then pure (vis, tempRouteJ)
      else do
        let resultRouteJ ← expand
          (tempRouteJ.modify j (·.setDurs (oriTime + stepTime) time.rcmd time.max))
        if errorCount resultRouteJ > errorCount tempRouteJ then
          pure (Function.update vis j true, tempRouteJ)
        else pure (vis, resultRouteJ)
  else pure (vis, tempRouteJ)

/-- The work of `TimeEnrich` on one stretch. -/
def enrichStretch (_ : Nat) (vis : Nat → Bool) (tempRouteJ : RouteJ) :
    Res ((Nat → Bool) × Bool × RouteJ) := do
  let (vis, tempRouteJ) ← (List.range' 1 enrichSteps).foldlM
    (fun state u => (List.range' 1 (tempRouteJ.length - 2)).foldlM (enrichNode expand u) state)
    (vis, tempRouteJ)
  pure (vis, false, tempRouteJ)

def timeEnrichWith (r : RouteJ) : Res (Bool × RouteJ) :=
  scan (fun _ => false) (enrichStretch expand) (fun _ => false) [] [] r

end Loops

def timeEnrich (r : RouteJ) : Res (Bool × RouteJ) := timeEnrichWith expandCopy r

/-! ## Every step is a rescheduling of the stretch -/

theorem skeleton_setDurs {n : NodeJ} {min rcmd max : Int} (h : (n.free.bind Free.durs).isSome) :
    (n.setDurs min rcmd max).skeleton = n.skeleton := by
  unfold setDurs
  split_ifs
  · obtain ⟨d, hd⟩ := Option.isSome_iff_exists.mp h
    obtain ⟨fr, hfr, hdurs⟩ := Option.bind_eq_some_iff.mp hd
    simp [skeleton, hfr, hdurs]
  · rfl

theorem durs_isSome {n : NodeJ} (h : n.checkNodeJ) (hf : n.isFree) :
    (n.free.bind Free.durs).isSome := by
  have hxor := checkNodeJ_xor h
  obtain ⟨fr, hfr⟩ := Option.isSome_iff_exists.mp hf
  unfold checkNodeJ at h
  split_ifs at h <;> simp_all

section Rules

variable {Q : NodeJ → Prop} {expand : RouteJ → Res RouteJ} {r r' : RouteJ}

/-- A longer stay is no change of the cores. -/
theorem map_core_setDurs {temp : RouteJ} (htemp : RouteJ.Valid temp) {j : Nat}
    (hfree : (temp.getD j default).isFree) (min rcmd max : Int) :
    (temp.modify j (·.setDurs min rcmd max)).map core = temp.map core := by
  refine map_core_modify fun n hn => ?_
  have hget : temp.getD j default = n := by simp [List.getD_eq_getElem?_getD, hn]
  have hcheck : n.checkNodeJ := htemp.checkNodeJ (List.mem_of_getElem? hn)
  rw [hget] at hfree
  have hx : n.isFixed = false := by
    have := checkNodeJ_xor hcheck
    simpa [hfree] using this.symm
  exact core_eq_of_skeleton (skeleton_setDurs (durs_isSome hcheck hfree)) hx

theorem enrichNode_refit (hexp : Reschedules Q expand) {u j : Nat} {seg : RouteJ}
    {s s' : (Nat → Bool) × RouteJ} (hseg : RouteJ.Valid seg) (hs : Refit Q seg s.2)
    (h : enrichNode expand u s j = .ok s') : Refit Q seg s'.2 := by
  obtain ⟨vis, temp⟩ := s
  simp only [enrichNode] at h
  split at h
  · rename_i hfree
    rw [Bool.and_eq_true] at hfree
    split at h
    · obtain rfl : _ = s' := by simpa [pure, Except.pure] using h
      exact hs
    · split at h
      · obtain rfl : _ = s' := by simpa [pure, Except.pure] using h
        exact hs
      · obtain ⟨result, hresult, h⟩ := bind_ok.mp h
        have hfit : Refit Q seg result :=
          hexp.refit_trial hseg hs (map_core_setDurs (hs.valid hseg) hfree.1 _ _ _) hresult
        split at h
        · obtain rfl : _ = s' := by simpa [pure, Except.pure] using h
          exact hs
        · obtain rfl : _ = s' := by simpa [pure, Except.pure] using h
          exact hfit
  · obtain rfl : _ = s' := by simpa [pure, Except.pure] using h
    exact hs

theorem enrichStretch_refit (hexp : Reschedules Q expand) {i : Nat} {vis vis' : Nat → Bool}
    {seg seg' : RouteJ} {b : Bool} (hseg : RouteJ.Valid seg) (hs : RouteJ.Scheduled seg)
    (hQ : ∀ n ∈ seg, Q n) (h : enrichStretch expand i vis seg = .ok (vis', b, seg')) :
    Refit Q seg seg' := by
  obtain ⟨⟨vis'', temp⟩, hfold, h⟩ := bind_ok.mp h
  obtain ⟨-, -, rfl⟩ : vis'' = vis' ∧ false = b ∧ temp = seg' := by
    simpa [pure, Except.pure] using h
  refine foldlM_keeps (P := fun s => Refit Q seg s.2) (fun s u s' hs hfold => ?_)
    (Refit.refl hs hQ) hfold
  exact foldlM_keeps (fun s j s' hs h => enrichNode_refit hexp hseg hs h) hs hfold

/-- `TimeEnrich` reschedules a scheduled day. -/
theorem timeEnrich_refit (hexp : Reschedules Q expand) {b : Bool} (hr : RouteJ.Valid r)
    (hs : RouteJ.Scheduled r) (hQ : ∀ n ∈ r, Q n)
    (h : timeEnrichWith expand r = .ok (b, r')) : Refit Q r r' :=
  scan_spec (fun _ _ _ _ _ _ hseg hs hQ h => enrichStretch_refit hexp hseg hs hQ h) hr hs hQ h

end Rules

end PathGenerator

end PPView
