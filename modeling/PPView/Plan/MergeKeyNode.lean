import PPView.Library.StableSort
import PPView.Plan.KeyNode

/-!
# Merging key nodes

The list version of `KeyNodeBuilder::MergeKeyNode`: the nodes of each city are sorted, and a pass
from left to right moves the end of one window and the beginning of the next apart where the
traffic between them does not fit. Positions of the iterator are a list of nodes already passed,
nearest first, and the rest.
-/

namespace PPView

/-! ## The source -/

def keynodeCmp (a b : KeyNode) : Bool :=
  if a.type = .arrive then true
  else if b.type = .arrive then false
  else if a.type = .depart then false
  else if b.type = .depart then true
  else if a.closeTime ≠ b.closeTime then a.closeTime < b.closeTime
  else a.openTime < b.openTime

/-- The loop that sorts the nodes between two segment nodes; `pending` are those since the
last one, in reverse. -/
def sortStretches (pending : List KeyNode) : List KeyNode → List KeyNode
  | [] => stableSort keynodeCmp pending.reverse
  | k :: ks =>
    if k.isSegment then stableSort keynodeCmp pending.reverse ++ k :: sortStretches [] ks
    else sortStretches (k :: pending) ks

namespace KeyNode

/-- How far the window can shrink. `m_KeyNodeFixRatio` is three quarters; the conversion to
`int` cuts off towards zero. -/
def timeLeft (k : KeyNode) : Int :=
  match k.adjustable with
  | .min => k.window - k.durS.min
  | .fix => (4 * k.window - 3 * k.durS.rcmd).tdiv 4
  | _ => 0

/-- The version of `MergeKeyNode` for two nodes, of which one is deleted; the one that is kept. -/
def mergeInto (curNode nextNode : KeyNode) (keepCur : Bool) : KeyNode :=
  let saveNode := if keepCur then curNode else nextNode
  if curNode.place.ID ≠ nextNode.place.ID then saveNode
  else
    let saveNode :=
      if keepCur then
        (curNode.setClose (max curNode.closeTime nextNode.closeTime)).setTrafDate nextNode.trafDate
      else nextNode.setOpen curNode.openTime
    saveNode.setDur {
      min := curNode.durS.min + nextNode.durS.min
      zip := curNode.durS.zip + nextNode.durS.zip
      rcmd := curNode.durS.rcmd + nextNode.durS.rcmd
      extend := curNode.durS.extend + nextNode.durS.extend
      max := curNode.durS.max + nextNode.durS.max }

/-- The adjustment of two nodes whose windows overlap by `timeCover`. -/
def moveApart (timeCover : Int) (cur next : KeyNode) : KeyNode × KeyNode :=
  let curTimeLeft := cur.timeLeft
  if curTimeLeft > 0 then
    if curTimeLeft - timeCover > 0 then
      (cur.setClose (cur.closeTime - timeCover), next.setOpen next.openTime)
    else
      (cur.setClose (cur.closeTime - curTimeLeft),
        next.setOpen (next.openTime + (timeCover - curTimeLeft)))
  else (cur, next.setOpen (next.openTime + timeCover))

end KeyNode

namespace BasePlan

variable (plan : BasePlan)

/-- The traffic time that is assumed between two key nodes. -/
def keyTraffic (cur next : KeyNode) : Int :=
  (plan.traffic cur.place.ID next.place.ID cur.trafDate).getD plan.ATRTimeCost

/-- The loop over neighbours, with the count of conflicts that could not be solved. An integer
exceeds `ERR_THRES` when it is positive. -/
def mergeLoop (passed : List KeyNode) (keyNodeError : Nat) : List KeyNode → Res (Nat × List KeyNode)
  | [] => .error .arrayBound
  | [cur] => pure (keyNodeError, passed.reverse ++ [cur])
  | cur :: next :: rest =>
    let timeCover := cur.closeTime + plan.keyTraffic cur next - next.openTime
    if timeCover ≤ 0 then mergeLoop (cur :: passed) keyNodeError (next :: rest)
    else if cur.timeLeft + next.timeLeft - timeCover > 0 then
      let (cur, next) := cur.moveApart timeCover next
      mergeLoop (cur :: passed) keyNodeError (next :: rest)
    else if cur.deletable then
      let next := cur.mergeInto next false
      match passed with
      -- `--it` leaves the vector at its beginning
      | [] => .error .arrayBound
      | [prev] => mergeLoop [prev] keyNodeError (next :: rest)
      | prev :: prev' :: passed => mergeLoop (prev' :: passed) keyNodeError (prev :: next :: rest)
    else if next.deletable then mergeLoop passed keyNodeError (cur.mergeInto next true :: rest)
    else mergeLoop (cur :: passed) (keyNodeError + 1) (next :: rest)
termination_by ks => passed.length + 2 * ks.length

/-- The result of `MergeKeyNode` and the plan it leaves. -/
def mergeKeyNode : Res (Nat × BasePlan) :=
  if plan.keyNode.length < 2 then pure (1, plan)
  else do
    let (keyNodeError, keyNode) ← plan.mergeLoop [] 0 (sortStretches [] plan.keyNode)
    let plan := { plan with keyNode := keyNode }
    if plan.keyNode.length ≤ 0 then pure (1, plan)
    else if keyNodeError > 0 then pure (1, plan)
    else pure (0, plan)

end BasePlan

/-! ## Sorting -/

/-- `ys` is `xs` with the nodes between two segment nodes in order. -/
inductive StretchSorted : List KeyNode → List KeyNode → Prop
  | last {xs ys} (hseg : ∀ k ∈ xs, k.isSegment = false) (hperm : ys.Perm xs)
      (hsorted : ys.Pairwise (InOrder keynodeCmp)) : StretchSorted xs ys
  | cons {xs ys k rest rest'} (hseg : ∀ k ∈ xs, k.isSegment = false) (hperm : ys.Perm xs)
      (hsorted : ys.Pairwise (InOrder keynodeCmp)) (hk : k.isSegment)
      (hrest : StretchSorted rest rest') : StretchSorted (xs ++ k :: rest) (ys ++ k :: rest')

theorem StretchSorted.mem_iff {xs ys : List KeyNode} (h : StretchSorted xs ys) (k : KeyNode) :
    k ∈ ys ↔ k ∈ xs := by
  induction h with
  | last _ hperm _ => exact hperm.mem_iff
  | cons _ hperm _ _ _ ih => simp [hperm.mem_iff, ih]

theorem keynodeCmp_inOrder_trans (a b c : KeyNode) (hab : InOrder keynodeCmp a b)
    (hbc : InOrder keynodeCmp b c) : InOrder keynodeCmp a c := by
  unfold InOrder keynodeCmp at *
  grind

theorem keynodeCmp_inOrder_total {a b : KeyNode} (h : ¬ (a.isArrive ∧ b.isArrive)) :
    InOrder keynodeCmp a b ∨ InOrder keynodeCmp b a := by
  simp only [KeyNode.isArrive, beq_iff_eq] at h
  unfold InOrder keynodeCmp
  grind

theorem stableSort_keynodeCmp {xs : List KeyNode} (h : xs.countP KeyNode.isArrive ≤ 1) :
    (stableSort keynodeCmp xs).Pairwise (InOrder keynodeCmp) := by
  apply stableSort_pairwise keynodeCmp_inOrder_trans
  induction xs with
  | nil => exact .nil
  | cons x xs ih =>
    rw [List.countP_cons] at h
    refine List.pairwise_cons.mpr ⟨fun y hy => keynodeCmp_inOrder_total ?_, ih (by omega)⟩
    rintro ⟨hx, hy'⟩
    have : 0 < xs.countP KeyNode.isArrive := List.countP_pos_iff.mpr ⟨y, hy, hy'⟩
    simp only [hx, if_true] at h
    omega

/-- Every stretch between two segment nodes has at most one arrival. -/
def OneArrival (ks : List KeyNode) : Prop :=
  ∀ stretch ∈ ks.splitOnP KeyNode.isSegment, stretch.countP KeyNode.isArrive ≤ 1

theorem sortStretches_spec {pending ks : List KeyNode}
    (hpending : ∀ k ∈ pending, k.isSegment = false) (h : OneArrival (pending.reverse ++ ks)) :
    StretchSorted (pending.reverse ++ ks) (sortStretches pending ks) := by
  induction ks generalizing pending with
  | nil =>
    rw [List.append_nil] at h ⊢
    have hseg : ∀ k ∈ pending.reverse, k.isSegment = false := by simpa using hpending
    refine .last hseg (stableSort_perm _ _) (stableSort_keynodeCmp (h _ ?_))
    rw [List.splitOnP_eq_singleton hseg]
    exact List.mem_singleton_self _
  | cons k ks ih =>
    rw [sortStretches]
    split_ifs with hk
    · have hsplit : (pending.reverse ++ k :: ks).splitOnP KeyNode.isSegment =
          pending.reverse :: ks.splitOnP KeyNode.isSegment :=
        List.splitOnP_append_cons_of_forall_mem (by simpa using hpending) k hk ks
      rw [OneArrival, hsplit] at h
      obtain ⟨hfirst, hrest⟩ := List.forall_mem_cons.mp h
      exact .cons (by simpa using hpending) (stableSort_perm _ _) (stableSort_keynodeCmp hfirst) hk
        (@ih [] (by simp) hrest)
    · have heq : pending.reverse ++ k :: ks = (k :: pending).reverse ++ ks := by simp
      rw [heq] at h ⊢
      refine ih ?_ h
      simpa using ⟨by simpa using hk, hpending⟩

/-! ## Moving neighbours apart -/

namespace KeyNode

/-- `b` is `a` with a window cut off at its ends. As far as `P` goes, a window that had room for
the least stay still has it. -/
structure Trims (P : KeyNode → Prop) (a b : KeyNode) : Prop where
  frame : b = { a with
    openTime := b.openTime, closeTime := b.closeTime, latestArv := b.latestArv }
  openTime_le : a.openTime ≤ b.openTime
  closeTime_le : b.closeTime ≤ a.closeTime
  min_le : P a → a.durS.min ≤ a.window → b.durS.min ≤ b.window

variable {P : KeyNode → Prop} {a b c : KeyNode}

theorem Trims.refl (P : KeyNode → Prop) (a : KeyNode) : Trims P a a :=
  ⟨rfl, le_rfl, le_rfl, fun _ h => h⟩

theorem Trims.adjustable (h : Trims P a b) : b.adjustable = a.adjustable :=
  (congrArg KeyNode.adjustable h.frame :)

theorem Trims.deletable (h : Trims P a b) : b.deletable = a.deletable :=
  (congrArg KeyNode.deletable h.frame :)

theorem Trims.place (h : Trims P a b) : b.place = a.place := (congrArg KeyNode.place h.frame :)

theorem Trims.trafDate (h : Trims P a b) : b.trafDate = a.trafDate :=
  (congrArg KeyNode.trafDate h.frame :)

/-- All nodes but those that may be squeezed to a part of the recommended stay. -/
def NotFix (k : KeyNode) : Prop := k.adjustable ≠ .fix

theorem Trims.trans (hab : Trims NotFix a b) (hbc : Trims NotFix b c) : Trims NotFix a c := by
  refine ⟨?_, hab.openTime_le.trans hbc.openTime_le, hbc.closeTime_le.trans hab.closeTime_le,
    fun hP h => hbc.min_le ?_ (hab.min_le hP h)⟩
  · calc
      c = { b with openTime := c.openTime, closeTime := c.closeTime, latestArv := c.latestArv } :=
        hbc.frame
      _ = _ := by rw [hab.frame]
  · rw [NotFix, hab.adjustable]
    exact hP

/-- Cutting off less than `timeLeft` leaves room for the least stay. -/
theorem trims_setClose {cut : Int} (h0 : 0 < cut) (hcut : cut ≤ a.timeLeft) :
    Trims NotFix a (a.setClose (a.closeTime - cut)) := by
  refine ⟨rfl, le_rfl, ?_, fun hfix _ => ?_⟩
  · simp only [setClose]
    omega
  · rw [NotFix] at hfix
    simp only [timeLeft, window] at hcut
    simp only [setClose, window]
    cases hadj : a.adjustable <;> simp_all <;> omega

theorem trims_setOpen {cut : Int} (h0 : 0 ≤ cut) (hcut : 0 < cut → cut ≤ a.timeLeft) :
    Trims NotFix a (a.setOpen (a.openTime + cut)) := by
  refine ⟨rfl, ?_, le_rfl, fun hfix hmin => ?_⟩
  · simp only [setOpen]
    omega
  · rw [NotFix] at hfix
    simp only [timeLeft, window] at hcut hmin
    simp only [setOpen, window]
    rcases h0.eq_or_lt with rfl | h0
    · omega
    · have := hcut h0
      cases hadj : a.adjustable <;> simp_all <;> omega

/-- The first node keeps its beginning, so that the pair before it stays apart. -/
theorem moveApart_spec {timeCover : Int} {cur next : KeyNode} (h0 : 0 < timeCover)
    (h : cur.timeLeft + next.timeLeft - timeCover > 0) :
    Trims NotFix cur (cur.moveApart timeCover next).1 ∧
      Trims NotFix next (cur.moveApart timeCover next).2 ∧
      (cur.moveApart timeCover next).1.openTime = cur.openTime ∧
      (cur.moveApart timeCover next).2.openTime - (cur.moveApart timeCover next).1.closeTime =
        next.openTime - cur.closeTime + timeCover := by
  simp only [moveApart]
  split_ifs with hleft hcover
  · refine ⟨trims_setClose h0 (by omega), ?_, rfl, ?_⟩
    · have : Trims NotFix next (next.setOpen (next.openTime + 0)) :=
        trims_setOpen le_rfl (by omega)
      rwa [Int.add_zero] at this
    · simp only [setOpen, setClose]
      omega
  · refine ⟨trims_setClose hleft le_rfl, trims_setOpen (by omega) (by omega), rfl, ?_⟩
    simp only [setOpen, setClose]
    omega
  · refine ⟨.refl _ cur, trims_setOpen h0.le (by omega), rfl, ?_⟩
    simp only [setOpen]
    omega

end KeyNode

/-! ## The whole merge -/

namespace BasePlan

open KeyNode

variable {plan : BasePlan}

/-- There is time for the traffic between two neighbours. -/
def Fits (plan : BasePlan) (a b : KeyNode) : Prop :=
  a.closeTime + plan.keyTraffic a b ≤ b.openTime

theorem keyTraffic_congr {P : KeyNode → Prop} {a a' b b' : KeyNode} (ha : Trims P a a')
    (hb : Trims P b b') : plan.keyTraffic a' b' = plan.keyTraffic a b := by
  rw [keyTraffic, ha.place, ha.trafDate, hb.place, keyTraffic]

/-- Conflicts are only counted up. -/
theorem mergeLoop_spec {passed : List KeyNode} {keyNodeError : Nat} {cur : KeyNode}
    {ks out : List KeyNode} {e : Nat} (hdel : ∀ k ∈ cur :: ks, k.deletable = false)
    (h : plan.mergeLoop passed keyNodeError (cur :: ks) = .ok (e, out)) :
    keyNodeError ≤ e ∧ (e = 0 → ∃ cur' tail, out = passed.reverse ++ cur' :: tail ∧
      cur'.openTime = cur.openTime ∧ List.Forall₂ (Trims NotFix) (cur :: ks) (cur' :: tail) ∧
      (cur' :: tail).IsChain plan.Fits) := by
  induction ks generalizing passed keyNodeError cur with
  | nil =>
    rw [mergeLoop] at h
    obtain ⟨rfl, rfl⟩ : keyNodeError = e ∧ passed.reverse ++ [cur] = out := by
      simpa [pure, Except.pure] using h
    exact ⟨le_rfl, fun _ => ⟨cur, [], rfl, rfl, .cons (.refl _ cur) .nil, by simp⟩⟩
  | cons next rest ih =>
    obtain ⟨hcur, hnext, hrest⟩ : cur.deletable = false ∧ next.deletable = false ∧
        ∀ k ∈ rest, k.deletable = false := by simpa using hdel
    rw [mergeLoop] at h
    -- what the rest of the pass gives once the pair is settled as `cur'` and `next'`
    have hstep {cur' next' : KeyNode} {passed' : List KeyNode} (hp : passed' = cur' :: passed)
        (hc : Trims NotFix cur cur') (hn : Trims NotFix next next')
        (hopen : cur'.openTime = cur.openTime) (hfit : plan.Fits cur' next')
        (h : plan.mergeLoop passed' keyNodeError (next' :: rest) = .ok (e, out)) :
        keyNodeError ≤ e ∧ (e = 0 → ∃ cur' tail, out = passed.reverse ++ cur' :: tail ∧
          cur'.openTime = cur.openTime ∧
          List.Forall₂ (Trims NotFix) (cur :: next :: rest) (cur' :: tail) ∧
          (cur' :: tail).IsChain plan.Fits) := by
      have hdel' : ∀ k ∈ next' :: rest, k.deletable = false :=
        List.forall_mem_cons.mpr ⟨hn.deletable.trans hnext, hrest⟩
      obtain ⟨hle, hspec⟩ := ih hdel' h
      refine ⟨hle, fun he => ?_⟩
      obtain ⟨n, tail, rfl, hopen', htrims, hchain⟩ := hspec he
      obtain ⟨hnext', htail⟩ := List.forall₂_cons.mp htrims
      have hfit' : plan.Fits cur' n := by
        rw [Fits, keyTraffic_congr (.refl _ cur') hnext', hopen']
        exact hfit
      exact ⟨cur', n :: tail, by simp [hp], hopen, .cons hc (.cons (hn.trans hnext') htail),
        List.isChain_cons_cons.mpr ⟨hfit', hchain⟩⟩
    split_ifs at h with hcover hleft hdelcur hdelnext
    · exact hstep rfl (.refl _ cur) (.refl _ next) rfl (by unfold Fits; omega) h
    · obtain ⟨hc, hn, hopen, hgap⟩ := moveApart_spec (by omega) hleft
      refine hstep rfl hc hn hopen ?_ h
      rw [Fits, keyTraffic_congr hc hn]
      omega
    · exact absurd hdelcur (by simp [hcur])
    · exact absurd hdelnext (by simp [hnext])
    · obtain ⟨hle, -⟩ := ih (List.forall_mem_cons.mpr ⟨hnext, hrest⟩) h
      exact ⟨by omega, fun he => by omega⟩

/-- The outcome of a merge without conflicts: the nodes in order within each stretch, with windows
that only shrink and leave room for the traffic between neighbours. -/
def MergedWith (P : KeyNode → Prop) (plan plan' : BasePlan) : Prop :=
  ∃ sorted, StretchSorted plan.keyNode sorted ∧ List.Forall₂ (Trims P) sorted plan'.keyNode ∧
    plan'.keyNode.IsChain plan.Fits

theorem mergeKeyNode_spec {plan' : BasePlan} (hdel : ∀ k ∈ plan.keyNode, k.deletable = false)
    (harrive : OneArrival plan.keyNode) (h : plan.mergeKeyNode = .ok (0, plan')) :
    MergedWith NotFix plan plan' := by
  have hsorted : StretchSorted plan.keyNode (sortStretches [] plan.keyNode) :=
    @sortStretches_spec [] plan.keyNode (by simp) harrive
  unfold mergeKeyNode at h
  split_ifs at h with hlen
  · simp [pure, Except.pure] at h
  obtain ⟨⟨e, out⟩, hloop, h⟩ := bind_ok.mp h
  obtain ⟨he, rfl⟩ : e = 0 ∧ { plan with keyNode := out } = plan' := by
    simp only at h
    split_ifs at h with hnil herr <;> simp [pure, Except.pure] at h
    exact ⟨by omega, h⟩
  cases hks : sortStretches [] plan.keyNode with
  | nil => simp [hks, mergeLoop] at hloop
  | cons cur ks =>
    rw [hks] at hloop hsorted
    have hdel' : ∀ k ∈ cur :: ks, k.deletable = false := fun k hk =>
      hdel k ((hsorted.mem_iff k).mp hk)
    obtain ⟨cur', tail, rfl, -, htrims, hchain⟩ := (mergeLoop_spec hdel' hloop).2 he
    exact ⟨cur :: ks, hsorted, htrims, hchain⟩

/-! ## An arrival and a departure -/

/-- An arrival from 0 to 100 with a stay of at least `min`, and a departure from 90 to 200. -/
def stationPlan (adjustable : Adjust) (min : Int) : BasePlan where
  keyNode := [
    .create (.place "airport") 0 100 "20180101" ⟨min, min, min, min, min⟩ 0 .arrive
      adjustable false,
    .create (.place "station") 90 200 "20180101" ⟨60, 60, 60, 60, 60⟩ 0 .depart
      .min false]
  traffic := fun _ _ _ => some 5

theorem stationPlan_oneArrival (adjustable : Adjust) (min : Int) :
    OneArrival (stationPlan adjustable min).keyNode := by
  simp [OneArrival, stationPlan, create, List.splitOnP_cons_eq_if_modifyHead, isSegment, isArrive]

/-- The windows and least stays after a merge without conflicts. -/
def mergedWindows (plan : BasePlan) : Option (List (Int × Int × Int)) :=
  match plan.mergeKeyNode with
  | .ok (0, plan') => some (plan'.keyNode.map fun k => (k.openTime, k.closeTime, k.durS.min))
  | _ => none

theorem exists_of_mergedWindows {ws : List (Int × Int × Int)} (h : plan.mergedWindows = some ws) :
    ∃ plan', plan.mergeKeyNode = .ok (0, plan') ∧
      plan'.keyNode.map (fun k => (k.openTime, k.closeTime, k.durS.min)) = ws := by
  unfold mergedWindows at h
  split at h
  · exact ⟨_, ‹_›, Option.some.inj h⟩
  · simp at h

theorem mergeKeyNode_spec_stationPlan :
    ∃ plan', (stationPlan .min 60).mergeKeyNode = .ok (0, plan') ∧
      MergedWith NotFix (stationPlan .min 60) plan' := by
  have hwindows : (stationPlan .min 60).mergedWindows = some [(0, 85, 60), (90, 200, 60)] := by
    decide +kernel
  obtain ⟨plan', h, -⟩ := exists_of_mergedWindows hwindows
  exact ⟨plan', h, mergeKeyNode_spec (by decide) (stationPlan_oneArrival .min 60) h⟩

/-- A node that may be squeezed to three quarters of its recommended stay can lose its least
stay. -/
theorem mergeKeyNode_squeezes_fix :
    ¬ ∀ plan plan' : BasePlan, (∀ k ∈ plan.keyNode, k.deletable = false) →
      OneArrival plan.keyNode → plan.mergeKeyNode = .ok (0, plan') →
      MergedWith (fun _ => True) plan plan' := by
  intro h
  have hwindows : (stationPlan .fix 100).mergedWindows = some [(0, 85, 100), (90, 200, 60)] := by
    decide +kernel
  obtain ⟨plan', hmerge, hmap⟩ := exists_of_mergedWindows hwindows
  obtain ⟨sorted, hsorted, htrims, -⟩ :=
    h (stationPlan .fix 100) plan' (by decide) (stationPlan_oneArrival .fix 100) hmerge
  obtain ⟨airport, rest, heq⟩ : ∃ k ks, plan'.keyNode = k :: ks :=
    List.exists_cons_of_ne_nil (by rintro hnil; simp [hnil] at hmap)
  rw [heq] at htrims hmap
  obtain ⟨hwindow, -⟩ := List.cons_eq_cons.mp hmap
  obtain ⟨hopen, hclose, hmin⟩ : airport.openTime = 0 ∧ airport.closeTime = 85 ∧
      airport.durS.min = 100 := by simpa using hwindow
  obtain ⟨k, ks, htrim, -, rfl⟩ := List.forall₂_cons_right_iff.mp htrims
  have hdurS : airport.durS = k.durS := (congrArg KeyNode.durS htrim.frame :)
  have hk : k ∈ (stationPlan .fix 100).keyNode := (hsorted.mem_iff k).mp (by simp)
  have hroom : k.durS.min ≤ k.window := by
    have hall : ∀ k ∈ (stationPlan .fix 100).keyNode, k.durS.min ≤ k.window := by decide
    exact hall k hk
  have := htrim.min_le trivial hroom
  rw [window] at this
  omega

end BasePlan

end PPView
