import PPView.PathGenerator.OpenOverflow
import PPView.PathGenerator.RangeIdx
import PPView.PathGenerator.StretchMarks

/-!
# Indices that are counted

`DayPathExpandOpt` sets all indices itself where it can select sessions. Otherwise it goes on with
those of the request, and `countOpenClose` takes them as they come: too large an index reads an
interval that is not there. `dayPathExpandOpt_resetIdx` says that nothing else in the function
depends on an index that selects nothing.
-/

namespace PPView

namespace NodeJ

/-- The interval that `countOpenClose` reads for `n` exists. An absent index reads as 0. -/
def CountInRange (n : NodeJ) : Prop :=
  n.isFree → n.openClose ≠ [] → n.rangeIdx.getD 0 = -1 ∨
    0 ≤ n.rangeIdx.getD 0 ∧ n.rangeIdx.getD 0 < n.openClose.length

/-- Counting sees the same interval once the index is put right. -/
theorem isOpen_getD_resetIdx {n : NodeJ} (hn : n.Single) (hfree : n.isFree) (h : n.CountInRange) :
    n.resetIdx.isOpen (n.resetIdx.rangeIdx.getD 0) = n.isOpen (n.rangeIdx.getD 0) := by
  change n.isOpen (n.resetIdx.rangeIdx.getD 0) = _
  by_cases hne : n.openClose = []
  · simp [isOpen, hne]
  · have hx : n.isFixed = false := by simpa [hfree] using hn.symm
    have hcount := h hfree hne
    congr 1
    unfold resetIdx validIdx
    cases hr : n.rangeIdx with
    | none => rfl
    | some i =>
      simp only [hr, Option.getD_some] at hcount
      simp only [Option.map_some, Option.getD_some, hx, Bool.false_eq_true, if_false]
      split_ifs <;> omega

/-- `n` has an index that selects something, or -1 and is free. -/
def Settled (n : NodeJ) : Prop := ∃ i, n.rangeIdx = some i ∧ n.validIdx i = i

theorem Settled.resetIdx_eq {n : NodeJ} (h : n.Settled) : n.resetIdx = n := by
  obtain ⟨i, hi, hvalid⟩ := h
  have hidx : n.rangeIdx.map n.validIdx = n.rangeIdx := by rw [hi, Option.map_some, hvalid]
  rw [resetIdx, hidx]

theorem Settled.countInRange {n : NodeJ} (hn : n.Single) (h : n.Settled) : n.CountInRange := by
  intro hfree _
  obtain ⟨i, hi, hvalid⟩ := h
  have hx : n.isFixed = false := by simpa [hfree] using hn.symm
  simp only [validIdx, hx, Bool.false_eq_true, if_false] at hvalid
  rw [hi, Option.getD_some]
  split_ifs at hvalid <;> omega

theorem settled_free {n : NodeJ} (hx : n.isFixed = false) : (n.setRangeIdx (-1)).Settled := by
  refine ⟨-1, rfl, ?_⟩
  have hx : (n.setRangeIdx (-1)).isFixed = false := hx
  simp [validIdx, hx]

theorem settled_interval {n : NodeJ} (hx : n.isFixed = false) {z : Nat}
    (hz : z < n.openClose.length) : (n.setRangeIdx z).Settled := by
  refine ⟨z, rfl, ?_⟩
  have hx : (n.setRangeIdx z).isFixed = false := hx
  have hz : z < (n.setRangeIdx z).openClose.length := hz
  simp [validIdx, hx, hz]

theorem settled_session {n : NodeJ} (hx : n.isFixed) {j : Nat} (hj : j < n.times.length) :
    (n.setRangeIdx j).Settled := by
  refine ⟨j, rfl, ?_⟩
  have hx : (n.setRangeIdx j).isFixed := hx
  have hj : j < (n.setRangeIdx j).times.length := hj
  simp [validIdx, hx, hj]

/-- An index that the code sets makes no difference to putting indices right. -/
theorem resetIdx_setRangeIdx {n : NodeJ} {i : Int} (h : (n.setRangeIdx i).Settled) :
    n.resetIdx.setRangeIdx i = (n.setRangeIdx i).resetIdx := by
  rw [h.resetIdx_eq]
  rfl

theorem setDurs_resetIdx (n : NodeJ) (min rcmd max : Int) :
    (n.setDurs min rcmd max).resetIdx = n.resetIdx.setDurs min rcmd max := by
  unfold setDurs
  split_ifs
  · rfl
  · rfl

end NodeJ

open NodeJ

namespace RouteJ

/-- Counting the open nodes of `r` reads no interval that does not exist. -/
def Counted (r : RouteJ) : Prop := ∀ n ∈ r, n.CountInRange

theorem Counted.of_bare {r r' : RouteJ} (h : Counted r)
    (hbare : r'.map bare = (r.take r'.length).map bare) : Counted r' := by
  intro n' hn'
  obtain ⟨n, hn, heq⟩ := List.mem_map.mp (hbare ▸ List.mem_map_of_mem hn')
  have hcount : n.bare.CountInRange := h n (List.mem_of_mem_take hn)
  rw [heq] at hcount
  exact hcount

theorem getD_resetIdx (r : RouteJ) (j : Nat) :
    r.resetIdx.getD j default = (r.getD j default).resetIdx :=
  List.getD_map r default NodeJ.resetIdx

theorem getLastD_resetIdx (r : RouteJ) :
    r.resetIdx.getLastD default = (r.getLastD default).resetIdx := by
  rw [List.getLastD_eq_getLast?, List.getLastD_eq_getLast?, RouteJ.resetIdx, List.getLast?_map]
  cases r.getLast? <;> rfl

theorem modify_resetIdx {r : RouteJ} {j : Nat} {f : NodeJ → NodeJ}
    (h : ∀ n, r[j]? = some n → (f n).resetIdx = f n.resetIdx) :
    RouteJ.resetIdx (r.modify j f) = r.resetIdx.modify j f := by
  apply List.ext_getElem?
  intro k
  rw [RouteJ.resetIdx, RouteJ.resetIdx, List.getElem?_map, List.getElem?_modify,
    List.getElem?_modify, List.getElem?_map]
  by_cases hk : j = k
  · subst hk
    cases hn : r[j]? with
    | none => simp
    | some n => simp [h n hn]
  · cases r[k]? <;> simp [hk]

end RouteJ

namespace PathGenerator

theorem getD_openClose_of_skeleton {r r' : RouteJ}
    (h : r'.map skeleton = r.map skeleton) (j : Nat) :
    (r'.getD j default).openClose = (r.getD j default).openClose := by
  have hget (r : RouteJ) :
      (r.getD j default).openClose = ((r.map skeleton).getD j default).openClose := by
    rw [List.getD_eq_getElem?_getD, List.getD_eq_getElem?_getD, List.getElem?_map]
    cases r[j]? <;> simp
  rw [hget, h, ← hget]

/-! ## The count -/

theorem openBits_resetIdx {r : RouteJ} (hsingle : ∀ n ∈ r, n.Single) (h : r.Counted) (i : Nat) :
    openBits i r.resetIdx = openBits i r := by
  induction r generalizing i with
  | nil => rfl
  | cons n r ih =>
    obtain ⟨hn, hsingle⟩ := List.forall_mem_cons.mp hsingle
    obtain ⟨hcount, h⟩ := List.forall_mem_cons.mp h
    have ih := ih hsingle h
    change openBits i (n.resetIdx :: RouteJ.resetIdx r) = _
    rw [openBits, openBits, resetIdx_isFree]
    cases hfree : n.isFree with
    | true => simp only [if_true, isOpen_getD_resetIdx hn hfree hcount, ih]
    | false => simp only [Bool.false_eq_true, if_false, ih]

theorem pickVariant_resetIdx (vs : List RouteJ) (hsingle : ∀ v ∈ vs, ∀ n ∈ v, n.Single)
    (h : ∀ v ∈ vs, v.Counted) (maxCount : Int) (select : RouteJ) :
    pickVariant maxCount select.resetIdx (vs.map RouteJ.resetIdx) =
      (pickVariant maxCount select vs).map RouteJ.resetIdx := by
  induction vs generalizing maxCount select with
  | nil => rfl
  | cons v vs ih =>
    obtain ⟨hv, hsingle⟩ := List.forall_mem_cons.mp hsingle
    obtain ⟨hcount, h⟩ := List.forall_mem_cons.mp h
    have ih := ih hsingle h
    rw [List.map_cons, pickVariant, pickVariant, countOpenClose, openBits_resetIdx hv hcount,
      countOpenClose]
    cases openBits 0 v with
    | error e => rfl
    | ok bits =>
      simp only [bind, Except.bind]
      split_ifs
      · exact ih _ _
      · exact ih _ _

/-! ## The variants -/

theorem isOverrun_resetIdx (border : Int) (r : RouteJ) :
    isOverrun border r.resetIdx = isOverrun border r := by
  have hany : r.resetIdx.dropLast.any (fun n => n.time.2 > border) =
      r.dropLast.any (fun n => n.time.2 > border) := by
    rw [RouteJ.resetIdx, ← List.map_dropLast, List.any_map]
    rfl
  rw [isOverrun, hany, RouteJ.getLastD_resetIdx, isOverrun]
  rfl

section Trials

variable {late : Nat → Nat → Nat → Nat → Bool} {seg temp : RouteJ}

/-- The trial of the interval `z` at node `j`, with the indices put right. -/
theorem trial_resetIdx {j z : Nat} (hfree : ∀ n, temp[j]? = some n → n.isFixed = false)
    (hz : z < (temp.getD j default).openClose.length) :
    RouteJ.resetIdx (temp.modify j fun nodeJ => nodeJ.setDefaultError.setRangeIdx z) =
      temp.resetIdx.modify j fun nodeJ => nodeJ.setDefaultError.setRangeIdx z := by
  refine RouteJ.modify_resetIdx fun n hn => ?_
  have hget : temp.getD j default = n := by simp [List.getD_eq_getElem?_getD, hn]
  rw [hget] at hz
  have hsettled : (n.setDefaultError.setRangeIdx z).Settled := settled_interval (hfree n hn) hz
  exact (resetIdx_setRangeIdx hsettled).symm

theorem counted_trial {j z : Nat} (hfree : ∀ n, temp[j]? = some n → n.Single ∧ n.isFixed = false)
    (hz : z < (temp.getD j default).openClose.length) (h : temp.Counted) :
    RouteJ.Counted (temp.modify j fun nodeJ => nodeJ.setDefaultError.setRangeIdx z) := by
  intro n' hn'
  obtain ⟨k, hk⟩ := List.mem_iff_getElem?.mp hn'
  rw [List.getElem?_modify] at hk
  obtain ⟨n, hn, rfl⟩ := Option.map_eq_some_iff.mp hk
  split_ifs with hjk
  · subst hjk
    obtain ⟨hsingle, hx⟩ := hfree n hn
    have hget : temp.getD j default = n := by simp [List.getD_eq_getElem?_getD, hn]
    rw [hget] at hz
    have hsettled : (n.setDefaultError.setRangeIdx z).Settled := settled_interval hx hz
    exact hsettled.countInRange hsingle
  · exact h n (List.mem_of_getElem? hn)

theorem tryOpens_resetIdx (hseg : RouteJ.Valid seg) (hfit : Refit (fun _ => True) seg temp)
    {i j k : Nat} {zs : List Nat} (hzs : ∀ z ∈ zs, z < (seg.getD j default).openClose.length)
    {opened : Option RouteJ} {b : Bool}
    (h : tryOpens expandCopy late i j k temp zs = .ok (opened, b)) :
    tryOpens expandCopy late i j k temp.resetIdx zs = .ok (opened.map RouteJ.resetIdx, b) ∧
      (temp.Counted → ∀ v ∈ opened, v.Counted) := by
  induction zs generalizing temp with
  | nil =>
    obtain ⟨rfl, rfl⟩ : none = opened ∧ false = b := by simpa [tryOpens, pure, Except.pure] using h
    exact ⟨rfl, by simp⟩
  | cons z zs ih =>
    obtain ⟨hz, hzs⟩ := List.forall_mem_cons.mp hzs
    have hvalid := hfit.valid hseg
    have hz : z < (temp.getD j default).openClose.length := by
      rwa [getD_openClose_of_skeleton (RouteJ.map_skeleton_of_core hfit.core)]
    have hfree : ∀ n, temp[j]? = some n → n.Single ∧ n.isFixed = false := by
      intro n hn
      refine ⟨hvalid.single (List.mem_of_getElem? hn), ?_⟩
      exact (Refit.refl (Q := fun _ => True) hfit.scheduled fun _ _ => trivial).isFixed_of_openClose
        hvalid hn (List.ne_nil_of_length_pos (Nat.zero_lt_of_lt hz))
    have hborder : initPlayBorders (temp.resetIdx.modify j fun nodeJ =>
          nodeJ.setDefaultError.setRangeIdx z) =
        initPlayBorders (temp.modify j fun nodeJ => nodeJ.setDefaultError.setRangeIdx z) := by
      rw [← trial_resetIdx (fun n hn => (hfree n hn).2) hz, initPlayBorders_resetIdx]
    have hcore : (temp.modify j fun nodeJ => nodeJ.setDefaultError.setRangeIdx z).map core =
        temp.map core :=
      map_core_modify fun n hn => core_eq_of_skeleton rfl (hfree n hn).2
    obtain ⟨temp', htemp', h⟩ := bind_ok.mp h
    have hvalid' : RouteJ.Valid (temp.modify j fun nodeJ => nodeJ.setDefaultError.setRangeIdx z) :=
      hvalid.of_skeleton (RouteJ.map_skeleton_of_core hcore).symm
    have hfit' := reschedules_expandCopy.refit_trial hseg hfit hcore htemp'
    have hreset : expandCopy (temp.resetIdx.modify j fun nodeJ =>
        nodeJ.setDefaultError.setRangeIdx z) = .ok temp'.resetIdx := by
      rw [← trial_resetIdx (fun n hn => (hfree n hn).2) hz]
      exact expandCopy_resetIdx hvalid' htemp'
    have hcounted : temp.Counted → temp'.Counted := fun h =>
      (counted_trial hfree hz h).of_bare (pass_of_expandCopy hvalid' htemp').bare
    have hisOpen : (temp'.resetIdx.getD j default).isOpen z = (temp'.getD j default).isOpen z := by
      rw [RouteJ.getD_resetIdx]
      rfl
    simp only [tryOpens, hreset, hborder, isOverrun_resetIdx, hisOpen, bind, Except.bind]
    split at h
    · obtain ⟨rfl, rfl⟩ : none = opened ∧ false = b := by simpa [pure, Except.pure] using h
      exact ⟨by simp [*, pure, Except.pure], by simp⟩
    · rename_i hover
      obtain ⟨isOpen, hopen, h⟩ := bind_ok.mp h
      simp only [hover, Bool.false_eq_true, if_false, hopen]
      cases isOpen with
      | true =>
        obtain ⟨rfl, rfl⟩ : some temp' = opened ∧ false = b := by
          simpa [pure, Except.pure] using h
        exact ⟨rfl, fun hc v hv => by
          obtain rfl : temp' = v := by simpa using hv
          exact hcounted hc⟩
      | false =>
        cases hlate : late i j k z with
        | true =>
          obtain ⟨rfl, rfl⟩ : none = opened ∧ true = b := by
            simpa [hlate, pure, Except.pure] using h
          exact ⟨rfl, by simp⟩
        | false =>
          obtain ⟨hrun, hall⟩ := ih hfit' hzs (by simpa [hlate] using h)
          exact ⟨hrun, fun hc => hall (hcounted hc)⟩

theorem extendVariants_resetIdx (hseg : RouteJ.Valid seg) {i j k : Nat} {vs vs' : List RouteJ}
    (hvs : ∀ v ∈ vs, Refit (fun _ => True) seg v) {b : Bool}
    (h : extendVariants expandCopy late i j k vs = .ok (vs', b)) :
    extendVariants expandCopy late i j k (vs.map RouteJ.resetIdx) =
        .ok (vs'.map RouteJ.resetIdx, b) ∧
      ((∀ v ∈ vs, v.Counted) → ∀ v ∈ vs', v.Counted) := by
  induction vs generalizing k vs' b with
  | nil =>
    obtain ⟨rfl, rfl⟩ : [] = vs' ∧ false = b := by simpa [extendVariants, pure, Except.pure] using h
    exact ⟨rfl, by simp⟩
  | cons temp more ih =>
    obtain ⟨htemp, hmore⟩ := List.forall_mem_cons.mp hvs
    obtain ⟨opened, timeOut, hopen, hvs'⟩ := extendVariants_cons h
    have hopens : (temp.getD j default).openClose = (seg.getD j default).openClose :=
      getD_openClose_of_skeleton (RouteJ.map_skeleton_of_core htemp.core) j
    obtain ⟨hrun, hall⟩ := tryOpens_resetIdx hseg htemp
      (fun z hz => hopens ▸ List.mem_range.mp hz) hopen
    have hnew (hcount : ∀ v ∈ temp :: more, v.Counted) : ∀ v ∈ temp :: opened.toList, v.Counted :=
      List.forall_mem_cons.mpr ⟨hcount temp (by simp), fun v hv =>
        hall (hcount temp (by simp)) v (Option.mem_toList.mp hv)⟩
    rw [List.map_cons, extendVariants, RouteJ.getD_resetIdx, resetIdx_openClose, hrun]
    have hlist : (opened.map RouteJ.resetIdx).toList = opened.toList.map RouteJ.resetIdx := by
      cases opened <;> rfl
    rcases hvs' with ⟨rfl, rfl, rfl⟩ | ⟨rfl, rest, hrest, rfl⟩
    · exact ⟨by simp [bind, Except.bind, pure, Except.pure, hlist], hnew⟩
    · obtain ⟨hrest', hall'⟩ := ih hmore hrest
      refine ⟨by simp [bind, Except.bind, pure, Except.pure, hlist, hrest'], fun hcount => ?_⟩
      exact List.forall_mem_append.mpr ⟨hnew hcount, hall' (List.forall_mem_cons.mp hcount).2⟩

theorem buildVariants_resetIdx (hseg : RouteJ.Valid seg) {i : Nat} {js : List Nat}
    {vs vs' : List RouteJ} (hvs : ∀ v ∈ vs, Refit (fun _ => True) seg v) {b : Bool}
    (h : buildVariants expandCopy late i vs js = .ok (vs', b)) :
    buildVariants expandCopy late i (vs.map RouteJ.resetIdx) js = .ok (vs'.map RouteJ.resetIdx, b) ∧
      ((∀ v ∈ vs, v.Counted) → ∀ v ∈ vs', v.Counted) := by
  induction js generalizing vs with
  | nil =>
    obtain ⟨rfl, rfl⟩ : vs = vs' ∧ false = b := by simpa [buildVariants, pure, Except.pure] using h
    exact ⟨rfl, id⟩
  | cons j js ih =>
    obtain ⟨⟨vs'', timeOut⟩, hvs'', h⟩ := bind_ok.mp h
    obtain ⟨hrun, hall⟩ := extendVariants_resetIdx hseg hvs hvs''
    have hfit := extendVariants_refit reschedules_expandCopy hseg hvs hvs''
    rw [buildVariants, hrun]
    cases timeOut with
    | true =>
      obtain ⟨rfl, rfl⟩ : vs'' = vs' ∧ true = b := by simpa [pure, Except.pure] using h
      exact ⟨rfl, hall⟩
    | false =>
      obtain ⟨hrun', hall'⟩ := ih hfit h
      exact ⟨hrun', fun hcount => hall' (hall hcount)⟩

/-- The stretch is among its variants, and counting reads nothing that does not exist in any of
them if it does not in the stretch. -/
theorem variants_counted_iff (late : Nat → Nat → Nat → Nat → Bool) (hseg : RouteJ.Expanded seg)
    (i : Nat) : (∀ v ∈ (variants late i seg).1, v.Counted) ↔ seg.Counted := by
  obtain ⟨vs, b, hvs, -, hhead⟩ := buildVariants_spec late hseg i
    (List.range' 1 (seg.length - 1)) (show ∀ v ∈ [seg], v = seg ∨ Kept seg v by simp) rfl
  have hvariants : (variants late i seg).1 = vs := by
    rw [variants, hvs]
    rfl
  rw [hvariants]
  refine ⟨fun h => h seg (List.mem_of_mem_head? hhead), fun h => ?_⟩
  refine (buildVariants_resetIdx hseg.valid ?_ hvs).2 (by simpa using h)
  simpa using Refit.refl hseg.scheduled fun _ _ => trivial

theorem openStretch_resetIdx (late : Nat → Nat → Nat → Nat → Bool) (hseg : RouteJ.Expanded seg)
    (h : seg.Counted) (i : Nat) : openStretch expandCopy late i () seg.resetIdx =
      (openStretch expandCopy late i () seg).map fun p => (p.1, p.2.1, p.2.2.resetIdx) := by
  have hrefl : ∀ v ∈ [seg], Refit (fun _ => True) seg v := by
    simpa using Refit.refl hseg.scheduled fun _ _ => trivial
  obtain ⟨vs, b, hvs, -, -⟩ := buildVariants_spec late hseg i
    (List.range' 1 (seg.length - 1)) (show ∀ v ∈ [seg], v = seg ∨ Kept seg v by simp) rfl
  obtain ⟨hrun, hall⟩ := buildVariants_resetIdx hseg.valid hrefl hvs
  have hfit := buildVariants_refit reschedules_expandCopy hseg.valid hrefl hvs
  have hcount := hall (by simpa using h)
  have hlast : (vs.map RouteJ.resetIdx).getLastD [] = RouteJ.resetIdx (vs.getLastD []) := by
    rw [List.getLastD_eq_getLast?, List.getLastD_eq_getLast?, List.getLast?_map]
    cases vs.getLast? <;> rfl
  have hpick := pickVariant_resetIdx vs.reverse
    (fun v hv n hn => ((hfit v (by simpa using hv)).valid hseg.valid).single hn)
    (fun v hv => hcount v (by simpa using hv)) (-1) (vs.getLastD [])
  rw [List.map_reverse] at hpick
  have hrun : buildVariants expandCopy late i [seg.resetIdx]
      (List.range' 1 (seg.resetIdx.length - 1)) = .ok (vs.map RouteJ.resetIdx, b) := by
    rw [RouteJ.length_resetIdx]
    exact hrun
  rw [openStretch, openStretch, hrun, hvs]
  simp only [bind, Except.bind, hlast, hpick]
  cases pickVariant (-1) (vs.getLastD []) vs.reverse <;> rfl

end Trials

/-! ## The longer stays -/

theorem errorCount_resetIdx (r : RouteJ) : errorCount r.resetIdx = errorCount r := by
  rw [errorCount, RouteJ.resetIdx, List.map_map, errorCount]
  rfl

theorem enrichAt_resetIdx {seg temp : RouteJ} (hseg : RouteJ.Valid seg) (h : Enriched seg temp)
    {p : Nat × Nat} (hu : p.1 ≤ enrichSteps) (vis : Nat → Bool) :
    enrichAt (vis, temp.resetIdx) p =
      (enrichAt (vis, temp) p).map fun s => (s.1, s.2.resetIdx) := by
  obtain ⟨u, j⟩ := p
  have hexp := h.expanded hseg
  simp only [enrichAt, enrichNode, RouteJ.getD_resetIdx, resetIdx_isFree, resetIdx_durs]
  cases hfree : (temp.getD j default).isFree with
  | false => rfl
  | true =>
    obtain ⟨result, hresult, -, hlong, -, hbare⟩ := trial_spec hexp hu hfree
    have hskel : (trial u temp j).map skeleton = temp.map skeleton := by
      rw [← forall₂_map_eq (fun _ _ h => h.skeleton) hlong]
      refine (forall₂_map_eq (fun n n' (h : n'.bare = n.bare) => ?_) hbare).symm
      rw [← skeleton_bare n', h, skeleton_bare]
    have hreset := expandCopy_resetIdx (hexp.valid.of_skeleton hskel.symm) hresult
    unfold trial at hreset hresult
    rw [RouteJ.modify_resetIdx fun n _ => setDurs_resetIdx n _ _ _] at hreset
    unfold stepTime at hreset hresult
    simp only [hreset, hresult, errorCount_resetIdx, bind, Except.bind]
    split_ifs <;> rfl

theorem enrichStretch_resetIdx {seg : RouteJ} (hseg : RouteJ.Expanded seg) (i : Nat)
    (vis : Nat → Bool) : enrichStretch expandCopy i vis seg.resetIdx =
      (enrichStretch expandCopy i vis seg).map fun p => (p.1, p.2.1, p.2.2.resetIdx) := by
  have hsteps : ∀ p ∈ enrichLoop seg.length, p.1 ≤ enrichSteps := fun p => le_of_mem_enrichLoop
  have hfold := foldlM_commute (f := enrichAt) (φ := fun s => (s.1, s.2.resetIdx))
    (P := fun s => Enriched seg s.2) (fun s p hp hs =>
      ⟨enrichAt_resetIdx hseg.valid hs (hsteps p hp) s.1, fun s' hs' => ?_⟩)
    (Enriched.refl hseg) (s := (vis, seg))
  · rw [enrichStretch_eq, enrichStretch_eq, RouteJ.length_resetIdx, hfold]
    cases (enrichLoop seg.length).foldlM enrichAt (vis, seg) <;> rfl
  · obtain ⟨vis', temp', hstep, htemp'⟩ := enrichNode_spec hseg.valid hs (hsteps p hp) s.1 p.2
    obtain rfl : (vis', temp') = s' := by
      have hs' : enrichNode expandCopy p.1 (s.1, s.2) p.2 = .ok s' := hs'
      simpa [hstep] using hs'
    exact htemp'

/-! ## The walk -/

section Walk

variable {σ : Type} {halt : NodeJ → Bool} {f : Nat → σ → RouteJ → Res (σ × Bool × RouteJ)}

/-- The stretches that `scan` hands to `f` from node number `i` on, with the numbers of their last
nodes, when the current one has the nodes `cur` so far. -/
def worked (halt : NodeJ → Bool) (f : Nat → σ → RouteJ → Res (σ × Bool × RouteJ)) :
    σ → (i : Nat) → (cur rest : RouteJ) → List (Nat × RouteJ)
  | _, _, _, [] => []
  | s, i, cur, node :: rest =>
    if halt node then []
    else if node.isFixed then
      if cur.length > 1 then
        (i, cur ++ [node]) :: match f i s (cur ++ [node]) with
          | .ok (s, false, _) => worked halt f s (i + 1) [node] rest
          | _ => []
      else worked halt f s (i + 1) [node] rest
    else worked halt f s (i + 1) (cur ++ [node]) rest

/-- The work is on scheduled stretches of the route. -/
theorem mem_worked {s : σ} {i : Nat} {x : NodeJ} (mid : RouteJ) {rest : RouteJ} {p : Nat × RouteJ}
    (hx : x.isFixed) (hcheck : ∀ n ∈ x :: (mid ++ rest), n.checkNodeJ)
    (hs : RouteJ.Scheduled (x :: (mid ++ rest))) (h : p ∈ worked halt f s i (x :: mid) rest) :
    RouteJ.Expanded p.2 ∧ ∀ n ∈ p.2, n ∈ x :: (mid ++ rest) := by
  induction rest generalizing s i x mid with
  | nil => simp [worked] at h
  | cons node rest ih =>
    rw [worked] at h
    split_ifs at h with hstop hy hlen
    · simp at h
    · obtain ⟨hseg, hcheck', hs'⟩ := RouteJ.expanded_stretch hx hy hcheck hs
      have hrest {s' : σ} (h : p ∈ worked halt f s' (i + 1) [node] rest) :
          RouteJ.Expanded p.2 ∧ ∀ n ∈ p.2, n ∈ x :: (mid ++ node :: rest) := by
        obtain ⟨hexp, hmem⟩ := ih [] hy hcheck' hs' h
        exact ⟨hexp, fun n hn => List.mem_cons_of_mem x (List.mem_append_right mid (hmem n hn))⟩
      rcases List.mem_cons.mp h with rfl | h
      · exact ⟨hseg, RouteJ.stretch_subset x node mid rest⟩
      · split at h
        · exact hrest h
        · simp at h
    · obtain ⟨-, hcheck', hs'⟩ := RouteJ.expanded_stretch hx hy hcheck hs
      obtain ⟨hexp, hmem⟩ := ih [] hy hcheck' hs' h
      exact ⟨hexp, fun n hn => List.mem_cons_of_mem x (List.mem_append_right mid (hmem n hn))⟩
    · obtain ⟨hexp, hmem⟩ := ih (mid ++ [node]) hx (by simpa using hcheck)
        (by simpa using hs) h
      exact ⟨hexp, fun n hn => by simpa using hmem n hn⟩

theorem splice_resetIdx (stretch seg : RouteJ) :
    splice stretch.resetIdx seg.resetIdx = RouteJ.resetIdx (splice stretch seg) := by
  simp only [splice, RouteJ.getD_resetIdx, RouteJ.length_resetIdx]
  simp [RouteJ.resetIdx, List.map_take, Function.comp_def]

/-- If the work on each stretch does not depend on indices that select nothing, neither does the
walk. -/
theorem scan_resetIdx (hhalt : ∀ n, halt n.resetIdx = halt n) {P : RouteJ → Prop}
    (hf : ∀ i s seg, RouteJ.Expanded seg → P seg → f i s seg.resetIdx =
      (f i s seg).map fun p => (p.1, p.2.1, p.2.2.resetIdx))
    (s : σ) (before mid : RouteJ) {rest : RouteJ} {x : NodeJ} (hx : x.isFixed)
    (hcheck : ∀ n ∈ x :: (mid ++ rest), n.checkNodeJ) (hs : RouteJ.Scheduled (x :: (mid ++ rest)))
    (hP : ∀ p ∈ worked halt f s (before.length + (x :: mid).length) (x :: mid) rest, P p.2) :
    scan halt f s before.resetIdx (RouteJ.resetIdx (x :: mid)) rest.resetIdx =
      (scan halt f s before (x :: mid) rest).map fun p => (p.1, p.2.resetIdx) := by
  induction rest generalizing s before mid x with
  | nil =>
    have happ : before.resetIdx ++ RouteJ.resetIdx (x :: mid) =
        RouteJ.resetIdx (before ++ x :: mid) := List.map_append.symm
    simp only [RouteJ.resetIdx, List.map_nil, scan] at happ ⊢
    rw [happ]
    rfl
  | cons node rest ih =>
    have happ (a b : RouteJ) : a.resetIdx ++ b.resetIdx = RouteJ.resetIdx (a ++ b) :=
      List.map_append.symm
    have hnext : (RouteJ.resetIdx (x :: mid)) ++ [node.resetIdx] =
        RouteJ.resetIdx (x :: mid ++ [node]) := happ (x :: mid) [node]
    have hlen : (RouteJ.resetIdx (x :: mid)).length = (x :: mid).length := RouteJ.length_resetIdx _
    change scan halt f s before.resetIdx (RouteJ.resetIdx (x :: mid))
      (node.resetIdx :: RouteJ.resetIdx rest) = _
    rw [worked] at hP
    rw [scan, scan, hhalt, resetIdx_isFixed, hnext, hlen, RouteJ.length_resetIdx]
    cases hstop : halt node with
    | true =>
      simp only [if_true]
      simp [pure, Except.pure, Except.map, RouteJ.resetIdx]
    | false =>
      simp only [hstop, Bool.false_eq_true, if_false] at hP ⊢
      cases hy : node.isFixed with
      | false =>
        simp only [hy, Bool.false_eq_true, if_false] at hP ⊢
        exact ih s before (mid ++ [node]) hx (by simpa using hcheck) (by simpa using hs)
          (by simpa [Nat.add_assoc] using hP)
      | true =>
        obtain ⟨hseg, hcheck', hs₂⟩ := RouteJ.expanded_stretch hx hy hcheck hs
        simp only [hy, if_true] at hP ⊢
        by_cases hmore : (x :: mid).length > 1
        · simp only [hmore, if_true] at hP ⊢
          obtain ⟨hseg', hP⟩ := List.forall_mem_cons.mp hP
          rw [hf _ s (x :: mid ++ [node]) hseg hseg']
          cases hwork : f (before.length + (x :: mid).length) s (x :: mid ++ [node]) with
          | error e => rfl
          | ok p =>
            obtain ⟨s', stop, seg⟩ := p
            rw [hwork] at hP
            simp only [Except.map, bind, Except.bind, splice_resetIdx, happ]
            cases stop with
            | true => simp [pure, Except.pure, RouteJ.resetIdx]
            | false =>
              refine ih s' (before ++ splice (x :: mid) seg) [] hy hcheck' hs₂ ?_
              rw [List.length_append, length_splice, List.length_singleton]
              exact hP
        · simp only [hmore, if_false, happ] at hP ⊢
          refine ih s (before ++ x :: mid) [] hy hcheck' hs₂ ?_
          rw [List.length_append, List.length_singleton]
          exact hP

theorem scan_resetIdx_of_begun (hhalt : ∀ n, halt n.resetIdx = halt n) {P : RouteJ → Prop}
    (hf : ∀ i s seg, RouteJ.Expanded seg → P seg → f i s seg.resetIdx =
      (f i s seg).map fun p => (p.1, p.2.1, p.2.2.resetIdx))
    (s : σ) {r : RouteJ} (hr : RouteJ.Begun r) (hP : ∀ p ∈ worked halt f s 0 [] r, P p.2) :
    scan halt f s [] [] r.resetIdx = (scan halt f s [] [] r).map fun p => (p.1, p.2.resetIdx) := by
  cases r with
  | nil => rfl
  | cons first rest =>
    have hx : first.isFixed := hr.first first (by simp)
    change scan halt f s [] [] (first.resetIdx :: RouteJ.resetIdx rest) = _
    rw [worked] at hP
    rw [scan, scan, hhalt, resetIdx_isFixed]
    cases hstop : halt first with
    | true => rfl
    | false =>
      simp only [hstop, hx, Bool.false_eq_true, if_false, if_true, List.length_nil,
        Nat.not_lt_zero, gt_iff_lt] at hP ⊢
      exact scan_resetIdx hhalt hf s [] [] hx hr.check hr.scheduled hP

end Walk

/-- The stretches that `selectOpenClose` counts, with the numbers of their last nodes. -/
def counted (late : Nat → Nat → Nat → Nat → Bool) (r : RouteJ) : List (Nat × RouteJ) :=
  worked (fun n => n.isRightConflict || n.hasFixedConflictError) (openStretch expandCopy late) () 0
    [] r

theorem mem_counted {late : Nat → Nat → Nat → Nat → Bool} {r : RouteJ} (hr : RouteJ.Begun r)
    {p : Nat × RouteJ} (h : p ∈ counted late r) : RouteJ.Expanded p.2 ∧ ∀ n ∈ p.2, n ∈ r := by
  cases r with
  | nil => simp [counted, worked] at h
  | cons first rest =>
    have hx : first.isFixed := hr.first first (by simp)
    rw [counted, worked] at h
    split_ifs at h with hstop hlen
    · simp at h
    · simp at hlen
    · exact mem_worked [] hx hr.check hr.scheduled h

theorem selectOpenClose_resetIdx (late : Nat → Nat → Nat → Nat → Bool) {r : RouteJ}
    (hr : RouteJ.Begun r) (h : ∀ p ∈ counted late r, p.2.Counted) :
    selectOpenClose late r.resetIdx = (selectOpenClose late r).map fun p => (p.1, p.2.resetIdx) :=
  scan_resetIdx_of_begun (fun _ => rfl)
    (fun i _ _ hseg hcount => openStretch_resetIdx late hseg hcount i) () hr h

theorem timeEnrich_resetIdx {r : RouteJ} (hr : RouteJ.Begun r) :
    timeEnrich r.resetIdx = (timeEnrich r).map fun p => (p.1, p.2.resetIdx) :=
  scan_resetIdx_of_begun (fun _ => rfl) (P := fun _ => True)
    (fun i vis _ hseg _ => enrichStretch_resetIdx hseg i vis) _ hr fun _ _ => trivial

end PathGenerator

end PPView
