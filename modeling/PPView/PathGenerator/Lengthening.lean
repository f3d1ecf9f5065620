import PPView.PathGenerator.TimeEnrich

/-!
# Enriching only lengthens

`TimeEnrich` keeps a trial only if the re-expanded stretch shows no more errors than before.
Flags are never taken back, so a trial that is kept raises none at all, and all that changes are
shortest stays, which grow in steps of a quarter of an hour towards the recommended ones.
-/

namespace PPView

open NodeJ

namespace PathGenerator

/-! ## Counting errors -/

/-- The two nodes carry the same flags, as far as `ErrorCount` looks at them. -/
def SameFlags (n n' : NodeJ) : Prop := ∀ e, n'.error e = 1 ↔ n.error e = 1

theorem countP_eq_of_imp {α : Type} {p q : α → Bool} {l : List α} (h : ∀ a ∈ l, p a → q a)
    (hle : l.countP q ≤ l.countP p) : ∀ a ∈ l, q a → p a := by
  induction l with
  | nil => simp
  | cons a l ih =>
    obtain ⟨ha, hl⟩ := List.forall_mem_cons.mp h
    have hmono := List.countP_mono_left hl
    simp only [List.countP_cons] at hle
    refine List.forall_mem_cons.mpr ⟨fun hq => ?_, ih hl ?_⟩
    · by_contra hp
      simp only [hq, hp, if_true, if_false] at hle
      omega
    · split_ifs at hle <;> simp_all
      omega

theorem errorCount_cons (n : NodeJ) (r : RouteJ) :
    errorCount (n :: r) = ((List.finRange 7).countP fun j => n.error j = 1) + errorCount r := by
  simp [errorCount]

theorem errorCount_mono {r r' : RouteJ} (h : List.Forall₂ Rearranged r r') :
    errorCount r ≤ errorCount r' ∧
      (errorCount r' ≤ errorCount r → List.Forall₂ SameFlags r r') := by
  induction h with
  | nil => exact ⟨Nat.le_refl _, fun _ => .nil⟩
  | @cons n n' r r' hn _ ih =>
    have himp : ∀ j ∈ List.finRange 7, decide (n.error j = 1) → decide (n'.error j = 1) := by
      intro j _ hj
      rcases hn.error j with h | h <;> simp_all
    have hnode := List.countP_mono_left himp
    simp only [errorCount_cons]
    refine ⟨Nat.add_le_add hnode ih.1, fun hle => .cons (fun e => ?_) (ih.2 (by omega))⟩
    have hback := countP_eq_of_imp himp (by omega) e (List.mem_finRange e)
    have hforth := himp e (List.mem_finRange e)
    simp only [decide_eq_true_eq] at hback hforth
    exact ⟨hback, hforth⟩

theorem errorCount_congr {r r' : RouteJ} (h : List.Forall₂ SameFlags r r') :
    errorCount r' = errorCount r := by
  induction h with
  | nil => rfl
  | cons hn _ ih =>
    rw [errorCount_cons, errorCount_cons, ih]
    congr 2
    funext j
    exact decide_eq_decide.mpr (hn j)

/-! ## Longer stays -/

/-- `durs` is sorted. -/
def Ordered (n : NodeJ) : Prop := n.durs.min ≤ n.durs.rcmd ∧ n.durs.rcmd ≤ n.durs.max

/-- The node `n'` is `n`, arranged anew, with its shortest stay longer by some quarters of an hour
but not longer than the recommended one. -/
structure Lengthened (n n' : NodeJ) : Prop where
  skeleton : n'.skeleton = n.skeleton
  rangeIdx : n'.rangeIdx = n.rangeIdx
  rcmd : n'.durs.rcmd = n.durs.rcmd
  max : n'.durs.max = n.durs.max
  min : Ordered n → (∃ k : Nat, n'.durs.min = n.durs.min + 900 * k) ∧ n'.durs.min ≤ n.durs.rcmd

namespace Lengthened

variable {n n' n'' : NodeJ}

theorem refl (n : NodeJ) : Lengthened n n := ⟨rfl, rfl, rfl, rfl, fun h => ⟨⟨0, by simp⟩, h.1⟩⟩

theorem of_bare (h : n'.bare = n.bare) : Lengthened n n' := by
  have hdurs : n'.durs = n.durs := (congrArg durs h :)
  refine ⟨?_, (congrArg NodeJ.rangeIdx h :), by rw [hdurs], by rw [hdurs], fun hn => ?_⟩
  · rw [← skeleton_bare n', h, skeleton_bare]
  · rw [hdurs]
    exact ⟨⟨0, by simp⟩, hn.1⟩

theorem trans (h : Lengthened n n') (h' : Lengthened n' n'') : Lengthened n n'' := by
  refine ⟨h'.skeleton.trans h.skeleton, h'.rangeIdx.trans h.rangeIdx, h'.rcmd.trans h.rcmd,
    h'.max.trans h.max, fun hn => ?_⟩
  obtain ⟨⟨k, hk⟩, hle⟩ := h.min hn
  obtain ⟨⟨k', hk'⟩, hle'⟩ := h'.min ⟨h.rcmd ▸ hle, h.rcmd ▸ h.max ▸ hn.2⟩
  refine ⟨⟨k + k', ?_⟩, h.rcmd ▸ hle'⟩
  rw [hk', hk]
  push_cast
  omega

end Lengthened

/-- The step of round `u` is a multiple of a quarter of an hour that does not pass the gap. -/
theorem stepTime_spec {gap : Int} (hgap : 0 ≤ gap) {u : Nat} (hu : u ≤ enrichSteps) :
    ∃ k : Nat, (gap.tdiv (1 + enrichSteps - u)).tdiv 900 * 900 = 900 * k ∧
      900 * (k : Int) ≤ gap := by
  have hpos : (0 : Int) < 1 + enrichSteps - u := by
    have : (u : Int) ≤ (enrichSteps : Int) := by exact_mod_cast hu
    omega
  have hq : 0 ≤ gap.tdiv (1 + enrichSteps - u) := Int.tdiv_nonneg hgap hpos.le
  have hle : gap.tdiv (1 + enrichSteps - u) ≤ gap := Int.tdiv_le_self _ hgap
  refine ⟨((gap.tdiv (1 + enrichSteps - u)).tdiv 900).toNat, ?_, ?_⟩ <;>
    rw [Int.tdiv_eq_ediv_of_nonneg hq] <;> omega

/-! ## One step -/

/-- A longer shortest stay within the bounds of `setDurs`. -/
theorem lengthened_setDurs {n : NodeJ} (hdurs : (n.free.bind Free.durs).isSome) {u : Nat}
    (hu : u ≤ enrichSteps) :
    Lengthened n (n.setDurs
      (n.durs.min + ((n.durs.rcmd - n.durs.min).tdiv (1 + enrichSteps - u)).tdiv 900 * 900)
      n.durs.rcmd n.durs.max) := by
  generalize hmin : n.durs.min + _ = min
  have hfield : (n.setDurs min n.durs.rcmd n.durs.max).durs =
      if min ≤ n.durs.rcmd ∧ n.durs.rcmd ≤ n.durs.max then ⟨min, n.durs.rcmd, n.durs.max⟩
      else n.durs := by
    unfold setDurs
    split_ifs <;> rfl
  have hrange : (n.setDurs min n.durs.rcmd n.durs.max).rangeIdx = n.rangeIdx := by
    unfold setDurs
    split_ifs <;> rfl
  refine ⟨skeleton_setDurs hdurs, hrange, ?_, ?_, fun hn => ?_⟩
  · rw [hfield]
    split_ifs <;> rfl
  · rw [hfield]
    split_ifs <;> rfl
  · obtain ⟨k, hk, hle⟩ := stepTime_spec (Int.sub_nonneg.mpr hn.1) hu
    rw [hk] at hmin
    have hbound : min ≤ n.durs.rcmd := by omega
    rw [hfield, if_pos ⟨hbound, hn.2⟩]
    exact ⟨⟨k, hmin.symm⟩, hbound⟩

theorem Lengthened.idxOk {n n' : NodeJ} (h : Lengthened n n') : n'.idxOk = n.idxOk := by
  have hopen : n'.openClose = n.openClose := by
    rw [← skeleton_openClose, h.skeleton, skeleton_openClose]
  have hidx : n'.openIdx = n.openIdx := by
    unfold openIdx
    rw [hopen, h.rangeIdx]
  rw [NodeJ.idxOk, NodeJ.idxOk, hopen, hidx, isFixed_eq_of_skeleton h.skeleton]

/-- What holds of the copy of the stretch `seg` between two steps. -/
structure Enriched (seg temp : RouteJ) : Prop where
  nodes : List.Forall₂ Lengthened seg temp
  flags : List.Forall₂ SameFlags seg temp
  scheduled : RouteJ.Scheduled temp

theorem Enriched.expanded {seg temp : RouteJ} (h : Enriched seg temp) (hseg : RouteJ.Valid seg) :
    RouteJ.Expanded temp :=
  ⟨hseg.of_skeleton (forall₂_map_eq (fun _ _ h => h.skeleton) h.nodes).symm, h.scheduled⟩

theorem Enriched.refl {seg : RouteJ} (h : RouteJ.Expanded seg) : Enriched seg seg :=
  ⟨List.forall₂_same.mpr fun n _ => .refl n, List.forall₂_same.mpr fun _ _ _ => .rfl, h.scheduled⟩

/-- The nodes of the copy, with its ends apart. -/
theorem Enriched.exists_eq {x y : NodeJ} {mid temp : RouteJ}
    (h : Enriched (x :: (mid ++ [y])) temp) :
    ∃ x' mid' y', temp = x' :: (mid' ++ [y']) ∧ mid'.length = mid.length ∧
      ((∀ n ∈ mid, n.isFixed = false) → ∀ n ∈ mid', n.isFixed = false) := by
  obtain ⟨hnodes, -, -⟩ := h
  cases hnodes with
  | @cons _ x' _ _ _ hrest =>
    obtain ⟨mid', y', rfl, hmid, -⟩ := forall₂_concat hrest
    refine ⟨x', mid', y', rfl, hmid.length_eq.symm, fun hfree n' hn' => ?_⟩
    obtain ⟨n, hn, hlong⟩ := forall₂_mem_right hmid hn'
    rw [isFixed_eq_of_skeleton hlong.skeleton, hfree n hn]

/-- The step of round `u`. -/
def stepTime (u : Nat) (d : Durs) : Int :=
  ((d.rcmd - d.min).tdiv (1 + enrichSteps - u)).tdiv 900 * 900

/-- The stretch with the stay at node `j` longer by the step of round `u`. -/
def trial (u : Nat) (temp : RouteJ) (j : Nat) : RouteJ :=
  let time := (temp.getD j default).durs
  temp.modify j (·.setDurs (time.min + stepTime u time) time.rcmd time.max)

/-- In round `u` the stay at node `j` can be made longer without a new error. -/
def Keeps (u : Nat) (temp : RouteJ) (j : Nat) : Prop :=
  let n := temp.getD j default
  n.isFree ∧ stepTime u n.durs ≠ 0 ∧ n.durs.min + stepTime u n.durs ≤ n.durs.rcmd ∧
    n.durs.rcmd ≤ n.durs.max ∧
    ∃ result, expandCopy (trial u temp j) = .ok result ∧ errorCount result ≤ errorCount temp

/-- The shortest stay grows up to the recommended one, or falls to it. -/
structure Changed (d d' : Durs) : Prop where
  rcmd : d'.rcmd = d.rcmd
  max : d'.max = d.max
  min : d.min < d'.min ∧ d'.min ≤ d.rcmd ∨ d.rcmd < d.min ∧ d'.min = d.rcmd

theorem Changed.trans {d d' d'' : Durs} (h : Changed d d') (h' : Changed d' d'') :
    Changed d d'' := by
  obtain ⟨hr, hm, hmin⟩ := h
  obtain ⟨hr', hm', hmin'⟩ := h'
  exact ⟨hr'.trans hr, hm'.trans hm, by omega⟩

theorem Changed.ne {d d' : Durs} (h : Changed d d') : d' ≠ d := by
  rintro rfl
  have := h.min
  omega

theorem changed_stepTime {u : Nat} (hu : u ≤ enrichSteps) {d : Durs} (hne : stepTime u d ≠ 0)
    (hle : d.min + stepTime u d ≤ d.rcmd) : Changed d { d with min := d.min + stepTime u d } := by
  refine ⟨rfl, rfl, ?_⟩
  rcases le_or_gt d.min d.rcmd with hord | hord
  · obtain ⟨k, hk, -⟩ := stepTime_spec (Int.sub_nonneg.mpr hord) hu
    have hk : stepTime u d = 900 * k := hk
    exact .inl ⟨by simp only; omega, hle⟩
  · -- the step goes down, and not past the recommended stay
    obtain ⟨k, hk, hgap⟩ := stepTime_spec (Int.sub_nonneg.mpr hord.le) hu
    have hk : stepTime u d = -(900 * k) := by
      rw [stepTime, ← Int.neg_sub, Int.neg_tdiv, Int.neg_tdiv, Int.neg_mul, hk]
    exact .inr ⟨hord, by simp only; omega⟩

/-- A pass over a scheduled route that shows no more errors changes nothing. -/
theorem expandCopy_eq_self {temp result : RouteJ} (htemp : RouteJ.Expanded temp)
    (h : expandCopy temp = .ok result) (hle : errorCount result ≤ errorCount temp) :
    result = temp := by
  obtain ⟨result', hresult, -, hrearr⟩ :=
    expandCopy_spec htemp.valid htemp.scheduled.linked htemp.idxOk
  obtain rfl : result' = result := by simpa [hresult] using h
  have hflags := (errorCount_mono hrearr).2 hle
  have hsame : result'.map setDefaultError = temp.map setDefaultError := by
    obtain ⟨g, hg, hmap⟩ := dayPathExpand_of_scheduled {} htemp.valid htemp.scheduled
    obtain rfl : g.outRouteJ = result' := by
      simpa [expandCopy, hg, bind, Except.bind, pure, Except.pure] using hresult
    exact hmap
  have herror : List.Forall₂ (fun n n' => n'.error = n.error) temp result' := by
    refine (forall₂_and hrearr hflags).imp fun n n' hn => funext fun e => ?_
    rcases hn.1.error e with h1 | h1
    · rw [h1, (hn.2 e).mp h1]
    · exact h1
  have hdefault := forall₂_of_map_eq hsame
  refine (List.forall₂_eq_eq_eq ▸ (forall₂_and herror hdefault).imp fun n n' hn => ?_ :
    temp = result').symm
  calc n = { n.setDefaultError with error := n.error } := rfl
    _ = { n'.setDefaultError with error := n'.error } := by rw [hn.1, hn.2]
    _ = n' := rfl

/-- Re-expanding a trial: no stay is shorter, and without more errors no flag is raised. -/
theorem trial_spec {temp : RouteJ} (hexp : RouteJ.Expanded temp) {u : Nat} (hu : u ≤ enrichSteps)
    {j : Nat} (hfree : (temp.getD j default).isFree) :
    ∃ result, expandCopy (trial u temp j) = .ok result ∧ RouteJ.Scheduled result ∧
      List.Forall₂ Lengthened temp result ∧
      (errorCount result ≤ errorCount temp → List.Forall₂ SameFlags temp result) ∧
      List.Forall₂ (fun n n' => n'.bare = n.bare) (trial u temp j) result := by
  unfold trial
  simp only
  generalize hf : (fun n : NodeJ => n.setDurs _ _ _) = f
  have hlong : List.Forall₂ Lengthened temp (temp.modify j f) := by
    refine forall₂_modify .refl fun n hn => ?_
    have hget : temp.getD j default = n := by simp [List.getD_eq_getElem?_getD, hn]
    rw [hget] at hfree
    rw [← hf, hget]
    exact lengthened_setDurs (durs_isSome
      (hexp.valid.checkNodeJ (List.mem_of_getElem? hn)) hfree) hu
  have herror (n : NodeJ) : (f n).error = n.error := by
    rw [← hf]
    simp only [setDurs]
    split_ifs <;> rfl
  have hflags : List.Forall₂ SameFlags temp (temp.modify j f) :=
    forall₂_modify (fun _ _ => .rfl) fun n _ e => by rw [herror]
  have hskel := forall₂_map_eq (fun _ _ h => h.skeleton) hlong
  obtain ⟨result, hresult, hsched, hrearr⟩ := expandCopy_spec
    (hexp.valid.of_skeleton hskel.symm)
    ((RouteJ.linked_iff_of_skeleton hskel).mpr hexp.scheduled.linked)
    (fun n' hn' => by
      obtain ⟨n, hn, hlen⟩ := forall₂_mem_right hlong hn'
      rw [hlen.idxOk]
      exact hexp.idxOk n hn)
  refine ⟨result, hresult, hsched,
    forall₂_trans (fun _ _ _ h h' => h.trans (.of_bare h'.bare)) hlong hrearr, fun hle => ?_,
    hrearr.imp fun _ _ h => h.bare⟩
  -- no more errors, and none taken back
  have hkept := (errorCount_mono hrearr).2 (by rwa [errorCount_congr hflags])
  exact forall₂_trans (fun _ _ _ h h' e => (h' e).trans (h e)) hflags hkept

theorem getD_durs_of_bare {r r' : RouteJ} (h : List.Forall₂ (fun n n' => n'.bare = n.bare) r r')
    (k : Nat) : (r'.getD k default).durs = (r.getD k default).durs := by
  have hmap := forall₂_map_eq (g := durs) (fun n n' (h : n'.bare = n.bare) =>
    (congrArg durs h :)) h
  have hget (r : RouteJ) : (r.getD k default).durs = (r.map durs).getD k {} := by
    rw [List.getD_eq_getElem?_getD, List.getD_eq_getElem?_getD, List.getElem?_map]
    cases r[k]? <;> rfl
  rw [hget, hmap, ← hget]

theorem trial_getD_self {u : Nat} {temp : RouteJ} {j : Nat}
    (hfree : (temp.getD j default).isFree) :
    (trial u temp j).getD j default = (temp.getD j default).setDurs
      ((temp.getD j default).durs.min + stepTime u (temp.getD j default).durs)
      (temp.getD j default).durs.rcmd (temp.getD j default).durs.max := by
  simp only [trial, List.getD_eq_getElem?_getD] at hfree ⊢
  cases hn : temp[j]? with
  | none =>
    rw [hn, Option.getD_none] at hfree
    exact absurd hfree (by decide)
  | some n => simp [hn]

theorem trial_getD_ne {u : Nat} {temp : RouteJ} {j k : Nat} (hk : k ≠ j) :
    (trial u temp j).getD k default = temp.getD k default := by
  simp [trial, List.getD_eq_getElem?_getD, hk.symm]

theorem trial_eq_self {u : Nat} {temp : RouteJ} {j : Nat}
    (h : (temp.getD j default).setDurs
      ((temp.getD j default).durs.min + stepTime u (temp.getD j default).durs)
      (temp.getD j default).durs.rcmd (temp.getD j default).durs.max = temp.getD j default) :
    trial u temp j = temp := by
  apply List.ext_getElem?
  intro k
  simp only [trial, List.getElem?_modify]
  cases hn : temp[k]? with
  | none => rfl
  | some n =>
    by_cases hk : j = k
    · subst hk
      rw [List.getD_eq_getElem?_getD, hn, Option.getD_some] at h
      simp [hn, h]
    · simp [hk]

/-- What step `u` does at node `j`: nothing if the node is marked. Otherwise it keeps a longer stay,
or leaves the stretch as it is and may mark the node; which of these does not depend on the
marks. -/
structure StepAt (seg : RouteJ) (u : Nat) (temp : RouteJ) (j : Nat) (mark : Bool) (temp' : RouteJ) :
    Prop where
  eq : ∀ vis, enrichNode expandCopy u (vis, temp) j = .ok (if vis j then (vis, temp)
    else (if mark then Function.update vis j true else vis, temp'))
  enriched : Enriched seg temp'
  changed : Keeps u temp j → Changed (temp.getD j default).durs (temp'.getD j default).durs
  stays : ¬ Keeps u temp j → temp' = temp
  others : ∀ k ≠ j, (temp'.getD k default).durs = (temp.getD k default).durs

/-- The cases of a step on a free node. -/
theorem enrichNode_eq {temp result : RouteJ} {u j : Nat} {d : Durs}
    (hfree : (temp.getD j default).isFree) (hd : (temp.getD j default).durs = d)
    (hresult : expandCopy (trial u temp j) = .ok result) (vis : Nat → Bool) :
    enrichNode expandCopy u (vis, temp) j =
      if vis j then .ok (vis, temp)
      else if d.min = d.rcmd ∧ d.rcmd = d.max then .ok (Function.update vis j true, temp)
      else if stepTime u d = 0 then .ok (vis, temp)
      else if errorCount result > errorCount temp then .ok (Function.update vis j true, temp)
      else .ok (vis, result) := by
  have hcall : expandCopy (temp.modify j (·.setDurs (d.min + stepTime u d) d.rcmd d.max)) =
      .ok result := by
    rw [← hd]
    exact hresult
  simp only [stepTime] at hcall
  simp only [enrichNode, hfree, Bool.true_and, hd, hcall, bind, Except.bind]
  cases vis j <;> rfl

theorem exists_stepAt {seg temp : RouteJ} (hseg : RouteJ.Valid seg) (h : Enriched seg temp)
    {u : Nat} (hu : u ≤ enrichSteps) (j : Nat) : ∃ mark temp', StepAt seg u temp j mark temp' := by
  have hexp := h.expanded hseg
  have hstay (mark : Bool) (hkeeps : ¬ Keeps u temp j)
      (heq : ∀ vis, enrichNode expandCopy u (vis, temp) j = .ok (if vis j then (vis, temp)
        else (if mark then Function.update vis j true else vis, temp))) :
      ∃ mark temp', StepAt seg u temp j mark temp' :=
    ⟨mark, temp, heq, h, fun hk => absurd hk hkeeps, fun _ => rfl, fun _ _ => rfl⟩
  cases hfree : (temp.getD j default).isFree with
  | false =>
    refine hstay false (fun hk => absurd (hfree.symm.trans hk.1) Bool.false_ne_true) fun vis => ?_
    simp only [enrichNode, hfree, Bool.false_and, Bool.false_eq_true, if_false, ite_self]
    rfl
  | true =>
    obtain ⟨result, hresult, hsched, hlong, hflags, hbare⟩ := trial_spec hexp hu hfree
    generalize hd : (temp.getD j default).durs = d
    have heq := enrichNode_eq hfree hd hresult
    by_cases hsame : d.min = d.rcmd ∧ d.rcmd = d.max
    · refine hstay true (fun hk => hk.2.1 ?_) fun vis => ?_
      · rw [hd, stepTime, hsame.1, Int.sub_self, Int.zero_tdiv, Int.zero_tdiv, Int.zero_mul]
      · rw [heq, if_pos hsame, if_pos rfl]
        split_ifs <;> rfl
    by_cases hzero : stepTime u d = 0
    · refine hstay false (fun hk => hk.2.1 (by rw [hd, hzero])) fun vis => ?_
      rw [heq, if_neg hsame, if_pos hzero, if_neg Bool.false_ne_true]
      split_ifs <;> rfl
    by_cases hmore : errorCount result > errorCount temp
    · refine hstay true (fun hk => ?_) fun vis => ?_
      · obtain ⟨result', hresult', hle⟩ := hk.2.2.2.2
        obtain rfl : result = result' := by simpa [hresult] using hresult'
        omega
      · rw [heq, if_neg hsame, if_neg hzero, if_pos hmore, if_pos rfl]
        split_ifs <;> rfl
    have hle : errorCount result ≤ errorCount temp := Nat.le_of_not_lt hmore
    have hrun (vis : Nat → Bool) : enrichNode expandCopy u (vis, temp) j =
        .ok (if vis j then (vis, temp) else (vis, result)) := by
      rw [heq, if_neg hsame, if_neg hzero, if_neg hmore]
      split_ifs <;> rfl
    by_cases hok : d.min + stepTime u d ≤ d.rcmd ∧ d.rcmd ≤ d.max
    · have hkeeps : Keeps u temp j := by
        unfold Keeps
        simp only [hd]
        exact ⟨hfree, hzero, hok.1, hok.2, result, hresult, hle⟩
      refine ⟨false, result, hrun, ⟨forall₂_trans (fun _ _ _ => .trans) h.nodes hlong,
        forall₂_trans (fun _ _ _ h h' e => (h' e).trans (h e)) h.flags (hflags hle), hsched⟩,
        fun _ => ?_, fun hk => absurd hkeeps hk, fun k hk => ?_⟩
      · rw [getD_durs_of_bare hbare, hd, trial_getD_self hfree, hd, setDurs, if_pos hok]
        exact changed_stepTime hu hzero hok.1
      · rw [getD_durs_of_bare hbare, trial_getD_ne hk]
    · -- `setDurs` refuses the longer stay, and the pass shows nothing new
      have hsame : trial u temp j = temp := by
        refine trial_eq_self ?_
        rw [hd, setDurs, if_neg hok]
      obtain rfl : result = temp := expandCopy_eq_self hexp (hsame ▸ hresult) hle
      refine hstay false (fun hk => hok ?_) fun vis => by rw [hrun, if_neg Bool.false_ne_true]
      obtain ⟨-, -, h1, h2, -⟩ := hk
      rw [hd] at h1 h2
      exact ⟨h1, h2⟩

theorem enrichNode_spec {seg temp : RouteJ} (hseg : RouteJ.Valid seg) (h : Enriched seg temp)
    {u : Nat} (hu : u ≤ enrichSteps) (vis : Nat → Bool) (j : Nat) :
    ∃ vis' temp', enrichNode expandCopy u (vis, temp) j = .ok (vis', temp') ∧
      Enriched seg temp' := by
  obtain ⟨mark, temp', hstep⟩ := exists_stepAt hseg h hu j
  rw [hstep.eq vis]
  cases vis j with
  | false => exact ⟨_, _, rfl, hstep.enriched⟩
  | true => exact ⟨_, _, rfl, h⟩

/-! ## The stretch and the day -/

theorem enrichStretch_spec {seg : RouteJ} (hseg : RouteJ.Expanded seg) (i : Nat)
    (vis : Nat → Bool) : ∃ vis' temp',
    enrichStretch expandCopy i vis seg = .ok (vis', false, temp') ∧ Enriched seg temp' := by
  obtain ⟨⟨vis', temp'⟩, hfold, hend⟩ := foldlM_ok (l := List.range' 1 enrichSteps)
    (P := fun s : (Nat → Bool) × RouteJ => Enriched seg s.2)
    (f := fun state u => (List.range' 1 (seg.length - 2)).foldlM (enrichNode expandCopy u) state)
    (s := (vis, seg)) (fun s u hu hs => foldlM_ok (fun s j _ hs => by
      have hu : u ≤ enrichSteps := by
        have := List.mem_range'_1.mp hu
        omega
      obtain ⟨vis', temp', hnode, hs'⟩ := enrichNode_spec hseg.valid hs hu s.1 j
      exact ⟨_, hnode, hs'⟩) hs) (.refl hseg)
  refine ⟨vis', temp', ?_, hend⟩
  simp only [enrichStretch, hfold, bind, Except.bind]
  rfl

theorem enrichStretch_works : Works (fun _ => True) (enrichStretch expandCopy) Lengthened
    (fun seg seg' => errorCount seg' = errorCount seg) := by
  intro i vis x mid y hvalid hsched _
  obtain ⟨vis', temp', hwork, hend⟩ := enrichStretch_spec ⟨hvalid, hsched⟩ i vis
  obtain ⟨hnodes, hflags, -⟩ := hend
  cases hnodes with
  | @cons _ x' _ _ _ hrest =>
    obtain ⟨mid', y', rfl, hmid, -⟩ := forall₂_concat hrest
    refine ⟨vis', false, x', mid', y', hwork, hmid, errorCount_congr (.cons (fun _ => .rfl) ?_)⟩
    -- the ends of the copy are not written back
    cases hflags with
    | cons _ hflags =>
      obtain ⟨mid'', y'', heq, hmid', -⟩ := forall₂_concat hflags
      obtain ⟨rfl, -⟩ := List.append_inj' heq rfl
      exact List.rel_append hmid' (.cons (fun _ => .rfl) .nil)

/-- What `TimeEnrich` does to a node: a free one may get a longer shortest stay, by a multiple of
900 seconds and not beyond the recommended stay; a fixed one stays as it is. -/
structure OnlyLonger (n n' : NodeJ) : Prop where
  fixed : n.isFixed → n' = n
  skeleton : n'.skeleton = n.skeleton
  id : n'.id = n.id
  toNext : n'.toNext = n.toNext
  openClose : n'.openClose = n.openClose
  rcmd : n'.durs.rcmd = n.durs.rcmd
  max : n'.durs.max = n.durs.max
  grows : n.isFree → ∃ k : Nat, n'.durs.min = n.durs.min + 900 * k
  bounded : n.isFree → n'.durs.min ≤ n.durs.rcmd

theorem timeEnrich_onlyLonger {r : RouteJ} (hr : RouteJ.Begun r)
    (hdurs : ∀ n ∈ r, n.isFree → Ordered n) :
    ∃ b r', timeEnrich r = .ok (b, r') ∧ List.Forall₂ OnlyLonger r r' ∧
      List.Forall₂ (fun seg seg' => errorCount seg' = errorCount seg) r.stretches r'.stretches := by
  obtain ⟨b, r', hscan, hnodes, hstretches⟩ : ∃ b r', timeEnrich r = .ok (b, r') ∧
      List.Forall₂ (fun n n' => Lengthened n n' ∧ (n.isFixed → n' = n)) r r' ∧
      List.Forall₂ (fun seg seg' => errorCount seg' = errorCount seg) r.stretches r'.stretches :=
    scan_forall₂ (R := fun seg seg' => errorCount seg' = errorCount seg)
      (fun _ _ h => isFixed_eq_of_skeleton h.skeleton) Lengthened.refl (fun _ => rfl)
      enrichStretch_works hr (fun _ _ => trivial) (fun _ => false)
  refine ⟨b, r', hscan, ?_, hstretches⟩
  refine ((List.forall₂_and_left _ _).mpr ⟨hdurs, hnodes⟩).imp fun n n' ⟨hord, hlong, hfix⟩ => ?_
  refine ⟨hfix, hlong.skeleton, (congrArg NodeJ.id hlong.skeleton :),
    (congrArg NodeJ.toNext hlong.skeleton :), ?_, hlong.rcmd, hlong.max,
    fun hfree => (hlong.min (hord hfree)).1, fun hfree => (hlong.min (hord hfree)).2⟩
  rw [← skeleton_openClose, hlong.skeleton, skeleton_openClose]

theorem timeEnrich_onlyLonger_earlyMuseum :
    ∃ b r', timeEnrich earlyMuseum = .ok (b, r') ∧ List.Forall₂ OnlyLonger earlyMuseum r' ∧
      List.Forall₂ (fun seg seg' => errorCount seg' = errorCount seg)
        (RouteJ.stretches earlyMuseum) (RouteJ.stretches r') :=
  timeEnrich_onlyLonger (begun_of_dayPathExpand dayPathExpand_museumDay) (by
    simp [earlyMuseum, Ordered, durs, isFree])

end PathGenerator

end PPView
