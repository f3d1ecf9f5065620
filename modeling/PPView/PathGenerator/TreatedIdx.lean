import PPView.PathGenerator.CountedIdx

/-!
# When indices that select nothing do no harm

`treats_iff` says exactly when `DayPathExpand` and `DayPathExpandOpt` keep to what exists and do the
same as on the route with all indices put right. Where sessions can be selected, every index that
is used later has been set by the code.
-/

namespace PPView

open NodeJ

namespace PathGenerator

/-! ## Selecting sessions -/

theorem setNodeError_resetIdx (g : PathGenerator) {n : NodeJ} (hn : n.Single) (hidx : n.idxOk) :
    g.resetIdx.setNodeError n.resetIdx = (g.setNodeError n).map (Option.map NodeJ.resetIdx) := by
  have hn' : n.resetIdx.Single := hn
  rw [setNodeError_eq_arrival _ hn', setNodeError_eq_arrival _ hn, arrival_resetIdx]
  cases g.arrival n with
  | none => rfl
  | some stime =>
    simp only [hidx, n.resetIdx_idxOk, if_true, arranged_resetIdx g stime hn]
    rfl

theorem bare_of_setNodeError {g : PathGenerator} {n n' : NodeJ} (hn : n.Single)
    (h : g.setNodeError n = .ok (some n')) : n'.bare = n.bare := by
  rw [setNodeError_eq_arrival g hn] at h
  cases ha : g.arrival n with
  | none => simp [ha] at h
  | some stime =>
    simp only [ha] at h
    split_ifs at h
    obtain rfl : g.arranged stime n = n' := by simpa using h
    rfl

theorem settled_of_bare {n n' : NodeJ} (h : n.Settled) (hbare : n'.bare = n.bare) : n'.Settled := by
  have h : n.bare.Settled := h
  rw [← hbare] at h
  exact h

theorem trySessions_resetIdx {g : PathGenerator} {n : NodeJ} (hn : n.Single) (hx : n.isFixed)
    {js : List Nat} (hjs : ∀ j ∈ js, j < n.times.length) {tmp m : NodeJ} (tmp' : NodeJ) {b : Bool}
    (h : g.trySessions n tmp js = .ok (b, m)) :
    ∃ m', g.resetIdx.trySessions n.resetIdx tmp' js = .ok (b, m') ∧
      (b → m' = m.resetIdx ∧ m.Settled) := by
  induction js generalizing tmp tmp' with
  | nil =>
    obtain ⟨rfl, -⟩ : false = b ∧ tmp = m := by simpa [trySessions, pure, Except.pure] using h
    exact ⟨tmp', rfl, by simp⟩
  | cons j js ih =>
    obtain ⟨hj, hjs⟩ := List.forall_mem_cons.mp hjs
    have hsettled : (n.setRangeIdx j).Settled := settled_session hx hj
    obtain ⟨found, hfound, h⟩ := bind_ok.mp h
    have hreset : g.resetIdx.setNodeError (n.resetIdx.setRangeIdx j) =
        .ok (found.map NodeJ.resetIdx) := by
      rw [resetIdx_setRangeIdx hsettled,
        setNodeError_resetIdx g (single_setRangeIdx hn j) (idxOk_of_fixed hx), hfound]
      rfl
    rw [trySessions, hreset]
    cases found with
    | none =>
      obtain ⟨rfl, -⟩ : false = b ∧ n = m := by simpa [pure, Except.pure] using h
      exact ⟨n.resetIdx, rfl, by simp⟩
    | some trial =>
      simp only [bind, Except.bind, Option.map_some] at h ⊢
      change ∃ m', (if trial.hasFixedConflictError || !trial.isFixedArvOnTime then _ else _) = _ ∧ _
      split_ifs at h ⊢ with hbad
      · exact ih hjs trial.resetIdx h
      · obtain ⟨rfl, rfl⟩ : true = b ∧ trial = m := by simpa [pure, Except.pure] using h
        exact ⟨trial.resetIdx, rfl, fun _ =>
          ⟨rfl, settled_of_bare hsettled (bare_of_setNodeError (single_setRangeIdx hn j) hfound)⟩⟩

def Outcome.resetIdx : Outcome → Outcome
  | .done g => .done g.resetIdx
  | .restart g => .restart g.resetIdx
  | .failed g => .failed g.resetIdx

/-- Every index in a day that was selected has been set. -/
theorem selectNodes_resetIdx (sessions : Nat) {g : PathGenerator} {fixIdx : Nat} {rest : RouteJ}
    {o : Outcome} (hrest : ∀ n ∈ rest, n.checkNodeJ) (hg : ∀ n ∈ g.outRouteJ, n.Settled)
    (h : selectNodes sessions g fixIdx rest = .ok o) :
    selectNodes sessions g.resetIdx fixIdx rest.resetIdx = .ok o.resetIdx ∧
      (∀ g', o = .done g' → ∀ n ∈ g'.outRouteJ, n.Settled) ∧
      ∀ g', o = .restart g' → g'.outRouteJ = [] := by
  induction rest generalizing g fixIdx with
  | nil =>
    obtain rfl : Outcome.done g = o := by simpa [selectNodes, pure, Except.pure] using h
    exact ⟨rfl, fun g' h => by cases h; exact hg, by simp⟩
  | cons n rest ih =>
    obtain ⟨hcheck, hrest⟩ := List.forall_mem_cons.mp hrest
    have hn : n.Single := checkNodeJ_xor hcheck
    have happend {m : NodeJ} (hm : m.Settled) : ∀ n ∈ (g.append m).outRouteJ, n.Settled := by
      simpa [append, or_imp, forall_and] using ⟨hg, hm⟩
    change selectNodes sessions g.resetIdx fixIdx (n.resetIdx :: RouteJ.resetIdx rest) = _ ∧ _
    rw [selectNodes] at h ⊢
    rw [resetIdx_isFree, resetIdx_isFixed]
    cases hx : n.isFixed with
    | false =>
      have hfree := hn.isFree hx
      have hsettled : (n.setRangeIdx (-1)).Settled := settled_free hx
      simp only [hfree, if_true] at h ⊢
      obtain ⟨found, hfound, h⟩ := bind_ok.mp h
      rw [resetIdx_setRangeIdx hsettled, setNodeError_resetIdx g (single_setRangeIdx hn _)
        (idxOk_of_le fun i hi => by
          obtain rfl : -1 = i := by simpa [setRangeIdx] using hi
          exact le_rfl), hfound]
      cases found with
      | none =>
        obtain rfl : Outcome.failed g = o := by simpa [pure, Except.pure] using h
        exact ⟨rfl, by simp, by simp⟩
      | some m =>
        have hm := settled_of_bare hsettled (bare_of_setNodeError (single_setRangeIdx hn _) hfound)
        have := ih hrest (happend hm) h
        rwa [append_resetIdx] at this
    | true =>
      have hfree := hn.not_isFree hx
      simp only [hfree, hx, Bool.false_eq_true, if_false, if_true] at h ⊢
      obtain ⟨⟨success, m⟩, hm, h⟩ := bind_ok.mp h
      obtain ⟨m', hm', hsame⟩ := trySessions_resetIdx hn hx (fun j hj => List.mem_range.mp hj)
        n.resetIdx hm
      have hm' : g.resetIdx.setFixedPoiTimes n.resetIdx = .ok (success, m') := hm'
      rw [hm']
      cases success with
      | false =>
        simp only [bind, Except.bind, Bool.not_false, true_and, if_true] at h ⊢
        split_ifs at h ⊢
        · obtain rfl : Outcome.restart { g with outRouteJ := [] } = o := by
            simpa [pure, Except.pure] using h
          exact ⟨rfl, by simp, fun g' h => by cases h; rfl⟩
        · obtain rfl : Outcome.failed g = o := by simpa [pure, Except.pure] using h
          exact ⟨rfl, by simp, by simp⟩
      | true =>
        obtain ⟨rfl, hm⟩ := hsame rfl
        simp only [bind, Except.bind, Bool.not_true, Bool.false_eq_true, false_and, and_false,
          if_false] at h ⊢
        have := ih hrest (happend hm) h
        rwa [append_resetIdx] at this

theorem startNode_resetIdx {first : NodeJ} (hx : first.isFixed) {t : Nat}
    (ht : t < first.times.length) :
    startNode first.resetIdx t = (startNode first t).resetIdx ∧ (startNode first t).Settled := by
  have hsettled : (startNode first t).Settled := settled_session hx ht
  exact ⟨resetIdx_setRangeIdx (n := { first with time := first.times.getD t (0, 0) }) hsettled,
    hsettled⟩

theorem selectStarts_resetIdx {g g' : PathGenerator} {first : NodeJ} {rest : RouteJ} {ts : List Nat}
    {b : Bool} (hx : first.isFixed) (hrest : ∀ n ∈ rest, n.checkNodeJ) (hout : g.outRouteJ = [])
    (hts : ∀ t ∈ ts, t < first.times.length) (h : selectStarts first rest g ts = .ok (b, g')) :
    selectStarts first.resetIdx rest.resetIdx g.resetIdx ts = .ok (b, g'.resetIdx) ∧
      (b → ∀ n ∈ g'.outRouteJ, n.Settled) := by
  induction ts generalizing g with
  | nil =>
    obtain ⟨rfl, rfl⟩ : true = b ∧ g = g' := by simpa [selectStarts, pure, Except.pure] using h
    exact ⟨rfl, by simp [hout]⟩
  | cons t ts ih =>
    obtain ⟨ht, hts⟩ := List.forall_mem_cons.mp hts
    obtain ⟨hstart, hsettled⟩ := startNode_resetIdx hx ht
    obtain ⟨o, ho, h⟩ := bind_ok.mp h
    obtain ⟨hrun, hdone, hrestart⟩ := selectNodes_resetIdx first.times.length hrest
      (by simpa [append, hout] using hsettled) ho
    rw [append_resetIdx] at hrun
    have htimes : first.resetIdx.times = first.times := rfl
    rw [selectStarts, hstart, htimes, hrun]
    cases o with
    | done g'' =>
      obtain ⟨rfl, rfl⟩ : true = b ∧ g'' = g' := by simpa [pure, Except.pure] using h
      exact ⟨rfl, fun _ => hdone _ rfl⟩
    | restart g'' => exact ih (hrestart _ rfl) hts h
    | failed g'' =>
      obtain ⟨rfl, rfl⟩ : false = b ∧ g'' = g' := by simpa [pure, Except.pure] using h
      exact ⟨rfl, by simp⟩

theorem selectFixedPoiTimes_resetIdx {g g' : PathGenerator} {b : Bool}
    (hr : RouteJ.Valid g.inRouteJ) (hout : g.outRouteJ = [])
    (h : g.selectFixedPoiTimes = .ok (b, g')) :
    g.resetIdx.selectFixedPoiTimes = .ok (b, g'.resetIdx) ∧
      (b → ∀ n ∈ g'.outRouteJ, n.Settled) := by
  obtain ⟨first, mid, last, hin⟩ := hr.exists_eq
  rw [selectFixedPoiTimes, hin] at h
  have hin' : g.resetIdx.inRouteJ = first.resetIdx :: RouteJ.resetIdx (mid ++ [last]) := by
    rw [PathGenerator.resetIdx, hin]
    rfl
  rw [selectFixedPoiTimes, hin']
  rw [hin] at hr
  exact selectStarts_resetIdx (hr.first first (by simp))
    (fun n hn => hr.checkNodeJ (List.mem_cons_of_mem _ hn)) hout
    (fun t ht => List.mem_range.mp ht) h

/-- The route before the re-expansion. -/
theorem baseRoute_resetIdx {g g' : PathGenerator} (hr : RouteJ.Valid g.inRouteJ)
    (hout : g.outRouteJ = []) (hs : g.isSearch = false) (h : g.baseRoute = .ok g') :
    g.resetIdx.baseRoute = .ok g'.resetIdx := by
  obtain ⟨b, g₁, hg₁, hframe, -⟩ := selectFixedPoiTimes_spec hr hout hs
  obtain ⟨hreset, -⟩ := selectFixedPoiTimes_resetIdx hr hout hg₁
  simp only [baseRoute, hg₁, hreset, bind, Except.bind] at h ⊢
  cases b with
  | true =>
    obtain rfl : g₁ = g' := by simpa [pure, Except.pure] using h
    rfl
  | false =>
    obtain ⟨⟨b', g₂⟩, hg₂, h⟩ := bind_ok.mp h
    obtain rfl : g₂ = g' := by simpa [pure, Except.pure] using h
    have hin : ({ g₁ with outRouteJ := [] } : PathGenerator).inRouteJ = g.inRouteJ := by
      rw [hframe]
    have hexpand := dayPathExpand_resetIdx (by rwa [hin]) hg₂
    have hempty : ({ g₁ with outRouteJ := [] } : PathGenerator).resetIdx =
        { g₁.resetIdx with outRouteJ := [] } := rfl
    rw [hempty] at hexpand
    simp only [Bool.false_eq_true, if_false, hexpand]
    rfl

/-! ## The whole function -/

theorem resetIdx_setDefaultError (base : RouteJ) :
    base.resetIdx.map setDefaultError = RouteJ.resetIdx (base.map setDefaultError) := by
  rw [RouteJ.resetIdx, RouteJ.resetIdx, List.map_map, List.map_map]
  rfl

/-- The re-expansion ends, also with the indices put right. -/
theorem exists_reexpand {base : RouteJ} (hbase : RouteJ.Begun base) :
    ∃ out, expandCopy (base.map setDefaultError) = .ok out ∧
      expandCopy (base.resetIdx.map setDefaultError) = .ok out.resetIdx ∧
      (RouteJ.Expanded out ∨ out = []) := by
  obtain ⟨hcheck, hfirst⟩ := begun_setDefaultError hbase
  have hskel : (base.map setDefaultError).map skeleton = base.map skeleton := by
    simp [Function.comp_def]
  rw [resetIdx_setDefaultError]
  by_cases hvalid : RouteJ.Valid (base.map setDefaultError)
  · have hbase : RouteJ.Expanded base := ⟨hvalid.of_skeleton hskel, hbase.scheduled⟩
    obtain ⟨out, hout, hsched, hrearr⟩ := expandCopy_spec hvalid
      ((RouteJ.linked_iff_of_skeleton hskel).mpr hbase.scheduled.linked) fun n hn => by
        obtain ⟨m, hm, rfl⟩ := List.mem_map.mp hn
        exact hbase.idxOk m hm
    refine ⟨out, hout, expandCopy_resetIdx hvalid hout, .inl ⟨hvalid.of_skeleton ?_, hsched⟩⟩
    refine (forall₂_map_eq (fun n n' (h : Rearranged n n') => ?_) hrearr).symm
    rw [← skeleton_bare n', h.bare, skeleton_bare]
  · refine ⟨[], expandCopy_of_not_valid hcheck hfirst hvalid,
      expandCopy_of_not_valid (fun n hn => ?_) (fun n hn => ?_) fun h =>
        hvalid (h.of_skeleton (RouteJ.map_skeleton_resetIdx _)), .inr rfl⟩
    · obtain ⟨m, hm, rfl⟩ := List.mem_map.mp hn
      rw [← checkNodeJ_skeleton, skeleton_resetIdx, checkNodeJ_skeleton]
      exact hcheck m hm
    · rw [RouteJ.resetIdx, List.head?_map] at hn
      obtain ⟨m, hm, rfl⟩ := Option.map_eq_some_iff.mp hn
      exact hfirst m hm

theorem begun_of_selectOpenClose {late : Nat → Nat → Nat → Nat → Bool} {out r' : RouteJ} {b : Bool}
    (hout : RouteJ.Expanded out ∨ out = []) (h : selectOpenClose late out = .ok (b, r')) :
    RouteJ.Begun r' := by
  rcases hout with hout | rfl
  · have hfit := selectOpenClose_refit reschedules_expandCopy hout.valid hout.scheduled
      (fun _ _ => trivial) h
    exact RouteJ.Expanded.begun ⟨hfit.valid hout.valid, hfit.scheduled⟩
  · obtain ⟨-, rfl⟩ : true = b ∧ [] = r' := by
      simpa [selectOpenClose, selectOpenCloseWith, scan, pure, Except.pure] using h
    exact ⟨by simp, by simp, by simp [RouteJ.Scheduled]⟩

theorem dayPathExpandOpt_resetIdx (late : Nat → Nat → Nat → Nat → Bool) {r : RouteJ}
    (controls : Controls) (hr : RouteJ.Valid r) {g₁ : PathGenerator}
    (hbase : (create r controls).baseRoute = .ok g₁) {out : RouteJ}
    (hout : expandCopy (g₁.outRouteJ.map setDefaultError) = .ok out)
    (hcount : ∀ p ∈ counted late out, p.2.Counted) :
    (create r.resetIdx controls).dayPathExpandOpt late =
      ((create r controls).dayPathExpandOpt late).map fun p => (p.1, p.2.resetIdx) := by
  have hin := create_inRouteJ hr controls
  obtain ⟨-, hspec⟩ := baseRoute_spec (by rwa [hin]) rfl rfl hbase
  rw [hin] at hspec
  obtain ⟨out', hout', hreset, hexp⟩ := exists_reexpand (hspec.begun hr)
  obtain rfl : out = out' := by simpa [hout] using hout'
  have hbegun : RouteJ.Begun out := begun_of_expandCopy hout
  have hbase' := baseRoute_resetIdx (by rwa [hin]) rfl rfl hbase
  have hcheck : checkRouteJ (create r controls).resetIdx.inRouteJ = true := by
    have : (create r controls).resetIdx.inRouteJ = r.resetIdx := by
      rw [PathGenerator.resetIdx, hin]
    rw [this]
    exact hr.resetIdx.check
  have hselect := selectOpenClose_resetIdx late hbegun hcount
  have hcontrols : g₁.resetIdx.controls = g₁.controls := rfl
  have houtRoute : g₁.resetIdx.outRouteJ = g₁.outRouteJ.resetIdx := rfl
  unfold selectOpenClose at hselect
  rw [create_resetIdx hr]
  simp only [dayPathExpandOpt, dayPathExpandOptWith, hcheck, hin, hr.check, Bool.not_true,
    Bool.false_eq_true, if_false, hbase, hbase', houtRoute, hout, hreset, hselect, hcontrols, bind,
    Except.bind]
  cases hopen : selectOpenCloseWith expandCopy late out with
  | error e => rfl
  | ok p =>
    obtain ⟨b, opened⟩ := p
    simp only [Except.map]
    split_ifs
    · rfl
    · have henrich := timeEnrich_resetIdx (begun_of_selectOpenClose hexp hopen)
      unfold timeEnrich at henrich
      rw [henrich]
      cases timeEnrichWith expandCopy opened <;> rfl

/-! ## The condition -/

/-- `DayPathExpandOpt` and the constructors it calls use the indices of the route they work on for
what exists only, and the result is that on the route put right. Besides `r` itself these are
the route that selecting sessions or the plain expansion leaves and the variants of stretches. -/
structure OptTreats (late : Nat → Nat → Nat → Nat → Bool) (r : RouteJ) (controls : Controls) :
    Prop where
  ends : r.EndsInRange
  nodes : ∀ g₁, (create r controls).selectFixedPoiTimes = .ok (false, g₁) →
    ∀ n, RouteJ.Reaches r n → n.InRange
  again : ∀ g₁, (create r controls).baseRoute = .ok g₁ → RouteJ.EndsInRange g₁.outRouteJ
  counts : ∀ g₁ out, (create r controls).baseRoute = .ok g₁ →
    expandCopy (g₁.outRouteJ.map setDefaultError) = .ok out →
    ∀ p ∈ counted late out, ∀ v ∈ (variants late p.1 p.2).1, v.Counted
  same : (create r.resetIdx controls).dayPathExpandOpt late =
    ((create r controls).dayPathExpandOpt late).map fun p => (p.1, p.2.resetIdx)

/-- The route and what is left of it before the re-expansion have fixed ends. If no sessions can be
selected, the plain expansion reaches no index below -1, and in the stretches that are counted
there is no index that selects nothing. -/
structure OptReadable (late : Nat → Nat → Nat → Nat → Bool) (r : RouteJ) (controls : Controls) :
    Prop where
  ends : r.FixedEnds
  again : ∀ g₁, (create r controls).baseRoute = .ok g₁ → RouteJ.FixedEnds g₁.outRouteJ
  selected : (∃ g₁, (create r controls).selectFixedPoiTimes = .ok (true, g₁)) ∨
    Readable r ∧ ∀ g₁ out, (create r controls).baseRoute = .ok g₁ →
      expandCopy (g₁.outRouteJ.map setDefaultError) = .ok out →
      ∀ p ∈ counted late out, p.2.Counted

section Condition

variable {late : Nat → Nat → Nat → Nat → Bool} {r : RouteJ} {controls : Controls}

theorem begun_baseRoute (hr : RouteJ.Valid r) {g₁ : PathGenerator}
    (h : (create r controls).baseRoute = .ok g₁) : RouteJ.Begun g₁.outRouteJ := by
  have hin := create_inRouteJ hr controls
  obtain ⟨-, hspec⟩ := baseRoute_spec (by rwa [hin]) rfl rfl h
  rw [hin] at hspec
  exact hspec.begun hr

/-- Selected sessions leave nothing to be counted but what the code has set. -/
theorem counted_of_selected (hr : RouteJ.Valid r) {g₁ : PathGenerator}
    (h : (create r controls).selectFixedPoiTimes = .ok (true, g₁)) {out : RouteJ}
    (hout : expandCopy (g₁.outRouteJ.map setDefaultError) = .ok out) :
    ∀ p ∈ counted late out, p.2.Counted := by
  have hin := create_inRouteJ hr controls
  obtain ⟨-, hsettled⟩ := selectFixedPoiTimes_resetIdx (by rwa [hin]) rfl h
  have hbase : (create r controls).baseRoute = .ok g₁ := by
    simp only [baseRoute, h, bind, Except.bind]
    rfl
  have hbegun := begun_baseRoute hr hbase
  have hout' : RouteJ.Begun out := begun_of_expandCopy hout
  intro p hp n hn
  obtain ⟨-, hmem⟩ := mem_counted hout' hp
  obtain ⟨hcheck, hfirst⟩ := begun_setDefaultError hbegun
  have hn' : n ∈ out := hmem n hn
  rcases valid_or_nil hcheck hfirst hout with hvalid | rfl
  · have hbare := (pass_of_expandCopy hvalid hout).bare
    obtain ⟨m, hm, heq⟩ := List.mem_map.mp (hbare ▸ List.mem_map_of_mem hn')
    obtain ⟨m, hmem', rfl⟩ := List.mem_map.mp (List.mem_of_mem_take hm)
    have hset : m.setDefaultError.Settled := hsettled rfl m hmem'
    exact (settled_of_bare hset heq.symm).countInRange (checkNodeJ_xor (hout'.check n hn'))
  · simp at hn'

theorem exists_baseRoute (hr : RouteJ.Valid r)
    (h : (∃ g₁, (create r controls).selectFixedPoiTimes = .ok (true, g₁)) ∨ Readable r) :
    ∃ g₁, (create r controls).baseRoute = .ok g₁ := by
  have hin := create_inRouteJ hr controls
  obtain ⟨b, g₁, hg₁, hframe, -⟩ := selectFixedPoiTimes_spec (g := create r controls)
    (by rwa [hin]) rfl rfl
  simp only [baseRoute, hg₁, bind, Except.bind]
  cases b with
  | true => exact ⟨g₁, rfl⟩
  | false =>
    have hread : Readable r := by
      refine h.resolve_left fun hdone => ?_
      obtain ⟨g, hg⟩ := hdone
      simp [hg₁] at hg
    obtain ⟨b, g₂, hg₂⟩ := exists_dayPathExpand controls hr ((readable_iff hr.check).mp hread).2
    have hempty : ({ g₁ with outRouteJ := [] } : PathGenerator) = create r controls := by
      rw [hframe]
      rfl
    simp only [Bool.false_eq_true, if_false, hempty, hg₂]
    exact ⟨g₂, rfl⟩

theorem optTreats_iff (hr : checkRouteJ r) :
    OptTreats late r controls ↔ OptReadable late r controls := by
  have hcheck : ∀ n ∈ r, n.checkNodeJ := fun n hn => checkNodeJ_of_check hr hn
  constructor
  · intro h
    have hends := (RouteJ.endsInRange_iff hcheck).mp h.ends
    have hvalid := (RouteJ.valid_iff hr).mpr hends
    refine ⟨hends, fun g₁ hg₁ => ?_, ?_⟩
    · exact (RouteJ.endsInRange_iff (begun_baseRoute hvalid hg₁).check).mp (h.again g₁ hg₁)
    · have hin := create_inRouteJ hvalid controls
      obtain ⟨b, g₁, hg₁, -⟩ := selectFixedPoiTimes_spec (g := create r controls) (by rwa [hin])
        rfl rfl
      cases b with
      | true => exact .inl ⟨g₁, hg₁⟩
      | false =>
        refine .inr ⟨(readable_iff hr).mpr ⟨hends, h.nodes g₁ hg₁⟩, fun g out hg hout p hp => ?_⟩
        obtain ⟨hexp, -⟩ := mem_counted (begun_of_expandCopy hout) hp
        exact (variants_counted_iff late hexp p.1).mp (h.counts g out hg hout p hp)
  · intro h
    have hvalid := (RouteJ.valid_iff hr).mpr h.ends
    have hcount (g out) (hg : (create r controls).baseRoute = .ok g)
        (hout : expandCopy (g.outRouteJ.map setDefaultError) = .ok out) :
        ∀ p ∈ counted late out, p.2.Counted := by
      rcases h.selected with ⟨g₁, hg₁⟩ | ⟨-, hcount⟩
      · obtain rfl : g₁ = g := by
          simpa [baseRoute, hg₁, bind, Except.bind, pure, Except.pure] using hg
        exact counted_of_selected hvalid hg₁ hout
      · exact hcount g out hg hout
    refine ⟨(RouteJ.endsInRange_iff hcheck).mpr h.ends, fun g₁ hg₁ => ?_, fun g₁ hg₁ => ?_,
      fun g out hg hout p hp => ?_, ?_⟩
    · rcases h.selected with ⟨g, hg⟩ | ⟨hread, -⟩
      · simp [hg] at hg₁
      · exact ((readable_iff hr).mp hread).2
    · exact (RouteJ.endsInRange_iff (begun_baseRoute hvalid hg₁).check).mpr (h.again g₁ hg₁)
    · obtain ⟨hexp, -⟩ := mem_counted (begun_of_expandCopy hout) hp
      exact (variants_counted_iff late hexp p.1).mpr (hcount g out hg hout p hp)
    · obtain ⟨g₁, hg₁⟩ := exists_baseRoute hvalid (h.selected.imp_right And.left)
      obtain ⟨out, hout, -⟩ := exists_reexpand (begun_baseRoute hvalid hg₁)
      exact dayPathExpandOpt_resetIdx late controls hvalid hg₁ hout (hcount g₁ out hg₁ hout)

end Condition

/-- Both functions do with the indices of the request what they do with those put right, and keep to
what exists, exactly on the routes of the two conditions. -/
theorem treats_iff (late : Nat → Nat → Nat → Nat → Bool) {r : RouteJ} (controls : Controls)
    (hr : checkRouteJ r) :
    (ExpandTreats r controls ↔ Readable r) ∧
      (OptTreats late r controls ↔ OptReadable late r controls) :=
  ⟨expandTreats_iff controls hr, optTreats_iff hr⟩

theorem treats_iff_museumDay :
    (ExpandTreats museumDay {} ↔ Readable museumDay) ∧
      (OptTreats (fun _ _ _ _ => false) museumDay {} ↔
        OptReadable (fun _ _ _ _ => false) museumDay {}) :=
  treats_iff _ {} museumDay_valid.check

/-- `museumDay` with an index below -1 in the request. -/
def minusTwoDay : RouteJ :=
  [{ id := some "hotel", toNext := some [("museum", 1800)]
     fixed := some ⟨some [(0, 28800)], some 0⟩ },
   { id := some "museum", toNext := some [("inn", 1800)]
     free := some ⟨some [(32400, 64800)], some ⟨3600, 5400, 7200⟩⟩, rangeIdx := some (-2) },
   { id := some "inn", toNext := some []
     fixed := some ⟨some [(72000, 86400)], some 0⟩ }]

/-- The index is used as it is. -/
theorem not_expandTreats : (create minusTwoDay).dayPathExpand = .error .negativeIndex ∧
    ¬ ∀ (late : Nat → Nat → Nat → Nat → Bool) (r : RouteJ) (controls : Controls), checkRouteJ r →
      ExpandTreats r controls ∧ OptTreats late r controls := by
  have hrun : (create minusTwoDay).dayPathExpand = .error .negativeIndex := by decide +kernel
  refine ⟨hrun, fun h => ?_⟩
  obtain ⟨b, g', hg', -⟩ := (h (fun _ _ _ _ => false) minusTwoDay {} (by decide +kernel)).1.same
  simp [hrun] at hg'

end PathGenerator

end PPView
