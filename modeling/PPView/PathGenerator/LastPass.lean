import Mathlib.Data.List.ReduceOption
import PPView.PathGenerator.ClosedFlag
import PPView.PathGenerator.StretchMarks

/-!
# The last pass over a stretch

The flags that a stretch is returned with were written by the pass that laid it out last, so they
depend on the route from which that pass started. `lastPasses` follows these routes through the
loops of `selectOpenClose` and `TimeEnrich`, and `flagExact_dayPathExpandOpt_iff` says that the
closed flags of the day are right if and only if none of them has a node to reopen.
-/

namespace PPView

open NodeJ

namespace PathGenerator

/-- The flags 4 of a route whose last pass started from `origin`, if there was one since all flags
were cleared. -/
def LaidOut (origin : Option RouteJ) (r : RouteJ) : Prop :=
  (∀ n ∈ r, n.FlagExact) ↔ ∀ t ∈ origin, reopens t = false

theorem flagExact_of_isFixed {n : NodeJ} (hn : n.checkNodeJ) (hx : n.isFixed) : n.FlagExact :=
  fun hfree => absurd hfree (by simp [NodeJ.Single.not_isFree (checkNodeJ_xor hn) hx])

theorem laidOut_trial {seg temp trial temp' : RouteJ} (hseg : RouteJ.Valid seg)
    (hfit : Refit (fun _ => True) seg temp) (hcore : trial.map core = temp.map core)
    (h : expandCopy trial = .ok temp') : LaidOut (some trial) temp' := by
  obtain ⟨hvalid, hlinked⟩ := valid_linked_of_core hseg hfit hcore
  simpa [LaidOut] using flagExact_iff hvalid hlinked h

/-! ## Selecting intervals -/

/-- A variant of a stretch with the start of the last pass over it. -/
structure Variant where
  route : RouteJ
  origin : Option RouteJ

/-- The trial with which the loop over the intervals of node `j` finds a variant. Failed trials
are passed on with the flags they have raised. -/
def openedFrom (j : Nat) : RouteJ → List Nat → RouteJ
  | tempRouteJ, [] => tempRouteJ
  | tempRouteJ, z :: zs =>
    let trial := tempRouteJ.modify j fun nodeJ => nodeJ.setDefaultError.setRangeIdx z
    match expandCopy trial with
    | .error _ => trial
    | .ok tempRouteJ =>
      match (tempRouteJ.getD j default).isOpen z with
      | .ok false => openedFrom j tempRouteJ zs
      | _ => trial

section Select

variable (late : Nat → Nat → Nat → Nat → Bool)

/-- `extendVariants` on variants with their origins. -/
def extendFrom (i j : Nat) : Nat → List Variant → List Variant
  | _, [] => []
  | k, v :: more =>
    let zs := List.range (v.route.getD j default).openClose.length
    match tryOpens expandCopy late i j k v.route zs with
    | .error _ => []
    | .ok (opened, timeOut) =>
      v :: (opened.toList.map fun r => ⟨r, some (openedFrom j v.route zs)⟩) ++
        if timeOut then [] else extendFrom i j (k + 1) more

/-- `buildVariants` on variants with their origins. -/
def buildFrom (i : Nat) : List Variant → List Nat → List Variant
  | vs, [] => vs
  | vs, j :: js =>
    match extendVariants expandCopy late i j 0 (vs.map Variant.route) with
    | .ok (_, false) => buildFrom i (extendFrom late i j 0 vs) js
    | _ => extendFrom late i j 0 vs

/-- `pickVariant` on variants with their origins. -/
def pickFrom : (maxCount : Int) → (select : Variant) → List Variant → Variant
  | _, select, [] => select
  | maxCount, select, v :: more =>
    match countOpenClose v.route with
    | .error _ => select
    | .ok b =>
      if (b.length : Int) > maxCount then pickFrom b.length v more
      else pickFrom maxCount select more

/-- The start of the last pass over the stretch that ends at `i` after selecting intervals. -/
def openFrom (i : Nat) (_ : Unit) (seg : RouteJ) (origin : Option RouteJ) : Option RouteJ :=
  let vs := buildFrom late i [⟨seg, origin⟩] (List.range' 1 (seg.length - 1))
  (pickFrom (-1) (vs.getLastD ⟨[], none⟩) vs.reverse).origin

variable {late} {seg : RouteJ}

/-- What holds of every variant of the stretch `seg`. -/
structure Variant.Of (seg : RouteJ) (v : Variant) : Prop where
  refit : Refit (fun _ => True) seg v.route
  laidOut : LaidOut v.origin v.route

theorem laidOut_openedFrom {i j k : Nat} {temp opened : RouteJ} {zs : List Nat} {b : Bool}
    (hseg : RouteJ.Valid seg) (hfit : Refit (fun _ => True) seg temp)
    (hfree : zs ≠ [] → ∀ n, seg[j]? = some n → n.isFixed = false)
    (h : tryOpens expandCopy late i j k temp zs = .ok (some opened, b)) :
    LaidOut (some (openedFrom j temp zs)) opened := by
  induction zs generalizing temp with
  | nil => simp [tryOpens, pure, Except.pure] at h
  | cons z zs ih =>
    have hcore : (temp.modify j fun nodeJ => nodeJ.setDefaultError.setRangeIdx z).map core =
        temp.map core := map_core_modify fun n hn => by
      obtain ⟨m, hm, hmn⟩ := hfit.isFixed_eq hn
      exact core_eq_of_skeleton rfl (hmn ▸ hfree (List.cons_ne_nil z zs) m hm)
    obtain ⟨temp', htemp', h⟩ := bind_ok.mp h
    simp only [openedFrom, htemp']
    split at h
    · simp [pure, Except.pure] at h
    · obtain ⟨isOpen, hopen, h⟩ := bind_ok.mp h
      rw [hopen]
      cases isOpen with
      | true =>
        obtain ⟨rfl, -⟩ : temp' = opened ∧ false = b := by simpa [pure, Except.pure] using h
        exact laidOut_trial hseg hfit hcore htemp'
      | false =>
        rw [if_neg Bool.false_ne_true] at h
        split at h
        · simp [pure, Except.pure] at h
        · exact ih (reschedules_expandCopy.refit_trial hseg hfit hcore htemp')
            (fun _ => hfree (List.cons_ne_nil z zs)) h

theorem extendFrom_spec {i j k : Nat} {vs : List Variant} {vs' : List RouteJ} {b : Bool}
    (hseg : RouteJ.Valid seg) (hvs : ∀ v ∈ vs, v.Of seg)
    (h : extendVariants expandCopy late i j k (vs.map Variant.route) = .ok (vs', b)) :
    (extendFrom late i j k vs).map Variant.route = vs' ∧
      ∀ v ∈ extendFrom late i j k vs, v.Of seg := by
  induction vs generalizing k vs' b with
  | nil =>
    obtain ⟨rfl, -⟩ : [] = vs' ∧ false = b := by simpa [extendVariants, pure, Except.pure] using h
    simp [extendFrom]
  | cons v more ih =>
    obtain ⟨hv, hmore⟩ := List.forall_mem_cons.mp hvs
    obtain ⟨opened, timeOut, hopen, hvs'⟩ := extendVariants_cons h
    have hfree (hne : List.range (v.route.getD j default).openClose.length ≠ []) (n : NodeJ)
        (hn : seg[j]? = some n) : n.isFixed = false :=
      hv.refit.isFixed_of_openClose hseg hn (by simpa using hne)
    have hnew : ∀ w ∈ v :: (opened.toList.map fun r => (⟨r, some (openedFrom j v.route
        (List.range (v.route.getD j default).openClose.length))⟩ : Variant)), w.Of seg := by
      refine List.forall_mem_cons.mpr ⟨hv, fun w hw => ?_⟩
      obtain ⟨r, hr, rfl⟩ := List.mem_map.mp hw
      rw [Option.mem_toList] at hr
      rw [Option.mem_def.mp hr] at hopen
      exact ⟨tryOpens_refit reschedules_expandCopy hseg hv.refit hfree hopen,
        laidOut_openedFrom hseg hv.refit hfree hopen⟩
    rcases hvs' with ⟨rfl, -, rfl⟩ | ⟨rfl, rest, hrest, rfl⟩
    · simp only [extendFrom, hopen, if_true, List.append_nil]
      exact ⟨by simp [Function.comp_def], hnew⟩
    · obtain ⟨hmap, hall⟩ := ih hmore hrest
      simp only [extendFrom, hopen, Bool.false_eq_true, if_false]
      exact ⟨by simp [hmap, Function.comp_def], List.forall_mem_append.mpr ⟨hnew, hall⟩⟩

theorem buildFrom_spec {i : Nat} {js : List Nat} {vs : List Variant} {vs' : List RouteJ} {b : Bool}
    (hseg : RouteJ.Valid seg) (hvs : ∀ v ∈ vs, v.Of seg)
    (h : buildVariants expandCopy late i (vs.map Variant.route) js = .ok (vs', b)) :
    (buildFrom late i vs js).map Variant.route = vs' ∧
      ∀ v ∈ buildFrom late i vs js, v.Of seg := by
  induction js generalizing vs with
  | nil =>
    obtain ⟨rfl, -⟩ : vs.map Variant.route = vs' ∧ false = b := by
      simpa [buildVariants, pure, Except.pure] using h
    exact ⟨rfl, hvs⟩
  | cons j js ih =>
    obtain ⟨⟨vs'', timeOut⟩, hvs'', h⟩ := bind_ok.mp h
    obtain ⟨hmap, hall⟩ := extendFrom_spec hseg hvs hvs''
    cases timeOut with
    | true =>
      obtain ⟨rfl, -⟩ : vs'' = vs' ∧ true = b := by simpa [pure, Except.pure] using h
      simp only [buildFrom, hvs'']
      exact ⟨hmap, hall⟩
    | false =>
      simp only [buildFrom, hvs'']
      exact ih hall (hmap ▸ h)

theorem pickFrom_spec {maxCount : Int} {select : Variant} {vs : List Variant} {r : RouteJ}
    (h : pickVariant maxCount select.route (vs.map Variant.route) = .ok r) :
    (pickFrom maxCount select vs).route = r ∧ pickFrom maxCount select vs ∈ select :: vs := by
  induction vs generalizing maxCount select with
  | nil => simpa [pickVariant, pickFrom, pure, Except.pure] using h
  | cons v vs ih =>
    obtain ⟨b, hb, h⟩ := bind_ok.mp h
    simp only [pickFrom, hb]
    split at h
    · rename_i hmore
      rw [if_pos hmore]
      exact (ih h).imp_right (List.mem_cons_of_mem select)
    · rename_i hmore
      rw [if_neg hmore]
      obtain ⟨hroute, hmem⟩ := ih h
      exact ⟨hroute, List.cons_subset_cons select (List.subset_cons_self v vs) hmem⟩

theorem laidOut_openFrom {i : Nat} {origin : Option RouteJ} {seg' : RouteJ} {s : Unit} {b : Bool}
    (hseg : RouteJ.Expanded seg) (h : LaidOut origin seg)
    (hrun : openStretch expandCopy late i () seg = .ok (s, b, seg')) :
    LaidOut (openFrom late i () seg origin) seg' := by
  obtain ⟨⟨vs', timeOut⟩, hvs', hrun⟩ := bind_ok.mp hrun
  obtain ⟨picked, hpick, hrun⟩ := bind_ok.mp hrun
  obtain ⟨-, rfl⟩ : timeOut = b ∧ picked = seg' := by simpa [pure, Except.pure] using hrun
  have hfirst : ∀ v ∈ [(⟨seg, origin⟩ : Variant)], v.Of seg := by
    simpa using ⟨.refl hseg.scheduled fun _ _ => trivial, h⟩
  obtain ⟨hmap, hall⟩ := buildFrom_spec hseg.valid hfirst hvs'
  have hne : vs' ≠ [] := buildVariants_ne_nil (List.cons_ne_nil seg []) hvs'
  simp only [openFrom]
  generalize buildFrom late i [⟨seg, origin⟩] (List.range' 1 (seg.length - 1)) = vs at hmap hall
  have hvs : vs ≠ [] := by
    rintro rfl
    exact hne hmap.symm
  have hlast : vs.getLastD ⟨[], none⟩ = vs.getLast hvs := by
    rw [List.getLastD_eq_getLast?, List.getLast?_eq_some_getLast hvs, Option.getD_some]
  rw [hlast]
  have hlast' : vs'.getLastD [] = (vs.getLast hvs).route := by
    rw [List.getLastD_eq_getLast?, ← hmap, List.getLast?_map, List.getLast?_eq_some_getLast hvs]
    rfl
  rw [hlast', ← hmap, ← List.map_reverse] at hpick
  obtain ⟨hroute, hmem⟩ := pickFrom_spec hpick
  have hof : (pickFrom (-1) (vs.getLast hvs) vs.reverse).Of seg := by
    rcases List.mem_cons.mp hmem with heq | hmem
    · rw [heq]
      exact hall _ (List.getLast_mem hvs)
    · exact hall _ (List.mem_reverse.mp hmem)
  exact hroute ▸ hof.laidOut

end Select

/-! ## Enriching the stays -/

/-- The route that step `u` at node `j` expands, if it keeps the outcome. -/
def keptTrial (u : Nat) (state : (Nat → Bool) × RouteJ) (j : Nat) : Option RouteJ :=
  let (vis, tempRouteJ) := state
  let curNode := tempRouteJ.getD j default
  if curNode.isFree && !vis j && stepTime u curNode.durs != 0 then
    match expandCopy (trial u tempRouteJ j) with
    | .error _ => none
    | .ok resultRouteJ =>
      if errorCount resultRouteJ > errorCount tempRouteJ then none else some (trial u tempRouteJ j)
  else none

/-- The start of the last pass that the steps keep. -/
def stepsFrom : List (Nat × Nat) → (Nat → Bool) × RouteJ → Option RouteJ → Option RouteJ
  | [], _, origin => origin
  | (u, j) :: steps, state, origin =>
    match enrichNode expandCopy u state j with
    | .error _ => origin
    | .ok state' => stepsFrom steps state' ((keptTrial u state j).or origin)

def enrichFrom (_ : Nat) (vis : Nat → Bool) (seg : RouteJ) (origin : Option RouteJ) :
    Option RouteJ :=
  stepsFrom (enrichLoop seg.length) (vis, seg) origin

theorem keptTrial_spec {u j : Nat} {vis : Nat → Bool} {temp : RouteJ}
    {s' : (Nat → Bool) × RouteJ} (h : enrichNode expandCopy u (vis, temp) j = .ok s') :
    keptTrial u (vis, temp) j = none ∧ s'.2 = temp ∨
      keptTrial u (vis, temp) j = some (trial u temp j) ∧
        (temp.getD j default).isFree ∧ expandCopy (trial u temp j) = .ok s'.2 := by
  have hskip (hzero : stepTime u (temp.getD j default).durs = 0) :
      keptTrial u (vis, temp) j = none := by
    simp only [keptTrial, hzero, bne_self_eq_false, Bool.and_false, Bool.false_eq_true, if_false]
  simp only [enrichNode] at h
  split at h
  · rename_i hfree
    split at h
    · rename_i hsame
      obtain rfl : _ = s' := by simpa [pure, Except.pure] using h
      refine .inl ⟨hskip ?_, rfl⟩
      rw [stepTime, hsame.1, Int.sub_self, Int.zero_tdiv, Int.zero_tdiv, Int.zero_mul]
    · split at h
      · rename_i hzero
        obtain rfl : _ = s' := by simpa [pure, Except.pure] using h
        exact .inl ⟨hskip hzero, rfl⟩
      · rename_i hzero
        obtain ⟨result, hresult, h⟩ := bind_ok.mp h
        have hresult : expandCopy (trial u temp j) = .ok result := hresult
        have hkept : keptTrial u (vis, temp) j =
            if errorCount result > errorCount temp then none else some (trial u temp j) := by
          simp only [keptTrial, hfree, Bool.true_and, hresult]
          exact if_pos (bne_iff_ne.mpr hzero)
        rw [hkept]
        split_ifs at h ⊢
        · obtain rfl : _ = s' := by simpa [pure, Except.pure] using h
          exact .inl ⟨rfl, rfl⟩
        · obtain rfl : _ = s' := by simpa [pure, Except.pure] using h
          exact .inr ⟨rfl, (Bool.and_eq_true_iff.mp hfree).1, hresult⟩
  · rename_i hfree
    obtain rfl : _ = s' := by simpa [pure, Except.pure] using h
    refine .inl ⟨?_, rfl⟩
    simp only [keptTrial, Bool.eq_false_of_not_eq_true hfree, Bool.false_and]
    rfl

theorem laidOut_stepsFrom {seg : RouteJ} (hseg : RouteJ.Valid seg) {steps : List (Nat × Nat)}
    {s s' : (Nat → Bool) × RouteJ} {origin : Option RouteJ}
    (hfit : Refit (fun _ => True) seg s.2) (h : LaidOut origin s.2)
    (hrun : steps.foldlM enrichAt s = .ok s') : LaidOut (stepsFrom steps s origin) s'.2 := by
  induction steps generalizing s origin with
  | nil =>
    obtain rfl : s = s' := by simpa [pure, Except.pure] using hrun
    exact h
  | cons p steps ih =>
    obtain ⟨u, j⟩ := p
    obtain ⟨vis, temp⟩ := s
    rw [List.foldlM_cons] at hrun
    obtain ⟨s₁, hstep, hrun⟩ := bind_ok.mp hrun
    have hstep : enrichNode expandCopy u (vis, temp) j = .ok s₁ := hstep
    simp only [stepsFrom, hstep]
    refine ih (enrichNode_refit reschedules_expandCopy hseg hfit hstep) ?_ hrun
    rcases keptTrial_spec hstep with ⟨hnone, hsame⟩ | ⟨hsome, hfree, hexp⟩
    · rw [hnone, Option.none_or, hsame]
      exact h
    · rw [hsome, Option.some_or]
      exact laidOut_trial hseg hfit (map_core_setDurs (hfit.valid hseg) hfree _ _ _) hexp

theorem laidOut_enrichFrom {seg seg' : RouteJ} {i : Nat} {vis vis' : Nat → Bool}
    {origin : Option RouteJ} {b : Bool} (hseg : RouteJ.Expanded seg) (h : LaidOut origin seg)
    (hrun : enrichStretch expandCopy i vis seg = .ok (vis', b, seg')) :
    LaidOut (enrichFrom i vis seg origin) seg' := by
  rw [enrichStretch_eq] at hrun
  obtain ⟨⟨vis'', temp⟩, hfold, hrun⟩ := bind_ok.mp hrun
  obtain ⟨-, -, rfl⟩ : vis'' = vis' ∧ false = b ∧ temp = seg' := by
    simpa [pure, Except.pure] using hrun
  exact laidOut_stepsFrom hseg.valid (.refl hseg.scheduled fun _ _ => trivial) h hfold

/-! ## The walk -/

section Walk

variable {σ : Type} (halt : NodeJ → Bool) (f : Nat → σ → RouteJ → Res (σ × Bool × RouteJ))
  (src : Nat → σ → RouteJ → Option RouteJ → Option RouteJ)

/-- The origins of the stretches that end in `rest`, from node number `i` on, after `scan` has gone
over them; `src` gives that of a stretch on which `f` has worked. -/
def walkFrom : σ → (i : Nat) → (cur rest : RouteJ) → List (Option RouteJ) → List (Option RouteJ)
  | s, i, cur, node :: rest, w :: ws =>
    if halt node then w :: ws
    else if node.isFixed then
      if cur.length > 1 then
        src i s (cur ++ [node]) w :: match f i s (cur ++ [node]) with
          | .ok (s, false, _) => walkFrom s (i + 1) [node] rest ws
          | _ => ws
      else w :: walkFrom s (i + 1) [node] rest ws
    else walkFrom s (i + 1) (cur ++ [node]) rest (w :: ws)
  | _, _, _, _, ws => ws

/-- The origins of all stretches of a route. -/
def scanFrom (s : σ) : RouteJ → List (Option RouteJ) → List (Option RouteJ)
  | [], ws => ws
  | first :: rest, ws => if halt first then ws else walkFrom halt f src s 1 [first] rest ws

variable {halt f src} {x : NodeJ} {rest : RouteJ} {ws : List (Option RouteJ)}

theorem walkFrom_nil (s : σ) (i : Nat) (cur rest : RouteJ) :
    walkFrom halt f src s i cur rest [] = [] := by
  cases rest <;> rfl

theorem walkFrom_of_halt {node : NodeJ} (h : halt node) (s : σ) (i : Nat) (cur : RouteJ) :
    walkFrom halt f src s i cur (node :: rest) ws = ws := by
  cases ws with
  | nil => rfl
  | cons w ws => rw [walkFrom, if_pos h]

theorem walkFrom_of_not_isFixed {node : NodeJ} (hhalt : ¬ halt node) (hx : ¬ node.isFixed) (s : σ)
    (i : Nat) (cur : RouteJ) : walkFrom halt f src s i cur (node :: rest) ws =
      walkFrom halt f src s (i + 1) (cur ++ [node]) rest ws := by
  cases ws with
  | nil => rw [walkFrom_nil, walkFrom_nil]
  | cons w ws => rw [walkFrom, if_neg hhalt, if_neg hx]

/-- The ends of a stretch are not written back, and have no closed flag. -/
theorem LaidOut.splice {origin : Option RouteJ} {y x' y' : NodeJ} {mid mid' : RouteJ}
    (hseg : RouteJ.Valid (x :: (mid ++ [y])))
    (hfit : Refit (fun _ => True) (x :: (mid ++ [y])) (x' :: (mid' ++ [y'])))
    (h : LaidOut origin (x' :: (mid' ++ [y']))) : LaidOut origin (x :: (mid' ++ [y])) := by
  have hends {x y : NodeJ} {mid : RouteJ} (hv : RouteJ.Valid (x :: (mid ++ [y]))) :
      x.FlagExact ∧ y.FlagExact := by
    have hlast : y ∈ (x :: (mid ++ [y])).getLast? := by
      rw [← List.cons_append, List.getLast?_concat]
      rfl
    exact ⟨flagExact_of_isFixed (hv.checkNodeJ (by simp)) (hv.first x rfl),
      flagExact_of_isFixed (hv.checkNodeJ (by simp)) (hv.last y hlast)⟩
  obtain ⟨hx, hy⟩ := hends hseg
  obtain ⟨hx', hy'⟩ := hends (hfit.valid hseg)
  unfold LaidOut at h ⊢
  rw [← h]
  simp only [List.forall_mem_cons, List.forall_mem_append, List.not_mem_nil, false_imp_iff,
    implies_true, hx, hy, hx', hy']

/-- What the work on one stretch has to meet. -/
structure Tracks (f : Nat → σ → RouteJ → Res (σ × Bool × RouteJ))
    (src : Nat → σ → RouteJ → Option RouteJ → Option RouteJ) : Prop where
  refit : ∀ i s seg s' stop seg', RouteJ.Expanded seg → f i s seg = .ok (s', stop, seg') →
    Refit (fun _ => True) seg seg'
  laidOut : ∀ i s seg w s' stop seg', RouteJ.Expanded seg → LaidOut w seg →
    f i s seg = .ok (s', stop, seg') → LaidOut (src i s seg w) seg'

theorem walkFrom_spec (hf : Tracks f src) {s : σ} {before r' : RouteJ} {b : Bool} (mid : RouteJ)
    (hx : x.isFixed) (hmid : ∀ n ∈ mid, n.isFixed = false)
    (hcheck : ∀ n ∈ x :: (mid ++ rest), n.checkNodeJ) (hs : RouteJ.Scheduled (x :: (mid ++ rest)))
    (hws : List.Forall₂ LaidOut ws (RouteJ.stretchesFrom (x :: mid) rest))
    (h : scan halt f s before (x :: mid) rest = .ok (b, r')) :
    ∃ tail, r' = before ++ x :: tail ∧
      List.Forall₂ LaidOut (walkFrom halt f src s (before.length + (x :: mid).length) (x :: mid)
        rest ws) (RouteJ.stretches (x :: tail)) := by
  induction rest generalizing s before mid x ws with
  | nil =>
    obtain ⟨-, rfl⟩ : true = b ∧ before ++ x :: mid = r' := by
      simpa [scan, pure, Except.pure] using h
    cases hws
    rw [walkFrom_nil]
    refine ⟨mid, rfl, ?_⟩
    rw [← List.append_nil mid, RouteJ.stretches_cons_append hmid]
    exact .nil
  | cons node rest ih =>
    unfold scan at h
    split_ifs at h with hhalt hy hlen
    · obtain ⟨-, rfl⟩ : false = b ∧ before ++ x :: mid ++ node :: rest = r' := by
        simpa [pure, Except.pure] using h
      rw [walkFrom_of_halt hhalt]
      refine ⟨mid ++ node :: rest, by simp, ?_⟩
      rwa [RouteJ.stretches_cons_append hmid]
    · -- the end of a stretch with something inside
      obtain ⟨hseg, hcheck', hs'⟩ := RouteJ.expanded_stretch hx hy hcheck hs
      rw [RouteJ.stretchesFrom_cons_of_isFixed hy] at hws
      obtain _ | @⟨w, _, ws, _, hw, hws⟩ := hws
      obtain ⟨⟨s', stop, seg'⟩, hwork, h⟩ := bind_ok.mp h
      have hfit := hf.refit _ _ _ _ _ _ hseg hwork
      have hout := hf.laidOut _ _ _ _ _ _ _ hseg hw hwork
      obtain ⟨x', mid', y', rfl, -, hcore, -⟩ := hfit.exists_eq
      have hmid' : ∀ n ∈ mid', n.isFixed = false := by
        intro n hn
        obtain ⟨m, hm, hmn⟩ := List.mem_map.mp (hcore ▸ List.mem_map_of_mem hn)
        rw [← isFixed_eq_of_skeleton (skeleton_eq_of_core hmn), hmid m hm]
      have hlength : mid'.length = mid.length := by simpa using congrArg List.length hcore
      simp only [splice_eq hlength] at h
      have hnew := hout.splice hseg.valid hfit
      rw [walkFrom, if_neg hhalt, if_pos hy, if_pos hlen, hwork]
      cases stop with
      | true =>
        obtain ⟨-, rfl⟩ : true = b ∧ before ++ x :: mid' ++ node :: rest = r' := by
          simpa [pure, Except.pure] using h
        refine ⟨mid' ++ node :: rest, by simp, ?_⟩
        rw [RouteJ.stretches_cons_append_cons hmid' hy]
        exact .cons hnew hws
      | false =>
        obtain ⟨tail, rfl, htail⟩ := ih [] hy (by simp) hcheck' hs' hws h
        refine ⟨mid' ++ node :: tail, by simp, ?_⟩
        rw [RouteJ.stretches_cons_append_cons hmid' hy]
        simp only [List.length_append, List.length_cons, List.length_nil, hlength] at htail ⊢
        exact .cons hnew htail
    · -- two fixed nodes next to each other
      obtain rfl : mid = [] := by simpa using hlen
      obtain ⟨-, hcheck', hs'⟩ := RouteJ.expanded_stretch hx hy hcheck hs
      rw [RouteJ.stretchesFrom_cons_of_isFixed hy] at hws
      obtain _ | @⟨w, _, ws, _, hw, hws⟩ := hws
      obtain ⟨tail, rfl, htail⟩ := ih [] hy (by simp) hcheck' hs' hws h
      rw [walkFrom, if_neg hhalt, if_pos hy, if_neg hlen]
      refine ⟨node :: tail, by simp, ?_⟩
      rw [← List.nil_append (node :: tail), RouteJ.stretches_cons_append_cons (by simp) hy]
      simp only [List.length_append, List.length_cons, List.length_nil] at htail ⊢
      exact .cons hw htail
    · rw [RouteJ.stretchesFrom_cons_of_not_isFixed hy] at hws
      obtain ⟨tail, rfl, htail⟩ := ih (mid ++ [node]) hx
        (List.forall_mem_append.mpr ⟨hmid, by simpa using hy⟩) (by simpa using hcheck)
        (by simpa using hs) hws h
      refine ⟨tail, rfl, ?_⟩
      rw [walkFrom_of_not_isFixed hhalt hy]
      simpa [Nat.add_assoc] using htail

/-- The route `r` between two of its walks, with the origins of its stretches. -/
structure Tracked (ws : List (Option RouteJ)) (r : RouteJ) : Prop where
  expanded : RouteJ.Expanded r ∨ r = []
  laidOut : List.Forall₂ LaidOut ws r.stretches

theorem scanFrom_spec (hf : Tracks f src) {s : σ} {r r' : RouteJ} {b : Bool} (hr : Tracked ws r)
    (h : scan halt f s [] [] r = .ok (b, r')) : Tracked (scanFrom halt f src s r ws) r' := by
  rcases hr.expanded with hexp | rfl
  · have hfit : Refit (fun _ => True) r r' :=
      scan_spec (fun _ _ _ _ _ _ hv hs _ hrun => hf.refit _ _ _ _ _ _ ⟨hv, hs⟩ hrun) hexp.valid
        hexp.scheduled (fun _ _ => trivial) h
    refine ⟨.inl ⟨hfit.valid hexp.valid, hfit.scheduled⟩, ?_⟩
    obtain ⟨first, mid, last, rfl⟩ := hexp.valid.exists_eq
    have hx : first.isFixed := hexp.valid.first first rfl
    unfold scan at h
    split_ifs at h with hhalt hlen
    · obtain ⟨-, rfl⟩ : false = b ∧ first :: (mid ++ [last]) = r' := by
        simpa [pure, Except.pure] using h
      rw [scanFrom, if_pos hhalt]
      exact hr.laidOut
    · simp at hlen
    · obtain ⟨tail, rfl, htail⟩ :=
        walkFrom_spec hf [] hx (by simp) hexp.begun.check hexp.scheduled hr.laidOut h
      rwa [scanFrom, if_neg hhalt]
  · obtain ⟨-, rfl⟩ : true = b ∧ [] = r' := by simpa [scan, pure, Except.pure] using h
    exact hr

end Walk

theorem tracks_openStretch (late : Nat → Nat → Nat → Nat → Bool) :
    Tracks (openStretch expandCopy late) (openFrom late) :=
  ⟨fun _ _ _ _ _ _ hseg h => openStretch_refit reschedules_expandCopy hseg.valid hseg.scheduled
    (fun _ _ => trivial) h, fun _ _ _ _ _ _ _ hseg hw h => laidOut_openFrom hseg hw h⟩

theorem tracks_enrichStretch : Tracks (enrichStretch expandCopy) enrichFrom :=
  ⟨fun _ _ _ _ _ _ hseg h => enrichStretch_refit reschedules_expandCopy hseg.valid hseg.scheduled
    (fun _ _ => trivial) h, fun _ _ _ _ _ _ _ hseg hw h => laidOut_enrichFrom hseg hw h⟩

/-! ## The whole function -/

/-- The routes from which the last passes over the stretches start, those that lie behind the one
over the whole day with all flags cleared. -/
def lastPasses (late : Nat → Nat → Nat → Nat → Bool) (r : RouteJ) (controls : Controls) :
    Res (List RouteJ) := do
  let g ← (create r controls).baseRoute
  let outRouteJ ← expandCopy (g.outRouteJ.map setDefaultError)
  let origins := scanFrom (fun n => n.isRightConflict || n.hasFixedConflictError)
    (openStretch expandCopy late) (openFrom late) () outRouteJ
    (outRouteJ.stretches.map fun _ => none)
  let (_, opened) ← selectOpenClose late outRouteJ
  pure (if g.controls.keepTime then origins else
    scanFrom (fun _ => false) (enrichStretch expandCopy) enrichFrom (fun _ => false) opened
      origins).reduceOption

/-- No last pass over a stretch moves a node that is marked closed to a slot at which it is open. -/
def LastPassesClean (late : Nat → Nat → Nat → Nat → Bool) (r : RouteJ) (controls : Controls) :
    Prop :=
  ∃ ts, lastPasses late r controls = .ok ts ∧ ∀ t ∈ ts, reopens t = false

/-- The nodes of a route with a fixed last node are those of its stretches. -/
theorem forall_mem_stretches {P : NodeJ → Prop} {r : RouteJ} (hr : RouteJ.Valid r) :
    (∀ seg ∈ r.stretches, ∀ n ∈ seg, P n) ↔ ∀ n ∈ r, P n := by
  have hfrom (cur rest : RouteJ) (hne : rest ≠ []) (hlast : ∀ n ∈ rest.getLast?, n.isFixed) :
      (∀ seg ∈ RouteJ.stretchesFrom cur rest, ∀ n ∈ seg, P n) ↔ ∀ n ∈ cur ++ rest, P n := by
    induction rest generalizing cur with
    | nil => exact absurd rfl hne
    | cons n rest ih =>
      rw [RouteJ.stretchesFrom]
      cases rest with
      | nil =>
        rw [if_pos (hlast n rfl)]
        simp [RouteJ.stretchesFrom]
      | cons m rest =>
        have hlast' : ∀ n ∈ (m :: rest).getLast?, n.isFixed := by
          simpa [List.getLast?_cons_cons] using hlast
        split_ifs
        · rw [List.forall_mem_cons, ih [n] (List.cons_ne_nil m rest) hlast']
          simp only [List.forall_mem_append, List.forall_mem_cons]
          tauto
        · rw [ih (cur ++ [n]) (List.cons_ne_nil m rest) hlast', List.append_assoc]
          rfl
  obtain ⟨x, mid, y, rfl⟩ := hr.exists_eq
  refine hfrom [x] (mid ++ [y]) (by simp) fun n hn => hr.last n ?_
  rwa [← List.cons_append, List.getLast?_concat, ← List.getLast?_concat (l := mid)]

theorem Tracked.flagExact_iff {r : RouteJ} {ws : List (Option RouteJ)} (h : Tracked ws r) :
    (∀ n ∈ r, n.FlagExact) ↔ ∀ t ∈ ws.reduceOption, reopens t = false := by
  obtain ⟨hr, hlaid⟩ := h
  have hstretches : (∀ seg ∈ r.stretches, ∀ n ∈ seg, n.FlagExact) ↔ ∀ n ∈ r, n.FlagExact := by
    rcases hr with hexp | rfl
    · exact forall_mem_stretches hexp.valid
    · simp [RouteJ.stretches]
  rw [← hstretches]
  generalize r.stretches = segs at hlaid
  induction hlaid with
  | nil => simp
  | @cons w seg ws segs hw _ ih =>
    rw [List.forall_mem_cons]
    refine (and_congr hw ih).trans ?_
    cases w <;> simp

/-- The pass over the day with all flags cleared leaves exact flags. -/
theorem tracked_base {base out : RouteJ} (hbegun : RouteJ.Begun base)
    (h : expandCopy (base.map setDefaultError) = .ok out) :
    Tracked (out.stretches.map fun _ => none) out := by
  obtain ⟨hcheck, hfirst⟩ := begun_setDefaultError hbegun
  by_cases hvalid : RouteJ.Valid (base.map setDefaultError)
  · have hskel : (base.map setDefaultError).map skeleton = base.map skeleton := by
      simp [Function.comp_def]
    have hlinked := (RouteJ.linked_iff_of_skeleton hskel).mpr hbegun.scheduled.linked
    have hfit := reschedules_expandCopy.refit hvalid hlinked h
    have hout : RouteJ.Expanded out := ⟨hfit.valid hvalid, hfit.scheduled⟩
    have hexact := (flagExact_iff hvalid hlinked h).mpr (reopens_setDefaultError base)
    refine ⟨.inl hout, ?_⟩
    rw [List.forall₂_map_left_iff, List.forall₂_same]
    intro seg hseg
    exact iff_of_true ((forall_mem_stretches hout.valid).mpr hexact seg hseg) (by simp)
  · obtain rfl : out = [] := (valid_or_nil hcheck hfirst h).resolve_left hvalid
    exact ⟨.inr rfl, .nil⟩

/-- The closed flags of the result are exact if and only if the last pass over each stretch starts
from a route that has no node to reopen. -/
theorem flagExact_dayPathExpandOpt_iff {r : RouteJ} {controls : Controls}
    {late : Nat → Nat → Nat → Nat → Bool} {g' : PathGenerator} (hr : RouteJ.Valid r)
    (h : (create r controls).dayPathExpandOpt late = .ok (true, g')) :
    (∀ n ∈ g'.outRouteJ, n.isFree → (n.error 4 = 1 ↔ n.isOpen n.openIdx = .ok false)) ↔
      LastPassesClean late r controls := by
  have hin := create_inRouteJ hr controls
  simp only [dayPathExpandOpt, dayPathExpandOptWith, hin, hr.check, Bool.not_true,
    Bool.false_eq_true, if_false] at h
  obtain ⟨g₁, hg₁, h⟩ := bind_ok.mp h
  obtain ⟨out, hout, h⟩ := bind_ok.mp h
  obtain ⟨⟨b, opened⟩, hopen, h⟩ := bind_ok.mp h
  obtain ⟨-, hbase⟩ := baseRoute_spec (by rwa [hin]) rfl rfl hg₁
  rw [hin] at hbase
  have htracked :=
    scanFrom_spec (tracks_openStretch late) (tracked_base (hbase.begun hr) hout) hopen
  simp only [LastPassesClean, lastPasses, hg₁, hout, selectOpenClose, hopen, bind, Except.bind,
    pure, Except.pure, Except.ok.injEq, exists_eq_left']
  split_ifs at h ⊢ with hkeep
  · obtain rfl : { g₁ with outRouteJ := opened } = g' := by simpa [pure, Except.pure] using h
    exact htracked.flagExact_iff
  · obtain ⟨⟨b', enriched⟩, henrich, h⟩ := bind_ok.mp h
    obtain rfl : { g₁ with outRouteJ := enriched } = g' := by simpa [pure, Except.pure] using h
    exact (scanFrom_spec tracks_enrichStretch htracked henrich).flagExact_iff

theorem flagExact_dayPathExpandOpt_iff_museumDay :
    (∀ n ∈ museumPlan, n.isFree → (n.error 4 = 1 ↔ n.isOpen n.openIdx = .ok false)) ↔
      LastPassesClean (fun _ _ _ _ => false) museumDay {} :=
  flagExact_dayPathExpandOpt_iff museumDay_valid dayPathExpandOpt_museumDay

/-- The museum is closed at 900, the time it gets at first, and open at 1800, where the longer
stay in the park moves it. -/
def staleDay : RouteJ :=
  [{ id := some "hotel", toNext := some [("park", 0)], fixed := some ⟨some [(0, 0)], some 0⟩ },
   { id := some "park", toNext := some [("museum", 0)]
     free := some ⟨some [(0, 100000)], some ⟨900, 1800, 1800⟩⟩ },
   { id := some "museum", toNext := some [("inn", 0)]
     free := some ⟨some [(2700, 100000)], some ⟨3600, 3600, 3600⟩⟩ },
   { id := some "inn", toNext := some [], fixed := some ⟨some [(5500, 5500)], some 0⟩ }]

theorem staleDay_valid : RouteJ.Valid staleDay :=
  ⟨by decide, by simp [staleDay, isFixed], by simp [staleDay, isFixed]⟩

/-- The museum ends up marked closed although it is open. -/
theorem staleDay_marked_closed :
    ¬ ∀ (r : RouteJ) (controls : Controls) (late : Nat → Nat → Nat → Nat → Bool)
      (g' : PathGenerator), RouteJ.Valid r →
      (create r controls).dayPathExpandOpt late = .ok (true, g') →
      ∀ n ∈ g'.outRouteJ, n.isFree → (n.error 4 = 1 ↔ n.isOpen n.openIdx = .ok false) := by
  intro hall
  have hstale : ((create staleDay).dayPathExpandOpt fun _ _ _ _ => false).toOption.any
      (fun res => res.1 && res.2.outRouteJ.any fun n =>
        n.isFree && n.error 4 == 1 && decide (n.isOpen n.openIdx ≠ .ok false)) = true := by
    decide +kernel
  cases hrun : (create staleDay).dayPathExpandOpt fun _ _ _ _ => false with
  | error e => simp [hrun, Except.toOption] at hstale
  | ok res =>
    simp only [hrun, Except.toOption, Option.any_some, Bool.and_eq_true, List.any_eq_true,
      beq_iff_eq, decide_eq_true_eq] at hstale
    obtain ⟨hok, n, hn, ⟨hfree, hflag⟩, hopen⟩ := hstale
    have hrun' : (create staleDay).dayPathExpandOpt (fun _ _ _ _ => false) = .ok (true, res.2) := by
      rw [hrun, ← hok]
    exact hopen ((hall staleDay {} _ res.2 staleDay_valid hrun' n hn hfree).mp hflag)

end PathGenerator

end PPView
