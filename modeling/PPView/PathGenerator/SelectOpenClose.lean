import PPView.PathGenerator.Stretches

/-!
# Selecting opening intervals

`selectOpenClose` builds, for each stretch, the list of its variants in which the free nodes
have been tied to one of their opening intervals, and keeps the variant with the most open
nodes. A variant comes from re-expanding a copy of the stretch; `expand` is that re-expansion
and `late i j k z` tells whether the three seconds are over after the trial of interval `z` in
the variant `k` of node `j` of the stretch that ends at `i`.
-/

namespace PPView

open NodeJ

namespace PathGenerator

section Loops

variable (expand : RouteJ → Res RouteJ) (late : Nat → Nat → Nat → Nat → Bool)

/-- A node of the re-expanded stretch crosses the right border or its end is reached late. -/
def isOverrun (border : Int) (r : RouteJ) : Bool :=
  r.dropLast.any (fun n => n.time.2 > border) || !(r.getLastD default).isFixedArvOnTime

/-- The loop over the intervals of node `j`. It gives the variant to add, if any, and whether
time is up; each trial starts from the route that the trial before has left. -/
def tryOpens (i j k : Nat) : RouteJ → List Nat → Res (Option RouteJ × Bool)
  | _, [] => pure (none, false)
  | tempRouteJ, z :: zs => do
    let trial := tempRouteJ.modify j fun nodeJ => nodeJ.setDefaultError.setRangeIdx z
    let tempRouteJ ← expand trial
    if isOverrun (initPlayBorders trial).2 tempRouteJ then pure (none, false)
    else if ← (tempRouteJ.getD j default).isOpen z then pure (some tempRouteJ, false)
    else if late i j k z then pure (none, true)
    else tryOpens i j k tempRouteJ zs

/-- The loop over the variants from number `k` on, for the intervals of node `j`. -/
def extendVariants (i j : Nat) : Nat → List RouteJ → Res (List RouteJ × Bool)
  | _, [] => pure ([], false)
  | k, tempRouteJ :: more => do
    let opens := (tempRouteJ.getD j default).openClose
    let (opened, timeOut) ← tryOpens expand late i j k tempRouteJ (List.range opens.length)
    if timeOut then pure (tempRouteJ :: opened.toList, true)
    else do
      let (rest, timeOut) ← extendVariants i j (k + 1) more
      pure (tempRouteJ :: opened.toList ++ rest, timeOut)

/-- The loop over the nodes of the stretch after its first. -/
def buildVariants (i : Nat) : List RouteJ → List Nat → Res (List RouteJ × Bool)
  | routeJList, [] => pure (routeJList, false)
  | routeJList, j :: js => do
    let (routeJList, timeOut) ← extendVariants expand late i j 0 routeJList
    if timeOut then pure (routeJList, true) else buildVariants i routeJList js

/-- The positions that `countOpenClose` sets, for the nodes from number `i` on. -/
def openBits : Nat → RouteJ → Res (List Nat)
  | _, [] => pure []
  | i, nodeJ :: rest => do
    let isSet ← (if nodeJ.isFree then nodeJ.isOpen (nodeJ.rangeIdx.getD 0) else pure false)
    if isSet then
      if i = 0 ∨ i > 32 then throw .bitset
      else do
        let bits ← openBits (i + 1) rest
        pure ((32 - i) :: bits)
    else openBits (i + 1) rest

def countOpenClose (r : RouteJ) : Res (List Nat) := openBits 0 r

/-- The choice among the variants, from the last to the first. The positions of a variant are
distinct, so their number is what `std::bitset::count` gives. -/
def pickVariant : (maxCount : Int) → (select : RouteJ) → List RouteJ → Res RouteJ
  | _, select, [] => pure select
  | maxCount, select, r :: more => do
    let b ← countOpenClose r
    if (b.length : Int) > maxCount then pickVariant b.length r more
    else pickVariant maxCount select more

/-- The work of `selectOpenClose` on the stretch that ends at `i`. -/
def openStretch (i : Nat) (_ : Unit) (segmentRouteJ : RouteJ) : Res (Unit × Bool × RouteJ) := do
  let (routeJList, timeOut) ← buildVariants expand late i [segmentRouteJ]
    (List.range' 1 (segmentRouteJ.length - 1))
  let seg ← pickVariant (-1) (routeJList.getLastD []) routeJList.reverse
  pure ((), timeOut, seg)

def selectOpenCloseWith (r : RouteJ) : Res (Bool × RouteJ) :=
  scan (fun n => n.isRightConflict || n.hasFixedConflictError) (openStretch expand late) () [] [] r

end Loops

def selectOpenClose (late : Nat → Nat → Nat → Nat → Bool) (r : RouteJ) : Res (Bool × RouteJ) :=
  selectOpenCloseWith expandCopy late r

/-! ## Every variant is a rescheduling of the stretch -/

/-- Where `expand` succeeds it is the re-expansion of the source, and it leaves nodes with `Q`. -/
structure Reschedules (Q : NodeJ → Prop) (expand : RouteJ → Res RouteJ) : Prop where
  copy : ∀ r r', expand r = .ok r' → expandCopy r = .ok r'
  all : ∀ r r', RouteJ.Valid r → RouteJ.Linked r → expand r = .ok r' → ∀ n ∈ r', Q n

theorem Pass.core {r out : RouteJ} (h : Pass r out) (hl : RouteJ.Linked r) :
    out.map NodeJ.core = r.map NodeJ.core := by
  have hbare := h.bare
  rw [h.length_eq_iff.mpr hl, List.take_length] at hbare
  have hmap (r : RouteJ) : r.map NodeJ.core = (r.map NodeJ.bare).map NodeJ.core := by
    simp only [List.map_map, List.map_inj_left, Function.comp_apply]
    exact fun n _ => core_eq_of_bare rfl
  rw [hmap, hbare, ← hmap]

section Rules

variable {Q : NodeJ → Prop} {expand : RouteJ → Res RouteJ} {r r' : RouteJ}
  {late : Nat → Nat → Nat → Nat → Bool}

theorem Reschedules.refit (hexp : Reschedules Q expand) (hr : RouteJ.Valid r)
    (hl : RouteJ.Linked r) (h : expand r = .ok r') : Refit Q r r' :=
  have hpass := pass_of_expandCopy hr (hexp.copy r r' h)
  ⟨hpass.core hl, hpass.scheduled, hexp.all r r' hr hl h⟩

/-- A change that keeps the cores leaves a route that can be expanded. -/
theorem valid_linked_of_core {seg temp trial : RouteJ} (hseg : RouteJ.Valid seg)
    (hfit : Refit Q seg temp) (hcore : trial.map core = temp.map core) :
    RouteJ.Valid trial ∧ RouteJ.Linked trial := by
  have hskel := RouteJ.map_skeleton_of_core hcore
  exact ⟨(hfit.valid hseg).of_skeleton hskel.symm,
    (RouteJ.linked_iff_of_skeleton hskel).mpr hfit.scheduled.linked⟩

/-- Re-expanding after a change that keeps the cores gives a rescheduling of the stretch. -/
theorem Reschedules.refit_trial (hexp : Reschedules Q expand) {seg temp trial temp' : RouteJ}
    (hseg : RouteJ.Valid seg) (hfit : Refit Q seg temp)
    (hcore : trial.map core = temp.map core) (h : expand trial = .ok temp') :
    Refit Q seg temp' := by
  obtain ⟨hvalid, hlinked⟩ := valid_linked_of_core hseg hfit hcore
  have := hexp.refit hvalid hlinked h
  exact ⟨this.core.trans (hcore.trans hfit.core), this.scheduled, this.all⟩

theorem map_core_modify {j : Nat} {f : NodeJ → NodeJ}
    (h : ∀ n, r[j]? = some n → (f n).core = n.core) : (r.modify j f).map core = r.map core := by
  apply List.ext_getElem?
  intro i
  rw [List.getElem?_map, List.getElem?_map, List.getElem?_modify]
  split_ifs with hij
  · subst hij
    cases hn : r[j]? with
    | none => simp
    | some n => simp [h n hn]
  · simp

theorem tryOpens_refit (hexp : Reschedules Q expand) {i j k : Nat} {seg temp opened : RouteJ}
    {zs : List Nat} {b : Bool} (hseg : RouteJ.Valid seg) (hfit : Refit Q seg temp)
    (hfree : zs ≠ [] → ∀ n, seg[j]? = some n → n.isFixed = false)
    (h : tryOpens expand late i j k temp zs = .ok (some opened, b)) : Refit Q seg opened := by
  induction zs generalizing temp with
  | nil => simp [tryOpens, pure, Except.pure] at h
  | cons z zs ih =>
    obtain ⟨temp', htemp', h⟩ := bind_ok.mp h
    have hfit' : Refit Q seg temp' := by
      refine hexp.refit_trial hseg hfit (map_core_modify fun n hn => ?_) htemp'
      obtain ⟨m, hm, hmn⟩ := hfit.isFixed_eq hn
      exact core_eq_of_skeleton rfl (hmn ▸ hfree (List.cons_ne_nil z zs) m hm)
    split at h
    · simp [pure, Except.pure] at h
    · obtain ⟨isOpen, -, h⟩ := bind_ok.mp h
      split at h
      · obtain ⟨rfl, -⟩ : temp' = opened ∧ false = b := by simpa [pure, Except.pure] using h
        exact hfit'
      · split at h
        · simp [pure, Except.pure] at h
        · exact ih hfit' (fun _ => hfree (List.cons_ne_nil z zs)) h

/-- The variants from `temp` on: the trials for it end the loop, or it goes on behind it. -/
theorem extendVariants_cons {i j k : Nat} {temp : RouteJ} {more vs' : List RouteJ} {b : Bool}
    (h : extendVariants expand late i j k (temp :: more) = .ok (vs', b)) :
    ∃ opened timeOut, tryOpens expand late i j k temp
        (List.range (temp.getD j default).openClose.length) = .ok (opened, timeOut) ∧
      (timeOut = true ∧ b = true ∧ vs' = temp :: opened.toList ∨
        timeOut = false ∧ ∃ rest, extendVariants expand late i j (k + 1) more = .ok (rest, b) ∧
          vs' = temp :: opened.toList ++ rest) := by
  obtain ⟨⟨opened, timeOut⟩, hopen, h⟩ := bind_ok.mp h
  refine ⟨opened, timeOut, hopen, ?_⟩
  cases timeOut with
  | true =>
    obtain ⟨rfl, rfl⟩ : temp :: opened.toList = vs' ∧ true = b := by
      simpa [pure, Except.pure] using h
    exact .inl ⟨rfl, rfl, rfl⟩
  | false =>
    obtain ⟨⟨rest, timeOut⟩, hrest, h⟩ := bind_ok.mp h
    obtain ⟨rfl, rfl⟩ : temp :: opened.toList ++ rest = vs' ∧ timeOut = b := by
      simpa [pure, Except.pure] using h
    exact .inr ⟨rfl, rest, hrest, rfl⟩

/-- What the loop over the variants keeps of their list, the loop over the nodes keeps. -/
theorem buildVariants_induction {P : List RouteJ → Prop} {i : Nat} {js : List Nat}
    {vs vs' : List RouteJ} {b : Bool}
    (hstep : ∀ {j vs vs' b}, P vs → extendVariants expand late i j 0 vs = .ok (vs', b) → P vs')
    (hvs : P vs) (h : buildVariants expand late i vs js = .ok (vs', b)) : P vs' := by
  induction js generalizing vs with
  | nil =>
    obtain ⟨rfl, -⟩ : vs = vs' ∧ false = b := by simpa [buildVariants, pure, Except.pure] using h
    exact hvs
  | cons j js ih =>
    obtain ⟨⟨vs'', timeOut⟩, hvs'', h⟩ := bind_ok.mp h
    have hstep := hstep hvs hvs''
    cases timeOut with
    | true =>
      obtain ⟨rfl, -⟩ : vs'' = vs' ∧ true = b := by simpa [pure, Except.pure] using h
      exact hstep
    | false => exact ih hstep h

theorem extendVariants_refit (hexp : Reschedules Q expand) {i j k : Nat} {seg : RouteJ}
    {vs vs' : List RouteJ} {b : Bool} (hseg : RouteJ.Valid seg) (hvs : ∀ v ∈ vs, Refit Q seg v)
    (h : extendVariants expand late i j k vs = .ok (vs', b)) : ∀ v ∈ vs', Refit Q seg v := by
  induction vs generalizing k vs' b with
  | nil =>
    obtain ⟨rfl, -⟩ : [] = vs' ∧ false = b := by simpa [extendVariants, pure, Except.pure] using h
    simp
  | cons temp more ih =>
    obtain ⟨htemp, hmore⟩ := List.forall_mem_cons.mp hvs
    obtain ⟨opened, timeOut, hopen, hvs'⟩ := extendVariants_cons h
    have hnew : ∀ v ∈ temp :: opened.toList, Refit Q seg v := by
      refine List.forall_mem_cons.mpr ⟨htemp, fun v hv => ?_⟩
      rw [Option.mem_toList] at hv
      rw [Option.mem_def.mp hv] at hopen
      refine tryOpens_refit hexp hseg htemp (fun hne m hm => ?_) hopen
      exact htemp.isFixed_of_openClose hseg hm (by simpa using hne)
    rcases hvs' with ⟨-, -, rfl⟩ | ⟨-, rest, hrest, rfl⟩
    · exact hnew
    · exact List.forall_mem_append.mpr ⟨hnew, ih hmore hrest⟩

theorem buildVariants_refit (hexp : Reschedules Q expand) {i : Nat} {js : List Nat} {seg : RouteJ}
    {vs vs' : List RouteJ} {b : Bool} (hseg : RouteJ.Valid seg) (hvs : ∀ v ∈ vs, Refit Q seg v)
    (h : buildVariants expand late i vs js = .ok (vs', b)) : ∀ v ∈ vs', Refit Q seg v :=
  buildVariants_induction (fun hvs h => extendVariants_refit hexp hseg hvs h) hvs h

theorem extendVariants_ne_nil {i j k : Nat} {vs vs' : List RouteJ} {b : Bool}
    (hvs : vs ≠ []) (h : extendVariants expand late i j k vs = .ok (vs', b)) : vs' ≠ [] := by
  obtain ⟨temp, more, rfl⟩ := List.exists_cons_of_ne_nil hvs
  obtain ⟨opened, timeOut, -, ⟨-, -, rfl⟩ | ⟨-, rest, -, rfl⟩⟩ := extendVariants_cons h
  · exact List.cons_ne_nil _ _
  · exact List.cons_ne_nil _ _

/-- There is always a variant: the stretch itself comes first. -/
theorem buildVariants_ne_nil {i : Nat} {js : List Nat} {vs vs' : List RouteJ} {b : Bool}
    (hvs : vs ≠ []) (h : buildVariants expand late i vs js = .ok (vs', b)) : vs' ≠ [] :=
  buildVariants_induction (P := (· ≠ [])) extendVariants_ne_nil hvs h

theorem pickVariant_mem {maxCount : Int} {select : RouteJ} {vs : List RouteJ}
    (h : pickVariant maxCount select vs = .ok r) : r = select ∨ r ∈ vs := by
  induction vs generalizing maxCount select with
  | nil => simpa [pickVariant, pure, Except.pure, eq_comm] using h
  | cons v vs ih =>
    obtain ⟨b, -, h⟩ := bind_ok.mp h
    split at h
    · rcases ih h with rfl | h
      · simp
      · simp [h]
    · rcases ih h with rfl | h
      · simp
      · simp [h]

theorem openStretch_refit (hexp : Reschedules Q expand) {i : Nat} {seg seg' : RouteJ} {b : Bool}
    (hseg : RouteJ.Valid seg) (hs : RouteJ.Scheduled seg) (hQ : ∀ n ∈ seg, Q n)
    (h : openStretch expand late i () seg = .ok ((), b, seg')) : Refit Q seg seg' := by
  obtain ⟨⟨vs, timeOut⟩, hvs, h⟩ := bind_ok.mp h
  obtain ⟨picked, hpick, h⟩ := bind_ok.mp h
  obtain ⟨-, rfl⟩ : timeOut = b ∧ picked = seg' := by simpa [pure, Except.pure] using h
  have hall := buildVariants_refit hexp hseg (by simpa using Refit.refl hs hQ) hvs
  have hne : vs ≠ [] := buildVariants_ne_nil (List.cons_ne_nil seg []) hvs
  rcases pickVariant_mem hpick with rfl | hmem
  · rw [List.getLastD_eq_getLast?, List.getLast?_eq_some_getLast hne]
    exact hall _ (List.getLast_mem hne)
  · exact hall picked (by simpa using hmem)

/-- `selectOpenClose` reschedules a scheduled day. -/
theorem selectOpenClose_refit (hexp : Reschedules Q expand) {b : Bool} (hr : RouteJ.Valid r)
    (hs : RouteJ.Scheduled r) (hQ : ∀ n ∈ r, Q n)
    (h : selectOpenCloseWith expand late r = .ok (b, r')) : Refit Q r r' :=
  scan_spec (fun _ _ _ _ _ _ hseg hs hQ h => openStretch_refit hexp hseg hs hQ h) hr hs hQ h

end Rules

end PathGenerator

end PPView
