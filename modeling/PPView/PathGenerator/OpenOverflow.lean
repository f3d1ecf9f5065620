import PPView.PathGenerator.OpenCount

/-!
# Past the last bit

The set of `countOpenClose` has 32 bits, and nothing bounds the nodes between two fixed ones.
`handed` lists the routes that `selectOpenClose` hands to `countOpenClose`. The selection ends
exactly when in none of them an open node stands beyond the 32nd place.
-/

namespace PPView

open NodeJ

namespace PathGenerator

section Handed

variable (late : Nat → Nat → Nat → Nat → Bool)

/-- The variants of the stretch `seg` that ends at `i`, and whether time is up. -/
def variants (i : Nat) (seg : RouteJ) : List RouteJ × Bool :=
  (buildVariants expandCopy late i [seg] (List.range' 1 (seg.length - 1))).toOption.getD
    ([], false)

/-- The routes that are counted from node number `i` on, when the current stretch has the nodes
`cur` so far. -/
def handedFrom : (i : Nat) → (cur rest : RouteJ) → List RouteJ
  | _, _, [] => []
  | i, cur, node :: rest =>
    if node.isRightConflict || node.hasFixedConflictError then []
    else if node.isFixed then
      if cur.length > 1 then
        (variants late i (cur ++ [node])).1 ++
          if (variants late i (cur ++ [node])).2 then [] else handedFrom (i + 1) [node] rest
      else handedFrom (i + 1) [node] rest
    else handedFrom (i + 1) (cur ++ [node]) rest

/-- The routes that `selectOpenClose` hands to `countOpenClose`. -/
def handed (r : RouteJ) : List RouteJ := handedFrom late 0 [] r

end Handed

/-! ## One stretch -/

theorem pickVariant_eq_error (maxCount : Int) (select : RouteJ) {vs : List RouteJ}
    (hidx : ∀ v ∈ vs, ∀ n ∈ v, n.idxOk) (hout : ∃ v ∈ vs, ¬ Fits 0 v) :
    pickVariant maxCount select vs = .error .bitset := by
  induction vs generalizing maxCount select with
  | nil => simp at hout
  | cons r more ih =>
    obtain ⟨hr, hmore⟩ := List.forall_mem_cons.mp hidx
    rw [pickVariant]
    by_cases hfit : Fits 0 r
    · have hout : ∃ v ∈ more, ¬ Fits 0 v := by simpa [hfit] using hout
      obtain ⟨bits, hbits, -⟩ := (openBits_spec hr).1 hfit
      simp only [countOpenClose, hbits, bind, Except.bind]
      split_ifs <;> exact ih _ _ hmore hout
    · rw [countOpenClose, (openBits_spec hr).2 hfit]
      rfl

/-- The choice for a stretch is made, or some variant does not fit. -/
theorem openStretch_cases (late : Nat → Nat → Nat → Nat → Bool) {seg : RouteJ}
    (hseg : RouteJ.Expanded seg) (i : Nat) :
    ((∀ v ∈ (variants late i seg).1, Fits 0 v) ∧
      ∃ v, openStretch expandCopy late i () seg = .ok ((), (variants late i seg).2, v)) ∨
    (∃ v ∈ (variants late i seg).1, ¬ Fits 0 v) ∧
      openStretch expandCopy late i () seg = .error .bitset := by
  obtain ⟨vs, b, hvs, hmem, -⟩ := buildVariants_spec late hseg i
    (List.range' 1 (seg.length - 1)) (show ∀ v ∈ [seg], v = seg ∨ Kept seg v by simp) rfl
  have hvariants : variants late i seg = (vs, b) := by
    rw [variants, hvs]
    rfl
  have hidx : ∀ v ∈ vs.reverse, ∀ n ∈ v, n.idxOk := fun v hv => by
    rcases hmem v (List.mem_reverse.mp hv) with rfl | hkept
    · exact hseg.idxOk
    · exact RouteJ.Expanded.idxOk ⟨hkept.refit.valid hseg.valid, hkept.refit.scheduled⟩
  simp only [hvariants, openStretch, hvs, bind, Except.bind]
  by_cases hfit : ∀ v ∈ vs, Fits 0 v
  · obtain ⟨v, hv, -⟩ := pickVariant_spec (-1) (vs.getLastD []) fun v hv =>
      (openBits_spec (hidx v hv)).1 (hfit v (List.mem_reverse.mp hv))
    refine .inl ⟨hfit, v, ?_⟩
    simp only [hv]
    rfl
  · simp only [not_forall, exists_prop] at hfit
    refine .inr ⟨hfit, ?_⟩
    rw [pickVariant_eq_error (-1) _ hidx (by simpa using hfit)]

/-! ## The walk -/

/-- The walk from the fixed node `x` on ends, or some route that it hands over does not fit. -/
theorem scan_openStretch_cases (late : Nat → Nat → Nat → Nat → Bool) (before mid : RouteJ)
    {rest : RouteJ} {x : NodeJ} (hx : x.isFixed) (hcheck : ∀ n ∈ x :: (mid ++ rest), n.checkNodeJ)
    (hs : RouteJ.Scheduled (x :: (mid ++ rest))) :
    let counted := handedFrom late (before.length + (x :: mid).length) (x :: mid) rest
    let walk := scan (fun n => n.isRightConflict || n.hasFixedConflictError)
      (openStretch expandCopy late) () before (x :: mid) rest
    (∀ v ∈ counted, Fits 0 v) ∧ (∃ b r', walk = .ok (b, r')) ∨
      (∃ v ∈ counted, ¬ Fits 0 v) ∧ walk = .error .bitset := by
  intro counted walk
  induction rest generalizing before mid x with
  | nil => exact .inl ⟨by simp [counted, handedFrom], true, _, rfl⟩
  | cons node rest ih =>
    simp only [counted, walk, handedFrom, scan]
    cases hhalt : node.isRightConflict || node.hasFixedConflictError with
    | true => exact .inl ⟨by simp, false, _, rfl⟩
    | false =>
      simp only [Bool.false_eq_true, if_false]
      cases hy : node.isFixed with
      | false =>
        have := ih before (mid ++ [node]) hx (by simpa using hcheck) (by simpa using hs)
        simpa [Nat.add_assoc] using this
      | true =>
        obtain ⟨hseg, hcheck', hs₂⟩ := RouteJ.expanded_stretch hx hy hcheck hs
        simp only [if_true]
        by_cases hlen : (x :: mid).length > 1
        · simp only [hlen, if_true]
          have hwork := openStretch_cases late hseg (before.length + (x :: mid).length)
          rw [← List.cons_append] at hwork
          generalize variants late (before.length + (x :: mid).length) (x :: mid ++ [node]) = found
            at hwork ⊢
          obtain ⟨vs, timeOut⟩ := found
          obtain ⟨hfit, v, hv⟩ | ⟨⟨v, hmem, hout⟩, herror⟩ := hwork
          · rw [hv]
            simp only [bind, Except.bind]
            cases timeOut with
            | true => exact .inl ⟨by simpa using hfit, true, _, rfl⟩
            | false =>
              have hrest := ih (before ++ splice (x :: mid) v) [] hy hcheck' hs₂
              rw [List.length_append, length_splice, List.length_singleton] at hrest
              obtain ⟨hall, hend⟩ | ⟨⟨w, hw, hout⟩, herror⟩ := hrest
              · refine .inl ⟨fun w hw => ?_, hend⟩
                rcases List.mem_append.mp hw with hw | hw
                · exact hfit w hw
                · exact hall w hw
              · exact .inr ⟨⟨w, List.mem_append_right vs hw, hout⟩, herror⟩
          · exact .inr ⟨⟨v, List.mem_append_left _ hmem, hout⟩, by rw [herror]; rfl⟩
        · simp only [hlen, if_false]
          have := ih (before ++ x :: mid) [] hy hcheck' hs₂
          simpa [Nat.add_assoc] using this

theorem selectOpenClose_cases (late : Nat → Nat → Nat → Nat → Bool) {r : RouteJ}
    (hr : RouteJ.Begun r) :
    (∀ v ∈ handed late r, Fits 0 v) ∧ (∃ b r', selectOpenClose late r = .ok (b, r')) ∨
      (∃ v ∈ handed late r, ¬ Fits 0 v) ∧ selectOpenClose late r = .error .bitset := by
  cases r with
  | nil => exact .inl ⟨by simp [handed, handedFrom], true, [], rfl⟩
  | cons first rest =>
    have hx : first.isFixed := hr.first first (by simp)
    simp only [handed, handedFrom, selectOpenClose, selectOpenCloseWith, scan]
    cases first.isRightConflict || first.hasFixedConflictError with
    | true => exact .inl ⟨by simp, false, _, rfl⟩
    | false =>
      have := scan_openStretch_cases late [] [] hx hr.check hr.scheduled
      simpa [hx] using this

/-! ## The day -/

theorem timeEnrich_eq_error {r : RouteJ} {e : Fault} (h : timeEnrich r = .error e) :
    e = .negativeIndex := by
  refine scan_error _ _ (E := fun e => e = .negativeIndex) (fun i vis seg e h => ?_) h
  rcases bind_error.mp h with h | ⟨_, -, h⟩
  · refine foldlM_error (E := fun e => e = .negativeIndex) (fun s u e h => ?_) h
    refine foldlM_error (E := fun e => e = .negativeIndex) (fun s j e h => ?_) h
    simp only [enrichNode] at h
    split_ifs at h
    · simp [pure, Except.pure] at h
    · simp [pure, Except.pure] at h
    · rcases bind_error.mp h with h | ⟨_, -, h⟩
      · exact expandCopy_eq_error h
      · split_ifs at h <;> simp [pure, Except.pure] at h
    · simp [pure, Except.pure] at h
  · simp [pure, Except.pure] at h

theorem begun_of_expandCopy {r out : RouteJ} (h : expandCopy r = .ok out) : RouteJ.Begun out := by
  obtain ⟨⟨b, g⟩, hg, hout⟩ := bind_ok.mp h
  obtain rfl : g.outRouteJ = out := by simpa [pure, Except.pure] using hout
  exact begun_of_dayPathExpand hg

/-- The re-expansion of a base route has the skeletons of a beginning of `r`. -/
theorem BaseRoute.expandCopy {r base out : RouteJ} (hr : RouteJ.Valid r) (hb : BaseRoute r base)
    (h : PathGenerator.expandCopy (base.map setDefaultError) = .ok out) :
    out.map NodeJ.skeleton = (r.take out.length).map NodeJ.skeleton := by
  obtain ⟨hcheck, hfirst⟩ := begun_setDefaultError (hb.begun hr)
  rcases valid_or_nil hcheck hfirst h with hvalid | rfl
  · have hpass := pass_of_expandCopy hvalid h
    have hlen : out.length ≤ base.length := by simpa using hpass.length_le
    have hskel : base.map (NodeJ.skeleton ∘ setDefaultError) = base.map NodeJ.skeleton := by
      simp [Function.comp_def]
    rw [RouteJ.map_skeleton_of_bare hpass.bare, List.map_take, List.map_map, hskel, hb.skeleton,
      List.map_take, List.map_take, List.take_take, min_eq_left hlen]
  · rfl

/-- Up to 32 free nodes between two fixed ones are not too many. -/
theorem dayPathExpandOpt_ne_bitset (late : Nat → Nat → Nat → Nat → Bool) {r : RouteJ}
    (controls : Controls) (hr : checkRouteJ r)
    (hfew : ∀ seg ∈ RouteJ.stretches r, seg.countP isFree ≤ 32) :
    (create r controls).dayPathExpandOpt late ≠ .error .bitset := by
  intro h
  rcases valid_or_spoiled controls hr with hvalid | hspoiled
  · have hin : (create r controls).inRouteJ = r := create_inRouteJ hvalid controls
    simp only [dayPathExpandOpt, dayPathExpandOptWith, hin, hr, Bool.not_true, Bool.false_eq_true,
      if_false] at h
    rcases bind_error.mp h with h | ⟨g₁, hg₁, h⟩
    · obtain ⟨b, g₁, hg₁, -⟩ :=
        selectFixedPoiTimes_spec (g := create r controls) (by rwa [hin]) rfl rfl
      simp only [baseRoute, hg₁, bind, Except.bind] at h
      cases b with
      | true => simp [pure, Except.pure] at h
      | false =>
        rcases bind_error.mp h with h | ⟨_, -, h⟩
        · simpa using (dayPathExpand_eq_error.mp h).1
        · simp [pure, Except.pure] at h
    obtain ⟨-, hbase⟩ := baseRoute_spec (by rwa [hin]) rfl rfl hg₁
    rw [hin] at hbase
    rcases bind_error.mp h with h | ⟨out, hout, h⟩
    · simpa using expandCopy_eq_error h
    obtain ⟨b, r', hr', -⟩ := selectOpenClose_spec late (begun_of_expandCopy hout)
      fun seg hseg => by
      obtain ⟨seg', hseg', heq⟩ := RouteJ.exists_mem_stretches (hbase.expandCopy hvalid hout) hseg
      have hcount (seg : RouteJ) : seg.countP isFree = (seg.map NodeJ.skeleton).countP isFree := by
        simp [List.countP_map, Function.comp_def]
      rw [hcount, ← heq, ← hcount]
      exact hfew seg' hseg'
    have hr' : selectOpenCloseWith PathGenerator.expandCopy late out = .ok (b, r') := hr'
    simp only [hr', bind, Except.bind] at h
    split_ifs at h
    · simp [pure, Except.pure] at h
    · rcases bind_error.mp h with h | ⟨_, -, h⟩
      · simpa using timeEnrich_eq_error h
      · simp [pure, Except.pure] at h
  · simp [dayPathExpandOpt, dayPathExpandOptWith, hspoiled, pure, Except.pure] at h

/-- A day with 33 visits between two stays, of which only the last has opening hours. -/
def crowdedDay : RouteJ :=
  { id := some "hotel", toNext := some [("park", 1800)]
    fixed := some ⟨some [(0, 28800)], some 0⟩ } ::
  (List.replicate 32 { id := some "park", toNext := some [("park", 0), ("museum", 0)]
                       free := some ⟨some [], some ⟨0, 0, 0⟩⟩ } ++
    [{ id := some "museum", toNext := some [("inn", 1800)]
       free := some ⟨some [(28800, 64800)], some ⟨3600, 5400, 7200⟩⟩ },
     { id := some "inn", toNext := some [], fixed := some ⟨some [(72000, 86400)], some 0⟩ }])

theorem dayPathExpandOpt_crowdedDay :
    (create crowdedDay).dayPathExpandOpt (fun _ _ _ _ => false) = .error .bitset := by
  decide +kernel

/-- The selection ends exactly if in no route that is handed over an open node stands beyond the
32nd place, and otherwise `bitset::set` throws. This cannot happen on any accepted day with at
most `m` free nodes between two fixed ones exactly if `m` is at most 32. -/
theorem selectOpenClose_completes_iff (late : Nat → Nat → Nat → Nat → Bool) {r : RouteJ}
    (hr : RouteJ.Begun r) :
    (selectOpenClose late r ≠ .error .bitset ↔ ∀ v ∈ handed late r, Fits 0 v) ∧
    ((∃ b r', selectOpenClose late r = .ok (b, r')) ↔ ∀ v ∈ handed late r, Fits 0 v) ∧
    ∀ m, (∀ (late : Nat → Nat → Nat → Nat → Bool) (controls : Controls) (r : RouteJ),
    checkRouteJ r →
      (∀ seg ∈ RouteJ.stretches r, seg.countP isFree ≤ m) →
      (create r controls).dayPathExpandOpt late ≠ .error .bitset) ↔ m ≤ 32 := by
  refine ⟨?_, ?_, fun m => ⟨fun h => ?_, fun hm late controls r hr hfew => ?_⟩⟩
  · obtain ⟨hfit, b, r', hr'⟩ | ⟨⟨v, hv, hout⟩, herror⟩ := selectOpenClose_cases late hr
    · exact iff_of_true (by simp [hr']) hfit
    · exact iff_of_false (by simp [herror]) fun h => hout (h v hv)
  · obtain ⟨hfit, hend⟩ | ⟨⟨v, hv, hout⟩, herror⟩ := selectOpenClose_cases late hr
    · exact iff_of_true hend hfit
    · exact iff_of_false (by simp [herror]) fun h => hout (h v hv)
  · by_contra hm
    refine h (fun _ _ _ _ => false) {} crowdedDay (by decide +kernel) ?_ dayPathExpandOpt_crowdedDay
    have hfew : ∀ seg ∈ RouteJ.stretches crowdedDay, seg.countP isFree ≤ 33 := by decide +kernel
    exact fun seg hseg => (hfew seg hseg).trans (by omega)
  · exact dayPathExpandOpt_ne_bitset late controls hr fun seg hseg => (hfew seg hseg).trans hm

theorem selectOpenClose_completes_iff_earlyMuseum :
    (selectOpenClose (fun _ _ _ _ => false) earlyMuseum ≠ .error .bitset ↔
      ∀ v ∈ handed (fun _ _ _ _ => false) earlyMuseum, Fits 0 v) :=
  (selectOpenClose_completes_iff _ (begun_of_dayPathExpand dayPathExpand_museumDay)).1

/-- Nothing on the way to the set counts the nodes of a stretch. -/
theorem not_dayPathExpandOpt_ne_bitset :
    ¬ ∀ (r : RouteJ) (controls : Controls) (late : Nat → Nat → Nat → Nat → Bool), checkRouteJ r →
      (create r controls).dayPathExpandOpt late ≠ .error .bitset := fun h =>
  h crowdedDay {} (fun _ _ _ _ => false) (by decide +kernel) dayPathExpandOpt_crowdedDay

end PathGenerator

end PPView
