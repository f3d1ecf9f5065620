import PPView.PathGenerator.DayPathExpandOpt

/-!
# Counting open nodes

`selectOpenClose` keeps the variant of a stretch with the most open nodes. The stretch itself is
always among the variants, and every other one closes on time. `countOpenClose` fails only on a
stretch in which an open node stands beyond the 32nd place.
-/

namespace PPView

open NodeJ

namespace NodeJ

/-- Open at the interval that `rangeIdx` names. An absent index reads as 0. -/
def openSelected (n : NodeJ) : Bool :=
  n.isFree && (n.isOpen (n.rangeIdx.getD 0)).toOption == some true

/-- `n` is reached after `p` by the start of its session. -/
def InTime (p n : NodeJ) : Prop :=
  ∀ traf, p.traffic n.ident = some traf → p.time.2 + traf ≤ n.session.1

theorem isOpen_ok {n : NodeJ} {pos : Int} (h : n.isFixed ∨ n.openClose = [] ∨ -1 ≤ pos) :
    ∃ b, n.isOpen pos = .ok b := by
  unfold isOpen
  split_ifs with hx hempty hpos
  · exact ⟨true, rfl⟩
  · exact ⟨false, rfl⟩
  · have h0 : ¬ pos < 0 := by
      rcases h with h | h | h
      · exact absurd h hx
      · simp [h] at hempty
      · omega
    simp only [openCloseAt, h0, if_false, bind, Except.bind]
    exact ⟨_, rfl⟩
  · exact ⟨_, rfl⟩

/-- A node that can be arranged can be counted. -/
theorem isOpen_getD_ok {n : NodeJ} (h : n.idxOk) : ∃ b, n.isOpen (n.rangeIdx.getD 0) = .ok b := by
  apply isOpen_ok
  simp only [idxOk, Bool.or_eq_true, List.isEmpty_iff, decide_eq_true_eq] at h
  rcases h with (h | h) | h
  · exact .inl h
  · exact .inr (.inl h)
  · refine .inr (.inr ?_)
    unfold openIdx at h
    cases hr : n.rangeIdx with
    | none => simp
    | some i =>
      simp only [hr] at h
      simp only [Option.getD_some]
      split_ifs at h <;> omega

end NodeJ

namespace RouteJ

/-- The number of open nodes. -/
def openCount (r : RouteJ) : Nat := r.countP openSelected

/-- The last node of the stretch is reached on time. -/
def EndsInTime (r : RouteJ) : Prop := ∀ front p y, r = front ++ [p, y] → InTime p y

/-- The flags have no influence on it. -/
theorem EndsInTime.of_setDefaultError {r r' : RouteJ} (h : EndsInTime r)
    (hmap : r'.map setDefaultError = r.map setDefaultError) : EndsInTime r' := by
  rintro front' p' y' rfl
  rw [List.map_append, List.map_cons, List.map_singleton] at hmap
  obtain ⟨front, ends, rfl, -, hends⟩ := List.map_eq_append_iff.mp hmap.symm
  obtain ⟨p, last, rfl, hp, hlast⟩ := List.map_eq_cons_iff.mp hends
  obtain ⟨y, rfl, hy⟩ := List.map_eq_singleton_iff.mp hlast
  have hin : InTime p.setDefaultError y.setDefaultError := h front p y rfl
  rw [hp, hy] at hin
  exact hin

end RouteJ

namespace PathGenerator

/-! ## The bits -/

theorem openBits_cons {n : NodeJ} (h : n.idxOk) (i : Nat) (r : RouteJ) :
    openBits i (n :: r) =
      if n.openSelected then
        if i = 0 ∨ i > 32 then .error .bitset else (List.cons (32 - i)) <$> openBits (i + 1) r
      else openBits (i + 1) r := by
  obtain ⟨b, hb⟩ := isOpen_getD_ok h
  rw [openBits]
  cases hf : n.isFree with
  | false => simp [openSelected, hf, bind, Except.bind, pure, Except.pure]
  | true =>
    cases b with
    | false => simp [openSelected, hf, hb, Except.toOption, bind, Except.bind]
    | true =>
      simp only [openSelected, hf, hb, Except.toOption, bind, Except.bind, Bool.true_and,
        beq_self_eq_true, if_true]
      split_ifs
      · rfl
      · cases openBits (i + 1) r <;> rfl

/-- The open nodes of `r`, the first of which has the number `i`, stand at places with a bit. -/
def Fits (i : Nat) (r : RouteJ) : Prop :=
  ∀ k n, r[k]? = some n → n.openSelected → 0 < i + k ∧ i + k ≤ 32

theorem fits_cons {i : Nat} {n : NodeJ} {r : RouteJ} :
    Fits i (n :: r) ↔ (n.openSelected → 0 < i ∧ i ≤ 32) ∧ Fits (i + 1) r := by
  constructor
  · intro h
    refine ⟨fun hopen => h 0 n rfl hopen, fun k m hm hopen => ?_⟩
    have := h (k + 1) m (by simpa using hm) hopen
    omega
  · rintro ⟨hn, hr⟩ k m hm hopen
    cases k with
    | zero =>
      obtain rfl : n = m := by simpa using hm
      exact hn hopen
    | succ k =>
      have := hr k m (by simpa using hm) hopen
      omega

/-- As many bits are set as nodes are open, or `bitset::set` throws. -/
theorem openBits_spec {i : Nat} {r : RouteJ} (hidx : ∀ n ∈ r, n.idxOk) :
    (Fits i r → ∃ bits, openBits i r = .ok bits ∧ bits.length = RouteJ.openCount r) ∧
      (¬ Fits i r → openBits i r = .error .bitset) := by
  induction r generalizing i with
  | nil => exact ⟨fun _ => ⟨[], rfl, rfl⟩, fun h => absurd (by simp [Fits]) h⟩
  | cons n r ih =>
    obtain ⟨hn, hr⟩ := List.forall_mem_cons.mp hidx
    obtain ⟨hfit, hthrow⟩ := ih (i := i + 1) hr
    have hcount : RouteJ.openCount (n :: r) =
        RouteJ.openCount r + if n.openSelected then 1 else 0 := List.countP_cons
    rw [openBits_cons hn, fits_cons, hcount]
    cases hopen : n.openSelected with
    | false =>
      refine ⟨fun h => ?_, fun h => by simpa using hthrow (by simpa using h)⟩
      obtain ⟨bits, hbits, hlen⟩ := hfit h.2
      exact ⟨bits, by simpa using hbits, by simpa using hlen⟩
    | true =>
      by_cases hi : 0 < i ∧ i ≤ 32
      · rw [if_pos rfl, if_neg (by omega)]
        refine ⟨fun h => ?_, fun h => by rw [hthrow (by simpa [hi] using h)]; rfl⟩
        obtain ⟨bits, hbits, hlen⟩ := hfit h.2
        exact ⟨(32 - i) :: bits, by rw [hbits]; rfl, by simp [hlen]⟩
      · rw [if_pos rfl, if_pos (by omega)]
        exact ⟨fun h => absurd (h.1 rfl) hi, fun _ => rfl⟩

/-! ## The choice -/

/-- Among the variants one with the most open nodes is taken. -/
theorem pickVariant_spec (maxCount : Int) (select : RouteJ) {vs : List RouteJ}
    (hcount : ∀ v ∈ vs, ∃ bits, countOpenClose v = .ok bits ∧ bits.length = v.openCount) :
    ∃ v, pickVariant maxCount select vs = .ok v ∧
      (v = select ∧ (∀ w ∈ vs, (w.openCount : Int) ≤ maxCount) ∨
        v ∈ vs ∧ maxCount < v.openCount ∧ ∀ w ∈ vs, w.openCount ≤ v.openCount) := by
  induction vs generalizing maxCount select with
  | nil => exact ⟨select, rfl, .inl ⟨rfl, by simp⟩⟩
  | cons r more ih =>
    obtain ⟨hr, hmore⟩ := List.forall_mem_cons.mp hcount
    obtain ⟨bits, hbits, hlen⟩ := hr
    simp only [pickVariant, hbits, bind, Except.bind, hlen]
    split_ifs with hbetter
    · obtain ⟨v, hv, ⟨rfl, hmax⟩ | ⟨hmem, hlt, hmax⟩⟩ := ih r.openCount r hmore
      · refine ⟨v, hv, .inr ⟨by simp, hbetter, List.forall_mem_cons.mpr ⟨Nat.le_refl _, ?_⟩⟩⟩
        exact fun w hw => Int.ofNat_le.mp (hmax w hw)
      · refine ⟨v, hv, .inr ⟨by simp [hmem], by omega, ?_⟩⟩
        exact List.forall_mem_cons.mpr ⟨by omega, hmax⟩
    · obtain ⟨v, hv, ⟨rfl, hmax⟩ | ⟨hmem, hlt, hmax⟩⟩ := ih maxCount select hmore
      · exact ⟨v, hv, .inl ⟨rfl, List.forall_mem_cons.mpr ⟨by omega, hmax⟩⟩⟩
      · exact ⟨v, hv, .inr ⟨by simp [hmem], hlt, List.forall_mem_cons.mpr ⟨by omega, hmax⟩⟩⟩

/-! ## The variants -/

/-- A variant besides the stretch itself: it is another schedule of it and closes on time. -/
structure Kept (seg v : RouteJ) : Prop where
  refit : Refit (fun _ => True) seg v
  inTime : RouteJ.EndsInTime v

/-- A fixed node without the flag for lateness is reached on time. -/
theorem Expansion.inTime {g : PathGenerator} {rest tail : RouteJ} {b : Bool}
    (h : Expansion g rest tail b) :
    (g.lastNode :: tail).IsChain fun p n => n.isFixed → n.isFixedArvOnTime → InTime p n := by
  induction h with
  | nil => simp
  | noEdge => simp
  | @cons g n rest _ _ stime ha hidx _ ih =>
    rw [lastNode_append] at ih
    refine List.isChain_cons_cons.mpr ⟨fun hx hflag traf htraf => ?_, ih⟩
    obtain rfl : g.lastNode.time.2 + traf = stime := by
      have htraf : g.lastNode.traffic n.ident = some traf := htraf
      simpa [arrival, htraf] using ha
    have hx : n.isFixed := hx
    by_contra hlate
    have hlate : n.session.1 < g.lastNode.time.2 + traf := not_le.mp hlate
    simp [isFixedArvOnTime, arranged_error, raises, hx, hlate] at hflag

theorem endsInTime_of_expandCopy {r r' : RouteJ} (hr : RouteJ.Valid r) (hl : RouteJ.Linked r)
    (h : expandCopy r = .ok r') (hflag : (r'.getLastD default).isFixedArvOnTime) :
    RouteJ.EndsInTime r' := by
  obtain ⟨⟨b, g'⟩, hg, hr'⟩ := bind_ok.mp h
  obtain rfl : g'.outRouteJ = r' := by simpa [pure, Except.pure] using hr'
  have hin : (create r).inRouteJ = r := create_inRouteJ hr {}
  have hvalid : RouteJ.Valid g'.outRouteJ := by
    have hpass := pass_of_expandCopy hr h
    exact hr.of_skeleton (RouteJ.map_skeleton_of_core (hpass.core hl)).symm
  obtain ⟨n, mid, last, rfl⟩ := hr.exists_eq
  obtain ⟨tail, ht, rfl⟩ := (dayPathExpand_eq_ok (by rwa [hin]) hin).mp hg
  intro front p y hfront
  have hchain := ht.inTime
  rw [lastNode_append] at hchain
  have hout : { n with time := n.session } :: tail = front ++ [p, y] := by
    simpa [create] using hfront
  rw [hout] at hchain
  have hy := (List.isChain_append.mp hchain).2.1
  refine (List.isChain_cons_cons.mp hy).1 (hvalid.last y ?_) ?_
  · rw [hfront]
    simp
  · rw [hfront] at hflag
    simpa using hflag

section Trials

variable (late : Nat → Nat → Nat → Nat → Bool) {seg temp : RouteJ}

/-- Tying a free node to an interval and expanding again never fails. -/
theorem expandCopy_tie (hseg : RouteJ.Valid seg) (hfit : Refit (fun _ => True) seg temp) {j : Nat}
    (hfree : ∀ n, seg[j]? = some n → n.isFixed = false) (z : Nat) :
    ∃ temp', expandCopy (temp.modify j fun nodeJ => nodeJ.setDefaultError.setRangeIdx z) =
        .ok temp' ∧ Refit (fun _ => True) seg temp' ∧
      ((temp'.getLastD default).isFixedArvOnTime → RouteJ.EndsInTime temp') := by
  generalize htrial : temp.modify j _ = trial
  have hcore : trial.map core = temp.map core := by
    rw [← htrial]
    refine map_core_modify fun n hn => ?_
    obtain ⟨m, hm, hmn⟩ := hfit.isFixed_eq hn
    exact core_eq_of_skeleton rfl (hmn ▸ hfree m hm)
  obtain ⟨hvalid, hlinked⟩ := valid_linked_of_core hseg hfit hcore
  have hidx : ∀ n ∈ trial, n.idxOk := by
    have htemp := (RouteJ.Expanded.mk (hfit.valid hseg) hfit.scheduled).idxOk
    intro n' hn'
    obtain ⟨i, hi⟩ := List.mem_iff_getElem?.mp hn'
    rw [← htrial, List.getElem?_modify] at hi
    obtain ⟨n, hn, rfl⟩ := Option.map_eq_some_iff.mp hi
    split_ifs
    · exact idxOk_of_le fun i hi => by
        obtain rfl : (z : Int) = i := by simpa [setRangeIdx] using hi
        omega
    · exact htemp n (List.mem_of_getElem? hn)
  obtain ⟨temp', htemp', -, -⟩ := expandCopy_spec hvalid hlinked hidx
  exact ⟨temp', htemp', reschedules_expandCopy.refit_trial hseg hfit hcore htemp',
    endsInTime_of_expandCopy hvalid hlinked htemp'⟩

theorem tryOpens_spec (hseg : RouteJ.Valid seg) (hfit : Refit (fun _ => True) seg temp)
    (i j k : Nat) (zs : List Nat) (hfree : zs ≠ [] → ∀ n, seg[j]? = some n → n.isFixed = false) :
    ∃ opened b, tryOpens expandCopy late i j k temp zs = .ok (opened, b) ∧
      ∀ v ∈ opened, Kept seg v := by
  induction zs generalizing temp with
  | nil => exact ⟨none, false, rfl, by simp⟩
  | cons z zs ih =>
    have hfree := hfree (List.cons_ne_nil z zs)
    obtain ⟨temp', htemp', hfit', hflag⟩ := expandCopy_tie hseg hfit hfree z
    obtain ⟨b, hb⟩ : ∃ b, (temp'.getD j default).isOpen z = .ok b :=
      isOpen_ok (.inr (.inr (by omega)))
    simp only [tryOpens, htemp', bind, Except.bind]
    cases hover : isOverrun (initPlayBorders
        (temp.modify j fun nodeJ => nodeJ.setDefaultError.setRangeIdx z)).2 temp' with
    | true => exact ⟨none, false, rfl, by simp⟩
    | false =>
      simp only [Bool.false_eq_true, if_false, hb]
      cases b with
      | true =>
        refine ⟨some temp', false, rfl, fun v hv => ?_⟩
        obtain rfl : temp' = v := by simpa using hv
        exact ⟨hfit', hflag (by simp_all [isOverrun])⟩
      | false =>
        cases late i j k z with
        | true => exact ⟨none, true, rfl, by simp⟩
        | false => exact ih hfit' fun _ => hfree

theorem extendVariants_spec (hseg : RouteJ.Valid seg) (i j k : Nat) {vs : List RouteJ}
    (hvs : ∀ v ∈ vs, Refit (fun _ => True) seg v) :
    ∃ vs' b, extendVariants expandCopy late i j k vs = .ok (vs', b) ∧
      (∀ v ∈ vs', v ∈ vs ∨ Kept seg v) ∧ vs'.head? = vs.head? := by
  induction vs generalizing k with
  | nil => exact ⟨[], false, rfl, by simp, rfl⟩
  | cons temp more ih =>
    obtain ⟨htemp, hmore⟩ := List.forall_mem_cons.mp hvs
    obtain ⟨opened, b, hopened, hkept⟩ := tryOpens_spec late hseg htemp i j k
      (List.range (temp.getD j default).openClose.length) fun hne m hm =>
        htemp.isFixed_of_openClose hseg hm (by simpa using hne)
    have hfirst : ∀ v ∈ temp :: opened.toList, v ∈ temp :: more ∨ Kept seg v := by
      intro v hv
      rcases List.mem_cons.mp hv with rfl | hv
      · exact .inl List.mem_cons_self
      · exact .inr (hkept v (Option.mem_toList.mp hv))
    simp only [extendVariants, hopened, bind, Except.bind]
    cases b with
    | true => exact ⟨_, true, rfl, hfirst, rfl⟩
    | false =>
      obtain ⟨vs', b, hvs', hmem, -⟩ := ih (k + 1) hmore
      simp only [Bool.false_eq_true, if_false, hvs']
      refine ⟨_, b, rfl, fun v hv => ?_, rfl⟩
      rcases List.mem_append.mp hv with hv | hv
      · exact hfirst v hv
      · exact (hmem v hv).imp_left (List.mem_cons_of_mem _)

/-- Whenever time is up, the stretch itself is among the variants. -/
theorem buildVariants_spec (hseg : RouteJ.Expanded seg) (i : Nat) (js : List Nat)
    {vs : List RouteJ} (hvs : ∀ v ∈ vs, v = seg ∨ Kept seg v) (hhead : vs.head? = some seg) :
    ∃ vs' b, buildVariants expandCopy late i vs js = .ok (vs', b) ∧
      (∀ v ∈ vs', v = seg ∨ Kept seg v) ∧ vs'.head? = some seg := by
  induction js generalizing vs with
  | nil => exact ⟨vs, false, rfl, hvs, hhead⟩
  | cons j js ih =>
    obtain ⟨vs', b, hvs', hmem, hhead'⟩ := extendVariants_spec late hseg.valid i j 0
      fun v hv => by
        rcases hvs v hv with rfl | hkept
        · exact .refl hseg.scheduled fun _ _ => trivial
        · exact hkept.refit
    have hmem : ∀ v ∈ vs', v = seg ∨ Kept seg v := fun v hv => (hmem v hv).elim (hvs v) .inr
    have hhead' := hhead'.trans hhead
    simp only [buildVariants, hvs', bind, Except.bind]
    cases b with
    | true => exact ⟨vs', true, rfl, hmem, hhead'⟩
    | false => exact ih hmem hhead'

end Trials

/-! ## The stretch and the day -/

/-- The ends of a stretch are fixed, so 32 free nodes are not too many. -/
theorem fits_of_length {seg : RouteJ} (hseg : RouteJ.Expanded seg) (hlen : seg.length ≤ 34) :
    Fits 0 seg := by
  intro k n hn hopen
  obtain ⟨hk, -⟩ := List.getElem?_eq_some_iff.mp hn
  have hx : n.isFixed = false := by
    by_contra hx
    have := (hseg.valid.single (List.mem_of_getElem? hn)).not_isFree (by simpa using hx)
    simp [openSelected, this] at hopen
  have hfirst : k ≠ 0 := by
    rintro rfl
    have := hseg.valid.first n (by rwa [List.head?_eq_getElem?])
    simp [hx] at this
  have hlast : k ≠ seg.length - 1 := by
    rintro rfl
    have := hseg.valid.last n (by rwa [List.getLast?_eq_getElem?])
    simp [hx] at this
  omega

theorem openStretch_spec (late : Nat → Nat → Nat → Nat → Bool) {seg : RouteJ}
    (hseg : RouteJ.Expanded seg) (hlen : seg.length ≤ 34) (i : Nat) :
    ∃ b v, openStretch expandCopy late i () seg = .ok ((), b, v) ∧ (v = seg ∨ Kept seg v) ∧
      RouteJ.openCount seg ≤ RouteJ.openCount v := by
  obtain ⟨vs, b, hvs, hmem, hhead⟩ := buildVariants_spec late hseg i
    (List.range' 1 (seg.length - 1)) (show ∀ v ∈ [seg], v = seg ∨ Kept seg v by simp) rfl
  have hfirst : seg ∈ vs := List.mem_of_mem_head? hhead
  have hcount : ∀ v ∈ vs.reverse, ∃ bits, countOpenClose v = .ok bits ∧
      bits.length = RouteJ.openCount v := by
    intro v hv
    have hv : RouteJ.Expanded v ∧ v.length ≤ 34 := by
      rcases hmem v (List.mem_reverse.mp hv) with rfl | hkept
      · exact ⟨hseg, hlen⟩
      · have hlength := congrArg List.length hkept.refit.core
        simp only [List.length_map] at hlength
        exact ⟨⟨hkept.refit.valid hseg.valid, hkept.refit.scheduled⟩, by omega⟩
    exact (openBits_spec hv.1.idxOk).1 (fits_of_length hv.1 hv.2)
  obtain ⟨v, hv, ⟨-, hmax⟩ | ⟨hpick, -, hmax⟩⟩ := pickVariant_spec (-1) (vs.getLastD []) hcount
  · have := hmax seg (by simpa using hfirst)
    omega
  · refine ⟨b, v, ?_, hmem v (by simpa using hpick), hmax seg (by simpa using hfirst)⟩
    simp only [openStretch, hvs, hv, bind, Except.bind]
    rfl

theorem openCount_of_setDefaultError {r r' : RouteJ}
    (hmap : r'.map setDefaultError = r.map setDefaultError) :
    RouteJ.openCount r' = RouteJ.openCount r := by
  have h (r : RouteJ) : RouteJ.openCount r = RouteJ.openCount (r.map setDefaultError) := by
    rw [RouteJ.openCount, RouteJ.openCount, List.countP_map]
    rfl
  rw [h, hmap, ← h]

/-- `seg'` has as many open nodes as `seg` and closes on time if `seg` does. -/
def NotWorse (seg seg' : RouteJ) : Prop :=
  RouteJ.openCount seg ≤ RouteJ.openCount seg' ∧ (RouteJ.EndsInTime seg → RouteJ.EndsInTime seg')

theorem openStretch_works (late : Nat → Nat → Nat → Nat → Bool) :
    Works (fun seg => seg.length ≤ 34) (openStretch expandCopy late)
      (fun n n' => n'.skeleton = n.skeleton) NotWorse := by
  rintro i ⟨⟩ x mid y hvalid hsched hlen
  obtain ⟨b, v, hwork, hv, hcount⟩ := openStretch_spec late ⟨hvalid, hsched⟩ hlen i
  rcases hv with rfl | hkept
  · exact ⟨(), b, x, mid, y, hwork, List.forall₂_same.mpr fun _ _ => rfl, Nat.le_refl _, id⟩
  · obtain ⟨x', mid', y', rfl, hx, hmid, hy⟩ := hkept.refit.exists_eq
    have hends := hkept.refit.setDefaultError_ends (hvalid.first x (by simp))
      (hvalid.last y (by rw [← List.cons_append, List.getLast?_concat]; rfl)) hsched
    refine ⟨(), b, x', mid', y', hwork, ?_, ?_, fun _ => hkept.inTime.of_setDefaultError hends⟩
    · exact (forall₂_of_map_eq hmid).imp fun _ _ h => skeleton_eq_of_core h
    · rwa [openCount_of_setDefaultError hends]

theorem selectOpenClose_spec {r : RouteJ} (late : Nat → Nat → Nat → Nat → Bool)
    (hr : RouteJ.Begun r) (hfew : ∀ seg ∈ RouteJ.stretches r, seg.countP isFree ≤ 32) :
    ∃ b r', selectOpenClose late r = .ok (b, r') ∧
      List.Forall₂ (fun n n' => n'.skeleton = n.skeleton ∧ (n.isFixed → n' = n)) r r' ∧
      List.Forall₂ NotWorse (RouteJ.stretches r) (RouteJ.stretches r') := by
  refine scan_forall₂ (fun _ _ h => isFixed_eq_of_skeleton h) (fun _ => rfl)
    (fun _ => ⟨Nat.le_refl _, id⟩) (openStretch_works late) hr (fun seg hseg => ?_) ()
  have := hr.length_of_mem_stretches hseg
  have := hfew seg hseg
  omega

/-- `selectOpenClose` after a pass over a day ends. No stretch loses an open node, and none that
was closed on time is closed late. -/
theorem selectOpenClose_notWorse {r : RouteJ} {controls : Controls} {b : Bool} {g : PathGenerator}
    (late : Nat → Nat → Nat → Nat → Bool) (h : (create r controls).dayPathExpand = .ok (b, g))
    (hfew : ∀ seg ∈ RouteJ.stretches g.outRouteJ, seg.countP isFree ≤ 31) :
    ∃ b' r', selectOpenClose late g.outRouteJ = .ok (b', r') ∧
      r'.map NodeJ.id = g.outRouteJ.map NodeJ.id ∧
      List.Forall₂ (fun n n' => n'.skeleton = n.skeleton ∧ (n.isFixed → n' = n)) g.outRouteJ r' ∧
      List.Forall₂ NotWorse (RouteJ.stretches g.outRouteJ) (RouteJ.stretches r') := by
  obtain ⟨b', r', hr', hnodes, hstretches⟩ := selectOpenClose_spec late (begun_of_dayPathExpand h)
    fun seg hseg => (hfew seg hseg).trans (by omega)
  refine ⟨b', r', hr', ?_, hnodes, hstretches⟩
  exact forall₂_map_eq (fun n n' (h : n'.skeleton = n.skeleton ∧ _) =>
    (congrArg NodeJ.id h.1 :)) hnodes

theorem selectOpenClose_notWorse_earlyMuseum :
    ∃ b' r', selectOpenClose (fun _ _ _ _ => false) earlyMuseum = .ok (b', r') ∧
      r'.map NodeJ.id = earlyMuseum.map NodeJ.id ∧
      List.Forall₂ (fun n n' => n'.skeleton = n.skeleton ∧ (n.isFixed → n' = n)) earlyMuseum r' ∧
      List.Forall₂ NotWorse (RouteJ.stretches earlyMuseum) (RouteJ.stretches r') :=
  selectOpenClose_notWorse _ dayPathExpand_museumDay (by decide)

end PathGenerator

end PPView
