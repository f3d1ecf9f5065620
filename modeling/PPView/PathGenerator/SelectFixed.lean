import PPView.PathGenerator.DayPathExpand

/-!
# Selecting sessions

`setFixedPoiTimes` takes the first session of a fixed node that can be reached and that is in
conflict with no earlier fixed node. `selectFixedPoiTimes` does so along the day and, as long as
the first fixed node after the start has no such session, tries the next session of the start.
-/

namespace PPView

open NodeJ

namespace PathGenerator

/-! ## The loops -/

/-- The loop of `setFixedPoiTimes` over the session indices; `tmpNode` is the last trial. -/
def trySessions (g : PathGenerator) (nodeJ : NodeJ) : NodeJ → List Nat → Res (Bool × NodeJ)
  | tmpNode, [] => pure (false, tmpNode)
  | _, j :: js => do
    match ← g.setNodeError (nodeJ.setRangeIdx j) with
    | none => pure (false, nodeJ)
    | some tmpNode =>
      if tmpNode.hasFixedConflictError || !tmpNode.isFixedArvOnTime then
        g.trySessions nodeJ tmpNode js
      else pure (true, tmpNode)

def setFixedPoiTimes (g : PathGenerator) (nodeJ : NodeJ) : Res (Bool × NodeJ) :=
  g.trySessions nodeJ nodeJ (List.range nodeJ.times.length)

/-- How the loop over the nodes after the first ends: with all nodes appended, with the start
in conflict with the first fixed node, or with the result `false`. -/
inductive Outcome where
  | done (g : PathGenerator)
  | restart (g : PathGenerator)
  | failed (g : PathGenerator)
  deriving DecidableEq

/-- The loop over the nodes after the first, for a start with `sessions` sessions. -/
def selectNodes (sessions : Nat) : PathGenerator → (fixIdx : Nat) → RouteJ → Res Outcome
  | g, _, [] => pure (.done g)
  | g, fixIdx, nodeJ :: rest =>
    if nodeJ.isFree then do
      match ← g.setNodeError (nodeJ.setRangeIdx (-1)) with
      | none => pure (.failed g)
      | some nodeJ => selectNodes sessions (g.append nodeJ) fixIdx rest
    else if nodeJ.isFixed then do
      let (appendSuccess, nodeJ) ← g.setFixedPoiTimes nodeJ
      if fixIdx + 1 = 1 ∧ !appendSuccess ∧ sessions > 1 then
        pure (.restart { g with outRouteJ := [] })
      else if !appendSuccess then pure (.failed g)
      else selectNodes sessions (g.append nodeJ) (fixIdx + 1) rest
    else selectNodes sessions (g.append nodeJ) fixIdx rest

/-- The first node at its session `tNum`. -/
def startNode (firstNode : NodeJ) (tNum : Nat) : NodeJ :=
  ({ firstNode with time := firstNode.times.getD tNum (0, 0) } : NodeJ).setRangeIdx tNum

/-- The loop of `selectFixedPoiTimes` over the sessions of the first node. It also ends, with
the result `true`, when the sessions are used up. -/
def selectStarts (firstNode : NodeJ) (rest : RouteJ) :
    PathGenerator → List Nat → Res (Bool × PathGenerator)
  | g, [] => pure (true, g)
  | g, tNum :: tNums => do
    match ← selectNodes firstNode.times.length (g.append (startNode firstNode tNum)) 0 rest with
    | .done g => pure (true, g)
    | .restart g => selectStarts firstNode rest g tNums
    | .failed g => pure (false, g)

def selectFixedPoiTimes (g : PathGenerator) : Res (Bool × PathGenerator) :=
  let firstNode := g.inRouteJ.headD default
  selectStarts firstNode g.inRouteJ.tail g (List.range firstNode.times.length)

/-! ## One fixed node -/

/-- The session `j` of `n`, reached at `stime`, is taken. -/
def Takes (g : PathGenerator) (stime : Int) (n : NodeJ) (j : Nat) : Prop :=
  (g.arranged stime (n.setRangeIdx j)).hasFixedConflictError = false ∧
    (g.arranged stime (n.setRangeIdx j)).isFixedArvOnTime

theorem single_setRangeIdx {n : NodeJ} (hn : n.Single) (i : Int) : (n.setRangeIdx i).Single := hn

theorem idxOk_of_fixed {n : NodeJ} (hx : n.isFixed) : n.idxOk := by simp [idxOk, hx]

theorem trySessions_of_noEdge {g : PathGenerator} {n : NodeJ} (hn : n.Single)
    (h : g.arrival n = none) (tmp : NodeJ) (js : List Nat) :
    ∃ m, g.trySessions n tmp js = .ok (false, m) := by
  cases js with
  | nil => exact ⟨tmp, rfl⟩
  | cons j js =>
    have harr : g.arrival (n.setRangeIdx j) = none := h
    refine ⟨n, ?_⟩
    rw [trySessions, setNodeError_eq_arrival g (single_setRangeIdx hn j), harr]
    rfl

instance (g : PathGenerator) (stime : Int) (n : NodeJ) (j : Nat) : Decidable (g.Takes stime n j) :=
  inferInstanceAs (Decidable (_ ∧ _))

/-- The first session that is taken ends the loop. -/
theorem trySessions_spec {g : PathGenerator} {n : NodeJ} (hn : n.Single) (hx : n.isFixed)
    {stime : Int} (h : g.arrival n = some stime) (tmp : NodeJ) (js : List Nat) :
    ∃ m, g.trySessions n tmp js = .ok ((js.find? fun j => g.Takes stime n j).isSome, m) ∧
      ∀ j, js.find? (fun j => g.Takes stime n j) = some j →
        m = g.arranged stime (n.setRangeIdx j) := by
  induction js generalizing tmp with
  | nil => exact ⟨tmp, rfl, by simp⟩
  | cons j js ih =>
    have harr : g.arrival (n.setRangeIdx j) = some stime := h
    have hidx : (n.setRangeIdx j).idxOk := idxOk_of_fixed hx
    rw [trySessions, setNodeError_eq_arrival g (single_setRangeIdx hn j), harr]
    simp only [hidx, if_true, bind, Except.bind]
    by_cases ht : g.Takes stime n j
    · have hfind : (j :: js).find? (fun j => g.Takes stime n j) = some j :=
        List.find?_cons_of_pos (by simpa using ht)
      rw [hfind]
      refine ⟨g.arranged stime (n.setRangeIdx j), ?_, fun i hi => ?_⟩
      · simp [ht.1, ht.2, pure, Except.pure]
      · obtain rfl : j = i := by simpa using hi
        rfl
    · have hfind : (j :: js).find? (fun j => g.Takes stime n j) =
          js.find? fun j => g.Takes stime n j :=
        List.find?_cons_of_neg (by simpa using ht)
      rw [hfind, if_pos]
      · exact ih (g.arranged stime (n.setRangeIdx j))
      · simpa [Takes, imp_iff_not_or, or_comm] using ht

theorem setFixedPoiTimes_of_noEdge {g : PathGenerator} {n : NodeJ} (hn : n.Single)
    (h : g.arrival n = none) : ∃ m, g.setFixedPoiTimes n = .ok (false, m) :=
  trySessions_of_noEdge hn h _ _

theorem setFixedPoiTimes_spec {g : PathGenerator} {n : NodeJ} (hn : n.Single) (hx : n.isFixed)
    {stime : Int} (h : g.arrival n = some stime) :
    ∃ b m, g.setFixedPoiTimes n = .ok (b, m) ∧
      (b ↔ ∃ j < n.times.length, g.Takes stime n j) ∧
      (b → ∃ j < n.times.length, m = g.arranged stime (n.setRangeIdx j) ∧ g.Takes stime n j ∧
        ∀ i < j, ¬ g.Takes stime n i) := by
  obtain ⟨m, hbm, hm⟩ := trySessions_spec hn hx h n (List.range n.times.length)
  refine ⟨_, m, hbm, by simp, fun hb => ?_⟩
  obtain ⟨j, hj⟩ := Option.isSome_iff_exists.mp hb
  have hfirst := List.find?_range_eq_some.mp hj
  simp only [decide_eq_true_eq, List.mem_range, Bool.not_eq_true', decide_eq_false_iff_not]
    at hfirst
  exact ⟨j, hfirst.2.1, hm j hj, hfirst.1, hfirst.2.2⟩

/-! ## The nodes after the first -/

/-- What is known about `g` when the loop over `rest` ends with an outcome. -/
def OutcomeSpec (g : PathGenerator) (rest : RouteJ) : Outcome → Prop
  | .done g' => ∃ tail, g' = { g with outRouteJ := g.outRouteJ ++ tail } ∧
      tail.map skeleton = rest.map skeleton ∧ (g.lastNode :: tail).IsChain Follows
  | .restart g' => g' = { g with outRouteJ := [] }
  | .failed g' => g' = { g with outRouteJ := g'.outRouteJ }

theorem OutcomeSpec.cons {g : PathGenerator} {m n : NodeJ} {rest : RouteJ} {o : Outcome}
    (hskel : m.skeleton = n.skeleton) (hfollows : Follows g.lastNode m)
    (h : OutcomeSpec (g.append m) rest o) : OutcomeSpec g (n :: rest) o := by
  cases o with
  | done g' =>
    obtain ⟨tail, rfl, hmap, hchain⟩ := h
    rw [lastNode_append] at hchain
    exact ⟨m :: tail, by simp [append], by simp [hskel, hmap],
      List.isChain_cons_cons.mpr ⟨hfollows, hchain⟩⟩
  | restart g' => exact h
  | failed g' => exact h

theorem skeleton_arranged (g : PathGenerator) (stime : Int) (n : NodeJ) (i : Int) :
    (g.arranged stime (n.setRangeIdx i)).skeleton = n.skeleton := rfl

theorem follows_arranged {g : PathGenerator} {n : NodeJ} {stime : Int} (hidx : n.idxOk)
    (h : g.arrival n = some stime) : Follows g.lastNode (g.arranged stime n) := by
  obtain ⟨traf, htraf, rfl⟩ := Option.map_eq_some_iff.mp h
  exact ⟨traf, htraf, hidx, rfl⟩

theorem idxOk_setRangeIdx_neg (n : NodeJ) : (n.setRangeIdx (-1)).idxOk := by
  simp [idxOk, openIdx, setRangeIdx]

theorem selectNodes_spec (sessions : Nat) {g : PathGenerator} (fixIdx : Nat) {rest : RouteJ}
    (hrest : ∀ n ∈ rest, n.Single) :
    ∃ o, selectNodes sessions g fixIdx rest = .ok o ∧ OutcomeSpec g rest o := by
  induction rest generalizing g fixIdx with
  | nil => exact ⟨.done g, rfl, [], by simp, rfl, by simp⟩
  | cons n rest ih =>
    have hn : n.Single := hrest n (by simp)
    have hrest : ∀ n ∈ rest, n.Single := fun m hm => hrest m (by simp [hm])
    unfold selectNodes
    cases hx : n.isFixed with
    | false =>
      rw [if_pos (hn.isFree hx), setNodeError_eq_arrival g (single_setRangeIdx hn (-1))]
      cases ha : g.arrival (n.setRangeIdx (-1)) with
      | none => exact ⟨.failed g, rfl, rfl⟩
      | some stime =>
        simp only [idxOk_setRangeIdx_neg, if_true, bind, Except.bind]
        obtain ⟨o, ho, hspec⟩ := ih fixIdx hrest
        exact ⟨o, ho, hspec.cons (skeleton_arranged g stime n (-1))
          (follows_arranged (idxOk_setRangeIdx_neg n) ha)⟩
    | true =>
      rw [if_neg (by simp [hn.not_isFree hx]), if_pos rfl]
      cases ha : g.arrival n with
      | none =>
        obtain ⟨m, hm⟩ := setFixedPoiTimes_of_noEdge hn ha
        simp only [hm, bind, Except.bind, Bool.not_false, true_and, if_true]
        split_ifs
        · exact ⟨_, rfl, rfl⟩
        · exact ⟨_, rfl, rfl⟩
      | some stime =>
        obtain ⟨b, m, hbm, -, hm⟩ := setFixedPoiTimes_spec hn hx ha
        simp only [hbm, bind, Except.bind]
        cases b with
        | false =>
          simp only [Bool.not_false, true_and, if_true]
          split_ifs
          · exact ⟨_, rfl, rfl⟩
          · exact ⟨_, rfl, rfl⟩
        | true =>
          obtain ⟨j, -, rfl, -⟩ := hm rfl
          simp only [Bool.not_true, Bool.false_eq_true, false_and, and_false, if_false]
          obtain ⟨o, ho, hspec⟩ := ih (fixIdx + 1) hrest
          have harr : g.arrival (n.setRangeIdx j) = some stime := ha
          exact ⟨o, ho, hspec.cons (skeleton_arranged g stime n j)
            (follows_arranged (idxOk_of_fixed hx) harr)⟩

/-! ## When a start is given up -/

/-- The first fixed node of `rest` has a session that can be reached from a start at `start`:
`clock` is when `last` is left and `playDurTime` are the stays since the start. -/
def fitsFirst (start : Int × Int) : (last : NodeJ) → (clock playDurTime : Int) → RouteJ → Bool
  | _, _, _, [] => true
  | last, clock, playDurTime, n :: rest =>
    match last.traffic n.ident with
    | none => false
    | some traf =>
      if n.isFixed then
        !n.hasFixedConflictError && n.isFixedArvOnTime && n.times.any fun t =>
          (sessionConflict start t playDurTime).isNone && decide (clock + traf ≤ t.1)
      else
        fitsFirst start n (clock + traf + n.durs.min) (playDurTime + n.durs.min) rest

/-- As far as the look-back goes, `g` holds one fixed node at `start` and free nodes staying
`playDurTime` after it. -/
def LooksBackTo (g : PathGenerator) (start : Int × Int) (playDurTime : Int) : Prop :=
  g.isSearch = false ∧ ∀ t e d, backRaises false t e g.outRouteJ.reverse d =
    (sessionConflict start t (playDurTime + d) == some e)

theorem looksBackTo_start {g : PathGenerator} {n : NodeJ} (hs : g.isSearch = false)
    (hout : g.outRouteJ = []) (hx : n.isFixed) : LooksBackTo (g.append n) n.time 0 := by
  refine ⟨hs, fun t e d => ?_⟩
  simp only [append, hout, List.nil_append, List.reverse_singleton, backRaises, hx, if_true,
    Int.zero_add]
  cases sessionConflict n.time t d <;> simp

theorem LooksBackTo.append {g : PathGenerator} {start : Int × Int} {playDurTime : Int} {m : NodeJ}
    (h : LooksBackTo g start playDurTime) (hx : m.isFixed = false) :
    LooksBackTo (g.append m) start (playDurTime + (m.time.2 - m.time.1)) := by
  refine ⟨h.1, fun t e d => ?_⟩
  simp only [PathGenerator.append, List.reverse_append, List.reverse_singleton,
    List.singleton_append, backRaises, hx, Bool.false_eq_true, if_false, h.2]
  rw [show playDurTime + (d + (m.time.2 - m.time.1)) =
    playDurTime + (m.time.2 - m.time.1) + d by omega]

theorem session_setRangeIdx {n : NodeJ} {j : Nat} (hj : j < n.times.length) :
    (n.setRangeIdx j).session = n.times[j] := by
  have hidx : (n.setRangeIdx j).sessionIdx = j := by
    have htimes : (n.setRangeIdx j).times = n.times := rfl
    have hrange : (n.setRangeIdx j).rangeIdx = some (j : Int) := rfl
    simp only [sessionIdx, hrange, htimes]
    rw [if_neg (by omega), Int.toNat_natCast]
  rw [session, hidx]
  exact List.getElem_eq_getD (0, 0) |>.symm

theorem slot_setRangeIdx_neg {n : NodeJ} (hx : n.isFixed = false) (stime : Int) :
    (n.setRangeIdx (-1)).slot stime = (stime, stime + n.durs.min) := by
  have hx' : (n.setRangeIdx (-1)).isFixed = false := hx
  have hsel : (n.setRangeIdx (-1)).selected = none := by simp [selected, setRangeIdx]
  rw [slot, if_neg (by simp [hx']), startAt, hsel]
  rfl

theorem takes_iff {g : PathGenerator} {start : Int × Int} {playDurTime stime : Int} {n : NodeJ}
    {j : Nat} (hg : LooksBackTo g start playDurTime) (hx : n.isFixed) (hj : j < n.times.length) :
    g.Takes stime n j ↔ n.hasFixedConflictError = false ∧ n.isFixedArvOnTime ∧
      sessionConflict start n.times[j] playDurTime = none ∧ stime ≤ n.times[j].1 := by
  have herr (e : Fin 7) : (g.arranged stime (n.setRangeIdx j)).error e = 0 ↔
      g.raises stime (n.setRangeIdx j) e = false ∧ n.error e = 0 := by
    have hn : (n.setRangeIdx j).error e = n.error e := rfl
    rw [arranged_error, hn]
    cases g.raises stime (n.setRangeIdx j) e <;> simp
  have hfix : (n.setRangeIdx j).isFixed := hx
  have hback (e : Fin 7) : backRaises g.isSearch (n.setRangeIdx j).session e g.outRouteJ.reverse 0 =
      (sessionConflict start n.times[j] playDurTime == some e) := by
    rw [hg.1, hg.2, session_setRangeIdx hj, Int.add_zero]
  have hraises (e : Fin 7) (he : e ≤ 2) : g.raises stime (n.setRangeIdx j) e = false ↔
      sessionConflict start n.times[j] playDurTime ≠ some e := by
    have : g.raises stime (n.setRangeIdx j) e =
        ((n.setRangeIdx j).isFixed && backRaises g.isSearch (n.setRangeIdx j).session e
          g.outRouteJ.reverse 0) := by
      fin_cases e <;> first | rfl | simp at he
    rw [this, hfix, hback]
    simp
  have hlate : g.raises stime (n.setRangeIdx j) 5 = false ↔ stime ≤ n.times[j].1 := by
    simp [raises, hfix, session_setRangeIdx hj]
  simp only [Takes, hasFixedConflictError, isFixedArvOnTime, bne_eq_false_iff_eq, beq_iff_eq,
    Bool.or_eq_false_iff, herr, hlate, hraises 0 (by decide), hraises 1 (by decide),
    hraises 2 (by decide)]
  constructor
  · rintro ⟨⟨⟨⟨h0, e0⟩, h1, e1⟩, h2, e2⟩, hle, e5⟩
    refine ⟨⟨⟨e0, e1⟩, e2⟩, e5, ?_, hle⟩
    cases hc : sessionConflict start n.times[j] playDurTime with
    | none => rfl
    | some e =>
      have := sessionConflict_le hc
      rw [hc] at h0 h1 h2
      fin_cases e <;> simp_all
  · rintro ⟨⟨⟨e0, e1⟩, e2⟩, e5, hc, hle⟩
    simp [hc, e0, e1, e2, e5, hle]

/-- A fixed node is set when one of its sessions is late enough and has no conflict. -/
theorem setFixedPoiTimes_fits {g : PathGenerator} {n : NodeJ} {start : Int × Int}
    {stime playDurTime : Int} (hn : n.Single) (hx : n.isFixed = true)
    (harr : g.arrival n = some stime) (hg : LooksBackTo g start playDurTime) :
    ∃ b m, g.setFixedPoiTimes n = .ok (b, m) ∧
      b = (!n.hasFixedConflictError && n.isFixedArvOnTime && n.times.any fun t =>
        (sessionConflict start t playDurTime).isNone && decide (stime ≤ t.1)) := by
  obtain ⟨b, m, hbm, hb, -⟩ := setFixedPoiTimes_spec hn hx harr
  refine ⟨b, m, hbm, ?_⟩
  rw [Bool.eq_iff_iff, hb]
  simp only [Bool.and_eq_true, Bool.not_eq_true', List.any_eq_true, Option.isNone_iff_eq_none,
    decide_eq_true_eq]
  constructor
  · rintro ⟨j, hj, ht⟩
    obtain ⟨h1, h2, h3⟩ := (takes_iff hg hx hj).mp ht
    exact ⟨⟨h1, h2⟩, n.times[j], List.getElem_mem hj, h3⟩
  · rintro ⟨⟨h1, h2⟩, t, ht, h3⟩
    obtain ⟨j, hj, rfl⟩ := List.mem_iff_getElem.mp ht
    exact ⟨j, hj, (takes_iff hg hx hj).mpr ⟨h1, h2, h3⟩⟩

/-- Past the first fixed node the loop does not restart. -/
theorem selectNodes_ne_restart (sessions : Nat) {g g' : PathGenerator} {fixIdx : Nat}
    {rest : RouteJ} (hfix : fixIdx ≠ 0) :
    selectNodes sessions g fixIdx rest ≠ .ok (.restart g') := by
  induction rest generalizing g fixIdx with
  | nil => simp [selectNodes, pure, Except.pure]
  | cons n rest ih =>
    intro h
    unfold selectNodes at h
    split_ifs at h with hfree hx
    · obtain ⟨o, -, ho⟩ := bind_ok.mp h
      cases o with
      | none => simp [pure, Except.pure] at ho
      | some m => exact ih hfix ho
    · obtain ⟨⟨b, m⟩, -, ho⟩ := bind_ok.mp h
      have hne : ¬ (fixIdx + 1 = 1) := by omega
      simp only [hne, false_and, if_false] at ho
      cases b with
      | false => simp [pure, Except.pure] at ho
      | true => exact ih (Nat.succ_ne_zero fixIdx) (by simpa using ho)
    · exact ih hfix h

theorem selectNodes_restart_iff {sessions : Nat} {g : PathGenerator} {rest : RouteJ} {o : Outcome}
    {start : Int × Int} {last : NodeJ} {clock playDurTime : Int}
    (hrest : ∀ n ∈ rest, n.Single) (hfix : ∃ n ∈ rest, n.isFixed)
    (hlinked : (last :: rest).IsChain HasEdge) (hlast : g.lastNode.toNext = last.toNext)
    (hclock : g.lastNode.time.2 = clock) (hg : LooksBackTo g start playDurTime)
    (h : selectNodes sessions g 0 rest = .ok o) :
    (∃ g', o = .restart g') ↔
      1 < sessions ∧ fitsFirst start last clock playDurTime rest = false := by
  induction rest generalizing g last clock playDurTime with
  | nil => simp at hfix
  | cons n rest ih =>
    have hn : n.Single := hrest n (by simp)
    have hrest : ∀ n ∈ rest, n.Single := fun m hm => hrest m (by simp [hm])
    obtain ⟨hedge, hlinked⟩ := List.isChain_cons_cons.mp hlinked
    obtain ⟨traf, htraf⟩ := Option.isSome_iff_exists.mp hedge
    have htraf' : g.lastNode.traffic n.ident = some traf := by
      rw [← htraf]
      simp only [traffic, members, hlast]
    have harr : g.arrival n = some (clock + traf) := by simp [arrival, htraf', hclock]
    unfold selectNodes at h
    simp only [fitsFirst, htraf]
    cases hx : n.isFixed with
    | false =>
      have harr : g.arrival (n.setRangeIdx (-1)) = some (clock + traf) := harr
      rw [if_pos (hn.isFree hx), setNodeError_eq_arrival g (single_setRangeIdx hn (-1)), harr] at h
      simp only [idxOk_setRangeIdx_neg, if_true, bind, Except.bind] at h
      have htime := slot_setRangeIdx_neg hx (clock + traf)
      have hstay : n.durs.min = ((n.setRangeIdx (-1)).slot (clock + traf)).2 -
          ((n.setRangeIdx (-1)).slot (clock + traf)).1 := by
        rw [htime]
        omega
      have hnext : LooksBackTo (g.append (g.arranged (clock + traf) (n.setRangeIdx (-1)))) start
          (playDurTime + n.durs.min) := by
        rw [hstay]
        exact hg.append hx
      rw [if_neg Bool.false_ne_true]
      refine ih hrest ?_ hlinked ?_ ?_ hnext h
      · simpa [hx] using hfix
      · rw [lastNode_append]
        rfl
      · rw [lastNode_append]
        exact congrArg Prod.snd htime
    | true =>
      rw [if_neg (by simp [hn.not_isFree hx]), if_pos hx] at h
      obtain ⟨b, m, hbm, hfits⟩ := setFixedPoiTimes_fits hn hx harr hg
      simp only [hbm, bind, Except.bind] at h
      simp only [if_true, ← hfits]
      cases b with
      | false =>
        simp only [Nat.zero_add, Bool.not_false, true_and, if_true] at h
        split_ifs at h with hs
        · obtain rfl : Outcome.restart _ = o := by simpa [pure, Except.pure] using h
          simp [hs]
        · obtain rfl : Outcome.failed g = o := by simpa [pure, Except.pure] using h
          simp [hs]
      | true =>
        simp only [Bool.not_true, Bool.false_eq_true, false_and, and_false, if_false] at h
        refine iff_of_false (fun hrestart => ?_) (by simp)
        obtain ⟨g', rfl⟩ := hrestart
        exact selectNodes_ne_restart sessions (Nat.succ_ne_zero 0) h

/-! ## The whole selection -/

/-- The start has only one session, or one of them fits the first fixed node after it. -/
def canStart : RouteJ → Bool
  | [] => true
  | first :: rest =>
    decide (first.times.length ≤ 1) || first.times.any fun t => fitsFirst t first t.2 0 rest

/-- What the loop over the sessions of the start leaves when it reports success: nothing, when
all sessions are given up, or the whole day. -/
def Selected (r out : RouteJ) : Prop :=
  out = [] ∨ RouteJ.Scheduled out ∧ out.map skeleton = r.map skeleton

theorem session_startNode {n : NodeJ} {t : Nat} (ht : t < n.times.length) :
    (startNode n t).session = (startNode n t).time := by
  rw [startNode, session_setRangeIdx (n := { n with time := n.times.getD t (0, 0) }) ht]
  exact List.getElem_eq_getD (0, 0)

/-- A start at `time` is given up. -/
def GivenUp (first : NodeJ) (rest : RouteJ) (time : Int × Int) : Prop :=
  1 < first.times.length ∧ fitsFirst time first time.2 0 rest = false

theorem restart_iff_of_startNode {sessions : Nat} {g : PathGenerator} {first : NodeJ}
    {rest : RouteJ} {t : Nat} {o : Outcome} (hr : RouteJ.Valid (first :: rest))
    (hl : RouteJ.Linked (first :: rest)) (hout : g.outRouteJ = []) (hs : g.isSearch = false)
    (h : selectNodes sessions (g.append (startNode first t)) 0 rest = .ok o) :
    (∃ g', o = .restart g') ↔ 1 < sessions ∧
      fitsFirst (first.times.getD t (0, 0)) first (first.times.getD t (0, 0)).2 0 rest = false := by
  have hx : (startNode first t).isFixed := hr.first first (by simp)
  refine selectNodes_restart_iff (fun n hn => hr.single (by simp [hn])) ?_ hl ?_ ?_
    (looksBackTo_start hs hout hx) h
  · obtain ⟨first', mid, last, heq⟩ := hr.exists_eq
    obtain ⟨rfl, rfl⟩ := List.cons_eq_cons.mp heq
    refine ⟨last, by simp, hr.last last ?_⟩
    rw [← List.cons_append]
    exact List.getLast?_concat
  · rw [lastNode_append]
    rfl
  · rw [lastNode_append]
    rfl

theorem selectStarts_spec {g : PathGenerator} {first : NodeJ} {rest : RouteJ} {ts : List Nat}
    (hr : RouteJ.Valid (first :: rest)) (hout : g.outRouteJ = []) (hs : g.isSearch = false)
    (hts : ∀ t ∈ ts, t < first.times.length) :
    ∃ b g', selectStarts first rest g ts = .ok (b, g') ∧ g' = { g with outRouteJ := g'.outRouteJ } ∧
      (b → Selected (first :: rest) g'.outRouteJ) ∧
      (RouteJ.Linked (first :: rest) → (b ∧ g'.outRouteJ = [] ↔
        ∀ t ∈ ts, GivenUp first rest (first.times.getD t (0, 0)))) := by
  induction ts with
  | nil => exact ⟨true, g, rfl, rfl, fun _ => .inl hout, by simp [hout]⟩
  | cons t ts ih =>
    have ht : t < first.times.length := hts t (by simp)
    obtain ⟨b, g', hg', hframe, hsel, hiff⟩ := ih fun t ht => hts t (by simp [ht])
    obtain ⟨o, ho, hspec⟩ := selectNodes_spec first.times.length
      (g := g.append (startNode first t)) 0 fun n (hn : n ∈ rest) => hr.single (by simp [hn])
    have hgive (hl : RouteJ.Linked (first :: rest)) : (∃ g', o = .restart g') ↔
        GivenUp first rest (first.times.getD t (0, 0)) :=
      restart_iff_of_startNode hr hl hout hs ho
    rw [selectStarts, ho]
    simp only [bind, Except.bind]
    cases o with
    | done g'' =>
      obtain ⟨tail, rfl, hskel, hchain⟩ := hspec
      rw [lastNode_append] at hchain
      refine ⟨true, _, rfl, rfl, fun _ => .inr ⟨⟨?_, ?_⟩, ?_⟩, fun hl => ?_⟩
      · simp [append, hout, session_startNode ht]
      · simpa [append, hout] using hchain
      · simp only [append, hout, List.nil_append, List.cons_append, List.map_cons, hskel]
        rfl
      · have hng := (hgive hl).not.mp (by simp)
        exact iff_of_false (by simp [append]) fun hall => hng (hall t (by simp))
    | restart g'' =>
      have hg'' : g'' = g := by simpa [OutcomeSpec, append, ← hout] using hspec
      subst hg''
      refine ⟨b, g', hg', hframe, hsel, fun hl => ?_⟩
      rw [hiff hl, List.forall_mem_cons, ← hgive hl]
      simp
    | failed g'' =>
      refine ⟨false, g'', rfl, hspec, by simp, fun hl => ?_⟩
      have hng := (hgive hl).not.mp (by simp)
      exact iff_of_false (by simp) fun hall => hng (hall t (by simp))

theorem selectFixedPoiTimes_spec {g : PathGenerator} (hr : RouteJ.Valid g.inRouteJ)
    (hout : g.outRouteJ = []) (hs : g.isSearch = false) :
    ∃ b g', g.selectFixedPoiTimes = .ok (b, g') ∧ g' = { g with outRouteJ := g'.outRouteJ } ∧
      (b → Selected g.inRouteJ g'.outRouteJ) ∧
      (RouteJ.Linked g.inRouteJ → (b ∧ g'.outRouteJ = [] ↔ canStart g.inRouteJ = false)) := by
  obtain ⟨first, rest, hin⟩ : ∃ first rest, g.inRouteJ = first :: rest := by
    obtain ⟨first, mid, last, h⟩ := hr.exists_eq
    exact ⟨first, _, h⟩
  have heq : g.selectFixedPoiTimes =
      selectStarts first rest g (List.range first.times.length) := by
    rw [selectFixedPoiTimes, hin]
    rfl
  rw [hin] at hr
  obtain ⟨b, g', hg', hframe, hsel, hiff⟩ := selectStarts_spec hr hout hs
    fun t (ht : t ∈ List.range first.times.length) => List.mem_range.mp ht
  refine ⟨b, g', heq.trans hg', hframe, fun hb => hin ▸ hsel hb, fun hl => ?_⟩
  rw [hin] at hl ⊢
  refine (hiff hl).trans ?_
  have hne : 0 < first.times.length :=
    List.length_pos_iff.mpr (hr.times_ne (by simp) (hr.first first (by simp)))
  simp only [canStart, Bool.or_eq_false_iff, decide_eq_false_iff_not, not_le, List.any_eq_false,
    Bool.not_eq_true, List.mem_range]
  constructor
  · intro h
    refine ⟨(h 0 hne).1, fun t ht => ?_⟩
    obtain ⟨i, hi, rfl⟩ := List.mem_iff_getElem.mp ht
    rw [List.getElem_eq_getD (0, 0)]
    exact (h i hi).2
  · rintro ⟨hlen, h⟩ t ht
    refine ⟨hlen, h _ ?_⟩
    rw [← List.getElem_eq_getD (0, 0)]
    exact List.getElem_mem ht

end PathGenerator

end PPView
