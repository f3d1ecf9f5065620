import PPView.PathGenerator.SelectFixed
import PPView.PathGenerator.Stretches

/-!
# The selected sessions are the first possible ones

`FirstSessions r out` says what `selectFixedPoiTimes` leaves of the day `r`. Flags of sessions
that were tried before do not get into the result, since each trial starts from the input node.
-/

namespace PPView

open NodeJ

namespace PathGenerator

/-- The flags that the choice of a session looks at are clear. -/
def InPlace (n : NodeJ) : Prop := ∀ e ∈ [0, 1, 2, 5], n.error e = 0

/-- The fixed node `id` can take the session `t` after the nodes `front`. -/
structure Possible (front : RouteJ) (id : String) (t : Int × Int) : Prop where
  reached : ∃ p ∈ front.getLast?, ∃ traf, p.traffic id = some traf ∧ p.time.2 + traf ≤ t.1
  inOrder : ¬ SomeFixed front fun last _ => Reversed last t
  apart : ¬ SomeFixed front fun last _ => Overlapping last t
  enough : ¬ SomeFixed front fun last stay => NotEnough last t stay

/-- What is selected for the day `r`: every node is there, in order and unchanged but for its
arrangement; the start takes the first of its sessions that fits the first fixed node after it,
and every later fixed node the first of its sessions that is possible. -/
structure FirstSessions (r out : RouteJ) : Prop where
  nodes : out.map skeleton = r.map skeleton
  scheduled : RouteJ.Scheduled out
  start : ∀ first rest, r = first :: rest → ∃ m ∈ out.head?, ∃ j, ∃ hj : j < first.times.length,
    m.rangeIdx = some (j : Int) ∧ m.time = first.times[j] ∧
    fitsFirst first.times[j] first first.times[j].2 0 rest ∧
    ∀ i, ∀ hi : i < j, fitsFirst first.times[i] first first.times[i].2 0 rest = false
  later : ∀ front m after, out = front ++ m :: after → front ≠ [] → m.isFixed →
    InPlace m ∧ ∃ j, ∃ hj : j < m.times.length, m.rangeIdx = some (j : Int) ∧ m.time = m.times[j] ∧
      Possible front m.ident m.times[j] ∧ ∀ i, ∀ hi : i < j, ¬ Possible front m.ident m.times[i]

/-! ## One fixed node -/

theorem takes_iff_inPlace {g : PathGenerator} {stime : Int} {n : NodeJ} {j : Nat} :
    g.Takes stime n j ↔ InPlace (g.arranged stime (n.setRangeIdx j)) := by
  simp [Takes, InPlace, hasFixedConflictError, isFixedArvOnTime, and_assoc]

theorem takes_iff_possible {g : PathGenerator} {n : NodeJ} {stime : Int} {j : Nat}
    (hs : g.isSearch = false) (hout : ∀ m ∈ g.outRouteJ, m.Single) (hne : g.outRouteJ ≠ [])
    (hn : n.Single) (hx : n.isFixed) (hclear : n.error = fun _ => 0)
    (h : g.arrival n = some stime) (hj : j < n.times.length) :
    g.Takes stime n j ↔ Possible g.outRouteJ n.ident n.times[j] := by
  have hplan := nodePlan_arranged g stime (single_setRangeIdx hn j)
    (idxOk_of_fixed hx) hclear hs hout
  have hzero (e : Fin 7) : (g.arranged stime (n.setRangeIdx j)).error e = 0 ↔
      ¬ (g.arranged stime (n.setRangeIdx j)).error e = 1 := by
    have := hplan.flag e
    omega
  have hfix : (g.arranged stime (n.setRangeIdx j)).isFixed := hx
  have hsession : (g.arranged stime (n.setRangeIdx j)).session = n.times[j] :=
    session_setRangeIdx hj
  have hlast : g.outRouteJ.getLast? = some g.lastNode := by
    rw [lastNode, List.getLastD_eq_getLast?, List.getLast?_eq_some_getLast hne, Option.getD_some]
  have hreached : (∃ p ∈ g.outRouteJ.getLast?, ∃ traf, p.traffic n.ident = some traf ∧
      p.time.2 + traf ≤ n.times[j].1) ↔ stime ≤ n.times[j].1 := by
    obtain ⟨traf, htraf, rfl⟩ := Option.map_eq_some_iff.mp h
    simp [hlast, htraf]
  rw [takes_iff_inPlace]
  simp only [InPlace, List.mem_cons, List.not_mem_nil, or_false, forall_eq_or_imp, forall_eq, hzero,
    hplan.reversed, hplan.overlapping, hplan.notEnough, hplan.late, hfix,
    hsession, true_and, not_lt]
  constructor
  · rintro ⟨h0, h1, h2, h5⟩
    exact ⟨hreached.mpr h5, h0, h1, h2⟩
  · rintro ⟨h5, h0, h1, h2⟩
    exact ⟨h0, h1, h2, hreached.mp h5⟩

/-! ## The nodes after the first -/

/-- `m` is the node `n` at the first session that `g` takes. -/
def FirstTaken (g : PathGenerator) (n m : NodeJ) : Prop :=
  ∃ stime, g.arrival n = some stime ∧ ∃ j < n.times.length,
    m = g.arranged stime (n.setRangeIdx j) ∧ g.Takes stime n j ∧ ∀ i < j, ¬ g.Takes stime n i

/-- Every fixed node that the loop appends is at the first session that was taken. -/
theorem selectNodes_done {sessions : Nat} {g g' : PathGenerator} {fixIdx : Nat} {rest : RouteJ}
    (hrest : ∀ n ∈ rest, n.Single) (h : selectNodes sessions g fixIdx rest = .ok (.done g')) :
    ∃ tail, g'.outRouteJ = g.outRouteJ ++ tail ∧
      ∀ pre m post, tail = pre ++ m :: post → m.isFixed →
        ∃ n ∈ rest, FirstTaken { g with outRouteJ := g.outRouteJ ++ pre } n m := by
  induction rest generalizing g fixIdx with
  | nil =>
    obtain rfl : g = g' := by simpa [selectNodes, pure, Except.pure] using h
    exact ⟨[], by simp, by simp⟩
  | cons n rest ih =>
    have hn : n.Single := hrest n (by simp)
    have hrest : ∀ n ∈ rest, n.Single := fun m hm => hrest m (by simp [hm])
    -- the node appended for `n` comes before what the rest of the loop appends
    have hcons {fixIdx : Nat} {m : NodeJ}
        (hm : m.isFixed → FirstTaken g n m)
        (h : selectNodes sessions (g.append m) fixIdx rest = .ok (.done g')) :
        ∃ tail, g'.outRouteJ = g.outRouteJ ++ tail ∧
          ∀ pre m post, tail = pre ++ m :: post → m.isFixed →
            ∃ n' ∈ n :: rest, FirstTaken { g with outRouteJ := g.outRouteJ ++ pre } n' m := by
      obtain ⟨tail, hout, htail⟩ := ih hrest h
      refine ⟨m :: tail, by simp [hout, append], fun pre m' post heq hx => ?_⟩
      cases pre with
      | nil =>
        obtain ⟨rfl, -⟩ := List.cons_eq_cons.mp heq
        exact ⟨n, by simp, by simpa using hm hx⟩
      | cons m₀ pre =>
        rw [List.cons_append, List.cons_eq_cons] at heq
        obtain ⟨rfl, heq⟩ := heq
        obtain ⟨n', hn', hfirst⟩ := htail pre m' post heq hx
        have happ : (g.append m).outRouteJ ++ pre = g.outRouteJ ++ m :: pre := by simp [append]
        rw [happ] at hfirst
        exact ⟨n', by simp [hn'], hfirst⟩
    unfold selectNodes at h
    cases hx : n.isFixed with
    | false =>
      rw [if_pos (hn.isFree hx), setNodeError_eq_arrival g (single_setRangeIdx hn (-1))] at h
      cases ha : g.arrival (n.setRangeIdx (-1)) with
      | none => simp [ha, bind, Except.bind, pure, Except.pure] at h
      | some stime =>
        simp only [ha, idxOk_setRangeIdx_neg, if_true, bind, Except.bind] at h
        refine hcons (fun hm => ?_) h
        exact absurd (hx.symm.trans hm) Bool.false_ne_true
    | true =>
      rw [if_neg (by simp [hn.not_isFree hx]), if_pos hx] at h
      obtain ⟨⟨b, m⟩, hbm, h⟩ := bind_ok.mp h
      cases b with
      | false =>
        simp only [Bool.not_false, true_and, if_true] at h
        split_ifs at h <;> simp [pure, Except.pure] at h
      | true =>
        simp only [Bool.not_true, Bool.false_eq_true, false_and, and_false, if_false] at h
        refine hcons (fun _ => ?_) h
        cases ha : g.arrival n with
        | none =>
          obtain ⟨m', hm'⟩ := setFixedPoiTimes_of_noEdge hn ha
          simp [hm'] at hbm
        | some stime =>
          obtain ⟨b, m', hbm', -, hfirst⟩ := setFixedPoiTimes_spec hn hx ha
          obtain ⟨rfl, rfl⟩ : b = true ∧ m' = m := by simpa [hbm'] using hbm
          exact ⟨stime, ha, hfirst rfl⟩

/-- The number of sessions of the start matters only when a node cannot be placed. -/
theorem selectNodes_done_congr {sessions sessions' : Nat} {g g' : PathGenerator} {fixIdx : Nat}
    {rest : RouteJ} (h : selectNodes sessions g fixIdx rest = .ok (.done g')) :
    selectNodes sessions' g fixIdx rest = .ok (.done g') := by
  induction rest generalizing g fixIdx with
  | nil => exact h
  | cons n rest ih =>
    unfold selectNodes at h ⊢
    split_ifs at h ⊢ with hfree hx
    · obtain ⟨o, ho, h⟩ := bind_ok.mp h
      refine bind_ok.mpr ⟨o, ho, ?_⟩
      cases o with
      | none => simp [pure, Except.pure] at h
      | some m => exact ih h
    · obtain ⟨⟨b, m⟩, hbm, h⟩ := bind_ok.mp h
      refine bind_ok.mpr ⟨(b, m), hbm, ?_⟩
      cases b with
      | false =>
        simp only [Bool.not_false, true_and, if_true] at h
        split_ifs at h <;> simp [pure, Except.pure] at h
      | true =>
        simp only [Bool.not_true, Bool.false_eq_true, false_and, and_false, if_false] at h ⊢
        exact ih h
    · exact ih h

/-! ## The start -/

theorem mem_of_range_eq {n t i : Nat} {before after : List Nat}
    (h : List.range n = before ++ t :: after) (hi : i < t) : i ∈ before := by
  have hsorted : (before ++ t :: after).Pairwise (· < ·) := h ▸ List.pairwise_lt_range
  have ht : t < n := List.mem_range.mp (by simp [h])
  have hmem : i ∈ before ++ t :: after := h ▸ List.mem_range.mpr (hi.trans ht)
  rcases List.mem_append.mp hmem with hmem | hmem
  · exact hmem
  · rcases List.mem_cons.mp hmem with rfl | hmem
    · exact absurd hi (Nat.lt_irrefl _)
    · have := (List.pairwise_cons.mp (List.pairwise_append.mp hsorted).2.1).1 i hmem
      omega

/-- A selection that leaves nodes has given up the starts before the one it keeps. -/
theorem selectStarts_true {g g' : PathGenerator} {first : NodeJ} {rest : RouteJ} {ts : List Nat}
    (hrest : ∀ n ∈ rest, n.Single) (hout : g.outRouteJ = []) (hne : g'.outRouteJ ≠ [])
    (h : selectStarts first rest g ts = .ok (true, g')) :
    ∃ before t after, ts = before ++ t :: after ∧
      (∀ i ∈ before, ∃ g'', selectNodes first.times.length (g.append (startNode first i)) 0 rest =
        .ok (.restart g'')) ∧
      selectNodes first.times.length (g.append (startNode first t)) 0 rest = .ok (.done g') := by
  induction ts with
  | nil =>
    obtain rfl : g = g' := by simpa [selectStarts, pure, Except.pure] using h
    exact absurd hout hne
  | cons t ts ih =>
    obtain ⟨o, ho, hnext⟩ := bind_ok.mp h
    cases o with
    | done g'' =>
      obtain rfl : g'' = g' := by simpa [pure, Except.pure] using hnext
      exact ⟨[], t, ts, rfl, by simp, ho⟩
    | restart g'' =>
      obtain ⟨o, ho', hspec⟩ := selectNodes_spec first.times.length
        (g := g.append (startNode first t)) 0 hrest
      obtain rfl : o = .restart g'' := by simpa [ho] using ho'.symm
      have hg'' : g'' = g := by simpa [OutcomeSpec, append, ← hout] using hspec
      subst hg''
      obtain ⟨before, t', after, rfl, hbefore, hdone⟩ := ih hnext
      exact ⟨t :: before, t', after, rfl, List.forall_mem_cons.mpr ⟨⟨_, ho⟩, hbefore⟩, hdone⟩
    | failed g'' => simp [pure, Except.pure] at hnext

/-- A start that is kept fits, whether or not there was another one. -/
theorem fitsFirst_of_done {g g' : PathGenerator} {first : NodeJ} {rest : RouteJ} {t : Nat}
    (hr : RouteJ.Valid (first :: rest)) (hl : RouteJ.Linked (first :: rest))
    (hout : g.outRouteJ = []) (hs : g.isSearch = false)
    (h : selectNodes first.times.length (g.append (startNode first t)) 0 rest = .ok (.done g')) :
    fitsFirst (first.times.getD t (0, 0)) first (first.times.getD t (0, 0)).2 0 rest := by
  have hdone : selectNodes 2 (g.append (startNode first t)) 0 rest = .ok (.done g') :=
    selectNodes_done_congr h
  by_contra hfits
  have := (restart_iff_of_startNode hr hl hout hs hdone).mpr ⟨by decide, by simpa using hfits⟩
  simp at this

/-! ## The whole selection -/

theorem selectFixedPoiTimes_firstSessions {r : RouteJ} {controls : Controls} {g' : PathGenerator}
    (hr : RouteJ.Valid r) (hclear : ∀ n ∈ r, n.error = fun _ => 0)
    (h : (create r controls).selectFixedPoiTimes = .ok (true, g')) (hne : g'.outRouteJ ≠ []) :
    FirstSessions r g'.outRouteJ := by
  have hin : (create r controls).inRouteJ = r := create_inRouteJ hr controls
  obtain ⟨b, g₁, hg₁, -, hsel, -⟩ := selectFixedPoiTimes_spec (g := create r controls)
    (by rwa [hin]) rfl rfl
  obtain ⟨rfl, rfl⟩ : true = b ∧ g' = g₁ := by simpa [h] using hg₁
  obtain ⟨hsched, hskel⟩ := (hsel rfl).resolve_left hne
  rw [hin] at hskel
  obtain ⟨first, mid, last, rfl⟩ := hr.exists_eq
  have hl : RouteJ.Linked (first :: (mid ++ [last])) :=
    (RouteJ.linked_iff_of_skeleton hskel).mp hsched.linked
  have hrest : ∀ n ∈ mid ++ [last], n.Single := fun n hn => hr.single (by simp [hn])
  have heq : (create (first :: (mid ++ [last])) controls).selectFixedPoiTimes =
      selectStarts first (mid ++ [last]) (create (first :: (mid ++ [last])) controls)
        (List.range first.times.length) := by
    rw [selectFixedPoiTimes, hin]
    rfl
  rw [heq] at h
  obtain ⟨before, t, after, hts, hbefore, hdone⟩ := selectStarts_true hrest rfl hne h
  obtain ⟨tail, hout, htail⟩ := selectNodes_done hrest hdone
  have hout : g'.outRouteJ = startNode first t :: tail := hout
  refine ⟨hskel, hsched, ?_, ?_⟩
  · rintro _ _ ⟨rfl, rfl⟩
    have ht : t < first.times.length := List.mem_range.mp (by simp [hts])
    have hfit := fitsFirst_of_done hr hl rfl rfl hdone
    rw [← List.getElem_eq_getD (h := ht)] at hfit
    refine ⟨startNode first t, by simp [hout], t, ht, rfl, (List.getElem_eq_getD (0, 0)).symm, hfit,
      fun i hi => ?_⟩
    have hmem : i ∈ before := mem_of_range_eq hts hi
    obtain ⟨g'', hg''⟩ := hbefore i hmem
    have := ((restart_iff_of_startNode hr hl rfl rfl hg'').mp ⟨g'', rfl⟩).2
    rwa [← List.getElem_eq_getD (h := hi.trans ht)] at this
  · intro front m after heq hfront hx
    obtain ⟨m₀, pre, rfl⟩ := List.exists_cons_of_ne_nil hfront
    rw [hout, List.cons_append, List.cons_eq_cons] at heq
    obtain ⟨rfl, heq⟩ := heq
    obtain ⟨n, hn, stime, harr, j, hj, rfl, htakes, hfirst⟩ := htail pre m after heq hx
    have hclear' : n.error = fun _ => 0 := hclear n (by simp [hn])
    have hsingle : ∀ m ∈ startNode first t :: pre, m.Single := fun m hm =>
      (hr.of_skeleton hskel.symm).single (by
        rw [hout, heq, ← List.cons_append]
        exact List.mem_append_left _ hm)
    have hpossible {i : Nat} (hi : i < n.times.length) := takes_iff_possible
      (g := { (create (first :: (mid ++ [last])) controls).append (startNode first t) with
        outRouteJ := startNode first t :: pre }) rfl hsingle (by simp) (hrest n hn)
        hx hclear' harr hi
    refine ⟨takes_iff_inPlace.mp htakes, j, hj, rfl, ?_, (hpossible hj).mp htakes, fun i hi => ?_⟩
    · exact (if_pos hx : (n.setRangeIdx j).slot stime = (n.setRangeIdx j).session).trans
        (session_setRangeIdx hj)
    · exact fun hp => hfirst i hi ((hpossible (hi.trans hj)).mpr hp)

/-- Both ends of the day have two sessions, of which only the later ones go together. -/
def checkOutDay : RouteJ :=
  [{ id := some "hotel", toNext := some [("museum", 1800)]
     fixed := some ⟨some [(0, 90000), (0, 28800)], some 0⟩ },
   { id := some "museum", toNext := some [("inn", 1800)]
     free := some ⟨some [(28800, 64800)], some ⟨3600, 5400, 7200⟩⟩ },
   { id := some "inn", toNext := some []
     fixed := some ⟨some [(34500, 40000), (72000, 86400)], some 0⟩ }]

def checkOutPlan : RouteJ :=
  [{ id := some "hotel", toNext := some [("museum", 1800)]
     fixed := some ⟨some [(0, 90000), (0, 28800)], some 0⟩
     rangeIdx := some 1, time := (0, 28800) },
   { id := some "museum", toNext := some [("inn", 1800)]
     free := some ⟨some [(28800, 64800)], some ⟨3600, 5400, 7200⟩⟩
     rangeIdx := some (-1), time := (30600, 34200) },
   { id := some "inn", toNext := some []
     fixed := some ⟨some [(34500, 40000), (72000, 86400)], some 0⟩
     rangeIdx := some 1, time := (72000, 86400) }]

theorem selectFixedPoiTimes_firstSessions_checkOutDay :
    (create checkOutDay).selectFixedPoiTimes =
        .ok (true, { create checkOutDay with outRouteJ := checkOutPlan }) ∧
      FirstSessions checkOutDay checkOutPlan := by
  have h : (create checkOutDay).selectFixedPoiTimes =
      .ok (true, { create checkOutDay with outRouteJ := checkOutPlan }) := by decide +kernel
  refine ⟨h, selectFixedPoiTimes_firstSessions (r := checkOutDay) ?_ (by simp [checkOutDay]) h
    (by decide)⟩
  exact ⟨by decide, by simp [checkOutDay, isFixed], by simp [checkOutDay, isFixed]⟩

end PathGenerator

end PPView
