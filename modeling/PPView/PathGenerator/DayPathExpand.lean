import PPView.PathGenerator.Expansion

/-!
# DayPathExpand

What one left-to-right pass over a valid day leaves: `DayPlan r out` places every node of `out`
and says when each of its flags is set. A pass over a day that is already scheduled changes no
time (`dayPathExpand_of_scheduled`).
-/

namespace PPView

open NodeJ

theorem NodeJ.idxOk_of_le {n : NodeJ} (h : ∀ i, n.rangeIdx = some i → -1 ≤ i) : n.idxOk := by
  have hidx : -1 ≤ n.openIdx := by
    unfold openIdx
    cases hr : n.rangeIdx with
    | none => simp
    | some i =>
      have := h i hr
      simp only []
      split_ifs <;> omega
  simp [idxOk, hidx]

namespace RouteJ

/-- The routes the planner is called with: accepted by `checkRouteJ`, fixed at both ends. -/
structure Valid (r : RouteJ) : Prop where
  check : checkRouteJ r
  first : ∀ n ∈ r.head?, n.isFixed
  last : ∀ n ∈ r.getLast?, n.isFixed

theorem Valid.two_le {r : RouteJ} (h : Valid r) : 2 ≤ r.length := by
  have := h.check
  unfold checkRouteJ at this
  split_ifs at this with hlen
  omega

theorem Valid.checkNodeJ {r : RouteJ} (h : Valid r) {n : NodeJ} (hn : n ∈ r) : n.checkNodeJ := by
  have hcheck := h.check
  unfold checkRouteJ at hcheck
  split_ifs at hcheck
  exact List.all_eq_true.mp hcheck n hn

theorem Valid.single {r : RouteJ} (h : Valid r) {n : NodeJ} (hn : n ∈ r) : n.Single :=
  checkNodeJ_xor (h.checkNodeJ hn)

theorem Valid.times_ne {r : RouteJ} (h : Valid r) {n : NodeJ} (hn : n ∈ r) (hx : n.isFixed) :
    n.times ≠ [] :=
  checkNodeJ_times (h.checkNodeJ hn) hx

theorem Valid.exists_eq {r : RouteJ} (h : Valid r) :
    ∃ first mid last, r = first :: (mid ++ [last]) := by
  have hlen := h.two_le
  match r, hlen with
  | first :: m :: rest, _ =>
    exact ⟨first, (m :: rest).dropLast, (m :: rest).getLast (by simp),
      by rw [List.dropLast_append_getLast]⟩

/-- A day that has been expanded to its end. -/
structure Expanded (r : RouteJ) : Prop where
  valid : Valid r
  scheduled : Scheduled r

/-- What a pass over a day leaves, whether or not it gets to the end. -/
structure Begun (r : RouteJ) : Prop where
  check : ∀ n ∈ r, n.checkNodeJ
  first : ∀ n ∈ r.head?, n.isFixed
  scheduled : Scheduled r

theorem Expanded.begun {r : RouteJ} (h : Expanded r) : Begun r :=
  ⟨fun _ hn => h.valid.checkNodeJ hn, h.valid.first, h.scheduled⟩

theorem idxOk_of_isChain {p : NodeJ} {r : RouteJ} (h : (p :: r).IsChain Follows) :
    ∀ n ∈ r, n.idxOk := by
  induction r generalizing p with
  | nil => simp
  | cons n r ih =>
    obtain ⟨⟨_, -, hidx, -⟩, h⟩ := List.isChain_cons_cons.mp h
    exact List.forall_mem_cons.mpr ⟨hidx, ih h⟩

/-- In an expanded day every interval index can be read. -/
theorem Expanded.idxOk {r : RouteJ} (h : Expanded r) : ∀ n ∈ r, n.idxOk := by
  obtain ⟨first, mid, last, rfl⟩ := h.valid.exists_eq
  have hx : first.isFixed := h.valid.first first (by simp)
  exact List.forall_mem_cons.mpr ⟨by simp [NodeJ.idxOk, hx], idxOk_of_isChain h.scheduled.2⟩

end RouteJ

namespace PathGenerator

theorem touchTimes_eq {n : NodeJ} (h : n.times ≠ []) : n.touchTimes = n := by
  simp [touchTimes, h]

theorem touchBorders_concat (n last : NodeJ) (mid : RouteJ) :
    touchBorders (n :: (mid ++ [last])) = n.touchTimes :: (mid ++ [last.touchTimes]) := by
  cases mid with
  | nil => rfl
  | cons m mid =>
    have hlast : (m :: (mid ++ [last])).getLastD m = last := by
      rw [← List.cons_append, List.getLastD_concat]
    have hdrop : (m :: (mid ++ [last])).dropLast = m :: mid := by
      rw [← List.cons_append, List.dropLast_concat]
    rw [List.cons_append, touchBorders, hlast, hdrop]

/-- The constructor creates no members on a valid route. -/
theorem touchBorders_eq {r : RouteJ} (h : RouteJ.Valid r) : touchBorders r = r := by
  obtain ⟨n, mid, last, rfl⟩ := h.exists_eq
  have hn : n.times ≠ [] := h.times_ne (by simp) (h.first n (by simp))
  have hlast : last.times ≠ [] := by
    refine h.times_ne (by simp) (h.last last ?_)
    rw [← List.cons_append]
    exact List.getLast?_concat
  rw [touchBorders_concat, touchTimes_eq hn, touchTimes_eq hlast]

theorem create_inRouteJ {r : RouteJ} (h : RouteJ.Valid r) (controls : Controls) :
    (create r controls).inRouteJ = r := touchBorders_eq h

/-- `DayPathExpand` is the expansion of the route after its first node. -/
theorem dayPathExpand_eq_ok {g g' : PathGenerator} {b : Bool} {n : NodeJ} {rest : RouteJ}
    (h : RouteJ.Valid g.inRouteJ) (hr : g.inRouteJ = n :: rest) :
    g.dayPathExpand = .ok (b, g') ↔
      ∃ tail, Expansion (g.append { n with time := n.session }) rest tail b ∧
        g' = { g with outRouteJ := g.outRouteJ ++ { n with time := n.session } :: tail } := by
  have hsingle : ∀ m ∈ rest, m.Single := fun m hm => h.single (by simp [hr, hm])
  have heq : g.dayPathExpand = (g.append { n with time := n.session }).expandLoop rest := by
    simp only [dayPathExpand, h.check, Bool.not_true, Bool.false_eq_true, if_false]
    rw [hr]
  simp [heq, expandLoop_eq_ok hsingle, append]

/-- A node after the first to which no edge is missing. -/
def RouteJ.Reaches (r : RouteJ) (n : NodeJ) : Prop :=
  ∃ first pre post, r = first :: (pre ++ n :: post) ∧ RouteJ.Linked (first :: (pre ++ [n]))

/-- `DayPathExpand` faults exactly on accepted routes that reach an unreadable index. -/
theorem dayPathExpand_eq_error {g : PathGenerator} {e : Fault} :
    g.dayPathExpand = .error e ↔ e = .negativeIndex ∧ checkRouteJ g.inRouteJ ∧
      ∃ n, RouteJ.Reaches g.inRouteJ n ∧ n.idxOk = false := by
  unfold dayPathExpand
  cases hcheck : checkRouteJ g.inRouteJ with
  | false => simp [pure, Except.pure]
  | true =>
    have hall : ∀ n ∈ g.inRouteJ, n.Single := by
      unfold checkRouteJ at hcheck
      split_ifs at hcheck
      exact fun n hn => checkNodeJ_xor (List.all_eq_true.mp hcheck n hn)
    simp only [Bool.not_true, Bool.false_eq_true, if_false, true_and]
    cases hr : g.inRouteJ with
    | nil => simp [hr, checkRouteJ] at hcheck
    | cons first rest =>
      have hrest : ∀ n ∈ rest, n.Single := fun n hn => hall n (by simp [hr, hn])
      have hfirst (l : RouteJ) : ({ first with time := first.session } :: l).IsChain HasEdge ↔
          RouteJ.Linked (first :: l) :=
        isChain_hasEdge_cons { first with time := first.session } first rfl
      rw [expandLoop_eq_error hrest, lastNode_append]
      refine and_congr_right fun _ => ⟨?_, ?_⟩
      · rintro ⟨pre, n, post, rfl, hchain, hidx⟩
        exact ⟨n, ⟨first, pre, post, rfl, (hfirst _).mp hchain⟩, hidx⟩
      · rintro ⟨n, ⟨first', pre, post, heq, hlinked⟩, hidx⟩
        obtain ⟨rfl, rfl⟩ := List.cons_eq_cons.mp heq
        exact ⟨pre, n, post, rfl, (hfirst _).mpr hlinked, hidx⟩

theorem expandCopy_eq_error {r : RouteJ} {e : Fault} (h : expandCopy r = .error e) :
    e = .negativeIndex := by
  rcases bind_error.mp h with h | ⟨_, -, h⟩
  · exact (dayPathExpand_eq_error.mp h).1
  · simp [pure, Except.pure] at h

/-! ## The flags of a plan -/

/-- `last` is arranged after `times` although it comes first. -/
def Reversed (last times : Int × Int) : Prop :=
  times.2 < last.1 ∨ last.1 = times.2 ∧ (last.1 < last.2 ∨ times.1 < times.2)

def Overlapping (last times : Int × Int) : Prop :=
  ¬ Reversed last times ∧ times.1 < last.2

/-- The gap from `last` to `times` is shorter than the stays between them. -/
def NotEnough (last times : Int × Int) (playDurTime : Int) : Prop :=
  ¬ Reversed last times ∧ ¬ times.1 < last.2 ∧ times.1 - last.2 < playDurTime

/-- The stays of the free nodes of `r`. -/
def freeStay (r : RouteJ) : Int :=
  ((r.filter isFree).map fun n => n.time.2 - n.time.1).sum

/-- Some fixed node of `front` stands in the relation `R`, given its time and the free stays
after it. -/
def SomeFixed (front : RouteJ) (R : Int × Int → Int → Prop) : Prop :=
  ∃ before q between, front = before ++ q :: between ∧ q.isFixed ∧ R q.time (freeStay between)

/-- The relation that the flag `e` reports. -/
def Conflict (e : Fin 7) (times last : Int × Int) (playDurTime : Int) : Prop :=
  match e with
  | 0 => Reversed last times
  | 1 => Overlapping last times
  | 2 => NotEnough last times playDurTime
  | _ => False

theorem sessionConflict_eq_some {last times : Int × Int} {playDurTime : Int} {e : Fin 7} :
    sessionConflict last times playDurTime = some e ↔ Conflict e times last playDurTime := by
  unfold sessionConflict Conflict Overlapping NotEnough Reversed
  fin_cases e <;> split_ifs <;> simp <;> omega

theorem freeStay_cons (n : NodeJ) (r : RouteJ) :
    freeStay (n :: r) = (if n.isFree then n.time.2 - n.time.1 else 0) + freeStay r := by
  cases h : n.isFree <;> simp [freeStay, h]

theorem backRaises_iff {times : Int × Int} {e : Fin 7} {earlier : RouteJ} {playDurTime : Int}
    (hsingle : ∀ n ∈ earlier, n.Single) :
    backRaises false times e earlier playDurTime ↔ ∃ between q before,
      earlier = between ++ q :: before ∧ q.isFixed ∧
        Conflict e times q.time (playDurTime + freeStay between) := by
  induction earlier generalizing playDurTime with
  | nil => simp [backRaises]
  | cons lastNode earlier ih =>
    have hfree : lastNode.isFree = !lastNode.isFixed := hsingle lastNode (by simp)
    have hrest (t : Int) : _ ↔ _ := @ih t fun n hn => hsingle n (by simp [hn])
    -- the fixed node is `lastNode` itself or lies further back
    have hsplit : (∃ between q before, lastNode :: earlier = between ++ q :: before ∧
          q.isFixed ∧ Conflict e times q.time (playDurTime + freeStay between)) ↔
        lastNode.isFixed ∧ Conflict e times lastNode.time playDurTime ∨
        ∃ between q before, earlier = between ++ q :: before ∧ q.isFixed ∧
          Conflict e times q.time (playDurTime + freeStay (lastNode :: between)) := by
      constructor
      · rintro ⟨between, q, before, h, hq, hc⟩
        cases between with
        | nil =>
          obtain ⟨rfl, rfl⟩ := List.cons_eq_cons.mp h
          exact .inl ⟨hq, by simpa [freeStay] using hc⟩
        | cons m between =>
          rw [List.cons_append, List.cons_eq_cons] at h
          obtain ⟨rfl, rfl⟩ := h
          exact .inr ⟨between, q, before, rfl, hq, hc⟩
      · rintro (⟨hq, hc⟩ | ⟨between, q, before, rfl, hq, hc⟩)
        · exact ⟨[], lastNode, earlier, rfl, hq, by simpa [freeStay] using hc⟩
        · exact ⟨lastNode :: between, q, before, rfl, hq, hc⟩
    rw [hsplit, backRaises]
    cases hx : lastNode.isFixed with
    | false =>
      simp only [Bool.false_eq_true, if_false, false_and, false_or, freeStay_cons, hfree, hx,
        Bool.not_false, if_true, hrest]
      simp only [Int.add_assoc]
    | true =>
      simp only [if_true, true_and, freeStay_cons, hfree, hx, Bool.not_true, Bool.false_eq_true,
        if_false, Int.zero_add]
      rw [← sessionConflict_eq_some]
      cases hc : sessionConflict lastNode.time times playDurTime with
      | none => simpa using hrest playDurTime
      | some e' => simp [hrest]

/-- Where the node `n` reached at `stime` is placed and which flags it carries: `front` are
the nodes before it and `right` is the right border, `none` for the last node. -/
structure NodePlan (front : RouteJ) (right : Option Int) (stime : Int) (n : NodeJ) : Prop where
  fixed : n.isFixed → n.time = n.session
  free : n.isFree →
    n.time.1 = (match n.selected with
      | some oc => max stime oc.1
      | none => stime) ∧
    n.time.2 = n.time.1 + n.durs.min
  flag : ∀ e, n.error e = 0 ∨ n.error e = 1
  reversed : n.error 0 = 1 ↔ n.isFixed ∧ SomeFixed front fun last _ => Reversed last n.session
  overlapping : n.error 1 = 1 ↔
    n.isFixed ∧ SomeFixed front fun last _ => Overlapping last n.session
  notEnough : n.error 2 = 1 ↔
    n.isFixed ∧ SomeFixed front fun last stay => NotEnough last n.session stay
  unused : n.error 3 = 0
  closed : n.error 4 = 1 ↔ n.isFree ∧ n.isOpen n.openIdx = .ok false
  late : n.error 5 = 1 ↔ n.isFixed ∧ n.session.1 < stime
  border : n.error 6 = 1 ↔ ∃ t, right = some t ∧ t < n.time.2

/-- The route `out` that a pass over `r` leaves. -/
structure DayPlan (r out : RouteJ) : Prop where
  bare : out.map bare = r.map bare
  first : ∀ n ∈ out.head?, n.time = n.session ∧ n.error = fun _ => 0
  next : ∀ front p n later, out = front ++ p :: n :: later →
    ∃ traf, p.traffic n.ident = some traf ∧
      NodePlan (front ++ [p]) (if later = [] then none else out.getLast?.map (·.session.1))
        (p.time.2 + traf) n

theorem someFixed_iff {front : RouteJ} (hsingle : ∀ n ∈ front, n.Single) {times : Int × Int}
    {e : Fin 7} :
    SomeFixed front (fun last stay => Conflict e times last stay) ↔
      backRaises false times e front.reverse 0 := by
  rw [backRaises_iff (by simpa using hsingle)]
  constructor
  · rintro ⟨before, q, between, rfl, hq, hc⟩
    refine ⟨between.reverse, q, before.reverse, by simp, hq, ?_⟩
    simpa [freeStay] using hc
  · rintro ⟨between, q, before, h, hq, hc⟩
    refine ⟨before.reverse, q, between.reverse, by simpa using congrArg List.reverse h, hq, ?_⟩
    simpa [freeStay] using hc

theorem nodePlan_arranged (g : PathGenerator) (stime : Int) {n : NodeJ} (hn : n.Single)
    (hidx : n.idxOk) (hclear : n.error = fun _ => 0) (hs : g.isSearch = false)
    (hout : ∀ m ∈ g.outRouteJ, m.Single) :
    NodePlan g.outRouteJ
      (if g.outRouteJ.length + 1 = g.inRouteJ.length then none else some g.playBorders.2)
      stime (g.arranged stime n) := by
  have herr (e : Fin 7) : (g.arranged stime n).error e = if g.raises stime n e then 1 else 0 := by
    simp [arranged, hclear]
  have hset (e : Fin 7) : (g.arranged stime n).error e = 1 ↔ g.raises stime n e := by
    simp [herr]
  have hback (e : Fin 7) (he : g.raises stime n e =
      (n.isFixed && backRaises g.isSearch n.session e g.outRouteJ.reverse 0)) :
      (g.arranged stime n).error e = 1 ↔ n.isFixed ∧
        SomeFixed g.outRouteJ fun last stay => Conflict e n.session last stay := by
    rw [hset, he, hs, someFixed_iff hout, Bool.and_eq_true]
  have hclosed : (g.arranged stime n).isOpen (g.arranged stime n).openIdx =
      .ok ({ n with time := n.slot stime } : NodeJ).openNow :=
    isOpen_eq (n := g.arranged stime n) hidx
  refine ⟨fun hx => ?_, fun hf => ?_, fun e => ?_, hback 0 rfl, hback 1 rfl, hback 2 rfl, herr 3,
    ?_, ?_, ?_⟩
  · exact if_pos hx
  · have hx : n.isFixed = false := by
      have : (!n.isFixed) = true := hn ▸ hf
      simpa using this
    have hslot : (g.arranged stime n).time = (n.startAt stime, n.startAt stime + n.durs.min) := by
      simp [arranged, slot, hx]
    rw [hslot]
    exact ⟨rfl, rfl⟩
  · rw [herr]
    split_ifs <;> simp
  · rw [hset, hclosed]
    simp [raises, show (g.arranged stime n).isFree = n.isFree from rfl]
  · rw [hset]
    simp [raises, show (g.arranged stime n).isFixed = n.isFixed from rfl,
      show (g.arranged stime n).session = n.session from rfl]
  · rw [hset]
    simp only [raises, decide_eq_true_eq, show (g.arranged stime n).time = n.slot stime from rfl]
    split_ifs with h <;> simp [h]

theorem getLast?_session {r : RouteJ} (h : r ≠ []) :
    r.getLast?.map (·.session.1) = some (initPlayBorders r).2 := by
  simp [initPlayBorders, List.getLastD_eq_getLast?, List.getLast?_eq_some_getLast h]

theorem getLast?_session_of_bare {r r' : RouteJ} (h : r.map bare = r'.map bare) :
    r.getLast?.map (·.session.1) = r'.getLast?.map (·.session.1) := by
  have hmap (r : RouteJ) : r.getLast?.map (·.session.1) =
      (r.map bare).getLast?.map (·.session.1) := by
    rw [List.getLast?_map, Option.map_map]
    rfl
  rw [hmap r, hmap r', h]

theorem dayPlan_of_expansion {first : NodeJ} {rest tail : RouteJ} (controls : Controls)
    (hr : RouteJ.Valid (first :: rest)) (hclear : ∀ n ∈ first :: rest, n.error = fun _ => 0)
    (ht : Expansion ((create (first :: rest) controls).append { first with time := first.session })
      rest tail true) :
    DayPlan (first :: rest) ({ first with time := first.session } :: tail) := by
  have hlen : tail.length = rest.length := ht.length_eq_iff.mpr rfl
  have hbare : ({ first with time := first.session } :: tail).map bare =
      (first :: rest).map bare := by
    have := ht.map_bare
    rw [hlen, List.take_length] at this
    simp [this, NodeJ.bare]
  have hsingle : ∀ m ∈ ({ first with time := first.session } :: tail : RouteJ), m.Single := by
    intro m hm
    obtain ⟨n, hn, hmn⟩ : ∃ n ∈ first :: rest, n.bare = m.bare :=
      List.mem_map.mp (hbare ▸ List.mem_map_of_mem hm)
    exact (hr.single hn).of_bare hmn
  refine ⟨hbare, ?_, fun front p n later hout => ?_⟩
  · simp [hclear first (by simp), session, sessionIdx, times]
  · -- `n` is one of the appended nodes; `pre` are those before it
    obtain ⟨pre, hpre, htail⟩ : ∃ pre, { first with time := first.session } :: pre = front ++ [p] ∧
        tail = pre ++ n :: later := by
      cases front with
      | nil =>
        obtain ⟨h1, h2⟩ := List.cons_eq_cons.mp hout
        exact ⟨[], by simp [h1], h2⟩
      | cons m front =>
        rw [List.cons_append, List.cons_eq_cons] at hout
        exact ⟨front ++ [p], by simp [hout.1], by simp [hout.2]⟩
    obtain ⟨n₀, hn₀, stime, hidx, harr, heq⟩ := ht.mem_split htail
    set g : PathGenerator := { (create (first :: rest) controls).append
      { first with time := first.session } with
      outRouteJ := ((create (first :: rest) controls).append
        { first with time := first.session }).outRouteJ ++ pre } with hg
    have hgout : g.outRouteJ = front ++ [p] := by simp [hg, append, create, ← hpre]
    have hglast : g.lastNode = p := by simp [lastNode, hgout]
    have hn₀ : n₀ ∈ first :: rest := List.mem_cons_of_mem _ hn₀
    obtain ⟨traf, htraf, rfl⟩ := Option.map_eq_some_iff.mp harr
    rw [hglast] at htraf heq
    have hplan := nodePlan_arranged g (p.time.2 + traf) (hr.single hn₀) hidx
      (hclear n₀ hn₀) rfl fun m hm => hsingle m (by
        rw [hout]
        rw [hgout] at hm
        simp only [List.mem_append, List.mem_cons] at hm ⊢
        tauto)
    rw [← heq, hgout] at hplan
    refine ⟨traf, by rw [heq]; exact htraf, ?_⟩
    have hright : ({ first with time := first.session } :: tail).getLast?.map (·.session.1) =
        some g.playBorders.2 := by
      rw [getLast?_session_of_bare hbare, getLast?_session (List.cons_ne_nil first rest)]
      rfl
    have hlater : later = [] ↔ (front ++ [p]).length + 1 = g.inRouteJ.length := by
      have hin : g.inRouteJ = first :: rest := create_inRouteJ hr controls
      have : (front ++ p :: n :: later).length = (first :: rest).length := by
        rw [← hout, List.length_cons, hlen, List.length_cons]
      rw [hin, ← this, ← List.length_eq_zero_iff]
      simp only [List.length_append, List.length_cons, List.length_nil]
      omega
    simpa only [hright, hlater] using hplan

/-- A pass over a valid route never faults when the interval indices are at least -1. It
reaches the end iff all edges are present, and then leaves a plan. -/
theorem dayPathExpand_spec {r : RouteJ} (controls : Controls) (hr : RouteJ.Valid r)
    (hclear : ∀ n ∈ r, n.error = fun _ => 0)
    (hidx : ∀ n ∈ r, ∀ i, n.rangeIdx = some i → -1 ≤ i) :
    ∃ b g', (create r controls).dayPathExpand = .ok (b, g') ∧ (b ↔ RouteJ.Linked r) ∧
      (b → DayPlan r g'.outRouteJ) := by
  obtain ⟨first, rest, rfl⟩ : ∃ first rest, r = first :: rest := by
    obtain ⟨first, mid, last, h⟩ := hr.exists_eq
    exact ⟨first, _, h⟩
  have hin : (create (first :: rest) controls).inRouteJ = first :: rest := create_inRouteJ hr _
  have hok : ∀ n ∈ first :: rest, n.idxOk := fun n hn => idxOk_of_le (hidx n hn)
  obtain ⟨tail, b, ht⟩ := exists_expansion
    ((create (first :: rest) controls).append { first with time := first.session })
    (fun n (hn : n ∈ rest) => hok n (List.mem_cons_of_mem _ hn))
  refine ⟨b, _, (dayPathExpand_eq_ok (by rwa [hin]) hin).mpr ⟨tail, ht, rfl⟩, ?_, fun hb => ?_⟩
  · rw [← ht.linked_iff, lastNode_append, RouteJ.Linked]
    exact isChain_hasEdge_cons { first with time := first.session } first rfl
  · exact dayPlan_of_expansion controls hr hclear (hb ▸ ht)

/-! ## Routes that a pass accepts -/

theorem touchTimes_isFixed (n : NodeJ) : n.touchTimes.isFixed := by
  unfold touchTimes
  split_ifs with h
  · rfl
  · cases hf : n.fixed with
    | none => simp [times, hf] at h
    | some f => simp [isFixed, hf]

theorem touchTimes_session (n : NodeJ) : n.touchTimes.session = n.session := by
  unfold touchTimes
  split_ifs with h
  · have hsession : n.session = (0, 0) := by simp [session, h]
    have htimes : ({ n with fixed := some ⟨some [(0, 0)], n.fixed.bind Fixed.canDel⟩ } :
      NodeJ).times =
        [(0, 0)] := rfl
    rw [hsession, session, htimes]
    cases ({ n with fixed := some ⟨some [(0, 0)], n.fixed.bind Fixed.canDel⟩ } :
      NodeJ).sessionIdx <;> rfl
  · rfl

/-- A route that is accepted after construction is valid, and the constructor would leave it as
it is. -/
theorem valid_of_check {r : RouteJ} {controls : Controls}
    (hcheck : checkRouteJ (create r controls).inRouteJ) :
    RouteJ.Valid (create r controls).inRouteJ ∧
      create (touchBorders r) controls = create r controls := by
  change checkRouteJ (touchBorders r) at hcheck
  change RouteJ.Valid (touchBorders r) ∧ _
  match r with
  | [] => simp [touchBorders, checkRouteJ] at hcheck
  | [n] => simp [touchBorders, checkRouteJ] at hcheck
  | n :: m :: rest =>
    obtain ⟨mid, last, hrest⟩ : ∃ mid last, m :: rest = mid ++ [last] :=
      ⟨_, _, (List.dropLast_append_getLast (List.cons_ne_nil m rest)).symm⟩
    rw [hrest] at hcheck ⊢
    have hvalid : RouteJ.Valid (touchBorders (n :: (mid ++ [last]))) := by
      refine ⟨hcheck, ?_, ?_⟩ <;> rw [touchBorders_concat]
      · simpa using touchTimes_isFixed n
      · rw [← List.cons_append, List.getLast?_concat]
        simpa using touchTimes_isFixed last
    have hborders : initPlayBorders (touchBorders (n :: (mid ++ [last]))) =
        initPlayBorders (n :: (mid ++ [last])) := by
      simp [touchBorders_concat, initPlayBorders, touchTimes_session, List.getLast?_cons]
    refine ⟨hvalid, ?_⟩
    simp only [create, hborders, touchBorders_eq hvalid]

/-- The constructor of the generator spoils a free node at the end of its route. -/
theorem checkNodeJ_touchTimes {n : NodeJ} (hn : n.Single) (hx : n.isFixed = false) :
    n.touchTimes.checkNodeJ = false := by
  have hfixed : n.fixed = none := by simpa [isFixed] using hx
  have htimes : n.times = [] := by simp [times, hfixed]
  have hfree : n.touchTimes.isFree := by
    rw [touchTimes, if_pos htimes]
    exact hn.isFree hx
  have hfixed' : n.touchTimes.isFixed := by
    rw [touchTimes, if_pos htimes]
    rfl
  by_contra hcheck
  have := checkNodeJ_xor (Bool.eq_true_of_not_eq_false hcheck)
  simp [hfree, hfixed'] at this

/-- An accepted route is accepted after construction iff both its ends are fixed. -/
theorem check_create_iff {r : RouteJ} (controls : Controls) (hr : checkRouteJ r) :
    checkRouteJ (create r controls).inRouteJ ↔
      (∀ n ∈ r.head?, n.isFixed) ∧ ∀ n ∈ r.getLast?, n.isFixed := by
  constructor
  · intro hcheck
    have hvalid : RouteJ.Valid (touchBorders r) := (valid_of_check hcheck).1
    match r with
    | [] => simp [checkRouteJ] at hr
    | [n] => simp [checkRouteJ] at hr
    | n :: m :: rest =>
      obtain ⟨mid, last, hrest⟩ : ∃ mid last, m :: rest = mid ++ [last] :=
        ⟨_, _, (List.dropLast_append_getLast (List.cons_ne_nil m rest)).symm⟩
      rw [hrest] at hr hvalid ⊢
      rw [touchBorders_concat] at hvalid
      have hall : ∀ n' ∈ n :: (mid ++ [last]), n'.checkNodeJ := by
        unfold checkRouteJ at hr
        split_ifs at hr
        exact List.all_eq_true.mp hr
      -- an end that is not fixed would be spoiled by the constructor
      have hend {n' : NodeJ} (hn' : n'.checkNodeJ) (htouch : n'.touchTimes.checkNodeJ) :
          n'.isFixed := by
        by_contra hx
        have := checkNodeJ_touchTimes (checkNodeJ_xor hn') (by simpa using hx)
        simp [this] at htouch
      refine ⟨?_, ?_⟩
      · simpa using hend (hall n (by simp)) (hvalid.checkNodeJ (by simp))
      · rw [← List.cons_append, List.getLast?_concat]
        simpa using hend (hall last (by simp)) (hvalid.checkNodeJ (by simp))
  · rintro ⟨hfirst, hlast⟩
    have hvalid : RouteJ.Valid r := ⟨hr, hfirst, hlast⟩
    change checkRouteJ (touchBorders r)
    rw [touchBorders_eq hvalid]
    exact hr

/-- An accepted route is valid, or the constructor spoils it. -/
theorem valid_or_spoiled {r : RouteJ} (controls : Controls) (hr : checkRouteJ r) :
    RouteJ.Valid r ∨ checkRouteJ (create r controls).inRouteJ = false := by
  cases hcheck : checkRouteJ (create r controls).inRouteJ with
  | false => exact .inr rfl
  | true =>
    obtain ⟨hfirst, hlast⟩ := (check_create_iff controls hr).mp hcheck
    exact .inl ⟨hr, hfirst, hlast⟩

/-- So a pass that reports success has worked on a valid route. -/
theorem valid_of_dayPathExpand {r : RouteJ} {controls : Controls} {g' : PathGenerator}
    (h : (create r controls).dayPathExpand = .ok (true, g')) :
    RouteJ.Valid (touchBorders r) ∧ create (touchBorders r) controls = create r controls := by
  have hcheck : checkRouteJ (create r controls).inRouteJ := by
    by_contra hcheck
    rw [dayPathExpand, if_pos (by simpa using hcheck)] at h
    simp [pure, Except.pure] at h
  exact valid_of_check hcheck

theorem clear_touchBorders {r : RouteJ} (h : ∀ n ∈ r, n.error = fun _ => 0) :
    ∀ n ∈ touchBorders r, n.error = fun _ => 0 := by
  have htouch (n : NodeJ) : n.touchTimes.error = n.error := by
    unfold touchTimes
    split_ifs <;> rfl
  match r, h with
  | [], _ =>
    simp only [touchBorders, List.mem_singleton, forall_eq, htouch]
    rfl
  | [n], h => simpa [touchBorders, htouch] using h
  | n :: m :: rest, h =>
    obtain ⟨mid, last, hrest⟩ : ∃ mid last, m :: rest = mid ++ [last] :=
      ⟨_, _, (List.dropLast_append_getLast (List.cons_ne_nil m rest)).symm⟩
    rw [hrest] at h ⊢
    rw [touchBorders_concat]
    simp only [List.mem_cons, List.mem_append, List.not_mem_nil, or_false] at h ⊢
    rintro n' (rfl | hn' | rfl)
    · rw [htouch, h n (.inl rfl)]
    · exact h n' (.inr (.inl hn'))
    · rw [htouch, h last (.inr (.inr rfl))]

/-- A pass over clear flags leaves a plan of the route it works on. -/
theorem dayPlan_of_dayPathExpand {r : RouteJ} {controls : Controls} {g' : PathGenerator}
    (hclear : ∀ n ∈ r, n.error = fun _ => 0)
    (h : (create r controls).dayPathExpand = .ok (true, g')) :
    DayPlan (touchBorders r) g'.outRouteJ := by
  have hclear := clear_touchBorders hclear
  obtain ⟨hvalid, hcreate⟩ := valid_of_dayPathExpand h
  rw [← hcreate] at h
  generalize touchBorders r = r at *
  obtain ⟨first, mid, last, rfl⟩ := hvalid.exists_eq
  have hin := create_inRouteJ hvalid controls
  obtain ⟨tail, ht, rfl⟩ := (dayPathExpand_eq_ok (by rwa [hin]) hin).mp h
  exact dayPlan_of_expansion controls hvalid hclear ht

/-- A day with one visit between two stays at a hotel. -/
def museumDay : RouteJ :=
  [{ id := some "hotel", toNext := some [("museum", 1800)]
     fixed := some ⟨some [(0, 28800)], some 0⟩ },
   { id := some "museum", toNext := some [("inn", 1800)]
     free := some ⟨some [(32400, 64800)], some ⟨3600, 5400, 7200⟩⟩ },
   { id := some "inn", toNext := some []
     fixed := some ⟨some [(72000, 86400)], some 0⟩ }]

theorem museumDay_valid : RouteJ.Valid museumDay :=
  ⟨by decide, by simp [museumDay, isFixed], by simp [museumDay, isFixed]⟩

theorem dayPathExpand_spec_museumDay :
    ∃ b g', (create museumDay).dayPathExpand = .ok (b, g') ∧ (b ↔ RouteJ.Linked museumDay) ∧
      (b → DayPlan museumDay g'.outRouteJ) :=
  dayPathExpand_spec {} museumDay_valid (by simp [museumDay]) (by simp [museumDay])

/-- `museumDay` as one pass leaves it: without a selected interval the visit comes too early. -/
def earlyMuseum : RouteJ :=
  [{ id := some "hotel", toNext := some [("museum", 1800)]
     fixed := some ⟨some [(0, 28800)], some 0⟩, time := (0, 28800) },
   { id := some "museum", toNext := some [("inn", 1800)]
     free := some ⟨some [(32400, 64800)], some ⟨3600, 5400, 7200⟩⟩, time := (30600, 34200)
     error := Function.update (fun _ => 0) 4 1 },
   { id := some "inn", toNext := some []
     fixed := some ⟨some [(72000, 86400)], some 0⟩, time := (72000, 86400) }]

theorem dayPathExpand_museumDay : (create museumDay).dayPathExpand =
    .ok (true, { create museumDay with outRouteJ := earlyMuseum }) := by
  decide +kernel

/-! ## Passes over scheduled days -/

/-- What a pass over `r` leaves, whether or not it reaches the end. -/
structure Pass (r out : RouteJ) : Prop where
  scheduled : RouteJ.Scheduled out
  length_le : out.length ≤ r.length
  bare : out.map bare = (r.take out.length).map bare
  length_eq_iff : out.length = r.length ↔ RouteJ.Linked r

theorem pass_of_expansion {g : PathGenerator} {n : NodeJ} {rest tail : RouteJ} {b : Bool}
    (h : Expansion (g.append { n with time := n.session }) rest tail b) :
    Pass (n :: rest) ({ n with time := n.session } :: tail) := by
  have hfollows := h.follows
  have hlinked := h.linked_iff
  rw [lastNode_append] at hfollows hlinked
  refine ⟨⟨by simp [session, sessionIdx, times], hfollows⟩, ?_, ?_, ?_⟩
  · simpa using h.length_le
  · simpa [NodeJ.bare] using h.map_bare
  · rw [List.length_cons, List.length_cons, Nat.add_right_cancel_iff, h.length_eq_iff, ← hlinked]
    exact isChain_hasEdge_cons { n with time := n.session } n rfl

theorem pass_of_dayPathExpand {g g' : PathGenerator} {b : Bool}
    (hr : RouteJ.Valid g.inRouteJ) (hout : g.outRouteJ = []) (h : g.dayPathExpand = .ok (b, g')) :
    g' = { g with outRouteJ := g'.outRouteJ } ∧ Pass g.inRouteJ g'.outRouteJ := by
  obtain ⟨n, mid, last, hn⟩ := hr.exists_eq
  obtain ⟨tail, ht, rfl⟩ := (dayPathExpand_eq_ok hr hn).mp h
  refine ⟨rfl, ?_⟩
  rw [hn]
  simpa [hout] using pass_of_expansion ht

theorem pass_of_expandCopy {r r' : RouteJ} (hr : RouteJ.Valid r) (h : expandCopy r = .ok r') :
    Pass r r' := by
  obtain ⟨⟨b, g'⟩, hg, hr'⟩ := bind_ok.mp h
  obtain rfl : g'.outRouteJ = r' := by simpa [pure, Except.pure] using hr'
  have hin : (create r).inRouteJ = r := create_inRouteJ hr {}
  have := (pass_of_dayPathExpand (by rwa [hin]) rfl hg).2
  rwa [hin] at this

/-- Re-expanding a valid route whose edges are present reaches the end. -/
theorem expandCopy_spec {r : RouteJ} (hr : RouteJ.Valid r) (hl : RouteJ.Linked r)
    (hidx : ∀ n ∈ r, n.idxOk) :
    ∃ r', expandCopy r = .ok r' ∧ RouteJ.Scheduled r' ∧ List.Forall₂ Rearranged r r' := by
  obtain ⟨n, mid, last, rfl⟩ := hr.exists_eq
  have hin := create_inRouteJ hr {}
  obtain ⟨tail, b, ht⟩ := exists_expansion
    ((create (n :: (mid ++ [last]))).append { n with time := n.session })
    (fun m (hm : m ∈ mid ++ [last]) => hidx m (List.mem_cons_of_mem _ hm))
  obtain rfl : b = true := by
    refine ht.linked_iff.mp ?_
    rw [lastNode_append]
    exact (isChain_hasEdge_cons { n with time := n.session } n rfl).mpr hl
  have hlen := ht.length_eq_iff.mpr rfl
  have hrest := ht.rearranged
  rw [hlen, List.take_length] at hrest
  refine ⟨{ n with time := n.session } :: tail, ?_, (pass_of_expansion ht).scheduled,
    .cons ⟨rfl, fun _ => .inr rfl⟩ hrest⟩
  have hexpand := (dayPathExpand_eq_ok (by rwa [hin]) hin).mpr ⟨tail, ht, rfl⟩
  rw [expandCopy, hexpand]
  rfl

/-- The flags of a node have no influence on where it is placed. -/
theorem exists_expansion_of_follows {g : PathGenerator} {p : NodeJ} {rest : RouteJ}
    (hp : g.lastNode.toNext = p.toNext) (ht : g.lastNode.time = p.time)
    (h : (p :: rest).IsChain Follows) :
    ∃ tail, Expansion g rest tail true ∧ tail.map setDefaultError = rest.map setDefaultError := by
  induction rest generalizing g p with
  | nil => exact ⟨[], .nil, rfl⟩
  | cons n rest ih =>
    obtain ⟨⟨traf, htraf, hidx, htime⟩, hrest⟩ := List.isChain_cons_cons.mp h
    have harr : g.arrival n = some (p.time.2 + traf) := by
      have : g.lastNode.traffic n.ident = some traf := by
        rw [← htraf]
        simp only [traffic, members, hp]
      simp [arrival, this, ht]
    obtain ⟨tail, htail, herr⟩ := ih (g := g.append (g.arranged (p.time.2 + traf) n))
      (by simp [arranged]) (by simp [arranged, htime]) hrest
    refine ⟨_, .cons harr hidx htail, ?_⟩
    simp [herr, arranged, setDefaultError, ← htime]

/-- A pass over a scheduled route puts every node where it already is. -/
theorem dayPathExpand_of_scheduled {r : RouteJ} (controls : Controls) (hr : RouteJ.Valid r)
    (hs : RouteJ.Scheduled r) :
    ∃ g', (create r controls).dayPathExpand = .ok (true, g') ∧
      g'.outRouteJ.map setDefaultError = r.map setDefaultError := by
  obtain ⟨n, mid, last, rfl⟩ := hr.exists_eq
  have hin := create_inRouteJ hr controls
  have hn : n.time = n.session := hs.1 n (by simp)
  obtain ⟨tail, ht, herr⟩ := exists_expansion_of_follows
    (g := (create (n :: (mid ++ [last])) controls).append { n with time := n.session })
    (p := n) (by simp) (by simp [hn]) hs.2
  refine ⟨_, (dayPathExpand_eq_ok (by rwa [hin]) hin).mpr ⟨tail, ht, rfl⟩, ?_⟩
  simp [create, herr, setDefaultError, ← hn]

end PathGenerator

end PPView
