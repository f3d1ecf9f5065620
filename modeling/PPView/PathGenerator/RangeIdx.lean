import PPView.PathGenerator.DayPathExpand

/-!
# Indices that select nothing

`rangeIdx` comes with the request and may be any integer. `resetIdx` puts an index that selects no
interval or session right, and `DayPathExpand` is compared with itself on the route put right.
They agree unless a free node is reached whose index is below -1, and there the first does not
return: `setNodeError` takes too large an index for -1, but asks only about positive ones.
-/

namespace PPView

namespace NodeJ

/-- The index that `i` is to be taken for: -1 or 0, if `i` selects nothing. -/
def validIdx (n : NodeJ) (i : Int) : Int :=
  if n.isFixed then if 0 ≤ i ∧ i < n.times.length then i else 0
  else if 0 ≤ i ∧ i < n.openClose.length then i else -1

def resetIdx (n : NodeJ) : NodeJ := { n with rangeIdx := n.rangeIdx.map n.validIdx }

@[simp] theorem resetIdx_time (n : NodeJ) : n.resetIdx.time = n.time := rfl
@[simp] theorem resetIdx_error (n : NodeJ) : n.resetIdx.error = n.error := rfl
@[simp] theorem resetIdx_isFixed (n : NodeJ) : n.resetIdx.isFixed = n.isFixed := rfl
@[simp] theorem resetIdx_isFree (n : NodeJ) : n.resetIdx.isFree = n.isFree := rfl
@[simp] theorem resetIdx_openClose (n : NodeJ) : n.resetIdx.openClose = n.openClose := rfl
@[simp] theorem resetIdx_durs (n : NodeJ) : n.resetIdx.durs = n.durs := rfl
@[simp] theorem resetIdx_ident (n : NodeJ) : n.resetIdx.ident = n.ident := rfl
@[simp] theorem resetIdx_traffic (n : NodeJ) : n.resetIdx.traffic = n.traffic := rfl
@[simp] theorem skeleton_resetIdx (n : NodeJ) : n.resetIdx.skeleton = n.skeleton := rfl

theorem times_of_not_isFixed {n : NodeJ} (hx : n.isFixed = false) : n.times = [] := by
  have hfixed : n.fixed = none := by simpa [isFixed] using hx
  simp [times, hfixed]

theorem Single.openClose_of_isFixed {n : NodeJ} (hn : n.Single) (hx : n.isFixed) :
    n.openClose = [] := by
  have hfree : n.free = none := by simpa [NodeJ.isFree] using hn.not_isFree hx
  simp [openClose, hfree]

@[simp] theorem resetIdx_session (n : NodeJ) : n.resetIdx.session = n.session := by
  have hidx : n.resetIdx.sessionIdx = n.sessionIdx := by
    unfold sessionIdx resetIdx validIdx
    have htimes : n.isFixed = false → n.times.length = 0 := fun hx => by
      simp [times_of_not_isFixed hx]
    cases n.rangeIdx with
    | none => rfl
    | some i =>
      change (if (_ : Int) < 0 ∨ _ ≥ (n.times.length : Int) then 0 else Int.toNat _) = _
      cases hx : n.isFixed with
      | false =>
        have := htimes hx
        simp only [Bool.false_eq_true, if_false]
        split_ifs <;> omega
      | true =>
        simp only [if_true]
        split_ifs <;> omega
  change n.times.getD n.resetIdx.sessionIdx (0, 0) = _
  rw [hidx]
  rfl

theorem resetIdx_selected {n : NodeJ} (hn : n.Single) : n.resetIdx.selected = n.selected := by
  cases hx : n.isFixed with
  | true =>
    have hempty := hn.openClose_of_isFixed hx
    rw [selected_of_nil hempty, selected_of_nil (by rw [resetIdx_openClose, hempty])]
  | false =>
    unfold selected resetIdx validIdx
    cases n.rangeIdx with
    | none => rfl
    | some i =>
      change (if 0 ≤ (_ : Int) then n.openClose[Int.toNat _]? else none) = _
      simp only [hx, Bool.false_eq_true, if_false]
      by_cases hi : 0 ≤ i ∧ i < n.openClose.length
      · simp [hi]
      · rw [if_neg hi, if_neg (by omega)]
        split_ifs with h0
        · exact (List.getElem?_eq_none_iff.mpr (by omega)).symm
        · rfl

/-- An index that was put right can be read. -/
theorem resetIdx_idxOk (n : NodeJ) : n.resetIdx.idxOk := by
  cases hx : n.isFixed with
  | true => simp [idxOk, hx]
  | false =>
    have hopen : -1 ≤ n.resetIdx.openIdx := by
      unfold openIdx resetIdx validIdx
      cases n.rangeIdx with
      | none => simp
      | some i =>
        simp only [hx, Option.map_some, Bool.false_eq_true, if_false]
        split_ifs <;> omega
    simp [idxOk, hopen]

@[simp] theorem resetIdx_slot {n : NodeJ} (hn : n.Single) (stime : Int) :
    n.resetIdx.slot stime = n.slot stime := by
  simp only [slot, startAt, resetIdx_isFixed, resetIdx_session, resetIdx_selected hn, resetIdx_durs]

theorem resetIdx_openNow {n : NodeJ} (hn : n.Single) : n.resetIdx.openNow = n.openNow := by
  simp only [openNow, resetIdx_isFixed, resetIdx_selected hn, resetIdx_openClose, resetIdx_time]

/-- The session or interval at which the index of `n` is used exists. -/
structure InRange (n : NodeJ) : Prop where
  fixed : n.isFixed → n.sessionIdx < n.times.length
  free : n.isFree → n.openClose ≠ [] →
    n.openIdx = -1 ∨ 0 ≤ n.openIdx ∧ n.openIdx < n.openClose.length

theorem sessionIdx_lt {n : NodeJ} (h : n.times ≠ []) : n.sessionIdx < n.times.length := by
  have := List.length_pos_iff.mpr h
  unfold sessionIdx
  cases n.rangeIdx with
  | none => exact this
  | some i =>
    simp only
    split_ifs <;> omega

/-- Too large an index is taken for -1, and -1 is the only negative one that is allowed for. -/
theorem openIdx_cases (n : NodeJ) (hne : n.openClose ≠ []) :
    (n.openIdx = -1 ∨ 0 ≤ n.openIdx ∧ n.openIdx < n.openClose.length) ↔
      ∀ i, n.rangeIdx = some i → -1 ≤ i := by
  have := List.length_pos_iff.mpr hne
  unfold openIdx
  cases n.rangeIdx with
  | none => simp
  | some i =>
    simp only [Option.some.injEq, forall_eq']
    split_ifs <;> omega

theorem inRange_iff {n : NodeJ} (h : n.checkNodeJ) :
    n.InRange ↔ (n.isFree → n.openClose ≠ [] → ∀ i, n.rangeIdx = some i → -1 ≤ i) :=
  ⟨fun hn hfree hne => (n.openIdx_cases hne).mp (hn.free hfree hne),
    fun hn => ⟨fun hx => sessionIdx_lt (checkNodeJ_times h hx),
      fun hfree hne => (n.openIdx_cases hne).mpr (hn hfree hne)⟩⟩

theorem neg_one_le_openIdx_iff (n : NodeJ) :
    -1 ≤ n.openIdx ↔ ∀ i, n.rangeIdx = some i → -1 ≤ i := by
  unfold openIdx
  cases n.rangeIdx with
  | none => simp
  | some i =>
    simp only [Option.some.injEq, forall_eq']
    split_ifs <;> omega

theorem inRange_iff_idxOk {n : NodeJ} (h : n.checkNodeJ) : n.InRange ↔ n.idxOk := by
  have hn : n.Single := checkNodeJ_xor h
  rw [inRange_iff h]
  cases hx : n.isFixed with
  | true => simp [idxOk, hx, hn.not_isFree hx]
  | false => simp [idxOk, hx, hn.isFree hx, ← neg_one_le_openIdx_iff, or_iff_not_imp_left]

end NodeJ

open NodeJ

namespace RouteJ

/-- The sessions that `initPlayBorders` reads at the ends of `r` exist. -/
def EndsInRange (r : RouteJ) : Prop :=
  (r.headD default).sessionIdx < (r.headD default).times.length ∧
    (r.getLastD default).sessionIdx < (r.getLastD default).times.length

/-- Both ends are there and fixed. -/
def FixedEnds (r : RouteJ) : Prop :=
  (r.headD default).isFixed ∧ (r.getLastD default).isFixed

theorem endsInRange_iff {r : RouteJ} (h : ∀ n ∈ r, n.checkNodeJ) :
    r.EndsInRange ↔ r.FixedEnds := by
  have hiff {n : NodeJ} (hn : n.checkNodeJ) : n.sessionIdx < n.times.length ↔ n.isFixed := by
    refine ⟨fun hlt => ?_, fun hx => sessionIdx_lt (checkNodeJ_times hn hx)⟩
    by_contra hx
    rw [times_of_not_isFixed (by simpa using hx)] at hlt
    simp at hlt
  cases r with
  | nil => exact iff_of_false (fun h => Nat.not_lt_zero _ h.1) fun h => absurd h.1 (by decide)
  | cons n rest =>
    have hlast : (n :: rest).getLastD default ∈ n :: rest := by
      rw [List.getLastD_eq_getLast?, List.getLast?_eq_some_getLast (List.cons_ne_nil n rest)]
      exact List.getLast_mem _
    exact and_congr (hiff (h n (by simp))) (hiff (h _ hlast))

theorem valid_iff {r : RouteJ} (hr : checkRouteJ r) : Valid r ↔ r.FixedEnds := by
  have hne : r ≠ [] := by
    rintro rfl
    simp [checkRouteJ] at hr
  obtain ⟨n, rest, rfl⟩ := List.exists_cons_of_ne_nil hne
  have hlast : (n :: rest).getLast? = some ((n :: rest).getLastD default) := by
    rw [List.getLastD_eq_getLast?, List.getLast?_eq_some_getLast hne]
    rfl
  refine ⟨fun h => ⟨h.first n (by simp), h.last _ hlast⟩, fun h => ⟨hr, ?_, ?_⟩⟩
  · simpa using h.1
  · rw [hlast]
    simpa using h.2

/-- The route with all indices put right. -/
def resetIdx (r : RouteJ) : RouteJ := r.map NodeJ.resetIdx

@[simp] theorem length_resetIdx (r : RouteJ) : r.resetIdx.length = r.length := List.length_map _

theorem map_skeleton_resetIdx (r : RouteJ) : r.resetIdx.map skeleton = r.map skeleton := by
  simp [resetIdx, Function.comp_def]

theorem Valid.resetIdx {r : RouteJ} (hr : Valid r) : Valid r.resetIdx := by
  have hcheck : checkRouteJ r.resetIdx = checkRouteJ r :=
    checkRouteJ_of_skeleton (map_skeleton_resetIdx r)
  refine ⟨hcheck.trans hr.check, fun n hn => ?_, fun n hn => ?_⟩
  · rw [RouteJ.resetIdx, List.head?_map] at hn
    obtain ⟨m, hm, rfl⟩ := Option.map_eq_some_iff.mp hn
    exact hr.first m hm
  · rw [RouteJ.resetIdx, List.getLast?_map] at hn
    obtain ⟨m, hm, rfl⟩ := Option.map_eq_some_iff.mp hn
    exact hr.last m hm

end RouteJ

namespace PathGenerator

/-- The generator with all indices put right. -/
def resetIdx (g : PathGenerator) : PathGenerator :=
  { g with inRouteJ := g.inRouteJ.resetIdx, outRouteJ := g.outRouteJ.resetIdx }

/-! ## One node -/

theorem backRaises_resetIdx (isSearch : Bool) (times : Int × Int) (e : Fin 7) (earlier : RouteJ)
    (playDurTime : Int) :
    backRaises isSearch times e (earlier.map NodeJ.resetIdx) playDurTime =
      backRaises isSearch times e earlier playDurTime := by
  induction earlier generalizing playDurTime with
  | nil => rfl
  | cons lastNode earlier ih =>
    rw [List.map_cons, backRaises, backRaises, resetIdx_isFixed, resetIdx_time]
    simp only [ih]

theorem raises_resetIdx (g : PathGenerator) (stime : Int) {n : NodeJ} (hn : n.Single) :
    g.resetIdx.raises stime n.resetIdx = g.raises stime n := by
  have hslot := NodeJ.resetIdx_slot hn stime
  have hopen : ({ n.resetIdx with time := n.slot stime } : NodeJ).openNow =
      ({ n with time := n.slot stime } : NodeJ).openNow :=
    NodeJ.resetIdx_openNow (n := { n with time := n.slot stime }) hn
  have hback (e : Fin 7) : backRaises g.isSearch n.session e g.resetIdx.outRouteJ.reverse 0 =
      backRaises g.isSearch n.session e g.outRouteJ.reverse 0 := by
    have hmap : g.resetIdx.outRouteJ.reverse = g.outRouteJ.reverse.map NodeJ.resetIdx :=
      List.map_reverse.symm
    rw [hmap, backRaises_resetIdx]
  have hsearch : g.resetIdx.isSearch = g.isSearch := rfl
  have hborders : g.resetIdx.playBorders = g.playBorders := rfl
  have hout : g.resetIdx.outRouteJ.length = g.outRouteJ.length := List.length_map _
  have hin : g.resetIdx.inRouteJ.length = g.inRouteJ.length := List.length_map _
  funext e
  by_cases h4 : e = 4
  · subst h4
    change (n.isFree && !({ n.resetIdx with time := n.resetIdx.slot stime } : NodeJ).openNow) = _
    rw [hslot, hopen]
    rfl
  · fin_cases e <;> simp_all [raises]

theorem arranged_resetIdx (g : PathGenerator) (stime : Int) {n : NodeJ} (hn : n.Single) :
    g.resetIdx.arranged stime n.resetIdx = (g.arranged stime n).resetIdx := by
  simp only [arranged, raises_resetIdx g stime hn, NodeJ.resetIdx_slot hn]
  rfl

theorem append_resetIdx (g : PathGenerator) (n : NodeJ) :
    (g.append n).resetIdx = g.resetIdx.append n.resetIdx := by
  simp [resetIdx, append, RouteJ.resetIdx]

theorem lastNode_resetIdx (g : PathGenerator) : g.resetIdx.lastNode = g.lastNode.resetIdx := by
  have hdefault : (default : NodeJ) = (default : NodeJ).resetIdx := rfl
  rw [lastNode, lastNode, List.getLastD_eq_getLast?, List.getLastD_eq_getLast?]
  change (g.outRouteJ.map NodeJ.resetIdx).getLast?.getD default = _
  rw [List.getLast?_map]
  cases g.outRouteJ.getLast? <;> rfl

theorem arrival_resetIdx (g : PathGenerator) (n : NodeJ) :
    g.resetIdx.arrival n.resetIdx = g.arrival n := by
  simp only [arrival, lastNode_resetIdx, resetIdx_traffic, resetIdx_ident, resetIdx_time]

/-! ## The expansion -/

theorem Expansion.resetIdx {g : PathGenerator} {rest tail : RouteJ} {b : Bool}
    (h : Expansion g rest tail b) (hrest : ∀ n ∈ rest, n.Single) :
    Expansion g.resetIdx rest.resetIdx tail.resetIdx b := by
  induction h with
  | nil => exact .nil
  | noEdge ha => exact .noEdge (by rw [arrival_resetIdx, ha])
  | @cons g n rest tail b stime ha hidx _ ih =>
    obtain ⟨hn, hrest⟩ := List.forall_mem_cons.mp hrest
    have ih := ih hrest
    rw [append_resetIdx, ← arranged_resetIdx g stime hn] at ih
    have hcons := Expansion.cons (by rw [arrival_resetIdx, ha]) n.resetIdx_idxOk ih
    rwa [arranged_resetIdx g stime hn] at hcons

theorem initPlayBorders_resetIdx (r : RouteJ) : initPlayBorders r.resetIdx = initPlayBorders r := by
  have hhead : r.resetIdx.headD default = (r.headD default).resetIdx := by cases r <;> rfl
  have hlast : r.resetIdx.getLastD default = (r.getLastD default).resetIdx := by
    rw [List.getLastD_eq_getLast?, List.getLastD_eq_getLast?, RouteJ.resetIdx, List.getLast?_map]
    cases r.getLast? <;> rfl
  rw [initPlayBorders, hhead, hlast, resetIdx_session, resetIdx_session, initPlayBorders]

theorem create_resetIdx {r : RouteJ} (hr : RouteJ.Valid r) (controls : Controls) :
    create r.resetIdx controls = (create r controls).resetIdx := by
  have hin := create_inRouteJ hr controls
  have hin' := create_inRouteJ hr.resetIdx controls
  simp only [create] at hin hin'
  simp only [create, initPlayBorders_resetIdx, hin, hin']
  rfl

/-- A run that returns is the run on the route put right. -/
theorem dayPathExpand_resetIdx {g g' : PathGenerator} {b : Bool} (hr : RouteJ.Valid g.inRouteJ)
    (h : g.dayPathExpand = .ok (b, g')) : g.resetIdx.dayPathExpand = .ok (b, g'.resetIdx) := by
  obtain ⟨n, mid, last, hn⟩ := hr.exists_eq
  obtain ⟨tail, ht, rfl⟩ := (dayPathExpand_eq_ok hr hn).mp h
  have hin : g.resetIdx.inRouteJ = n.resetIdx :: (mid ++ [last]).map NodeJ.resetIdx := by
    rw [PathGenerator.resetIdx, hn]
    rfl
  refine (dayPathExpand_eq_ok (g := g.resetIdx) hr.resetIdx hin).mpr ⟨tail.resetIdx, ?_, ?_⟩
  · have := ht.resetIdx fun m hm => hr.single (by rw [hn]; exact List.mem_cons_of_mem _ hm)
    rw [append_resetIdx] at this
    rw [resetIdx_session]
    exact this
  · simp only [PathGenerator.resetIdx, RouteJ.resetIdx, List.map_append, List.map_cons,
      resetIdx_session]
    rfl

theorem expandCopy_resetIdx {r out : RouteJ} (hr : RouteJ.Valid r) (h : expandCopy r = .ok out) :
    expandCopy r.resetIdx = .ok out.resetIdx := by
  obtain ⟨⟨b, g⟩, hg, hout⟩ := bind_ok.mp h
  obtain rfl : g.outRouteJ = out := by simpa [pure, Except.pure] using hout
  have hin := create_inRouteJ hr {}
  have hrun := dayPathExpand_resetIdx (by rwa [hin]) hg
  rw [← create_resetIdx hr] at hrun
  simp only [expandCopy, hrun, bind, Except.bind]
  rfl

/-! ## DayPathExpand -/

theorem checkNodeJ_of_check {r : RouteJ} (hr : checkRouteJ r) {n : NodeJ} (hn : n ∈ r) :
    n.checkNodeJ := by
  unfold checkRouteJ at hr
  split_ifs at hr
  exact List.all_eq_true.mp hr n hn

theorem mem_of_reaches {r : RouteJ} {n : NodeJ} (h : RouteJ.Reaches r n) : n ∈ r := by
  obtain ⟨first, pre, post, rfl, -⟩ := h
  simp

/-- `DayPathExpand` and the constructor before it use the indices of `r` for what exists only,
and do with them what they do with those put right. -/
structure ExpandTreats (r : RouteJ) (controls : Controls) : Prop where
  ends : r.EndsInRange
  nodes : ∀ n, RouteJ.Reaches r n → n.InRange
  same : ∃ b g', (create r controls).dayPathExpand = .ok (b, g') ∧
    (create r.resetIdx controls).dayPathExpand = .ok (b, g'.resetIdx)

/-- The ends of `r` are fixed and no free node with opening intervals is reached whose index is
below -1. -/
def Readable (r : RouteJ) : Prop :=
  r.FixedEnds ∧ ∀ n, RouteJ.Reaches r n → n.isFree → n.openClose ≠ [] →
    ∀ i, n.rangeIdx = some i → -1 ≤ i

theorem readable_iff {r : RouteJ} (hr : checkRouteJ r) :
    Readable r ↔ r.FixedEnds ∧ ∀ n, RouteJ.Reaches r n → n.InRange :=
  and_congr_right fun _ => forall_congr' fun _ => forall_congr' fun hn =>
    (inRange_iff (checkNodeJ_of_check hr (mem_of_reaches hn))).symm

theorem exists_dayPathExpand {r : RouteJ} (controls : Controls) (hr : RouteJ.Valid r)
    (h : ∀ n, RouteJ.Reaches r n → n.InRange) :
    ∃ b g', (create r controls).dayPathExpand = .ok (b, g') := by
  cases hrun : (create r controls).dayPathExpand with
  | ok p => exact ⟨p.1, p.2, rfl⟩
  | error e =>
    obtain ⟨-, -, n, hn, hidx⟩ := dayPathExpand_eq_error.mp hrun
    rw [create_inRouteJ hr] at hn
    have hok := (inRange_iff_idxOk (hr.checkNodeJ (mem_of_reaches hn))).mp (h n hn)
    exact absurd (hidx.symm.trans hok) Bool.false_ne_true

theorem expandTreats_iff {r : RouteJ} (controls : Controls) (hr : checkRouteJ r) :
    ExpandTreats r controls ↔ Readable r := by
  rw [readable_iff hr]
  constructor
  · intro h
    exact ⟨(RouteJ.endsInRange_iff fun n hn => checkNodeJ_of_check hr hn).mp h.ends, h.nodes⟩
  · rintro ⟨hends, hnodes⟩
    have hvalid := (RouteJ.valid_iff hr).mpr hends
    obtain ⟨b, g', hg⟩ := exists_dayPathExpand controls hvalid hnodes
    refine ⟨(RouteJ.endsInRange_iff fun n hn => checkNodeJ_of_check hr hn).mpr hends, hnodes,
      b, g', hg, ?_⟩
    rw [create_resetIdx hvalid]
    exact dayPathExpand_resetIdx (by rwa [create_inRouteJ hvalid]) hg

end PathGenerator

end PPView
