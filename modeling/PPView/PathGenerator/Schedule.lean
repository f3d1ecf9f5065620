import Mathlib.Tactic.FinCases
import PPView.PathGenerator.Expand

/-!
# What an expansion does to one node

`setNodeError_eq` says once, without the monad, what `setNodeError` does: it fails without a
traffic edge, faults on a negative interval index, and otherwise gives the node its slot
and raises flags. Later modules use it and never unfold `setNodeError`.
-/

namespace PPView

namespace NodeJ

/-! ## The slot of a node -/

/-- The interval that `rangeIdx` selects, if it selects an existing one. -/
def selected (n : NodeJ) : Option (Int × Int) :=
  match n.rangeIdx with
  | some i => if 0 ≤ i then n.openClose[i.toNat]? else none
  | none => none

/-- The selected interval can be read without tripping the assertion on negative indices. -/
def idxOk (n : NodeJ) : Bool := n.isFixed || n.openClose.isEmpty || decide (-1 ≤ n.openIdx)

/-- When a free node reached at `stime` starts. -/
def startAt (n : NodeJ) (stime : Int) : Int :=
  match n.selected with
  | some oc => max stime oc.1
  | none => stime

/-- Where a node reached at `stime` is arranged. -/
def slot (n : NodeJ) (stime : Int) : Int × Int :=
  if n.isFixed then n.session else (n.startAt stime, n.startAt stime + n.durs.min)

/-- `isOpen` at the interval that `setNodeError` selects. -/
def openNow (n : NodeJ) : Bool :=
  n.isFixed || match n.selected with
    | some oc => within n.time oc
    | none => n.openClose.any (within n.time)

@[simp] theorem selected_of_nil {n : NodeJ} (h : n.openClose = []) : n.selected = none := by
  unfold selected
  cases n.rangeIdx <;> simp [h]

theorem selected_of_openIdx_neg {n : NodeJ} (h : n.openIdx = -1) : n.selected = none := by
  unfold openIdx at h
  unfold selected
  cases hr : n.rangeIdx with
  | none => rfl
  | some i =>
    simp only [hr] at h
    split_ifs at h with hi
    · simp only [List.getElem?_eq_none_iff.mpr (show n.openClose.length ≤ i.toNat by omega),
        ite_self]
    · simp [h]

theorem selected_of_openIdx {n : NodeJ} (h : 0 ≤ n.openIdx) (hne : n.openClose ≠ []) :
    n.selected = some (n.openClose.getD n.openIdx.toNat (0, 0)) := by
  have hpos : 0 < n.openClose.length := List.length_pos_iff.mpr hne
  unfold openIdx at h ⊢
  unfold selected
  cases hr : n.rangeIdx with
  | none => simp [hr] at h
  | some i =>
    simp only [hr] at h ⊢
    by_cases hi : i > 0 ∧ i ≥ n.openClose.length
    · simp [hi] at h
    · simp only [hi, if_false] at h ⊢
      have hlt : i.toNat < n.openClose.length := by omega
      simp [h, List.getElem?_eq_getElem hlt]

theorem isOpen_eq {n : NodeJ} (h : n.idxOk) : n.isOpen n.openIdx = .ok n.openNow := by
  unfold isOpen openNow
  cases hx : n.isFixed with
  | true => simp [pure, Except.pure]
  | false =>
    by_cases hne : n.openClose = []
    · simp [hne, pure, Except.pure]
    · have hlen : n.openClose.length ≠ 0 := by simpa using hne
      have hidx : -1 ≤ n.openIdx := by simpa [idxOk, hx, hne] using h
      by_cases hneg : n.openIdx = -1
      · simp [hne, hneg, selected_of_openIdx_neg hneg, pure, Except.pure]
      · have h0 : 0 ≤ n.openIdx := by omega
        simp [hlen, hneg, selected_of_openIdx h0 hne, openCloseAt, not_lt.mpr h0, bind,
          Except.bind, pure, Except.pure]

end NodeJ

namespace PathGenerator

variable (g : PathGenerator)

/-! ## The flags raised by the look-back -/

/-- The look-back over `earlier`, from the last node to the first, raises `e`. -/
def backRaises (isSearch : Bool) (times : Int × Int) (e : Fin 7) : RouteJ → Int → Bool
  | [], _ => false
  | lastNode :: earlier, playDurTime =>
    if lastNode.isFixed then
      match sessionConflict lastNode.time times playDurTime with
      | some e' => e' == e || (!isSearch && backRaises isSearch times e earlier playDurTime)
      | none => backRaises isSearch times e earlier playDurTime
    else
      backRaises isSearch times e earlier (playDurTime + (lastNode.time.2 - lastNode.time.1))

theorem sessionConflict_le {last times : Int × Int} {playDurTime : Int} {e : Fin 7}
    (h : sessionConflict last times playDurTime = some e) : e ≤ 2 := by
  unfold sessionConflict at h
  split_ifs at h <;> cases h <;> decide

theorem backRaises_eq_false (isSearch : Bool) (times : Int × Int) {e : Fin 7} (he : 2 < e)
    (earlier : RouteJ) (playDurTime : Int) :
    backRaises isSearch times e earlier playDurTime = false := by
  induction earlier generalizing playDurTime with
  | nil => rfl
  | cons lastNode earlier ih =>
    unfold backRaises
    cases hc : sessionConflict lastNode.time times playDurTime with
    | none => simp [ih]
    | some e' =>
      have hne : e' ≠ e := ne_of_lt ((sessionConflict_le hc).trans_lt he)
      simp [ih, hne]

theorem backConflict_eq (isSearch : Bool) (times : Int × Int) (earlier : RouteJ)
    (playDurTime : Int) (n : NodeJ) :
    backConflict isSearch times earlier playDurTime n = { n with
      error := fun e => if backRaises isSearch times e earlier playDurTime then 1
        else n.error e } := by
  induction earlier generalizing playDurTime n with
  | nil => rfl
  | cons lastNode earlier ih =>
    unfold backConflict backRaises
    cases lastNode.isFixed with
    | false => exact ih _ n
    | true =>
      cases sessionConflict lastNode.time times playDurTime with
      | none => exact ih _ n
      | some e' =>
        cases isSearch with
        | true =>
          have (e : Fin 7) : (e' == e || (!true && backRaises true times e earlier playDurTime)) =
              decide (e = e') := by
            simp [Bool.beq_eq_decide_eq, eq_comm]
          simp only [if_true, NodeJ.setError, this]
          congr 1
          funext e
          simp [Function.update_apply]
        | false =>
          simp only [if_true, Bool.false_eq_true, if_false, ih, NodeJ.setError]
          congr 1
          funext e
          by_cases he : e = e'
          · simp [he]
          · simp [he, Ne.symm he]

/-! ## `setNodeError` without the monad -/

/-- The flags that `setNodeError` raises on the node `n` reached at `stime`. -/
def raises (stime : Int) (n : NodeJ) : Fin 7 → Bool
  | 3 => false
  | 4 => n.isFree && !({ n with time := n.slot stime } : NodeJ).openNow
  | 5 => n.isFixed && decide (n.session.1 < stime)
  | 6 => decide (g.outRouteJ.length + 1 ≠ g.inRouteJ.length ∧
      (n.slot stime).2 > g.playBorders.2)
  | e => n.isFixed && backRaises g.isSearch n.session e g.outRouteJ.reverse 0

/-- The node that `setNodeError` leaves when it succeeds. -/
def arranged (stime : Int) (n : NodeJ) : NodeJ :=
  { n with
    time := n.slot stime
    error := fun e => if g.raises stime n e then 1 else n.error e }

theorem placeFree_eq (stime : Int) {n : NodeJ} (hx : n.isFixed = false) :
    placeFree stime n =
      if n.idxOk then .ok { n with time := n.slot stime } else .error .negativeIndex := by
  have hslot : n.slot stime = (n.startAt stime, n.startAt stime + n.durs.min) := by
    simp [NodeJ.slot, hx]
  simp only [placeFree, hslot, NodeJ.setPlayRange]
  by_cases hne : n.openClose = []
  · simp [NodeJ.idxOk, NodeJ.startAt, hne, pure, Except.pure]
  · have hlen : n.openClose.length ≠ 0 := by simpa using hne
    by_cases hneg : n.openIdx = -1
    · simp [NodeJ.idxOk, NodeJ.startAt, NodeJ.selected_of_openIdx_neg hneg, hneg, pure, Except.pure]
    · by_cases h0 : 0 ≤ n.openIdx
      · have hok : n.idxOk := by
          simp only [NodeJ.idxOk, Bool.or_eq_true, decide_eq_true_eq]
          omega
        simp only [hneg, hlen, or_self, if_false, NodeJ.openCloseAt, not_lt.mpr h0, hok, if_true,
          NodeJ.startAt, NodeJ.selected_of_openIdx h0 hne, bind, Except.bind, pure, Except.pure]
        split_ifs with h1 h2 h3
        · rw [max_eq_left h1.1]
        · rw [max_eq_right h2.le]
        · rw [max_eq_left (by omega)]
        · omega
      · have hok : n.idxOk = false := by
          simp only [NodeJ.idxOk, hx, Bool.false_or, Bool.or_eq_false_iff, decide_eq_false_iff_not,
            List.isEmpty_eq_false_iff]
          exact ⟨hne, by omega⟩
        simp [hneg, hlen, NodeJ.openCloseAt, not_le.mp h0, hok, bind, Except.bind]

theorem arranged_error (stime : Int) (n : NodeJ) (e : Fin 7) :
    (g.arranged stime n).error e = if g.raises stime n e then 1 else n.error e := rfl

@[simp] theorem arranged_bare (stime : Int) (n : NodeJ) : (g.arranged stime n).bare = n.bare := rfl

theorem setFreeError_eq (stime : Int) {n : NodeJ} (hx : n.isFixed = false) :
    setFreeError stime n = if n.idxOk then .ok { n with
        time := n.slot stime
        error := fun e => if e = 4 ∧ !({ n with time := n.slot stime } : NodeJ).openNow then 1
          else n.error e }
      else .error .negativeIndex := by
  simp only [setFreeError, placeFree_eq stime hx]
  by_cases h : n.idxOk
  · have hopen : ({ n with time := n.slot stime } : NodeJ).isOpen n.openIdx =
        .ok ({ n with time := n.slot stime } : NodeJ).openNow :=
      NodeJ.isOpen_eq (n := { n with time := n.slot stime }) h
    simp only [h, if_true, bind, Except.bind, hopen]
    cases ({ n with time := n.slot stime } : NodeJ).openNow with
    | true => simp [pure, Except.pure]
    | false =>
      have (e : Fin 7) : Function.update n.error 4 1 e = if e = 4 then 1 else n.error e :=
        Function.update_apply ..
      simp [NodeJ.setError, pure, Except.pure, funext this]
  · simp [h, bind, Except.bind]

theorem setFixedError_eq (stime : Int) {n : NodeJ} (hx : n.isFixed) :
    g.setFixedError stime n = { n with
      time := n.slot stime
      error := fun e => if e = 5 ∧ n.session.1 < stime ∨
        backRaises g.isSearch n.session e g.outRouteJ.reverse 0 then 1 else n.error e } := by
  have hslot : n.slot stime = n.session := by simp [NodeJ.slot, hx]
  have hsession : ({ n with time := n.session } : NodeJ).session = n.session := rfl
  simp only [setFixedError, isBackFixedConflict, hsession, backConflict_eq, hslot]
  by_cases h : stime ≤ n.session.1
  · simp [h, not_lt.mpr h]
  · simp only [h, if_false, NodeJ.setError, not_le.mp h, and_true]
    congr 1
    funext e
    by_cases he : e = 5 <;> simp [he]

theorem setBorderError_eq (n : NodeJ) :
    g.setBorderError n = { n with
      error := fun e => if e = 6 ∧ g.outRouteJ.length + 1 ≠ g.inRouteJ.length ∧
        n.time.2 > g.playBorders.2 then 1 else n.error e } := by
  unfold setBorderError isConflictWithBorders
  by_cases h : g.outRouteJ.length + 1 ≠ g.inRouteJ.length ∧ n.time.2 > g.playBorders.2
  · have (e : Fin 7) : Function.update n.error 6 1 e = if e = 6 then 1 else n.error e :=
      Function.update_apply ..
    simp [NodeJ.setError, h, funext this]
  · simp only [decide_eq_true_eq, h, and_false, if_false]

theorem setErrorAt_eq (stime : Int) {n : NodeJ} (hn : n.isFree = !n.isFixed) :
    g.setErrorAt stime n =
      if n.idxOk then .ok (g.arranged stime n) else .error .negativeIndex := by
  unfold setErrorAt
  cases hx : n.isFixed with
  | true =>
    have hok : n.idxOk := by simp [NodeJ.idxOk, hx]
    have hfree : n.isFree = false := by simp [hn, hx]
    have hfree' : (g.setFixedError stime n).isFree = false := by
      rw [setFixedError_eq g stime hx]
      exact hfree
    simp only [if_true, hfree', Bool.false_eq_true, if_false, hok, bind, Except.bind, pure,
      Except.pure]
    rw [setBorderError_eq, setFixedError_eq g stime hx, arranged]
    congr 2
    funext e
    have hback (h : 2 < e) := backRaises_eq_false g.isSearch n.session h g.outRouteJ.reverse 0
    fin_cases e <;> simp_all [raises]
  | false =>
    have hfree : n.isFree := by simp [hn, hx]
    simp only [Bool.false_eq_true, if_false, hfree, if_true, setFreeError_eq stime hx]
    by_cases hok : n.idxOk
    · simp only [hok, if_true, bind, Except.bind, pure, Except.pure]
      rw [setBorderError_eq, arranged]
      congr 2
      funext e
      fin_cases e <;> simp [raises, hx, hfree]
    · simp [hok, bind, Except.bind]

/-- `setNodeError` on a node that is either free or fixed. -/
theorem setNodeError_eq {n : NodeJ} (hn : n.isFree = !n.isFixed) :
    g.setNodeError n = match (g.outRouteJ.getLastD default).traffic n.ident with
      | none => .ok none
      | some traf =>
        if n.idxOk then .ok (some (g.arranged ((g.outRouteJ.getLastD default).time.2 + traf) n))
        else .error .negativeIndex := by
  simp only [setNodeError]
  cases (g.outRouteJ.getLastD default).traffic n.ident with
  | none => rfl
  | some traf =>
    simp only [setErrorAt_eq g _ hn]
    split_ifs <;> rfl

end PathGenerator

end PPView
