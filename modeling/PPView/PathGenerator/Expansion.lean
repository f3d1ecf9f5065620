import Mathlib.Data.List.Chain
import Mathlib.Data.List.Forall2
import PPView.PathGenerator.Schedule

/-!
# Expansions and schedules

`Expansion g rest tail b` relates the nodes `rest` still to be arranged to the nodes `tail`
that the loop of `DayPathExpand` appends and to its result `b`. The loop is this relation, and
facts about expansions are proved by induction on it.

`Scheduled r` says that every node of `r` sits at the slot which its predecessor gives it.
It is a property of neighbours, so it survives cutting a route at a fixed node and splicing.
-/

namespace PPView

namespace NodeJ

/-- There is a traffic edge from `p` to `n`. -/
def HasEdge (p n : NodeJ) : Prop := (p.traffic n.ident).isSome

/-- `n` sits where its predecessor `p` lets it sit. -/
def Follows (p n : NodeJ) : Prop :=
  ∃ traf, p.traffic n.ident = some traf ∧ n.idxOk ∧ n.time = n.slot (p.time.2 + traf)

/-- A node is either free or fixed, as `checkNodeJ` demands. -/
def Single (n : NodeJ) : Prop := n.isFree = !n.isFixed

theorem Single.isFree {n : NodeJ} (h : n.Single) (hx : n.isFixed = false) : n.isFree = true := by
  rw [h, hx, Bool.not_false]

theorem Single.not_isFree {n : NodeJ} (h : n.Single) (hx : n.isFixed = true) :
    n.isFree = false := by
  rw [h, hx, Bool.not_true]

theorem Single.of_bare {m n : NodeJ} (hn : n.Single) (h : n.bare = m.bare) : m.Single := by
  change m.bare.Single
  rw [← h]
  exact hn

theorem Follows.hasEdge {p n : NodeJ} (h : Follows p n) : HasEdge p n := by
  obtain ⟨traf, htraf, -, -⟩ := h
  simp [HasEdge, htraf]

theorem Follows.time_eq_session {p n : NodeJ} (h : Follows p n) (hx : n.isFixed) :
    n.time = n.session := by
  obtain ⟨_, -, -, ht⟩ := h
  rw [ht, slot, if_pos hx]

theorem hasEdge_congr {p p' n n' : NodeJ} (hp : p.toNext = p'.toNext) (hn : n.id = n'.id) :
    HasEdge p n ↔ HasEdge p' n' := by
  simp only [HasEdge, traffic, members, ident, hp, hn]

theorem isChain_hasEdge_cons (p p' : NodeJ) (hp : p.toNext = p'.toNext) {rest : RouteJ} :
    (p :: rest).IsChain HasEdge ↔ (p' :: rest).IsChain HasEdge := by
  cases rest <;> simp [List.isChain_cons_cons, hasEdge_congr hp rfl]

end NodeJ

namespace RouteJ

/-- All traffic edges between neighbours are present. -/
def Linked (r : RouteJ) : Prop := r.IsChain NodeJ.HasEdge

/-- The first node sits at its session and every other one where its predecessor lets it. -/
def Scheduled (r : RouteJ) : Prop :=
  (∀ n ∈ r.head?, n.time = n.session) ∧ r.IsChain NodeJ.Follows

theorem Scheduled.linked {r : RouteJ} (h : Scheduled r) : Linked r :=
  h.2.imp fun _ _ => NodeJ.Follows.hasEdge

end RouteJ

namespace PathGenerator

open NodeJ

/-- The node after which the next one is arranged. -/
def lastNode (g : PathGenerator) : NodeJ := g.outRouteJ.getLastD default

@[simp] theorem lastNode_append (g : PathGenerator) (n : NodeJ) : (g.append n).lastNode = n := by
  simp [lastNode, append]

/-- When `n` is reached after the last node of `g`, if there is an edge. -/
def arrival (g : PathGenerator) (n : NodeJ) : Option Int :=
  (g.lastNode.traffic n.ident).map (g.lastNode.time.2 + ·)

/-- What the loop of `DayPathExpand` appends for `rest` and whether it gets to the end. -/
inductive Expansion : PathGenerator → RouteJ → RouteJ → Bool → Prop
  | nil {g} : Expansion g [] [] true
  | noEdge {g n rest} (h : g.arrival n = none) : Expansion g (n :: rest) [] false
  | cons {g n rest tail b stime} (h : g.arrival n = some stime) (hidx : n.idxOk)
      (ht : Expansion (g.append (g.arranged stime n)) rest tail b) :
      Expansion g (n :: rest) (g.arranged stime n :: tail) b

theorem setNodeError_eq_arrival (g : PathGenerator) {n : NodeJ} (hn : n.Single) :
    g.setNodeError n = match g.arrival n with
      | none => .ok none
      | some stime =>
        if n.idxOk then .ok (some (g.arranged stime n)) else .error .negativeIndex := by
  rw [setNodeError_eq g hn, arrival, lastNode]
  cases (g.outRouteJ.getLastD default).traffic n.ident <;> rfl

theorem expandLoop_eq_ok {g g' : PathGenerator} {rest : RouteJ} {b : Bool}
    (hrest : ∀ n ∈ rest, n.Single) :
    g.expandLoop rest = .ok (b, g') ↔
      ∃ tail, Expansion g rest tail b ∧ g' = { g with outRouteJ := g.outRouteJ ++ tail } := by
  induction rest generalizing g with
  | nil =>
    constructor
    · intro h
      obtain ⟨rfl, rfl⟩ : true = b ∧ g = g' := by simpa [expandLoop, pure, Except.pure] using h
      exact ⟨[], .nil, by simp⟩
    · rintro ⟨tail, ⟨⟩, rfl⟩
      simp [expandLoop, pure, Except.pure]
  | cons n rest ih =>
    have hn : n.Single := hrest n (by simp)
    have hrest : ∀ n ∈ rest, n.Single := fun m hm => hrest m (by simp [hm])
    rw [expandLoop, setNodeError_eq_arrival g hn]
    cases ha : g.arrival n with
    | none =>
      constructor
      · intro h
        obtain ⟨rfl, rfl⟩ : false = b ∧ g = g' := by
          simpa [bind, Except.bind, pure, Except.pure] using h
        exact ⟨[], .noEdge ha, by simp⟩
      · rintro ⟨tail, htail, rfl⟩
        cases htail with
        | noEdge => simp [bind, Except.bind, pure, Except.pure]
        | cons h => simp [ha] at h
    | some stime =>
      by_cases hidx : n.idxOk
      · simp only [hidx, if_true, bind, Except.bind, ih hrest]
        constructor
        · rintro ⟨tail, htail, rfl⟩
          exact ⟨_, .cons ha hidx htail, by simp [append]⟩
        · rintro ⟨tail, htail, rfl⟩
          cases htail with
          | noEdge h => simp [ha] at h
          | cons h _ ht =>
            obtain rfl : stime = _ := by simpa [ha] using h
            exact ⟨_, ht, by simp [append]⟩
      · constructor
        · simp [hidx, bind, Except.bind]
        · rintro ⟨tail, htail, rfl⟩
          cases htail with
          | noEdge h => simp [ha] at h
          | cons _ h => exact absurd h hidx

/-- The loop faults exactly at a node that is reached and whose interval index cannot be read. -/
theorem expandLoop_eq_error {g : PathGenerator} {rest : RouteJ} {e : Fault}
    (hrest : ∀ n ∈ rest, n.Single) :
    g.expandLoop rest = .error e ↔ e = .negativeIndex ∧ ∃ pre n post, rest = pre ++ n :: post ∧
      (g.lastNode :: (pre ++ [n])).IsChain HasEdge ∧ n.idxOk = false := by
  induction rest generalizing g with
  | nil => simp [expandLoop, pure, Except.pure]
  | cons n rest ih =>
    have hn : n.Single := hrest n (by simp)
    have hrest : ∀ n ∈ rest, n.Single := fun m hm => hrest m (by simp [hm])
    rw [expandLoop, setNodeError_eq_arrival g hn]
    cases ha : g.arrival n with
    | none =>
      have hedge : ¬ HasEdge g.lastNode n := by simpa [arrival, HasEdge] using ha
      refine iff_of_false (by simp [bind, Except.bind, pure, Except.pure]) ?_
      rintro ⟨-, pre, m, post, heq, hchain, -⟩
      cases pre with
      | nil =>
        obtain ⟨rfl, -⟩ := List.cons_eq_cons.mp heq
        exact hedge (List.isChain_cons_cons.mp hchain).1
      | cons m' pre =>
        obtain ⟨rfl, -⟩ := List.cons_eq_cons.mp heq
        exact hedge (List.isChain_cons_cons.mp hchain).1
    | some stime =>
      have hedge : HasEdge g.lastNode n := by
        obtain ⟨traf, htraf, -⟩ := Option.map_eq_some_iff.mp ha
        simp [HasEdge, htraf]
      cases hidx : n.idxOk with
      | false =>
        simp only [Bool.false_eq_true, if_false, bind, Except.bind, Except.error.injEq]
        refine ⟨fun h => ⟨h.symm, [], n, rest, rfl, ?_, hidx⟩, fun h => h.1.symm⟩
        exact List.isChain_cons_cons.mpr ⟨hedge, by simp⟩
      | true =>
        simp only [if_true, bind, Except.bind, ih hrest, lastNode_append]
        refine and_congr_right fun _ => ⟨?_, ?_⟩
        · rintro ⟨pre, m, post, rfl, hchain, hm⟩
          refine ⟨n :: pre, m, post, rfl, List.isChain_cons_cons.mpr ⟨hedge, ?_⟩, hm⟩
          exact (isChain_hasEdge_cons (g.arranged stime n) n rfl).mp hchain
        · rintro ⟨pre, m, post, heq, hchain, hm⟩
          cases pre with
          | nil =>
            obtain ⟨rfl, -⟩ := List.cons_eq_cons.mp heq
            simp [hidx] at hm
          | cons m' pre =>
            rw [List.cons_append, List.cons_eq_cons] at heq
            obtain ⟨rfl, rfl⟩ := heq
            refine ⟨pre, m, post, rfl, ?_, hm⟩
            exact (isChain_hasEdge_cons n (g.arranged stime n) rfl).mp
              (List.isChain_cons_cons.mp hchain).2

/-- Nothing faults when every interval index can be read. -/
theorem exists_expansion (g : PathGenerator) {rest : RouteJ} (hidx : ∀ n ∈ rest, n.idxOk) :
    ∃ tail b, Expansion g rest tail b := by
  induction rest generalizing g with
  | nil => exact ⟨[], true, .nil⟩
  | cons n rest ih =>
    cases ha : g.arrival n with
    | none => exact ⟨[], false, .noEdge ha⟩
    | some stime =>
      obtain ⟨tail, b, ht⟩ := ih (g.append (g.arranged stime n)) fun m hm => hidx m (by simp [hm])
      exact ⟨_, b, .cons ha (hidx n (by simp)) ht⟩

/-- The node `n'` is `n` arranged anew: flags are raised and never taken back. -/
structure Rearranged (n n' : NodeJ) : Prop where
  bare : n'.bare = n.bare
  error : ∀ e, n'.error e = 1 ∨ n'.error e = n.error e

theorem rearranged_arranged (g : PathGenerator) (stime : Int) (n : NodeJ) :
    Rearranged n (g.arranged stime n) := by
  refine ⟨rfl, fun e => ?_⟩
  rw [arranged_error]
  split_ifs <;> simp

namespace Expansion

variable {g : PathGenerator} {rest tail : RouteJ} {b : Bool}

theorem length_le (h : Expansion g rest tail b) : tail.length ≤ rest.length := by
  induction h with
  | nil => simp
  | noEdge => simp
  | cons _ _ _ ih => simpa using ih

/-- Only the arrangement of a node changes. -/
theorem map_bare (h : Expansion g rest tail b) :
    tail.map bare = (rest.take tail.length).map bare := by
  induction h with
  | nil => rfl
  | noEdge => rfl
  | cons _ _ _ ih => simpa using ih

theorem rearranged (h : Expansion g rest tail b) :
    List.Forall₂ Rearranged (rest.take tail.length) tail := by
  induction h with
  | nil => exact .nil
  | noEdge => exact .nil
  | cons _ _ _ ih => exact .cons (rearranged_arranged _ _ _) ih

theorem length_eq_iff (h : Expansion g rest tail b) : tail.length = rest.length ↔ b := by
  induction h with
  | nil => simp
  | noEdge => simp
  | cons _ _ _ ih => simpa using ih

theorem linked_iff (h : Expansion g rest tail b) : (g.lastNode :: rest).IsChain HasEdge ↔ b := by
  induction h with
  | nil => simp
  | @noEdge g n rest ha =>
    have : ¬ HasEdge g.lastNode n := by simpa [arrival, HasEdge] using ha
    simp [List.isChain_cons_cons, this]
  | @cons g n rest _ _ stime ha _ _ ih =>
    have he : HasEdge g.lastNode n := by
      obtain ⟨traf, htraf, -⟩ := Option.map_eq_some_iff.mp ha
      simp [HasEdge, htraf]
    rw [List.isChain_cons_cons, ← ih, lastNode_append]
    simp [he, isChain_hasEdge_cons n (g.arranged stime n) rfl]

theorem follows (h : Expansion g rest tail b) : (g.lastNode :: tail).IsChain Follows := by
  induction h with
  | nil => simp
  | noEdge => simp
  | @cons g n rest _ _ stime ha hidx _ ih =>
    obtain ⟨traf, htraf, rfl⟩ := Option.map_eq_some_iff.mp ha
    rw [lastNode_append] at ih
    exact List.isChain_cons_cons.mpr ⟨⟨traf, htraf, hidx, rfl⟩, ih⟩

/-- Every appended node, with the generator that arranged it. -/
theorem mem_split (h : Expansion g rest tail b) {pre post : RouteJ} {m : NodeJ}
    (hm : tail = pre ++ m :: post) :
    ∃ n ∈ rest, ∃ stime, n.idxOk ∧
      ({ g with outRouteJ := g.outRouteJ ++ pre } : PathGenerator).arrival n = some stime ∧
      m = ({ g with outRouteJ := g.outRouteJ ++ pre } : PathGenerator).arranged stime n := by
  induction h generalizing pre with
  | nil => simp at hm
  | noEdge => simp at hm
  | @cons g n rest _ _ stime ha hidx _ ih =>
    cases pre with
    | nil =>
      obtain ⟨rfl, -⟩ := List.cons_eq_cons.mp hm
      exact ⟨n, by simp, stime, hidx, by simpa using ha, by simp⟩
    | cons m' pre =>
      rw [List.cons_append, List.cons_eq_cons] at hm
      obtain ⟨rfl, hm⟩ := hm
      obtain ⟨n', hn', stime', hidx', ha', heq⟩ := ih hm
      have happ : (g.append (g.arranged stime n)).outRouteJ ++ pre =
          g.outRouteJ ++ g.arranged stime n :: pre := by simp [append]
      rw [happ] at ha' heq
      exact ⟨n', by simp [hn'], stime', hidx', ha', heq⟩

end Expansion

end PathGenerator

end PPView
