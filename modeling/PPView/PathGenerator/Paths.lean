import PPView.Library.Orders
import PPView.PathGenerator.Search

/-!
# The paths of a search

What `Search` is to find, without its state: `scheduled g p` schedules the nodes `p` in this order
after the route of `g` and closes the path with the last node; `feasible` lists the paths of all
sessions of both ends and all orders of the nodes between, each with its score.

`paths` is the tree that the recursion walks, one node chosen at each level. It lists the same
paths (`paths_perm`).
-/

namespace PPView

open NodeJ

namespace PathGenerator

/-- The route with `node` placed behind it. -/
def next (g : PathGenerator) (node : NodeJ) : Option PathGenerator :=
  match g.placeNext node with
  | .ok (some node) => some (g.append node)
  | _ => none

/-- The path that visits the nodes in the given order, if each of them can be placed. -/
def scheduled (g : PathGenerator) : List NodeJ → Option RouteJ
  | [] => match g.placeLast with
    | .ok (some last) => some (g.outRouteJ ++ [last])
    | _ => none
  | node :: rest => (g.next node).bind fun g => g.scheduled rest

/-- The paths that `n` choices among the nodes with the numbers `unused` lead to. -/
def paths (nodeAt : Nat → NodeJ) : Nat → PathGenerator → (unused : List Nat) → List RouteJ
  | 0, g, _ => (g.scheduled []).toList
  | n + 1, g, unused => unused.flatMap fun i => match g.next (nodeAt i) with
    | some g => paths nodeAt n g (unused.erase i)
    | none => []

/-- A path is found by visiting the nodes in some order. -/
theorem paths_eq_tree (nodeAt : Nat → NodeJ) (n : Nat) (g : PathGenerator) (unused : List Nat) :
    paths nodeAt n g unused =
      Orders.tree (fun g i => next g (nodeAt i)) (scheduled · []) n g unused := by
  induction n generalizing g unused with
  | zero => rfl
  | succ n ih =>
    simp only [paths, Orders.tree, ih]
    refine congrArg (unused.flatMap ·) (funext fun i => ?_)
    cases next g (nodeAt i) <;> rfl

theorem scheduled_map (nodeAt : Nat → NodeJ) (g : PathGenerator) (p : List Nat) :
    g.scheduled (p.map nodeAt) =
      Orders.run (fun g i => next g (nodeAt i)) (scheduled · []) g p := by
  induction p generalizing g with
  | nil => rfl
  | cons i p ih => simp only [List.map_cons, scheduled, Orders.run, ih]

/-- The recursion finds the path of every order once. -/
theorem paths_perm (nodeAt : Nat → NodeJ) {n : Nat} (g : PathGenerator) {unused : List Nat}
    (hnodup : unused.Nodup) (hlen : unused.length = n) :
    (paths nodeAt n g unused).Perm
      (unused.permutations.filterMap fun p => g.scheduled (p.map nodeAt)) := by
  simp only [paths_eq_tree, scheduled_map]
  exact Orders.tree_perm g hnodup hlen

/-! ## Scores -/

/-- The traffic time along a route. -/
def trafSum : RouteJ → Int
  | p :: n :: rest => Search.trafTo p n + trafSum (n :: rest)
  | _ => 0

/-- The score of a path: ten for each fixed and three for each free node between its ends, less
the days between the borders and the days in traffic. -/
def pathScore (playBorders : Int × Int) (path : RouteJ) : ℚ :=
  let mid := path.tail.dropLast
  10 * (mid.countP isFixed : Int) + 3 * (mid.countP isFree : Int)
    - (playBorders.2 - playBorders.1 : Int) / (24 * 3600) - trafSum path / (24 * 3600)

def scored (playBorders : Int × Int) (path : RouteJ) : ℚ × RouteJ :=
  (pathScore playBorders path, path)

/-- The feasible paths of the day of `g` at the sessions `i` and `j`, in all orders. -/
def feasibleAt (g : PathGenerator) (i j : Nat) : List (ℚ × RouteJ) :=
  let start := Search.startGen g i j
  (g.inRouteJ.tail.dropLast.permutations.filterMap start.scheduled).map
    (scored start.playBorders)

/-- All feasible paths of a day. -/
def feasible (g : PathGenerator) : List (ℚ × RouteJ) :=
  (List.range (g.inRouteJ.headD default).times.length).flatMap fun i =>
    (List.range (g.inRouteJ.getLastD default).times.length).flatMap fun j => feasibleAt g i j

theorem trafSum_concat {r : RouteJ} (hne : r ≠ []) (n : NodeJ) :
    trafSum (r ++ [n]) = trafSum r + Search.trafTo (r.getLastD default) n := by
  induction r with
  | nil => exact absurd rfl hne
  | cons p r ih =>
    cases r with
    | nil => simp [trafSum]
    | cons q r =>
      have := ih (List.cons_ne_nil q r)
      simp only [List.cons_append, trafSum] at this ⊢
      rw [this, Int.add_assoc]
      rfl

end PathGenerator

end PPView
