import Mathlib.Data.List.Permutation

/-!
# Trying all orders

A search that visits the elements of a list one after the other. `step` is the state behind a
visit, if the visit is possible, and `final` is what is found when nothing is left. `run` follows
one order; `tree` chooses among what is left at each level. The tree finds what the orders find,
each once (`tree_perm`).
-/

namespace PPView.Orders

variable {σ α β : Type*} (step : σ → α → Option σ) (final : σ → Option β)

/-- What visiting the elements in the given order leads to. -/
def run : σ → List α → Option β
  | s, [] => final s
  | s, x :: xs => (step s x).bind fun s => run s xs

/-- What `n` choices among the unused elements lead to. -/
def tree [DecidableEq α] : ℕ → σ → (unused : List α) → List β
  | 0, s, _ => (final s).toList
  | n + 1, s, unused => unused.flatMap fun x =>
    match step s x with
    | some s => tree n s (unused.erase x)
    | none => []

/-- The permutations of a list, by their first element. -/
theorem permutations_perm_flatMap [DecidableEq α] {l : List α} (hl : l.Nodup) (hne : l ≠ []) :
    l.permutations.Perm (l.flatMap fun x => (l.erase x).permutations.map (x :: ·)) := by
  refine (List.perm_ext_iff_of_nodup (List.nodup_permutations l hl) ?_).mpr fun p => ?_
  · refine List.nodup_flatMap.mpr ⟨fun x _ => ?_, ?_⟩
    · exact (List.nodup_permutations _ (hl.erase x)).map fun _ _ h => (List.cons_eq_cons.mp h).2
    · refine hl.pairwise_of_forall_ne fun x _ y _ hxy => ?_
      rw [Function.onFun, List.disjoint_left]
      intro p hx hy
      obtain ⟨q, -, rfl⟩ := List.mem_map.mp hx
      obtain ⟨q', -, h⟩ := List.mem_map.mp hy
      exact hxy (List.cons_eq_cons.mp h).1.symm
  · simp only [List.mem_permutations, List.mem_flatMap, List.mem_map]
    constructor
    · intro hp
      cases p with
      | nil => exact absurd hp.symm.eq_nil hne
      | cons x p =>
        have hx : x ∈ l := hp.mem_iff.mp (by simp)
        exact ⟨x, hx, p, (List.cons_perm_iff_perm_erase.mp hp).2, rfl⟩
    · rintro ⟨x, hx, q, hq, rfl⟩
      exact List.cons_perm_iff_perm_erase.mpr ⟨hx, hq⟩

variable {step final} [DecidableEq α]

theorem tree_perm {n : ℕ} (s : σ) {unused : List α} (hnodup : unused.Nodup)
    (hlen : unused.length = n) :
    (tree step final n s unused).Perm (unused.permutations.filterMap (run step final s)) := by
  induction n generalizing s unused with
  | zero =>
    obtain rfl := List.length_eq_zero_iff.mp hlen
    cases h : final s <;> simp [tree, run, h]
  | succ n ih =>
    have hne : unused ≠ [] := List.ne_nil_of_length_pos (by omega)
    refine List.Perm.trans ?_ ((permutations_perm_flatMap hnodup hne).filterMap _).symm
    rw [List.filterMap_flatMap, tree]
    refine List.Perm.flatMap_left _ fun x hx => ?_
    have hlen' : (unused.erase x).length = n := by
      rw [List.length_erase_of_mem hx]
      omega
    rw [List.filterMap_map]
    cases hstep : step s x with
    | none => simp [run, hstep]
    | some s' => simpa [Function.comp_def, run, hstep] using ih s' (hnodup.erase x) hlen'

/-- What holds of a state, and of every state that a visit leads to from one of which it holds,
passes to what is found. -/
theorem tree_induction (Inv : σ → Prop) {Q : β → Prop}
    (hstep : ∀ s x s', Inv s → step s x = some s' → Inv s')
    (hfinal : ∀ s b, Inv s → final s = some b → Q b) {n : ℕ} {s : σ} {unused : List α}
    (hs : Inv s) : ∀ b ∈ tree step final n s unused, Q b := by
  induction n generalizing s unused with
  | zero =>
    intro b hb
    exact hfinal s b hs (Option.mem_toList.mp hb)
  | succ n ih =>
    intro b hb
    obtain ⟨x, -, hb⟩ := List.mem_flatMap.mp hb
    cases hx : step s x with
    | none => simp [hx] at hb
    | some s' => exact ih (hstep s x s' hs hx) b (by simpa [hx] using hb)

end PPView.Orders
