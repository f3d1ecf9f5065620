import Mathlib.Data.List.TakeWhile
import Mathlib.Tactic.Common

/-!
# Replacing entries with one cursor

Entries of a list are replaced by the entries with their keys in a second list. `merge` looks each
key up in the whole second list; `sweep` has a cursor that only moves forwards. They agree when
no entry is looked for in vain before one that is there.
-/

namespace PPView.Sweep

variable {α κ : Type*} [DecidableEq κ] (key : α → κ) (p : κ → Prop) [DecidablePred p]

/-- Each entry whose key satisfies `p` is replaced. -/
def merge (bs ds : List α) : List α :=
  bs.flatMap fun b => if p (key b) then (ds.find? (key · = key b)).toList else [b]

/-- The second list is what is left from the cursor on. -/
def sweep : List α → List α → List α
  | [], _ => []
  | b :: bs, ds =>
    if p (key b) then
      let ds := ds.dropWhile (key · ≠ key b)
      ds.head?.toList ++ sweep bs ds
    else b :: sweep bs ds

/-- No two keys come in the one order in `bs` and in the other in `ds`. -/
def SameOrder (bs ds : List α) : Prop :=
  bs.Pairwise fun b b' => ds.Pairwise fun d d' => ¬ (key d = key b' ∧ key d' = key b)

/-- Behind an entry that is looked for in vain no other is looked for that is there. -/
def NoGap (bs ds : List α) : Prop :=
  bs.Pairwise fun b b' => p (key b) → key b ∉ ds.map key → p (key b') → key b' ∉ ds.map key

variable {key p}

theorem sweep_cons_pos {b : α} (hb : p (key b)) (bs ds : List α) :
    sweep key p (b :: bs) ds = (ds.find? (key · = key b)).toList ++
      sweep key p bs (ds.dropWhile (key · ≠ key b)) := by
  rw [sweep, if_pos hb, List.find?_eq_head?_dropWhile_not]
  simp

theorem sweep_cons_neg {b : α} (hb : ¬ p (key b)) (bs ds : List α) :
    sweep key p (b :: bs) ds = b :: sweep key p bs ds := by
  rw [sweep, if_neg hb]

theorem merge_cons_pos {b : α} (hb : p (key b)) (bs ds : List α) :
    merge key p (b :: bs) ds = (ds.find? (key · = key b)).toList ++ merge key p bs ds := by
  rw [merge, List.flatMap_cons, if_pos hb]
  rfl

theorem merge_cons_neg {b : α} (hb : ¬ p (key b)) (bs ds : List α) :
    merge key p (b :: bs) ds = b :: merge key p bs ds := by
  rw [merge, List.flatMap_cons, if_neg hb]
  rfl

theorem find?_eq_none {k : κ} {ds : List α} (h : k ∉ ds.map key) :
    ds.find? (key · = k) = none := by
  refine List.find?_eq_none.mpr fun d hd => ?_
  simpa using fun heq => h (List.mem_map.mpr ⟨d, hd, heq⟩)

theorem dropWhile_eq_nil {k : κ} {ds : List α} (h : k ∉ ds.map key) :
    ds.dropWhile (key · ≠ k) = [] := by
  refine List.dropWhile_eq_nil_iff.mpr fun d hd => ?_
  simpa using fun heq => h (List.mem_map.mpr ⟨d, hd, heq⟩)

/-- No key that is still looked for is in the part `pre` in front of the cursor. -/
theorem sweep_eq_merge_of_append (pre : List α) {bs ds : List α}
    (horder : SameOrder key bs (pre ++ ds))
    (hgap : NoGap key p bs (pre ++ ds))
    (hpre : ∀ b ∈ bs, p (key b) → key b ∉ pre.map key) :
    sweep key p bs ds = merge key p bs (pre ++ ds) := by
  induction bs generalizing pre ds with
  | nil => rfl
  | cons b bs ih =>
    obtain ⟨horder_b, horder⟩ := List.pairwise_cons.mp horder
    obtain ⟨hgap_b, hgap⟩ := List.pairwise_cons.mp hgap
    have hpre' : ∀ b' ∈ bs, p (key b') → key b' ∉ pre.map key := fun b' hb' =>
      hpre b' (List.mem_cons_of_mem _ hb')
    by_cases hb : p (key b)
    · have hfind : (pre ++ ds).find? (key · = key b) = ds.find? (key · = key b) := by
        rw [List.find?_append, find?_eq_none (hpre b List.mem_cons_self hb), Option.none_or]
      rw [sweep_cons_pos hb, merge_cons_pos hb, hfind]
      congr 1
      -- the cursor moves over the front part of `ds`
      have hcut : pre ++ ds =
          (pre ++ ds.takeWhile (key · ≠ key b)) ++ ds.dropWhile (key · ≠ key b) := by
        rw [List.append_assoc, List.takeWhile_append_dropWhile]
      rw [hcut] at horder hgap ⊢
      refine ih _ horder hgap fun b' hb' hp' hmem => ?_
      rw [List.map_append, List.mem_append] at hmem
      have hmem := hmem.resolve_left (hpre' b' hb' hp')
      obtain ⟨d', hd', hkey'⟩ := List.mem_map.mp hmem
      by_cases hin : key b ∈ (pre ++ ds).map key
      · have hin : key b ∈ (ds.dropWhile (key · ≠ key b)).map key := by
          rw [hcut, List.map_append, List.map_append, List.mem_append, List.mem_append] at hin
          refine hin.resolve_left (not_or.mpr ⟨hpre b List.mem_cons_self hb, fun hmem => ?_⟩)
          obtain ⟨d, hd, hkey⟩ := List.mem_map.mp hmem
          simpa [hkey] using List.mem_takeWhile_imp hd
        obtain ⟨d, hd, hkey⟩ := List.mem_map.mp hin
        have := hcut ▸ horder_b b' hb'
        exact (List.pairwise_append.mp this).2.2 d' (List.mem_append_right _ hd') d hd
          ⟨hkey', hkey⟩
      · refine hgap_b b' hb' hb hin hp' ?_
        rw [hcut, List.map_append, List.map_append]
        exact List.mem_append_left _ (List.mem_append_right _ hmem)
    · rw [sweep_cons_neg hb, merge_cons_neg hb, ih pre horder hgap hpre']

theorem sweep_eq_merge {bs ds : List α} (horder : SameOrder key bs ds)
    (hgap : NoGap key p bs ds) : sweep key p bs ds = merge key p bs ds :=
  sweep_eq_merge_of_append [] horder hgap fun _ _ _ => List.not_mem_nil

theorem length_find? (ds : List α) (k : κ) : (ds.find? (key · = k)).toList.length =
    if k ∈ ds.map key then 1 else 0 := by
  split_ifs with hmem
  · obtain ⟨d, hd, hkey⟩ := List.mem_map.mp hmem
    have hsome : (ds.find? (key · = k)).isSome := List.find?_isSome.mpr ⟨d, hd, decide_eq_true hkey⟩
    obtain ⟨d', hd'⟩ := Option.isSome_iff_exists.mp hsome
    rw [hd']
    rfl
  · rw [find?_eq_none hmem]
    rfl

theorem length_find?_le {rest ds : List α} (h : rest.Sublist ds) (k : κ) :
    (rest.find? (key · = k)).toList.length ≤ (ds.find? (key · = k)).toList.length := by
  rw [length_find?, length_find?]
  split_ifs with hrest hds
  · exact Nat.le_refl 1
  · exact absurd ((h.map key).subset hrest) hds
  all_goals exact Nat.zero_le _

theorem length_sweep_le (bs : List α) {rest ds : List α} (h : rest.Sublist ds) :
    (sweep key p bs rest).length ≤ (merge key p bs ds).length := by
  induction bs generalizing rest with
  | nil => exact Nat.le_refl 0
  | cons b bs ih =>
    by_cases hb : p (key b)
    · rw [sweep_cons_pos hb, merge_cons_pos hb, List.length_append, List.length_append]
      exact Nat.add_le_add (length_find?_le h _) (ih ((List.dropWhile_sublist _).trans h))
    · rw [sweep_cons_neg hb, merge_cons_neg hb]
      exact Nat.succ_le_succ (ih h)

/-- At the end of the second list nothing is found any more. -/
theorem length_sweep_nil_lt {bs ds : List α} {b : α} (hmem : b ∈ bs) (hb : p (key b))
    (hin : key b ∈ ds.map key) :
    (sweep key p bs []).length < (merge key p bs ds).length := by
  induction bs with
  | nil => contradiction
  | cons b' bs ih =>
    by_cases hb' : p (key b')
    · rw [sweep_cons_pos hb', merge_cons_pos hb', List.length_append, List.length_append]
      rcases List.mem_cons.mp hmem with rfl | hmem
      · have hle : (sweep key p bs []).length ≤ (merge key p bs ds).length :=
          length_sweep_le bs (List.nil_sublist ds)
        rw [length_find?, length_find?, if_pos hin, List.map_nil, if_neg List.not_mem_nil]
        exact Nat.add_lt_add_of_lt_of_le Nat.zero_lt_one hle
      · exact Nat.add_lt_add_of_le_of_lt (Nat.zero_le _) (ih hmem)
    · rw [sweep_cons_neg hb', merge_cons_neg hb']
      rcases List.mem_cons.mp hmem with rfl | hmem
      · contradiction
      · exact Nat.succ_lt_succ (ih hmem)

theorem length_sweep_lt {bs rest ds : List α} (h : rest.Sublist ds) (hgap : ¬ NoGap key p bs ds) :
    (sweep key p bs rest).length < (merge key p bs ds).length := by
  induction bs generalizing rest with
  | nil => exact absurd List.Pairwise.nil hgap
  | cons b bs ih =>
    have hrest := (List.dropWhile_sublist (key · ≠ key b)).trans h
    by_cases hlater : NoGap key p bs ds
    · -- the gap begins with `b`
      have hgap_b : ¬ ∀ b' ∈ bs, p (key b) → key b ∉ ds.map key → p (key b') →
          key b' ∉ ds.map key := fun hgap_b => hgap (List.pairwise_cons.mpr ⟨hgap_b, hlater⟩)
      push Not at hgap_b
      obtain ⟨b', hb', hb, hnot, hp', hin⟩ := hgap_b
      have hnot' : key b ∉ rest.map key := fun hmem => hnot ((h.map key).subset hmem)
      rw [sweep_cons_pos hb, merge_cons_pos hb, find?_eq_none hnot, find?_eq_none hnot',
        dropWhile_eq_nil hnot']
      exact length_sweep_nil_lt hb' hp' hin
    · by_cases hb : p (key b)
      · rw [sweep_cons_pos hb, merge_cons_pos hb, List.length_append, List.length_append]
        exact Nat.add_lt_add_of_le_of_lt (length_find?_le h _) (ih hrest hlater)
      · rw [sweep_cons_neg hb, merge_cons_neg hb]
        exact Nat.succ_lt_succ (ih h hlater)

end PPView.Sweep
