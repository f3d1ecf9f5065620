import Mathlib.Data.List.Perm.Basic

/-!
# Collecting by key

The elements of a list are collected for the keys `0`, `1`, ... up to a bound, those of each key in
their order. This sorts the list, unless an element has no key or one that is too large.
-/

namespace PPView.Buckets

variable {α : Type*} {key : α → Option ℕ} {l : List α} {n d : ℕ}

def collect (key : α → Option ℕ) (n : ℕ) (l : List α) : List α :=
  (List.range n).flatMap fun d => l.filter (key · = some d)

theorem collect_succ (key : α → Option ℕ) (n : ℕ) (l : List α) :
    collect key (n + 1) l = collect key n l ++ l.filter (key · = some n) := by
  rw [collect, List.range_succ, List.flatMap_append, List.flatMap_singleton]
  rfl

/-- The elements that are collected. -/
def IsBelow (key : α → Option ℕ) (n : ℕ) (x : α) : Bool := (key x).any (· < n)

theorem isBelow_iff {x : α} : IsBelow key n x ↔ ∃ d < n, key x = some d := by
  cases h : key x <;> simp [IsBelow, h]

/-- What satisfies one of two conditions, split by the first. -/
theorem filter_or_perm {p q : α → Bool} (h : ∀ x, p x → ¬ q x) (l : List α) :
    (l.filter p ++ l.filter q).Perm (l.filter fun x => p x || q x) := by
  have hsplit := List.filter_append_perm p (l.filter fun x => p x || q x)
  rw [List.filter_filter, List.filter_filter] at hsplit
  have hp : (l.filter fun x => p x && (p x || q x)) = l.filter p :=
    List.filter_congr fun x _ => by cases p x <;> rfl
  have hq : (l.filter fun x => !p x && (p x || q x)) = l.filter q := by
    refine List.filter_congr fun x _ => ?_
    have := h x
    cases hpx : p x
    · rfl
    · simpa [hpx] using this
  rwa [hp, hq] at hsplit

theorem collect_perm (key : α → Option ℕ) (n : ℕ) (l : List α) :
    (collect key n l).Perm (l.filter (IsBelow key n)) := by
  induction n with
  | zero =>
    have hnone : l.filter (IsBelow key 0) = [] := by
      refine List.filter_eq_nil_iff.mpr fun x _ hx => ?_
      obtain ⟨d, hd, -⟩ := isBelow_iff.mp hx
      omega
    rw [hnone]
    exact .nil
  | succ n ih =>
    rw [collect_succ]
    refine (ih.append_right _).trans ((filter_or_perm ?_ l).trans (.of_eq ?_))
    · intro x hx
      obtain ⟨d, hd, hkey⟩ := isBelow_iff.mp hx
      simp [hkey]
      omega
    · refine List.filter_congr fun x _ => ?_
      rw [IsBelow, IsBelow]
      cases key x with
      | none => rfl
      | some d =>
        simp only [Option.any_some, Option.some.injEq]
        by_cases hd : d < n
        · simp [hd]
          omega
        · by_cases heq : d = n
          · simp [heq]
          · simp [heq]
            omega

/-- Nothing is lost exactly if every element has a key below the bound. -/
theorem collect_perm_iff : (collect key n l).Perm l ↔ ∀ x ∈ l, ∃ d < n, key x = some d := by
  have hperm := collect_perm key n l
  constructor
  · intro h x hx
    have hself : l.filter (IsBelow key n) = l :=
      List.filter_sublist.eq_of_length (hperm.symm.trans h).length_eq
    exact isBelow_iff.mp (List.filter_eq_self.mp hself x hx)
  · intro h
    rwa [List.filter_eq_self.mpr fun x hx => isBelow_iff.mpr (h x hx)] at hperm

/-- The elements of a key keep their order. -/
theorem filter_collect (hd : d < n) (l : List α) :
    (collect key n l).filter (key · = some d) = l.filter (key · = some d) := by
  induction n with
  | zero => omega
  | succ n ih =>
    rw [collect_succ, List.filter_append, List.filter_filter]
    rcases Nat.lt_succ_iff_lt_or_eq.mp hd with hlt | rfl
    · have hnone : (l.filter fun x => decide (key x = some d) && decide (key x = some n)) = [] := by
        refine List.filter_eq_nil_iff.mpr fun x _ => ?_
        simp only [Bool.and_eq_true, decide_eq_true_eq, not_and]
        intro hkey hkey'
        rw [hkey] at hkey'
        have := Option.some.inj hkey'
        omega
      rw [ih hlt, hnone, List.append_nil]
    · rw [List.filter_eq_nil_iff.mpr, List.nil_append]
      · simp
      · intro x hx
        have hmem := (collect_perm key d l).mem_iff.mp hx
        obtain ⟨d', hd', hkey⟩ := isBelow_iff.mp (List.of_mem_filter hmem)
        simp [hkey]
        omega

/-- The keys come in order. -/
theorem pairwise_collect (key : α → Option ℕ) (n : ℕ) (l : List α) :
    (collect key n l).Pairwise fun x y => ∀ d ∈ key x, ∀ e ∈ key y, d ≤ e := by
  induction n with
  | zero => exact .nil
  | succ n ih =>
    rw [collect_succ]
    refine List.pairwise_append.mpr ⟨ih, ?_, ?_⟩
    · refine List.pairwise_of_forall_mem_list fun x hx y hy d hd e he => ?_
      have hx : key x = some n := by simpa using List.of_mem_filter hx
      have hy : key y = some n := by simpa using List.of_mem_filter hy
      rw [hx] at hd
      rw [hy] at he
      exact Nat.le_of_eq (Option.some.inj hd ▸ Option.some.inj he)
    · intro x hx y hy d hd e he
      obtain ⟨d', hd', hkey⟩ := isBelow_iff.mp
        (List.of_mem_filter ((collect_perm key n l).mem_iff.mp hx))
      have hy : key y = some n := by simpa using List.of_mem_filter hy
      rw [hkey] at hd
      rw [hy] at he
      have := Option.some.inj hd
      have := Option.some.inj he
      omega

end PPView.Buckets
