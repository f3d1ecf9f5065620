import Mathlib.Data.List.Nodup
import Mathlib.Data.List.Perm.Basic

/-!
# Orders made by swaps

All orders of a segment of a list, made by bringing every element of the segment to its front and
going on behind it. The rest of the list stays where it is.
-/

namespace PPView.SwapOrders

variable {α β : Type*} {A B C l m : List α} {a b : α} {i j k start fin : ℕ}

/-! ## Swapping two elements -/

def swap (l : List α) (i j : ℕ) : List α :=
  match l[i]?, l[j]? with
  | some a, some b => (l.set i b).set j a
  | _, _ => l

theorem swap_of_lt (hi : i < l.length) (hj : j < l.length) :
    swap l i j = (l.set i l[j]).set j l[i] := by
  simp [swap, hi, hj]

theorem swap_of_le (h : l.length ≤ i ∨ l.length ≤ j) : swap l i j = l := by
  rcases h with h | h
  · simp [swap, h]
  · rw [swap, List.getElem?_eq_none_iff.mpr h]
    cases l[i]? <;> rfl

theorem swap_eq_or (l : List α) (i j : ℕ) :
    swap l i j = l ∨
      ∃ (hi : i < l.length) (hj : j < l.length), swap l i j = (l.set i l[j]).set j l[i] := by
  by_cases h : i < l.length ∧ j < l.length
  · exact .inr ⟨h.1, h.2, swap_of_lt h.1 h.2⟩
  · exact .inl (swap_of_le (by omega))

theorem swap_perm (l : List α) (i j : ℕ) : (swap l i j).Perm l := by
  rcases swap_eq_or l i j with heq | ⟨hi, hj, heq⟩
  · rw [heq]
  · rw [heq]
    exact List.set_set_perm hi hj

@[simp] theorem length_swap (l : List α) (i j : ℕ) : (swap l i j).length = l.length :=
  (swap_perm l i j).length_eq

@[simp] theorem swap_self (l : List α) (i : ℕ) : swap l i i = l := by
  rcases swap_eq_or l i i with heq | ⟨hi, hj, heq⟩
  · exact heq
  · rw [heq]
    simp

theorem swap_swap (l : List α) (i j : ℕ) : swap (swap l i j) j i = l := by
  by_cases h : i < l.length ∧ j < l.length
  · rw [swap_of_lt (by simpa using h.2) (by simpa using h.1)]
    simp only [swap_of_lt h.1 h.2]
    refine List.ext_getElem (by simp) fun n hn hn' => ?_
    grind
  · rw [swap_of_le (l := l) (by omega), swap_of_le (by omega)]

theorem swap_map (f : α → β) (l : List α) (i j : ℕ) :
    swap (l.map f) i j = (swap l i j).map f := by
  by_cases h : i < l.length ∧ j < l.length
  · rw [swap_of_lt (by simpa using h.1) (by simpa using h.2), swap_of_lt h.1 h.2]
    simp [List.map_set]
  · rw [swap_of_le (l := l) (by omega), swap_of_le (by simp; omega)]

/-- Swapping within a segment. -/
theorem swap_append (A C : List α) (hi : i < B.length) (hj : j < B.length) :
    swap (A ++ (B ++ C)) (A.length + i) (A.length + j) = A ++ (swap B i j ++ C) := by
  rw [swap_of_lt (by simp; omega) (by simp; omega), swap_of_lt hi hj]
  refine List.ext_getElem (by simp) fun n hn hn' => ?_
  grind

theorem exists_swap_eq_cons (hk : k < B.length) : ∃ r, swap B 0 k = B[k] :: r := by
  rw [swap_of_lt (by omega) hk]
  cases B with
  | nil => simp at hk
  | cons b B =>
    cases k with
    | zero => exact ⟨B, by simp⟩
    | succ k => exact ⟨B.set k b, by simp⟩

/-! ## The orders of a segment -/

/-- The orders of the positions from `start` to `fin`, as they are visited. -/
def swapOrders (start fin : ℕ) (l : List α) : List (List α) :=
  if start ≥ fin then [l]
  else (List.range' start (fin - start)).flatMap fun i =>
    swapOrders (start + 1) fin (swap l start i)
termination_by fin - start

theorem swapOrders_of_le (h : fin ≤ start) (l : List α) : swapOrders start fin l = [l] := by
  rw [swapOrders, if_pos h]

theorem swapOrders_of_lt (h : start < fin) (l : List α) :
    swapOrders start fin l = (List.range' start (fin - start)).flatMap fun i =>
      swapOrders (start + 1) fin (swap l start i) := by
  rw [swapOrders, if_neg (by omega)]

/-- The first order of a range is the one that is given. -/
theorem head?_swapOrders (start fin : ℕ) (l : List α) :
    (swapOrders start fin l).head? = some l := by
  fun_induction swapOrders start fin l with
  | case1 start l h => rfl
  | case2 start l h ih =>
    have ih := ih start
    rw [swap_self] at ih
    rw [show fin - start = (fin - start - 1) + 1 by omega, List.range'_succ, List.flatMap_cons,
      swap_self, List.head?_append, ih]
    rfl

theorem swapOrders_map (f : α → β) (l : List α) :
    swapOrders start fin (l.map f) = (swapOrders start fin l).map (List.map f) := by
  fun_induction swapOrders start fin l with
  | case1 start l h => rw [swapOrders_of_le h, List.map_singleton]
  | case2 start l h ih =>
    rw [swapOrders_of_lt (by omega), List.map_flatMap]
    refine List.flatMap_congr fun i hi => ?_
    rw [swap_map]
    exact ih i

/-- The first step on a segment. -/
theorem swapOrders_append (A B C : List α) (hB : B ≠ []) :
    swapOrders A.length (A.length + B.length) (A ++ (B ++ C)) =
      (List.range B.length).flatMap fun k =>
        swapOrders (A.length + 1) (A.length + B.length) (A ++ (swap B 0 k ++ C)) := by
  have hlen := List.length_pos_iff.mpr hB
  rw [swapOrders_of_lt (by omega), show A.length + B.length - A.length = B.length by omega,
    List.range'_eq_map_range, List.flatMap_map]
  refine List.flatMap_congr fun k hk => ?_
  have h := swap_append A C hlen (List.mem_range.mp hk)
  rw [Nat.add_zero] at h
  rw [h]

/-- Every order of the segment is made. -/
theorem mem_swapOrders :
    m ∈ swapOrders A.length (A.length + B.length) (A ++ (B ++ C)) ↔
      ∃ P, P.Perm B ∧ m = A ++ (P ++ C) := by
  induction hn : B.length generalizing A B with
  | zero =>
    obtain rfl := List.length_eq_zero_iff.mp hn
    simp [swapOrders_of_le]
  | succ n ih =>
    have hB : B ≠ [] := by
      rintro rfl
      simp at hn
    have step : ∀ k (hk : k < B.length), m ∈ swapOrders (A.length + 1) (A.length + B.length)
        (A ++ (swap B 0 k ++ C)) ↔ ∃ P, (B[k] :: P).Perm B ∧ m = A ++ (B[k] :: P ++ C) := by
      intro k hk
      obtain ⟨r, hr⟩ := exists_swap_eq_cons hk
      have hperm : (B[k] :: r).Perm B := hr ▸ swap_perm B 0 k
      have hrlen : r.length = n := by
        have := hperm.length_eq
        simp at this
        omega
      have hih := ih (A := A ++ [B[k]]) (B := r) hrlen
      rw [hr]
      simp only [List.length_append, List.length_singleton, List.append_assoc,
        List.cons_append, List.nil_append] at hih ⊢
      rw [show A.length + B.length = A.length + 1 + n by omega, hih]
      refine exists_congr fun P => and_congr_left fun _ => ?_
      exact ⟨fun h => (h.cons _).trans hperm, fun h => (h.trans hperm.symm).cons_inv⟩
    rw [← hn, swapOrders_append A B C hB, List.mem_flatMap]
    constructor
    · rintro ⟨k, hk, hm⟩
      obtain ⟨P, hP, hm⟩ := (step k (List.mem_range.mp hk)).mp hm
      exact ⟨_, hP, hm⟩
    · rintro ⟨P, hP, hm⟩
      cases P with
      | nil => exact absurd hP.nil_eq.symm hB
      | cons p P =>
        obtain ⟨k, hk, rfl⟩ := List.getElem_of_mem (hP.subset List.mem_cons_self)
        exact ⟨k, List.mem_range.mpr hk, (step k hk).mpr ⟨P, hP, hm⟩⟩

/-- No order is made twice. -/
theorem nodup_swapOrders (h : (A ++ (B ++ C)).Nodup) :
    (swapOrders A.length (A.length + B.length) (A ++ (B ++ C))).Nodup := by
  induction hn : B.length generalizing A B with
  | zero => simp [swapOrders_of_le]
  | succ n ih =>
    have hB : B ≠ [] := by
      rintro rfl
      simp at hn
    have hBnodup : B.Nodup := (List.nodup_append.mp (List.nodup_append.mp h).2.1).1
    rw [← hn, swapOrders_append A B C hB, List.nodup_flatMap]
    -- What stands at the front of the segment tells the rounds apart.
    have front : ∀ k, ∀ hk : k < B.length, ∃ r, r.length = n ∧ (B[k] :: r).Perm B ∧
        A ++ (swap B 0 k ++ C) = (A ++ [B[k]]) ++ (r ++ C) := by
      intro k hk
      obtain ⟨r, hr⟩ := exists_swap_eq_cons hk
      have hperm : (B[k] :: r).Perm B := hr ▸ swap_perm B 0 k
      refine ⟨r, ?_, hperm, by simp [hr]⟩
      have := hperm.length_eq
      simp at this
      omega
    have hlen : ∀ k, ∀ hk : k < B.length, A.length + B.length = (A ++ [B[k]]).length + n := by
      intro k hk
      simp
      omega
    constructor
    · intro k hk
      obtain ⟨r, hr, hperm, heq⟩ := front k (List.mem_range.mp hk)
      have hk := List.mem_range.mp hk
      have hih := ih (A := A ++ [B[k]]) (B := r) ?_ hr
      · rw [heq, hlen k hk]
        simpa using hih
      · refine (List.Perm.nodup_iff ?_).mpr h
        simpa using (hperm.append_right C).append_left A
    · refine List.nodup_range.pairwise_of_forall_ne fun k hk k' hk' hne => ?_
      intro m hm hm'
      have hk := List.mem_range.mp hk
      have hk' := List.mem_range.mp hk'
      obtain ⟨r, hr, -, heq⟩ := front k hk
      obtain ⟨r', hr', -, heq'⟩ := front k' hk'
      have hA : ∀ x : α, A.length + 1 = (A ++ [x]).length := by simp
      simp only [heq, hlen k hk, hA B[k], ← hr, mem_swapOrders] at hm
      simp only [heq', hlen k' hk', hA B[k'], ← hr', mem_swapOrders] at hm'
      obtain ⟨P, -, rfl⟩ := hm
      obtain ⟨P', -, hm'⟩ := hm'
      simp only [List.append_assoc, List.append_cancel_left_eq, List.singleton_append,
        List.cons.injEq] at hm'
      exact hne (hBnodup.getElem_inj_iff.mp hm'.1)

theorem exists_segment (h : start ≤ fin) (hfin : fin ≤ l.length) :
    ∃ A B C, l = A ++ (B ++ C) ∧ A.length = start ∧ A.length + B.length = fin := by
  refine ⟨l.take start, (l.drop start).take (fin - start), l.drop fin, ?_, ?_, ?_⟩
  · have hC : l.drop fin = (l.drop start).drop (fin - start) := by
      rw [List.drop_drop]
      congr 1
      omega
    rw [hC, List.take_append_drop, List.take_append_drop]
  · simp
    omega
  · simp
    omega

/-- The orders of a range keep what is outside of it, and these are all. -/
theorem mem_swapOrders_iff (hfin : start < fin → fin ≤ l.length) :
    m ∈ swapOrders start fin l ↔
      m.Perm l ∧ ∀ i, i < start ∨ fin ≤ i → m[i]? = l[i]? := by
  rcases Nat.lt_or_ge start fin with h | h
  · obtain ⟨A, B, C, rfl, rfl, rfl⟩ := exists_segment (Nat.le_of_lt h) (hfin h)
    rw [mem_swapOrders]
    constructor
    · rintro ⟨P, hP, rfl⟩
      have hlen := hP.length_eq
      refine ⟨(hP.append_right C).append_left A, fun i hi => ?_⟩
      grind
    · rintro ⟨hperm, hfixed⟩
      have hlen : m.length = (A ++ (B ++ C)).length := hperm.length_eq
      have hin : A.length + B.length ≤ m.length := by
        rw [hlen]
        simp
      obtain ⟨A', P, C', rfl, hA', hP⟩ := exists_segment (Nat.le_add_right _ _) hin
      obtain rfl : A' = A := by
        refine List.ext_getElem? fun i => ?_
        have := hfixed i
        grind
      obtain rfl : C' = C := by
        refine List.ext_getElem? fun i => ?_
        have := hfixed (A'.length + B.length + i)
        grind
      refine ⟨P, ?_, rfl⟩
      exact (List.perm_append_right_iff C').mp ((List.perm_append_left_iff A').mp hperm)
  · rw [swapOrders_of_le h, List.mem_singleton]
    constructor
    · rintro rfl
      exact ⟨.refl _, fun _ _ => rfl⟩
    · rintro ⟨-, hfixed⟩
      exact List.ext_getElem? fun i => hfixed i (by omega)

theorem nodup_swapOrders_of (h : l.Nodup) (hfin : start < fin → fin ≤ l.length) :
    (swapOrders start fin l).Nodup := by
  rcases Nat.lt_or_ge start fin with hlt | hge
  · obtain ⟨A, B, C, rfl, rfl, rfl⟩ := exists_segment (Nat.le_of_lt hlt) (hfin hlt)
    exact nodup_swapOrders h
  · rw [swapOrders_of_le hge]
    exact List.nodup_singleton l

end PPView.SwapOrders
