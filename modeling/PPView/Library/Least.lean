import Mathlib.Order.Lattice
import Mathlib.Tactic.Common

/-!
# The least value of a list

A loop over a list that notes the first element of the least value below a bound. It starts from
an element that stays if no value is below the bound.
-/

namespace PPView

variable {α β : Type*} [LinearOrder β] (f : α → β)

def leastFrom (best : Option α) (bound : β) : List α → Option α
  | [] => best
  | a :: l => if f a < bound then leastFrom (some a) (f a) l else leastFrom best bound l

def least (bound : β) (l : List α) : Option α := leastFrom f none bound l

variable {f} {bound : β} {l : List α} {a : α}

theorem leastFrom_of_le (best : Option α) (h : ∀ a ∈ l, bound ≤ f a) :
    leastFrom f best bound l = best := by
  induction l with
  | nil => rfl
  | cons a l ih =>
    rw [leastFrom, if_neg (not_lt.mpr (h a (by simp)))]
    exact ih fun b hb => h b (by simp [hb])

/-- If a value is below the bound, the loop notes the first element of the least value. -/
theorem exists_leastFrom_append (best : Option α) (h : ∃ a ∈ l, f a < bound) :
    ∃ before a after, l = before ++ a :: after ∧ leastFrom f best bound l = some a ∧ f a < bound ∧
      (∀ b ∈ before, f a < f b) ∧ ∀ b ∈ after, f a ≤ f b := by
  induction l generalizing best bound with
  | nil => simp at h
  | cons a l ih =>
    rw [leastFrom]
    split_ifs with ha
    · by_cases hl : ∃ b ∈ l, f b < f a
      · obtain ⟨before, b, after, rfl, hbest, hlt, hbefore, hafter⟩ := ih (some a) hl
        exact ⟨a :: before, b, after, rfl, hbest, hlt.trans ha,
          List.forall_mem_cons.mpr ⟨hlt, hbefore⟩, hafter⟩
      · have hle : ∀ b ∈ l, f a ≤ f b := fun b hb => not_lt.mp fun hlt => hl ⟨b, hb, hlt⟩
        exact ⟨[], a, l, rfl, leastFrom_of_le _ hle, ha, by simp, hle⟩
    · obtain ⟨b, hb, hlt⟩ := h
      have hb : b ∈ l := (List.mem_cons.mp hb).resolve_left fun hba => ha (hba ▸ hlt)
      obtain ⟨before, c, after, rfl, hbest, hlt, hbefore, hafter⟩ := ih best ⟨b, hb, hlt⟩
      exact ⟨a :: before, c, after, rfl, hbest, hlt,
        List.forall_mem_cons.mpr ⟨hlt.trans_le (not_lt.mp ha), hbefore⟩, hafter⟩

/-- If a value is below the bound, the loop notes such an element, and none has a lesser value. -/
theorem exists_leastFrom (best : Option α) (h : ∃ a ∈ l, f a < bound) :
    ∃ a ∈ l, leastFrom f best bound l = some a ∧ f a < bound ∧ ∀ b ∈ l, f a ≤ f b := by
  obtain ⟨before, a, after, rfl, hbest, hlt, hbefore, hafter⟩ := exists_leastFrom_append best h
  refine ⟨a, by simp, hbest, hlt, fun b hb => ?_⟩
  rcases List.mem_append.mp hb with hb | hb
  · exact (hbefore b hb).le
  · exact List.forall_mem_cons (p := fun b => f a ≤ f b) |>.mpr ⟨le_rfl, hafter⟩ b hb

/-- What is noted is the start or an element. -/
theorem mem_of_leastFrom {best : Option α} (h : leastFrom f best bound l = some a) :
    best = some a ∨ a ∈ l := by
  by_cases hl : ∃ b ∈ l, f b < bound
  · obtain ⟨b, hb, hbest, -⟩ := exists_leastFrom best hl
    obtain rfl : b = a := Option.some.inj (hbest.symm.trans h)
    exact .inr hb
  · have hbest := leastFrom_of_le best fun b hb => not_lt.mp fun hlt => hl ⟨b, hb, hlt⟩
    exact .inl (hbest.symm.trans h)

theorem mem_of_least (h : least f bound l = some a) :
    a ∈ l ∧ f a < bound ∧ ∀ b ∈ l, f a ≤ f b := by
  by_cases hl : ∃ b ∈ l, f b < bound
  · obtain ⟨b, hb, hbest, hlt, hmin⟩ := exists_leastFrom none hl
    obtain rfl : b = a := Option.some.inj (hbest.symm.trans h)
    exact ⟨hb, hlt, hmin⟩
  · have hnone := leastFrom_of_le none fun b hb => not_lt.mp fun hlt => hl ⟨b, hb, hlt⟩
    exact absurd (hnone.symm.trans h) (by simp)

/-- What is noted is the first element of its value. -/
theorem least_split (h : least f bound l = some a) :
    ∃ before after, l = before ++ a :: after ∧ ∀ b ∈ before, f a < f b := by
  obtain ⟨hmem, hlt, -⟩ := mem_of_least h
  obtain ⟨before, b, after, rfl, hbest, -, hbefore, -⟩ := exists_leastFrom_append none ⟨a, hmem, hlt⟩
  obtain rfl : b = a := Option.some.inj (hbest.symm.trans h)
  exact ⟨before, after, rfl, hbefore⟩

theorem least_eq_none_iff : least f bound l = none ↔ ∀ a ∈ l, bound ≤ f a := by
  refine ⟨fun h a ha => not_lt.mp fun hlt => ?_, leastFrom_of_le none⟩
  obtain ⟨b, -, hbest, -⟩ := exists_leastFrom none ⟨a, ha, hlt⟩
  simp [least, hbest] at h

end PPView
