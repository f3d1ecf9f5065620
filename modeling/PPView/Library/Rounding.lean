import Mathlib.Algebra.Order.Field.Basic
import Mathlib.Order.Monotone.Basic

/-!
# Rounding

The result of an operation is rounded by a function that keeps the order and fixes 0 and 1. A format
with finitely many digits rounds so as long as nothing overflows; nothing else is known of it here.
-/

namespace PPView

/-- A rounding of the numbers of `K`. -/
structure Rounding (K : Type) [Field K] [LinearOrder K] where
  round : K → K
  mono : Monotone round
  round_zero : round 0 = 0
  round_one : round 1 = 1

namespace Rounding

variable {K : Type} [Field K] [LinearOrder K] (r : Rounding K) {a b : K}

/-- The rounding that changes nothing. -/
def exact : Rounding K := ⟨id, monotone_id, rfl, rfl⟩

/-- A sum, with every partial sum rounded. -/
def sum (l : List K) : K := l.foldl (fun sum a => r.round (sum + a)) 0

theorem round_nonneg (h : 0 ≤ a) : 0 ≤ r.round a := by
  rw [← r.round_zero]
  exact r.mono h

theorem round_le_one (h : a ≤ 1) : r.round a ≤ 1 := by
  rw [← r.round_one]
  exact r.mono h

theorem one_le_round (h : 1 ≤ a) : 1 ≤ r.round a := by
  rw [← r.round_one]
  exact r.mono h

variable [IsStrictOrderedRing K]

theorem round_pos (h : 1 ≤ a) : 0 < r.round a := zero_lt_one.trans_le (r.one_le_round h)

theorem sum_nonneg {l : List K} (h : ∀ a ∈ l, 0 ≤ a) : 0 ≤ r.sum l := by
  have key : ∀ sum : K, 0 ≤ sum → 0 ≤ l.foldl (fun sum a => r.round (sum + a)) sum := by
    induction l with
    | nil => exact fun _ hsum => hsum
    | cons a l ih =>
      intro sum hsum
      refine ih (fun b hb => h b (List.mem_cons_of_mem _ hb)) _ (r.round_nonneg ?_)
      exact add_nonneg hsum (h a List.mem_cons_self)
  exact key 0 le_rfl

/-- A quotient of rounded numbers grows with the dividend. -/
theorem round_div_le {c : K} (hc : 1 ≤ c) (h : a ≤ b) :
    r.round (r.round a / r.round c) ≤ r.round (r.round b / r.round c) :=
  r.mono (div_le_div_of_nonneg_right (r.mono h) (r.round_pos hc).le)

/-- A quotient by something greater is at most 1. -/
theorem round_div_le_one (hb : 1 ≤ b) (h : a ≤ b) : r.round (r.round a / r.round b) ≤ 1 :=
  r.round_le_one ((div_le_one (r.round_pos hb)).mpr (r.mono h))

theorem round_div_lt {c : K} (hr : StrictMono r.round) (hc : 1 ≤ c) (h : a < b) :
    r.round (r.round a / r.round c) < r.round (r.round b / r.round c) :=
  hr (div_lt_div_of_pos_right (hr h) (r.round_pos hc))

end Rounding

end PPView
