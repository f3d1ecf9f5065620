import Mathlib.Algebra.Order.Field.Power
import Mathlib.Data.Int.Log
import Mathlib.Data.Rat.Floor
import Mathlib.Tactic.Linarith
import Mathlib.Tactic.Positivity
import PPView.Library.Rounding

/-!
# Rounding to binary digits

A number is rounded to the nearest one with `p` binary digits, and halfway to the one whose last
digit is even. The exponent has no bounds, so nothing overflows and nothing is lost near zero.
-/

namespace PPView.Binary

/-! ## Whole numbers -/

/-- The nearest integer, halfway the even one. -/
def halfEven (x : ℚ) : ℤ :=
  if x - ⌊x⌋ < 1 / 2 then ⌊x⌋
  else if 1 / 2 < x - ⌊x⌋ then ⌊x⌋ + 1
  else if ⌊x⌋ % 2 = 0 then ⌊x⌋ else ⌊x⌋ + 1

theorem floor_le_halfEven (x : ℚ) : ⌊x⌋ ≤ halfEven x := by
  unfold halfEven
  split_ifs <;> omega

theorem halfEven_le (x : ℚ) : halfEven x ≤ ⌊x⌋ + 1 := by
  unfold halfEven
  split_ifs <;> omega

@[simp] theorem halfEven_intCast (n : ℤ) : halfEven n = n := by
  rw [halfEven, if_pos (by norm_num), Int.floor_intCast]

theorem halfEven_mono {x y : ℚ} (h : x ≤ y) : halfEven x ≤ halfEven y := by
  rcases (Int.floor_mono h).lt_or_eq with hlt | heq
  · exact (halfEven_le x).trans (Int.add_one_le_of_lt hlt |>.trans (floor_le_halfEven y))
  · -- within one interval the fractions decide
    unfold halfEven
    rw [heq]
    split_ifs <;> first | omega | (exfalso; linarith)

/-! ## Digits -/

/-- The value of the last digit of a number with `p` digits. -/
def unit (p : ℕ) (x : ℚ) : ℚ := 2 ^ (Int.log 2 x + 1 - p)

/-- The rounding of a number that is not negative. -/
def roundPos (p : ℕ) (x : ℚ) : ℚ := halfEven (x / unit p x) * unit p x

def round (p : ℕ) (x : ℚ) : ℚ := if x < 0 then -roundPos p (-x) else roundPos p x

variable {p : ℕ} {x y : ℚ}

theorem unit_pos (p : ℕ) (x : ℚ) : 0 < unit p x := by
  unfold unit
  positivity

theorem pow_mul_unit (p : ℕ) (x : ℚ) : 2 ^ p * unit p x = 2 ^ (Int.log 2 x + 1) := by
  rw [unit, ← zpow_natCast, ← zpow_add₀ two_ne_zero]
  congr 1
  omega

theorem roundPos_nonneg (h : 0 ≤ x) : 0 ≤ roundPos p x := by
  have hunit := unit_pos p x
  have hfloor : 0 ≤ ⌊x / unit p x⌋ := Int.floor_nonneg.mpr (by positivity)
  have hint : (0 : ℚ) ≤ halfEven (x / unit p x) := by
    exact_mod_cast hfloor.trans (floor_le_halfEven _)
  exact mul_nonneg hint hunit.le

/-- The bounds of the numbers with one exponent are numbers with `p` digits. -/
theorem roundPos_le (p : ℕ) (x : ℚ) : roundPos p x ≤ 2 ^ (Int.log 2 x + 1) := by
  have hunit := unit_pos p x
  have hlt : x / unit p x ≤ ((2 ^ p : ℤ) : ℚ) := by
    rw [div_le_iff₀ hunit]
    push_cast
    rw [pow_mul_unit]
    exact_mod_cast (Int.lt_zpow_succ_log_self one_lt_two x).le
  have hint : (halfEven (x / unit p x) : ℚ) ≤ 2 ^ p := by
    have := halfEven_mono hlt
    rw [halfEven_intCast] at this
    exact_mod_cast this
  rw [roundPos, ← pow_mul_unit]
  exact mul_le_mul_of_nonneg_right hint hunit.le

theorem le_roundPos (hp : 0 < p) (h : 0 < x) : 2 ^ Int.log 2 x ≤ roundPos p x := by
  have hunit := unit_pos p x
  have hpow : ((2 ^ (p - 1) : ℤ) : ℚ) * unit p x = 2 ^ Int.log 2 x := by
    push_cast
    rw [unit, ← zpow_natCast, ← zpow_add₀ two_ne_zero]
    congr 1
    omega
  have hle : ((2 ^ (p - 1) : ℤ) : ℚ) ≤ x / unit p x := by
    rw [le_div_iff₀ hunit, hpow]
    exact_mod_cast Int.zpow_log_le_self one_lt_two h
  have hint : ((2 ^ (p - 1) : ℤ) : ℚ) ≤ halfEven (x / unit p x) := by
    have := halfEven_mono hle
    rw [halfEven_intCast] at this
    exact_mod_cast this
  rw [roundPos, ← hpow]
  exact mul_le_mul_of_nonneg_right hint hunit.le

theorem roundPos_mono (hp : 0 < p) (hx : 0 < x) (h : x ≤ y) : roundPos p x ≤ roundPos p y := by
  have hy := hx.trans_le h
  rcases (Int.log_mono_right (b := 2) hx h).lt_or_eq with hlt | heq
  · calc
      roundPos p x ≤ 2 ^ (Int.log 2 x + 1) := roundPos_le p x
      _ ≤ 2 ^ Int.log 2 y := zpow_le_zpow_right₀ one_le_two hlt
      _ ≤ roundPos p y := le_roundPos hp hy
  · have hsame : unit p x = unit p y := by rw [unit, unit, heq]
    have hunit := unit_pos p y
    rw [roundPos, roundPos, hsame]
    refine mul_le_mul_of_nonneg_right ?_ hunit.le
    exact_mod_cast halfEven_mono (div_le_div_of_nonneg_right h hunit.le)

@[simp] theorem roundPos_zero : roundPos p 0 = 0 := by
  rw [roundPos, zero_div, show halfEven 0 = 0 from mod_cast halfEven_intCast 0]
  simp

theorem round_mono (hp : 0 < p) : Monotone (round p) := by
  intro x y h
  have hpos {a b : ℚ} (ha : 0 ≤ a) (hab : a ≤ b) : roundPos p a ≤ roundPos p b := by
    rcases ha.lt_or_eq with hlt | rfl
    · exact roundPos_mono hp hlt hab
    · rw [roundPos_zero]
      exact roundPos_nonneg hab
  unfold round
  split_ifs with hx hy hy
  · exact neg_le_neg (hpos (by linarith) (by linarith))
  · have hneg : 0 ≤ roundPos p (-x) := roundPos_nonneg (by linarith)
    have hnonneg : 0 ≤ roundPos p y := roundPos_nonneg (by linarith)
    linarith
  · exact absurd (h.trans_lt hy) hx
  · exact hpos (by linarith) h

/-- An integer that `p` digits are enough for stays as it is. -/
theorem roundPos_natCast {n : ℕ} (h : n < 2 ^ p) : roundPos p n = n := by
  rcases Nat.eq_zero_or_pos n with rfl | hn
  · exact_mod_cast roundPos_zero
  have hunit := unit_pos p (n : ℚ)
  -- the last digit is worth a whole part of one
  have hlog : Nat.log 2 n + 1 ≤ p := Nat.log_lt_of_lt_pow hn.ne' h
  have hquot : (n : ℚ) / unit p n = ((n * 2 ^ (p - (Nat.log 2 n + 1)) : ℤ) : ℚ) := by
    rw [unit, Int.log_natCast, div_eq_iff (by positivity)]
    push_cast
    rw [mul_assoc, ← zpow_natCast, ← zpow_add₀ two_ne_zero, Nat.cast_sub hlog]
    simp
  rw [roundPos, hquot, halfEven_intCast, ← hquot, div_mul_cancel₀ _ hunit.ne']

theorem round_intCast {n : ℤ} (h : |n| < 2 ^ p) : round p n = n := by
  rw [abs_lt] at h
  rcases Int.eq_nat_or_neg n with ⟨k, rfl | rfl⟩
  · rw [round, if_neg (by simp)]
    exact_mod_cast roundPos_natCast (by exact_mod_cast h.2)
  · have hk : k < 2 ^ p := by
      have hlt : (k : ℤ) < 2 ^ p := by linarith [h.1]
      exact_mod_cast hlt
    rcases Nat.eq_zero_or_pos k with rfl | hpos
    · simp [round]
    · rw [round, if_pos (by simpa using hpos)]
      push_cast
      rw [neg_neg, roundPos_natCast hk]

theorem one_lt_two_pow_int (hp : 0 < p) : |(1 : ℤ)| < 2 ^ p := by
  rw [abs_one]
  exact one_lt_pow₀ one_lt_two hp.ne'

/-- To the nearest number with `p` digits. -/
def nearest (p : ℕ) (hp : 0 < p) : Rounding ℚ where
  round := round p
  mono := round_mono hp
  round_zero := by simpa using round_intCast (n := 0) (show |(0 : ℤ)| < 2 ^ p by simp)
  round_one := by simpa using round_intCast (one_lt_two_pow_int hp)

end PPView.Binary
