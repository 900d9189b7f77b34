import Mathlib.Algebra.Order.Round
import Mathlib.Algebra.Order.Field.Rat
import Mathlib.Data.Rat.Floor
import Mathlib.Tactic.FieldSimp
import Mathlib.Tactic.Linarith
import Mathlib.Tactic.NormNum
import Mathlib.Tactic.Ring

/-!
# Steps spread evenly over ticks

`spread n d k` is how many of `n` steps are due after `k` of `d` ticks: `k * n / d`
rounded to the nearest integer, halves up. The facts are stated without
division, as the two inequalities that say which half-open interval the exact
value is in.

When there are at most as many steps as ticks, every tick is due one step or
none (`spread_succ`), and `spread_succ_iff` is the test that an error term makes
that is kept in integers.
-/

namespace EvenSteps

/-- The number of steps due after `k` ticks, when `n` steps are spread over `d`
ticks. -/
def spread (n d : ℤ) (k : ℕ) : ℤ := round ((k * n : ℚ) / d)

variable {n d : ℤ} {k : ℕ}

/-- The integer next to the exact value, without the division. -/
theorem spread_eq_iff (hd : 0 < d) {j : ℤ} :
    spread n d k = j ↔ 2 * d * j - d ≤ 2 * (k * n) ∧ 2 * (k * n) < 2 * d * j + d := by
  have hd' : (0 : ℚ) < d := by exact_mod_cast hd
  have hlow : (j : ℚ) - 1 / 2 ≤ (k * n : ℚ) / d ↔ 2 * d * j - d ≤ 2 * (k * n) := by
    rw [le_div_iff₀ hd', ← Int.cast_le (R := ℚ)]
    push_cast
    constructor <;> intro h <;> linarith
  have hhigh : (k * n : ℚ) / d < (j : ℚ) + 1 / 2 ↔ 2 * (k * n) < 2 * d * j + d := by
    rw [div_lt_iff₀ hd', ← Int.cast_lt (R := ℚ)]
    push_cast
    constructor <;> intro h <;> linarith
  rw [spread, round_eq_iff, Set.mem_Ico, hlow, hhigh]

/-- The interval the exact value is in. -/
theorem spread_bounds (hd : 0 < d) :
    2 * d * spread n d k - d ≤ 2 * (k * n) ∧ 2 * (k * n) < 2 * d * spread n d k + d :=
  (spread_eq_iff hd).mp rfl

/-- The number of steps due is within one half of the exact value. -/
theorem abs_spread_sub_le (n d : ℤ) (k : ℕ) : |(spread n d k : ℚ) - k * n / d| ≤ 1 / 2 := by
  rw [abs_sub_comm]
  exact abs_sub_round _

@[simp]
theorem spread_zero (n d : ℤ) : spread n d 0 = 0 := by
  simp [spread]

@[simp]
theorem zero_spread (d : ℤ) (k : ℕ) : spread 0 d k = 0 := by
  simp [spread]

/-- With as many steps as ticks every tick is due one. -/
theorem spread_self (hd : 0 < d) (k : ℕ) : spread d d k = k := by
  rw [spread_eq_iff hd]
  constructor <;> linarith

/-- All steps are due in the end. -/
theorem spread_last (hk : (k : ℤ) = d) (hn : 0 ≤ n) (hnd : n ≤ d) : spread n d k = n := by
  rcases eq_or_lt_of_le (hn.trans hnd) with hd | hd
  · have hk0 : k = 0 := by omega
    rw [hk0, spread_zero]
    omega
  · rw [spread_eq_iff hd, hk]
    constructor <;> linarith

/-- Steps are never taken back. -/
theorem spread_nonneg (hd : 0 < d) (hn : 0 ≤ n) : 0 ≤ spread n d k := by
  have hhigh := (spread_bounds (n := n) (k := k) hd).2
  by_contra hneg
  have hlt : spread n d k + 1 ≤ 0 := by omega
  have hmul : d * (spread n d k + 1) ≤ 0 := mul_nonpos_of_nonneg_of_nonpos hd.le hlt
  have hkn : 0 ≤ (k : ℤ) * n := mul_nonneg (Int.natCast_nonneg k) hn
  linarith

/-- There are never more steps due than there are. -/
theorem spread_le (hd : 0 < d) (hn : 0 ≤ n) (hk : (k : ℤ) ≤ d) : spread n d k ≤ n := by
  have hlow := (spread_bounds (n := n) (k := k) hd).1
  by_contra hgt
  have hlt : n + 1 ≤ spread n d k := by omega
  have hmul : d * (n + 1) ≤ d * spread n d k := mul_le_mul_of_nonneg_left hlt hd.le
  have hkn : (k : ℤ) * n ≤ d * n := mul_le_mul_of_nonneg_right hk hn
  linarith

/-- A tick is due one step exactly when the exact value has come as far as half
way to it. -/
theorem spread_succ_iff (hd : 0 < d) (hnd : n ≤ d) :
    spread n d (k + 1) = spread n d k + 1 ↔ 2 * d * spread n d k + d ≤ 2 * ((k + 1) * n) := by
  obtain ⟨-, hhigh⟩ := spread_bounds (n := n) (k := k) hd
  rw [spread_eq_iff hd]
  push_cast
  constructor
  · rintro ⟨hlow, -⟩
    linarith
  · intro h
    constructor <;> linarith

/-- A tick is due one step or none. -/
theorem spread_succ (hd : 0 < d) (hn : 0 ≤ n) (hnd : n ≤ d) :
    spread n d (k + 1) = spread n d k ∨ spread n d (k + 1) = spread n d k + 1 := by
  obtain ⟨hlow, hhigh⟩ := spread_bounds (n := n) (k := k) hd
  by_cases hdue : 2 * d * spread n d k + d ≤ 2 * ((k + 1) * n)
  · exact Or.inr ((spread_succ_iff hd hnd).mpr hdue)
  · left
    rw [spread_eq_iff hd]
    push_cast
    constructor <;> linarith

/-! ## Two spreads over the same ticks

Of two numbers of steps over as many ticks as the larger of them has steps, one
takes a step at every tick. The error `a * (1 + j) - b * (1 + i)`, where `i` of
the `a` steps and `j` of the `b` steps are taken, tells for both whether the
next tick is due a step.
-/

variable {a b : ℤ}

/-- The error without its constant part stays within the mean of the two. -/
theorem abs_cross_le (hd : 0 < d) (ha : 0 ≤ a) (hb : 0 ≤ b) :
    |2 * (a * spread b d k - b * spread a d k)| ≤ a + b := by
  obtain ⟨halow, hahigh⟩ := spread_bounds (n := a) (k := k) hd
  obtain ⟨hblow, hbhigh⟩ := spread_bounds (n := b) (k := k) hd
  have h₁ := mul_le_mul_of_nonneg_left hblow ha
  have h₂ := mul_le_mul_of_nonneg_left hbhigh.le ha
  have h₃ := mul_le_mul_of_nonneg_left halow hb
  have h₄ := mul_le_mul_of_nonneg_left hahigh.le hb
  rw [abs_le]
  constructor <;> refine le_of_mul_le_mul_left ?_ hd <;> linarith

/-- The test on the error, for the steps of `a`. -/
theorem spread_succ_iff_cross (hd : 0 < d) (hmax : max a b = d) :
    spread a d (k + 1) = spread a d k + 1 ↔
      -b ≤ 2 * (a * (1 + spread b d k) - b * (1 + spread a d k)) := by
  rcases max_choice a b with hab | hab
  · -- every tick is due a step
    obtain rfl : a = d := hab.symm.trans hmax
    have hba : b ≤ a := max_eq_left_iff.mp hab
    have hhigh := (spread_bounds (n := b) (k := k) hd).2
    rw [spread_self hd, spread_self hd]
    constructor
    · intro _
      linarith
    · intro _
      push_cast
      rfl
  · obtain rfl : b = d := hab.symm.trans hmax
    have hba : a ≤ b := max_eq_right_iff.mp hab
    rw [spread_succ_iff hd hba, spread_self hd]
    constructor <;> intro h <;> linarith

end EvenSteps
