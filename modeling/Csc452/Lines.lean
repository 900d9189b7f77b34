import Csc452.EvenSteps
import Csc452.Graphics
import Mathlib.Tactic.NormNum.Abs

/-!
# The pixels of a line

What the loop of `draw_line` computes, in closed form: after `k` turns it has
taken `k * |x2 - x1| / long` steps in x and `k * |y2 - y1| / long` steps in y,
both rounded to the nearest integer, where `long` is the larger of the two
distances. The error term is that of `EvenSteps` for these two numbers of steps,
so the two tests of the loop are the test there, once for each axis, and a turn
of the loop leads from the `k`-th state to the next (`advance_lineAt`).

`lineWith_eq` is what the whole loop comes to: it calls `draw_pixel` for the
points of `linePixels`, one after the other, and stops.
-/

namespace Csc452.Graphics

open EvenSteps

/-! ## Along one axis -/

/-- The direction from `p` to `q`, as `sx` and `sy` are set. -/
def toward (p q : ℤ) : ℤ := if p < q then 1 else -1

theorem toward_mul_abs (p q : ℤ) : toward p q * |q - p| = q - p := by
  unfold toward
  split
  case isTrue h => rw [abs_of_pos (sub_pos.mpr h), one_mul]
  case isFalse h => rw [abs_of_nonpos (sub_nonpos.mpr (not_lt.mp h)), neg_one_mul, neg_neg]

theorem toward_eq_sign {p q : ℤ} (h : p ≠ q) : toward p q = (q - p).sign := by
  unfold toward
  split
  case isTrue hlt => exact (Int.sign_eq_one_of_pos (sub_pos.mpr hlt)).symm
  case isFalse hge =>
    have hlt : q < p := lt_of_le_of_ne (not_lt.mp hge) h.symm
    exact (Int.sign_eq_neg_one_of_neg (sub_neg.mpr hlt)).symm

/-- On the way from `p` to `q` one is never further out than the ends. -/
theorem abs_toward_lt {p q m i : ℤ} (hp : |p| < m) (hq : |q| < m) (hi : 0 ≤ i)
    (hle : i ≤ |q - p|) : |p + toward p q * i| < m := by
  rw [abs_lt] at hp hq ⊢
  unfold toward
  split
  case isTrue h =>
    rw [abs_of_pos (sub_pos.mpr h)] at hle
    constructor <;> linarith
  case isFalse h =>
    rw [abs_of_nonpos (sub_nonpos.mpr (not_lt.mp h))] at hle
    constructor <;> linarith

/-- What is not that large is an `int`. -/
theorem toInt_of_abs_lt {z : ℤ} (h : |z| < 2 ^ 31) : toInt z = some z := by
  rw [abs_lt] at h
  exact toInt_of_mem (by unfold intMin; linarith) (by unfold intMax; linarith)

theorem absoluteVal_eq {z : ℤ} (h : |z| < 2 ^ 31) : absoluteVal z = some |z| := by
  unfold absoluteVal
  split
  case isTrue hz => rw [abs_of_nonneg hz]
  case isFalse hz =>
    rw [abs_of_neg (not_le.mp hz), neg_one_mul]
    exact toInt_of_abs_lt (by rwa [abs_neg])

/-! ## The states of the loop -/

/-- Both ends are far from the largest and the smallest `int`. -/
structure InRange (x1 y1 x2 y2 : ℤ) : Prop where
  x1 : |x1| < 2 ^ 28
  y1 : |y1| < 2 ^ 28
  x2 : |x2| < 2 ^ 28
  y2 : |y2| < 2 ^ 28

/-- The larger of the two distances, in x and in y. -/
def long (x1 y1 x2 y2 : ℤ) : ℕ := max (x2 - x1).natAbs (y2 - y1).natAbs

/-- The variables of `draw_line` when `i` steps in x and `j` steps in y are
taken. -/
def Line.after (x1 y1 x2 y2 i j : ℤ) : Line where
  x1 := x1 + toward x1 x2 * i
  y1 := y1 + toward y1 y2 * j
  x2 := x2
  y2 := y2
  dx := |x2 - x1|
  sx := toward x1 x2
  dy := -|y2 - y1|
  sy := toward y1 y2
  err := |x2 - x1| * (1 + j) - |y2 - y1| * (1 + i)

/-- The steps in x after `k` turns. -/
def stepsX (x1 y1 x2 y2 : ℤ) (k : ℕ) : ℤ := spread |x2 - x1| (long x1 y1 x2 y2) k

/-- The steps in y after `k` turns. -/
def stepsY (x1 y1 x2 y2 : ℤ) (k : ℕ) : ℤ := spread |y2 - y1| (long x1 y1 x2 y2) k

/-- The variables of `draw_line` after `k` turns. -/
def lineAt (x1 y1 x2 y2 : ℤ) (k : ℕ) : Line :=
  Line.after x1 y1 x2 y2 (stepsX x1 y1 x2 y2 k) (stepsY x1 y1 x2 y2 k)

/-- The `k`-th point of a line. -/
def linePoint (x1 y1 x2 y2 : ℤ) (k : ℕ) : ℤ × ℤ :=
  (x1 + toward x1 x2 * stepsX x1 y1 x2 y2 k, y1 + toward y1 y2 * stepsY x1 y1 x2 y2 k)

/-- The points of a line, from one end to the other. -/
def linePixels (x1 y1 x2 y2 : ℤ) : List (ℤ × ℤ) :=
  (List.range (long x1 y1 x2 y2 + 1)).map (linePoint x1 y1 x2 y2)

variable {x1 y1 x2 y2 : ℤ} {k : ℕ}

theorem natCast_long (x1 y1 x2 y2 : ℤ) :
    (long x1 y1 x2 y2 : ℤ) = max |x2 - x1| |y2 - y1| := by
  rw [long, Nat.cast_max, Int.natCast_natAbs, Int.natCast_natAbs]

theorem abs_x_le_long (x1 y1 x2 y2 : ℤ) : |x2 - x1| ≤ long x1 y1 x2 y2 := by
  rw [natCast_long]
  exact le_max_left _ _

theorem abs_y_le_long (x1 y1 x2 y2 : ℤ) : |y2 - y1| ≤ long x1 y1 x2 y2 := by
  rw [natCast_long]
  exact le_max_right _ _

/-- The longer axis has as many steps as there are turns. -/
theorem abs_x_eq_long (hwide : |y2 - y1| ≤ |x2 - x1|) : |x2 - x1| = long x1 y1 x2 y2 := by
  rw [natCast_long, max_eq_left hwide]

theorem abs_y_eq_long (htall : |x2 - x1| ≤ |y2 - y1|) : |y2 - y1| = long x1 y1 x2 y2 := by
  rw [natCast_long, max_eq_right htall]

theorem abs_sub_lt {p q : ℤ} (hp : |p| < 2 ^ 28) (hq : |q| < 2 ^ 28) : |q - p| < 2 ^ 29 := by
  have htri : |q - p| ≤ |q| + |p| := abs_sub q p
  linarith

theorem long_pos (hk : k < long x1 y1 x2 y2) : (0 : ℤ) < long x1 y1 x2 y2 := by
  exact_mod_cast (Nat.zero_le k).trans_lt hk

/-! ## A turn of the loop -/

/-- Before the loop no steps are taken. -/
theorem Line.start_eq (h : InRange x1 y1 x2 y2) :
    Line.start x1 y1 x2 y2 = some (lineAt x1 y1 x2 y2 0) := by
  have hx := abs_sub_lt h.x1 h.x2
  have hy := abs_sub_lt h.y1 h.y2
  have hxn := abs_nonneg (x2 - x1)
  have hyn := abs_nonneg (y2 - y1)
  have hdx : toInt (x2 - x1) = some (x2 - x1) := toInt_of_abs_lt (by linarith)
  have hdy : toInt (y2 - y1) = some (y2 - y1) := toInt_of_abs_lt (by linarith)
  have hneg : toInt (-|y2 - y1|) = some (-|y2 - y1|) :=
    toInt_of_abs_lt (by rw [abs_neg, abs_abs]; linarith)
  have herr : toInt (|x2 - x1| + -|y2 - y1|) = some (|x2 - x1| + -|y2 - y1|) :=
    toInt_of_abs_lt (by rw [abs_lt]; constructor <;> linarith)
  simp only [Line.start, hdx, hdy, absoluteVal_eq (hx.trans (by norm_num)),
    absoluteVal_eq (hy.trans (by norm_num)), hneg, herr, Option.bind_eq_bind, Option.bind_some]
  simp only [lineAt, Line.after, stepsX, stepsY, spread_zero, toward, mul_zero, add_zero, mul_one,
    sub_eq_add_neg]

/-- The first test takes a step in x, when it is due. -/
theorem Line.moveX_after {i j e2 : ℤ} (hdue : -|y2 - y1| ≤ e2)
    (hx : |x1 + toward x1 x2 * (i + 1)| < 2 ^ 31)
    (herr : |(|x2 - x1| * (1 + j) - |y2 - y1| * (1 + (i + 1)))| < 2 ^ 31) :
    (Line.after x1 y1 x2 y2 i j).moveX e2 = some (Line.after x1 y1 x2 y2 (i + 1) j) := by
  have he : |x2 - x1| * (1 + j) - |y2 - y1| * (1 + i) + -|y2 - y1| =
      |x2 - x1| * (1 + j) - |y2 - y1| * (1 + (i + 1)) := by ring
  have hx1 : x1 + toward x1 x2 * i + toward x1 x2 = x1 + toward x1 x2 * (i + 1) := by ring
  simp only [Line.moveX, Line.after, ge_iff_le, hdue, if_true, he, hx1, toInt_of_abs_lt hx,
    toInt_of_abs_lt herr, Option.bind_eq_bind, Option.bind_some]

/-- The second test takes a step in y, when it is due. -/
theorem Line.moveY_after {i j e2 : ℤ} (hdue : e2 ≤ |x2 - x1|)
    (hy : |y1 + toward y1 y2 * (j + 1)| < 2 ^ 31)
    (herr : |(|x2 - x1| * (1 + (j + 1)) - |y2 - y1| * (1 + i))| < 2 ^ 31) :
    (Line.after x1 y1 x2 y2 i j).moveY e2 = some (Line.after x1 y1 x2 y2 i (j + 1)) := by
  have he : |x2 - x1| * (1 + j) - |y2 - y1| * (1 + i) + |x2 - x1| =
      |x2 - x1| * (1 + (j + 1)) - |y2 - y1| * (1 + i) := by ring
  have hy1 : y1 + toward y1 y2 * j + toward y1 y2 = y1 + toward y1 y2 * (j + 1) := by ring
  simp only [Line.moveY, Line.after, hdue, if_true, he, hy1, toInt_of_abs_lt hy,
    toInt_of_abs_lt herr, Option.bind_eq_bind, Option.bind_some]

/-- A point of a line is between its ends. -/
theorem abs_point_lt (h : InRange x1 y1 x2 y2) (hk : k ≤ long x1 y1 x2 y2)
    (hlong : (0 : ℤ) < long x1 y1 x2 y2) :
    |x1 + toward x1 x2 * stepsX x1 y1 x2 y2 k| < 2 ^ 31 ∧
      |y1 + toward y1 y2 * stepsY x1 y1 x2 y2 k| < 2 ^ 31 := by
  have hk' : (k : ℤ) ≤ long x1 y1 x2 y2 := by exact_mod_cast hk
  have hx := abs_toward_lt h.x1 h.x2 (spread_nonneg hlong (abs_nonneg _))
    (spread_le hlong (abs_nonneg _) hk')
  have hy := abs_toward_lt h.y1 h.y2 (spread_nonneg hlong (abs_nonneg _))
    (spread_le hlong (abs_nonneg _) hk')
  exact ⟨hx.trans (by norm_num), hy.trans (by norm_num)⟩

/-- The error in the `k`-th state is not large. -/
theorem abs_err_lt (h : InRange x1 y1 x2 y2) (hlong : (0 : ℤ) < long x1 y1 x2 y2) :
    |(lineAt x1 y1 x2 y2 k).err| < 2 ^ 30 := by
  have hdx := abs_sub_lt h.x1 h.x2
  have hdy := abs_sub_lt h.y1 h.y2
  have hdx₀ := abs_nonneg (x2 - x1)
  have hdy₀ := abs_nonneg (y2 - y1)
  have hcross := abs_le.mp (abs_cross_le (k := k) hlong hdx₀ hdy₀)
  simp only [lineAt, Line.after, stepsX, stepsY]
  rw [abs_lt]
  constructor <;> linarith

/-- A step in x is due when the first test of the loop says so. -/
theorem stepsX_due (hlong : (0 : ℤ) < long x1 y1 x2 y2) :
    stepsX x1 y1 x2 y2 (k + 1) = stepsX x1 y1 x2 y2 k + 1 ↔
      (lineAt x1 y1 x2 y2 k).dy ≤ 2 * (lineAt x1 y1 x2 y2 k).err :=
  spread_succ_iff_cross hlong (natCast_long x1 y1 x2 y2).symm

/-- A step in y is due when the second test says so: it is the first one with the
axes exchanged. -/
theorem stepsY_due (hlong : (0 : ℤ) < long x1 y1 x2 y2) :
    stepsY x1 y1 x2 y2 (k + 1) = stepsY x1 y1 x2 y2 k + 1 ↔
      2 * (lineAt x1 y1 x2 y2 k).err ≤ (lineAt x1 y1 x2 y2 k).dx := by
  have htest : stepsY x1 y1 x2 y2 (k + 1) = stepsY x1 y1 x2 y2 k + 1 ↔
      -|x2 - x1| ≤ 2 * (|y2 - y1| * (1 + stepsX x1 y1 x2 y2 k) -
        |x2 - x1| * (1 + stepsY x1 y1 x2 y2 k)) :=
    spread_succ_iff_cross hlong ((max_comm _ _).trans (natCast_long x1 y1 x2 y2).symm)
  rw [htest, lineAt, Line.after]
  constructor <;> intro hle <;> linarith

theorem stepsX_succ (hlong : (0 : ℤ) < long x1 y1 x2 y2) :
    stepsX x1 y1 x2 y2 (k + 1) = stepsX x1 y1 x2 y2 k ∨
      stepsX x1 y1 x2 y2 (k + 1) = stepsX x1 y1 x2 y2 k + 1 :=
  spread_succ hlong (abs_nonneg _) (abs_x_le_long x1 y1 x2 y2)

theorem stepsY_succ (hlong : (0 : ℤ) < long x1 y1 x2 y2) :
    stepsY x1 y1 x2 y2 (k + 1) = stepsY x1 y1 x2 y2 k ∨
      stepsY x1 y1 x2 y2 (k + 1) = stepsY x1 y1 x2 y2 k + 1 :=
  spread_succ hlong (abs_nonneg _) (abs_y_le_long x1 y1 x2 y2)

/-- The first test takes the step in x that is due, if one is. -/
theorem moveX_lineAt (h : InRange x1 y1 x2 y2) (hk : k < long x1 y1 x2 y2) :
    (lineAt x1 y1 x2 y2 k).moveX (2 * (lineAt x1 y1 x2 y2 k).err) =
      some (Line.after x1 y1 x2 y2 (stepsX x1 y1 x2 y2 (k + 1)) (stepsY x1 y1 x2 y2 k)) := by
  have hlong := long_pos hk
  rcases stepsX_succ (k := k) hlong with hsame | hstep
  · have hdue := mt (stepsX_due hlong).mpr (by rw [hsame]; exact (lt_add_one _).ne)
    rw [hsame, Line.moveX, if_neg hdue]
    rfl
  · have hdue := (stepsX_due hlong).mp hstep
    have hx := (abs_point_lt (k := k + 1) h hk hlong).1
    have hdy := abs_sub_lt h.y1 h.y2
    have hdy₀ := abs_nonneg (y2 - y1)
    -- the error after the step in x alone is that of neither state
    have herr := abs_lt.mp (abs_err_lt (k := k) h hlong)
    simp only [lineAt, Line.after] at herr
    rw [hstep] at hx ⊢
    refine Line.moveX_after hdue hx ?_
    rw [abs_lt]
    constructor <;> linarith

/-- And the second one the step in y: the turn is complete. -/
theorem moveY_lineAt (h : InRange x1 y1 x2 y2) (hk : k < long x1 y1 x2 y2) :
    (Line.after x1 y1 x2 y2 (stepsX x1 y1 x2 y2 (k + 1)) (stepsY x1 y1 x2 y2 k)).moveY
      (2 * (lineAt x1 y1 x2 y2 k).err) = some (lineAt x1 y1 x2 y2 (k + 1)) := by
  have hlong := long_pos hk
  have hnext : lineAt x1 y1 x2 y2 (k + 1) =
      Line.after x1 y1 x2 y2 (stepsX x1 y1 x2 y2 (k + 1)) (stepsY x1 y1 x2 y2 (k + 1)) := rfl
  rcases stepsY_succ (k := k) hlong with hsame | hstep
  · have hdue := mt (stepsY_due hlong).mpr (by rw [hsame]; exact (lt_add_one _).ne)
    rw [hnext, hsame, Line.moveY]
    exact if_neg hdue
  · have hdue := (stepsY_due hlong).mp hstep
    have hy := (abs_point_lt (k := k + 1) h hk hlong).2
    have herr := abs_err_lt (k := k + 1) h hlong
    rw [hnext, hstep] at herr ⊢
    rw [hstep] at hy
    exact Line.moveY_after hdue hy (herr.trans (by norm_num))

/-- A turn of the loop takes the steps that are due, and none of its integers
overflows. -/
theorem advance_lineAt (h : InRange x1 y1 x2 y2) (hk : k < long x1 y1 x2 y2) :
    (lineAt x1 y1 x2 y2 k).advance = some (lineAt x1 y1 x2 y2 (k + 1)) := by
  have herr := abs_lt.mp (abs_err_lt (k := k) h (long_pos hk))
  have he2 : |2 * (lineAt x1 y1 x2 y2 k).err| < 2 ^ 31 := by
    rw [abs_lt]
    constructor <;> linarith
  rw [Line.advance, toInt_of_abs_lt he2, Option.bind_eq_bind, Option.bind_some, moveX_lineAt h hk]
  exact moveY_lineAt h hk

/-! ## The loop -/

theorem toward_mul_inj {p q i j : ℤ} : p + toward p q * i = p + toward p q * j ↔ i = j := by
  have hne : toward p q ≠ 0 := by
    unfold toward
    split <;> decide
  rw [add_right_inj, mul_right_inj' hne]

/-- All steps are taken in the end. -/
theorem steps_last (x1 y1 x2 y2 : ℤ) :
    stepsX x1 y1 x2 y2 (long x1 y1 x2 y2) = |x2 - x1| ∧
      stepsY x1 y1 x2 y2 (long x1 y1 x2 y2) = |y2 - y1| :=
  ⟨spread_last rfl (abs_nonneg _) (abs_x_le_long x1 y1 x2 y2),
    spread_last rfl (abs_nonneg _) (abs_y_le_long x1 y1 x2 y2)⟩

/-- When x is the longer axis every turn takes a step in x. -/
theorem stepsX_of_wide (hwide : |y2 - y1| ≤ |x2 - x1|) (hlong : (0 : ℤ) < long x1 y1 x2 y2) :
    stepsX x1 y1 x2 y2 k = k := by
  rw [stepsX, abs_x_eq_long hwide]
  exact spread_self hlong k

/-- When y is the longer axis every turn takes a step in y. -/
theorem stepsY_of_tall (htall : |x2 - x1| ≤ |y2 - y1|) (hlong : (0 : ℤ) < long x1 y1 x2 y2) :
    stepsY x1 y1 x2 y2 k = k := by
  rw [stepsY, abs_y_eq_long htall]
  exact spread_self hlong k

@[simp]
theorem linePoint_zero : linePoint x1 y1 x2 y2 0 = (x1, y1) := by
  simp only [linePoint, stepsX, stepsY, spread_zero, mul_zero, add_zero]

theorem linePoint_last : linePoint x1 y1 x2 y2 (long x1 y1 x2 y2) = (x2, y2) := by
  obtain ⟨hx, hy⟩ := steps_last x1 y1 x2 y2
  rw [linePoint, hx, hy, toward_mul_abs, toward_mul_abs, add_sub_cancel, add_sub_cancel]

/-- The end is reached after `long` turns and not before: the longer axis takes a
step at every turn. -/
theorem linePoint_eq_end_iff (hk : k ≤ long x1 y1 x2 y2) :
    linePoint x1 y1 x2 y2 k = (x2, y2) ↔ k = long x1 y1 x2 y2 := by
  constructor
  · intro hend
    rcases eq_or_lt_of_le hk with heq | hlt
    · exact heq
    have hlong := long_pos hlt
    rw [← linePoint_last, linePoint, linePoint, Prod.mk.injEq, toward_mul_inj, toward_mul_inj] at hend
    rcases le_total |y2 - y1| |x2 - x1| with hwide | htall
    · have hx := hend.1
      rw [stepsX_of_wide hwide hlong, stepsX_of_wide hwide hlong] at hx
      exact_mod_cast hx
    · have hy := hend.2
      rw [stepsY_of_tall htall hlong, stepsY_of_tall htall hlong] at hy
      exact_mod_cast hy
  · rintro rfl
    exact linePoint_last

variable {ι : Type} {pixel : ι → ℤ → ℤ → Option ι}

/-- A turn of the loop in a state on the way. -/
theorem lineLoop_succ (hk : k ≤ long x1 y1 x2 y2) (fuel : ℕ) (img : ι) :
    lineLoop pixel (fuel + 1) (lineAt x1 y1 x2 y2 k) img =
      (pixel img (linePoint x1 y1 x2 y2 k).1 (linePoint x1 y1 x2 y2 k).2).bind fun img =>
        if k = long x1 y1 x2 y2 then some img
        else (lineAt x1 y1 x2 y2 k).advance.bind fun l => lineLoop pixel fuel l img := by
  have hend : (lineAt x1 y1 x2 y2 k).x1 = (lineAt x1 y1 x2 y2 k).x2 ∧
      (lineAt x1 y1 x2 y2 k).y1 = (lineAt x1 y1 x2 y2 k).y2 ↔ k = long x1 y1 x2 y2 := by
    rw [← linePoint_eq_end_iff hk, linePoint, Prod.mk.injEq]
    rfl
  rw [lineLoop]
  simp only [hend]
  rfl

/-- From the `k`-th state on the loop calls `draw_pixel` for the points from the
`k`-th on. -/
theorem lineLoop_lineAt (h : InRange x1 y1 x2 y2) {m : ℕ} (hm : k + m = long x1 y1 x2 y2)
    {fuel : ℕ} (hfuel : m < fuel) (img : ι) :
    lineLoop pixel fuel (lineAt x1 y1 x2 y2 k) img =
      ((List.range' k (m + 1)).map (linePoint x1 y1 x2 y2)).foldlM
        (fun img p => pixel img p.1 p.2) img := by
  -- by induction on how many turns are left
  induction m generalizing k fuel img with
  | zero =>
    obtain ⟨fuel, rfl⟩ := Nat.exists_eq_succ_of_ne_zero hfuel.ne'
    have hk : k = long x1 y1 x2 y2 := hm
    simp only [lineLoop_succ hk.le, if_pos hk]
    rfl
  | succ m ih =>
    obtain ⟨fuel, rfl⟩ := Nat.exists_eq_succ_of_ne_zero (Nat.zero_lt_of_lt hfuel).ne'
    have hk : k < long x1 y1 x2 y2 := by rw [← hm]; exact Nat.lt_add_of_pos_right m.succ_pos
    rw [lineLoop_succ hk.le, List.range'_succ, List.map_cons, List.foldlM_cons]
    congr 1
    funext img
    rw [if_neg hk.ne, advance_lineAt h hk, Option.bind_some]
    exact ih (by rw [← hm, Nat.add_right_comm]; rfl) (Nat.lt_of_succ_lt_succ hfuel) img

/-- **The whole loop**: `draw_line` calls `draw_pixel` for the points of the line
and stops. -/
theorem lineWith_eq (h : InRange x1 y1 x2 y2) {fuel : ℕ} (hfuel : long x1 y1 x2 y2 < fuel)
    (img : ι) :
    lineWith pixel fuel img x1 y1 x2 y2 =
      (linePixels x1 y1 x2 y2).foldlM (fun img p => pixel img p.1 p.2) img := by
  rw [lineWith, Line.start_eq h, Option.bind_eq_bind, Option.bind_some,
    lineLoop_lineAt h (Nat.zero_add _) hfuel, linePixels, List.range_eq_range']

end Csc452.Graphics
