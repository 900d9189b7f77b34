import Csc452.Lines
import Mathlib.Data.List.Range
import Mathlib.Tactic.LinearCombination

/-!
# What `draw_line` draws

The pixels that `draw_line` calls `draw_pixel` for are a line: `IsLine` says so
without a word about the error term.

* `isLine_linePixels` — the points in closed form are a line, wherever its ends
  are.
* `draws_line` — the loop stops, no integer of it overflows, and its calls of
  `draw_pixel` are for the pixels of a line.
-/

namespace Csc452.Graphics

open EvenSteps

/-- The pixels of a line from `(x1, y1)` to `(x2, y2)`, in the order in which they
are drawn. -/
structure IsLine (x1 y1 x2 y2 : ℤ) (pixels : List (ℤ × ℤ)) : Prop where
  /-- one pixel more than the larger of the two distances -/
  length : pixels.length = max (x2 - x1).natAbs (y2 - y1).natAbs + 1
  /-- the first is one end -/
  head : pixels.head? = some (x1, y1)
  /-- the last is the other -/
  last : pixels.getLast? = some (x2, y2)
  /-- when x is the longer axis, each step is one toward the end in x, and one or
  none in y -/
  wide : |y2 - y1| ≤ |x2 - x1| → pixels.IsChain fun p q =>
    q.1 = p.1 + (x2 - x1).sign ∧ (q.2 = p.2 ∨ q.2 = p.2 + (y2 - y1).sign)
  /-- when y is the longer axis, the other way around -/
  tall : |x2 - x1| ≤ |y2 - y1| → pixels.IsChain fun p q =>
    q.2 = p.2 + (y2 - y1).sign ∧ (q.1 = p.1 ∨ q.1 = p.1 + (x2 - x1).sign)
  /-- the `k`-th pixel is within one half of the straight line, in y -/
  offset_y : |y2 - y1| ≤ |x2 - x1| → ∀ (k : ℕ) (p : ℤ × ℤ), pixels[k]? = some p →
    |(p.2 - y1 : ℚ) - k * (y2 - y1) / (|x2 - x1| : ℤ)| ≤ 1 / 2
  /-- and in x, when y is the longer axis -/
  offset_x : |x2 - x1| ≤ |y2 - y1| → ∀ (k : ℕ) (p : ℤ × ℤ), pixels[k]? = some p →
    |(p.1 - x1 : ℚ) - k * (x2 - x1) / (|y2 - y1| : ℤ)| ≤ 1 / 2

/-! ## One coordinate -/

/-- A coordinate on the way from `p` to `q`, after `k` of `d` turns. -/
def coord (p q : ℤ) (d k : ℕ) : ℤ := p + toward p q * spread |q - p| d k

variable {p q : ℤ} {d k : ℕ}

/-- As far as there are turns every turn is one step toward the end. -/
theorem coord_succ_of_eq (hk : k < d) (hpq : |q - p| = d) :
    coord p q d (k + 1) = coord p q d k + (q - p).sign := by
  have hd : (0 : ℤ) < d := by exact_mod_cast (Nat.zero_le k).trans_lt hk
  have hne : p ≠ q := by
    rintro rfl
    rw [sub_self, abs_zero] at hpq
    exact hd.ne hpq
  rw [coord, coord, hpq, spread_self hd, spread_self hd, toward_eq_sign hne]
  push_cast
  ring

/-- Otherwise a turn is a step toward the end or none. -/
theorem coord_succ (hk : k < d) (hpq : |q - p| ≤ d) :
    coord p q d (k + 1) = coord p q d k ∨
      coord p q d (k + 1) = coord p q d k + (q - p).sign := by
  have hd : (0 : ℤ) < d := by exact_mod_cast (Nat.zero_le k).trans_lt hk
  rcases eq_or_ne p q with rfl | hne
  · left
    rw [coord, coord, sub_self, abs_zero, zero_spread, zero_spread]
  rcases spread_succ (k := k) hd (abs_nonneg _) hpq with hsame | hstep
  · left
    rw [coord, coord, hsame]
  · right
    rw [coord, coord, hstep, toward_eq_sign hne]
    ring

/-- It is never further than one half from the exact value. -/
theorem abs_coord_sub_le (p q : ℤ) (d k : ℕ) :
    |(coord p q d k - p : ℚ) - k * (q - p) / d| ≤ 1 / 2 := by
  have hexact : (coord p q d k - p : ℚ) - k * (q - p) / d =
      toward p q * ((spread |q - p| d k : ℚ) - k * (|q - p| : ℤ) / (d : ℤ)) := by
    have hmul : (toward p q : ℚ) * (|q - p| : ℤ) = q - p := by
      exact_mod_cast toward_mul_abs p q
    rw [coord, Int.cast_add, Int.cast_mul, Int.cast_natCast]
    linear_combination (k / d : ℚ) * hmul
  have hone : |(toward p q : ℚ)| = 1 := by
    unfold toward
    split <;> norm_num
  rw [hexact, abs_mul, hone, one_mul]
  exact abs_spread_sub_le _ _ _

/-! ## Both of them -/

variable {x1 y1 x2 y2 : ℤ}

theorem linePoint_eq (x1 y1 x2 y2 : ℤ) (k : ℕ) :
    linePoint x1 y1 x2 y2 k =
      (coord x1 x2 (long x1 y1 x2 y2) k, coord y1 y2 (long x1 y1 x2 y2) k) := rfl

theorem getElem?_linePixels {r : ℤ × ℤ} (h : (linePixels x1 y1 x2 y2)[k]? = some r) :
    linePoint x1 y1 x2 y2 k = r := by
  rw [linePixels, List.getElem?_map] at h
  obtain ⟨i, hi, hr⟩ := Option.map_eq_some_iff.mp h
  obtain ⟨hlt, hik⟩ := List.getElem?_eq_some_iff.mp hi
  rw [List.getElem_range] at hik
  rw [hik, hr]

/-- What every turn does to the point, the pixels do one after the other. -/
theorem isChain_linePixels {R : ℤ × ℤ → ℤ × ℤ → Prop}
    (h : ∀ k < long x1 y1 x2 y2, R (linePoint x1 y1 x2 y2 k) (linePoint x1 y1 x2 y2 (k + 1))) :
    (linePixels x1 y1 x2 y2).IsChain R := by
  rw [linePixels, List.isChain_map, List.isChain_range_succ]
  exact h

/-- The points in closed form are a line. -/
theorem isLine_linePixels (x1 y1 x2 y2 : ℤ) :
    IsLine x1 y1 x2 y2 (linePixels x1 y1 x2 y2) where
  length := by rw [linePixels, List.length_map, List.length_range, long]
  head := by
    rw [linePixels, List.head?_map, List.head?_range, if_neg (Nat.succ_ne_zero _), Option.map_some,
      linePoint_zero]
  last := by
    rw [linePixels, List.getLast?_map, List.getLast?_range, if_neg (Nat.succ_ne_zero _),
      Option.map_some, Nat.add_sub_cancel, linePoint_last]
  wide hwide := isChain_linePixels fun _ hk =>
    ⟨coord_succ_of_eq hk (abs_x_eq_long hwide), coord_succ hk (abs_y_le_long x1 y1 x2 y2)⟩
  tall htall := isChain_linePixels fun _ hk =>
    ⟨coord_succ_of_eq hk (abs_y_eq_long htall), coord_succ hk (abs_x_le_long x1 y1 x2 y2)⟩
  offset_y hwide k r hr := by
    rw [← getElem?_linePixels hr, linePoint_eq, abs_x_eq_long hwide]
    exact abs_coord_sub_le y1 y2 (long x1 y1 x2 y2) k
  offset_x htall k r hr := by
    rw [← getElem?_linePixels hr, linePoint_eq, abs_y_eq_long htall]
    exact abs_coord_sub_le x1 x2 (long x1 y1 x2 y2) k

/-! ## The calls of `draw_pixel` -/

theorem pixelCalls_eq (h : InRange x1 y1 x2 y2) {fuel : ℕ} (hfuel : long x1 y1 x2 y2 < fuel) :
    pixelCalls fuel x1 y1 x2 y2 = some (linePixels x1 y1 x2 y2) :=
  (lineWith_eq h hfuel []).trans (foldlM_record _ _)

/-- **`draw_line` draws a line**: for all ends in range (`InRange`, so that the differences
and the error of the loop are `int`s) its loop stops after `long + 1` turns, with no overflow
on the way, and what it does to an image are the calls of `draw_pixel` for the pixels of a
line, in order. A larger bound on the number of turns changes nothing. -/
theorem draws_line (h : InRange x1 y1 x2 y2) :
    ∃ pixels, IsLine x1 y1 x2 y2 pixels ∧
      ∀ fuel, max (x2 - x1).natAbs (y2 - y1).natAbs < fuel →
        pixelCalls fuel x1 y1 x2 y2 = some pixels ∧
        ∀ g img c, drawLine g fuel img x1 y1 x2 y2 c =
          pixels.foldlM (fun img p => drawPixel g c img p.1 p.2) img :=
  ⟨linePixels x1 y1 x2 y2, isLine_linePixels x1 y1 x2 y2, fun _ hfuel =>
    ⟨pixelCalls_eq h hfuel, fun _ img _ => lineWith_eq h hfuel img⟩⟩

theorem draws_line_steep :
    ∃ pixels, IsLine 2 5 (-1) (-2) pixels ∧
      ∀ fuel, max (-1 - 2 : ℤ).natAbs (-2 - 5 : ℤ).natAbs < fuel →
        pixelCalls fuel 2 5 (-1) (-2) = some pixels ∧
        ∀ g img c, drawLine g fuel img 2 5 (-1) (-2) c =
          pixels.foldlM (fun img p => drawPixel g c img p.1 p.2) img :=
  draws_line ⟨by decide, by decide, by decide, by decide⟩

/-- A tie is drawn on the side of the end. -/
example : pixelCalls 5 0 0 4 2 = some [(0, 0), (1, 1), (2, 1), (3, 2), (4, 2)] := by decide

end Csc452.Graphics
