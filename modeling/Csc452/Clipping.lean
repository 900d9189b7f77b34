import Csc452.LinePixels

/-!
# Drawing and the edges of the screen

`draw_pixel` returns early for what is left of the screen or above it, and for
what is *more* than one cell right of it or below it: it tests `x > bitDepth/2`
and `y > yLength`, where the first column that is not there is `bitDepth/2` and
the first row that is not there is `yLength`. A pixel of that column is stored to
the first cell of the next row, and a pixel of that row behind the buffer.

* `stays_inside_iff` — drawing a line stores to the cells of its pixels that are
  on the screen, and to nothing else, exactly when no pixel of it is on these two
  edges.
* `edge_pixels_are_stored` — on a screen of two by two, one pixel on each of them.
-/

namespace Csc452.Graphics

variable {g : Screen} {c : Color} {img : Image} {p : ℤ × ℤ} {pixels : List (ℤ × ℤ)}

/-! ## The screen -/

/-- The pixel is on the screen. -/
def Screen.Has (g : Screen) (p : ℤ × ℤ) : Prop :=
  (0 ≤ p.1 ∧ p.1 < g.width) ∧ 0 ≤ p.2 ∧ p.2 < g.yLength

instance (g : Screen) (p : ℤ × ℤ) : Decidable (g.Has p) :=
  inferInstanceAs (Decidable ((_ ∧ _) ∧ _ ∧ _))

/-- The cell of a pixel. -/
def Screen.index (g : Screen) (p : ℤ × ℤ) : ℤ := p.2 * g.width + p.1

/-- The pixel is in the first column right of the screen or in the first row below
it. -/
def Screen.Borders (g : Screen) (p : ℤ × ℤ) : Prop :=
  (p.1 = g.width ∧ 0 ≤ p.2 ∧ p.2 ≤ g.yLength) ∨ (p.2 = g.yLength ∧ 0 ≤ p.1 ∧ p.1 ≤ g.width)

/-- A pixel that `draw_pixel` treats as it should: it is not on the two edges, and
when it is on the screen, its cell can be computed. -/
structure Screen.Clips (g : Screen) (p : ℤ × ℤ) : Prop where
  /-- not on the two edges -/
  not_borders : ¬ g.Borders p
  /-- the index of the cell is an `int` -/
  index_le : g.Has p → g.index p ≤ intMax

theorem Screen.two_mul_width (g : Screen) : 2 * g.width = g.bitDepth :=
  Int.mul_tdiv_cancel' g.bitDepth_even

theorem Screen.width_pos (g : Screen) : 0 < g.width := by
  have hpos := g.bitDepth_pos
  rw [← g.two_mul_width] at hpos
  exact pos_of_mul_pos_right hpos zero_le_two

/-- The cells of the pixels are those of the buffer. -/
theorem Screen.Has.index_mem (hp : g.Has p) :
    0 ≤ g.index p ∧ g.index p < g.width * g.yLength := by
  obtain ⟨⟨hx, hx'⟩, hy, hy'⟩ := hp
  have hw : 0 ≤ g.width := hx.trans hx'.le
  refine ⟨add_nonneg (mul_nonneg hy hw) hx, ?_⟩
  calc p.2 * g.width + p.1 < p.2 * g.width + g.width := add_lt_add_right hx' _
    _ = (p.2 + 1) * g.width := by ring
    _ ≤ g.yLength * g.width := mul_le_mul_of_nonneg_right hy' hw
    _ = g.width * g.yLength := mul_comm _ _

/-- A buffer whose size in bytes is an `int`, as `init_graphics` computes it, has
no cell that cannot be computed. -/
theorem Screen.index_le_intMax (hsize : g.yLength * g.bitDepth ≤ intMax) (hp : g.Has p) :
    g.index p ≤ intMax := by
  have hcells : 0 ≤ g.width * g.yLength := mul_nonneg g.width_pos.le g.yLength_pos.le
  rw [← g.two_mul_width] at hsize
  linarith [hp.index_mem.2]

/-- The two edges are not on the screen. -/
theorem Screen.Borders.not_has (hp : g.Borders p) : ¬ g.Has p := by
  rintro ⟨⟨-, hx⟩, -, hy⟩
  rcases hp with ⟨hx', -⟩ | ⟨hy', -⟩
  · exact hx.ne hx'
  · exact hy.ne hy'

/-! ## One pixel -/

theorem Image.cells_store (img : Image) (i j : ℤ) (c : Color) :
    (img.store i c).cells j = if j = i then c else img.cells j :=
  Function.update_apply _ _ _ _

/-- What `draw_pixel` does when it does not return early. -/
theorem drawPixel_of_le (hx : 0 ≤ p.1 ∧ p.1 ≤ g.width) (hy : 0 ≤ p.2 ∧ p.2 ≤ g.yLength) :
    drawPixel g c img p.1 p.2 =
      (toInt (p.2 * g.width)).bind fun row => (toInt (row + p.1)).bind fun i =>
        some (img.store i c) := by
  rw [drawPixel, if_neg (by rw [not_or, not_lt, not_lt]; exact ⟨hx.1, hy.1⟩),
    if_neg (by rw [not_or, gt_iff_lt, gt_iff_lt, not_lt, not_lt]; exact ⟨hx.2, hy.2⟩)]
  rfl

/-- A pixel on one of the two edges does not leave the image as it is. -/
theorem drawPixel_of_borders (hp : g.Borders p) : drawPixel g c img p.1 p.2 ≠ some img := by
  have hle : (0 ≤ p.1 ∧ p.1 ≤ g.width) ∧ 0 ≤ p.2 ∧ p.2 ≤ g.yLength := by
    rcases hp with ⟨hx, hy⟩ | ⟨hy, hx⟩
    · rw [hx]
      exact ⟨⟨g.width_pos.le, le_rfl⟩, hy⟩
    · rw [hy]
      exact ⟨hx, g.yLength_pos.le, le_rfl⟩
  rw [drawPixel_of_le hle.1 hle.2]
  intro heq
  obtain ⟨row, -, heq⟩ := Option.bind_eq_some_iff.mp heq
  obtain ⟨i, -, heq⟩ := Option.bind_eq_some_iff.mp heq
  have hstores : img.stores ++ [i] = img.stores := congrArg Image.stores (Option.some.inj heq)
  exact absurd (List.append_right_eq_self.mp hstores) (List.cons_ne_nil _ _)

/-- A pixel of the screen is stored to its cell. -/
theorem drawPixel_of_has (hp : g.Has p) (hindex : g.index p ≤ intMax) :
    drawPixel g c img p.1 p.2 = some (img.store (g.index p) c) := by
  obtain ⟨⟨hx, hx'⟩, hy, hy'⟩ := hp
  have hrow : 0 ≤ p.2 * g.width := mul_nonneg hy (hx.trans hx'.le)
  have hmin : intMin ≤ 0 := by decide
  rw [drawPixel_of_le ⟨hx, hx'.le⟩ ⟨hy, hy'.le⟩,
    toInt_of_mem (hmin.trans hrow) ((le_add_of_nonneg_right hx).trans hindex), Option.bind_some,
    toInt_of_mem (hmin.trans (add_nonneg hrow hx)) hindex, Option.bind_some]
  rfl

/-- When a pixel of the screen is drawn its cell could be computed. -/
theorem index_le_of_drawPixel {img' : Image} (hp : g.Has p)
    (h : drawPixel g c img p.1 p.2 = some img') : g.index p ≤ intMax := by
  obtain ⟨⟨hx, hx'⟩, hy, hy'⟩ := hp
  rw [drawPixel_of_le ⟨hx, hx'.le⟩ ⟨hy, hy'.le⟩] at h
  obtain ⟨row, hrow, h⟩ := Option.bind_eq_some_iff.mp h
  obtain ⟨i, hi, -⟩ := Option.bind_eq_some_iff.mp h
  obtain ⟨rfl, -⟩ := toInt_eq_some.mp hrow
  exact (toInt_eq_some.mp hi).2.2

/-- Off the screen and off the two edges nothing happens. -/
theorem drawPixel_of_not_has (hp : ¬ g.Has p) (hborders : ¬ g.Borders p) :
    drawPixel g c img p.1 p.2 = some img := by
  unfold drawPixel
  split
  case isTrue => rfl
  case isFalse hmin =>
    rw [not_or, not_lt, not_lt] at hmin
    split
    case isTrue => rfl
    case isFalse hmax =>
      rw [not_or, gt_iff_lt, gt_iff_lt, not_lt, not_lt] at hmax
      -- what passes both tests and is not on an edge is on the screen
      have hx : p.1 ≠ g.width := fun hx => hborders (Or.inl ⟨hx, hmin.2, hmax.2⟩)
      have hy : p.2 ≠ g.yLength := fun hy => hborders (Or.inr ⟨hy, hmin.1, hmax.1⟩)
      exact absurd ⟨⟨hmin.1, lt_of_le_of_ne hmax.1 hx⟩, hmin.2, lt_of_le_of_ne hmax.2 hy⟩ hp

/-! ## All pixels of a line -/

/-- What the drawing of some pixels does: they are stored where they are on the
screen. -/
structure Clipped (g : Screen) (c : Color) (pixels : List (ℤ × ℤ)) (img img' : Image) : Prop where
  /-- the stores are to cells of the buffer, and to those of the pixels on the
  screen -/
  stores : ∃ new, img'.stores = img.stores ++ new ∧
    (∀ i ∈ new, 0 ≤ i ∧ i < g.width * g.yLength) ∧
    ∀ i, i ∈ new ↔ ∃ p ∈ pixels, g.Has p ∧ g.index p = i
  /-- these cells have the color, and no other cell has changed -/
  cells : ∀ i, img'.cells i = if ∃ p ∈ pixels, g.Has p ∧ g.index p = i then c else img.cells i
  /-- a pixel off the screen changes nothing -/
  off_screen : ∀ p ∈ pixels, ¬ g.Has p → drawPixel g c img p.1 p.2 = some img

/-- Pixels that are not on the edges are drawn one after the other, each to its
cell. -/
theorem foldlM_drawPixel (hclips : ∀ p ∈ pixels, g.Clips p) (img : Image) :
    ∃ img', pixels.foldlM (fun img p => drawPixel g c img p.1 p.2) img = some img' ∧
      img'.stores = img.stores ++ (pixels.filter fun p => g.Has p).map g.index ∧
      ∀ i, img'.cells i = if ∃ p ∈ pixels, g.Has p ∧ g.index p = i then c else img.cells i := by
  induction pixels generalizing img with
  | nil =>
    refine ⟨img, rfl, (List.append_nil _).symm, fun i => ?_⟩
    rw [if_neg (by rintro ⟨p, hp, -⟩; exact List.not_mem_nil hp)]
  | cons p pixels ih =>
    rw [List.forall_mem_cons] at hclips
    obtain ⟨hp, hpixels⟩ := hclips
    rw [List.foldlM_cons]
    by_cases hhas : g.Has p
    · obtain ⟨img', hrun, hstores, hcells⟩ := ih hpixels (img.store (g.index p) c)
      rw [drawPixel_of_has hhas (hp.index_le hhas)]
      refine ⟨img', hrun, ?_, fun i => ?_⟩
      · rw [hstores, List.filter_cons, if_pos (decide_eq_true hhas), List.map_cons, List.append_cons]
        rfl
      · rw [hcells]
        by_cases hi : ∃ q ∈ pixels, g.Has q ∧ g.index q = i
        · rw [if_pos hi, if_pos (List.exists_mem_cons_of_exists hi)]
        · rw [if_neg hi, Image.cells_store]
          refine if_congr ?_ rfl rfl
          rw [List.exists_mem_cons_iff, or_iff_left hi, and_iff_right hhas]
          exact eq_comm
    · obtain ⟨img', hrun, hstores, hcells⟩ := ih hpixels img
      rw [drawPixel_of_not_has hhas hp.not_borders]
      refine ⟨img', hrun, ?_, fun i => ?_⟩
      · rw [hstores, List.filter_cons, if_neg (mt of_decide_eq_true hhas)]
      · rw [hcells]
        refine if_congr ?_ rfl rfl
        rw [List.exists_mem_cons_iff, or_iff_right fun h => hhas h.1]

/-- So what is drawn is clipped. -/
theorem clipped_of_clips (hclips : ∀ p ∈ pixels, g.Clips p) (img : Image) :
    ∃ img', pixels.foldlM (fun img p => drawPixel g c img p.1 p.2) img = some img' ∧
      Clipped g c pixels img img' := by
  obtain ⟨img', hrun, hstores, hcells⟩ := foldlM_drawPixel (c := c) hclips img
  have hmem : ∀ i, i ∈ (pixels.filter fun p => g.Has p).map g.index ↔
      ∃ p ∈ pixels, g.Has p ∧ g.index p = i := by
    intro i
    rw [List.mem_map]
    refine exists_congr fun p => ?_
    rw [List.mem_filter, decide_eq_true_iff, and_assoc]
  refine ⟨img', hrun, ⟨_, hstores, fun i hi => ?_, hmem⟩, hcells, fun p hp hhas => ?_⟩
  · obtain ⟨p, -, hhas, rfl⟩ := (hmem i).mp hi
    exact hhas.index_mem
  · exact drawPixel_of_not_has hhas (hclips p hp).not_borders

/-- What is drawn without an overflow stored every pixel of the screen. -/
theorem index_le_of_foldlM {img' : Image}
    (h : pixels.foldlM (fun img p => drawPixel g c img p.1 p.2) img = some img') (hp : p ∈ pixels)
    (hhas : g.Has p) : g.index p ≤ intMax := by
  induction pixels generalizing img with
  | nil => exact absurd hp List.not_mem_nil
  | cons q pixels ih =>
    rw [List.foldlM_cons, Option.bind_eq_bind] at h
    obtain ⟨imgq, hq, h⟩ := Option.bind_eq_some_iff.mp h
    rcases List.mem_cons.mp hp with rfl | hp
    · exact index_le_of_drawPixel hhas hq
    · exact ih h hp

/-- Conversely, what is clipped are pixels that are not on the edges. -/
theorem Clipped.clips {img' : Image} (h : Clipped g c pixels img img')
    (hrun : pixels.foldlM (fun img p => drawPixel g c img p.1 p.2) img = some img')
    (hp : p ∈ pixels) : g.Clips p where
  not_borders hborders := drawPixel_of_borders hborders (h.off_screen p hp hborders.not_has)
  index_le := index_le_of_foldlM hrun hp

/-! ## Lines -/

/-- Drawing a line stays inside the screen: whatever the color and the image, it
does to the image what the pixels of the line on the screen say. -/
def StaysInside (g : Screen) (x1 y1 x2 y2 : ℤ) : Prop :=
  ∀ fuel, max (x2 - x1).natAbs (y2 - y1).natAbs < fuel → ∀ c img, ∃ pixels img',
    pixelCalls fuel x1 y1 x2 y2 = some pixels ∧
    drawLine g fuel img x1 y1 x2 y2 c = some img' ∧ Clipped g c pixels img img'

variable {x1 y1 x2 y2 : ℤ}

theorem mem_linePixels :
    p ∈ linePixels x1 y1 x2 y2 ↔ ∃ k ≤ long x1 y1 x2 y2, linePoint x1 y1 x2 y2 k = p := by
  rw [linePixels, List.mem_map]
  refine exists_congr fun k => ?_
  rw [List.mem_range, Nat.lt_succ_iff]

/-- **The edges**: a line with ends in range stays inside the screen, and draws what is on the
screen of it, exactly when none of its points is in the first column right of the screen or
in the first row below it, and its cells can be computed. For `draw_pixel` compares with
`>`, and takes those two for a part of the screen. -/
theorem stays_inside_iff (h : InRange x1 y1 x2 y2) :
    StaysInside g x1 y1 x2 y2 ↔
      ∀ k ≤ long x1 y1 x2 y2, g.Clips (linePoint x1 y1 x2 y2 k) := by
  constructor
  · intro hstays k hk
    obtain ⟨pixels, img', hcalls, hrun, hclipped⟩ :=
      hstays (long x1 y1 x2 y2 + 1) (Nat.lt_succ_self _) 0 ⟨fun _ => 0, []⟩
    rw [pixelCalls_eq h (Nat.lt_succ_self _)] at hcalls
    obtain rfl := Option.some.inj hcalls
    rw [drawLine, lineWith_eq h (Nat.lt_succ_self _)] at hrun
    exact hclipped.clips hrun (mem_linePixels.mpr ⟨k, hk, rfl⟩)
  · intro hclips fuel hfuel c img
    have hall : ∀ p ∈ linePixels x1 y1 x2 y2, g.Clips p := by
      intro p hp
      obtain ⟨k, hk, rfl⟩ := mem_linePixels.mp hp
      exact hclips k hk
    obtain ⟨img', hrun, hclipped⟩ := clipped_of_clips (c := c) hall img
    exact ⟨_, img', pixelCalls_eq h hfuel, (lineWith_eq h hfuel img).trans hrun, hclipped⟩

/-- A diagonal across a screen of two by two is on neither edge. -/
theorem stays_inside_iff_diagonal :
    StaysInside ⟨2, 4, by decide, by decide, by decide⟩ 0 0 1 1 ↔
      ∀ k ≤ long 0 0 1 1, Screen.Clips ⟨2, 4, by decide, by decide, by decide⟩ (linePoint 0 0 1 1 k) :=
  stays_inside_iff ⟨by decide, by decide, by decide, by decide⟩

/-- On a screen of two by two the pixel at (2, 0) is stored to the cell of (0, 1),
and the one at (0, 2) behind the last cell, which has the index 3. -/
theorem edge_pixels_are_stored :
    ¬ StaysInside ⟨2, 4, by decide, by decide, by decide⟩ 2 0 2 0 ∧
      (drawLine ⟨2, 4, by decide, by decide, by decide⟩ 1 ⟨fun _ => 0, []⟩ 2 0 2 0 31).map
        Image.stores = some [2] ∧
      (drawLine ⟨2, 4, by decide, by decide, by decide⟩ 1 ⟨fun _ => 0, []⟩ 0 2 0 2 31).map
        Image.stores = some [4] := by
  refine ⟨fun h => ?_, by decide, by decide⟩
  obtain ⟨pixels, img', hcalls, -, hclipped⟩ := h 1 (by decide) 31 ⟨fun _ => 0, []⟩
  have hpixels : pixels = [(2, 0)] := Option.some.inj (hcalls.symm.trans (by decide))
  have hoff := hclipped.off_screen (2, 0) (by rw [hpixels]; decide) (by decide)
  exact absurd (congrArg (Option.map Image.stores) hoff) (by decide)

end Csc452.Graphics
