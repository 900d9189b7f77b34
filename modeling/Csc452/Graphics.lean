import Mathlib.Algebra.Order.Group.Unbundled.Int
import Mathlib.Data.List.Basic

/-!
# Drawing on the frame buffer

`draw_pixel` and `draw_line` of the graphics library's `library.c`, on a buffer
of the size `init_graphics` maps.

The library is not told to wrap its integers, so an `int` that overflows has no
meaning: `toInt` is `none` there, and with it the call. What is left of the
buffer is its cells, by their index from its start; an index outside of it is a
store into somebody else's memory, and the image keeps a list of the indices
stored to. `draw_line` is written over what a call of `draw_pixel` does, so that
its calls can be listed as well as carried out.
-/

namespace Csc452.Graphics

/-- The largest `int`. -/
def intMax : ℤ := 2147483647

/-- The smallest `int`. -/
def intMin : ℤ := -2147483648

/-- The value of an `int` expression, when it has one. -/
def toInt (z : ℤ) : Option ℤ := if intMin ≤ z ∧ z ≤ intMax then some z else none

theorem toInt_eq_some {z w : ℤ} : toInt z = some w ↔ z = w ∧ intMin ≤ z ∧ z ≤ intMax := by
  unfold toInt
  split
  case isTrue h => simp [h]
  case isFalse h => simp [h]

theorem toInt_of_mem {z : ℤ} (hmin : intMin ≤ z) (hmax : z ≤ intMax) : toInt z = some z :=
  if_pos ⟨hmin, hmax⟩

/-- `color_t`. -/
abbrev Color : Type := UInt16

/-- What `init_graphics` learns of the screen: `yLength` rows, of `bitDepth`
bytes each. -/
structure Screen : Type where
  /-- the number of rows -/
  yLength : ℤ
  /-- the length of a row in bytes -/
  bitDepth : ℤ
  /-- there is a row -/
  yLength_pos : 0 < yLength
  /-- a row is not empty -/
  bitDepth_pos : 0 < bitDepth
  /-- a row is made of whole cells -/
  bitDepth_even : 2 ∣ bitDepth

/-- `bitDepth / 2`, the cells of one row. -/
def Screen.width (g : Screen) : ℤ := g.bitDepth.tdiv 2

/-- The memory from the start of a buffer on. -/
structure Image : Type where
  /-- the memory, in cells of a color, by the index from the start of the buffer -/
  cells : ℤ → Color
  /-- the indices stored to, in order -/
  stores : List ℤ

/-- `castImg[i] = color`. -/
def Image.store (img : Image) (i : ℤ) (color : Color) : Image where
  cells := Function.update img.cells i color
  stores := img.stores ++ [i]

/-- `draw_pixel`. -/
def drawPixel (g : Screen) (color : Color) (img : Image) (x y : ℤ) : Option Image :=
  if x < 0 ∨ y < 0 then some img
  else if x > g.width ∨ y > g.yLength then some img
  else do
    let row ← toInt (y * g.width)
    let i ← toInt (row + x)
    some (img.store i color)

/-- `absoluteVal`. -/
def absoluteVal (number : ℤ) : Option ℤ :=
  if number ≥ 0 then some number else toInt (-1 * number)

/-- The variables of `draw_line`. -/
structure Line : Type where
  x1 : ℤ
  y1 : ℤ
  x2 : ℤ
  y2 : ℤ
  dx : ℤ
  sx : ℤ
  dy : ℤ
  sy : ℤ
  err : ℤ

/-- The variables before the loop. -/
def Line.start (x1 y1 x2 y2 : ℤ) : Option Line := do
  let dx ← absoluteVal (← toInt (x2 - x1))
  let sx := if x1 < x2 then 1 else -1
  let dy ← toInt (-(← absoluteVal (← toInt (y2 - y1))))
  let sy := if y1 < y2 then 1 else -1
  let err ← toInt (dx + dy)
  some ⟨x1, y1, x2, y2, dx, sx, dy, sy, err⟩

/-- `if (e2 >= dy) { err += dy; x1 += sx; }` -/
def Line.moveX (l : Line) (e2 : ℤ) : Option Line :=
  if e2 ≥ l.dy then do
    let err ← toInt (l.err + l.dy)
    let x1 ← toInt (l.x1 + l.sx)
    some { l with err, x1 }
  else some l

/-- `if (e2 <= dx) { err += dx; y1 += sy; }` -/
def Line.moveY (l : Line) (e2 : ℤ) : Option Line :=
  if e2 ≤ l.dx then do
    let err ← toInt (l.err + l.dx)
    let y1 ← toInt (l.y1 + l.sy)
    some { l with err, y1 }
  else some l

/-- The rest of a turn of the loop, when it does not break: both tests read the
`err` that the turn began with. -/
def Line.advance (l : Line) : Option Line := do
  let e2 ← toInt (2 * l.err)
  (← l.moveX e2).moveY e2

variable {ι : Type}

/-- The loop of `draw_line`, where `pixel` is what a call of `draw_pixel` does.
The loop has no bound of its own; `fuel` is the number of turns it is given. -/
def lineLoop (pixel : ι → ℤ → ℤ → Option ι) : ℕ → Line → ι → Option ι
  | 0, _, _ => none
  | fuel + 1, l, img => do
    let img ← pixel img l.x1 l.y1
    if l.x1 = l.x2 ∧ l.y1 = l.y2 then some img
    else lineLoop pixel fuel (← l.advance) img

/-- `draw_line`, over the calls of `draw_pixel`. -/
def lineWith (pixel : ι → ℤ → ℤ → Option ι) (fuel : ℕ) (img : ι) (x1 y1 x2 y2 : ℤ) : Option ι := do
  lineLoop pixel fuel (← Line.start x1 y1 x2 y2) img

/-- `draw_line`. -/
def drawLine (g : Screen) (fuel : ℕ) (img : Image) (x1 y1 x2 y2 : ℤ) (c : Color) : Option Image :=
  lineWith (drawPixel g c) fuel img x1 y1 x2 y2

/-- The calls of `draw_pixel` that `draw_line` makes, in order. -/
def pixelCalls (fuel : ℕ) (x1 y1 x2 y2 : ℤ) : Option (List (ℤ × ℤ)) :=
  lineWith (fun calls x y => some (calls ++ [(x, y)])) fuel [] x1 y1 x2 y2

/-- A list that is told of calls one after the other holds them in the end. -/
theorem foldlM_record {α : Type} (xs calls : List α) :
    xs.foldlM (fun calls x => some (calls ++ [x])) calls = some (calls ++ xs) := by
  induction xs generalizing calls with
  | nil => rw [List.append_nil]; rfl
  | cons x xs ih =>
    rw [List.foldlM_cons, Option.bind_eq_bind, Option.bind_some, ih, List.append_assoc]
    rfl

end Csc452.Graphics
