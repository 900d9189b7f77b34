import Csc452.Graphics
import Csc452.SpaceFilling

/-!
# The Hilbert curve

`hilbert.c`: a turtle that turns and goes forward, and the recursion that leads it
over a square. Its position and direction are the program's global variables.

Going forward draws a line. The functions are written over what a call of
`draw_line` does, as `draw_line` is over `draw_pixel`, so that the calls can be
listed (`forwardCalls`) as well as carried out (`hilbertDraw`).
-/

namespace Csc452.Graphics

open SpaceFilling

/-- The color macro. -/
def rgb (r g b : Color) : Color := r <<< 11 ||| g <<< 5 ||| b

/-- `direction`, `curr_x` and `curr_y`. -/
structure Turtle : Type where
  direction : ℤ
  currX : ℤ
  currY : ℤ

/-- `turn_left`. -/
def turnLeft (t : Turtle) (degrees : ℤ) : Option Turtle := do
  let sum ← toInt (t.direction + degrees)
  let sum ← toInt (sum + 360)
  some { t with direction := sum.tmod 360 }

/-- `new_x` and `new_y` of `go_forward`. -/
def Turtle.newPosition (t : Turtle) (distance : ℤ) : Option (ℤ × ℤ) :=
  if t.direction = 0 then (toInt (t.currX + distance)).map fun newX => (newX, t.currY)
  else if t.direction = 90 then (toInt (t.currY + distance)).map fun newY => (t.currX, newY)
  else if t.direction = 180 then (toInt (t.currX - distance)).map fun newX => (newX, t.currY)
  else if t.direction = 270 then (toInt (t.currY - distance)).map fun newY => (t.currX, newY)
  else some (t.currX, t.currY)

variable {ι : Type}

/-- `go_forward`, where `line` is what a call of `draw_line` does. -/
def goForward (line : ι → ℤ → ℤ → ℤ → ℤ → Option ι) (t : Turtle) (img : ι) (distance : ℤ) :
    Option (Turtle × ι) := do
  let (newX, newY) ← t.newPosition distance
  let img ← line img t.currX t.currY newX newY
  some ({ t with currX := newX, currY := newY }, img)

/-- `hilbert_recurse`, over the calls of `draw_line`. -/
def hilbertRecurse (line : ι → ℤ → ℤ → ℤ → ℤ → Option ι) :
    ℕ → ℤ → ℤ → Turtle → ι → Option (Turtle × ι)
  | 0, _, _, t, img => some (t, img)
  | n + 1, parity, dist, t, img => do
    let t ← turnLeft t (← toInt (parity * 90))
    let (t, img) ← hilbertRecurse line n (-parity) dist t img
    let (t, img) ← goForward line t img dist
    let t ← turnLeft t (← toInt (-parity * 90))
    let (t, img) ← hilbertRecurse line n parity dist t img
    let (t, img) ← goForward line t img dist
    let (t, img) ← hilbertRecurse line n parity dist t img
    let t ← turnLeft t (← toInt (-parity * 90))
    let (t, img) ← goForward line t img dist
    let (t, img) ← hilbertRecurse line n (-parity) dist t img
    let t ← turnLeft t (← toInt (parity * 90))
    some (t, img)

/-- `hilbert_recurse` on an image. -/
def hilbertDraw (g : Screen) (fuel n : ℕ) (parity dist : ℤ) (t : Turtle) (img : Image) :
    Option (Turtle × Image) :=
  hilbertRecurse (fun img x1 y1 x2 y2 => drawLine g fuel img x1 y1 x2 y2 (rgb 31 0 0))
    n parity dist t img

/-- The calls of `go_forward` that `hilbert_recurse` makes, in order: where the
turtle is before the call, and where it is after it. -/
def forwardCalls (n : ℕ) (parity dist : ℤ) (t : Turtle) :
    Option (Turtle × List ((ℤ × ℤ) × (ℤ × ℤ))) :=
  hilbertRecurse (fun calls x1 y1 x2 y2 => some (calls ++ [((x1, y1), (x2, y2))])) n parity dist t []

end Csc452.Graphics
