import Csc452.Clipping
import Csc452.Hilbert

/-!
# Programs with a screen and a keyboard

`main` of `hilbert.c` and `main` of `driver.c`, and what they use of `library.c`: the frame
buffer and a second buffer of its size, the terminal, and a loop that waits for a key. Both
programs draw a page for every `n` that is pressed, and stop at a `q`; they differ in what
they draw and in whether they stop by themselves (`Show`).

A page is drawn to the second buffer, which is cleared before, and then copied. What the
user sees of it is the frame buffer while the program waits for a key, and whether the
terminal echoes what is typed.
-/

namespace Csc452.Graphics

/-! ## Buffers -/

/-- Store to the first `n` cells, one after the other. -/
def Image.fill (img : Image) (n : ℤ) (value : ℤ → Color) : Image :=
  (List.range n.toNat).foldl (fun img (i : ℕ) => img.store i (value i)) img

/-- `clear_screen`. -/
def clearScreen (g : Screen) (img : Image) : Option Image := do
  let bytes ← toInt (g.yLength * g.bitDepth)
  some (img.fill (bytes.tdiv 2) fun _ => 0)

/-- `create_buffer`: fresh memory reads zero. -/
def createBuffer : Image := { cells := fun _ => 0, stores := [] }

/-- `blit`, to the frame buffer. -/
def blit (size : ℤ) (src frameBuffer : Image) : Image :=
  frameBuffer.fill (size.tdiv 2) src.cells

/-! ## The library's globals -/

/-- `c_lflag` of a terminal. -/
abbrev Flags : Type := BitVec 32

/-- `ICANON` -/
def icanon : Flags := 0x2

/-- `ECHO` -/
def echo : Flags := 0x8

/-- What `library.c` keeps between its calls, and the terminal. -/
structure Display : Type where
  /-- the global `frameBuffer` -/
  frameBuffer : Image
  /-- the global `size` -/
  size : ℤ
  /-- the flags of the terminal -/
  flags : Flags
  /-- those of the global `old` -/
  old : Flags

/-- `init_graphics`, on what the screen shows and the flags of the terminal. -/
def initGraphics (g : Screen) (cells : ℤ → Color) (flags : Flags) : Option Display := do
  let size ← toInt (g.yLength * g.bitDepth)
  some
    { frameBuffer := { cells := cells, stores := [] }
      size := size
      flags := flags &&& ~~~(icanon ||| echo)
      old := flags }

/-- `exit_graphics`. -/
def exitGraphics (g : Screen) (d : Display) : Option Display := do
  let img ← clearScreen g d.frameBuffer
  some { d with frameBuffer := img, flags := d.old }

/-! ## The loop -/

/-- `'q'` -/
def keyQ : UInt8 := 113

/-- `'n'` -/
def keyN : UInt8 := 110

variable {σ : Type}

/-- What is particular about one of the programs. -/
structure Show (σ : Type) : Type where
  /-- the top of the loop breaks at this value of `n` -/
  ends : ℕ → Bool
  /-- what the top of the loop does to the program's globals -/
  reset : σ → σ
  /-- draw what belongs to a value of `n` -/
  draw : ℕ → σ → Image → Option (σ × Image)

/-- The variables of a program that waits for a key. -/
structure Waiting (σ : Type) : Type where
  /-- those of the library -/
  display : Display
  /-- `buf` -/
  buf : Image
  /-- `n` -/
  n : ℕ
  /-- the program's globals -/
  globals : σ

/-- What has become of a program. -/
inductive Outcome (σ : Type) : Type where
  /-- it waits for a key -/
  | waiting (s : Waiting σ)
  /-- `main` has returned -/
  | exited (d : Display)
  /-- it did something that has no meaning -/
  | undefined

namespace Show

variable (w : Show σ) (g : Screen)

/-- Leave the loop. -/
def leave (d : Display) : Outcome σ := (exitGraphics g d).elim .undefined .exited

/-- The top of the loop, as far as `getkey`. -/
def await (s : Waiting σ) : Outcome σ :=
  if w.ends s.n then leave g s.display else .waiting { s with globals := w.reset s.globals }

/-- The page for the next value of `n`. -/
def turnPage (s : Waiting σ) : Option (Waiting σ) := do
  let buf ← clearScreen g s.buf
  let (globals, buf) ← w.draw (s.n + 1) s.globals buf
  let frameBuffer := blit s.display.size buf s.display.frameBuffer
  some { display := { s.display with frameBuffer := frameBuffer }, buf, n := s.n + 1, globals }

/-- The rest of the loop's body, and its top. -/
def press : Outcome σ → UInt8 → Outcome σ
  | .waiting s, key =>
    if key = keyQ then leave g s.display
    else if key = keyN then (w.turnPage g s).elim .undefined (w.await g)
    else w.await g s
  | out, _ => out

end Show

/-! ## `hilbert.c` -/

/-- `hilbert`. The shift has a value as long as it is an `int`. -/
def hilbert (g : Screen) (fuel n : ℕ) (parity : ℤ) (t : Turtle) (img : Image) :
    Option (Turtle × Image) := do
  let side ← toInt (2 ^ n)
  hilbertDraw g fuel n parity ((479 : ℤ).tdiv side) t img

/-- The loop of `main`. -/
def hilbertShow (g : Screen) (fuel : ℕ) : Show Turtle where
  ends _ := false
  reset t := { t with currX := 0, currY := 0 }
  draw n t img := hilbert g fuel n 1 t img

/-- `main`, before it reads a key. -/
def hilbertStart (g : Screen) (fuel : ℕ) (cells : ℤ → Color) (flags : Flags) :
    Option (Waiting Turtle) := do
  let d ← initGraphics g cells flags
  let (t, buf) ← hilbert g fuel 1 1 ⟨0, 0, 0⟩ createBuffer
  some
    { display := { d with frameBuffer := blit d.size buf d.frameBuffer }
      buf := buf
      n := 1
      globals := t }

/-- `main`, on the keys pressed so far. -/
def hilbertMain (g : Screen) (fuel : ℕ) (cells : ℤ → Color) (flags : Flags) (keys : List UInt8) :
    Outcome Turtle :=
  keys.foldl ((hilbertShow g fuel).press g)
    ((hilbertStart g fuel cells flags).elim .undefined ((hilbertShow g fuel).await g))

/-! ## `driver.c` -/

/-- The lines, by the value of `n`. -/
def driverDraw (g : Screen) (fuel n : ℕ) (img : Image) : Option Image := do
  let img ← if n = 1 then drawLine g fuel img 0 0 120 120 (rgb 12 58 21) else some img
  let img ← if n = 2 then drawLine g fuel img 120 67 321 399 (rgb 0 58 21) else some img
  if n = 3 then drawLine g fuel img 31 62 520 310 (rgb 12 0 21) else some img

/-- The loop of `main`. -/
def driverShow (g : Screen) (fuel : ℕ) : Show Unit where
  ends n := n == 3
  reset u := u
  draw n u img := (driverDraw g fuel n img).map fun img => (u, img)

/-- `main`, before it reads a key. -/
def driverStart (g : Screen) (cells : ℤ → Color) (flags : Flags) : Option (Waiting Unit) := do
  let d ← initGraphics g cells flags
  some
    { display := { d with frameBuffer := blit d.size createBuffer d.frameBuffer }
      buf := createBuffer
      n := 0
      globals := () }

/-- `main`, on the keys pressed so far. -/
def driverMain (g : Screen) (fuel : ℕ) (cells : ℤ → Color) (flags : Flags) (keys : List UInt8) :
    Outcome Unit :=
  keys.foldl ((driverShow g fuel).press g)
    ((driverStart g cells flags).elim .undefined ((driverShow g fuel).await g))

end Csc452.Graphics
