import Csc452.CarQueue
import Csc452.Runs
import Mathlib.Data.Fintype.Basic

/-!
# The flagperson and the two producers

The three processes of `prodcons.c`. `down` and `up` are atomic operations on
counting semaphores; everything else in shared memory is read and written by
steps of its own where another process can see the difference. The queues and the
counter are only changed between `down(mutex)` and `up(mutex)`, but the flagperson
looks at the `size` of both queues without it, so `enqueue` takes two steps: one
that puts the car in and one that sets the size.

Ordinary locals are copied by `fork`: every process has its own `is_sleep`, and
each producer its own pointer `total_car`, which is counted in `int`s from the
beginning of the shared page. What the program itself does not keep is there for
the statements: which values `enqueue` was called with and `dequeue` returned,
and what has been printed.
-/

namespace Csc452.Prodcons

/-- The direction that a car comes from. -/
inductive Direction : Type where
  /-- `'N'` -/
  | north
  /-- `'S'` -/
  | south
  deriving DecidableEq

instance : Fintype Direction where
  elems := {.north, .south}
  complete d := by cases d <;> decide

/-- The opposite direction. -/
def Direction.other : Direction → Direction
  | .north => .south
  | .south => .north

/-- `N`, the buffer size. -/
def N : ℕ := 10

/-- The number of `int`s on the page that `mmap` returns for the counter. What lies
behind the page is not the program's, and a store there is undefined. -/
def pageInts : ℕ := 1024

/-- A line of the output. -/
inductive Line : Type where
  /-- "The flagperson is now awake" -/
  | awake
  /-- "Car %d coming from the %c direction, blew their horn at time %ld." -/
  | horn (number : ℤ) (d : Direction)
  /-- "Car %d coming from the %c direction arrived in the queue at time %ld." -/
  | arrived (number : ℤ) (d : Direction)
  /-- "Car %d coming from the %c direction left the construction zone at time %ld." -/
  | left (number : ℤ) (d : Direction)
  /-- "The flagperson is now asleep." -/
  | asleep
  deriving DecidableEq

/-! ## The producers -/

/-- What the two producer loops do differently. -/
structure ProducerLoop : Type where
  /-- printed before the horn -/
  wakes : List Line
  /-- how far `total_car` moves while the argument of `enqueue` is evaluated -/
  moves : ℕ
  /-- whether `*total_car = *total_car + 1` comes after `enqueue` -/
  counts : Bool

/-- The loop of the first child: `enqueue(north_queue, *total_car)`. -/
def northLoop : ProducerLoop := { wakes := [.awake], moves := 0, counts := false }

/-- The loop of the second child: `enqueue(south_queue, *total_car++)`, which takes
the value at the pointer and moves the pointer. -/
def southLoop : ProducerLoop := { wakes := [], moves := 1, counts := true }

/-- The loop of a producer. -/
def Direction.loop : Direction → ProducerLoop
  | .north => northLoop
  | .south => southLoop

/-- The next thing a producer does. -/
inductive ProducerLine : Type where
  /-- `down(north_empty)` or `down(south_empty)` -/
  | downEmpty
  /-- `down(mutex)` -/
  | downMutex
  /-- the test of `is_sleep` and the lines printed -/
  | arrive
  /-- `enqueue`, up to where the car is in -/
  | enqueue
  /-- the rest of `enqueue` -/
  | resize
  /-- `*total_car = *total_car + 1` -/
  | count
  /-- `up(mutex)` -/
  | upMutex
  /-- `up(north_full)` or `up(south_full)` -/
  | upFull
  deriving DecidableEq

/-- The next thing after `enqueue`. -/
def ProducerLoop.afterEnqueue (loop : ProducerLoop) : ProducerLine :=
  if loop.counts then .count else .upMutex

/-- A producer. -/
structure Producer : Type where
  /-- where it is -/
  line : ProducerLine
  /-- its `is_sleep` -/
  isSleep : ℤ
  /-- its `total_car` -/
  totalCar : ℕ

/-! ## The flagperson -/

/-- The next thing the flagperson does. -/
inductive FlagLine : Type where
  /-- `north_queue->size == 0`, to see whether he may sleep -/
  | idleNorth
  /-- `south_queue->size == 0` -/
  | idleSouth
  /-- the test of `is_sleep`, and what follows from it -/
  | idle
  /-- `size > 0` for the queue of the direction, in the guard of its loop -/
  | guardSize (d : Direction)
  /-- `size < 10` for the opposite queue, in the guard of the loop of the direction -/
  | guardOther (d : Direction)
  /-- `down(north_full)` or `down(south_full)` -/
  | downFull (d : Direction)
  /-- `down(mutex)` -/
  | downMutex (d : Direction)
  /-- `dequeue`, and the line printed -/
  | dequeue (d : Direction)
  /-- `up(mutex)` -/
  | upMutex (d : Direction)
  /-- `up(north_empty)` or `up(south_empty)` -/
  | upEmpty (d : Direction)
  deriving DecidableEq

/-- The first thing of the guard of a loop: `north_queue->size` comes first in both. -/
def FlagLine.guard : Direction → FlagLine
  | .north => .guardSize .north
  | .south => .guardOther .south

/-- What comes after a guard that fails. -/
def FlagLine.leave : Direction → FlagLine
  | .north => .guard .south
  | .south => .idleNorth

/-! ## The system -/

/-- What there is for each direction. -/
structure Side : Type where
  /-- `north_queue` or `south_queue` -/
  queue : CarQueue
  /-- the value of `north_empty` or `south_empty` -/
  empty : ℕ
  /-- the value of `north_full` or `south_full` -/
  full : ℕ
  /-- the producer -/
  producer : Producer

/-- What there is once, and what has happened so far. -/
structure Shared : Type where
  /-- the page of the counter -/
  page : ℕ → ℤ
  /-- the value of `mutex` -/
  mutex : ℕ
  /-- the calls of `enqueue`, the first one first -/
  enqueued : List (Direction × ℤ)
  /-- the calls of `dequeue`, the first one first -/
  dequeued : List (Direction × ℤ)
  /-- what has been printed since the first line of `main`, the latest line first -/
  output : List Line

/-- The shared memory and the processes. -/
structure System : Type where
  /-- what there is once -/
  shared : Shared
  /-- the two sides -/
  side : Direction → Side
  /-- where the flagperson is -/
  flag : FlagLine
  /-- his `is_sleep` -/
  isSleep : ℤ

/-- A process. -/
inductive Process : Type where
  /-- one of the children -/
  | producer (d : Direction)
  /-- the parent -/
  | flagperson
  deriving DecidableEq

/-- After the forks. -/
def System.init : System where
  shared :=
    { page := fun i => if i = 0 then 1 else 0
      mutex := 1
      enqueued := []
      dequeued := []
      output := [] }
  side := fun _ =>
    { queue := { car := fun _ => 0, front := -1, rear := -1, size := 0 }
      empty := N
      full := 0
      producer := { line := .downEmpty, isSleep := 1, totalCar := 0 } }
  flag := .idleNorth
  isSleep := 1

/-- The next step of a producer, when it is not blocked: what it makes of its side,
and of what there is once. -/
def produceAt (d : Direction) (g : Shared) (x : Side) : Option (Shared × Side) :=
  let p := x.producer
  let number := g.page p.totalCar
  match p.line with
  | .downEmpty =>
    if x.empty = 0 then none
    else some (g, { x with empty := x.empty - 1, producer := { p with line := .downMutex } })
  | .downMutex =>
    if g.mutex = 0 then none
    else some ({ g with mutex := g.mutex - 1 }, { x with producer := { p with line := .arrive } })
  | .arrive =>
    let horn := if p.isSleep = 1 then .horn number d :: d.loop.wakes else []
    let isSleep := if p.isSleep = 1 then 0 else p.isSleep
    some ({ g with output := .arrived number d :: horn ++ g.output },
      { x with producer := { p with line := .enqueue, isSleep := isSleep } })
  | .enqueue =>
    let line := if isFull x.queue then d.loop.afterEnqueue else .resize
    let queue := if isFull x.queue then x.queue else x.queue.put number
    let p := { p with line := line, totalCar := p.totalCar + d.loop.moves }
    some ({ g with enqueued := g.enqueued ++ [(d, number)] },
      { x with queue := queue, producer := p })
  | .resize =>
    some (g, { x with queue := x.queue.resize, producer := { p with line := d.loop.afterEnqueue } })
  | .count =>
    -- a store behind the page is undefined: the process takes no further step
    if p.totalCar < pageInts then
      some ({ g with page := Function.update g.page p.totalCar (number + 1) },
        { x with producer := { p with line := .upMutex } })
    else none
  | .upMutex =>
    some ({ g with mutex := g.mutex + 1 }, { x with producer := { p with line := .upFull } })
  | .upFull => some (g, { x with full := x.full + 1, producer := { p with line := .downEmpty } })

/-- The next step of a producer. -/
def produce (s : System) (d : Direction) : Option System := do
  let (g, x) ← produceAt d s.shared (s.side d)
  some { s with shared := g, side := Function.update s.side d x }

/-- The next step of the flagperson, when he is not blocked. -/
def direct (s : System) : Option System :=
  let g := s.shared
  match s.flag with
  | .idleNorth =>
    some { s with flag := if (s.side .north).queue.size = 0 then .idleSouth else .guard .north }
  | .idleSouth =>
    some { s with flag := if (s.side .south).queue.size = 0 then .idle else .guard .north }
  | .idle =>
    if s.isSleep = 0 then
      some { s with
        shared := { g with output := .asleep :: g.output }, flag := .guard .north, isSleep := 1 }
    else some { s with flag := .guard .north }
  | .guardSize d =>
    -- the second half of a guard is not looked at when the first one fails
    let next : FlagLine := match d with
      | .north => .guardOther .north
      | .south => .downFull .south
    some { s with flag := if 0 < (s.side d).queue.size then next else .leave d }
  | .guardOther d =>
    let next : FlagLine := match d with
      | .north => .downFull .north
      | .south => .guardSize .south
    some { s with flag := if (s.side d.other).queue.size < 10 then next else .leave d }
  | .downFull d =>
    let x := s.side d
    if x.full = 0 then none
    else some { s with
      side := Function.update s.side d { x with full := x.full - 1 }, flag := .downMutex d }
  | .downMutex d =>
    if g.mutex = 0 then none
    else some { s with shared := { g with mutex := g.mutex - 1 }, flag := .dequeue d }
  | .dequeue d =>
    let x := s.side d
    let element := (dequeue x.queue).1
    some { s with
      shared := { g with
        dequeued := g.dequeued ++ [(d, element)], output := .left element d :: g.output }
      side := Function.update s.side d { x with queue := (dequeue x.queue).2 }
      flag := .upMutex d }
  | .upMutex d => some { s with shared := { g with mutex := g.mutex + 1 }, flag := .upEmpty d }
  | .upEmpty d =>
    let x := s.side d
    some { s with
      side := Function.update s.side d { x with empty := x.empty + 1 }, flag := .guard d }

/-- The next step of a process. -/
def step (s : System) : Process → Option System
  | .producer d => produce s d
  | .flagperson => direct s

end Csc452.Prodcons
