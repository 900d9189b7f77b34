import Csc452.Prodcons

/-!
# The traffic simulation

The three children of `trafficsim.c`: a producer of cars for either direction, and
the consumer, who is the flagperson. `down` and `up` are the only calls by which
they wait for each other, so what a process does is written apart from what the
semaphores are. `Road.call` says which semaphore call a process is at,
`Road.next` where it is after the call, and `Road.act` what it does at any other
line. `act` is given the values of the semaphores, for the consumer reads the
`value` of `n_full` and `s_full` in its guards.

Here the semaphores are atomic counters (`System`, `step`). The lines of `main`
between two semaphore calls that other processes can see or change are steps of
their own. A producer that sleeps, or whose `rand` keeps it from its loop, is one
that takes no step for a while.

The output is the sequence of the calls of `printf`, in the order in which the
processes make them. When the text of a call reaches the terminal is left out: each
process has a buffer of its own, and the lines begin with their newline, so what is
seen can lag behind the calls and comes in another order between processes.

The numbers of the cars are natural numbers: an `int` would overflow after `2 ^ 31`
cars from one direction.
-/

namespace Csc452.Trafficsim

open Prodcons (Direction)

/-- `BUFF_SIZE`. -/
def buffSize : ℕ := 10

/-- The five semaphores. -/
inductive Sem : Type where
  /-- `n_full` or `s_full` -/
  | full (d : Direction)
  /-- `n_empty` or `s_empty` -/
  | empty (d : Direction)
  /-- `mutex` -/
  | mutex
  deriving DecidableEq

/-- A call by which a process may have to wait, or let others go on. -/
inductive Call : Type where
  /-- `down` -/
  | down (x : Sem)
  /-- `up` -/
  | up (x : Sem)
  deriving DecidableEq

/-- A line given to `printf`, without the time. -/
inductive Line : Type where
  /-- "Car %d coming from the %c direction arrived in the queue" -/
  | arrived (car : ℕ) (d : Direction)
  /-- "Car %d Coming from the %c direction blew their horn" -/
  | horn (car : ℕ) (d : Direction)
  /-- "The flagperson is now awake" -/
  | awake
  /-- "Car %d Coming from the %c direction entered the construction zone" -/
  | entered (car : ℕ) (d : Direction)
  /-- "Car %d Coming from the %c direction left the construction zone" -/
  | left (car : ℕ) (d : Direction)
  /-- "The flagperson is now asleep" -/
  | asleep
  deriving DecidableEq

/-- The next thing a producer does. -/
inductive ProducerLine : Type where
  /-- `down(n_empty)` or `down(s_empty)` -/
  | downEmpty
  /-- `down(mutex)` -/
  | downMutex
  /-- `car = *n_prod` -/
  | take
  /-- `north_buf[*n_prod % BUFF_SIZE] = car` -/
  | store
  /-- `*n_prod = *n_prod + 1` -/
  | count
  /-- the line printed -/
  | arrive
  /-- `up(mutex)` -/
  | upMutex
  /-- `up(n_full)` or `up(s_full)` -/
  | upFull
  deriving DecidableEq

/-- The next thing the consumer does. The two halves of its loop are the same but
for the direction. -/
inductive ConsumerLine : Type where
  /-- `s_full->value < 10` in the guard of the loop for the north, and so on -/
  | guardOther (d : Direction)
  /-- `n_full->value > 0` there -/
  | guardOwn (d : Direction)
  /-- `down(n_full)` or `down(s_full)` -/
  | downFull (d : Direction)
  /-- `down(mutex)` -/
  | downMutex (d : Direction)
  /-- `car = *n_con` -/
  | take (d : Direction)
  /-- `*n_con = *n_con + 1` -/
  | count (d : Direction)
  /-- the test of `con_sleep` and the lines printed -/
  | enter (d : Direction)
  /-- the line printed after `sleep` -/
  | leave (d : Direction)
  /-- `up(mutex)` -/
  | upMutex (d : Direction)
  /-- `up(n_empty)` or `up(s_empty)` -/
  | upEmpty (d : Direction)
  /-- `n_full->value == 0`, after the loop for the direction -/
  | idleNorth (d : Direction)
  /-- `s_full->value == 0` -/
  | idleSouth (d : Direction)
  /-- the test of `con_sleep`, and what follows from it -/
  | idle (d : Direction)
  deriving DecidableEq

/-- What there is for each direction. -/
structure Lane : Type where
  /-- `north_buf` or `south_buf` -/
  buf : ℕ → ℕ
  /-- `*n_prod` or `*s_prod` -/
  prod : ℕ
  /-- `*n_con` or `*s_con` -/
  con : ℕ
  /-- where the producer is -/
  line : ProducerLine
  /-- its `car`, which it reads only after assigning it -/
  car : ℕ

/-- Everything but the semaphores. -/
structure Road : Type where
  /-- the two directions -/
  lane : Direction → Lane
  /-- where the consumer is -/
  line : ConsumerLine
  /-- its `car`, which it reads only after assigning it -/
  car : ℕ
  /-- its `con_sleep` -/
  conSleep : ℤ
  /-- the calls of `printf` since the first line of `main`, the latest call first -/
  output : List Line

/-- A process. -/
inductive Process : Type where
  /-- the first or the second child -/
  | producer (d : Direction)
  /-- the third child -/
  | consumer
  deriving DecidableEq

/-- After the forks. -/
def Road.init : Road where
  lane := fun _ => { buf := fun _ => 0, prod := 0, con := 0, line := .downEmpty, car := 0 }
  line := .guardOther .north
  car := 0
  conSleep := 1
  output := []

/-- What `main` sets the values to. -/
def initialValue : Sem → ℤ
  | .full _ => 0
  | .empty _ => buffSize
  | .mutex => 1

namespace Road

variable (r : Road)

/-- The same road with another lane for `d`. -/
def setLane (d : Direction) (x : Lane) : Road := { r with lane := Function.update r.lane d x }

/-- The semaphore call a process is at. -/
def call : Process → Option Call
  | .producer d =>
    match (r.lane d).line with
    | .downEmpty => some (.down (.empty d))
    | .downMutex => some (.down .mutex)
    | .upMutex => some (.up .mutex)
    | .upFull => some (.up (.full d))
    | _ => none
  | .consumer =>
    match r.line with
    | .downFull d => some (.down (.full d))
    | .downMutex _ => some (.down .mutex)
    | .upMutex _ => some (.up .mutex)
    | .upEmpty d => some (.up (.empty d))
    | _ => none

/-- Where a producer is after its semaphore call. -/
def produceNext (x : Lane) : Lane :=
  match x.line with
  | .downEmpty => { x with line := .downMutex }
  | .downMutex => { x with line := .take }
  | .upMutex => { x with line := .upFull }
  | .upFull => { x with line := .downEmpty }
  | _ => x

/-- A process goes on behind its semaphore call. -/
def next : Process → Road
  | .producer d => r.setLane d (produceNext (r.lane d))
  | .consumer =>
    match r.line with
    | .downFull d => { r with line := .downMutex d }
    | .downMutex d => { r with line := .take d }
    | .upMutex d => { r with line := .upEmpty d }
    | .upEmpty d => { r with line := .guardOther d }
    | _ => r

/-- What a producer does at a line that is no semaphore call. -/
def produce (d : Direction) : Road :=
  let x := r.lane d
  match x.line with
  | .take => r.setLane d { x with line := .store, car := x.prod }
  | .store =>
    r.setLane d { x with line := .count, buf := Function.update x.buf (x.prod % buffSize) x.car }
  | .count => r.setLane d { x with line := .arrive, prod := x.prod + 1 }
  | .arrive =>
    { r.setLane d { x with line := .upMutex } with output := .arrived x.car d :: r.output }
  | _ => r

/-- What the consumer prints when a car comes, the latest line first. -/
def entrance (d : Direction) : List Line :=
  if r.conSleep = 1 then [.entered r.car d, .awake, .horn r.car d] else [.entered r.car d]

/-- What the consumer does at a line that is no semaphore call. -/
def consume (value : Sem → ℤ) : Road :=
  match r.line with
  | .guardOther d =>
    { r with line := if value (.full d.other) < 10 then .guardOwn d else .idleNorth d }
  | .guardOwn d => { r with line := if value (.full d) > 0 then .downFull d else .idleNorth d }
  | .take d => { r with line := .count d, car := (r.lane d).con }
  | .count d =>
    { r.setLane d { r.lane d with con := (r.lane d).con + 1 } with line := .enter d }
  | .enter d =>
    { r with
      line := .leave d
      conSleep := if r.conSleep = 1 then 0 else r.conSleep
      output := r.entrance d ++ r.output }
  | .leave d => { r with line := .upMutex d, output := .left r.car d :: r.output }
  -- when a test fails the rest of the condition is not looked at
  | .idleNorth d =>
    { r with line := if value (.full .north) = 0 then .idleSouth d else .guardOther d.other }
  | .idleSouth d =>
    { r with line := if value (.full .south) = 0 then .idle d else .guardOther d.other }
  | .idle d =>
    if r.conSleep = 0 then
      { r with line := .guardOther d.other, conSleep := 1, output := .asleep :: r.output }
    else { r with line := .guardOther d.other }
  | _ => r

/-- What a process does at a line that is no semaphore call. -/
def act (value : Sem → ℤ) : Process → Road
  | .producer d => r.produce d
  | .consumer => r.consume value

end Road

/-! ## Atomic semaphores -/

/-- The road, and the values of the semaphores. -/
structure System : Type where
  /-- all the rest -/
  road : Road
  /-- the values -/
  value : Sem → ℤ

/-- After the forks. -/
def System.init : System := { road := .init, value := initialValue }

/-- The next step of a process, when it does not have to wait. -/
def step (s : System) (p : Process) : Option System :=
  match s.road.call p with
  | some (.down x) =>
    if 0 < s.value x then
      some { road := s.road.next p, value := Function.update s.value x (s.value x - 1) }
    else none
  | some (.up x) =>
    some { road := s.road.next p, value := Function.update s.value x (s.value x + 1) }
  | none => some { s with road := s.road.act s.value p }

end Csc452.Trafficsim
