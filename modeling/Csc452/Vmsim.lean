import Csc452.TraceFile

/-!
# The program `vmsim`

`main` of `vmsim.java`: its arguments, the four algorithms on a trace file, what they print
as they go, and the report at the end. Three of them read the trace line by line, so that
what they have printed before an exception stays printed; `opt` reads all of it before it
prints anything.

The counters of the report are `int`s. They are counted as natural numbers, and wrapped
when they are printed. Memory that runs out is left aside, and so are digits that are not
ASCII ones: both the trace and the arguments are in ASCII.
-/

namespace Csc452.Vmsim

variable {R : Type}

/-! ## The lines that are printed -/

/-- What is printed after the line of a reference. -/
def Event.text : Event → String
  | .hit => " (hit)"
  | .noEviction => " (page fault - no eviction)"
  | .evict _ true => " (page fault - evict dirty)"
  | .evict _ false => " (page fault - evict clean)"

/-- What is printed about a command. -/
def Command.printed (c : Command) (e : Event) : String := String.ofList c.line ++ e.text

/-- The static counters. -/
structure Counters : Type where
  /-- memory accesses -/
  memoryAccess : ℕ
  /-- page faults -/
  pageFault : ℕ
  /-- pages written back to disk -/
  writeToDisk : ℕ
  deriving DecidableEq

/-- Those of a run. -/
def State.counters (s : State R) : Counters := ⟨s.memoryAccess, s.pageFault, s.writeToDisk⟩

/-! ## The algorithms on a file -/

namespace Algorithm

variable (alg : Algorithm R) (numFrames : ℕ)

/-- A turn of the loop, on a line that may not be a command. -/
def turn (s : State R) (command : Option Command) : Option (State R × String) := do
  let c ← command
  let r ← c.reference
  let (s, e) ← alg.body numFrames s r
  some (s, c.printed e)

/-- The loop, which prints as it goes. Without a state at the end there was an exception. -/
def serve : State R → List (Option Command) → List String × Option (State R)
  | s, [] => ([], some s)
  | s, command :: rest =>
    match alg.turn numFrames s command with
    | none => ([], none)
    | some (s, line) => (line :: (serve s rest).1, (serve s rest).2)

/-- What is printed, and the counters. -/
def run (start : State R) (commands : List (Option Command)) : List String × Option Counters :=
  let (printed, last) := alg.serve numFrames start commands
  (printed, last.map State.counters)

end Algorithm

/-- The first pass of `opt`. A page outside of the table has its occurrences recorded, too;
they are never looked up. -/
def readCommands : ℕ → PageMap → List Command → PageMap
  | _, m, [] => m
  | commandNum, m, c :: rest =>
    readCommands (commandNum + 1)
      (c.page?.elim m fun t =>
        Function.update m t (some (((m t).getD .empty).add commandNum))) rest

/-- The second pass starts with them. -/
def optStartOn (numFrames : ℕ) (commands : List Command) : State Opt :=
  .init
    { ram := newRam numFrames
      pageMap := readCommands 1 (fun _ => none) commands
      commandNum := 1 }

/-- The algorithms that there are. -/
inductive Policy : Type where
  /-- `opt` -/
  | opt
  /-- `clock` -/
  | clock
  /-- `rand` -/
  | rand
  /-- `fifo` -/
  | fifo
  deriving DecidableEq

/-- The argument that names it. -/
def Policy.name : Policy → String
  | .opt => "opt"
  | .clock => "clock"
  | .rand => "rand"
  | .fifo => "fifo"

/-- The `switch` of `main`. -/
def policy? (algorithm : String) : Option Policy :=
  if algorithm = "opt" then some .opt
  else if algorithm = "clock" then some .clock
  else if algorithm = "rand" then some .rand
  else if algorithm = "fifo" then some .fifo
  else none

/-- An algorithm on the lines that it looks at. -/
def Policy.run (numFrames : ℕ) (random : ℕ → ℕ) (lines : List Text) :
    Policy → List String × Option Counters
  | .opt =>
    match lines.mapM parseLine with
    | none => ([], none)
    | some commands =>
      Vmsim.opt.run numFrames (optStartOn numFrames commands) (commands.map some)
  | .clock => Vmsim.clock.run numFrames (clockStart numFrames) (lines.map parseLine)
  | .rand => Vmsim.rand.run numFrames (randStart numFrames random) (lines.map parseLine)
  | .fifo => Vmsim.fifo.run numFrames fifoStart (lines.map parseLine)

/-! ## The program -/

/-- How the program ends. -/
inductive Ending : Type where
  /-- `main` returns -/
  | returned
  /-- `System.exit(1)` -/
  | exited
  /-- with an exception -/
  | threw
  deriving DecidableEq

/-- What the program did. -/
structure Output : Type where
  /-- the lines it printed -/
  printed : List String
  /-- how it ended -/
  ending : Ending
  deriving DecidableEq

/-- The arguments. -/
structure Arguments : Type where
  /-- `args` -/
  args : List String
  /-- in ASCII -/
  ascii : ∀ arg ∈ args, ∀ c ∈ arg.toList, c.toNat < 128

/-- `invalidArgument` -/
def invalidArgument (args : List String) : Output :=
  { printed :=
      ["[" ++ ", ".intercalate args ++ "]",
        "vmsim -n <numframes> -a <opt|clock|fifo|rand> <tracefile>"]
    ending := .exited }

/-- The size of an entry of the page table. -/
def pageEntrySize : ℕ := 4

/-- An `int` that was counted up. -/
def counted (n : ℕ) : ℤ := (n : ℤ).bmod (2 ^ 32)

/-- The report. -/
def report (algorithm : String) (numFrames : ℕ) (c : Counters) : List String :=
  ["Algorithm: " ++ algorithm,
    "Number of frames: " ++ toString numFrames,
    "Total memory accesses: " ++ toString (counted c.memoryAccess),
    "Total page faults: " ++ toString (counted c.pageFault),
    "Total writes to disk: " ++ toString (counted c.writeToDisk),
    "Total size of page table: " ++ toString (tableSize * pageEntrySize) ++ " bytes"]

/-- `main` once the arguments have been looked at. -/
def simulate (algorithm : String) (policy : Policy) (numFrames : ℕ) (random : ℕ → ℕ)
    (file : TraceFile) : Output :=
  match policy.run numFrames random (commandLines file.text) with
  | (printed, none) => { printed := printed, ending := .threw }
  | (printed, some counters) =>
    { printed := printed ++ report algorithm numFrames counters, ending := .returned }

/-- `main`. A file that is not there leaves the algorithm without a scanner. -/
def main (args : Arguments) (files : String → Option TraceFile) (random : ℕ → ℕ) : Output :=
  match args.args with
  | [flag, n, flag', algorithm, path] =>
    if flag = "-n" ∧ flag' = "-a" then
      match parseNumber 10 (2 ^ 31) n.toList with
      | none => invalidArgument args.args
      | some numFrames =>
        if numFrames < 0 then { printed := [], ending := .threw }
        else
          match policy? algorithm, files path with
          | none, _ => invalidArgument args.args
          | some _, none => { printed := [], ending := .threw }
          | some policy, some file => simulate algorithm policy numFrames.toNat random file
    else invalidArgument args.args
  | _ => invalidArgument args.args

end Csc452.Vmsim
