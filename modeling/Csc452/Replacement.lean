import Csc452.PageTable
import Mathlib.Data.List.Basic

/-!
# The replacement loops of `vmsim.java`

`opt`, `fifo`, `clock` and `rand` are four copies of one loop. The copies agree
on everything but what they keep beside the page table and how they pick the
frame of a fault in a full memory, so the loop is written once, over an
`Algorithm`, and each of the four is the record of what its copy does
differently. Where Java throws (`poll` of an empty queue, an array index out of
range, a missing map entry, `nextInt(0)`), the model returns `none`.

The counters are natural numbers: they count references, and a trace that
overflows a Java `int` would need more than `2 ^ 31` of them.

`ram` is the `int[]` of length `numFrames` for `opt`, `clock` and `rand` and a
queue for `fifo`.
-/

namespace Csc452.Vmsim

/-- What the loop prints about a reference. -/
inductive Event : Type where
  /-- ` (hit)` -/
  | hit
  /-- ` (page fault - no eviction)` -/
  | noEviction
  /-- ` (page fault - evict dirty)` or ` (page fault - evict clean)`, and the
  page that was evicted -/
  | evict (victim : Page) (dirty : Bool)
  deriving DecidableEq

/-- What one of the four copies of the loop does in its own way, over its own
data `R`. -/
structure Algorithm (R : Type) : Type where
  /-- what a hit does to the entry -/
  hit : PageTableEntry → PageTableEntry
  /-- pick `indexEvict` in a full memory; the scan may clear reference bits -/
  choose : PageTable → R → Option (Page × PageTable × R)
  /-- put the page into the slot just vacated, whose frame is given -/
  replace : Page → ℤ → R → Option R
  /-- put the page into a memory that is not full, given `pageSoFar` -/
  fill : Page → ℕ → R → Option R
  /-- the end of the loop body -/
  tick : R → R

/-- The variables of a run. -/
structure State (R : Type) : Type where
  /-- the page table -/
  pageTable : PageTable
  /-- the data of the algorithm, `ram` among it -/
  store : R
  /-- frames in use -/
  pageSoFar : ℕ
  /-- page faults -/
  pageFault : ℕ
  /-- pages written back to disk -/
  writeToDisk : ℕ
  /-- memory accesses -/
  memoryAccess : ℕ

variable {R : Type}

/-- The state in which `main` starts an algorithm. -/
def State.init (store : R) : State R :=
  { pageTable := .init, store := store, pageSoFar := 0, pageFault := 0, writeToDisk := 0,
    memoryAccess := 0 }

/-- The effect of the operation on the page and on `memoryAccess`. -/
def processOperation (s : State R) (t : Page) (operation : Operation) : State R :=
  let entry := s.pageTable t
  match operation with
  | .M => { s with
      pageTable := Function.update s.pageTable t { entry with dirty := true }
      memoryAccess := s.memoryAccess + 2 }
  | .S => { s with
      pageTable := Function.update s.pageTable t { entry with dirty := true }
      memoryAccess := s.memoryAccess + 1 }
  | _ => { s with memoryAccess := s.memoryAccess + 1 }

namespace Algorithm

variable (alg : Algorithm R) (numFrames : ℕ)

/-- The three branches of the loop body, up to the call of `processOperation`. -/
def access (s : State R) (t : Page) : Option (State R × Event) :=
  if (s.pageTable t).valid then
    some ({ s with pageTable := Function.update s.pageTable t (alg.hit (s.pageTable t)) }, .hit)
  else if numFrames ≤ s.pageSoFar then do
    let (indexEvict, pageTable, store) ← alg.choose s.pageTable s.store
    let dirty := (pageTable.load t (pageTable indexEvict).frame indexEvict).dirty
    let pageTable := pageTable.swap t indexEvict
    let store ← alg.replace t (pageTable t).frame store
    some ({ s with
      pageTable := pageTable
      store := store
      writeToDisk := s.writeToDisk + dirty.toNat
      pageFault := s.pageFault + 1 }, .evict indexEvict dirty)
  else do
    let store ← alg.fill t s.pageSoFar s.store
    some ({ s with
      pageTable := s.pageTable.load t s.pageSoFar
      store := store
      pageSoFar := s.pageSoFar + 1
      pageFault := s.pageFault + 1 }, .noEviction)

/-- One turn of the loop. -/
def body (s : State R) (r : Reference) : Option (State R × Event) := do
  let (s, e) ← alg.access numFrames s r.tableIndex
  let s := processOperation s r.tableIndex r.operation
  some ({ s with store := alg.tick s.store }, e)

/-- The loop, with the events in the order of the references. -/
def loop : State R → List Reference → Option (State R × List Event)
  | s, [] => some (s, [])
  | s, r :: rest => do
    let (s, e) ← alg.body numFrames s r
    let (s, es) ← loop s rest
    some (s, e :: es)

end Algorithm

/-! ## fifo -/

/-- `fifo` polls the queue of resident pages and adds every loaded page to it. -/
def fifo : Algorithm (List Page) where
  hit entry := entry
  choose pt ram :=
    match ram with
    | [] => none
    | indexEvict :: ram => some (indexEvict, pt, ram)
  replace t _ ram := some (ram ++ [t])
  fill t _ ram := some (ram ++ [t])
  tick ram := ram

/-- `ram[i] = t`, when `i` is an index of `ram`. -/
def store? (ram : List Page) (i : ℕ) (t : Page) : Option (List Page) :=
  if i < ram.length then some (ram.set i t) else none

/-- `new int[numFrames]`: every slot holds `0`. -/
def newRam (numFrames : ℕ) : List Page := List.replicate numFrames ⟨0, Nat.two_pow_pos _⟩

/-! ## clock -/

/-- The variables of `clock`. -/
structure Clock : Type where
  /-- the memory -/
  ram : List Page
  /-- the hand -/
  oldestIndex : ℕ

/-- `oldestIndex++`, back to `0` at the end of `ram`. -/
def advance (ram : List Page) (oldestIndex : ℕ) : ℕ :=
  if ram.length ≤ oldestIndex + 1 then 0 else oldestIndex + 1

/-- The second-chance loop: clear reference bits from the hand on until a page
without one is met. `fuel` bounds the turns of the loop. -/
def secondChance (ram : List Page) : ℕ → PageTable → ℕ → Option (Page × PageTable × ℕ)
  | 0, _, _ => none
  | fuel + 1, pt, oldestIndex => do
    let indexEvict ← ram[oldestIndex]?
    if (pt indexEvict).ref then
      secondChance ram fuel (Function.update pt indexEvict { pt indexEvict with ref := false })
        (advance ram oldestIndex)
    else
      some (indexEvict, pt, oldestIndex)

/-- `clock` gives a page hit a second chance. Every turn of its scan clears the
bit of a slot, so one turn more than there are slots is enough. -/
def clock : Algorithm Clock where
  hit entry := { entry with ref := true }
  choose pt c := do
    let (indexEvict, pt, oldestIndex) ←
      secondChance c.ram (c.ram.length + 1) pt c.oldestIndex
    some (indexEvict, pt, { c with oldestIndex := oldestIndex })
  replace t _ c := do
    let ram ← store? c.ram c.oldestIndex t
    some { ram := ram, oldestIndex := advance c.ram c.oldestIndex }
  fill t pageSoFar c := do
    let ram ← store? c.ram pageSoFar t
    some { c with ram := ram }
  tick c := c

/-! ## rand -/

/-- The variables of `rand`; the generator is the stream of its future draws. -/
structure Rand : Type where
  /-- the memory -/
  ram : List Page
  /-- the draws still to come -/
  random : ℕ → ℕ
  /-- the slot drawn last -/
  memoryToEvict : ℕ

/-- `rand` evicts the page in a slot drawn at random: `nextInt(ram.length)` is
the next draw modulo the bound, and throws when the bound is `0`. -/
def rand : Algorithm Rand where
  hit entry := entry
  choose pt g := do
    let memoryToEvict := g.random 0 % g.ram.length
    let indexEvict ← g.ram[memoryToEvict]?
    some (indexEvict, pt,
      { g with random := fun i => g.random (i + 1), memoryToEvict := memoryToEvict })
  replace t _ g := do
    let ram ← store? g.ram g.memoryToEvict t
    some { g with ram := ram }
  fill t pageSoFar g := do
    let ram ← store? g.ram pageSoFar t
    some { g with ram := ram }
  tick g := g

/-! ## opt -/

/-- A `TreeSet<Integer>`: its elements in ascending order. -/
structure TreeSet : Type where
  /-- the elements -/
  elems : List ℕ
  /-- ascending, hence without duplicates -/
  sorted : elems.Pairwise (· < ·)

namespace TreeSet

/-- `new TreeSet<Integer>()`. -/
def empty : TreeSet := ⟨[], List.Pairwise.nil⟩

/-- Insertion into an ascending list. -/
def addTo (c : ℕ) : List ℕ → List ℕ
  | [] => [c]
  | o :: occ => if c < o then c :: o :: occ else if c = o then o :: occ else o :: addTo c occ

theorem mem_addTo {c i : ℕ} {occ : List ℕ} : i ∈ addTo c occ ↔ i = c ∨ i ∈ occ := by
  induction occ with
  | nil => simp [addTo]
  | cons o occ ih =>
    rw [addTo]
    split
    · simp
    · split
      · rename_i _ h
        simp [h]
      · simp only [List.mem_cons, ih]
        tauto

theorem sorted_addTo {c : ℕ} {occ : List ℕ} (h : occ.Pairwise (· < ·)) :
    (addTo c occ).Pairwise (· < ·) := by
  induction occ with
  | nil => simp [addTo]
  | cons o occ ih =>
    rw [List.pairwise_cons] at h
    rw [addTo]
    split
    · rename_i hc
      refine List.pairwise_cons.mpr ⟨?_, List.pairwise_cons.mpr h⟩
      intro i hi
      rcases List.mem_cons.mp hi with hi | hi
      · omega
      · have := h.1 i hi
        omega
    · split
      · exact List.pairwise_cons.mpr h
      · refine List.pairwise_cons.mpr ⟨?_, ih h.2⟩
        intro i hi
        rcases mem_addTo.mp hi with hi | hi
        · omega
        · exact h.1 i hi

/-- `add(c)`. -/
def add (s : TreeSet) (c : ℕ) : TreeSet := ⟨addTo c s.elems, sorted_addTo s.sorted⟩

/-- The inner `while` of `opt`: `remove(first())` as long as the first element
is at most `commandNum`. -/
def prune (commandNum : ℕ) (s : TreeSet) : TreeSet :=
  ⟨s.elems.dropWhile fun o => o ≤ commandNum, s.sorted.sublist (List.dropWhile_sublist _)⟩

end TreeSet

/-- `HashMap<Integer, TreeSet<Integer>>`: for each page, the numbers of the
commands that reference it. -/
abbrev PageMap : Type := Page → Option TreeSet

/-- The variables of `opt`. -/
structure Opt : Type where
  /-- the memory -/
  ram : List Page
  /-- the occurrences of each page -/
  pageMap : PageMap
  /-- the number of the current command -/
  commandNum : ℕ

/-- The first pass of `opt` over the trace: number the commands and record the
occurrences of every page. -/
def readTrace : ℕ → PageMap → List Reference → PageMap
  | _, m, [] => m
  | commandNum, m, r :: rest =>
    let t := r.tableIndex
    let occ := (m t).getD .empty
    readTrace (commandNum + 1) (Function.update m t (some (occ.add commandNum))) rest

/-- The scan of `opt` over `ram` for the page farthest in the future. The
sentinel `-1` of `pageFarthest` is `none`, and `maximum` starts at `-1`. Both
early `break`s are kept: on an occurrence set that is already empty nothing is
chosen, on one that pruning empties the page itself is. -/
def findFarthest (commandNum : ℕ) :
    List Page → PageMap → Option Page → ℤ → Option (PageMap × Option Page)
  | [], m, pageFarthest, _ => some (m, pageFarthest)
  | page :: rest, m, pageFarthest, maximum => do
    let occ ← m page
    if occ.elems.isEmpty then
      some (m, pageFarthest)
    else
      let occ := occ.prune commandNum
      let m := Function.update m page (some occ)
      match occ.elems with
      | [] => some (m, some page)
      | nextOcc :: _ =>
        if maximum < nextOcc then
          findFarthest commandNum rest m (some page) nextOcc
        else
          findFarthest commandNum rest m pageFarthest maximum

/-- `ram[i] = t` for the frame of an entry, a negative one being out of range. -/
def storeFrame? (ram : List Page) (f : ℤ) (t : Page) : Option (List Page) :=
  match f with
  | .ofNat i => store? ram i t
  | .negSucc _ => none

/-- `opt` evicts the page that `findFarthest` finds, or the one in slot `0`
when it finds none. -/
def opt : Algorithm Opt where
  hit entry := { entry with ref := true }
  choose pt o := do
    let (m, pageFarthest) ← findFarthest o.commandNum o.ram o.pageMap none (-1)
    let o := { o with pageMap := m }
    match pageFarthest with
    | none => do
      let indexEvict ← o.ram[0]?
      some (indexEvict, pt, o)
    | some page => some (page, pt, o)
  replace t f o := do
    let ram ← storeFrame? o.ram f t
    some { o with ram := ram }
  fill t pageSoFar o := do
    let ram ← store? o.ram pageSoFar t
    some { o with ram := ram }
  tick o := { o with commandNum := o.commandNum + 1 }

/-! ## The runs -/

/-- `fifo` starts on an empty queue. -/
def fifoStart : State (List Page) := .init []

/-- `clock` starts with the hand at slot `0`. -/
def clockStart (numFrames : ℕ) : State Clock := .init { ram := newRam numFrames, oldestIndex := 0 }

/-- `rand` starts with a generator. -/
def randStart (numFrames : ℕ) (random : ℕ → ℕ) : State Rand :=
  .init { ram := newRam numFrames, random := random, memoryToEvict := 0 }

/-- `opt` starts its second pass with the occurrences the first one found. -/
def optStart (numFrames : ℕ) (trace : List Reference) : State Opt :=
  .init { ram := newRam numFrames, pageMap := readTrace 1 (fun _ => none) trace, commandNum := 1 }

end Csc452.Vmsim
