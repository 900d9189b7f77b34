import Csc452.LinkedList
import Csc452.Runs
import Mathlib.Data.List.AList
import Mathlib.Algebra.Order.Ring.Int

/-!
# The kernel semaphore

`csc452_down` and `csc452_up` as the semaphore's `sys.c` has them, over the
tasks that use one semaphore.

Both calls hold `sem_lock` from their first line to their last look at the
semaphore, so a step of the system is one whole critical section. What happens
outside of it are steps of their own: a sleeping task is made runnable by a
signal, and a task that is runnable again returns from `schedule()`, and with
that from `csc452_down`.

The state keeps the fields of the semaphore as the code sees them, the nodes it
allocated, and on which side of which line every task is. What the code itself
does not count is there for the statements: how many calls have returned, and
which tasks are between their down and their up.
-/

namespace Csc452.Semaphore

open LinkedList (findLast)

/-- A kernel address; `0` is `NULL`. -/
abbrev Addr : Type := ℕ

/-- `NULL`. -/
def NULL : Addr := 0

/-- The largest `int`. -/
def intMax : ℤ := 2147483647

/-- The smallest `int`. -/
def intMin : ℤ := -2147483648

/-- The value of an `int` after an operation: the kernel is compiled so that it
wraps. -/
def toInt (z : ℤ) : ℤ := z.bmod (2 ^ 32)

/-- `process_queue`. -/
structure ProcessQueue (Task : Type) : Type where
  /-- the waiting task -/
  task : Task
  /-- the link -/
  next : Addr

/-- The allocated nodes. -/
abbrev Heap (Task : Type) : Type := AList fun _ : Addr => ProcessQueue Task

/-- The link of a node, when there is such a node. -/
def Heap.next {Task : Type} (heap : Heap Task) (a : Addr) : Option Addr :=
  (heap.lookup a).map ProcessQueue.next

/-- One semaphore and the tasks that use it. -/
structure System (Task : Type) : Type where
  /-- `sem->value` -/
  value : ℤ
  /-- `sem->process` -/
  process : Addr
  /-- the nodes allocated and not freed -/
  heap : Heap Task
  /-- a task died while it held `sem_lock` -/
  stuck : Bool
  /-- the tasks inside `csc452_down` in `TASK_INTERRUPTIBLE`, in the order in
  which they blocked -/
  asleep : List Task
  /-- the tasks inside `csc452_down` that are runnable again -/
  woken : List Task
  /-- the number of calls of `csc452_down` that have returned 0 -/
  returned : ℕ
  /-- the number of completed calls of `csc452_up` -/
  ups : ℕ
  /-- the tasks between their down and their up -/
  inside : List Task

/-- What can happen next. -/
inductive Action (Task : Type) : Type where
  /-- a task calls `csc452_down`; the outcome of `kmalloc`, should it be called -/
  | down (current : Task) (alloc : Option Addr)
  /-- a task calls `csc452_up` -/
  | up (current : Task)
  /-- a signal makes a sleeping task runnable -/
  | signal (task : Task)
  /-- `schedule()` returns in a task that is runnable -/
  | resume (task : Task)

variable {Task : Type}

/-- A semaphore with an empty queue, and no task near it. -/
def System.init (value : ℤ) : System Task where
  value := value
  process := NULL
  heap := ∅
  stuck := false
  asleep := []
  woken := []
  returned := 0
  ups := 0
  inside := []

/-- The insertion of `csc452_down` into the queue at `process`. For an empty queue
`head = newNode` sets the local copy of `sem->process` only. -/
def enqueue (heap : Heap Task) (process newNode : Addr) : Option (Heap Task) :=
  if process = NULL then some heap
  else do
    let temp ← findLast (Heap.next heap) NULL heap.keys.length process
    let last ← heap.lookup temp
    some (heap.insert temp { last with next := newNode })

/-- `csc452_down` up to `schedule()`, or to its end when it does not block. -/
def csc452Down (s : System Task) (current : Task) (alloc : Option Addr) : Option (System Task) :=
  let s : System Task := { s with value := toInt (s.value - 1) }
  if s.value < 0 then
    match alloc with
    -- `newNode->task = current` comes before the test for `NULL`
    | none => some { s with stuck := true }
    | some newNode => do
      let heap ← enqueue (s.heap.insert newNode { task := current, next := NULL }) s.process newNode
      some { s with heap := heap, asleep := s.asleep ++ [current] }
  else
    some { s with returned := s.returned + 1, inside := current :: s.inside }

variable [DecidableEq Task]

/-- `wake_up_process`, which does nothing to a task that is not asleep. -/
def System.wakeUpProcess (s : System Task) (task : Task) : System Task :=
  if task ∈ s.asleep then { s with asleep := s.asleep.erase task, woken := task :: s.woken } else s

/-- `csc452_up`. -/
def csc452Up (s : System Task) (current : Task) : Option (System Task) := do
  let s : System Task := { s with value := toInt (s.value + 1) }
  let s ←
    if s.value ≤ 0 then
      if s.process ≠ NULL then do
        let head ← s.heap.lookup s.process
        let s : System Task := { s with process := head.next, heap := s.heap.erase s.process }
        some (s.wakeUpProcess head.task)
      -- `kfree(NULL)` does nothing
      else some s
    else some s
  some { s with ups := s.ups + 1, inside := s.inside.erase current }

/-- A task that is neither in a call nor kept out of it by the lock. -/
def System.CanCall (s : System Task) (task : Task) : Prop :=
  s.stuck = false ∧ task ∉ s.asleep ∧ task ∉ s.woken

instance (s : System Task) (task : Task) : Decidable (s.CanCall task) :=
  inferInstanceAs (Decidable (_ ∧ _ ∧ _))

/-- `kmalloc` returns memory that is not in use. -/
def System.Fresh (s : System Task) (alloc : Option Addr) : Prop :=
  ∀ a ∈ alloc, a ≠ NULL ∧ a ∉ s.heap

instance (s : System Task) (alloc : Option Addr) : Decidable (s.Fresh alloc) :=
  match alloc with
  | none => isTrue fun _ ha => by cases ha
  | some a =>
    decidable_of_iff (a ≠ NULL ∧ a ∉ s.heap)
      ⟨fun h _ ha => Option.some.inj ha ▸ h, fun h => h a rfl⟩

/-- One step; `none` when the action is not possible. -/
def step (s : System Task) : Action Task → Option (System Task)
  | .down current alloc =>
    if s.CanCall current ∧ s.Fresh alloc then csc452Down s current alloc else none
  | .up current => if s.CanCall current then csc452Up s current else none
  | .signal task => if task ∈ s.asleep then some (s.wakeUpProcess task) else none
  | .resume task =>
    if task ∈ s.woken then
      some { s with
        woken := s.woken.erase task
        returned := s.returned + 1
        inside := task :: s.inside }
    else none

end Csc452.Semaphore
