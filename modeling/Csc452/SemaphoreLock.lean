import Csc452.SemaphoreResults

/-!
# The lock of the semaphores

There is one `sem_lock` for all semaphores. `Semaphore` takes the critical section of
a call for one step; here a call is looked at more closely, as what it does with the
lock on the way (`events`), and the semaphores share the lock (`Kernel`).

The calls are clean but for one: `csc452_down` that needs a node and does not get the
memory. It has taken its unit by then, and it stores through the null pointer before it
looks at it, so it never gives the lock back (`clean_iff`). The queues can have any
shape, as long as they end (`Queued`).

The events are no second account of the calls: what they say is what `csc452_down` and
`csc452_up` do to the semaphore (`step_tells`), and the lock is held for good exactly when
a task has died (`Kernel.held_iff`).
-/

namespace Csc452.Semaphore

open LinkedList (Chain linkOf_insert_self linkOf_insert_ne linkOf_erase_ne)
open Runs

/-! ## Calls and the lock -/

/-- What a call does that others can see. -/
inductive Event : Type where
  /-- `mutex_lock(&sem_lock)` -/
  | lock
  /-- `mutex_unlock(&sem_lock)` -/
  | unlock
  /-- `schedule()`, in `TASK_INTERRUPTIBLE` -/
  | sleep
  /-- the call returns -/
  | returns (value : ℤ)
  /-- a store through `NULL`, which kills the task -/
  | fault
deriving DecidableEq

/-- The call returns or sleeps. -/
def Event.Leaves : Event → Prop
  | .sleep | .returns _ => True
  | .lock | .unlock | .fault => False

variable {Task : Type}

/-- The way of `csc452_down` to `schedule()`, or to its end. -/
def downEvents (s : System Task) (alloc : Option Addr) : List Event :=
  if toInt (s.value - 1) < 0 then
    match alloc with
    -- the test for `NULL`, with its `return -1`, comes after `newNode->task = current`
    | none => [.lock, .fault]
    | some _ => [.lock, .unlock, .sleep]
  else [.lock, .unlock, .returns 0]

/-- The way of `csc452_up`. -/
def upEvents : List Event := [.lock, .unlock, .returns 0]

/-- What an action does. -/
def events (s : System Task) : Action Task → List Event
  | .down _ alloc => downEvents s alloc
  | .up _ => upEvents
  | .signal _ => []
  | .resume _ => [.returns 0]

/-- The task that acts, or that a signal reaches. -/
def Action.task : Action Task → Task
  | .down current _ => current
  | .up current => current
  | .signal task => task
  | .resume task => task

/-- The action is a call. -/
def Action.IsCall : Action Task → Prop
  | .down _ _ | .up _ => True
  | .signal _ | .resume _ => False

/-- The outcome of `kmalloc`, should it be called, is one there can be. -/
def Action.FreshIn (s : System Task) : Action Task → Prop
  | .down _ alloc => s.Fresh alloc
  | _ => True

/-- The call is a down that asks for memory and does not get it. -/
def AllocFails (s : System Task) : Action Task → Prop
  | .down _ none => toInt (s.value - 1) < 0
  | _ => False

/-- The task is in `schedule()`. -/
def System.Waits (s : System Task) (task : Task) : Prop := task ∈ s.asleep ∨ task ∈ s.woken

/-- Who holds the lock after what an action does. -/
def holderAfter (a : Action Task) (es : List Event) (holder : Option Task) : Option Task :=
  es.foldl (fun holder e =>
    match e with
    | .lock => some a.task
    | .unlock => none
    | .sleep | .returns _ | .fault => holder) holder

/-- The semaphores there are, and the task that holds `sem_lock`. -/
structure Kernel (Task : Type) : Type where
  /-- the semaphores -/
  sems : List (System Task)
  /-- the holder of the lock -/
  holder : Option Task

/-- A kernel in which nothing has happened. -/
def Kernel.init (values : List ℤ) : Kernel Task := ⟨values.map System.init, none⟩

/-- A call needs the lock, and a task that is not in a call already. -/
def Kernel.Permits (K : Kernel Task) : Action Task → Prop
  | .down current _ | .up current => K.holder = none ∧ ∀ s ∈ K.sems, ¬ s.Waits current
  | .signal _ | .resume _ => True

variable [DecidableEq Task]

instance (s : System Task) (task : Task) : Decidable (s.Waits task) :=
  inferInstanceAs (Decidable (_ ∨ _))

instance (K : Kernel Task) (a : Action Task) : Decidable (K.Permits a) :=
  match a with
  | .down _ _ | .up _ => inferInstanceAs (Decidable (_ ∧ _))
  | .signal _ | .resume _ => isTrue trivial

/-- One step, on the semaphore with the given index. -/
def Kernel.step (K : Kernel Task) (e : ℕ × Action Task) : Option (Kernel Task) :=
  if K.Permits e.2 then do
    let s ← K.sems[e.1]?
    let t ← Semaphore.step s e.2
    some { sems := K.sems.set e.1 t, holder := holderAfter e.2 (events s e.2) K.holder }
  else none

/-! ## The statements -/

/-- The lock is released once, and before the call returns or sleeps. -/
def ReleasesOnce (es : List Event) : Prop :=
  ∃ before after, es = before ++ .unlock :: after ∧ .unlock ∉ before ∧ .unlock ∉ after ∧
    (∀ e ∈ before, ¬ e.Leaves) ∧ ∃ e ∈ after, e.Leaves

/-- What is to be said of the call `a` on the semaphore `s`, with the index `k`. -/
structure Clean (K : Kernel Task) (k : ℕ) (s : System Task) (a : Action Task) : Prop where
  /-- the lock is released -/
  releases : ReleasesOnce (events s a)
  /-- without memory the call returns an error -/
  fails : AllocFails s a → ∃ z < 0, .returns z ∈ events s a
  /-- and leaves the value and the queue as they were -/
  unchanged : AllocFails s a → ∀ t, step s a = some t →
    t.value = s.value ∧ t.process = s.process ∧ t.heap = s.heap
  /-- the call can be made, and the calls of others after it, on any semaphore -/
  proceeds : ∃ K', K.step (k, a) = some K' ∧ ∀ j t b, K'.sems[j]? = some t → b.IsCall →
    b.task ≠ a.task → (∀ s ∈ K.sems, ¬ s.Waits b.task) → b.FreshIn t →
      (K'.step (j, b)).isSome

/-- In a kernel, the calls that are clean are all but those that get no memory. -/
def CleanIff (K : Kernel Task) : Prop :=
  ∀ k s a, K.sems[k]? = some s → a.IsCall → K.Permits a → a.FreshIn s →
    (Clean K k s a ↔ ¬ AllocFails s a)

/-! ## Queues that end -/

/-- The queue is a list of allocated nodes. -/
def Queued (s : System Task) : Prop := ∃ as, Chain (Heap.next s.heap) NULL s.process as

section heap

omit [DecidableEq Task]

variable {heap : Heap Task} {a b process : Addr} {node : ProcessQueue Task}

@[simp] theorem Heap.next_insert_self : Heap.next (heap.insert a node) a = some node.next :=
  linkOf_insert_self

theorem Heap.next_insert_ne (h : b ≠ a) : Heap.next (heap.insert a node) b = Heap.next heap b :=
  linkOf_insert_ne h

theorem Heap.next_erase_ne (h : b ≠ a) : Heap.next (heap.erase a) b = Heap.next heap b :=
  linkOf_erase_ne h

theorem Heap.lookup_of_next {q : Addr} (h : Heap.next heap a = some q) :
    ∃ node, heap.lookup a = some node ∧ node.next = q :=
  Option.map_eq_some_iff.mp h

/-- A new node can be put behind the last one. Behind an empty queue it gets lost. -/
theorem enqueue_spec {as : List Addr} (task : Task) (h : Chain (Heap.next heap) NULL process as)
    (ha : a ≠ NULL) (hnew : a ∉ heap) :
    ∃ heap', enqueue (heap.insert a ⟨task, NULL⟩) process a = some heap' ∧
      ∃ bs, Chain (Heap.next heap') NULL process bs := by
  have hne : ∀ b ∈ as, b ≠ a := by
    rintro b hb rfl
    exact hnew (Chain.mem_heap h hb)
  have h' : Chain (Heap.next (heap.insert a ⟨task, NULL⟩)) NULL process as :=
    h.congr fun b hb => Heap.next_insert_ne (hne b hb)
  rw [enqueue]
  split
  · exact ⟨_, rfl, as, h'⟩
  · next hprocess =>
    obtain ⟨z, hz⟩ : ∃ z, as.getLast? = some z := by
      obtain ⟨q, bs, rfl, -, -⟩ := h.eq_cons_of_ne hprocess
      exact ⟨_, List.getLast?_cons⟩
    have hmem := List.mem_of_getLast? hz
    have hwalk := LinkedList.findLast_eq h' hz (Chain.length_le_keys h')
    obtain ⟨q, hq⟩ := Option.isSome_iff_exists.mp (h'.live hmem)
    obtain ⟨last, hlast, -⟩ := Heap.lookup_of_next hq
    refine ⟨_, by rw [hwalk, Option.bind_eq_bind, Option.bind_some, hlast]; rfl, as ++ [a],
      h'.snoc hz ha ?_ ?_ ?_⟩
    · rw [Heap.next_insert_ne (hne z hmem).symm, Heap.next_insert_self]
    · exact Heap.next_insert_self
    · exact fun b hb hbz => Heap.next_insert_ne hbz

end heap

variable {s t : System Task} {a : Action Task} {current : Task}

omit [DecidableEq Task] in
theorem Queued.init (value : ℤ) : Queued (System.init value : System Task) := ⟨[], Chain.nil⟩

/-! ## What a call does to its semaphore -/

/-- A semaphore after an action: the queue still ends, the lock is only lost for want of
memory, and nobody but the task that acts begins to wait. -/
structure Follows (s : System Task) (a : Action Task) (t : System Task) : Prop where
  /-- the queue -/
  queued : Queued t
  /-- a task that died -/
  stuck : t.stuck = true → s.stuck = true ∨ AllocFails s a
  /-- the tasks in `schedule()` -/
  waits : ∀ x, t.Waits x → s.Waits x ∨ x = a.task

omit [DecidableEq Task] in
theorem csc452Down_follows (current : Task) {alloc : Option Addr} (h : Queued s) (hfresh : s.Fresh alloc) :
    ∃ t, csc452Down s current alloc = some t ∧ Follows s (.down current alloc) t := by
  obtain ⟨as, has⟩ := h
  simp only [csc452Down]
  split
  · next hneg =>
    cases alloc with
    | none => exact ⟨_, rfl, ⟨as, has⟩, fun _ => .inr hneg, fun _ hx => .inl hx⟩
    | some a =>
      obtain ⟨ha, hnew⟩ := hfresh a rfl
      obtain ⟨heap, henqueue, hqueued⟩ := enqueue_spec current has ha hnew
      refine ⟨{ s with value := toInt (s.value - 1), heap := heap, asleep := s.asleep ++ [current] },
        by simp only [henqueue]; rfl, hqueued, fun hstuck => .inl hstuck, fun x hx => ?_⟩
      rcases hx with hx | hx
      · rcases List.mem_append.mp hx with hx | hx
        · exact .inl (.inl hx)
        · exact .inr (List.mem_singleton.mp hx)
      · exact .inl (.inr hx)
  · exact ⟨_, rfl, ⟨as, has⟩, fun hstuck => .inl hstuck, fun _ hx => .inl hx⟩

theorem System.wakeUpProcess_waits (s : System Task) (task : Task) :
    ∀ x, (s.wakeUpProcess task).Waits x → s.Waits x := by
  intro x hx
  rw [System.wakeUpProcess] at hx
  split at hx
  · next hmem =>
    rcases hx with hx | hx
    · exact .inl (List.mem_of_mem_erase hx)
    · rcases List.mem_cons.mp hx with rfl | hx
      · exact .inl hmem
      · exact .inr hx
  · exact hx

theorem System.wakeUpProcess_frame (s : System Task) (task : Task) :
    (s.wakeUpProcess task).process = s.process ∧ (s.wakeUpProcess task).heap = s.heap ∧
      (s.wakeUpProcess task).stuck = s.stuck := by
  rw [System.wakeUpProcess]
  split <;> exact ⟨rfl, rfl, rfl⟩

theorem csc452Up_follows (current : Task) (h : Queued s) :
    ∃ t, csc452Up s current = some t ∧ Follows s (.up current) t := by
  obtain ⟨as, has⟩ := h
  simp only [csc452Up]
  split
  · split
    · next hqueue =>
      -- the first node is taken out of the queue
      obtain ⟨q, bs, rfl, hq, hbs⟩ := has.eq_cons_of_ne hqueue
      obtain ⟨head, hhead, rfl⟩ := Heap.lookup_of_next hq
      have hnodup := List.nodup_cons.mp has.nodup
      have hrest : Chain (Heap.next (s.heap.erase s.process)) NULL head.next bs :=
        hbs.congr fun b hb => Heap.next_erase_ne fun heq => hnodup.1 (heq ▸ hb)
      let s' : System Task :=
        { s with value := toInt (s.value + 1), process := head.next,
                 heap := s.heap.erase s.process }
      obtain ⟨hprocess, hheap, hstuck⟩ := s'.wakeUpProcess_frame head.task
      refine ⟨{ s'.wakeUpProcess head.task with
          ups := (s'.wakeUpProcess head.task).ups + 1
          inside := (s'.wakeUpProcess head.task).inside.erase current },
        by simp only [hhead]; rfl, ⟨bs, ?_⟩, fun h => .inl (hstuck ▸ h), fun x hx =>
        .inl (s'.wakeUpProcess_waits head.task x hx)⟩
      simp only [hprocess, hheap]
      exact hrest
    · exact ⟨_, rfl, ⟨as, has⟩, fun hstuck => .inl hstuck, fun _ hx => .inl hx⟩
  · exact ⟨_, rfl, ⟨as, has⟩, fun hstuck => .inl hstuck, fun _ hx => .inl hx⟩

/-- A call that can be made has an outcome. -/
theorem Queued.call (h : Queued s) (hcall : a.IsCall) (hcan : s.CanCall a.task)
    (hfresh : a.FreshIn s) : ∃ t, step s a = some t ∧ Follows s a t := by
  cases a with
  | down current alloc =>
    obtain ⟨t, ht, hfollows⟩ := csc452Down_follows current h hfresh
    exact ⟨t, (if_pos ⟨hcan, hfresh⟩).trans ht, hfollows⟩
  | up current =>
    obtain ⟨t, ht, hfollows⟩ := csc452Up_follows current h
    exact ⟨t, (if_pos hcan).trans ht, hfollows⟩
  | signal task => exact hcall.elim
  | resume task => exact hcall.elim

/-- One step. -/
theorem Queued.step (h : Queued s) (hstep : step s a = some t) : Follows s a t := by
  cases a with
  | down current alloc =>
    rw [Semaphore.step] at hstep
    split at hstep
    · next hcan =>
      obtain ⟨t', ht', hfollows⟩ := csc452Down_follows current h hcan.2
      obtain rfl := Option.some.inj (hstep.symm.trans ht')
      exact hfollows
    · cases hstep
  | up current =>
    rw [Semaphore.step] at hstep
    split at hstep
    · obtain ⟨t', ht', hfollows⟩ := csc452Up_follows current h
      obtain rfl := Option.some.inj (hstep.symm.trans ht')
      exact hfollows
    · cases hstep
  | signal task =>
    rw [Semaphore.step] at hstep
    split at hstep
    · obtain rfl := Option.some.inj hstep
      obtain ⟨hprocess, hheap, hstuck⟩ := s.wakeUpProcess_frame task
      refine ⟨?_, fun h => .inl (hstuck ▸ h), fun x hx => .inl (s.wakeUpProcess_waits task x hx)⟩
      rw [Queued, hprocess, hheap]
      exact h
    · cases hstep
  | resume task =>
    rw [Semaphore.step] at hstep
    split at hstep
    · obtain rfl := Option.some.inj hstep
      refine ⟨h, fun hstuck => .inl hstuck, fun x hx => .inl ?_⟩
      exact hx.imp_right List.mem_of_mem_erase
    · cases hstep

/-! ## What a call does with the lock -/

omit [DecidableEq Task] in
/-- A call that gets its memory locks, unlocks and leaves. -/
theorem events_eq (hcall : a.IsCall) (h : ¬ AllocFails s a) :
    ∃ e : Event, e.Leaves ∧ events s a = [.lock, .unlock, e] := by
  cases a with
  | down current alloc =>
    simp only [events, downEvents]
    split
    · next hneg =>
      cases alloc with
      | none => exact absurd hneg h
      | some newNode => exact ⟨.sleep, trivial, rfl⟩
    · exact ⟨.returns 0, trivial, rfl⟩
  | up current => exact ⟨.returns 0, trivial, rfl⟩
  | signal task => exact hcall.elim
  | resume task => exact hcall.elim

omit [DecidableEq Task] in
/-- One that does not get it keeps the lock. -/
theorem events_of_allocFails (h : AllocFails s a) : events s a = [.lock, .fault] := by
  match a, h with
  | .down current none, h => exact if_pos h

section holder

omit [DecidableEq Task]

variable {holder : Option Task}

/-- After a clean call the lock is free. -/
theorem holderAfter_of_isCall (hcall : a.IsCall) (hfails : ¬ AllocFails s a) :
    holderAfter a (events s a) holder = none := by
  obtain ⟨e, he, heq⟩ := events_eq hcall hfails
  rw [heq]
  cases e with
  | sleep => rfl
  | returns value => rfl
  | lock => exact he.elim
  | unlock => exact he.elim
  | fault => exact he.elim

/-- After the other one the task has it that died. -/
theorem holderAfter_of_allocFails (h : AllocFails s a) :
    holderAfter a (events s a) holder = some a.task := by
  rw [events_of_allocFails h]
  rfl

/-- What is not a call leaves it alone. -/
theorem holderAfter_of_not_isCall (hcall : ¬ a.IsCall) :
    holderAfter a (events s a) holder = holder := by
  cases a with
  | down current alloc => exact absurd trivial hcall
  | up current => exact absurd trivial hcall
  | signal task => rfl
  | resume task => rfl

end holder

/-! ## What the events tell -/

/-- The events of an action tell what it does to its semaphore. -/
structure Tells (s : System Task) (a : Action Task) (t : System Task) : Prop where
  /-- a call returns, and is counted -/
  returns : .returns 0 ∈ events s a ↔ t.returned + t.ups = s.returned + s.ups + 1
  /-- the task goes to sleep -/
  sleeps : .sleep ∈ events s a ↔ t.asleep = s.asleep ++ [a.task]
  /-- a task has died -/
  faults : t.stuck = true ↔ s.stuck = true ∨ .fault ∈ events s a

omit [DecidableEq Task] in
theorem csc452Down_tells {alloc : Option Addr} (h : csc452Down s current alloc = some t) :
    Tells s (.down current alloc) t := by
  simp only [csc452Down] at h
  split at h
  · next hneg =>
    cases alloc with
    | none =>
      obtain rfl := Option.some.inj h
      have hevents : events s (.down current none) = [.lock, .fault] := if_pos hneg
      exact ⟨by simp [hevents], by simp [hevents], by simp [hevents]⟩
    | some newNode =>
      obtain ⟨heap, -, heq⟩ := Option.bind_eq_some_iff.mp h
      obtain rfl := Option.some.inj heq
      have hevents : events s (.down current (some newNode)) = [.lock, .unlock, .sleep] := if_pos hneg
      exact ⟨by simp [hevents], by simp [hevents, Action.task], by simp [hevents]⟩
  · next hpos =>
    obtain rfl := Option.some.inj h
    have hevents : events s (.down current alloc) = [.lock, .unlock, .returns 0] := if_neg hpos
    exact ⟨by simp [hevents, Nat.add_right_comm], by simp [hevents], by simp [hevents]⟩

/-- A task that is woken does not sleep any more. -/
theorem System.wakeUpProcess_asleep_ne (s : System Task) (task current : Task) :
    (s.wakeUpProcess task).asleep ≠ s.asleep ++ [current] := by
  intro heq
  have hlen := congrArg List.length heq
  rw [List.length_append, List.length_singleton, System.wakeUpProcess] at hlen
  split at hlen
  · exact absurd (hlen ▸ List.length_erase_le) (Nat.not_succ_le_self _)
  · exact absurd hlen (Nat.ne_add_one _)

theorem csc452Up_tells (h : csc452Up s current = some t) : Tells s (.up current) t := by
  -- an up in an empty queue, or with nobody to wake
  have hquiet : ∀ t : System Task, t.returned = s.returned → t.ups = s.ups + 1 →
      t.asleep ≠ s.asleep ++ [current] → t.stuck = s.stuck → Tells s (.up current) t :=
    fun t hreturned hups hasleep hstuck =>
      ⟨by simp [events, upEvents, hreturned, hups, Nat.add_assoc],
        by simp [events, upEvents, Action.task, hasleep], by simp [events, upEvents, hstuck]⟩
  have hne : s.asleep ≠ s.asleep ++ [current] := by simp
  simp only [csc452Up] at h
  split at h
  · split at h
    · obtain ⟨head, -, heq⟩ := Option.bind_eq_some_iff.mp h
      obtain rfl := Option.some.inj heq
      let s' : System Task :=
        { s with value := toInt (s.value + 1), process := head.next, heap := s.heap.erase s.process }
      obtain ⟨-, hreturned, hups, -⟩ := s'.wakeUpProcess_spec head.task
      obtain ⟨-, -, hstuck⟩ := s'.wakeUpProcess_frame head.task
      exact hquiet _ hreturned (congrArg (· + 1) hups) (s'.wakeUpProcess_asleep_ne head.task current)
        hstuck
    · obtain rfl := Option.some.inj h
      exact hquiet _ rfl rfl hne rfl
  · obtain rfl := Option.some.inj h
    exact hquiet _ rfl rfl hne rfl

/-- The events of every step tell what the step does. -/
theorem step_tells (hstep : step s a = some t) : Tells s a t := by
  cases a with
  | down current alloc =>
    rw [step] at hstep
    split at hstep
    · exact csc452Down_tells hstep
    · cases hstep
  | up current =>
    rw [step] at hstep
    split at hstep
    · exact csc452Up_tells hstep
    · cases hstep
  | signal task =>
    rw [step] at hstep
    split at hstep
    · obtain rfl := Option.some.inj hstep
      obtain ⟨-, hreturned, hups, -⟩ := s.wakeUpProcess_spec task
      obtain ⟨-, -, hstuck⟩ := s.wakeUpProcess_frame task
      exact ⟨by simp [events, hreturned, hups],
        by simp [events, Action.task, s.wakeUpProcess_asleep_ne task task], by simp [events, hstuck]⟩
    · cases hstep
  | resume task =>
    rw [step] at hstep
    split at hstep
    · obtain rfl := Option.some.inj hstep
      exact ⟨by simp [events, Nat.add_right_comm], by simp [events, Action.task], by simp [events]⟩
    · cases hstep

omit [DecidableEq Task] in
/-- The call that dies is the one that asks for memory in vain. -/
theorem fault_mem_events_iff : .fault ∈ events s a ↔ AllocFails s a := by
  cases a with
  | down current alloc =>
    by_cases hneg : toInt (s.value - 1) < 0
    · cases alloc <;> simp [events, downEvents, AllocFails, hneg]
    · cases alloc <;> simp [events, downEvents, AllocFails, hneg]
  | up current => simp [events, upEvents, AllocFails]
  | signal task => simp [events, AllocFails]
  | resume task => simp [events, AllocFails]

/-- A task has died on a semaphore if one had before, or if the action is that call. -/
theorem stuck_iff (hstep : step s a = some t) :
    t.stuck = true ↔ s.stuck = true ∨ AllocFails s a :=
  (step_tells hstep).faults.trans (or_congr_right fault_mem_events_iff)

/-- The queues end, and when the lock is free no task has died with it. -/
def Kernel.Sound (K : Kernel Task) : Prop :=
  ∀ s ∈ K.sems, Queued s ∧ (s.stuck = true → K.holder ≠ none)

omit [DecidableEq Task] in
theorem Kernel.init_sound (values : List ℤ) : (Kernel.init values : Kernel Task).Sound := by
  intro s hs
  obtain ⟨value, -, rfl⟩ := List.mem_map.mp hs
  exact ⟨Queued.init value, fun hstuck => absurd hstuck Bool.false_ne_true⟩

namespace Kernel

variable {K K' : Kernel Task} {k : ℕ}

/-- What a step of the kernel is. -/
theorem step_eq_some {e : ℕ × Action Task} (h : K.step e = some K') :
    K.Permits e.2 ∧ ∃ s t, K.sems[e.1]? = some s ∧ Semaphore.step s e.2 = some t ∧
      K' = ⟨K.sems.set e.1 t, holderAfter e.2 (events s e.2) K.holder⟩ := by
  rw [step] at h
  split at h
  · next hpermits =>
    obtain ⟨s, hs, h⟩ := Option.bind_eq_some_iff.mp h
    obtain ⟨t, ht, h⟩ := Option.bind_eq_some_iff.mp h
    exact ⟨hpermits, s, t, hs, ht, (Option.some.inj h).symm⟩
  · cases h

omit [DecidableEq Task] in
theorem Permits.free (h : K.Permits a) (hcall : a.IsCall) :
    K.holder = none ∧ ∀ s ∈ K.sems, ¬ s.Waits a.task := by
  cases a with
  | down current alloc => exact h
  | up current => exact h
  | signal task => exact hcall.elim
  | resume task => exact hcall.elim

omit [DecidableEq Task] in
theorem permits_of_call (hcall : a.IsCall) (hfree : K.holder = none)
    (hwaits : ∀ s ∈ K.sems, ¬ s.Waits a.task) : K.Permits a := by
  cases a with
  | down current alloc => exact ⟨hfree, hwaits⟩
  | up current => exact ⟨hfree, hwaits⟩
  | signal task => exact hcall.elim
  | resume task => exact hcall.elim

/-- A call that is permitted has an outcome. -/
theorem Sound.call (h : K.Sound) (hk : K.sems[k]? = some s) (hcall : a.IsCall)
    (hpermits : K.Permits a) (hfresh : a.FreshIn s) :
    ∃ t, Follows s a t ∧ K.step (k, a) =
      some ⟨K.sems.set k t, holderAfter a (events s a) K.holder⟩ := by
  obtain ⟨hfree, hwaits⟩ := hpermits.free hcall
  have hs := List.mem_of_getElem? hk
  obtain ⟨hqueued, hstuck⟩ := h s hs
  have hcan : s.CanCall a.task := by
    refine ⟨?_, fun hmem => hwaits s hs (.inl hmem), fun hmem => hwaits s hs (.inr hmem)⟩
    cases hstuck' : s.stuck with
    | false => rfl
    | true => exact absurd hfree (hstuck hstuck')
  obtain ⟨t, ht, hfollows⟩ := hqueued.call hcall hcan hfresh
  refine ⟨t, hfollows, ?_⟩
  rw [step, if_pos hpermits]
  simp only [hk, ht, Option.bind_eq_bind, Option.bind_some]

/-- One step keeps it so. -/
theorem Sound.step {e : ℕ × Action Task} (h : K.Sound) (hstep : K.step e = some K') : K'.Sound := by
  obtain ⟨k, a⟩ := e
  obtain ⟨hpermits, s, t, hk, ht, rfl⟩ := step_eq_some hstep
  have hs := List.mem_of_getElem? hk
  obtain ⟨hqueued, hstuck, -⟩ := (h s hs).1.step ht
  -- a task has died in a call now, or there was no call
  have hheld : ∀ s' ∈ K.sems, s'.stuck = true → holderAfter a (events s a) K.holder ≠ none := by
    intro s' hs' hstuck'
    have hholder := (h s' hs').2 hstuck'
    by_cases hcall : a.IsCall
    · exact absurd (hpermits.free hcall).1 hholder
    · rwa [holderAfter_of_not_isCall hcall]
  intro s' hs'
  rcases List.mem_or_eq_of_mem_set hs' with hmem | rfl
  · exact ⟨(h s' hmem).1, hheld s' hmem⟩
  · refine ⟨hqueued, fun hstuck' => ?_⟩
    rcases hstuck hstuck' with hold | hfails
    · exact hheld s hs hold
    · simp only [holderAfter_of_allocFails hfails]
      exact Option.some_ne_none _

/-- After a call that is clean, others can make theirs. -/
theorem Sound.proceeds (h : K.Sound) (hk : K.sems[k]? = some s) (hcall : a.IsCall)
    (hpermits : K.Permits a) (hfresh : a.FreshIn s) (hfails : ¬ AllocFails s a) :
    ∃ K', K.step (k, a) = some K' ∧ ∀ j t b, K'.sems[j]? = some t → b.IsCall → b.task ≠ a.task →
      (∀ s ∈ K.sems, ¬ s.Waits b.task) → b.FreshIn t → (K'.step (j, b)).isSome := by
  obtain ⟨t, hfollows, hstep⟩ := h.call hk hcall hpermits hfresh
  refine ⟨_, hstep, fun j t' b hj hcall' hother hwaits hfresh' => ?_⟩
  have hpermits' : Permits ⟨K.sems.set k t, holderAfter a (events s a) K.holder⟩ b := by
    refine permits_of_call hcall' (holderAfter_of_isCall hcall hfails) fun s' hs' hw => ?_
    rcases List.mem_or_eq_of_mem_set hs' with hmem | rfl
    · exact hwaits s' hmem hw
    · rcases hfollows.waits _ hw with hw | heq
      · exact hwaits s (List.mem_of_getElem? hk) hw
      · exact hother heq
  obtain ⟨t'', -, hstep'⟩ := (h.step hstep).call hj hcall' hpermits' hfresh'
  rw [hstep']
  rfl

/-- In a kernel like that, the calls that are clean are all but those that get no memory. -/
theorem Sound.cleanIff (h : K.Sound) : CleanIff K := by
  intro k s a hk hcall hpermits hfresh
  constructor
  · intro hclean hfails
    obtain ⟨before, after, heq, -⟩ := hclean.releases
    rw [events_of_allocFails hfails] at heq
    have hmem : Event.unlock ∈ [Event.lock, Event.fault] := by
      rw [heq]
      exact List.mem_append_right _ List.mem_cons_self
    exact absurd hmem (by decide)
  · intro hfails
    obtain ⟨e, he, heq⟩ := events_eq hcall hfails
    have hne : Event.unlock ∉ [e] := by
      rintro hmem
      rw [← List.mem_singleton.mp hmem] at he
      exact he
    refine ⟨⟨[.lock], [e], heq, by decide, hne, ?_, e, List.mem_singleton_self e, he⟩,
      fun h => absurd h hfails, fun h => absurd h hfails,
      h.proceeds hk hcall hpermits hfresh hfails⟩
    intro e' he'
    rw [List.mem_singleton.mp he']
    exact id

end Kernel

/-! ## Runs -/

/-- **The lock is lost** in a state of a run exactly when a task has died on one of the
semaphores. -/
theorem Kernel.held_iff (values : List ℤ) (actions : List (ℕ × Action Task)) :
    Always Kernel.step (fun K => K.holder ≠ none ↔ ∃ s ∈ K.sems, s.stuck = true)
      (Kernel.init values) actions := by
  refine Guarded.trivial.always ?_ fun K e K' hK _ hstep => ?_
  · refine iff_of_false (fun h => h rfl) ?_
    rintro ⟨s, hs, hstuck⟩
    obtain ⟨value, -, rfl⟩ := List.mem_map.mp hs
    exact Bool.false_ne_true hstuck
  obtain ⟨k, a⟩ := e
  obtain ⟨hpermits, s, t, hk, ht, rfl⟩ := step_eq_some hstep
  obtain ⟨hlt, hs⟩ := List.getElem?_eq_some_iff.mp hk
  by_cases hfails : AllocFails s a
  · refine iff_of_true ?_ ⟨t, List.mem_set hlt t, (stuck_iff ht).mpr (.inr hfails)⟩
    simp only [holderAfter_of_allocFails hfails]
    exact Option.some_ne_none _
  · -- nothing changes: the lock is free before a call, and after it
    have hholder : holderAfter a (events s a) K.holder = K.holder := by
      by_cases hcall : a.IsCall
      · rw [holderAfter_of_isCall hcall hfails, (hpermits.free hcall).1]
      · exact holderAfter_of_not_isCall hcall
    have hstuck : t.stuck = s.stuck :=
      Bool.eq_iff_iff.mpr ((stuck_iff ht).trans (or_iff_left hfails))
    have hstucks : (K.sems.set k t).map System.stuck = K.sems.map System.stuck := by
      subst hs
      rw [List.map_set, hstuck, ← List.getElem_map System.stuck (h := by simpa using hlt),
        List.set_getElem_self]
    simp only [hholder, ← List.mem_map, hstucks]
    exact hK.trans List.mem_map.symm

/-- **The lock is released.** In every state of a run of the kernel, a call of
`csc452_down` or `csc452_up` that can be made releases the lock once before it returns
or sleeps, fails cleanly and lets others proceed, if and only if it is not a down that
asks for memory in vain. The queues the run starts with are arbitrary, as long as they end
(`Kernel.Sound`): without the end a search for the last node would not return. -/
theorem clean_iff {K : Kernel Task} (h : K.Sound) (actions : List (ℕ × Action Task)) :
    Always Kernel.step CleanIff K actions := by
  have hsound : Always Kernel.step Kernel.Sound K actions :=
    Guarded.trivial.always h fun _ _ _ hs _ hstep => hs.step hstep
  exact hsound.mono fun _ hs => hs.cleanIff

/-- Two semaphores: one task takes the first, another sleeps on the second. -/
theorem clean_iff_two :
    Always Kernel.step CleanIff (Kernel.init [1, 0]) [(0, .down 7 none), (1, .down (8 : ℕ) (some 4))] :=
  clean_iff (Kernel.init_sound _) _

/-- A task that would have to sleep gets no memory. It has lowered the value and keeps
the lock, and no call can be made any more, on any semaphore. -/
theorem failed_alloc_keeps_lock :
    let K : Kernel ℕ := Kernel.init [0, 1]
    ¬ Clean K 0 (System.init 0) (.down 7 none) ∧
      ∃ K' s, K.step (0, .down 7 none) = some K' ∧ K'.holder = some 7 ∧ K'.sems[0]? = some s ∧
        s.value = -1 ∧ ∀ k current alloc, K'.step (k, .down current alloc) = none ∧
          K'.step (k, .up current) = none := by
  intro K
  refine ⟨fun hclean => ?_, _, _, rfl, rfl, rfl, rfl, fun k current alloc => ⟨?_, ?_⟩⟩
  · obtain ⟨z, -, hmem⟩ := hclean.fails (show toInt (0 - 1) < 0 by decide)
    simp [events, downEvents, System.init, toInt, Int.bmod] at hmem
  · exact if_neg fun hpermits => absurd hpermits.1 (Option.some_ne_none _)
  · exact if_neg fun hpermits => absurd hpermits.1 (Option.some_ne_none _)

end Csc452.Semaphore
