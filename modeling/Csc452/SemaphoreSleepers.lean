import Csc452.SemaphoreLock
import Csc452.Simulation

/-!
# The tasks that sleep

With an empty queue `csc452_down` puts its new node into a local copy of
`sem->process`. The queue of a semaphore is empty to begin with, so it stays empty, and
`csc452_up` finds nobody in it: a task that went to sleep is there until a signal takes
it out, and its node is never freed (`sleepers_stay`).
-/

namespace Csc452.Semaphore

open Runs

variable {Task : Type} [DecidableEq Task] {s t : System Task} {a : Action Task}

/-- The action is a down that goes to sleep. -/
def Blocks (s : System Task) : Action Task → Prop
  | .down _ alloc => alloc.isSome ∧ toInt (s.value - 1) < 0
  | _ => False

/-- The action is a signal. -/
def Action.IsSignal : Action Task → Prop
  | .signal _ => True
  | _ => False

/-- The action is the return of a task that was asleep. -/
def Action.IsResume : Action Task → Prop
  | .resume _ => True
  | _ => False

instance (s : System Task) (a : Action Task) : Decidable (Blocks s a) :=
  match a with
  | .down _ _ => inferInstanceAs (Decidable (_ ∧ _))
  | .up _ | .signal _ | .resume _ => isFalse id

instance (a : Action Task) : Decidable a.IsSignal :=
  match a with
  | .signal _ => isTrue trivial
  | .down _ _ | .up _ | .resume _ => isFalse id

instance (a : Action Task) : Decidable a.IsResume :=
  match a with
  | .resume _ => isTrue trivial
  | .down _ _ | .up _ | .signal _ => isFalse id

/-- The tasks whose nodes are allocated. -/
def System.owners (s : System Task) : List Task := s.heap.entries.map fun e => e.2.task

/-- What an action makes of a semaphore with an empty queue. -/
inductive Leads (s : System Task) : Action Task → System Task → Prop where
  /-- a unit is taken -/
  | takes {current : Task} {alloc : Option Addr} (h : 0 ≤ toInt (s.value - 1)) :
    Leads s (.down current alloc)
      { s with value := toInt (s.value - 1), returned := s.returned + 1,
               inside := current :: s.inside }
  /-- there is no memory for a node -/
  | dies {current : Task} (h : toInt (s.value - 1) < 0) :
    Leads s (.down current none) { s with value := toInt (s.value - 1), stuck := true }
  /-- the task goes to sleep, with a node of its own -/
  | sleeps {current : Task} {newNode : Addr} (h : toInt (s.value - 1) < 0) (hnew : newNode ∉ s.heap) :
    Leads s (.down current (some newNode))
      { s with value := toInt (s.value - 1)
               heap := s.heap.insert newNode { task := current, next := NULL }
               asleep := s.asleep ++ [current] }
  /-- a unit is given back, and nobody wakes up -/
  | gives {current : Task} :
    Leads s (.up current)
      { s with value := toInt (s.value + 1), ups := s.ups + 1, inside := s.inside.erase current }
  /-- a signal -/
  | signalled {task : Task} (h : task ∈ s.asleep) :
    Leads s (.signal task) { s with asleep := s.asleep.erase task, woken := task :: s.woken }
  /-- the return from `schedule()` -/
  | resumes {task : Task} (h : task ∈ s.woken) :
    Leads s (.resume task)
      { s with woken := s.woken.erase task, returned := s.returned + 1, inside := task :: s.inside }

/-- What a step does. -/
theorem leads_of_step (hs : s.process = NULL) (hstep : step s a = some t) : Leads s a t := by
  cases a with
  | down current alloc =>
    rw [step] at hstep
    split at hstep
    · next hcan =>
      by_cases hneg : toInt (s.value - 1) < 0
      · cases alloc with
        | none =>
          simp only [csc452Down, if_pos hneg] at hstep
          obtain rfl := Option.some.inj hstep
          exact .dies hneg
        | some newNode =>
          simp only [csc452Down, if_pos hneg, enqueue, if_pos hs, Option.bind_eq_bind,
            Option.bind_some] at hstep
          obtain rfl := Option.some.inj hstep
          exact .sleeps hneg (hcan.2 newNode rfl).2
      · simp only [csc452Down, if_neg hneg] at hstep
        obtain rfl := Option.some.inj hstep
        exact .takes (not_lt.mp hneg)
    · cases hstep
  | up current =>
    rw [step] at hstep
    split at hstep
    · rcases csc452Up_cases hstep with rfl | ⟨hqueue, -⟩
      · exact .gives
      · exact absurd hs hqueue
    · cases hstep
  | signal task =>
    rw [step] at hstep
    split at hstep
    · next hmem =>
      rw [System.wakeUpProcess, if_pos hmem] at hstep
      obtain rfl := Option.some.inj hstep
      exact .signalled hmem
    · cases hstep
  | resume task =>
    rw [step] at hstep
    split at hstep
    · next hmem =>
      obtain rfl := Option.some.inj hstep
      exact .resumes hmem
    · cases hstep

namespace Leads

variable {p : Task → Prop} [DecidablePred p]

/-- The queue stays empty. -/
theorem process (h : Leads s a t) : t.process = s.process := by
  cases h <;> rfl

/-- There is a new node for each task that goes to sleep, and none is freed. -/
theorem owners (h : Leads s a t) : t.owners.countP p =
    s.owners.countP p + if Blocks s a ∧ p a.task then 1 else 0 := by
  cases h with
  | sleeps h hnew =>
    rw [System.owners, AList.entries_insert_of_notMem hnew, List.map_cons, List.countP_cons]
    simp [System.owners, Blocks, Action.task, h]
  | takes h => simp [System.owners, Blocks, not_lt.mpr h]
  | dies h => simp [System.owners, Blocks]
  | gives => simp [System.owners, Blocks]
  | signalled h => simp [System.owners, Blocks]
  | resumes h => simp [System.owners, Blocks]

/-- A task that sleeps is there until a signal comes to it. -/
theorem asleep (h : Leads s a t) : t.asleep.countP p + (if a.IsSignal ∧ p a.task then 1 else 0) =
    s.asleep.countP p + if Blocks s a ∧ p a.task then 1 else 0 := by
  cases h with
  | takes h => simp [Blocks, Action.IsSignal, not_lt.mpr h]
  | dies h => simp [Blocks, Action.IsSignal]
  | sleeps h hnew => simp [Blocks, Action.IsSignal, Action.task, h, List.countP_cons]
  | gives => simp [Blocks, Action.IsSignal]
  | signalled h =>
    rw [(List.perm_cons_erase h).countP_eq, List.countP_cons]
    simp [Blocks, Action.IsSignal, Action.task]
  | resumes h => simp [Blocks, Action.IsSignal]

/-- A task that is runnable again is one that a signal has reached. -/
theorem woken (h : Leads s a t) : t.woken.countP p + (if a.IsResume ∧ p a.task then 1 else 0) =
    s.woken.countP p + if a.IsSignal ∧ p a.task then 1 else 0 := by
  cases h with
  | signalled h => simp [Action.IsSignal, Action.IsResume, Action.task, List.countP_cons]
  | resumes h =>
    rw [(List.perm_cons_erase h).countP_eq, List.countP_cons]
    simp [Action.IsSignal, Action.IsResume, Action.task]
  | takes h => simp [Action.IsSignal, Action.IsResume]
  | dies h => simp [Action.IsSignal, Action.IsResume]
  | sleeps h hnew => simp [Action.IsSignal, Action.IsResume]
  | gives => simp [Action.IsSignal, Action.IsResume]

/-- Nobody but the task that acts begins to wait. -/
theorem waits (h : Leads s a t) {x : Task} (hx : t.Waits x) : s.Waits x ∨ x = a.task := by
  cases h with
  | takes h => exact .inl hx
  | dies h => exact .inl hx
  | gives => exact .inl hx
  | sleeps h hnew =>
    rcases hx with hx | hx
    · exact (List.mem_append.mp hx).imp .inl List.mem_singleton.mp
    · exact .inl (.inr hx)
  | signalled h =>
    rcases hx with hx | hx
    · exact .inl (.inl (List.mem_of_mem_erase hx))
    · exact (List.mem_cons.mp hx).symm.imp_left .inr
  | resumes h => exact .inl (hx.imp_right List.mem_of_mem_erase)

/-- A task waits once. -/
theorem nodup (h : Leads s a t) (hcall : a.IsCall → ¬ s.Waits a.task)
    (hs : (s.asleep ++ s.woken).Nodup) : (t.asleep ++ t.woken).Nodup := by
  cases h with
  | takes h => exact hs
  | dies h => exact hs
  | gives => exact hs
  | @sleeps current newNode h hnew =>
    have hnew : current ∉ s.asleep ++ s.woken := fun hmem =>
      hcall trivial (List.mem_append.mp hmem)
    refine (List.Perm.nodup_iff ?_).mp (List.nodup_cons.mpr ⟨hnew, hs⟩)
    rw [List.append_assoc]
    exact List.perm_middle.symm
  | @signalled task h =>
    refine (List.Perm.nodup_iff ?_).mp hs
    exact ((List.perm_cons_erase h).append_right _).trans List.perm_middle.symm
  | resumes h => exact hs.sublist (List.erase_sublist.append_left _)

/-- Whoever sleeps goes on sleeping, unless it is a signal to him. -/
theorem mem_asleep (h : Leads s a t) {task : Task} (ha : a.IsSignal → a.task ≠ task)
    (hmem : task ∈ s.asleep) : task ∈ t.asleep := by
  cases h with
  | signalled h => exact (List.mem_erase_of_ne (ha trivial).symm).mpr hmem
  | sleeps h hnew => exact List.mem_append_left _ hmem
  | takes h => exact hmem
  | dies h => exact hmem
  | gives => exact hmem
  | resumes h => exact hmem

/-- A task that has returned does not wait. -/
theorem not_waits_of_resume {task : Task} (h : Leads s (.resume task) t)
    (hs : (s.asleep ++ s.woken).Nodup) : ¬ t.Waits task := by
  cases h with
  | resumes h =>
    obtain ⟨-, hwoken, hdisjoint⟩ := List.nodup_append.mp hs
    rintro (hmem | hmem)
    · exact hdisjoint task hmem task h rfl
    · exact hwoken.not_mem_erase hmem

end Leads

/-- A queue that is empty stays empty. -/
theorem process_step (s : System Task) (a : Action Task) (t : System Task) (hs : s.process = NULL)
    (hstep : step s a = some t) : t.process = NULL :=
  (leads_of_step hs hstep).process.trans hs

/-- Nodes, sleepers and runnable tasks, of the tasks of any kind. -/
theorem sleepers_of (v : ℤ) {as : List (Action Task)} (h : run step (System.init v) as = some t)
    (p : Task → Prop) [DecidablePred p] :
    t.owners.countP p = count step (fun s a => Blocks s a ∧ p a.task) (System.init v) as ∧
      t.asleep.countP p + count step (fun _ a => a.IsSignal ∧ p a.task) (System.init v) as =
        count step (fun s a => Blocks s a ∧ p a.task) (System.init v) as ∧
      t.woken.countP p + count step (fun _ a => a.IsResume ∧ p a.task) (System.init v) as =
        count step (fun _ a => a.IsSignal ∧ p a.task) (System.init v) as := by
  have hinit : (System.init v : System Task).process = NULL := rfl
  have hnodes := add_count (f := fun s : System Task => s.owners.countP p)
    (C := fun s a => Blocks s a ∧ p a.task) (D := fun _ _ => False) hinit process_step
    (fun s a t hs hstep => by simpa using (leads_of_step hs hstep).owners) h
  have hasleep := add_count (f := fun s : System Task => s.asleep.countP p) hinit process_step
    (fun s a t hs hstep => (leads_of_step hs hstep).asleep) h
  have hwoken := add_count (f := fun s : System Task => s.woken.countP p) hinit process_step
    (fun s a t hs hstep => (leads_of_step hs hstep).woken) h
  rw [count_false, Nat.add_zero] at hnodes
  refine ⟨hnodes.trans ?_, hasleep.trans ?_, hwoken.trans ?_⟩
  all_goals exact Nat.zero_add _

/-- **Whoever sleeps is forgotten.** In every run from an empty queue, whatever the value to
begin with, the outcomes of `kmalloc` and the signals: the queue is still empty, the nodes
of all tasks that went to sleep are still allocated, a task is asleep as often as it went to
sleep and no signal took it out, and only after a signal has it returned from there or will.
The first three counts are about all tasks together, the others about each. -/
theorem sleepers_stay (v : ℤ) {as : List (Action Task)} (h : run step (System.init v) as = some t) :
    t.process = NULL ∧
      t.heap.keys.length = count step Blocks (System.init v) as ∧
      t.asleep.length + count step (fun _ a => a.IsSignal) (System.init v) as =
        count step Blocks (System.init v) as ∧
      t.woken.length + count step (fun _ a => a.IsResume) (System.init v) as =
        count step (fun _ a => a.IsSignal) (System.init v) as ∧
      ∀ x,
        t.owners.count x = count step (fun s a => Blocks s a ∧ a.task = x) (System.init v) as ∧
        t.asleep.count x + count step (fun _ a => a.IsSignal ∧ a.task = x) (System.init v) as =
          count step (fun s a => Blocks s a ∧ a.task = x) (System.init v) as ∧
        t.woken.count x + count step (fun _ a => a.IsResume ∧ a.task = x) (System.init v) as =
          count step (fun _ a => a.IsSignal ∧ a.task = x) (System.init v) as := by
  have hprocess : t.process = NULL :=
    Reaches.invariant (P := fun s => s.process = NULL) ⟨as, h⟩ rfl process_step
  obtain ⟨hnodes, hasleep, hwoken⟩ := sleepers_of v h fun _ => True
  refine ⟨hprocess, ?_, ?_, ?_, fun x => sleepers_of v h (· = x)⟩
  · simpa [System.owners, AList.keys, List.keys] using hnodes
  · simpa using hasleep
  · simpa using hwoken

/-- A semaphore of value 1, and three more tasks that go to sleep on it. The up of the first
one leaves them and their nodes where they are, and a signal takes one of them out. -/
theorem sleepers_stay_mutex :
    let as : List (Action ℕ) := [.down 7 none, .down 8 (some 4), .down 9 (some 6), .up 7,
      .down 10 (some 12), .signal 9, .resume 9]
    ∃ t, run step (System.init 1) as = some t ∧ t.process = NULL ∧ t.heap.keys.length = 3 ∧
      t.asleep.count 8 = 1 ∧ t.asleep.count 9 = 0 ∧ t.owners.count 9 = 1 := by
  intro as
  obtain ⟨t, ht⟩ : ∃ t, run step (System.init 1) as = some t := ⟨_, rfl⟩
  obtain ⟨hprocess, hheap, -, -, htasks⟩ := sleepers_stay 1 ht
  obtain ⟨-, hasleep₈, -⟩ := htasks 8
  obtain ⟨hnode₉, hasleep₉, -⟩ := htasks 9
  exact ⟨t, ht, hprocess, hheap.trans (by decide), hasleep₈.trans (by decide),
    Nat.add_right_cancel (hasleep₉.trans (by decide)), hnode₉.trans (by decide)⟩

end Csc452.Semaphore
