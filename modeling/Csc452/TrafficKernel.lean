import Csc452.TrafficGridlock
import Csc452.SemaphoreLock
import Csc452.SemaphoreSleepers

/-!
# The traffic simulation on the kernel's semaphores

`trafficsim.c` calls `csc452_down` and `csc452_up`, which lose their sleepers. Here the
five semaphores are those of the kernel, at the places in `sem_ptr` that `main` gives
them (`Machine`), and the consumer looks at their `value` as the kernel has left it.

The wakeups that are lost stop processes, and do no other harm: as long as no signal
takes a process out of its sleep, the road is one that can be reached with atomic
semaphores (`kernel_refines`). A value is too small by the number of the sleepers, but
nobody sleeps on `full`, and the other values are not looked at.

Whoever sleeps never takes another step unless a signal comes to it, and whatever signals
there have been before (`sleeper_stays`).
-/

namespace Csc452.Trafficsim

open Prodcons (Direction)
open Runs (Reaches Guarded Always)
open Semaphore (Kernel Addr NULL toInt)

/-- Which of the semaphores at `sem_ptr` it is. -/
def Sem.index : Sem → ℕ
  | .full .north => 0
  | .empty .north => 1
  | .full .south => 2
  | .empty .south => 3
  | .mutex => 4

/-- The road, and the semaphores of the kernel. -/
structure Machine : Type where
  /-- all the rest -/
  road : Road
  /-- the semaphores -/
  kernel : Kernel Process

/-- What can happen next. -/
inductive Move : Type where
  /-- a process goes on; the outcome of `kmalloc`, should it be called -/
  | run (p : Process) (alloc : Option Addr)
  /-- a signal makes a sleeping process runnable -/
  | signal (p : Process)
  /-- `schedule()` returns in a process that is runnable, and with it its `down` -/
  | resume (p : Process)

/-- No signal. -/
def Move.Quiet : Move → Prop
  | .signal _ => False
  | _ => True

namespace Machine

/-- After the forks. -/
def init : Machine where
  road := .init
  kernel := Kernel.init [0, buffSize, 0, buffSize, 1]

variable (m : Machine)

/-- The `value` of a semaphore. -/
def value (x : Sem) : ℤ := m.kernel.sems[x.index]?.elim 0 Semaphore.System.value

/-- The next step. -/
def step : Move → Option Machine
  | .run p alloc =>
    match m.road.call p with
    | some (.down x) => do
      let sem ← m.kernel.sems[x.index]?
      let kernel ← m.kernel.step (x.index, .down p alloc)
      -- in a call that does not return the process stays where it is
      if .returns 0 ∈ Semaphore.events sem (.down p alloc) then
        some { road := m.road.next p, kernel := kernel }
      else some { m with kernel := kernel }
    | some (.up x) => do
      let kernel ← m.kernel.step (x.index, .up p)
      some { road := m.road.next p, kernel := kernel }
    | none => some { m with road := m.road.act m.value p }
  | .signal p =>
    match m.road.call p with
    | some (.down x) => do
      let kernel ← m.kernel.step (x.index, .signal p)
      some { m with kernel := kernel }
    | _ => none
  | .resume p =>
    match m.road.call p with
    | some (.down x) => do
      let kernel ← m.kernel.step (x.index, .resume p)
      some { road := m.road.next p, kernel := kernel }
    | _ => none

/-- The process sleeps in its `down` of `x`. -/
def Asleep (p : Process) (x : Sem) : Prop := ∃ sem, m.kernel.sems[x.index]? = some sem ∧ p ∈ sem.asleep

end Machine

/-! ## One semaphore -/

/-- The semaphore `sem` of the kernel stands for the atomic one `x` with the value `v`. -/
structure Stands (K : Kernel Process) (r : Road) (x : Sem) (v : ℤ) (sem : Semaphore.System Process) :
    Prop where
  /-- every sleeper has taken a unit that is not there, and so has one that died -/
  value : sem.value + sem.asleep.length + (if sem.stuck then 1 else 0) = v
  /-- nobody is in the queue -/
  process : sem.process = NULL
  /-- nobody has been woken -/
  woken : sem.woken = []
  /-- a process sleeps once -/
  nodup : sem.asleep.Nodup
  /-- and where it is -/
  waits : ∀ p ∈ sem.asleep, r.call p = some (.down x)
  /-- one that died holds the lock -/
  stuck : sem.stuck = true → K.holder ≠ none
  /-- nobody waits for a car -/
  full : ∀ d, x = .full d → sem.asleep = [] ∧ sem.stuck = false

/-- The machine is in the state `s`, but for those who sleep. -/
structure Refines (m : Machine) (s : System) : Prop where
  /-- the accounts -/
  sound : Sound s
  /-- the road -/
  road : m.road = s.road
  /-- the semaphores -/
  sem : ∀ x, ∃ sem, m.kernel.sems[x.index]? = some sem ∧
    Stands m.kernel m.road x (s.value x) sem

theorem Sem.index_injective : Function.Injective Sem.index := by
  intro x y h
  rcases x with (_ | _) | (_ | _) | _ <;> rcases y with (_ | _) | (_ | _) | _ <;> first
    | rfl
    | cases h

theorem Refines.init : Refines Machine.init System.init where
  sound := .init
  road := rfl
  sem x := by
    rcases x with (_ | _) | (_ | _) | _
    all_goals
      refine ⟨_, rfl, ⟨rfl, rfl, rfl, List.nodup_nil, fun p hp => ?_, fun h => ?_,
        fun d _ => ⟨rfl, rfl⟩⟩⟩
      · exact absurd hp List.not_mem_nil
      · exact absurd h Bool.false_ne_true

variable {m m' : Machine} {s t : System} {p : Process} {x : Sem}

/-! ### A step of another process -/

theorem Road.call_next_of_ne (r : Road) {q : Process} (h : q ≠ p) : (r.next p).call q = r.call q := by
  cases p with
  | producer d =>
    cases q with
    | producer d' =>
      have hd : d' ≠ d := fun heq => h (congrArg Process.producer heq)
      simp [call, next, setLane, hd]
    | consumer => rfl
  | consumer =>
    cases q with
    | producer d' =>
      simp only [next]
      split <;> rfl
    | consumer => exact absurd rfl h

theorem Road.call_act_of_ne (r : Road) (v : Sem → ℤ) {q : Process} (h : q ≠ p) :
    (r.act v p).call q = r.call q := by
  cases p with
  | producer d =>
    cases q with
    | producer d' =>
      have hd : d' ≠ d := fun heq => h (congrArg Process.producer heq)
      simp only [act, produce]
      split <;> simp [call, setLane, hd]
    | consumer =>
      simp only [act, produce]
      split <;> rfl
  | consumer =>
    cases q with
    | producer d' =>
      simp only [act, consume]
      split <;> first
        | rfl
        | skip
      · next d _ =>
        rcases eq_or_ne d' d with rfl | hd
        · simp [call, setLane]
        · simp [call, setLane, hd]
      · split <;> rfl
    | consumer => exact absurd rfl h

/-- The only values that a process looks at are those of `full`. -/
theorem Road.act_congr (r : Road) {v w : Sem → ℤ} (h : ∀ d, v (.full d) = w (.full d))
    (p : Process) : r.act v p = r.act w p := by
  cases p with
  | producer d => rfl
  | consumer => simp only [act, consume, h]

/-! ### A step of the machine -/

section stands

variable {K K' : Kernel Process} {r r' : Road} {v : ℤ} {sem : Semaphore.System Process}

/-- There are three processes. -/
theorem Stands.asleep_le (h : Stands K r x v sem) : sem.asleep.length ≤ 3 := by
  have hsub : sem.asleep ⊆ [.producer .north, .producer .south, .consumer] := by
    rintro ((_ | _) | _) - <;> decide
  exact (h.nodup.subperm hsub).length_le

/-- No value overflows. -/
theorem Stands.toInt_eq (h : Stands K r x v sem) (hv : 0 ≤ v ∧ v ≤ buffSize) :
    toInt (sem.value - 1) = sem.value - 1 ∧ toInt (sem.value + 1) = sem.value + 1 := by
  have hvalue := h.value
  have hasleep := h.asleep_le
  have hstuck : (if sem.stuck then 1 else 0 : ℤ) ≤ 1 := by split <;> decide
  have hstuck' : (0 : ℤ) ≤ if sem.stuck then 1 else 0 := by split <;> decide
  simp only [buffSize] at hv
  constructor <;> apply Semaphore.toInt_of_range <;>
    simp only [Semaphore.intMin, Semaphore.intMax] <;> omega

/-- A semaphore that another one's call leaves alone. -/
theorem Stands.other (h : Stands K r x v sem) (hstuck : sem.stuck = false)
    (hcall : ∀ q ∈ sem.asleep, r'.call q = r.call q) : Stands K' r' x v sem where
  value := h.value
  process := h.process
  woken := h.woken
  nodup := h.nodup
  waits q hq := (hcall q hq).trans (h.waits q hq)
  stuck hstuck' := absurd (hstuck.symm.trans hstuck') Bool.false_ne_true
  full := h.full

end stands

/-- A call of a process on `x`. -/
theorem Refines.of_call (h : Refines m s) (hfree : m.kernel.holder = none)
    {sem sem' : Semaphore.System Process} (hx : m.kernel.sems[x.index]? = some sem)
    (hsems : m'.kernel.sems = m.kernel.sems.set x.index sem') (ht : Sound t)
    (hroad : m'.road = t.road) (hvalue : ∀ y, y ≠ x → t.value y = s.value y)
    (hcall : ∀ q y, m.Asleep q y → m'.road.call q = m.road.call q)
    (hstands : Stands m'.kernel m'.road x (t.value x) sem') : Refines m' t where
  sound := ht
  road := hroad
  sem y := by
    rw [hsems]
    rcases eq_or_ne y x with rfl | hne
    · obtain ⟨hlt, -⟩ := List.getElem?_eq_some_iff.mp hx
      exact ⟨sem', List.getElem?_set_self hlt, hstands⟩
    · obtain ⟨σ, hσ, hy⟩ := h.sem y
      refine ⟨σ, (List.getElem?_set_ne fun heq => hne (Sem.index_injective heq).symm).trans hσ, ?_⟩
      rw [hvalue y hne]
      refine hy.other ?_ fun q hq => hcall q y ⟨σ, hσ, hq⟩
      cases hstuck : σ.stuck with
      | false => rfl
      | true => exact absurd hfree (hy.stuck hstuck)

/-- What there is to know of a call on `x` that can be made. -/
theorem Refines.permits (h : Refines m s) {a : Semaphore.Action Process} (hcall : a.IsCall)
    {K' : Kernel Process} (hstep : m.kernel.step (x.index, a) = some K') :
    ∃ sem sem', m.kernel.sems[x.index]? = some sem ∧
      Stands m.kernel m.road x (s.value x) sem ∧ Semaphore.Leads sem a sem' ∧ sem.stuck = false ∧
      m.kernel.holder = none ∧ (∀ q y, m.Asleep q y → q ≠ a.task) ∧
      K' = ⟨m.kernel.sems.set x.index sem',
        Semaphore.holderAfter a (Semaphore.events sem a) m.kernel.holder⟩ := by
  obtain ⟨hpermits, sem, sem', hsem, hsem', rfl⟩ := Kernel.step_eq_some hstep
  obtain ⟨hfree, hwaits⟩ := hpermits.free hcall
  obtain ⟨σ, hσ, hstands⟩ := h.sem x
  obtain rfl : sem = σ := Option.some.inj (hsem.symm.trans hσ)
  refine ⟨sem, sem', hsem, hstands, Semaphore.leads_of_step hstands.process hsem', ?_, hfree,
    fun q y hq heq => ?_, rfl⟩
  · cases hstuck : sem.stuck with
    | false => rfl
    | true => exact absurd hfree (hstands.stuck hstuck)
  · obtain ⟨σ, hσ, hmem⟩ := hq
    exact hwaits σ (List.mem_of_getElem? hσ) (Or.inl (heq ▸ hmem))

/-- A process at a `down`. Either it takes a unit there as well as here, or it is as if it
had not been called. -/
theorem Refines.down (h : Refines m s) {alloc : Option Addr} (hcall : m.road.call p = some (.down x))
    (hstep : m.step (.run p alloc) = some m') : ∃ t, Reaches step s t ∧ Refines m' t := by
  simp only [Machine.step, hcall] at hstep
  obtain ⟨σ, hσ, hstep⟩ := Option.bind_eq_some_iff.mp hstep
  obtain ⟨K', hkernel, hstep⟩ := Option.bind_eq_some_iff.mp hstep
  obtain ⟨sem, sem', hsem, hstands, hleads, hstuck, hfree, hothers, rfl⟩ :=
    h.permits (by trivial) hkernel
  obtain rfl : sem = σ := Option.some.inj (hsem.symm.trans hσ)
  have hrange := h.sound.sharedMemory.values x
  have hvalue := hstands.value
  have htoInt := (hstands.toInt_eq hrange).1
  rw [hstuck, if_neg Bool.false_ne_true, add_zero] at hvalue
  -- nobody sleeps on `full`
  have hfull : ∀ d, x = .full d → ¬ toInt (sem.value - 1) < 0 := by
    rintro d rfl hneg
    have hclaims : 0 < s.value (.full d) := by
      refine h.sound.claims d ?_
      rw [h.road] at hcall
      cases p with
      | producer d' => cases hline : (s.road.lane d').line <;> simp [Road.call, hline] at hcall
      | consumer => cases hline : s.road.line <;> simp [Road.call, hline] at hcall; rw [hcall]
    rw [(hstands.full d rfl).1, List.length_nil] at hvalue
    rw [htoInt] at hneg
    simp only [Nat.cast_zero] at hvalue
    linarith
  cases hleads with
  | takes hpos =>
    have hreturns : Semaphore.events sem (.down p alloc) = [.lock, .unlock, .returns 0] :=
      if_neg (not_lt.mpr hpos)
    rw [if_pos (by rw [hreturns]; decide)] at hstep
    obtain rfl := Option.some.inj hstep
    rw [htoInt] at hpos
    have hunit : 0 < s.value x := by linarith [Int.natCast_nonneg sem.asleep.length]
    have hideal := step_of_down (h.road ▸ hcall) hunit
    refine ⟨_, .of_step hideal, h.of_call hfree hsem rfl (h.sound.preserved hideal)
      (by rw [h.road]) (fun y hne => Function.update_of_ne hne _ _)
      (fun q y hq => Road.call_next_of_ne _ (hothers q y hq)) ?_⟩
    refine ⟨?_, hstands.process, hstands.woken, hstands.nodup, fun q hq => ?_, ?_, hstands.full⟩
    · simp only [hstuck, htoInt, Function.update_self, if_neg Bool.false_ne_true]
      linarith
    · exact (Road.call_next_of_ne _ (hothers q x ⟨sem, hsem, hq⟩)).trans (hstands.waits q hq)
    · exact fun hstuck' => absurd (hstuck.symm.trans hstuck') Bool.false_ne_true
  | dies hneg =>
    have hevents : Semaphore.events sem (.down p none) = [.lock, .fault] := if_pos hneg
    rw [if_neg (by rw [hevents]; decide)] at hstep
    obtain rfl := Option.some.inj hstep
    refine ⟨s, .refl s, h.of_call hfree hsem rfl h.sound h.road (fun _ _ => rfl)
      (fun _ _ _ => rfl) ?_⟩
    refine ⟨?_, hstands.process, hstands.woken, hstands.nodup, hstands.waits, fun _ => ?_,
      fun d hd => absurd hneg (hfull d hd)⟩
    · simp only [htoInt, if_pos]
      linarith
    · rw [hevents]
      exact Option.some_ne_none p
  | sleeps hneg hnew =>
    have hevents : ∀ a, Semaphore.events sem (.down p (some a)) = [.lock, .unlock, .sleep] :=
      fun _ => if_pos hneg
    rw [if_neg (by rw [hevents]; decide)] at hstep
    obtain rfl := Option.some.inj hstep
    refine ⟨s, .refl s, h.of_call hfree hsem rfl h.sound h.road (fun _ _ => rfl)
      (fun _ _ _ => rfl) ?_⟩
    refine ⟨?_, hstands.process, hstands.woken, ?_, fun q hq => ?_, fun hstuck' => ?_,
      fun d hd => absurd hneg (hfull d hd)⟩
    · simp only [htoInt, hstuck, List.length_append, List.length_singleton, Nat.cast_add,
        Nat.cast_one, if_neg Bool.false_ne_true]
      linarith
    · exact List.nodup_append.mpr ⟨hstands.nodup, List.nodup_singleton p, fun q hq q' hq' =>
        List.mem_singleton.mp hq' ▸ hothers q x ⟨sem, hsem, hq⟩⟩
    · rcases List.mem_append.mp hq with hq | hq
      · exact hstands.waits q hq
      · rw [List.mem_singleton.mp hq]
        exact hcall
    · exact absurd (hstuck.symm.trans hstuck') Bool.false_ne_true

/-- A process at an `up`. -/
theorem Refines.up (h : Refines m s) {alloc : Option Addr} (hcall : m.road.call p = some (.up x))
    (hstep : m.step (.run p alloc) = some m') : ∃ t, Reaches step s t ∧ Refines m' t := by
  simp only [Machine.step, hcall] at hstep
  obtain ⟨K', hkernel, hstep⟩ := Option.bind_eq_some_iff.mp hstep
  obtain rfl := Option.some.inj hstep
  obtain ⟨sem, sem', hsem, hstands, hleads, hstuck, hfree, hothers, rfl⟩ :=
    h.permits (by trivial) hkernel
  have hvalue := hstands.value
  have htoInt := (hstands.toInt_eq (h.sound.sharedMemory.values x)).2
  rw [hstuck, if_neg Bool.false_ne_true, add_zero] at hvalue
  have hideal := step_of_up (h.road ▸ hcall)
  cases hleads
  refine ⟨_, .of_step hideal, h.of_call hfree hsem rfl (h.sound.preserved hideal)
    (by rw [h.road]) (fun y hne => Function.update_of_ne hne _ _)
    (fun q y hq => Road.call_next_of_ne _ (hothers q y hq)) ?_⟩
  refine ⟨?_, hstands.process, hstands.woken, hstands.nodup, fun q hq => ?_, ?_, hstands.full⟩
  · simp only [hstuck, htoInt, Function.update_self, if_neg Bool.false_ne_true]
    linarith
  · exact (Road.call_next_of_ne _ (hothers q x ⟨sem, hsem, hq⟩)).trans (hstands.waits q hq)
  · exact fun hstuck' => absurd (hstuck.symm.trans hstuck') Bool.false_ne_true

/-- The consumer sees the values that the atomic semaphores would have. -/
theorem Refines.value_full (h : Refines m s) (d : Direction) :
    m.value (.full d) = s.value (.full d) := by
  obtain ⟨sem, hsem, hstands⟩ := h.sem (.full d)
  obtain ⟨hasleep, hstuck⟩ := hstands.full d rfl
  have hvalue := hstands.value
  rw [hasleep, hstuck] at hvalue
  simpa [Machine.value, hsem] using hvalue

/-- A process at any other line. -/
theorem Refines.act (h : Refines m s) {alloc : Option Addr} (hcall : m.road.call p = none)
    (hstep : m.step (.run p alloc) = some m') : ∃ t, Reaches step s t ∧ Refines m' t := by
  simp only [Machine.step, hcall] at hstep
  obtain rfl := Option.some.inj hstep
  have hideal := step_of_act (h.road ▸ hcall)
  refine ⟨_, .of_step hideal, h.sound.preserved hideal, ?_, fun y => ?_⟩
  · rw [Road.act_congr m.road h.value_full, h.road]
  · obtain ⟨σ, hσ, hy⟩ := h.sem y
    refine ⟨σ, hσ, hy.value, hy.process, hy.woken, hy.nodup, fun q hq => ?_, hy.stuck, hy.full⟩
    have hq' := hy.waits q hq
    have hne : q ≠ p := by
      rintro rfl
      rw [hcall] at hq'
      cases hq'
    exact (Road.call_act_of_ne m.road m.value hne).trans hq'

/-- Nobody is runnable in a `down`. -/
theorem Refines.not_resume (h : Refines m s) (p : Process) : m.step (.resume p) = none := by
  cases hstep : m.step (.resume p) with
  | none => rfl
  | some m' =>
    rw [Machine.step] at hstep
    split at hstep
    · obtain ⟨K', hkernel, -⟩ := Option.bind_eq_some_iff.mp hstep
      obtain ⟨-, σ, σ', hσ, hresume, -⟩ := Kernel.step_eq_some hkernel
      obtain ⟨sem, hsem, hstands⟩ := h.sem _
      obtain rfl : σ = sem := Option.some.inj (hσ.symm.trans hsem)
      rw [Semaphore.step, hstands.woken, if_neg List.not_mem_nil] at hresume
      cases hresume
    · cases hstep

/-- The machine does what can be done with atomic semaphores. -/
theorem simulation :
    Runs.Simulation Machine.step step (fun _ a => a.Quiet) Refines where
  matched := by
    intro m s a m' h ha hstep
    cases a with
    | run p alloc =>
      cases hcall : m.road.call p with
      | none => exact h.act hcall hstep
      | some c =>
        cases c with
        | down x => exact h.down hcall hstep
        | up x => exact h.up hcall hstep
    | signal p => exact ha.elim
    | resume p => simp [h.not_resume p] at hstep

/-- **On the kernel's semaphores.** Whatever the order in which the processes take their
steps and whether `kmalloc` succeeds, as long as there is no signal: the road is one that
can be reached with atomic semaphores, the values that the consumer looks at are the same,
no two processes are inside at a time, and the sequence of the `printf` calls describes the
site. -/
theorem kernel_refines {as : List Move} (h : Guarded Machine.step (fun _ a => a.Quiet) Machine.init as) :
    Always Machine.step
      (fun m =>
        (∃ s, Reaches step System.init s ∧ s.road = m.road ∧
          ∀ d, s.value (.full d) = m.value (.full d)) ∧
        (∀ p q, m.road.inside p = 1 → m.road.inside q = 1 → p = q) ∧
        Runs.run Site.step Site.init m.road.output.reverse = some m.road.site)
      Machine.init as := by
  refine (simulation.always .init h).mono fun m ⟨s, hreach, hm⟩ => ⟨⟨s, hreach, hm.road.symm,
    fun d => (hm.value_full d).symm⟩, ?_⟩
  have hdescribed : Described s := hreach.invariant .init fun _ _ _ hs hstep => hs.preserved hstep
  rw [hm.road]
  exact ⟨hm.sound.sharedMemory.exclusive, hdescribed.output⟩

/-- The producer for the north takes the mutex, and the one for the south goes to sleep. -/
theorem kernel_refines_two :
    let as : List Move := [.run (.producer .north) none, .run (.producer .north) none,
      .run (.producer .south) none, .run (.producer .south) (some 4), .run .consumer none]
    Always Machine.step
      (fun m =>
        (∃ s, Reaches step System.init s ∧ s.road = m.road ∧
          ∀ d, s.value (.full d) = m.value (.full d)) ∧
        (∀ p q, m.road.inside p = 1 → m.road.inside q = 1 → p = q) ∧
        Runs.run Site.step Site.init m.road.output.reverse = some m.road.site)
      Machine.init as :=
  kernel_refines (by simp [Guarded, Move.Quiet])

/-! ## What is so in every run -/

/-- The process is in `schedule()`, in its `down` of `x`. -/
def Machine.Waits (m : Machine) (p : Process) (x : Sem) : Prop :=
  ∃ sem, m.kernel.sems[x.index]? = some sem ∧ sem.Waits p

/-- What is so in every run, with signals or without. -/
structure Orderly (m : Machine) : Prop where
  /-- nobody is in a queue -/
  process : ∀ sem ∈ m.kernel.sems, sem.process = NULL
  /-- a process waits once -/
  nodup : ∀ sem ∈ m.kernel.sems, (sem.asleep ++ sem.woken).Nodup
  /-- and where it is -/
  waits : ∀ q y, m.Waits q y → m.road.call q = some (.down y)

theorem Orderly.init : Orderly Machine.init where
  process sem hsem := by
    obtain ⟨value, -, rfl⟩ := List.mem_map.mp hsem
    rfl
  nodup sem hsem := by
    obtain ⟨value, -, rfl⟩ := List.mem_map.mp hsem
    exact List.nodup_nil
  waits q y hq := by
    obtain ⟨sem, hsem, hwaits⟩ := hq
    obtain ⟨value, -, rfl⟩ := List.mem_map.mp (List.mem_of_getElem? hsem)
    rcases hwaits with hmem | hmem <;> cases hmem

/-- A step of the kernel keeps order, if the road is as it should be afterwards. Whoever
waits then waited before, or is the process that acts. -/
theorem Orderly.kernel (h : Orderly m) {y : Sem} {a : Semaphore.Action Process} {K' : Kernel Process}
    (hstep : m.kernel.step (y.index, a) = some K') :
    ∃ sem sem', m.kernel.sems[y.index]? = some sem ∧ Semaphore.Leads sem a sem' ∧
      (sem.asleep ++ sem.woken).Nodup ∧ (a.IsCall → ∀ z, ¬ m.Waits a.task z) ∧
      ∀ r, (∀ q z, (m.Waits q z ∧ (z = y → sem'.Waits q) ∨ q = a.task ∧ z = y ∧ sem'.Waits q) →
        r.call q = some (.down z)) → Orderly ⟨r, K'⟩ := by
  obtain ⟨hpermits, sem, sem', hsem, hsem', rfl⟩ := Kernel.step_eq_some hstep
  have hmem := List.mem_of_getElem? hsem
  have hnodup := h.nodup sem hmem
  have hleads := Semaphore.leads_of_step (h.process sem hmem) hsem'
  have hidle : a.IsCall → ∀ z, ¬ m.Waits a.task z := fun hcall z ⟨σ, hσ, hw⟩ =>
    (hpermits.free hcall).2 σ (List.mem_of_getElem? hσ) hw
  refine ⟨sem, sem', hsem, hleads, hnodup, hidle, fun r hr => ⟨?_, ?_, ?_⟩⟩
  · intro σ hσ
    rcases List.mem_or_eq_of_mem_set hσ with hσ | rfl
    · exact h.process σ hσ
    · exact hleads.process.trans (h.process sem hmem)
  · intro σ hσ
    rcases List.mem_or_eq_of_mem_set hσ with hσ | rfl
    · exact h.nodup σ hσ
    · exact hleads.nodup (fun hcall hw => hidle hcall y ⟨sem, hsem, hw⟩) hnodup
  · rintro q z ⟨σ, hσ, hw⟩
    refine hr q z ?_
    rcases eq_or_ne z y with rfl | hne
    · obtain ⟨hlt, -⟩ := List.getElem?_eq_some_iff.mp hsem
      obtain rfl := Option.some.inj ((List.getElem?_set_self hlt).symm.trans hσ)
      exact (hleads.waits hw).imp (fun hold => ⟨⟨sem, hsem, hold⟩, fun _ => hw⟩)
        fun heq => ⟨heq, rfl, hw⟩
    · have hindex : y.index ≠ z.index := fun heq => hne (Sem.index_injective heq).symm
      exact .inl ⟨⟨σ, (List.getElem?_set_ne hindex).symm.trans hσ, hw⟩, fun heq => absurd heq hne⟩

/-- A process that does not wait can go on. -/
theorem Orderly.call_next (h : Orderly m) (hnot : ∀ z, ¬ m.Waits p z) {q : Process} {y : Sem}
    (hq : m.Waits q y) : (m.road.next p).call q = some (.down y) := by
  have hne : q ≠ p := by
    rintro rfl
    exact hnot y hq
  exact (Road.call_next_of_ne m.road hne).trans (h.waits q y hq)

/-- A process at a `down`. -/
theorem Orderly.down (h : Orderly m) {alloc : Option Addr} (hcall : m.road.call p = some (.down x))
    (hstep : m.step (.run p alloc) = some m') : Orderly m' := by
  simp only [Machine.step, hcall] at hstep
  obtain ⟨σ, hσ, hstep⟩ := Option.bind_eq_some_iff.mp hstep
  obtain ⟨K', hkernel, hstep⟩ := Option.bind_eq_some_iff.mp hstep
  obtain ⟨sem, sem', hsem, hleads, -, hidle, hroad⟩ := h.kernel hkernel
  obtain rfl : σ = sem := Option.some.inj (hσ.symm.trans hsem)
  split at hstep
  · next hreturns =>
    -- it has taken a unit, and waits no more than before
    obtain rfl := Option.some.inj hstep
    refine hroad _ fun q z hq => h.call_next (hidle trivial) ?_
    rcases hq with hq | ⟨rfl, rfl, hw⟩
    · exact hq.1
    · cases hleads with
      | takes h => exact ⟨σ, hσ, hw⟩
      | dies h => simp [Semaphore.events, Semaphore.downEvents, h] at hreturns
      | sleeps h hnew => simp [Semaphore.events, Semaphore.downEvents, h] at hreturns
  · obtain rfl := Option.some.inj hstep
    refine hroad _ fun q z hq => ?_
    rcases hq with ⟨hold, -⟩ | ⟨rfl, rfl, -⟩
    · exact h.waits q z hold
    · exact hcall

/-- A process at an `up`. -/
theorem Orderly.up (h : Orderly m) {alloc : Option Addr} (hcall : m.road.call p = some (.up x))
    (hstep : m.step (.run p alloc) = some m') : Orderly m' := by
  simp only [Machine.step, hcall] at hstep
  obtain ⟨K', hkernel, hstep⟩ := Option.bind_eq_some_iff.mp hstep
  obtain rfl := Option.some.inj hstep
  obtain ⟨sem, sem', hsem, hleads, -, hidle, hroad⟩ := h.kernel hkernel
  refine hroad _ fun q z hq => h.call_next (hidle trivial) ?_
  rcases hq with hq | ⟨rfl, rfl, hw⟩
  · exact hq.1
  · cases hleads with
    | gives => exact ⟨sem, hsem, hw⟩

/-- A process at any other line. -/
theorem Orderly.act (h : Orderly m) {alloc : Option Addr} (hcall : m.road.call p = none)
    (hstep : m.step (.run p alloc) = some m') : Orderly m' := by
  simp only [Machine.step, hcall] at hstep
  obtain rfl := Option.some.inj hstep
  refine ⟨h.process, h.nodup, fun q z hq => ?_⟩
  have hwhere := h.waits q z hq
  refine (Road.call_act_of_ne _ _ fun heq => ?_).trans hwhere
  rw [heq, hcall] at hwhere
  cases hwhere

/-- A signal makes a process runnable, where it is. -/
theorem Orderly.signal (h : Orderly m) (hstep : m.step (.signal p) = some m') : Orderly m' := by
  rw [Machine.step] at hstep
  split at hstep
  · next x hcall =>
    obtain ⟨K', hkernel, hstep⟩ := Option.bind_eq_some_iff.mp hstep
    obtain rfl := Option.some.inj hstep
    obtain ⟨sem, sem', hsem, hleads, -, -, hroad⟩ := h.kernel hkernel
    refine hroad _ fun q z hq => ?_
    rcases hq with ⟨hold, -⟩ | ⟨rfl, rfl, -⟩
    · exact h.waits q z hold
    · exact hcall
  · cases hstep

/-- A process that comes back from `schedule()` waited there only, and does so no more. -/
theorem Orderly.resume (h : Orderly m) (hstep : m.step (.resume p) = some m') : Orderly m' := by
  rw [Machine.step] at hstep
  split at hstep
  · next x hcall =>
    obtain ⟨K', hkernel, hstep⟩ := Option.bind_eq_some_iff.mp hstep
    obtain rfl := Option.some.inj hstep
    obtain ⟨sem, sem', hsem, hleads, hnodup, -, hroad⟩ := h.kernel hkernel
    have hgone := hleads.not_waits_of_resume hnodup
    refine hroad _ fun q z hq => ?_
    rcases hq with ⟨hold, hnew⟩ | ⟨rfl, -, hw⟩
    · have hwhere := h.waits q z hold
      refine (Road.call_next_of_ne _ fun heq => ?_).trans hwhere
      subst heq
      obtain rfl : x = z := by simpa using hcall.symm.trans hwhere
      exact hgone (hnew rfl)
    · exact absurd hw hgone
  · cases hstep

/-- Every step keeps order. -/
theorem Orderly.step (h : Orderly m) {a : Move} (hstep : m.step a = some m') : Orderly m' := by
  cases a with
  | run p alloc =>
    cases hcall : m.road.call p with
    | none => exact h.act hcall hstep
    | some c =>
      cases c with
      | down x => exact h.down hcall hstep
      | up x => exact h.up hcall hstep
  | signal p => exact h.signal hstep
  | resume p => exact h.resume hstep

/-- A call, a return, or a signal to somebody else leaves a sleeper where it is. -/
theorem Machine.Asleep.of_kernel {y : Sem} {a : Semaphore.Action Process} {K' : Kernel Process}
    (h : Orderly m) (hp : m.Asleep p x) (ha : a.IsSignal → a.task ≠ p)
    (hstep : m.kernel.step (y.index, a) = some K') :
    ∃ sem, K'.sems[x.index]? = some sem ∧ p ∈ sem.asleep := by
  obtain ⟨-, σ, τ, hσ, hτ, rfl⟩ := Kernel.step_eq_some hstep
  obtain ⟨sem, hsem, hmem⟩ := hp
  rcases eq_or_ne y x with rfl | hne
  · obtain rfl : σ = sem := Option.some.inj (hσ.symm.trans hsem)
    obtain ⟨hlt, -⟩ := List.getElem?_eq_some_iff.mp hσ
    have hprocess := h.process σ (List.mem_of_getElem? hσ)
    exact ⟨τ, List.getElem?_set_self hlt,
      (Semaphore.leads_of_step hprocess hτ).mem_asleep ha hmem⟩
  · exact ⟨sem, (List.getElem?_set_ne fun heq => hne (Sem.index_injective heq)).trans hsem, hmem⟩

theorem Machine.Asleep.preserved (h : Orderly m) (hp : m.Asleep p x) {a : Move}
    (ha : a ≠ .signal p) (hstep : m.step a = some m') : m'.Asleep p x := by
  cases a with
  | run q alloc =>
    rw [Machine.step] at hstep
    split at hstep
    · obtain ⟨σ, -, hstep⟩ := Option.bind_eq_some_iff.mp hstep
      obtain ⟨K', hkernel, hstep⟩ := Option.bind_eq_some_iff.mp hstep
      split at hstep
      · obtain rfl := Option.some.inj hstep
        exact hp.of_kernel h False.elim hkernel
      · obtain rfl := Option.some.inj hstep
        exact hp.of_kernel h False.elim hkernel
    · obtain ⟨K', hkernel, hstep⟩ := Option.bind_eq_some_iff.mp hstep
      obtain rfl := Option.some.inj hstep
      exact hp.of_kernel h False.elim hkernel
    · obtain rfl := Option.some.inj hstep
      exact hp
  | signal q =>
    rw [Machine.step] at hstep
    split at hstep
    · obtain ⟨K', hkernel, hstep⟩ := Option.bind_eq_some_iff.mp hstep
      obtain rfl := Option.some.inj hstep
      have hother : q ≠ p := fun heq => ha (congrArg Move.signal heq)
      exact hp.of_kernel (a := .signal q) h (fun _ => hother) hkernel
    · cases hstep
  | resume q =>
    rw [Machine.step] at hstep
    split at hstep
    · obtain ⟨K', hkernel, hstep⟩ := Option.bind_eq_some_iff.mp hstep
      obtain rfl := Option.some.inj hstep
      exact hp.of_kernel h False.elim hkernel
    · cases hstep

theorem Machine.Asleep.waits (hp : m.Asleep p x) : m.Waits p x := by
  obtain ⟨sem, hsem, hmem⟩ := hp
  exact ⟨sem, hsem, .inl hmem⟩

/-- A process that sleeps is not let into another call. -/
theorem Machine.Asleep.not_run (h : Orderly m) (hp : m.Asleep p x) (alloc : Option Addr) :
    m.step (.run p alloc) = none := by
  have hpermits : ¬ m.kernel.Permits (.down p alloc) := fun hpermits => by
    obtain ⟨sem, hsem, hw⟩ := hp.waits
    exact (hpermits.free trivial).2 sem (List.mem_of_getElem? hsem) hw
  rw [Machine.step, h.waits p x hp.waits]
  simp [Kernel.step, hpermits]

/-- Nor does it return from this one. -/
theorem Machine.Asleep.not_resume (h : Orderly m) (hp : m.Asleep p x) :
    m.step (.resume p) = none := by
  have hwhere := h.waits p x hp.waits
  obtain ⟨sem, hsem, hmem⟩ := hp
  obtain ⟨-, -, hdisjoint⟩ := List.nodup_append.mp (h.nodup sem (List.mem_of_getElem? hsem))
  have hnot : p ∉ sem.woken := fun hwoken => hdisjoint p hmem p hwoken rfl
  rw [Machine.step, hwhere]
  simp [Kernel.step, hsem, Semaphore.step, hnot]

/-- **Nobody wakes up.** In every run, with signals or without, a process that has gone to
sleep in a `down` is asleep there in every state of whatever follows without a signal to it,
and cannot take a step. -/
theorem sleeper_stays {as bs : List Move} {m : Machine} {p : Process} {x : Sem}
    (hrun : Runs.run Machine.step Machine.init as = some m) (hp : m.Asleep p x)
    (hspared : Guarded Machine.step (fun _ a => a ≠ .signal p) m bs) :
    Always Machine.step
      (fun t => t.Asleep p x ∧ t.step (.resume p) = none ∧ ∀ alloc, t.step (.run p alloc) = none)
      m bs := by
  have horderly : Orderly m :=
    (Reaches.invariant (P := Orderly) ⟨as, hrun⟩ .init fun _ _ _ h hstep => h.step hstep)
  have hboth : Always Machine.step (fun t => t.Asleep p x ∧ Orderly t) m bs :=
    hspared.always ⟨hp, horderly⟩ fun m a m' ⟨hp, hm⟩ ha hstep =>
      ⟨hp.preserved hm ha hstep, hm.step hstep⟩
  exact hboth.mono fun t ⟨hp, ht⟩ => ⟨hp, hp.not_resume ht, hp.not_run ht⟩

/-- A signal lets the producer for the south in while the one for the north is inside. The
latter comes back and goes to sleep on the mutex, and does not notice that it is given
back. -/
theorem sleeper_stays_mutex :
    let north : Move := .run (.producer .north) none
    let as : List Move := [north, north, .run (.producer .south) none,
      .run (.producer .south) (some 4), .signal (.producer .south), .resume (.producer .south),
      north, north, north, north, north, north, north, .run (.producer .north) (some 8)]
    let bs : List Move := List.replicate 5 (.run (.producer .south) none)
    ∃ m, Runs.run Machine.step Machine.init as = some m ∧ Always Machine.step
      (fun t => t.Asleep (.producer .north) .mutex ∧ t.step (.resume (.producer .north)) = none ∧
        ∀ alloc, t.step (.run (.producer .north) alloc) = none) m bs := by
  intro north as bs
  obtain ⟨m, hm, hasleep⟩ : ∃ m, Runs.run Machine.step Machine.init as = some m ∧
      m.Asleep (.producer .north) .mutex := ⟨_, rfl, _, rfl, by decide⟩
  exact ⟨m, hm, sleeper_stays hm hasleep (by simp [bs, List.replicate, Guarded])⟩

end Csc452.Trafficsim
