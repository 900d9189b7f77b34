import Csc452.Semaphore

/-!
# What the semaphore guarantees

Two properties, and for each the runs that have it.

That no wakeup is lost (`NoLostWakeup`) means that the tasks asleep, the value
and the queue agree. They cannot once a task has blocked: with an empty queue
`csc452_down` puts the new node into its own copy of `sem->process`, so the queue
stays empty and no `csc452_up` ever finds the task. A run keeps the property
exactly as long as no down has to block (and no up overflows the value).

That no more downs return than there were units to take (`returned ≤ v0 + ups`)
fails for another reason: a down that a signal takes out of `schedule()` returns
0 like one that was woken. Without signals to sleeping tasks it holds in every
run, lost wakeups or not, and with it the mutual exclusion of tasks that use a
semaphore of value 1 in brackets.
-/

namespace Csc452.Semaphore

open LinkedList (Chain)
open Runs

theorem toInt_of_range {z : ℤ} (h : intMin ≤ z) (h' : z ≤ intMax) : toInt z = z := by
  simp only [intMin, intMax, toInt, Int.bmod] at *
  omega

theorem toInt_succ_le {z : ℤ} (h : intMin ≤ z) (h' : z ≤ intMax) : toInt (z + 1) ≤ z + 1 := by
  simp only [intMin, intMax, toInt, Int.bmod] at *
  omega

theorem toInt_range (z : ℤ) : intMin ≤ toInt z ∧ toInt z ≤ intMax := by
  simp only [intMin, intMax, toInt, Int.bmod]
  omega

variable {Task : Type} {s t : System Task} {current : Task}

/-! ## What a step can do -/

/-- A down takes a unit and returns, dies without memory, or blocks. -/
theorem csc452Down_cases {alloc : Option Addr} (h : csc452Down s current alloc = some t) :
    (0 ≤ toInt (s.value - 1) ∧
      t = { s with value := toInt (s.value - 1), returned := s.returned + 1,
                   inside := current :: s.inside }) ∨
    (alloc = none ∧ t = { s with value := toInt (s.value - 1), stuck := true }) ∨
    (toInt (s.value - 1) < 0 ∧ ∃ heap,
      t = { s with value := toInt (s.value - 1), heap := heap, asleep := s.asleep ++ [current] }) := by
  simp only [csc452Down] at h
  split at h
  · next hneg =>
    cases alloc with
    | none => exact .inr (.inl ⟨rfl, (Option.some.inj h).symm⟩)
    | some a =>
      obtain ⟨heap, -, heq⟩ := Option.bind_eq_some_iff.mp h
      exact .inr (.inr ⟨hneg, heap, (Option.some.inj heq).symm⟩)
  · next hpos => exact .inl ⟨not_lt.mp hpos, (Option.some.inj h).symm⟩

variable [DecidableEq Task]

/-- An up adds a unit, and with an empty queue that is all. Otherwise it wakes the
first task of the queue. -/
theorem csc452Up_cases (h : csc452Up s current = some t) :
    t = { s with value := toInt (s.value + 1), ups := s.ups + 1, inside := s.inside.erase current } ∨
    (s.process ≠ NULL ∧ ∃ (s' : System Task) (task : Task),
      s'.value = toInt (s.value + 1) ∧ s'.asleep = s.asleep ∧ s'.woken = s.woken ∧
      s'.returned = s.returned ∧ s'.ups = s.ups ∧ s'.inside = s.inside ∧
      t = { s'.wakeUpProcess task with
            ups := (s'.wakeUpProcess task).ups + 1
            inside := (s'.wakeUpProcess task).inside.erase current }) := by
  simp only [csc452Up] at h
  split at h
  · split at h
    · next hqueue =>
      obtain ⟨head, -, heq⟩ := Option.bind_eq_some_iff.mp h
      let s' : System Task :=
        { s with value := toInt (s.value + 1), process := head.next,
                 heap := s.heap.erase s.process }
      exact .inr ⟨hqueue, s', head.task, rfl, rfl, rfl, rfl, rfl, rfl, (Option.some.inj heq).symm⟩
    · exact .inl (Option.some.inj h).symm
  · exact .inl (Option.some.inj h).symm

/-- Waking a task moves it from the sleeping ones to the runnable ones, if it is
asleep, and does nothing else. -/
theorem System.wakeUpProcess_spec (s : System Task) (task : Task) :
    (s.wakeUpProcess task).value = s.value ∧ (s.wakeUpProcess task).returned = s.returned ∧
      (s.wakeUpProcess task).ups = s.ups ∧ (s.wakeUpProcess task).inside = s.inside ∧
      (s.wakeUpProcess task).asleep.length + (s.wakeUpProcess task).woken.length =
        s.asleep.length + s.woken.length ∧
      (s.wakeUpProcess task).woken.length ≤ s.woken.length + 1 := by
  rw [System.wakeUpProcess]
  split
  · next hmem =>
    have hlen := List.length_erase_of_mem hmem
    have hpos := List.length_pos_of_mem hmem
    refine ⟨rfl, rfl, rfl, rfl, ?_, le_refl _⟩
    simp only [hlen, List.length_cons]
    omega
  · exact ⟨rfl, rfl, rfl, rfl, rfl, Nat.le_succ _⟩

/-! ## Lost wakeups -/

/-- The tasks asleep, the value and the queue agree. -/
structure NoLostWakeup (s : System Task) : Prop where
  /-- as many tasks sleep as there are units owed -/
  count : (s.asleep.length : ℤ) = max 0 (-s.value)
  /-- every task sleeps once -/
  nodup : s.asleep.Nodup
  /-- the queue lists the tasks asleep, in the order in which they blocked -/
  queue : ∃ qs : List (Addr × Task), Chain (Heap.next s.heap) NULL s.process (qs.map Prod.fst) ∧
    (∀ q ∈ qs, (s.heap.lookup q.1).map ProcessQueue.task = some q.2) ∧
    qs.map Prod.snd = s.asleep
  /-- an up that finds the value below 0 wakes the one that has waited longest -/
  wakes : ∀ current t, s.value < 0 → step s (.up current) = some t →
    ∃ task, s.asleep = task :: t.asleep ∧ t.woken = task :: s.woken

/-- `kmalloc` succeeds and there are no signals. -/
def Action.Quiet : Action Task → Prop
  | .down _ alloc => alloc.isSome
  | .up _ => True
  | .signal _ => False
  | .resume _ => True

/-- A down finds a unit to take, and an up finds room for one. -/
def NeverBlocks (s : System Task) : Action Task → Prop
  | .down _ _ => 0 < s.value
  | .up _ => s.value < intMax
  | .signal _ => True
  | .resume _ => True

/-- Nobody has ever blocked. -/
structure Unblocked (s : System Task) : Prop where
  /-- no unit is owed -/
  nonneg : 0 ≤ s.value
  /-- the value is an `int` -/
  le_intMax : s.value ≤ intMax
  /-- the queue is empty -/
  process : s.process = NULL
  /-- nobody sleeps -/
  asleep : s.asleep = []
  /-- nobody was woken -/
  woken : s.woken = []

omit [DecidableEq Task] in
theorem Unblocked.init {v : ℤ} (hv : 0 ≤ v) (hmax : v ≤ intMax) :
    Unblocked (System.init v : System Task) :=
  ⟨hv, hmax, rfl, rfl, rfl⟩

theorem Unblocked.noLostWakeup (h : Unblocked s) : NoLostWakeup s where
  count := by
    rw [h.asleep, max_eq_left (by have := h.nonneg; omega)]
    rfl
  nodup := by
    rw [h.asleep]
    exact List.nodup_nil
  queue := by
    refine ⟨[], ?_, fun q hq => absurd hq List.not_mem_nil, h.asleep.symm⟩
    rw [h.process]
    exact Chain.nil
  wakes _ _ hneg _ := absurd hneg (not_lt.mpr h.nonneg)

/-- A task that sleeps behind an empty queue is lost. -/
theorem NoLostWakeup.asleep_eq_nil (h : NoLostWakeup s) (hs : s.process = NULL) : s.asleep = [] := by
  obtain ⟨qs, hchain, -, hqs⟩ := h.queue
  rw [hs] at hchain
  rw [← hqs, List.map_eq_nil_iff.mp hchain.eq_nil_of_null]
  rfl

/-- One step from a state in which nobody has blocked: either it is one that
never blocks, or it loses a wakeup. -/
theorem Unblocked.step {a : Action Task} (h : Unblocked s) (ha : a.Quiet)
    (hstep : step s a = some t) :
    (NeverBlocks s a → Unblocked t) ∧ (NoLostWakeup t → NeverBlocks s a) := by
  have hnonneg := h.nonneg
  have hmax := h.le_intMax
  cases a with
  | down current alloc =>
    rw [Semaphore.step] at hstep
    split at hstep
    · have hvalue : toInt (s.value - 1) = s.value - 1 :=
        toInt_of_range (by simp only [intMin]; omega) (by omega)
      rcases csc452Down_cases hstep with ⟨hpos, rfl⟩ | ⟨rfl, -⟩ | ⟨hneg, heap, rfl⟩
      · rw [hvalue] at hpos ⊢
        refine ⟨fun _ => ⟨hpos, by simp only; omega, h.process, h.asleep, h.woken⟩, fun _ => ?_⟩
        simp only [NeverBlocks]
        omega
      · cases ha
      · refine ⟨fun hblock => ?_, fun hlost => ?_⟩
        · simp only [NeverBlocks] at hblock
          omega
        · -- the queue is still empty, but somebody sleeps
          have hnil := hlost.asleep_eq_nil h.process
          simp at hnil
    · cases hstep
  | up current =>
    rw [Semaphore.step] at hstep
    split at hstep
    · rcases csc452Up_cases hstep with rfl | ⟨hqueue, -⟩
      · refine ⟨fun hroom => ?_, fun hlost => ?_⟩
        · simp only [NeverBlocks] at hroom
          have hvalue : toInt (s.value + 1) = s.value + 1 :=
            toInt_of_range (by simp only [intMin]; omega) (by omega)
          refine ⟨?_, ?_, h.process, h.asleep, h.woken⟩
          all_goals simp only [hvalue]; omega
        · -- nobody sleeps, so the value cannot have wrapped
          have hcount := hlost.count
          simp only [h.asleep, List.length_nil] at hcount
          simp only [NeverBlocks]
          rcases lt_or_eq_of_le hmax with hlt | heq
          · exact hlt
          · rw [heq] at hcount
            simp [toInt, intMax, Int.bmod] at hcount
      · exact absurd h.process hqueue
    · cases hstep
  | signal task => cases ha
  | resume task =>
    rw [Semaphore.step, h.woken, if_neg List.not_mem_nil] at hstep
    cases hstep

/-- **Lost wakeups.** Without signals and with `kmalloc` succeeding (`Action.Quiet`), the
tasks asleep, the value and the queue agree in every state of a run if and only if no down of
the run has to block and no up overflows the value (`NeverBlocks`). So it is the first task
that has to sleep that is lost: its node is not linked into the empty queue. -/
theorem noLostWakeup_iff {v : ℤ} (hv : 0 ≤ v) (hmax : v ≤ intMax) {actions : List (Action Task)}
    (hquiet : ∀ a ∈ actions, a.Quiet) :
    Always step NoLostWakeup (System.init v) actions ↔
      Guarded step NeverBlocks (System.init v) actions := by
  constructor
  · intro h
    refine h.guarded (Unblocked.init hv hmax) fun s a t ha hs hstep hlost => ?_
    obtain ⟨hgood, hbad⟩ := hs.step (hquiet a ha) hstep
    exact ⟨hbad hlost, hgood (hbad hlost)⟩
  · intro h
    have hall := (h.and hquiet).always (Unblocked.init hv hmax) fun s a t hs ha hstep =>
      (hs.step ha.2 hstep).1 ha.1
    exact hall.mono fun s hs => hs.noLostWakeup

/-- A semaphore of value 1 taken and given back. -/
theorem noLostWakeup_iff_mutex :
    Always step NoLostWakeup (System.init 1) [.down 0 (some 8), .up 0] ↔
      Guarded step NeverBlocks (System.init 1) [.down (0 : ℕ) (some 8), .up 0] :=
  noLostWakeup_iff (by decide) (by decide) (by simp [Action.Quiet])

/-- With value 0, the first down blocks behind an empty queue, and the up that
follows wakes nobody. -/
theorem lost_wakeup :
    ∃ s t : System ℕ, step (System.init 0) (.down 1 (some 8)) = some s ∧
      step s (.up 2) = some t ∧ ¬ NoLostWakeup s ∧ ¬ NoLostWakeup t ∧ t.asleep = [1] := by
  refine ⟨_, _, rfl, rfl, fun h => ?_, fun h => ?_, rfl⟩
  · exact List.cons_ne_nil _ _ (h.asleep_eq_nil rfl)
  · exact List.cons_ne_nil _ _ (h.asleep_eq_nil rfl)

/-! ## Signals -/

/-- No signal reaches a sleeping task, and no down wraps the value. -/
def NoSignal (s : System Task) : Action Task → Prop
  | .down _ _ => intMin < s.value
  | .up _ => True
  | .signal task => task ∉ s.asleep
  | .resume _ => True

/-- Only tasks between their down and their up call up. -/
def Bracketed (s : System Task) : Action Task → Prop
  | .down _ _ => True
  | .up current => current ∈ s.inside
  | .signal _ => True
  | .resume _ => True

/-- What the downs that have returned took, and what the sleeping ones owe. -/
structure Balanced (v : ℤ) (s : System Task) : Prop where
  /-- the value is an `int` -/
  range : intMin ≤ s.value ∧ s.value ≤ intMax
  /-- every task that may return has a unit of its own -/
  taken : (s.returned : ℤ) + s.woken.length ≤ v + s.ups
  /-- the value does not count more units than there are -/
  value_le : s.value ≤ v + s.ups - s.returned - s.woken.length - s.asleep.length

omit [DecidableEq Task] in
theorem Balanced.init {v : ℤ} (hv : 0 ≤ v) (hmax : v ≤ intMax) :
    Balanced v (System.init v : System Task) :=
  ⟨⟨by simp only [System.init, intMin]; omega, hmax⟩, by simpa [System.init] using hv,
    by simp [System.init]⟩

/-- One step keeps the balance. -/
theorem Balanced.step {v : ℤ} {a : Action Task} (h : Balanced v s) (ha : NoSignal s a)
    (hstep : step s a = some t) : Balanced v t := by
  have htaken := h.taken
  have hvalue := h.value_le
  cases a with
  | down current alloc =>
    rw [Semaphore.step] at hstep
    split at hstep
    · have hrange := toInt_range (s.value - 1)
      have hpred : toInt (s.value - 1) = s.value - 1 :=
        toInt_of_range (by simp only [NoSignal] at ha; omega) (by have := h.range.2; omega)
      rcases csc452Down_cases hstep with ⟨hpos, rfl⟩ | ⟨-, rfl⟩ | ⟨-, heap, rfl⟩
      · refine ⟨hrange, ?_, ?_⟩
        all_goals simp only [hpred, Nat.cast_succ] at *; omega
      · refine ⟨hrange, htaken, ?_⟩
        simp only [hpred]
        omega
      · refine ⟨hrange, htaken, ?_⟩
        simp only [hpred, List.length_append, List.length_singleton, Nat.cast_succ]
        omega
    · cases hstep
  | up current =>
    rw [Semaphore.step] at hstep
    split at hstep
    · have hrange := toInt_range (s.value + 1)
      have hsucc := toInt_succ_le h.range.1 h.range.2
      rcases csc452Up_cases hstep with rfl | ⟨-, s', task, hv', ha', hw', hr', hu', hi', rfl⟩
      · refine ⟨hrange, ?_, ?_⟩
        all_goals simp only [Nat.cast_succ]; omega
      · -- the unit goes to the task that is woken, if one is
        obtain ⟨hv, hr, hu, hi, hsum, hle⟩ := s'.wakeUpProcess_spec task
        rw [ha', hw'] at hsum
        rw [hw'] at hle
        refine ⟨?_, ?_, ?_⟩
        · simp only [hv, hv']
          exact hrange
        all_goals simp only [hv, hv', hr, hr', hu, hu', Nat.cast_succ]; omega
    · cases hstep
  | signal task =>
    rw [Semaphore.step, if_neg ha] at hstep
    cases hstep
  | resume task =>
    rw [Semaphore.step] at hstep
    split at hstep
    · next hmem =>
      have hlen := List.length_erase_of_mem hmem
      have hpos := List.length_pos_of_mem hmem
      obtain rfl := Option.some.inj hstep
      refine ⟨h.range, ?_, ?_⟩
      all_goals simp only [hlen, Nat.cast_succ]; omega
    · cases hstep

/-- The tasks between their down and their up are the downs that have returned
less the ups. -/
theorem inside_step {a : Action Task} (h : s.inside.length + s.ups = s.returned)
    (ha : Bracketed s a) (hstep : step s a = some t) :
    t.inside.length + t.ups = t.returned := by
  cases a with
  | down current alloc =>
    rw [Semaphore.step] at hstep
    split at hstep
    · rcases csc452Down_cases hstep with ⟨-, rfl⟩ | ⟨-, rfl⟩ | ⟨-, heap, rfl⟩
      · simp only [List.length_cons]
        omega
      · exact h
      · exact h
    · cases hstep
  | up current =>
    rw [Semaphore.step] at hstep
    split at hstep
    · have hlen := List.length_erase_of_mem ha
      have hpos := List.length_pos_of_mem ha
      rcases csc452Up_cases hstep with rfl | ⟨-, s', task, hv', ha', hw', hr', hu', hi', rfl⟩
      · simp only [hlen]
        omega
      · obtain ⟨-, hr, hu, hi, -, -⟩ := s'.wakeUpProcess_spec task
        simp only [hr, hu, hi, hr', hu', hi', hlen]
        omega
    · cases hstep
  | signal task =>
    rw [Semaphore.step] at hstep
    split at hstep
    · obtain rfl := Option.some.inj hstep
      obtain ⟨-, hr, hu, hi, -, -⟩ := s.wakeUpProcess_spec task
      rw [hr, hu, hi]
      exact h
    · cases hstep
  | resume task =>
    rw [Semaphore.step] at hstep
    split at hstep
    · obtain rfl := Option.some.inj hstep
      simp only [List.length_cons]
      omega
    · cases hstep

/-- **Semaphore safety.** In a run without signals to sleeping tasks, the number
of downs that have returned 0 is at most the initial value plus the number of
completed ups, in every state reached. When only tasks between their down and
their up call up, at most as many tasks as the initial value are in between: with
the initial value 1, never two. -/
theorem returned_le_of_noSignal {v : ℤ} (hv : 0 ≤ v) (hmax : v ≤ intMax)
    {actions : List (Action Task)} (hsignal : Guarded step NoSignal (System.init v) actions) :
    Always step (fun s => (s.returned : ℤ) ≤ v + s.ups) (System.init v) actions ∧
      (Guarded step Bracketed (System.init v) actions →
        Always step (fun s => (s.inside.length : ℤ) ≤ v ∧
          (v = 1 → ∀ x ∈ s.inside, ∀ y ∈ s.inside, x = y)) (System.init v) actions) := by
  have hbalanced := hsignal.always (Balanced.init hv hmax) fun s a t hs ha hstep => hs.step ha hstep
  refine ⟨hbalanced.mono fun s hs => by have := hs.taken; omega, fun hbracketed => ?_⟩
  have hinside : Always step (fun s => s.inside.length + s.ups = s.returned) (System.init v)
      actions := hbracketed.always rfl fun s a t hs ha hstep => inside_step hs ha hstep
  refine (hbalanced.and hinside).mono fun s hs => ?_
  have htaken := hs.1.taken
  have hlen : (s.inside.length : ℤ) ≤ v := by have := hs.2; omega
  refine ⟨hlen, ?_⟩
  rintro rfl x hx y hy
  -- two different members would make the list too long
  obtain ⟨a, hinside⟩ := List.length_eq_one_iff.mp
    (le_antisymm (by exact_mod_cast hlen) (List.length_pos_of_mem hx))
  rw [hinside, List.mem_singleton] at hx hy
  rw [hx, hy]

/-- Three tasks at a semaphore of value 1. The second one goes to sleep, and so does the
third, after the up of the first one. -/
theorem returned_le_of_noSignal_mutex :
    let actions : List (Action ℕ) :=
      [.down 0 (some 8), .down 1 (some 8), .up 0, .down 2 (some 16)]
    (∃ s, run step (System.init 1) actions = some s ∧ s.asleep = [1, 2]) ∧
      Always step (fun s => (s.returned : ℤ) ≤ 1 + s.ups) (System.init 1) actions ∧
      (Guarded step Bracketed (System.init 1) actions →
        Always step (fun s => (s.inside.length : ℤ) ≤ 1 ∧
          ((1 : ℤ) = 1 → ∀ x ∈ s.inside, ∀ y ∈ s.inside, x = y)) (System.init 1) actions) := by
  refine ⟨⟨_, rfl, rfl⟩, returned_le_of_noSignal (by decide) (by decide) ?_⟩
  simp [Guarded, NoSignal, step, System.CanCall, System.Fresh, System.init, csc452Down, csc452Up,
    enqueue, toInt, intMin, Int.bmod, NULL]

/-- With value 0, a down that a signal takes out of its sleep returns 0 although
there was never an up. With value 1, it lets a second task in. -/
theorem returned_by_signal :
    (∃ s : System ℕ, run step (System.init 0) [.down 1 (some 8), .signal 1, .resume 1] = some s ∧
      s.returned = 1 ∧ s.ups = 0) ∧
    ∃ s : System ℕ, run step (System.init 1)
        [.down 1 (some 8), .down 2 (some 8), .signal 2, .resume 2] = some s ∧ s.inside = [2, 1] :=
  ⟨⟨_, rfl, rfl, rfl⟩, _, rfl, rfl⟩

end Csc452.Semaphore
