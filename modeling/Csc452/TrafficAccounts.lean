import Csc452.Trafficsim
import Mathlib.Tactic.Linarith

/-!
# Places, cars and the buffers

What the semaphores of the traffic simulation count, on every road that can be
reached. A lane has ten places: those that `empty` counts, those of the cars that
`full` counts, and the one that a producer or the consumer has taken from one of
the two and not yet given to the other. The cars waiting are those from `*con` up
to `*prod`, each in its own cell of the buffer (`Lane.Ok`).

The consumer never looks at the buffer: the number it takes is the value of its
counter. That is the number in the cell all the same (`shared_memory`).
-/

namespace Csc452.Trafficsim

open Prodcons (Direction)

/-! ## Where a process is -/

/-- The producer holds a place. -/
def ProducerLine.slot : ProducerLine → ℤ
  | .downEmpty => 0
  | _ => 1

/-- The producer has counted a car, and not yet said so. -/
def ProducerLine.counted : ProducerLine → ℤ
  | .arrive => 1
  | .upMutex => 1
  | .upFull => 1
  | _ => 0

/-- The producer is between `down(mutex)` and `up(mutex)`. -/
def ProducerLine.inside : ProducerLine → ℤ
  | .downEmpty => 0
  | .downMutex => 0
  | .upFull => 0
  | _ => 1

/-- The consumer has claimed a car of `d`, and not yet counted it. -/
def ConsumerLine.claimed (d : Direction) : ConsumerLine → ℤ
  | .downMutex d' => if d' = d then 1 else 0
  | .take d' => if d' = d then 1 else 0
  | .count d' => if d' = d then 1 else 0
  | _ => 0

/-- The consumer has counted a car of `d`, and not yet given its place back. -/
def ConsumerLine.freed (d : Direction) : ConsumerLine → ℤ
  | .enter d' => if d' = d then 1 else 0
  | .leave d' => if d' = d then 1 else 0
  | .upMutex d' => if d' = d then 1 else 0
  | .upEmpty d' => if d' = d then 1 else 0
  | _ => 0

/-- The consumer is between `down(mutex)` and `up(mutex)`. -/
def ConsumerLine.inside : ConsumerLine → ℤ
  | .take _ => 1
  | .count _ => 1
  | .enter _ => 1
  | .leave _ => 1
  | .upMutex _ => 1
  | _ => 0

/-- Is the process between its `down(mutex)` and its `up(mutex)`? -/
def Road.inside (r : Road) : Process → ℤ
  | .producer d => (r.lane d).line.inside
  | .consumer => r.line.inside

/-! ## One lane -/

/-- The accounts of a lane with `e` and `f` as the values of its semaphores, when the
consumer holds `c` cars that it has not counted and `g` places that it has not given
back. -/
structure Lane.Ok (x : Lane) (e f c g : ℤ) : Prop where
  /-- there are ten places -/
  places : e + f + x.line.slot + c + g = buffSize
  /-- every car counted by the producer and not by the consumer -/
  waiting : (x.prod : ℤ) = x.con + f + x.line.counted + c
  /-- the values are counts -/
  empty_nonneg : 0 ≤ e
  /-- both of them -/
  full_nonneg : 0 ≤ f
  /-- a car that waits is in its cell -/
  cell : ∀ i, x.con ≤ i → i < x.prod → x.buf (i % buffSize) = i
  /-- a car about to be stored -/
  taken : x.line = .store → x.car = x.prod
  /-- a car about to be counted is in its cell too -/
  stored : x.line = .count → x.buf (x.prod % buffSize) = x.prod
  /-- a car about to be announced -/
  announced : x.line = .arrive ∨ x.line = .count → x.car + x.line.counted = x.prod

variable {x : Lane} {e f c g : ℤ}

theorem ProducerLine.slot_range (line : ProducerLine) : 0 ≤ line.slot ∧ line.slot ≤ 1 := by
  cases line <;> decide

theorem ProducerLine.counted_range (line : ProducerLine) :
    0 ≤ line.counted ∧ line.counted ≤ line.slot := by
  cases line <;> decide

/-- At most ten cars wait. -/
theorem Lane.Ok.prod_le (h : x.Ok e f c g) (hg : 0 ≤ g) : x.prod ≤ x.con + buffSize := by
  have hplaces := h.places
  have hwaiting := h.waiting
  have hcounted := x.line.counted_range.2
  have hempty := h.empty_nonneg
  have : (x.prod : ℤ) ≤ x.con + buffSize := by linarith
  exact_mod_cast this

/-- A car that is about to be stored finds a free cell. -/
theorem Lane.Ok.room (h : x.Ok e f c g) (hg : 0 ≤ g) (hline : x.line = .store) :
    x.prod < x.con + buffSize := by
  have hplaces := h.places
  have hwaiting := h.waiting
  have hempty := h.empty_nonneg
  simp only [hline, ProducerLine.slot, ProducerLine.counted] at hplaces hwaiting
  have : (x.prod : ℤ) < x.con + buffSize := by linarith
  exact_mod_cast this

/-- Two numbers less than ten apart have different cells. -/
theorem cell_ne {i j : ℕ} (hij : i < j) (hj : j < i + buffSize) :
    i % buffSize ≠ j % buffSize := by
  intro heq
  simp only [buffSize] at *
  omega

/-- A process has moved, and no car was counted or stored. -/
theorem Lane.Ok.move {y : Lane} {e' f' c' g' : ℤ} (h : x.Ok e f c g) (hbuf : y.buf = x.buf)
    (hprod : y.prod = x.prod) (hcon : y.con = x.con)
    (hplaces : e' + f' + y.line.slot + c' + g' = e + f + x.line.slot + c + g)
    (hwaiting : f' + y.line.counted + c' = f + x.line.counted + c) (he : 0 ≤ e') (hf : 0 ≤ f')
    (htaken : y.line = .store → y.car = x.prod) (hcount : y.line = .count → x.line = .count)
    (hannounced : y.line = .arrive ∨ y.line = .count → y.car + y.line.counted = x.prod) :
    y.Ok e' f' c' g' where
  places := hplaces.trans h.places
  waiting := by
    have := h.waiting
    rw [hprod, hcon]
    linarith
  empty_nonneg := he
  full_nonneg := hf
  cell i hi hi' := by
    rw [hbuf]
    exact h.cell i (hcon ▸ hi) (hprod ▸ hi')
  taken hline := by rw [htaken hline, hprod]
  stored hline := by
    rw [hbuf, hprod]
    exact h.stored (hcount hline)
  announced hline := by rw [hannounced hline, hprod]

/-- The consumer has moved, and no car was counted. -/
theorem Lane.Ok.consumer {e' f' c' g' : ℤ} (h : x.Ok e f c g)
    (hplaces : e' + f' + c' + g' = e + f + c + g) (hwaiting : f' + c' = f + c) (he : 0 ≤ e')
    (hf : 0 ≤ f') : x.Ok e' f' c' g' :=
  h.move rfl rfl rfl (by linarith) (by linarith) he hf h.taken id h.announced

/-- A producer behind its semaphore call. -/
theorem Lane.Ok.producer {line : ProducerLine} {e' f' : ℤ} (h : x.Ok e f c g)
    (hplaces : e' + f' + line.slot = e + f + x.line.slot)
    (hwaiting : f' + line.counted = f + x.line.counted) (he : 0 ≤ e') (hf : 0 ≤ f')
    (hstore : line ≠ .store) (hcount : line ≠ .count) (harrive : line ≠ .arrive) :
    ({ x with line := line } : Lane).Ok e' f' c g :=
  h.move rfl rfl rfl (by simp only; linarith) (by simp only; linarith) he hf
    (fun h => absurd h hstore) (fun h => absurd h hcount)
    fun h => h.elim (fun h => absurd h harrive) fun h => absurd h hcount

/-- `north_buf[*n_prod % BUFF_SIZE] = car`. -/
theorem Lane.Ok.store (h : x.Ok e f c g) (hg : 0 ≤ g) (hline : x.line = .store) :
    ({ x with
      line := .count, buf := Function.update x.buf (x.prod % buffSize) x.car } : Lane).Ok
        e f c g where
  places := by simpa [hline, ProducerLine.slot] using h.places
  waiting := by simpa [hline, ProducerLine.counted] using h.waiting
  empty_nonneg := h.empty_nonneg
  full_nonneg := h.full_nonneg
  cell i hi hi' := by
    -- the cell of a car that waits is another one
    have hroom := h.room hg hline
    have hne := cell_ne hi' (hroom.trans_le (Nat.add_le_add_right hi buffSize))
    exact (Function.update_of_ne hne _ _).trans (h.cell i hi hi')
  taken hline := ProducerLine.noConfusion hline
  stored _ := (Function.update_self ..).trans (h.taken hline)
  announced _ := by
    simp only [ProducerLine.counted, h.taken hline, add_zero]

/-- `*n_prod = *n_prod + 1`. -/
theorem Lane.Ok.count (h : x.Ok e f c g) (hline : x.line = .count) :
    ({ x with line := .arrive, prod := x.prod + 1 } : Lane).Ok e f c g where
  places := by simpa [hline, ProducerLine.slot] using h.places
  waiting := by
    have := h.waiting
    simp only [hline, ProducerLine.counted, Nat.cast_succ] at *
    linarith
  empty_nonneg := h.empty_nonneg
  full_nonneg := h.full_nonneg
  cell i hi hi' := by
    rcases Nat.lt_succ_iff_lt_or_eq.mp hi' with hlt | rfl
    · exact h.cell i hi hlt
    · exact h.stored hline
  taken hline := ProducerLine.noConfusion hline
  stored hline := ProducerLine.noConfusion hline
  announced _ := by
    have := h.announced (Or.inr hline)
    simp only [hline, ProducerLine.counted, Nat.cast_succ] at *
    linarith

/-- `*n_con = *n_con + 1`. -/
theorem Lane.Ok.consume (h : x.Ok e f 1 0) : ({ x with con := x.con + 1 } : Lane).Ok e f 0 1 where
  places := by linarith [h.places]
  waiting := by
    have := h.waiting
    simp only [Nat.cast_succ] at *
    linarith
  empty_nonneg := h.empty_nonneg
  full_nonneg := h.full_nonneg
  cell i hi hi' := h.cell i (Nat.le_of_succ_le hi) hi'
  taken := h.taken
  stored := h.stored
  announced := h.announced

/-! ## The system -/

/-- The accounts of the whole. -/
structure Sound (s : System) : Prop where
  /-- those of the lanes -/
  lane : ∀ d, (s.road.lane d).Ok (s.value (.empty d)) (s.value (.full d))
    (s.road.line.claimed d) (s.road.line.freed d)
  /-- one process at most is inside -/
  mutex : s.value .mutex + s.road.inside (.producer .north) + s.road.inside (.producer .south) +
    s.road.inside .consumer = 1
  /-- the value is a count -/
  mutex_nonneg : 0 ≤ s.value .mutex
  /-- the consumer does not wait for a car -/
  claims : ∀ d, s.road.line = .downFull d → 0 < s.value (.full d)
  /-- the number that it has taken -/
  taken : ∀ d, s.road.line = .count d → s.road.car = (s.road.lane d).con
  /-- and goes on to print -/
  printed : ∀ d, s.road.line = .enter d ∨ s.road.line = .leave d →
    s.road.car + 1 = (s.road.lane d).con

theorem Sound.init : Sound System.init where
  lane d := by
    refine ⟨?_, rfl, by cases d <;> decide, by cases d <;> decide, fun i _ hi => ?_, ?_, ?_, ?_⟩
    · cases d <;> decide
    · exact absurd hi (Nat.not_lt_zero i)
    all_goals simp [System.init, Road.init]
  mutex := by decide
  mutex_nonneg := by decide
  claims d h := ConsumerLine.noConfusion h
  taken d h := ConsumerLine.noConfusion h
  printed d h := h.elim ConsumerLine.noConfusion ConsumerLine.noConfusion

variable {s t : System} {d : Direction}

/-- A step of the producer of `d`, from what it makes of its lane. -/
theorem Sound.of_lane {y : Lane} (h : Sound s)
    (hlane : t.road.lane = Function.update s.road.lane d y) (hline : t.road.line = s.road.line)
    (hcar : t.road.car = s.road.car)
    (hok : y.Ok (t.value (.empty d)) (t.value (.full d)) (s.road.line.claimed d)
      (s.road.line.freed d))
    (hother : ∀ d', d' ≠ d → t.value (.empty d') = s.value (.empty d') ∧
      t.value (.full d') = s.value (.full d'))
    (hmutex : t.value .mutex + y.line.inside = s.value .mutex + (s.road.lane d).line.inside)
    (hmutex' : 0 ≤ t.value .mutex) (hfull : s.value (.full d) ≤ t.value (.full d))
    (hcon : y.con = (s.road.lane d).con) : Sound t where
  lane d' := by
    rcases eq_or_ne d' d with rfl | hne
    · rwa [hlane, hline, Function.update_self]
    · rw [hlane, hline, Function.update_of_ne hne, (hother d' hne).1, (hother d' hne).2]
      exact h.lane d'
  mutex := by
    have hinside := h.mutex
    have hconsumer : t.road.inside .consumer = s.road.inside .consumer := by
      simp only [Road.inside, hline]
    rw [hconsumer]
    simp only [Road.inside, hlane] at hinside ⊢
    cases d with
    | north =>
      rw [Function.update_self, Function.update_of_ne (by decide)]
      linarith
    | south =>
      rw [Function.update_self, Function.update_of_ne (by decide)]
      linarith
  mutex_nonneg := hmutex'
  claims d' hd' := by
    have hpos := h.claims d' (hline ▸ hd')
    rcases eq_or_ne d' d with rfl | hne
    · exact hpos.trans_le hfull
    · rwa [(hother d' hne).2]
  taken d' hd' := by
    rw [hcar, h.taken d' (hline ▸ hd'), hlane]
    rcases eq_or_ne d' d with rfl | hne
    · rw [Function.update_self, hcon]
    · rw [Function.update_of_ne hne]
  printed d' hd' := by
    rw [hcar, h.printed d' (hline ▸ hd'), hlane]
    rcases eq_or_ne d' d with rfl | hne
    · rw [Function.update_self, hcon]
    · rw [Function.update_of_ne hne]

/-- A step of a producer. -/
theorem Sound.produce (h : Sound s) (hstep : step s (.producer d) = some t) : Sound t := by
  have hx := h.lane d
  have hfreed : 0 ≤ s.road.line.freed d := by
    cases s.road.line <;> simp only [ConsumerLine.freed] <;> (try split) <;> decide
  have hempty := hx.empty_nonneg
  have hfull := hx.full_nonneg
  have hmutex := h.mutex_nonneg
  cases hline : (s.road.lane d).line <;>
    simp only [step, Road.call, Road.next, Road.produceNext, Road.act, Road.produce, hline]
      at hstep
  case downEmpty =>
    split at hstep
    · next hpos =>
      obtain rfl := Option.some.inj hstep
      refine h.of_lane rfl rfl rfl (hx.producer ?_ ?_ ?_ ?_ ?_ ?_ ?_) (fun d' hne => ?_) ?_ ?_ ?_ rfl
        <;> simp [ProducerLine.slot, ProducerLine.counted, ProducerLine.inside, *]
      · linarith
      · exact hpos
    · cases hstep
  case downMutex =>
    split at hstep
    · next hpos =>
      obtain rfl := Option.some.inj hstep
      refine h.of_lane rfl rfl rfl (hx.producer ?_ ?_ ?_ ?_ ?_ ?_ ?_) (fun d' hne => ?_) ?_ ?_ ?_ rfl
        <;> simp [ProducerLine.slot, ProducerLine.counted, ProducerLine.inside, *]
      linarith
    · cases hstep
  case upMutex =>
    obtain rfl := Option.some.inj hstep
    refine h.of_lane rfl rfl rfl (hx.producer ?_ ?_ ?_ ?_ ?_ ?_ ?_) (fun d' hne => ?_) ?_ ?_ ?_ rfl
      <;> simp [ProducerLine.slot, ProducerLine.counted, ProducerLine.inside, *]
    linarith
  case upFull =>
    obtain rfl := Option.some.inj hstep
    refine h.of_lane rfl rfl rfl (hx.producer ?_ ?_ ?_ ?_ ?_ ?_ ?_) (fun d' hne => ?_) ?_ ?_ ?_ rfl
      <;> simp [ProducerLine.slot, ProducerLine.counted, ProducerLine.inside, *]
    all_goals linarith
  case take =>
    obtain rfl := Option.some.inj hstep
    refine h.of_lane rfl rfl rfl (hx.move rfl rfl rfl ?_ ?_ hempty hfull ?_ ?_ ?_)
      (fun d' hne => ⟨rfl, rfl⟩) ?_ hmutex le_rfl rfl
    all_goals simp [ProducerLine.slot, ProducerLine.counted, ProducerLine.inside, hline]
  case store =>
    obtain rfl := Option.some.inj hstep
    refine h.of_lane rfl rfl rfl (hx.store hfreed hline) (fun d' hne => ⟨rfl, rfl⟩) ?_ hmutex
      le_rfl rfl
    simp only [ProducerLine.inside, hline]
  case count =>
    obtain rfl := Option.some.inj hstep
    refine h.of_lane rfl rfl rfl (hx.count hline) (fun d' hne => ⟨rfl, rfl⟩) ?_ hmutex le_rfl rfl
    simp only [ProducerLine.inside, hline]
  case arrive =>
    obtain rfl := Option.some.inj hstep
    refine h.of_lane rfl rfl rfl (hx.producer ?_ ?_ hempty hfull ?_ ?_ ?_)
      (fun d' hne => ⟨rfl, rfl⟩) ?_ hmutex le_rfl rfl
    all_goals simp [ProducerLine.slot, ProducerLine.counted, ProducerLine.inside, hline]

/-- What the consumer holds is of the direction `d`, if of any. -/
def ConsumerLine.Only (line : ConsumerLine) (d : Direction) : Prop :=
  ∀ d', d' ≠ d → line.claimed d' = 0 ∧ line.freed d' = 0

/-- A step of the consumer, from what it makes of the lane it is at. -/
theorem Sound.of_line (h : Sound s) (hline : ∀ d', (t.road.lane d').line = (s.road.lane d').line)
    (hother : ∀ d', d' ≠ d → t.road.lane d' = s.road.lane d' ∧
      t.value (.empty d') = s.value (.empty d') ∧ t.value (.full d') = s.value (.full d'))
    (honly : s.road.line.Only d) (honly' : t.road.line.Only d)
    (hok : (t.road.lane d).Ok (t.value (.empty d)) (t.value (.full d)) (t.road.line.claimed d)
      (t.road.line.freed d))
    (hmutex : t.value .mutex + t.road.line.inside = s.value .mutex + s.road.line.inside)
    (hmutex' : 0 ≤ t.value .mutex)
    (hclaims : ∀ d', t.road.line = .downFull d' → 0 < t.value (.full d'))
    (htaken : ∀ d', t.road.line = .count d' → t.road.car = (t.road.lane d').con)
    (hprinted : ∀ d', t.road.line = .enter d' ∨ t.road.line = .leave d' →
      t.road.car + 1 = (t.road.lane d').con) : Sound t where
  lane d' := by
    rcases eq_or_ne d' d with rfl | hne
    · exact hok
    · have hd' := h.lane d'
      rw [(honly d' hne).1, (honly d' hne).2] at hd'
      rwa [(hother d' hne).1, (hother d' hne).2.1, (hother d' hne).2.2, (honly' d' hne).1,
        (honly' d' hne).2]
  mutex := by
    have := h.mutex
    simp only [Road.inside, hline] at *
    linarith
  mutex_nonneg := hmutex'
  claims := hclaims
  taken := htaken
  printed := hprinted

/-- A line of the loop for the direction `d`. -/
def ConsumerLine.Within (d : Direction) : ConsumerLine → Prop
  | .guardOther d' => d' = d
  | .downFull d' => d' = d
  | .downMutex d' => d' = d
  | .take d' => d' = d
  | .count d' => d' = d
  | .enter d' => d' = d
  | .leave d' => d' = d
  | .upMutex d' => d' = d
  | .upEmpty d' => d' = d
  | _ => False

theorem ConsumerLine.Within.only {line : ConsumerLine} (h : line.Within d) : line.Only d := by
  intro d' hne
  cases line <;> simp only [Within] at h <;> simp [claimed, freed, h, hne.symm]

theorem ConsumerLine.Within.unique {line : ConsumerLine} {d' : Direction} (h : line.Within d)
    (h' : line.Within d') : d' = d := by
  cases line <;> first
    | exact h.elim
    | exact h'.symm.trans h

/-- A step in the loop for `d` that leaves the lanes alone. -/
theorem Sound.pass (h : Sound s) (d : Direction) (hs : s.road.line.Within d)
    (ht : t.road.line.Within d) (hlane : t.road.lane = s.road.lane)
    (hvalue : ∀ d', d' ≠ d → t.value (.empty d') = s.value (.empty d') ∧
      t.value (.full d') = s.value (.full d'))
    (hplaces : t.value (.empty d) + t.value (.full d) + t.road.line.claimed d +
        t.road.line.freed d =
      s.value (.empty d) + s.value (.full d) + s.road.line.claimed d + s.road.line.freed d)
    (hwaiting : t.value (.full d) + t.road.line.claimed d =
      s.value (.full d) + s.road.line.claimed d)
    (hempty : 0 ≤ t.value (.empty d)) (hfull : 0 ≤ t.value (.full d))
    (hmutex : t.value .mutex + t.road.line.inside = s.value .mutex + s.road.line.inside)
    (hmutex' : 0 ≤ t.value .mutex) (hclaims : t.road.line ≠ .downFull d)
    (htaken : t.road.line = .count d → t.road.car = (t.road.lane d).con)
    (hprinted : t.road.line = .enter d ∨ t.road.line = .leave d →
      t.road.car + 1 = (t.road.lane d).con) : Sound t := by
  have hd : ∀ {line : ConsumerLine} {d'}, t.road.line = line → line.Within d' → d' = d :=
    fun hline hd' => ht.unique (hline ▸ hd')
  refine h.of_line (fun _ => by rw [hlane]) (fun d' hne => ⟨by rw [hlane], hvalue d' hne⟩)
    hs.only ht.only ?_ hmutex hmutex' ?_ ?_ ?_
  · rw [hlane]
    exact (h.lane d).consumer hplaces hwaiting hempty hfull
  · intro d' hline
    obtain rfl := hd hline rfl
    exact absurd hline hclaims
  · intro d' hline
    obtain rfl := hd hline rfl
    exact htaken hline
  · rintro d' (hline | hline)
    · obtain rfl := hd hline rfl
      exact hprinted (Or.inl hline)
    · obtain rfl := hd hline rfl
      exact hprinted (Or.inr hline)

/-- The lines at which the consumer only looks at values. -/
def ConsumerLine.Looks : ConsumerLine → Prop
  | .guardOther _ => True
  | .guardOwn _ => True
  | .idleNorth _ => True
  | .idleSouth _ => True
  | .idle _ => True
  | _ => False

/-- There it holds neither a car nor a place, nor the mutex. -/
theorem ConsumerLine.Looks.free {line : ConsumerLine} (h : line.Looks) :
    (∀ d, line.claimed d = 0 ∧ line.freed d = 0) ∧ line.inside = 0 := by
  cases line <;> first
    | exact h.elim
    | exact ⟨fun _ => ⟨rfl, rfl⟩, rfl⟩

/-- From one such line to another, or to the call that claims a car. -/
theorem Sound.look (h : Sound s) (hs : s.road.line.Looks) (hlane : t.road.lane = s.road.lane)
    (hvalue : t.value = s.value)
    (ht : t.road.line.Looks ∨ ∃ d, t.road.line = .downFull d ∧ 0 < s.value (.full d)) :
    Sound t := by
  have hfree : (∀ d, t.road.line.claimed d = 0 ∧ t.road.line.freed d = 0) ∧
      t.road.line.inside = 0 := by
    rcases ht with ht | ⟨d, hd, -⟩
    · exact ht.free
    · rw [hd]
      exact ⟨fun _ => ⟨rfl, rfl⟩, rfl⟩
  have hx := h.lane .north
  rw [(hs.free.1 _).1, (hs.free.1 _).2] at hx
  refine h.of_line (d := .north) (fun _ => by rw [hlane]) (fun _ _ => by simp [hlane, hvalue])
    (fun d' _ => hs.free.1 d') (fun d' _ => hfree.1 d') ?_ ?_ ?_ ?_ ?_ ?_
  · rwa [hlane, hvalue, (hfree.1 _).1, (hfree.1 _).2]
  · rw [hvalue, hfree.2, hs.free.2]
  · rw [hvalue]
    exact h.mutex_nonneg
  · intro d hd
    rcases ht with ht | ⟨d', hd', hpos⟩
    · rw [hd] at ht
      exact ht.elim
    · obtain rfl : d' = d := by simpa [hd'] using hd
      rwa [hvalue]
  · intro d hd
    rcases ht with ht | ⟨d', hd', -⟩
    · rw [hd] at ht
      exact ht.elim
    · simp [hd'] at hd
  · intro d hd
    rcases ht with ht | ⟨d', hd', -⟩
    · rcases hd with hd | hd <;>
      · rw [hd] at ht
        exact ht.elim
    · simp [hd'] at hd

/-- A step of the consumer. -/
theorem Sound.consume (h : Sound s) (hstep : step s .consumer = some t) : Sound t := by
  have hmutex := h.mutex_nonneg
  have hempty : ∀ d, 0 ≤ s.value (.empty d) := fun d => (h.lane d).empty_nonneg
  have hfull : ∀ d, 0 ≤ s.value (.full d) := fun d => (h.lane d).full_nonneg
  cases hline : s.road.line <;>
    simp only [step, Road.call, Road.next, Road.act, Road.consume, hline] at hstep
  case downFull d =>
    split at hstep
    · next hpos =>
      obtain rfl := Option.some.inj hstep
      refine h.pass d (by rw [hline]; rfl) rfl rfl ?_ ?_ ?_ ?_ ?_ ?_ ?_ ?_ ?_ ?_ <;>
        simp +contextual [ConsumerLine.claimed, ConsumerLine.freed, ConsumerLine.inside, hline,
          hempty, hmutex]
      · linarith
      · exact hpos
    · cases hstep
  case downMutex d =>
    split at hstep
    · next hpos =>
      obtain rfl := Option.some.inj hstep
      refine h.pass d (by rw [hline]; rfl) rfl rfl ?_ ?_ ?_ ?_ ?_ ?_ ?_ ?_ ?_ ?_ <;>
        simp [ConsumerLine.claimed, ConsumerLine.freed, ConsumerLine.inside, hline, hempty, hfull]
      exact hpos
    · cases hstep
  case upMutex d =>
    obtain rfl := Option.some.inj hstep
    refine h.pass d (by rw [hline]; rfl) rfl rfl ?_ ?_ ?_ ?_ ?_ ?_ ?_ ?_ ?_ ?_ <;>
      simp [ConsumerLine.claimed, ConsumerLine.freed, ConsumerLine.inside, hline, hempty, hfull]
    linarith
  case upEmpty d =>
    obtain rfl := Option.some.inj hstep
    refine h.pass d (by rw [hline]; rfl) rfl rfl ?_ ?_ ?_ ?_ ?_ ?_ ?_ ?_ ?_ ?_ <;>
      simp +contextual [ConsumerLine.claimed, ConsumerLine.freed, ConsumerLine.inside, hline,
        hfull, hmutex]
    · linarith
    · linarith [hempty d]
  case take d =>
    obtain rfl := Option.some.inj hstep
    refine h.pass d (by rw [hline]; rfl) rfl rfl ?_ ?_ ?_ ?_ ?_ ?_ ?_ ?_ ?_ ?_ <;>
      simp [ConsumerLine.claimed, ConsumerLine.freed, ConsumerLine.inside, hline, hempty, hfull,
        hmutex]
  case count d =>
    obtain rfl := Option.some.inj hstep
    have hx := h.lane d
    have htaken := h.taken d hline
    rw [hline] at hx
    simp only [ConsumerLine.claimed, ConsumerLine.freed, if_pos] at hx
    have hwithin : s.road.line.Within d := by rw [hline]; rfl
    refine h.of_line (d := d) (fun d' => ?_) (fun d' hne => ?_) hwithin.only
      (show (ConsumerLine.enter d).Within d from rfl).only ?_ ?_ hmutex ?_ ?_ ?_
    · rcases eq_or_ne d' d with rfl | hne
      · simp [Road.setLane]
      · simp [Road.setLane, hne]
    · simp [Road.setLane, hne]
    · simp only [Road.setLane, Function.update_self, ConsumerLine.claimed, ConsumerLine.freed, if_pos]
      exact hx.consume
    · simp [ConsumerLine.inside, hline]
    all_goals simp [Road.setLane, htaken]
  case enter d =>
    obtain rfl := Option.some.inj hstep
    have hprinted := h.printed d (Or.inl hline)
    refine h.pass d (by rw [hline]; rfl) rfl rfl ?_ ?_ ?_ ?_ ?_ ?_ ?_ ?_ ?_ ?_ <;>
      simp [ConsumerLine.claimed, ConsumerLine.freed, ConsumerLine.inside, hline, hempty, hfull,
        hmutex, hprinted]
  case leave d =>
    obtain rfl := Option.some.inj hstep
    refine h.pass d (by rw [hline]; rfl) rfl rfl ?_ ?_ ?_ ?_ ?_ ?_ ?_ ?_ ?_ ?_ <;>
      simp [ConsumerLine.claimed, ConsumerLine.freed, ConsumerLine.inside, hline, hempty, hfull,
        hmutex]
  case guardOwn d =>
    obtain rfl := Option.some.inj hstep
    refine h.look (by rw [hline]; trivial) rfl rfl ?_
    by_cases hpos : s.value (.full d) > 0
    · exact Or.inr ⟨d, if_pos hpos, hpos⟩
    · exact Or.inl (by simp only [if_neg hpos]; trivial)
  case idle d =>
    obtain rfl := Option.some.inj hstep
    refine h.look (by rw [hline]; trivial) ?_ rfl (Or.inl ?_)
    · simp only
      split <;> rfl
    · simp only
      split <;> trivial
  all_goals
    obtain rfl := Option.some.inj hstep
    refine h.look (by rw [hline]; trivial) rfl rfl (Or.inl ?_)
    simp only
    split <;> trivial

/-- A step of any process. -/
theorem Sound.preserved {p : Process} (h : Sound s) (hstep : step s p = some t) : Sound t := by
  cases p with
  | producer d => exact h.produce hstep
  | consumer => exact h.consume hstep

/-! ## Shared memory -/

/-- What holds of the shared memory in every state. -/
structure SharedMemory (s : System) : Prop where
  /-- two processes are never inside at a time -/
  exclusive : ∀ p q, s.road.inside p = 1 → s.road.inside q = 1 → p = q
  /-- no value is negative, and none is above the number of places -/
  values : ∀ x, 0 ≤ s.value x ∧ s.value x ≤ buffSize
  /-- no more cars wait than the buffer has cells, and each is in its own -/
  waiting : ∀ d, (s.road.lane d).con ≤ (s.road.lane d).prod ∧
    (s.road.lane d).prod ≤ (s.road.lane d).con + buffSize ∧
    ∀ i, (s.road.lane d).con ≤ i → i < (s.road.lane d).prod →
      (s.road.lane d).buf (i % buffSize) = i
  /-- a car is stored in a cell that none of those waiting is in -/
  store : ∀ d, (s.road.lane d).line = .store → ∀ i, (s.road.lane d).con ≤ i →
    i < (s.road.lane d).prod → i % buffSize ≠ (s.road.lane d).prod % buffSize
  /-- the consumer finds a unit whenever it goes for one -/
  claims : ∀ d, s.road.line = .downFull d → 0 < s.value (.full d)
  /-- the number that it takes from the counter is the one in the cell -/
  take : ∀ d, s.road.line = .take d →
    (s.road.lane d).buf ((s.road.lane d).con % buffSize) = (s.road.lane d).con

theorem ConsumerLine.claimed_nonneg (line : ConsumerLine) (d : Direction) :
    0 ≤ line.claimed d ∧ 0 ≤ line.freed d := by
  cases line <;> simp only [claimed, freed] <;> constructor <;> (try split) <;> decide

theorem Road.inside_range (r : Road) (p : Process) : 0 ≤ r.inside p ∧ r.inside p ≤ 1 := by
  cases p with
  | producer d => cases h : (r.lane d).line <;> simp [inside, h, ProducerLine.inside]
  | consumer => cases h : r.line <;> simp [inside, h, ConsumerLine.inside]

theorem Sound.sharedMemory (h : Sound s) : SharedMemory s where
  exclusive p q hp hq := by
    have hsum := h.mutex
    have hmutex := h.mutex_nonneg
    have hn := (s.road.inside_range (.producer .north)).1
    have hs := (s.road.inside_range (.producer .south)).1
    have hc := (s.road.inside_range .consumer).1
    rcases p with (_ | _) | _ <;> rcases q with (_ | _) | _ <;> first
      | rfl
      | linarith
  values x := by
    have hsum := h.mutex
    have hn := (s.road.inside_range (.producer .north)).1
    have hs := (s.road.inside_range (.producer .south)).1
    have hc := (s.road.inside_range .consumer).1
    cases x with
    | mutex =>
      have hsize : (buffSize : ℤ) = 10 := rfl
      exact ⟨h.mutex_nonneg, by linarith⟩
    | empty d | full d =>
      have hx := h.lane d
      have hplaces := hx.places
      have hslot := (s.road.lane d).line.slot_range.1
      have hholds := s.road.line.claimed_nonneg d
      refine ⟨by first | exact hx.empty_nonneg | exact hx.full_nonneg, ?_⟩
      linarith [hx.empty_nonneg, hx.full_nonneg]
  waiting d := by
    have hx := h.lane d
    have hholds := s.road.line.claimed_nonneg d
    refine ⟨?_, hx.prod_le hholds.2, hx.cell⟩
    have hwaiting := hx.waiting
    have hcounted := (s.road.lane d).line.counted_range.1
    have : ((s.road.lane d).con : ℤ) ≤ (s.road.lane d).prod := by linarith [hx.full_nonneg]
    exact_mod_cast this
  store d hline i hi hi' := by
    have hroom := (h.lane d).room (s.road.line.claimed_nonneg d).2 hline
    exact cell_ne hi' (hroom.trans_le (Nat.add_le_add_right hi buffSize))
  claims := h.claims
  take d hline := by
    have hx := h.lane d
    rw [hline] at hx
    have hwaiting := hx.waiting
    have hcounted := (s.road.lane d).line.counted_range.1
    simp only [ConsumerLine.claimed, if_pos] at hwaiting
    have : ((s.road.lane d).con : ℤ) < (s.road.lane d).prod := by linarith [hx.full_nonneg]
    exact hx.cell _ le_rfl (by exact_mod_cast this)

/-- **Shared memory.** Whatever the order in which the processes take their steps, with
semaphores that are atomic counters: no two of them are between `down(mutex)` and
`up(mutex)` at a time, at most ten cars wait in a lane, a car that is stored overwrites none
that waits, the consumer never waits for a car, and the number it takes is the one in the
buffer. -/
theorem shared_memory (ps : List Process) : Runs.Always step SharedMemory System.init ps := by
  have hsound : Runs.Always step Sound System.init ps :=
    Runs.Guarded.trivial.always Sound.init fun _ _ _ hs _ hstep => hs.preserved hstep
  exact hsound.mono fun _ hs => hs.sharedMemory

end Csc452.Trafficsim
