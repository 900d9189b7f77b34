import Csc452.TrafficSite

/-!
# Gridlock

Each guard of the consumer wants the lane of the other direction to hold less than
ten cars. When both lanes have filled up while it was not looking, neither guard can
hold any more, and the two producers wait for places that only the consumer could
give back (`Gridlock`).

That is the only way for the traffic to stop. From any other state that can be
reached, the processes can go on so that a car gets into the zone: the one that is
inside leaves, a producer brings a car to the lane if there is none, and the consumer
comes round to a guard that holds (`gridlock_iff`). All this is with semaphores that are
atomic counters. With the kernel's own, whoever has gone to sleep stays there, and the
traffic may stop with lanes that are nearly empty.
-/

namespace Csc452.Trafficsim

open Prodcons (Direction)
open Runs (Reaches)

variable {s t : System} {d : Direction}

theorem cast_buffSize : (buffSize : ℤ) = 10 := rfl

/-- The lines at which the consumer has not yet decided to take a car. -/
def ConsumerLine.Undecided : ConsumerLine → Prop
  | .guardOther _ => True
  | .idleNorth _ => True
  | .idleSouth _ => True
  | .idle _ => True
  | _ => False

/-- Both lanes are full, and the consumer has still to look. -/
structure Gridlock (s : System) : Prop where
  /-- ten cars in each lane -/
  full : ∀ d, s.value (.full d) = buffSize
  /-- where the consumer is -/
  undecided : s.road.line.Undecided

theorem ConsumerLine.Undecided.looks {line : ConsumerLine} (h : line.Undecided) : line.Looks := by
  cases line <;> trivial

/-- Where neither lane is full, or the consumer has decided, there is no gridlock. -/
theorem ConsumerLine.Undecided.inZone {r : Road} (h : r.line.Undecided) : r.inZone = none := by
  refine Road.inZone_of_clear ?_
  cases hline : r.line <;> rw [hline] at h <;> trivial

/-! ## Gridlock lasts -/

theorem ProducerLine.eq_downEmpty {line : ProducerLine} (h : line.slot = 0) :
    line = .downEmpty := by
  cases line <;> first
    | rfl
    | exact absurd h (by decide)

/-- In a gridlock the producers wait for places. -/
theorem Gridlock.producer (h : Sound s) (hg : Gridlock s) (d : Direction) :
    (s.road.lane d).line = .downEmpty ∧ s.value (.empty d) = 0 := by
  have hx := h.lane d
  have hfree := hg.undecided.looks.free.1 d
  have hplaces := hx.places
  have hslot := (s.road.lane d).line.slot_range.1
  rw [hg.full d, hfree.1, hfree.2] at hplaces
  have hempty := hx.empty_nonneg
  exact ⟨ProducerLine.eq_downEmpty (by linarith), by linarith⟩

/-- A gridlock does not end. -/
theorem Gridlock.preserved (h : Sound s) (hg : Gridlock s) {p : Process}
    (hstep : step s p = some t) : Gridlock t := by
  cases p with
  | producer d =>
    obtain ⟨hline, hempty⟩ := hg.producer h d
    simp [step, Road.call, hline, hempty] at hstep
  | consumer =>
    have hnorth := hg.full .north
    have hother : ∀ d : Direction, s.value (.full d.other) = buffSize := fun d => hg.full d.other
    have hundecided := hg.undecided
    cases hline : s.road.line <;> rw [hline] at hundecided <;> first
      | exact hundecided.elim
      | skip
    all_goals simp only [step, Road.call, Road.act, Road.consume, hline] at hstep
    case guardOther d =>
      obtain rfl := Option.some.inj hstep
      exact ⟨hg.full, by simp [hother, buffSize, ConsumerLine.Undecided]⟩
    case idleNorth d =>
      obtain rfl := Option.some.inj hstep
      exact ⟨hg.full, by simp [hnorth, buffSize, ConsumerLine.Undecided]⟩
    case idleSouth d =>
      obtain rfl := Option.some.inj hstep
      exact ⟨hg.full, by simp only; split <;> trivial⟩
    case idle d =>
      obtain rfl := Option.some.inj hstep
      exact ⟨hg.full, by simp only; split <;> trivial⟩

/-! ## Otherwise a car can get through -/

/-- A car can get into the zone. -/
def Passes (s : System) : Prop := ∃ t, Reaches step s t ∧ t.road.inZone ≠ none

theorem Passes.of_reaches (h : Reaches step s t) (ht : Passes t) : Passes s := by
  obtain ⟨w, hw, hzone⟩ := ht
  exact ⟨w, h.trans hw, hzone⟩

theorem Passes.of_step {p : Process} (h : step s p = some t) (ht : Passes t) : Passes s :=
  ht.of_reaches (.of_step h)

/-- A step of a process at a line that is no semaphore call. -/
theorem step_of_act {p : Process} (h : s.road.call p = none) :
    step s p = some { s with road := s.road.act s.value p } := by
  rw [step, h]

/-- A step of a process at a `down` that need not wait. -/
theorem step_of_down {p : Process} {x : Sem} (h : s.road.call p = some (.down x))
    (hx : 0 < s.value x) :
    step s p = some { road := s.road.next p, value := Function.update s.value x (s.value x - 1) } := by
  rw [step, h]
  exact if_pos hx

/-- A step of a process at an `up`. -/
theorem step_of_up {p : Process} {x : Sem} (h : s.road.call p = some (.up x)) :
    step s p = some { road := s.road.next p, value := Function.update s.value x (s.value x + 1) } := by
  rw [step, h]

/-- Once it has the mutex, the consumer lets the car in. -/
theorem passes_of_inside (h : s.road.line = .take d ∨ s.road.line = .count d ∨
    s.road.line = .enter d ∨ s.road.line = .leave d) : Passes s := by
  have hleave : ∀ {s : System}, s.road.line = .leave d → Passes s := fun {s} hline =>
    ⟨s, .refl s, by simp [Road.inZone, hline]⟩
  have henter : ∀ {s : System}, s.road.line = .enter d → Passes s := fun hline =>
    .of_step (step_of_act (p := .consumer) (by simp [Road.call, hline]))
      (hleave (by simp [Road.act, Road.consume, hline]))
  have hcount : ∀ {s : System}, s.road.line = .count d → Passes s := fun hline =>
    .of_step (step_of_act (p := .consumer) (by simp [Road.call, hline]))
      (henter (by simp [Road.act, Road.consume, hline]))
  rcases h with h | h | h | h
  · exact .of_step (step_of_act (p := .consumer) (by simp [Road.call, h]))
      (hcount (by simp [Road.act, Road.consume, h]))
  · exact hcount h
  · exact henter h
  · exact hleave h

theorem Road.produce_line (r : Road) (d : Direction) : (r.produce d).line = r.line := by
  unfold produce
  dsimp only
  split <;> rfl

theorem Road.produce_lane_of_ne (r : Road) {d d' : Direction} (h : d' ≠ d) :
    (r.produce d).lane d' = r.lane d' := by
  unfold produce
  dsimp only
  split <;> simp [setLane, h]

/-- The producer of `d` can get as far as `up(mutex)`, and meanwhile nothing changes but
its lane. -/
def Releases (d : Direction) (s : System) : Prop :=
  ∃ t, Reaches step s t ∧ t.road.line = s.road.line ∧ (t.road.lane d).line = .upFull ∧
    (∀ d', d' ≠ d → t.road.lane d' = s.road.lane d') ∧
    t.value = Function.update s.value .mutex (s.value .mutex + 1)

theorem Releases.of_upMutex (hline : (s.road.lane d).line = .upMutex) : Releases d s := by
  refine ⟨_, .of_step (step_of_up (p := .producer d) (x := .mutex) ?_), ?_, ?_, ?_, rfl⟩
  · simp [Road.call, hline]
  · simp [Road.next, Road.setLane]
  · simp [Road.next, Road.setLane, Road.produceNext, hline]
  · intro d' hne
    simp [Road.next, Road.setLane, hne]

theorem Releases.of_act (hcall : s.road.call (.producer d) = none)
    (h : Releases d { s with road := s.road.produce d }) : Releases d s := by
  obtain ⟨t, hreach, hline, hup, hother, hvalue⟩ := h
  refine ⟨t, .trans (.of_step (step_of_act hcall)) hreach, ?_, hup, fun d' hne => ?_, hvalue⟩
  · rw [hline, Road.produce_line]
  · rw [hother d' hne, Road.produce_lane_of_ne s.road hne]

/-- A producer that is inside leaves. -/
theorem releases_of_inside (hinside : (s.road.lane d).line.inside = 1) : Releases d s := by
  have harrive : ∀ {s : System}, (s.road.lane d).line = .arrive → Releases d s := fun hline =>
    .of_act (by simp [Road.call, hline])
      (.of_upMutex (by simp [Road.produce, hline, Road.setLane]))
  have hcount : ∀ {s : System}, (s.road.lane d).line = .count → Releases d s := fun hline =>
    .of_act (by simp [Road.call, hline]) (harrive (by simp [Road.produce, hline, Road.setLane]))
  have hstore : ∀ {s : System}, (s.road.lane d).line = .store → Releases d s := fun hline =>
    .of_act (by simp [Road.call, hline]) (hcount (by simp [Road.produce, hline, Road.setLane]))
  cases hline : (s.road.lane d).line <;> rw [hline] at hinside
  case take =>
    exact .of_act (by simp [Road.call, hline]) (hstore (by simp [Road.produce, hline, Road.setLane]))
  case store => exact hstore hline
  case count => exact hcount hline
  case arrive => exact harrive hline
  case upMutex => exact .of_upMutex hline
  all_goals exact absurd hinside (by decide)

/-- The consumer, waiting for the mutex, gets it in the end. -/
theorem passes_of_downMutex (h : Sound s) (hline : s.road.line = .downMutex d) : Passes s := by
  have hfree : ∀ {s : System}, s.road.line = .downMutex d → 0 < s.value .mutex → Passes s :=
    fun hline hpos => .of_step (step_of_down (p := .consumer) (by simp [Road.call, hline]) hpos)
      (passes_of_inside (d := d) (Or.inl (by simp [Road.next, hline])))
  have hheld : ∀ d', (s.road.lane d').line.inside = 1 → Passes s := by
    intro d' hinside
    obtain ⟨t, hreach, htline, -, -, hvalue⟩ := releases_of_inside hinside
    refine .of_reaches hreach (hfree (htline.trans hline) ?_)
    rw [hvalue, Function.update_self]
    linarith [h.mutex_nonneg]
  have hmutex := h.mutex
  have hn := s.road.inside_range (.producer .north)
  have hs := s.road.inside_range (.producer .south)
  simp only [Road.inside, hline, ConsumerLine.inside] at hmutex hn hs
  by_cases hnorth : (s.road.lane .north).line.inside = 1
  · exact hheld _ hnorth
  by_cases hsouth : (s.road.lane .south).line.inside = 1
  · exact hheld _ hsouth
  · have hn' : (s.road.lane .north).line.inside ≤ 0 := by omega
    have hs' : (s.road.lane .south).line.inside ≤ 0 := by omega
    exact hfree hline (by linarith)

/-- The consumer has claimed a car. -/
theorem passes_of_downFull (h : Sound s) (hline : s.road.line = .downFull d) : Passes s := by
  have hcall : s.road.call .consumer = some (.down (.full d)) := by simp [Road.call, hline]
  have hstep := step_of_down hcall (h.claims d hline)
  exact .of_step hstep
    (passes_of_downMutex (d := d) (h.preserved hstep) (by simp [Road.next, hline]))

/-! ### Coming round to a guard that holds -/

/-- With the values `v`, a consumer at `line` can let a car in. -/
def Lets (v : Sem → ℤ) (line : ConsumerLine) : Prop :=
  ∀ s, Sound s → s.value = v → s.road.line = line → Passes s

variable {v : Sem → ℤ} {line : ConsumerLine}

theorem Lets.downFull (v : Sem → ℤ) (d : Direction) : Lets v (.downFull d) :=
  fun _ h _ hline => passes_of_downFull h hline

/-- The consumer looks at a value, and that is all it does. -/
theorem Lets.look (hlooks : line.Looks)
    (h : ∀ r : Road, r.line = line → Lets v (r.consume v).line) : Lets v line := by
  rintro s hs rfl rfl
  have hcall : s.road.call .consumer = none := by
    cases hline : s.road.line <;> rw [hline] at hlooks <;> first
      | exact hlooks.elim
      | simp [Road.call, hline]
  have hstep := step_of_act hcall
  exact .of_step hstep (h s.road rfl _ (hs.preserved hstep) rfl rfl)

theorem Lets.idle (h : Lets v (.guardOther d.other)) : Lets v (.idle d) := by
  refine .look trivial fun r hline => ?_
  simp only [Road.consume, hline]
  split <;> exact h

theorem Lets.idleSouth (h : Lets v (.guardOther d.other)) : Lets v (.idleSouth d) := by
  refine .look trivial fun r hline => ?_
  simp only [Road.consume, hline]
  split
  · exact h.idle
  · exact h

theorem Lets.idleNorth (h : Lets v (.guardOther d.other)) : Lets v (.idleNorth d) := by
  refine .look trivial fun r hline => ?_
  simp only [Road.consume, hline]
  split
  · exact h.idleSouth
  · exact h

theorem Lets.guardOwn (h : Lets v (.idleNorth d) ∨ 0 < v (.full d)) : Lets v (.guardOwn d) := by
  refine .look trivial fun r hline => ?_
  simp only [Road.consume, hline]
  split
  · exact .downFull v d
  · next hnot => exact h.resolve_right hnot

theorem Lets.guardOther (h : Lets v (.idleNorth d)) : Lets v (.guardOther d) := by
  refine .look trivial fun r hline => ?_
  simp only [Road.consume, hline]
  split
  · exact .guardOwn (Or.inl h)
  · exact h

/-- The guard of `d` holds. -/
theorem Lets.of_guard (hpos : 0 < v (.full d)) (hother : v (.full d.other) < 10) :
    Lets v (.guardOther d) := by
  refine .look trivial fun r hline => ?_
  simp only [Road.consume, hline, if_pos hother]
  exact .guardOwn (Or.inr hpos)

/-- When one guard holds, the consumer comes round to it from anywhere. -/
theorem Lets.round (hpos : 0 < v (.full d)) (hother : v (.full d.other) < 10)
    (hlooks : line.Looks) : Lets v line := by
  have hother' : d.other.other = d := by cases d <;> rfl
  have hd : Lets v (.guardOther d) := .of_guard hpos hother
  have hd' : Lets v (.guardOther d.other) := .guardOther (.idleNorth (hother'.symm ▸ hd))
  have hall : ∀ e, Lets v (.guardOther e) := fun e => by
    cases d <;> cases e <;> first
      | exact hd
      | exact hd'
  cases line with
  | guardOther e => exact hall e
  | guardOwn e => exact .guardOwn (Or.inl (.idleNorth (hall e.other)))
  | idleNorth e => exact .idleNorth (hall e.other)
  | idleSouth e => exact .idleSouth (hall e.other)
  | idle e => exact .idle (hall e.other)
  | _ => exact hlooks.elim

/-! ### Bringing a car -/

/-- The producer of `d` can bring a car, while the consumer stays where it is and the other
lane gets none. -/
def Brings (d : Direction) (s : System) : Prop :=
  ∃ t, Reaches step s t ∧ t.road.line = s.road.line ∧
    t.value (.full d) = s.value (.full d) + 1 ∧
    ∀ d', d' ≠ d → t.value (.full d') = s.value (.full d')

theorem Brings.of_reaches (hreach : Reaches step s t) (hline : t.road.line = s.road.line)
    (hfull : ∀ d, t.value (.full d) = s.value (.full d)) (h : Brings d t) : Brings d s := by
  obtain ⟨w, hw, hwline, hwfull, hwother⟩ := h
  refine ⟨w, hreach.trans hw, hwline.trans hline, ?_, fun d' hne => ?_⟩
  · rw [hwfull, hfull]
  · rw [hwother d' hne, hfull]

theorem brings_of_upFull (hline : (s.road.lane d).line = .upFull) : Brings d s := by
  have hcall : s.road.call (.producer d) = some (.up (.full d)) := by simp [Road.call, hline]
  refine ⟨_, .of_step (step_of_up hcall), rfl, ?_, fun d' hne => ?_⟩
  · simp only [Function.update_self]
  · exact Function.update_of_ne (by simpa using hne) _ _

theorem brings_of_inside (hinside : (s.road.lane d).line.inside = 1) : Brings d s := by
  obtain ⟨t, hreach, hline, hup, -, hvalue⟩ := releases_of_inside hinside
  refine .of_reaches hreach hline (fun d' => ?_) (brings_of_upFull hup)
  rw [hvalue]
  exact Function.update_of_ne (by simp) _ _

/-- A producer that waits for the mutex, when it is free. -/
theorem brings_of_free (hline : (s.road.lane d).line = .downMutex) (hpos : 0 < s.value .mutex) :
    Brings d s := by
  have hcall : s.road.call (.producer d) = some (.down .mutex) := by simp [Road.call, hline]
  refine .of_reaches (.of_step (step_of_down hcall hpos)) rfl (fun d' => by simp)
    (brings_of_inside ?_)
  simp [Road.next, Road.setLane, Road.produceNext, hline, ProducerLine.inside]

/-- A producer that waits for the mutex, when the consumer has not got it. -/
theorem brings_of_downMutex (h : Sound s) (hlooks : s.road.line.Looks)
    (hline : (s.road.lane d).line = .downMutex) : Brings d s := by
  by_cases hpos : 0 < s.value .mutex
  · exact brings_of_free hline hpos
  · -- the other producer has it
    have hother : (s.road.lane d.other).line.inside = 1 := by
      have hmutex := h.mutex
      have hnonneg := h.mutex_nonneg
      have hoff : (s.road.lane d).line.inside = 0 := by rw [hline]; rfl
      cases d <;> simp only [Road.inside, hlooks.free.2, Direction.other] at hmutex hoff ⊢ <;>
        linarith
    obtain ⟨t, hreach, htline, -, hlane, hvalue⟩ := releases_of_inside hother
    have hne : d ≠ d.other := by cases d <;> decide
    refine .of_reaches hreach htline (fun d' => ?_) (brings_of_free ?_ ?_)
    · rw [hvalue]
      exact Function.update_of_ne (by simp) _ _
    · rw [hlane d hne, hline]
    · rw [hvalue, Function.update_self]
      linarith [h.mutex_nonneg]

/-- To a lane that is not full its producer can bring a car, when the consumer has not
got the mutex. -/
theorem Sound.brings (h : Sound s) (hlooks : s.road.line.Looks)
    (hroom : s.value (.full d) < 10) : Brings d s := by
  cases hline : (s.road.lane d).line
  case downEmpty =>
    have hplaces := (h.lane d).places
    rw [(hlooks.free.1 d).1, (hlooks.free.1 d).2, hline, ProducerLine.slot] at hplaces
    have hpos : 0 < s.value (.empty d) := by
      rw [cast_buffSize] at hplaces
      linarith
    have hcall : s.road.call (.producer d) = some (.down (.empty d)) := by simp [Road.call, hline]
    have hstep := step_of_down hcall hpos
    refine .of_reaches (.of_step hstep) rfl (fun d' => by simp)
      (brings_of_downMutex (h.preserved hstep) hlooks ?_)
    simp [Road.next, Road.setLane, Road.produceNext, hline]
  case downMutex => exact brings_of_downMutex h hlooks hline
  case upFull => exact brings_of_upFull hline
  all_goals exact brings_of_inside (by rw [hline]; rfl)

/-! ## When the traffic has stopped -/

/-- A car that the consumer can choose. -/
theorem passes_of_choice (h : Sound s) (hlooks : s.road.line.Looks)
    (hpos : 0 < s.value (.full d)) (hother : s.value (.full d.other) < 10) : Passes s :=
  Lets.round hpos hother hlooks s h rfl rfl

/-- The consumer looks, and one of the lanes has a place left. -/
theorem passes_of_looks (h : Sound s) (hlooks : s.road.line.Looks)
    (hroom : s.value (.full .north) < 10 ∨ s.value (.full .south) < 10) : Passes s := by
  have hnorth := (h.lane .north).full_nonneg
  have hsouth := (h.lane .south).full_nonneg
  rcases hnorth.lt_or_eq with hn | hn
  · rcases hsouth.lt_or_eq with hs | hs
    · rcases hroom with hroom | hroom
      · exact passes_of_choice (d := .south) h hlooks hs hroom
      · exact passes_of_choice (d := .north) h hlooks hn hroom
    · exact passes_of_choice (d := .north) h hlooks hn (by simp [Direction.other, ← hs])
  · rcases hsouth.lt_or_eq with hs | hs
    · exact passes_of_choice (d := .south) h hlooks hs (by simp [Direction.other, ← hn])
    · -- no car waits: one has to come first
      obtain ⟨t, hreach, hline, hfull, hother⟩ := h.brings (d := .north) hlooks (by simp [← hn])
      have ht : Sound t := hreach.invariant h fun _ _ _ hs hstep => hs.preserved hstep
      refine .of_reaches hreach (passes_of_choice (d := .north) ht (hline ▸ hlooks) ?_ ?_)
      · rw [hfull, ← hn]
        decide
      · rw [Direction.other, hother .south (by decide), ← hs]
        decide

/-- After a car has passed, the consumer looks again. -/
theorem passes_of_upEmpty (h : Sound s) (hline : s.road.line = .upEmpty d) : Passes s := by
  have hcall : s.road.call .consumer = some (.up (.empty d)) := by simp [Road.call, hline]
  have hstep := step_of_up hcall
  refine .of_step hstep (passes_of_looks (h.preserved hstep) (by simp [Road.next, hline]; trivial) ?_)
  -- the place that is being given back is one that no waiting car has
  have hx := h.lane d
  have hplaces := hx.places
  have hempty := hx.empty_nonneg
  have hslot := (s.road.lane d).line.slot_range.1
  have hclaimed := (s.road.line.claimed_nonneg d).1
  rw [hline, ConsumerLine.freed, if_pos rfl] at hplaces
  rw [hline] at hclaimed
  rw [cast_buffSize] at hplaces
  have hfull : s.value (.full d) < 10 := by linarith
  cases d with
  | north => exact Or.inl hfull
  | south => exact Or.inr hfull

theorem passes_of_upMutex (h : Sound s) (hline : s.road.line = .upMutex d) : Passes s := by
  have hcall : s.road.call .consumer = some (.up .mutex) := by simp [Road.call, hline]
  have hstep := step_of_up hcall
  exact .of_step hstep
    (passes_of_upEmpty (d := d) (h.preserved hstep) (by simp [Road.next, hline]))

/-- Without a gridlock a car can get through. -/
theorem Sound.passes (h : Sound s) (hg : ¬Gridlock s) : Passes s := by
  have hroom : s.road.line.Undecided →
      s.value (.full .north) < 10 ∨ s.value (.full .south) < 10 := by
    intro hundecided
    by_contra hnot
    obtain ⟨hn, hs⟩ := not_or.mp hnot
    refine hg ⟨fun d => le_antisymm (h.sharedMemory.values _).2 ?_, hundecided⟩
    cases d with
    | north => exact not_lt.mp hn
    | south => exact not_lt.mp hs
  cases hline : s.road.line
  case take d | count d | enter d | leave d => exact passes_of_inside (d := d) (by simp [hline])
  case downMutex d => exact passes_of_downMutex h hline
  case downFull d => exact passes_of_downFull h hline
  case upMutex d => exact passes_of_upMutex h hline
  case upEmpty d => exact passes_of_upEmpty h hline
  case guardOwn d =>
    rcases (h.lane d).full_nonneg.lt_or_eq with hpos | hzero
    · exact Lets.guardOwn (Or.inr hpos) s h rfl hline
    · refine passes_of_looks h (by rw [hline]; trivial) ?_
      cases d with
      | north => exact Or.inl (by simp [← hzero])
      | south => exact Or.inr (by simp [← hzero])
  all_goals
    have hundecided : s.road.line.Undecided := by rw [hline]; trivial
    exact passes_of_looks h hundecided.looks (hroom hundecided)

/-- **Gridlock.** Whatever the order in which the processes take their steps, with
semaphores that are atomic counters: the traffic has stopped for good exactly when both
lanes are full and the consumer has yet to look at their values. Then no further car ever
gets into the zone, and in any other state the processes can take steps after which there
is one in it. -/
theorem gridlock_iff (ps : List Process) :
    Runs.Always step (fun s => Gridlock s ↔ ∀ t, Reaches step s t → t.road.inZone = none)
      System.init ps := by
  have hsound : Runs.Always step Sound System.init ps :=
    Runs.Guarded.trivial.always .init fun _ _ _ hs _ hstep => hs.preserved hstep
  refine hsound.mono fun s hs => ⟨fun hg t hreach => ?_, fun hnone => ?_⟩
  · have hboth : Sound t ∧ Gridlock t :=
      hreach.invariant (P := fun s => Sound s ∧ Gridlock s) ⟨hs, hg⟩ fun _ _ _ h hstep =>
        ⟨h.1.preserved hstep, h.2.preserved h.1 hstep⟩
    exact hboth.2.undecided.inZone
  · by_contra hg
    obtain ⟨t, hreach, hzone⟩ := hs.passes hg
    exact hzone (hnone t hreach)

/-! ## It can always stop -/

/-- The producers can fill up a lane while the consumer stays where it is. -/
theorem Sound.fills (h : Sound s) (hlooks : s.road.line.Looks) (d : Direction) :
    ∃ t, Reaches step s t ∧ t.road.line = s.road.line ∧ t.value (.full d) = buffSize ∧
      ∀ d', d' ≠ d → t.value (.full d') = s.value (.full d') := by
  obtain ⟨k, hk⟩ : ∃ k : ℕ, s.value (.full d) + k = buffSize :=
    Int.le.dest (h.sharedMemory.values _).2
  -- one car more for each place left
  induction k generalizing s with
  | zero => exact ⟨s, .refl s, rfl, by simpa using hk, fun _ _ => rfl⟩
  | succ k ih =>
    rw [cast_buffSize, Nat.cast_succ] at hk
    have hroom : s.value (.full d) < 10 := by linarith [Int.natCast_nonneg k]
    obtain ⟨t, hreach, hline, hfull, hother⟩ := h.brings hlooks hroom
    have ht : Sound t := hreach.invariant h fun _ _ _ hs hstep => hs.preserved hstep
    obtain ⟨w, hw, hwline, hwfull, hwother⟩ := ih ht (hline ▸ hlooks)
      (by linarith [cast_buffSize])
    exact ⟨w, hreach.trans hw, hwline.trans hline, hwfull,
      fun d' hne => (hwother d' hne).trans (hother d' hne)⟩

/-- While the consumer hesitates both lanes can fill up. -/
theorem Sound.gridlocks (h : Sound s) (hundecided : s.road.line.Undecided) :
    ∃ t, Reaches step s t ∧ Gridlock t := by
  obtain ⟨t, hreach, hline, hnorth, -⟩ := h.fills hundecided.looks .north
  have ht : Sound t := hreach.invariant h fun _ _ _ hs hstep => hs.preserved hstep
  have hundecided' : t.road.line.Undecided := hline ▸ hundecided
  obtain ⟨w, hw, hwline, hsouth, hother⟩ := ht.fills hundecided'.looks .south
  refine ⟨w, hreach.trans hw, fun d => ?_, hwline ▸ hundecided'⟩
  cases d with
  | north => rw [hother .north (by decide), hnorth]
  | south => exact hsouth

/-- A car leaves the zone, and the consumer looks for the next one. -/
theorem looks_of_inZone (hzone : s.road.inZone ≠ none) :
    ∃ t, Reaches step s t ∧ t.road.line.Undecided := by
  obtain ⟨d, hline⟩ : ∃ d, s.road.line = .leave d := by
    cases hline : s.road.line <;> first
      | exact ⟨_, rfl⟩
      | exact absurd (by simp [Road.inZone, hline]) hzone
  have hleave := step_of_act (s := s) (p := .consumer) (by simp [Road.call, hline])
  set s₁ : System := { s with road := s.road.act s.value .consumer } with hs₁
  have hline₁ : s₁.road.line = .upMutex d := by simp [hs₁, Road.act, Road.consume, hline]
  have hcall₁ : s₁.road.call .consumer = some (.up .mutex) := by simp [Road.call, hline₁]
  have hupMutex := step_of_up hcall₁
  set s₂ : System := { road := s₁.road.next .consumer, value := _ } with hs₂
  have hline₂ : s₂.road.line = .upEmpty d := by simp [hs₂, Road.next, hline₁]
  have hcall₂ : s₂.road.call .consumer = some (.up (.empty d)) := by simp [Road.call, hline₂]
  refine ⟨_, .trans (.of_step hleave) (.trans (.of_step hupMutex) (.of_step (step_of_up hcall₂))), ?_⟩
  simp [Road.next, hline₂]
  trivial

/-- **The traffic can always stop.** From every state in which the system with atomic
semaphores can be, the processes can take steps that lead to a gridlock. -/
theorem gridlock_threatens (ps : List Process) :
    Runs.Always step (fun s => ∃ t, Reaches step s t ∧ Gridlock t) System.init ps := by
  have hsound : Runs.Always step Sound System.init ps :=
    Runs.Guarded.trivial.always .init fun _ _ _ hs _ hstep => hs.preserved hstep
  refine hsound.mono fun s hs => ?_
  by_cases hg : Gridlock s
  · exact ⟨s, .refl s, hg⟩
  · obtain ⟨t, hreach, hzone⟩ := hs.passes hg
    obtain ⟨t', hreach', hundecided⟩ := looks_of_inZone hzone
    have ht' : Sound t' := (hreach.trans hreach').invariant hs fun _ _ _ hs hstep =>
      hs.preserved hstep
    obtain ⟨w, hw, hgrid⟩ := ht'.gridlocks hundecided
    exact ⟨w, (hreach.trans hreach').trans hw, hgrid⟩

end Csc452.Trafficsim
