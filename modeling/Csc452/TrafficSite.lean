import Csc452.TrafficAccounts
import Csc452.Simulation

/-!
# What an onlooker sees

The construction site as somebody standing at it would describe it (`Site`): cars
arrive with consecutive numbers and line up, ten in a lane at most; the zone takes
one car at a time, the first of its lane; and when the flagperson is asleep, it is
the car that blew its horn that goes first.

The sequence of the `printf` calls of `trafficsim.c` is such a description. At every
moment the site is a function of the road (`Road.site`), and the lines that a step passes
to `printf`, in that order, lead from the site before the step to the one after it
(`Sound.shows`). So the whole sequence is a possible course of events at the site
(`output_describes_site`), though what three buffered processes put on a terminal may
come in another order.
-/

namespace Csc452.Trafficsim

open Prodcons (Direction)

/-! ## The site -/

/-- The flagperson. -/
inductive Flag : Type where
  /-- asleep -/
  | asleep
  /-- asleep, and a car has blown its horn -/
  | called (car : ℕ) (d : Direction)
  /-- awake for that car -/
  | woken (car : ℕ) (d : Direction)
  /-- awake -/
  | awake
  deriving DecidableEq

/-- A construction site. -/
@[ext] structure Site : Type where
  /-- the number of the next car to arrive -/
  next : Direction → ℕ
  /-- the cars that wait, the first one first -/
  queue : Direction → List ℕ
  /-- the car in the zone -/
  zone : Option (ℕ × Direction)
  /-- the flagperson -/
  flag : Flag

namespace Site

/-- Before anything happens. -/
def init : Site := { next := fun _ => 0, queue := fun _ => [], zone := none, flag := .asleep }

/-- May a car enter the zone, as far as the flagperson is concerned? -/
def Flag.Admits (flag : Flag) (car : ℕ) (d : Direction) : Prop :=
  flag = .awake ∨ flag = .woken car d

instance (flag : Flag) (car : ℕ) (d : Direction) : Decidable (Flag.Admits flag car d) :=
  inferInstanceAs (Decidable (_ ∨ _))

/-- Whether something can happen at the site, and what it is like then. -/
def step (w : Site) : Line → Option Site
  | .arrived car d =>
    if car = w.next d ∧ (w.queue d).length < buffSize then
      some { w with
        next := Function.update w.next d (car + 1)
        queue := Function.update w.queue d (w.queue d ++ [car]) }
    else none
  | .horn car d =>
    if w.flag = .asleep ∧ w.zone = none ∧ (w.queue d).head? = some car then
      some { w with flag := .called car d }
    else none
  | .awake =>
    match w.flag with
    | .called car d => some { w with flag := .woken car d }
    | _ => none
  | .entered car d =>
    if Flag.Admits w.flag car d ∧ w.zone = none ∧ (w.queue d).head? = some car then
      some { w with
        queue := Function.update w.queue d (w.queue d).tail
        zone := some (car, d)
        flag := .awake }
    else none
  | .left car d => if w.zone = some (car, d) then some { w with zone := none } else none
  | .asleep =>
    if w.flag = .awake ∧ w.zone = none then some { w with flag := .asleep } else none

end Site

/-! ## The site of a road -/

/-- The number of cars whose arrival has been announced. -/
def Lane.arrivals (x : Lane) : ℕ := if x.line = .arrive then x.prod - 1 else x.prod

namespace Road

variable (r : Road)

/-- The number of cars that have entered the zone. -/
def entries (d : Direction) : ℕ :=
  if r.line = .enter d then (r.lane d).con - 1 else (r.lane d).con

/-- The car in the zone. -/
def inZone : Option (ℕ × Direction) :=
  match r.line with
  | .leave d => some (r.car, d)
  | _ => none

/-- The site that the road is. -/
def site : Site where
  next d := (r.lane d).arrivals
  queue d := List.range' (r.entries d) ((r.lane d).arrivals - r.entries d)
  zone := r.inZone
  flag := if r.conSleep = 1 then .asleep else .awake

end Road

theorem Road.site_init : Road.init.site = Site.init := by
  simp [site, Site.init, init, Lane.arrivals, entries, inZone]

/-- The lines that a step passes to `printf`, in the order of the calls, are what
happens at the site. -/
def Shows (r r' : Road) : Prop :=
  ∃ new, r'.output = new ++ r.output ∧ Runs.run Site.step r.site new.reverse = some r'.site

variable {s t : System} {d : Direction} {r r' : Road}

/-- A step that prints nothing, and changes nothing that can be seen. -/
theorem Shows.of_silent (houtput : r'.output = r.output)
    (harrivals : ∀ d, (r'.lane d).arrivals = (r.lane d).arrivals)
    (hentries : ∀ d, r'.entries d = r.entries d) (hzone : r'.inZone = r.inZone)
    (hsleep : r'.conSleep = r.conSleep) : Shows r r' := by
  refine ⟨[], houtput, ?_⟩
  have hsite : r'.site = r.site := by simp only [Road.site, harrivals, hentries, hzone, hsleep]
  rw [hsite]
  rfl

/-- A producer that prints nothing. -/
theorem Shows.of_lane {y : Lane} (h : y.arrivals = (r.lane d).arrivals)
    (hcon : y.con = (r.lane d).con) : Shows r (r.setLane d y) := by
  refine .of_silent rfl (fun d' => ?_) (fun d' => ?_) rfl rfl
  all_goals
    rcases eq_or_ne d' d with rfl | hne
    · simp [Road.setLane, Road.entries, h, hcon]
    · simp [Road.setLane, Road.entries, hne]

/-- The lines at which the consumer neither lets a car in nor has one in the zone. -/
def ConsumerLine.Clear : ConsumerLine → Prop
  | .enter _ => False
  | .leave _ => False
  | _ => True

theorem Road.entries_of_clear (h : r.line.Clear) (d : Direction) :
    r.entries d = (r.lane d).con :=
  if_neg fun heq => by rw [heq] at h; exact h

theorem Road.inZone_of_clear (h : r.line.Clear) : r.inZone = none := by
  unfold inZone
  split
  · next heq =>
    rw [heq] at h
    exact h.elim
  · rfl

/-- The consumer goes from one such line to another. -/
theorem Shows.of_clear (hs : r.line.Clear) (ht : r'.line.Clear) (hlane : r'.lane = r.lane)
    (hsleep : r'.conSleep = r.conSleep) (houtput : r'.output = r.output) : Shows r r' := by
  refine .of_silent houtput (fun d => by rw [hlane]) (fun d => ?_) ?_ hsleep
  · rw [Road.entries_of_clear hs, Road.entries_of_clear ht, hlane]
  · rw [Road.inZone_of_clear hs, Road.inZone_of_clear ht]

theorem Road.entries_le (r : Road) (d : Direction) : r.entries d ≤ (r.lane d).con := by
  unfold entries
  split
  · exact Nat.sub_le _ 1
  · exact le_rfl

/-- Nobody enters without having arrived. -/
theorem Sound.con_le_arrivals (h : Sound s) (d : Direction) :
    (s.road.lane d).con ≤ (s.road.lane d).arrivals := by
  have hwaiting := (h.lane d).waiting
  have hfull := (h.lane d).full_nonneg
  have hclaimed := (s.road.line.claimed_nonneg d).1
  have hcounted := (s.road.lane d).line.counted_range.1
  unfold Lane.arrivals
  split
  · next hline =>
    rw [hline] at hwaiting
    have hpos : ((s.road.lane d).con : ℤ) < (s.road.lane d).prod := by
      rw [hwaiting, ProducerLine.counted]
      linarith
    exact Nat.le_sub_one_of_lt (by exact_mod_cast hpos)
  · have hle : ((s.road.lane d).con : ℤ) ≤ (s.road.lane d).prod := by linarith
    exact_mod_cast hle

/-- There is room for a car whose arrival is about to be announced: while the producer
is inside, the consumer is not. -/
theorem Sound.room_to_arrive (h : Sound s) (hline : (s.road.lane d).line = .arrive)
    (hcar : (s.road.lane d).prod = (s.road.lane d).car + 1) :
    (s.road.lane d).car < s.road.entries d + buffSize := by
  have hclear : s.road.line.Clear := by
    by_contra hclear
    have hconsumer : s.road.inside .consumer = 1 := by
      cases hl : s.road.line <;> first
        | simp [Road.inside, hl, ConsumerLine.inside]
          done
        | exact absurd (by rw [hl]; trivial) hclear
    have hproducer : s.road.inside (.producer d) = 1 := by
      simp [Road.inside, hline, ProducerLine.inside]
    exact Process.noConfusion (h.sharedMemory.exclusive _ _ hconsumer hproducer)
  have hle := (h.lane d).prod_le (s.road.line.claimed_nonneg d).2
  rw [Road.entries_of_clear hclear]
  rw [hcar] at hle
  exact Nat.lt_of_succ_le hle

/-- A car arrives: there is room, and it gets the next number. -/
theorem Sound.shows_arrive (h : Sound s) (hline : (s.road.lane d).line = .arrive) :
    Shows s.road (s.road.produce d) := by
  have hx := h.lane d
  have hcar : (s.road.lane d).prod = (s.road.lane d).car + 1 := by
    have hannounced := hx.announced (Or.inl hline)
    rw [hline, ProducerLine.counted] at hannounced
    exact_mod_cast hannounced.symm
  have harrivals : (s.road.lane d).arrivals = (s.road.lane d).car := by
    rw [Lane.arrivals, if_pos hline, hcar, Nat.add_sub_cancel]
  have hle : s.road.entries d ≤ (s.road.lane d).car :=
    harrivals ▸ (s.road.entries_le d).trans (h.con_le_arrivals d)
  have hroom : (s.road.lane d).car < s.road.entries d + buffSize := h.room_to_arrive hline hcar
  refine ⟨[.arrived (s.road.lane d).car d], by simp [Road.produce, hline], ?_⟩
  have hlength : (List.range' (s.road.entries d) ((s.road.lane d).car - s.road.entries d)).length <
      buffSize := by
    rw [List.length_range']
    exact (Nat.sub_lt_iff_lt_add' hle).mpr hroom
  have happend : List.range' (s.road.entries d) ((s.road.lane d).car + 1 - s.road.entries d) =
      List.range' (s.road.entries d) ((s.road.lane d).car - s.road.entries d) ++
        [(s.road.lane d).car] := by
    rw [Nat.sub_add_comm hle, List.range'_concat, Nat.one_mul, Nat.add_sub_cancel' hle]
  rw [List.reverse_singleton, Runs.run_singleton, Site.step,
    if_pos ⟨harrivals.symm, by simpa only [Road.site, harrivals] using hlength⟩]
  have hentries : (s.road.produce d).entries d = s.road.entries d := by
    simp [Road.produce, hline, Road.setLane, Road.entries]
  have harrivals' : ((s.road.produce d).lane d).arrivals = (s.road.lane d).car + 1 := by
    simp [Road.produce, hline, Road.setLane, Lane.arrivals, hcar]
  refine congrArg some (Site.ext ?_ ?_ ?_ ?_)
  · funext d'
    rcases eq_or_ne d' d with rfl | hne
    · simp only [Function.update_self]
      exact harrivals'.symm
    · simp [Road.site, Road.produce, hline, Road.setLane, hne]
  · funext d'
    rcases eq_or_ne d' d with rfl | hne
    · simp only [Function.update_self, Road.site, hentries, harrivals', harrivals, happend]
    · simp [Road.site, Road.produce, hline, Road.setLane, Road.entries, hne]
  · simp [Road.site, Road.produce, hline, Road.setLane, Road.inZone]
  · simp [Road.site, Road.produce, hline, Road.setLane]

/-- A step of a producer. -/
theorem Sound.shows_produce (h : Sound s) (hstep : step s (.producer d) = some t) :
    Shows s.road t.road := by
  cases hline : (s.road.lane d).line <;>
    simp only [step, Road.call, Road.next, Road.produceNext, Road.act, hline] at hstep
  case downEmpty | downMutex =>
    split at hstep
    · obtain rfl := Option.some.inj hstep
      exact .of_lane (by simp [Lane.arrivals, hline]) rfl
    · cases hstep
  case upMutex | upFull =>
    obtain rfl := Option.some.inj hstep
    exact .of_lane (by simp [Lane.arrivals, hline]) rfl
  case arrive =>
    obtain rfl := Option.some.inj hstep
    exact h.shows_arrive hline
  case take | store | count =>
    obtain rfl := Option.some.inj hstep
    simp only [Road.produce, hline]
    exact .of_lane (by simp [Lane.arrivals, hline]) rfl

/-- The consumer counts a car, which is about to enter. -/
theorem Shows.of_count (hline : r.line = .count d) :
    Shows r { r.setLane d { r.lane d with con := (r.lane d).con + 1 } with line := .enter d } := by
  refine .of_silent rfl (fun d' => ?_) (fun d' => ?_) ?_ rfl
  · rcases eq_or_ne d' d with rfl | hne
    · simp [Road.setLane, Lane.arrivals]
    · simp [Road.setLane, hne]
  · rw [Road.entries_of_clear (r := r) (by rw [hline]; trivial)]
    rcases eq_or_ne d' d with rfl | hne
    · simp [Road.entries, Road.setLane]
    · simp [Road.entries, Road.setLane, hne, hne.symm]
  · rw [Road.inZone_of_clear (r := r) (by rw [hline]; trivial)]
    rfl

/-- The first car of a lane enters, and blows its horn before if it has to. -/
theorem Sound.shows_enter (h : Sound s) (hline : s.road.line = .enter d) :
    Shows s.road (s.road.consume s.value) := by
  have hcar := h.printed d (Or.inl hline)
  have hentries : s.road.entries d = s.road.car := by
    rw [Road.entries, if_pos hline, ← hcar, Nat.add_sub_cancel]
  have hle := h.con_le_arrivals d
  rw [← hcar] at hle
  have hqueue : s.road.site.queue d = s.road.car ::
      List.range' (s.road.car + 1) ((s.road.lane d).arrivals - (s.road.car + 1)) := by
    have hlength : (s.road.lane d).arrivals - s.road.car =
        (s.road.lane d).arrivals - (s.road.car + 1) + 1 := by omega
    simp only [Road.site, hentries, hlength, List.range'_succ]
  have hzone : s.road.site.zone = none := by simp [Road.site, Road.inZone, hline]
  -- what the site is like once the car is in
  have hafter : (s.road.consume s.value).site =
      { s.road.site with
        queue := Function.update s.road.site.queue d (s.road.site.queue d).tail
        zone := some (s.road.car, d)
        flag := .awake } := by
    refine Site.ext ?_ ?_ ?_ ?_
    · simp [Road.site, Road.consume, hline]
    · funext d'
      rcases eq_or_ne d' d with rfl | hne
      · simp only [Function.update_self, hqueue, List.tail_cons]
        simp [Road.site, Road.consume, hline, Road.entries, hcar]
      · simp [Road.site, Road.consume, hline, Road.entries, hne, hne.symm]
    · simp [Road.site, Road.consume, hline, Road.inZone]
    · simp only [Road.site, Road.consume, hline]
      split <;> simp
  have hhead : (s.road.site.queue d).head? = some s.road.car := by rw [hqueue]; rfl
  refine ⟨s.road.entrance d, by simp [Road.consume, hline], ?_⟩
  rw [hafter]
  by_cases hsleep : s.road.conSleep = 1
  · have hflag : s.road.site.flag = .asleep := if_pos hsleep
    simp [Road.entrance, hsleep, Runs.run, Site.step, hflag, hzone, hhead, Site.Flag.Admits]
  · have hflag : s.road.site.flag = .awake := if_neg hsleep
    simp [Road.entrance, hsleep, Runs.run, Site.step, hflag, hzone, hhead, Site.Flag.Admits]

/-- A step of the consumer. -/
theorem Sound.shows_consume (h : Sound s) (hstep : step s .consumer = some t) :
    Shows s.road t.road := by
  cases hline : s.road.line <;> simp only [step, Road.call, Road.next, Road.act, hline] at hstep
  case downFull | downMutex =>
    split at hstep
    · obtain rfl := Option.some.inj hstep
      exact .of_clear (by rw [hline]; trivial) trivial rfl rfl rfl
    · cases hstep
  case upMutex | upEmpty =>
    obtain rfl := Option.some.inj hstep
    exact .of_clear (by rw [hline]; trivial) trivial rfl rfl rfl
  case take d =>
    obtain rfl := Option.some.inj hstep
    simp only [Road.consume, hline]
    exact .of_clear (by rw [hline]; trivial) trivial rfl rfl rfl
  case count d =>
    obtain rfl := Option.some.inj hstep
    simp only [Road.consume, hline]
    exact .of_count hline
  case enter d =>
    obtain rfl := Option.some.inj hstep
    exact h.shows_enter hline
  case leave d =>
    obtain rfl := Option.some.inj hstep
    simp only [Road.consume, hline]
    refine ⟨[.left s.road.car d], rfl, ?_⟩
    have hzone : s.road.site.zone = some (s.road.car, d) := by simp [Road.site, Road.inZone, hline]
    rw [List.reverse_singleton, Runs.run_singleton, Site.step, if_pos hzone]
    simp [Road.site, Road.entries, Road.inZone, hline]
  case idle d =>
    obtain rfl := Option.some.inj hstep
    simp only [Road.consume, hline]
    split
    · next hawake =>
      refine ⟨[.asleep], rfl, ?_⟩
      have hflag : s.road.site.flag = .awake := by simp [Road.site, hawake]
      have hzone : s.road.site.zone = none := by simp [Road.site, Road.inZone, hline]
      rw [List.reverse_singleton, Runs.run_singleton, Site.step, if_pos ⟨hflag, hzone⟩]
      simp [Road.site, Road.entries, Road.inZone, hline]
    · exact .of_clear (by rw [hline]; trivial) trivial rfl rfl rfl
  all_goals
    obtain rfl := Option.some.inj hstep
    simp only [Road.consume, hline]
    refine .of_clear (by rw [hline]; trivial) ?_ rfl rfl rfl
    simp only
    split <;> trivial

/-- A step of any process. -/
theorem Sound.shows (h : Sound s) {p : Process} (hstep : step s p = some t) :
    Shows s.road t.road := by
  cases p with
  | producer d => exact h.shows_produce hstep
  | consumer => exact h.shows_consume hstep

/-- The accounts are in order, and the output leads to the site that the road is. -/
structure Described (s : System) : Prop where
  /-- the accounts -/
  sound : Sound s
  /-- the output -/
  output : Runs.run Site.step Site.init s.road.output.reverse = some s.road.site

theorem Described.init : Described System.init where
  sound := .init
  output := congrArg some Road.site_init.symm

theorem Described.preserved (h : Described s) {p : Process} (hstep : step s p = some t) :
    Described t where
  sound := h.sound.preserved hstep
  output := by
    obtain ⟨new, houtput, hrun⟩ := h.sound.shows hstep
    rw [houtput, List.reverse_append]
    exact Runs.run_append h.output hrun

/-- **The output describes the site.** Whatever the order in which the processes take
their steps, with semaphores that are atomic counters: the lines passed to `printf` up to
any moment are, in the order of the calls, a possible course of events at the site, and
lead to the site that the road is. In either lane the cars arrive with the numbers
0, 1, 2, … and enter the zone in that order, ten wait at most, the zone holds one car at a
time, and a car blows its horn if and only if it comes to an empty zone with the flagperson
asleep, and is the next to enter. -/
theorem output_describes_site (ps : List Process) :
    Runs.Always step
      (fun s => Runs.run Site.step Site.init s.road.output.reverse = some s.road.site)
      System.init ps := by
  have hdescribed : Runs.Always step Described System.init ps :=
    Runs.Guarded.trivial.always .init fun _ _ _ hs _ hstep => hs.preserved hstep
  exact hdescribed.mono fun _ hs => hs.output

end Csc452.Trafficsim
