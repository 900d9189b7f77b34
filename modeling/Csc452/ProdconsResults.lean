import Csc452.ProdconsBalance

/-!
# What can happen on the road

Two properties that the three processes are meant to have, each with the exact
condition on the steps of a run under which they have it.

A deadlock is a state with ten cars in both queues and both producers waiting for a
place: each guard of the flagperson wants the opposite queue to have less than ten
cars (`notStuck_iff`). He waits for a car on a side that has none when he trusts a
size that is left over from the last car (`waitsForCar_iff`).
-/

namespace Csc452.Prodcons

variable {s t : System} {d : Direction} {g g' : Shared} {x x' : Side}

/-! ## Deadlock -/

/-- The guard of the loop of a direction, for the sizes as they are. -/
def LetsThrough (s : System) (d : Direction) : Prop :=
  0 < (s.side d).queue.size ∧ (s.side d.other).queue.size < 10

instance (s : System) (d : Direction) : Decidable (LetsThrough s d) :=
  inferInstanceAs (Decidable (_ ∧ _))

/-- There are cars, the producers wait, and the flagperson lets nobody through. -/
def Stuck (s : System) : Prop :=
  (∃ d, (s.side d).queue.cars ≠ []) ∧
    (∀ d, (s.side d).producer.line = .downEmpty ∧ (s.side d).empty = 0) ∧
    ∀ d, ¬ LetsThrough s d

instance (s : System) : Decidable (Stuck s) := inferInstanceAs (Decidable (_ ∧ _ ∧ _))

/-- Both queues hold `N` cars, and both producers are about to wait. -/
def Jammed (s : System) : Prop :=
  ∀ d, (s.side d).producer.line = .downEmpty ∧ (s.side d).queue.cars.length = N

/-- A producer comes back for another place while both queues are full and the other
producer waits. -/
def Jams (s : System) (d : Direction) : Prop :=
  (s.side d).producer.line = .upFull ∧ (s.side d.other).producer.line = .downEmpty ∧
    ∀ d', (s.side d').queue.cars.length = N

/-- A step that does not close the second side. -/
def LeavesRoom (s : System) (p : Process) : Prop := ∀ d, p = .producer d → ¬ Jams s d

/-- Waiting producers hold no place, so a full queue is what they wait for. -/
theorem Balanced.size_eq (h : Balanced s) (hline : (s.side d).producer.line = .downEmpty)
    (hne : (s.side d).queue.cars ≠ []) :
    (s.side d).queue.size = (s.side d).queue.cars.length :=
  (h.side d).size (by rw [hline]; decide) hne

/-- He holds a place of one side at most. -/
theorem FlagLine.freed_add_le (line : FlagLine) (d : Direction) :
    line.freed d + line.freed d.other ≤ 1 := by
  cases line with
  | upMutex d' | upEmpty d' => cases d <;> cases d' <;> decide
  | _ => exact Nat.zero_le _

/-- The system is stuck exactly when both queues are full and both producers wait. -/
theorem Balanced.stuck_iff (h : Balanced s) : Stuck s ↔ Jammed s := by
  have hplaces : ∀ d, (s.side d).producer.line = .downEmpty →
      (s.side d).empty + (s.side d).queue.cars.length + s.flag.freed d = 10 := by
    intro d hline
    have hp := (h.side d).places
    rw [hline] at hp
    exact hp
  have hsize : ∀ d, (s.side d).producer.line = .downEmpty → 0 < (s.side d).queue.cars.length →
      (s.side d).queue.size = (s.side d).queue.cars.length :=
    fun d hline hpos => h.size_eq hline (List.ne_nil_of_length_pos hpos)
  constructor
  · rintro ⟨-, hwait, hguard⟩ d
    refine ⟨(hwait d).1, ?_⟩
    have hd := hplaces d (hwait d).1
    have hother := hplaces d.other (hwait d.other).1
    have hfreed := s.flag.freed_add_le d
    rw [(hwait d).2] at hd
    rw [(hwait d.other).2] at hother
    -- otherwise the place he holds lets the cars of the other side through
    have hclosed := hguard d.other
    rw [LetsThrough, hsize _ (hwait d.other).1 (by omega),
      show d.other.other = d from by cases d <;> rfl, hsize d (hwait d).1 (by omega)] at hclosed
    rw [N]
    omega
  · intro hjam
    have hcars : ∀ d, (s.side d).queue.size = 10 := by
      intro d
      obtain ⟨hline, hlen⟩ := hjam d
      rw [hsize d hline (by rw [hlen]; decide), hlen]
      rfl
    refine ⟨⟨.north, ?_⟩, fun d => ⟨(hjam d).1, ?_⟩, fun d => ?_⟩
    · exact List.ne_nil_of_length_pos (by rw [(hjam _).2]; decide)
    · have hd := hplaces d (hjam d).1
      rw [(hjam d).2, N] at hd
      omega
    · rw [LetsThrough, hcars d.other]
      omega

/-- Where a producer comes to `down(empty)`. -/
theorem produceAt_downEmpty (h : produceAt d g x = some (g', x')) :
    (x'.producer.line = .downEmpty ↔ x.producer.line = .upFull) ∧
      (x.producer.line = .upFull → x'.queue = x.queue) := by
  cases hline : x.producer.line <;> simp only [produceAt, hline] at h
  case downEmpty | downMutex | count =>
    split at h <;> first
      | cases h
        done
      | obtain ⟨rfl, rfl⟩ := Prod.mk.inj (Option.some.inj h)
        simp
  case enqueue | resize =>
    obtain ⟨rfl, rfl⟩ := Prod.mk.inj (Option.some.inj h)
    rcases afterEnqueue_eq d with hafter | hafter <;> simp [hafter]
    all_goals split <;> simp
  all_goals
    obtain ⟨rfl, rfl⟩ := Prod.mk.inj (Option.some.inj h)
    simp

/-- The flagperson changes a queue only when he takes a car out. -/
theorem direct_queue (h : direct s = some t) :
    (∀ d, (t.side d).queue = (s.side d).queue) ∨
      ∃ d, s.flag = .dequeue d ∧ (t.side d).queue = (dequeue (s.side d).queue).2 := by
  have hsame : ∀ (d : Direction) (x : Side), x.queue = (s.side d).queue →
      ∀ d', (Function.update s.side d x d').queue = (s.side d').queue := by
    intro d x hx d'
    rcases eq_or_ne d' d with rfl | hne
    · rw [Function.update_self, hx]
    · rw [Function.update_of_ne hne]
  cases hline : s.flag <;> simp only [direct, hline] at h
  case idle | downMutex =>
    split at h <;> first
      | obtain rfl := Option.some.inj h
        exact .inl fun _ => rfl
      | cases h
  case downFull d =>
    split at h
    · cases h
    · obtain rfl := Option.some.inj h
      exact .inl (hsame d _ rfl)
  case upEmpty d =>
    obtain rfl := Option.some.inj h
    exact .inl (hsame d _ rfl)
  case dequeue d =>
    obtain rfl := Option.some.inj h
    exact .inr ⟨d, rfl, by simp only [Function.update_self]⟩
  all_goals
    obtain rfl := Option.some.inj h
    exact .inl fun _ => rfl

/-- The flagperson does not jam the queues. -/
theorem jammed_of_direct (h : Balanced s) (hstep : direct s = some t) (ht : Jammed t) :
    Jammed s := by
  obtain ⟨-, -, hproducer⟩ := direct_frame hstep
  rcases direct_queue hstep with hqueue | ⟨d, hflag, hqueue⟩
  · intro d
    obtain ⟨hline, hlen⟩ := ht d
    rw [hproducer] at hline
    rw [hqueue] at hlen
    exact ⟨hline, hlen⟩
  · -- with the car he takes out, there would have been one too many
    have hx := h.side d
    rw [hflag] at hx
    simp only [FlagLine.claimed, FlagLine.freed, if_pos] at hx
    have hlen := congrArg List.length hx.dequeue.1
    have hplaces := hx.places
    have hfull := (ht d).2
    rw [hqueue] at hfull
    rw [List.length_cons, hfull] at hlen
    omega

/-- Nor does a producer that leaves room. -/
theorem jammed_of_produce (hstep : produce s d = some t) (hroom : ¬ Jams s d)
    (ht : Jammed t) : Jammed s := by
  obtain ⟨hat, hothers, -⟩ := produce_eq_some hstep
  obtain ⟨hiff, hqueue⟩ := produceAt_downEmpty hat
  have hup := hiff.mp (ht d).1
  have hother : t.side d.other = s.side d.other := hothers _ (by cases d <;> decide)
  refine absurd ⟨hup, ?_, fun d' => ?_⟩ hroom
  · rw [← hother]
    exact (ht d.other).1
  · rcases eq_or_ne d' d with rfl | hne
    · rw [← hqueue hup]
      exact (ht d').2
    · rw [← hothers d' hne]
      exact (ht d').2

/-- A producer that does not leave room jams the queues. -/
theorem jammed_of_jams (hstep : produce s d = some t) (hjams : Jams s d) : Jammed t := by
  obtain ⟨hat, hothers, -⟩ := produce_eq_some hstep
  obtain ⟨hiff, hqueue⟩ := produceAt_downEmpty hat
  obtain ⟨hup, hother, hfull⟩ := hjams
  intro d'
  rcases eq_or_ne d' d with rfl | hne
  · exact ⟨hiff.mpr hup, by rw [hqueue hup, hfull]⟩
  · have hd' : d' = d.other := by
      cases d <;> cases d' <;> first
        | rfl
        | exact absurd rfl hne
    rw [hothers d' hne]
    exact ⟨hd' ▸ hother, hfull d'⟩

/-- **No deadlock**, in a run in which no producer comes back for a place while both
queues are full and the other producer waits; and only then. The processes take their steps
in any order. Both guards of the flagperson ask for less than ten cars on the other side, so
with two full queues he has no way to go. -/
theorem notStuck_iff (ps : List Process) :
    Runs.Always step (¬ Stuck ·) System.init ps ↔ Runs.Guarded step LeavesRoom System.init ps := by
  constructor
  · intro h
    refine h.guarded (I := Balanced) .init fun s p t _ hs hstep ht => ?_
    have hbalanced := hs.step hstep
    refine ⟨?_, hbalanced⟩
    rintro d rfl hjams
    exact ht (hbalanced.stuck_iff.mpr (jammed_of_jams hstep hjams))
  · intro h
    have hinv : Runs.Always step (fun s => Balanced s ∧ ¬ Jammed s) System.init ps := by
      refine h.always ⟨.init, ?_⟩ fun s p t hs hp hstep => ⟨hs.1.step hstep, fun ht => ?_⟩
      · exact fun hjam => absurd (hjam .north).2 (by decide)
      · refine hs.2 ?_
        cases p with
        | flagperson => exact jammed_of_direct hs.1 hstep ht
        | producer d => exact jammed_of_produce hstep (hp d rfl) ht
    exact hinv.mono fun s hs => mt hs.1.stuck_iff.mp hs.2

/-- Ten rounds of each producer, before the flagperson does anything. -/
theorem stuck_run : ¬ ∀ ps, Runs.Always step (¬ Stuck ·) System.init ps := by
  intro h
  have hlast := (h (List.replicate 70 (.producer .north) ++ List.replicate 80 (.producer .south))).all
  exact absurd hlast (by decide +kernel)

/-! ## Waiting for nobody -/

/-- The flagperson is blocked in `down(north_full)` or `down(south_full)`. -/
def WaitsFor (s : System) (d : Direction) : Prop := s.flag = .downFull d ∧ (s.side d).full = 0

instance (s : System) (d : Direction) : Decidable (WaitsFor s d) :=
  inferInstanceAs (Decidable (_ ∧ _))

/-- He only waits on a side with a car. -/
def WaitsForCar (s : System) : Prop := ∀ d, WaitsFor s d → (s.side d).queue.cars ≠ []

instance (s : System) : Decidable (WaitsForCar s) := inferInstanceAs (Decidable (∀ _, _ → _ ≠ _))

/-- The size is left over from the last car that was taken out. -/
def Stale (q : CarQueue) : Prop := isEmpty q = true ∧ 0 < q.size

/-- The last look of a guard that goes well. -/
def Enters (s : System) : Direction → Prop
  | .north => s.flag = .guardOther .north ∧ (s.side .south).queue.size < 10
  | .south => s.flag = .guardSize .south ∧ 0 < (s.side .south).queue.size

/-- A step that does not enter a loop for a size that is left over. -/
def Undeceived (s : System) (p : Process) : Prop :=
  p = .flagperson → ∀ d, Enters s d → ¬ Stale (s.side d).queue

/-- Entering a loop. -/
theorem Enters.direct (h : Enters s d) : direct s = some { s with flag := .downFull d } := by
  cases d with
  | north =>
    obtain ⟨hflag, hsize⟩ := h
    simp only [Prodcons.direct, hflag]
    rw [if_pos (show (s.side Direction.north.other).queue.size < 10 from hsize)]
  | south =>
    obtain ⟨hflag, hsize⟩ := h
    simp only [Prodcons.direct, hflag]
    rw [if_pos hsize]

/-- There is no other way to the second half of the northern guard, and to
`down(full)`: only the last look has to go well. -/
theorem direct_looks (h : direct s = some t) :
    (t.flag = .guardOther .north → 0 < (s.side .north).queue.size ∧ t.side = s.side) ∧
      ∀ d, t.flag = .downFull d → Enters s d ∧ t.side = s.side := by
  cases hline : s.flag <;> simp only [direct, hline] at h
  case downFull | downMutex =>
    split at h
    · cases h
    · obtain rfl := Option.some.inj h
      exact ⟨fun hflag => (by cases hflag), fun _ hflag => (by cases hflag)⟩
  case idle =>
    split at h <;>
    · obtain rfl := Option.some.inj h
      exact ⟨fun hflag => (by cases hflag), fun _ hflag => (by cases hflag)⟩
  case dequeue | upMutex =>
    obtain rfl := Option.some.inj h
    exact ⟨fun hflag => (by cases hflag), fun _ hflag => (by cases hflag)⟩
  case upEmpty d' =>
    obtain rfl := Option.some.inj h
    cases d' <;> exact ⟨fun hflag => (by cases hflag), fun _ hflag => (by cases hflag)⟩
  case idleNorth | idleSouth =>
    obtain rfl := Option.some.inj h
    simp only
    split <;> exact ⟨fun hflag => (by cases hflag), fun _ hflag => (by cases hflag)⟩
  case guardSize d' =>
    obtain rfl := Option.some.inj h
    simp only
    split
    · next hsize =>
      cases d' with
      | north => exact ⟨fun _ => ⟨hsize, trivial⟩, fun _ hflag => (by cases hflag)⟩
      | south =>
        refine ⟨fun hflag => (by cases hflag), fun d hflag => ?_⟩
        cases hflag
        exact ⟨⟨hline, hsize⟩, trivial⟩
    · cases d' <;> exact ⟨fun hflag => (by cases hflag), fun _ hflag => (by cases hflag)⟩
  case guardOther d' =>
    obtain rfl := Option.some.inj h
    simp only
    split
    · next hsize =>
      cases d' with
      | north =>
        refine ⟨fun hflag => (by cases hflag), fun d hflag => ?_⟩
        cases hflag
        exact ⟨⟨hline, hsize⟩, trivial⟩
      | south => exact ⟨fun hflag => (by cases hflag), fun _ hflag => (by cases hflag)⟩
    · cases d' <;> exact ⟨fun hflag => (by cases hflag), fun _ hflag => (by cases hflag)⟩

/-- A size that is positive stays so until the flagperson changes it. -/
theorem produceAt_size (hx : x.queue.Valid) (h : produceAt d g x = some (g', x'))
    (hsize : 0 < x.queue.size) : 0 < x'.queue.size := by
  cases hline : x.producer.line <;> simp only [produceAt, hline] at h
  case downEmpty | downMutex | count =>
    split at h <;> first
      | cases h
        done
      | obtain ⟨rfl, rfl⟩ := Prod.mk.inj (Option.some.inj h)
        exact hsize
  case enqueue =>
    obtain ⟨rfl, rfl⟩ := Prod.mk.inj (Option.some.inj h)
    simp only
    split <;> exact hsize
  case resize =>
    obtain ⟨rfl, rfl⟩ := Prod.mk.inj (Option.some.inj h)
    simp only [hx.size_resize]
    split
    · exact Int.one_pos
    · next hne => exact Int.natCast_pos.mpr (List.length_pos_of_ne_nil hne)
  all_goals
    obtain ⟨rfl, rfl⟩ := Prod.mk.inj (Option.some.inj h)
    exact hsize

/-- He waits on a side that has a car, and has seen one before he looks at the other
side. -/
structure Sighted (s : System) : Prop where
  /-- the accounts are in order -/
  balanced : Balanced s
  /-- the first half of the northern guard was true -/
  seen : s.flag = .guardOther .north → 0 < (s.side .north).queue.size
  /-- there is a car where he is about to wait -/
  car : ∀ d, s.flag = .downFull d → (s.side d).queue.cars ≠ []

theorem Sighted.init : Sighted System.init :=
  ⟨.init, nofun, nofun⟩

/-- He stays so when he is not deceived by a size. -/
theorem Sighted.step {p : Process} (h : Sighted s) (hp : Undeceived s p)
    (hstep : step s p = some t) : Sighted t := by
  refine ⟨h.balanced.step hstep, ?_, ?_⟩
  · intro hflag
    cases p with
    | flagperson =>
      obtain ⟨hsize, hside⟩ := (direct_looks hstep).1 hflag
      rwa [hside]
    | producer d =>
      obtain ⟨hat, hothers, hflag', -⟩ := produce_eq_some hstep
      have hsize := h.seen (hflag' ▸ hflag)
      rcases eq_or_ne Direction.north d with rfl | hne
      · exact produceAt_size (h.balanced.side _).valid hat hsize
      · rwa [hothers _ hne]
  · intro d hflag
    cases p with
    | flagperson =>
      obtain ⟨henters, hside⟩ := (direct_looks hstep).2 d hflag
      have hsize : 0 < (s.side d).queue.size := by
        cases d with
        | north => exact h.seen henters.1
        | south => exact henters.2
      rw [hside]
      exact fun hnil => hp rfl d henters ⟨cars_eq_nil.mp hnil, hsize⟩
    | producer d' =>
      obtain ⟨hat, hothers, hflag', -⟩ := produce_eq_some hstep
      have hcar := h.car d (hflag' ▸ hflag)
      rcases eq_or_ne d d' with rfl | hne
      · obtain ⟨-, -, -, ns, -, hcars⟩ := produceAt_spec (h.balanced.side d) hat
        rw [hcars]
        exact List.append_ne_nil_of_left_ne_nil hcar _
      · rwa [hothers _ hne]

/-- **The flagperson never waits for an empty side** in a run in which he never enters
a loop for the size that is left over from the last car; and only then. The stored size is 1
when the only car has been taken out, until the next one comes in (`Stale`). -/
theorem waitsForCar_iff (ps : List Process) :
    Runs.Always step WaitsForCar System.init ps ↔
      Runs.Guarded step Undeceived System.init ps := by
  constructor
  · intro h
    refine h.guarded (I := Balanced) .init fun s p t _ hs hstep ht => ⟨?_, hs.step hstep⟩
    rintro rfl d henters ⟨hempty, -⟩
    obtain rfl := Option.some.inj (henters.direct.symm.trans hstep)
    have hnil : (s.side d).queue.cars = [] := cars_eq_nil.mpr hempty
    have hcars := (hs.side d).cars
    rw [hnil, List.length_nil] at hcars
    exact ht d ⟨rfl, by simp only; omega⟩ hnil
  · intro h
    have hinv : Runs.Always step Sighted System.init ps :=
      h.always .init fun s p t hs hp hstep => hs.step hp hstep
    exact hinv.mono fun s hs d hwaits => hs.car d hwaits.1

/-- One car comes from the north and is let through; its size stays behind. -/
theorem waits_for_nobody : ¬ ∀ ps, Runs.Always step WaitsForCar System.init ps := by
  intro h
  have hlast := (h (List.replicate 7 (.producer .north) ++ List.replicate 10 .flagperson)).all
  exact absurd hlast (by decide +kernel)

end Csc452.Prodcons
