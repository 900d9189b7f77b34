import Csc452.ProdconsBalance

/-!
# The numbers of the cars, and the horn

Two properties of the history of the road that fail for most runs, each with the
exact condition on the steps of a run under which it holds.

The numbers come from the shared counter, but the northern producer never counts,
and the southern one takes its pointer away from the counter before it counts. So
they are right only until the first car is through (`numbered_iff`).

Whether the flagperson is asleep is known to each process from a copy of `is_sleep`
that the others do not see. Every producer wakes him for its own first car, and he
himself never hears of it, so that horn and sleep only agree as long as all cars
come from one direction (`hornAgrees_iff`).
-/

namespace Csc452.Prodcons

variable {s t : System} {d : Direction} {g g' : Shared} {x x' : Side}

/-! ## Numbers -/

/-- The cars are numbered from the shared counter. -/
structure Numbered (s : System) : Prop where
  /-- the `k`-th car has the number `k` -/
  numbers : s.shared.enqueued.map Prod.snd =
    (List.range s.shared.enqueued.length).map fun k => (k : ℤ) + 1
  /-- both producers look at the counter -/
  pointers : ∀ d, (s.side d).producer.totalCar = 0
  /-- between the critical sections, every car has been counted -/
  counted : (∀ p : Process, ¬ p.Inside s) → s.shared.page 0 = s.shared.enqueued.length + 1

/-- A step that neither ends the critical section of a northern car nor lets a
southern one in. -/
def BeforeFirst (s : System) (p : Process) : Prop :=
  (p = .producer .north → (s.side .north).producer.line ≠ .upMutex) ∧
    (p = .producer .south → (s.side .south).producer.line ≠ .enqueue)

/-- No car has come in, or the first one is from the north and still inside. -/
structure First (s : System) : Prop where
  /-- the accounts are in order -/
  balanced : Balanced s
  /-- and so is the counter -/
  counter : Counter s
  /-- the southern pointer has not moved -/
  pointer : (s.side .south).producer.totalCar = 0
  /-- the cars -/
  cars : s.shared.enqueued = [] ∨ s.shared.enqueued = [(.north, 1)] ∧
    ((s.side .north).producer.line = .resize ∨ (s.side .north).producer.line = .upMutex)

theorem First.init : First System.init := ⟨.init, .init, rfl, .inl rfl⟩

theorem First.numbered (h : First s) : Numbered s where
  numbers := by
    rcases h.cars with hnil | ⟨hone, -⟩
    · rw [hnil]
      rfl
    · rw [hone]
      rfl
  pointers d := by
    cases d
    · exact h.counter.north
    · exact h.pointer
  counted hout := by
    rcases h.cars with hnil | ⟨-, hinside⟩
    · rw [hnil, h.counter.first]
      rfl
    · refine absurd ?_ (hout (.producer .north))
      rcases hinside with hline | hline <;> rw [Process.Inside, hline] <;> rfl

/-- Nobody is inside while `mutex` is free. -/
theorem Balanced.not_inside (h : Balanced s) (hfree : 0 < s.shared.mutex) (p : Process) :
    ¬ p.Inside s := by
  have hmutex := h.mutex
  intro hp
  rcases p with (_ | _) | _ <;> rw [Process.Inside] at hp <;> omega

/-- The calls and the pointer after a step of a producer. -/
theorem produceAt_enqueued (h : produceAt d g x = some (g', x')) :
    if x.producer.line = .enqueue then
      g'.enqueued = g.enqueued ++ [(d, g.page x.producer.totalCar)] ∧
        x'.producer.totalCar = x.producer.totalCar + d.loop.moves ∧
        (x'.producer.line = .resize ∨ x'.producer.line = d.loop.afterEnqueue)
    else
      g'.enqueued = g.enqueued ∧ x'.producer.totalCar = x.producer.totalCar ∧
        (x.producer.line = .resize → x'.producer.line = d.loop.afterEnqueue) := by
  cases hline : x.producer.line <;> simp only [produceAt, hline] at h
  case enqueue =>
    obtain ⟨rfl, rfl⟩ := Prod.mk.inj (Option.some.inj h)
    rw [if_pos rfl]
    refine ⟨rfl, rfl, ?_⟩
    simp only
    split
    · exact .inr rfl
    · exact .inl rfl
  case downEmpty | downMutex | count =>
    split at h <;> first
      | cases h
        done
      | obtain ⟨rfl, rfl⟩ := Prod.mk.inj (Option.some.inj h)
        exact ⟨rfl, rfl, by simp⟩
  all_goals
    obtain ⟨rfl, rfl⟩ := Prod.mk.inj (Option.some.inj h)
    exact ⟨rfl, rfl, by simp⟩

theorem First.step {p : Process} (h : First s) (hp : BeforeFirst s p) (hstep : step s p = some t) :
    First t := by
  refine ⟨h.balanced.step hstep, h.counter.step hstep, ?_, ?_⟩
  · cases p with
    | flagperson =>
      rw [(direct_frame hstep).2.2]
      exact h.pointer
    | producer d =>
      obtain ⟨hat, hothers, -⟩ := produce_eq_some hstep
      cases d with
      | north =>
        rw [hothers .south (by decide)]
        exact h.pointer
      | south =>
        have hcalls := produceAt_enqueued hat
        rw [if_neg (hp.2 rfl)] at hcalls
        rw [hcalls.2.1, h.pointer]
  · cases p with
    | flagperson =>
      obtain ⟨-, henq, hproducer⟩ := direct_frame hstep
      rw [henq, hproducer]
      exact h.cars
    | producer d =>
      obtain ⟨hat, hothers, -⟩ := produce_eq_some hstep
      have hcalls := produceAt_enqueued hat
      cases d with
      | south =>
        rw [if_neg (hp.2 rfl)] at hcalls
        rw [hcalls.1, hothers .north (by decide)]
        exact h.cars
      | north =>
        have hup := hp.1 rfl
        split at hcalls
        · next hline =>
          obtain ⟨henq, -, hafter⟩ := hcalls
          rcases h.cars with hnil | ⟨-, hinside⟩
          · rw [henq, hnil, h.counter.north, h.counter.first]
            exact .inr ⟨rfl, hafter⟩
          · rw [hline] at hinside
            simp at hinside
        · obtain ⟨henq, -, hafter⟩ := hcalls
          rw [henq]
          rcases h.cars with hnil | ⟨hone, hresize | hupMutex⟩
          · exact .inl hnil
          · exact .inr ⟨hone, .inr (hafter hresize)⟩
          · exact absurd hupMutex hup

/-- **The cars are numbered** from the shared counter in a run in which no northern
producer gets out of its critical section and no southern car comes in; and only
then. A northern producer reads the counter and never adds to it, and a southern one moves
its pointer on before it counts. So the first car of a run may have its number, if it is from
the north, and things are in order until it is through. -/
theorem numbered_iff (ps : List Process) :
    Runs.Always step Numbered System.init ps ↔ Runs.Guarded step BeforeFirst System.init ps := by
  constructor
  · intro h
    refine h.guarded (I := fun s => Balanced s ∧ Counter s) ⟨.init, .init⟩
      fun s p t _ hs hstep ht => ?_
    have hbalanced := hs.1.step hstep
    have hcounter := hs.2.step hstep
    refine ⟨⟨?_, ?_⟩, hbalanced, hcounter⟩
    · rintro rfl hline
      obtain ⟨hat, -⟩ := produce_eq_some hstep
      simp only [produceAt, hline] at hat
      obtain ⟨hshared, hside⟩ := Prod.mk.inj (Option.some.inj hat)
      have hfree : 0 < t.shared.mutex := by
        rw [← hshared]
        exact Nat.succ_pos _
      -- the car that has just been let in has not been counted
      have hcounted := ht.counted fun p => hbalanced.not_inside hfree p
      rw [hcounter.first] at hcounted
      have hnil : t.shared.enqueued = [] := List.length_eq_zero_iff.mp (by omega)
      have hcalls := hbalanced.calls .north
      rw [hnil] at hcalls
      have hcars := (hbalanced.side .north).cars
      rw [(List.append_eq_nil_iff.mp hcalls).2, ← hside] at hcars
      simp only [ProducerLine.unsignalled, List.length_nil] at hcars
      omega
    · rintro rfl hline
      obtain ⟨hat, -⟩ := produce_eq_some hstep
      have hcalls := produceAt_enqueued hat
      rw [if_pos hline] at hcalls
      have hpointer := ht.pointers .south
      rw [hcalls.2.1] at hpointer
      exact absurd hpointer (Nat.succ_ne_zero _)
  · intro h
    have hinv : Runs.Always step First System.init ps :=
      h.always .init fun s p t hs hp hstep => hs.step hp hstep
    exact hinv.mono fun s hs => hs.numbered

/-- Two northern cars get the same number. -/
theorem uncounted_car : ¬ ∀ ps, Runs.Always step Numbered System.init ps := by
  intro h
  have hlast := (h (List.replicate 14 (.producer .north))).mono (fun s hs => hs.numbers)
  exact absurd hlast.all (by decide +kernel)

/-! ## Horn and sleep -/

/-- Whether the flagperson is asleep, from what has been printed. -/
def asleep : List Line → Bool
  | [] => true
  | .asleep :: _ => true
  | .horn _ _ :: _ => false
  | _ :: output => asleep output

/-- The lines that a step prints. -/
def printed (s t : System) : List Line :=
  t.shared.output.take (t.shared.output.length - s.shared.output.length)

/-- A step in which horn and sleep agree. -/
def HornAgrees (s : System) (p : Process) : Prop := ∀ t, step s p = some t →
  -- a car that arrives blows its horn exactly when he is asleep
  (∀ n d, .arrived n d ∈ printed s t →
    ((∃ n', .horn n' d ∈ printed s t) ↔ asleep s.shared.output = true)) ∧
  -- he announces that he is asleep only when he was awake and there is no car
  (.asleep ∈ printed s t →
    asleep s.shared.output = false ∧ ∀ d, (s.side d).queue.cars = [])

/-- Whether a car has arrived from a direction. -/
def HasArrived (d : Direction) (output : List Line) : Prop := ∃ n, .arrived n d ∈ output

/-- The line is about an arrival. -/
def Line.isArrival (d : Direction) : Line → Bool
  | .arrived _ d' => d' = d
  | _ => false

instance (d : Direction) (output : List Line) : Decidable (HasArrived d output) :=
  decidable_of_iff (output.any (Line.isArrival d)) <| by
    rw [List.any_eq_true]
    constructor
    · rintro ⟨line, hmem, harrival⟩
      cases line with
      | arrived n d' =>
        obtain rfl : d' = d := by simpa [Line.isArrival] using harrival
        exact ⟨n, hmem⟩
      | _ => cases harrival
    · rintro ⟨n, hmem⟩
      exact ⟨_, hmem, by simp [Line.isArrival]⟩

/-- A step that does not let a car arrive after one from the other direction. -/
def OneDirection (s : System) (p : Process) : Prop :=
  ∀ d, p = .producer d → (s.side d).producer.line = .arrive →
    ¬ HasArrived d.other s.shared.output

instance (s : System) (p : Process) : Decidable (OneDirection s p) :=
  inferInstanceAs (Decidable (∀ _, _ → _ → ¬ _))

theorem hasArrived_append {output output' : List Line} :
    HasArrived d (output ++ output') ↔ HasArrived d output ∨ HasArrived d output' := by
  simp only [HasArrived, List.mem_append, exists_or]

theorem printed_eq (new : List Line) (h : t.shared.output = new ++ s.shared.output) :
    printed s t = new := by
  rw [printed, h, List.length_append, Nat.add_sub_cancel, List.take_left]

/-- The lines that a car prints when it arrives. -/
def arrival (d : Direction) (number isSleep : ℤ) : List Line :=
  .arrived number d :: if isSleep = 1 then .horn number d :: d.loop.wakes else []

theorem mem_arrival (d : Direction) (number isSleep : ℤ) :
    (∀ d', HasArrived d' (arrival d number isSleep) ↔ d' = d) ∧
      .asleep ∉ arrival d number isSleep ∧
      ((∃ n, .horn n d ∈ arrival d number isSleep) ↔ isSleep = 1) := by
  rw [arrival]
  split
  · next h => cases d <;> simp [HasArrived, Direction.loop, northLoop, southLoop, h]
  · next h => simp [HasArrived, h]

/-- What a producer prints, and what becomes of its `is_sleep`. -/
theorem produceAt_output (h : produceAt d g x = some (g', x')) :
    if x.producer.line = .arrive then
      g'.output = arrival d (g.page x.producer.totalCar) x.producer.isSleep ++ g.output ∧
        x'.producer.isSleep = if x.producer.isSleep = 1 then 0 else x.producer.isSleep
    else g'.output = g.output ∧ x'.producer.isSleep = x.producer.isSleep := by
  cases hline : x.producer.line <;> simp only [produceAt, hline] at h
  case arrive =>
    obtain ⟨rfl, rfl⟩ := Prod.mk.inj (Option.some.inj h)
    exact ⟨rfl, rfl⟩
  case downEmpty | downMutex | count =>
    split at h <;> first
      | cases h
        done
      | obtain ⟨rfl, rfl⟩ := Prod.mk.inj (Option.some.inj h)
        exact ⟨rfl, rfl⟩
  all_goals
    obtain ⟨rfl, rfl⟩ := Prod.mk.inj (Option.some.inj h)
    exact ⟨rfl, rfl⟩

/-- What the flagperson prints as long as his own `is_sleep` is 1. -/
theorem direct_output (h : direct s = some t) (hs : s.isSleep = 1) :
    t.isSleep = 1 ∧ (t.shared.output = s.shared.output ∨
      ∃ n d, t.shared.output = .left n d :: s.shared.output) := by
  cases hline : s.flag <;> simp only [direct, hline] at h
  case idle =>
    rw [if_neg (by rw [hs]; decide)] at h
    obtain rfl := Option.some.inj h
    exact ⟨hs, .inl rfl⟩
  case downFull | downMutex =>
    split at h
    · cases h
    · obtain rfl := Option.some.inj h
      exact ⟨hs, .inl rfl⟩
  case dequeue d =>
    obtain rfl := Option.some.inj h
    exact ⟨hs, .inr ⟨_, d, rfl⟩⟩
  all_goals
    obtain rfl := Option.some.inj h
    exact ⟨hs, .inl rfl⟩

/-- Which cars have arrived after a step. -/
theorem hasArrived_step {p : Process} (hs : s.isSleep = 1) (hstep : step s p = some t) :
    HasArrived d t.shared.output ↔
      HasArrived d s.shared.output ∨ p = .producer d ∧ (s.side d).producer.line = .arrive := by
  cases p with
  | flagperson =>
    rcases (direct_output hstep hs).2 with heq | ⟨n, d', heq⟩
    · simp [heq]
    · simp [heq, HasArrived]
  | producer d' =>
    have houtput := produceAt_output (produce_eq_some hstep).1
    split at houtput
    · next hline =>
      rw [houtput.1, hasArrived_append, (mem_arrival _ _ _).1, or_comm]
      refine or_congr_right ⟨?_, fun h => (Process.producer.inj h.1).symm⟩
      rintro rfl
      exact ⟨rfl, hline⟩
    · next hline =>
      rw [houtput.1, or_iff_left]
      rintro ⟨heq, hline'⟩
      obtain rfl := Process.producer.inj heq
      exact hline hline'

/-- What the copies of `is_sleep` say. -/
structure Copies (s : System) : Prop where
  /-- the flagperson's own copy never changes -/
  flagperson : s.isSleep = 1
  /-- the one of a producer changes when its first car arrives -/
  producer : ∀ d, (s.side d).producer.isSleep = 1 ↔ ¬ HasArrived d s.shared.output
  /-- he sleeps until the first car arrives -/
  asleep : asleep s.shared.output = true ↔ ∀ d, ¬ HasArrived d s.shared.output

theorem Copies.init : Copies System.init where
  flagperson := rfl
  producer d := by simp [System.init, HasArrived]
  asleep := by simp [System.init, HasArrived, Prodcons.asleep]

/-- Every step keeps the copies as they should be. -/
theorem Copies.step {p : Process} (h : Copies s) (hstep : step s p = some t) : Copies t := by
  cases p with
  | flagperson =>
    obtain ⟨hsleep, houtput⟩ := direct_output hstep h.flagperson
    obtain ⟨-, -, hproducer⟩ := direct_frame hstep
    have harrived : ∀ d, HasArrived d t.shared.output ↔ HasArrived d s.shared.output := by
      intro d
      rw [hasArrived_step h.flagperson hstep]
      simp
    have hasleep : Prodcons.asleep t.shared.output = Prodcons.asleep s.shared.output := by
      rcases houtput with heq | ⟨n, d', heq⟩ <;> rw [heq]
      rfl
    refine ⟨hsleep, fun d => ?_, ?_⟩
    · rw [hproducer, harrived, h.producer]
    · simp only [hasleep, harrived, h.asleep]
  | producer d =>
    obtain ⟨hat, hothers, -, hsleep⟩ := produce_eq_some hstep
    have harrived := fun d' => hasArrived_step (d := d') h.flagperson hstep
    have houtput := produceAt_output hat
    refine ⟨hsleep.trans h.flagperson, fun d' => ?_, ?_⟩
    · rw [harrived]
      rcases eq_or_ne d' d with rfl | hne
      · split at houtput
        · next hline =>
          have hnot : (t.side d').producer.isSleep ≠ 1 := by
            rw [houtput.2]
            split
            · decide
            · assumption
          simp [hnot, hline]
        · next hline => simp [houtput.2, h.producer, hline]
      · simp [hothers d' hne, h.producer, Ne.symm hne]
    · split at houtput
      · next hline =>
        -- after the first car of any direction he is awake
        have hawake : Prodcons.asleep t.shared.output ≠ true := by
          rw [houtput.1, arrival]
          split
          · exact Bool.false_ne_true
          · next hone => exact mt h.asleep.mp fun hall => hone ((h.producer d).mpr (hall d))
        exact iff_of_false hawake fun hall => hall d ((harrived d).mpr (.inr ⟨rfl, hline⟩))
      · rw [houtput.1]
        exact h.asleep

/-- A step in which no car arrives has nothing to agree with. -/
theorem hornAgrees_of_printed {p : Process} (hstep : step s p = some t)
    (hprinted : printed s t = [] ∨ ∃ n d, printed s t = [.left n d]) : HornAgrees s p := by
  intro t' ht'
  obtain rfl := Option.some.inj (hstep.symm.trans ht')
  rcases hprinted with heq | ⟨n, d, heq⟩ <;> simp [heq]

/-- A step in which a car arrives agrees when the flagperson has not been woken by the
other direction before the first car of this one. -/
theorem hornAgrees_of_arrive (h : Copies s) (hstep : produce s d = some t)
    (hline : (s.side d).producer.line = .arrive) :
    HornAgrees s (.producer d) ↔
      (HasArrived d.other s.shared.output → HasArrived d s.shared.output) := by
  obtain ⟨hat, -⟩ := produce_eq_some hstep
  have houtput := produceAt_output hat
  rw [if_pos hline] at houtput
  have hprinted := printed_eq _ houtput.1
  obtain ⟨harrived, hannounced, hhorn⟩ := mem_arrival d
    (s.shared.page (s.side d).producer.totalCar) (s.side d).producer.isSleep
  rw [← hprinted] at harrived hannounced hhorn
  have hasleep : asleep s.shared.output = true ↔
      ¬ HasArrived d s.shared.output ∧ ¬ HasArrived d.other s.shared.output := by
    rw [h.asleep]
    constructor
    · exact fun hall => ⟨hall d, hall d.other⟩
    · rintro ⟨hd, hother⟩ d'
      cases d <;> cases d' <;> assumption
  rw [h.producer] at hhorn
  constructor
  · intro hagrees hother
    obtain ⟨n, hn⟩ := (harrived d).mpr rfl
    have hiff := (hagrees t hstep).1 n d hn
    rw [hhorn, hasleep] at hiff
    by_contra hnot
    exact (hiff.mp hnot).2 hother
  · intro hother t' ht'
    obtain rfl := Option.some.inj (hstep.symm.trans ht')
    refine ⟨fun n d' hn => ?_, fun hmem => absurd hmem hannounced⟩
    obtain rfl := (harrived d').mp ⟨n, hn⟩
    rw [hhorn, hasleep]
    exact ⟨fun hnot => ⟨hnot, mt hother hnot⟩, And.left⟩

/-- What a step comes to. -/
theorem hornAgrees_step {p : Process} (h : Copies s) (hstep : step s p = some t) :
    HornAgrees s p ↔ ∀ d, p = .producer d → (s.side d).producer.line = .arrive →
      HasArrived d.other s.shared.output → HasArrived d s.shared.output := by
  cases p with
  | flagperson =>
    refine iff_of_true (hornAgrees_of_printed hstep ?_) (by simp)
    rcases (direct_output hstep h.flagperson).2 with heq | ⟨n, d, heq⟩
    · exact .inl (printed_eq [] heq)
    · exact .inr ⟨n, d, printed_eq [_] heq⟩
  | producer d =>
    by_cases hline : (s.side d).producer.line = .arrive
    · rw [hornAgrees_of_arrive h hstep hline]
      constructor
      · rintro hother d' heq -
        obtain rfl := Process.producer.inj heq
        exact hother
      · exact fun hall => hall d rfl hline
    · have houtput := produceAt_output (produce_eq_some hstep).1
      rw [if_neg hline] at houtput
      refine iff_of_true (hornAgrees_of_printed hstep (.inl (printed_eq [] houtput.1))) ?_
      rintro d' heq hline'
      obtain rfl := Process.producer.inj heq
      exact absurd hline' hline

/-- Cars have arrived from one direction at most. -/
def OneSided (output : List Line) : Prop := ∃ d, ¬ HasArrived d output

/-- It stays so when a car only arrives on the side of those before. -/
theorem oneSided_step {p : Process} (h : Copies s) (hs : OneSided s.shared.output)
    (hp : OneDirection s p) (hstep : step s p = some t) : OneSided t.shared.output := by
  by_cases hsome : ∃ d, p = .producer d ∧ (s.side d).producer.line = .arrive
  · obtain ⟨d, rfl, hline⟩ := hsome
    refine ⟨d.other, ?_⟩
    rw [hasArrived_step h.flagperson hstep]
    rintro (hother | ⟨heq, -⟩)
    · exact hp d rfl hline hother
    · cases d <;> cases heq
  · obtain ⟨d, hd⟩ := hs
    refine ⟨d, ?_⟩
    rw [hasArrived_step h.flagperson hstep]
    rintro (hd' | hd')
    · exact hd hd'
    · exact hsome ⟨d, hd'⟩

/-- When horn and sleep agree in every step, the cars all come from one side. -/
theorem oneDirection_of_hornAgrees {ps : List Process}
    (h : Runs.Guarded step HornAgrees System.init ps) :
    Runs.Guarded step OneDirection System.init ps := by
  have hinit : OneSided System.init.shared.output := ⟨.north, by simp [System.init, HasArrived]⟩
  refine h.guarded (I := fun s => Copies s ∧ OneSided s.shared.output) ⟨.init, hinit⟩
    fun s p t hs hp hstep => ?_
  have hagrees := (hornAgrees_step hs.1 hstep).mp hp
  have hone : OneDirection s p := by
    rintro d rfl hline hother
    obtain ⟨d', hd'⟩ := hs.2
    have hd := hagrees d rfl hline hother
    cases d <;> cases d' <;> contradiction
  exact ⟨hone, hs.1.step hstep, oneSided_step hs.1 hs.2 hone hstep⟩

/-- **Horn and sleep agree** in a run in which no car arrives after one from the other
direction; and only then. Each process has a copy of its own of `is_sleep`, from before the
`fork`: what one of them sets no other sees. -/
theorem hornAgrees_iff (ps : List Process) :
    Runs.Guarded step HornAgrees System.init ps ↔
      Runs.Guarded step OneDirection System.init ps := by
  constructor
  · exact oneDirection_of_hornAgrees
  · intro h
    refine h.guarded (I := Copies) .init fun s p t hs hp hstep => ⟨?_, hs.step hstep⟩
    rw [hornAgrees_step hs hstep]
    exact fun d heq hline hother => absurd hother (hp d heq hline)

/-- The first car from the south blows its horn although the first one from the north
has. -/
theorem second_horn : ¬ ∀ ps, Runs.Guarded step HornAgrees System.init ps := by
  intro h
  have hone := oneDirection_of_hornAgrees
    (h (List.replicate 7 (.producer .north) ++ List.replicate 3 (.producer .south)))
  exact absurd hone (by decide +kernel)

end Csc452.Prodcons
