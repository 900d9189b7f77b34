import Csc452.Prodcons

/-!
# The accounts of the road

The invariant of the three processes, and that no car is lost or invented.

For each direction, the places of the buffer are accounted for (`Side.Balanced`):
a place is free, or held by a producer that has not yet put its car in, or taken
by a car, or held by the flagperson who has let a car go and not yet said so. The
cars that are there have been announced with `up(full)`, or are about to be, or
one of them has been claimed by the flagperson. The stored size of a queue is its
length whenever there is a car in it and no `enqueue` is half done.

`mutex` is accounted for as well, so that it is taken by one process at a time
(`Balanced`). Every step of every process keeps the accounts (`Balanced.step`).
-/

namespace Csc452.Prodcons

/-! ## Where a process is -/

/-- A producer has a place in the buffer and its car is not in yet. -/
def ProducerLine.slot : ProducerLine → ℕ
  | .downMutex | .arrive | .enqueue => 1
  | _ => 0

/-- The car of a producer is in and has not been announced. -/
def ProducerLine.unsignalled : ProducerLine → ℕ
  | .resize | .count | .upMutex | .upFull => 1
  | _ => 0

/-- A producer is between `down(mutex)` and `up(mutex)`. -/
def ProducerLine.inside : ProducerLine → ℕ
  | .arrive | .enqueue | .resize | .count | .upMutex => 1
  | _ => 0

/-- The flagperson has claimed a car of a direction and not taken it out yet. -/
def FlagLine.claimed (d : Direction) : FlagLine → ℕ
  | .downMutex d' | .dequeue d' => if d' = d then 1 else 0
  | _ => 0

/-- The flagperson has taken a car of a direction out and not given its place back. -/
def FlagLine.freed (d : Direction) : FlagLine → ℕ
  | .upMutex d' | .upEmpty d' => if d' = d then 1 else 0
  | _ => 0

/-- The flagperson is between `down(mutex)` and `up(mutex)`. -/
def FlagLine.inside : FlagLine → ℕ
  | .dequeue _ | .upMutex _ => 1
  | _ => 0

/-- A process is between `down(mutex)` and `up(mutex)`. -/
def Process.Inside (s : System) : Process → Prop
  | .producer d => (s.side d).producer.line.inside = 1
  | .flagperson => s.flag.inside = 1

/-! ## The accounts -/

/-- The accounts of one direction, for the number of cars that the flagperson has
claimed and the number of places he holds. -/
structure Side.Balanced (x : Side) (claimed freed : ℕ) : Prop where
  /-- the queue is a queue -/
  valid : x.queue.Valid
  /-- the places -/
  places : x.empty + x.producer.line.slot + x.queue.cars.length + freed = N
  /-- the cars -/
  cars : x.queue.cars.length = x.full + x.producer.line.unsignalled + claimed
  /-- the stored size -/
  size : x.producer.line ≠ .resize → x.queue.cars ≠ [] → x.queue.size = x.queue.cars.length

/-- The values of the calls for one direction. -/
def callsOf (d : Direction) (calls : List (Direction × ℤ)) : List ℤ :=
  (calls.filter (·.1 = d)).map Prod.snd

/-- The accounts of the system. -/
structure Balanced (s : System) : Prop where
  /-- those of the two directions -/
  side : ∀ d, (s.side d).Balanced (s.flag.claimed d) (s.flag.freed d)
  /-- the mutex -/
  mutex : s.shared.mutex + (s.side .north).producer.line.inside + (s.side .south).producer.line.inside +
    s.flag.inside = 1
  /-- the cars that came in are those that left and those that wait, in this order -/
  calls : ∀ d, callsOf d s.shared.dequeued ++ (s.side d).queue.cars =
    callsOf d s.shared.enqueued

theorem Balanced.init : Balanced System.init where
  side _ := ⟨.empty rfl rfl, rfl, rfl, fun _ hne => absurd rfl hne⟩
  mutex := rfl
  calls _ := rfl

@[simp] theorem callsOf_append (d : Direction) (calls calls' : List (Direction × ℤ)) :
    callsOf d (calls ++ calls') = callsOf d calls ++ callsOf d calls' := by
  simp [callsOf]

@[simp] theorem callsOf_self (d : Direction) (x : ℤ) : callsOf d [(d, x)] = [x] := by
  simp [callsOf]

section side

variable {x y : Side} {c f c' f' : ℕ}

/-- Steps that leave the queue alone only move units between the accounts. -/
theorem Side.Balanced.move (h : x.Balanced c f) (hqueue : y.queue = x.queue)
    (hplaces : y.empty + y.producer.line.slot + f' = x.empty + x.producer.line.slot + f)
    (hcars : y.full + y.producer.line.unsignalled + c' = x.full + x.producer.line.unsignalled + c)
    (hline : y.producer.line ≠ .resize → x.producer.line ≠ .resize) : y.Balanced c' f' := by
  have hp := h.places
  have hc := h.cars
  refine ⟨hqueue ▸ h.valid, ?_, ?_, ?_⟩
  · rw [hqueue]
    omega
  · rw [hqueue]
    omega
  · rw [hqueue]
    exact fun hy => h.size (hline hy)

/-- There is room for the car of a producer that has a place. -/
theorem Side.Balanced.room (h : x.Balanced c f) (hslot : x.producer.line.slot = 1) :
    x.queue.cars.length < N := by
  have hp := h.places
  omega

/-- There is a car for the flagperson who has claimed one. -/
theorem Side.Balanced.pos (h : x.Balanced 1 f) : 0 < x.queue.cars.length := by
  have hc := h.cars
  omega

theorem Side.Balanced.not_full (h : x.Balanced c f) (hslot : x.producer.line.slot = 1) :
    isFull x.queue = false := by
  have hroom := h.room hslot
  simp only [N] at hroom
  rw [← Bool.not_eq_true, h.valid.isFull_iff]
  omega

/-- A car is put in. -/
theorem Side.Balanced.put (h : x.Balanced c f) (hline : x.producer.line = .enqueue) {n : ℤ}
    (hqueue : y.queue = x.queue.put n) (hempty : y.empty = x.empty) (hfull : y.full = x.full)
    (hline' : y.producer.line = .resize) : y.Balanced c f := by
  have hp := h.places
  have hc := h.cars
  have hroom := h.room (by rw [hline]; rfl)
  obtain ⟨hvalid, hcars⟩ := h.valid.put (hroom.trans (by decide)) n
  have hlen : (x.queue.put n).cars.length = x.queue.cars.length + 1 := by
    rw [hcars, List.length_append]
    rfl
  rw [hline] at hp hc
  simp only [ProducerLine.slot, ProducerLine.unsignalled] at hp hc
  refine ⟨hqueue ▸ hvalid, ?_, ?_, fun hne => absurd hline' hne⟩
  · rw [hqueue, hlen, hempty, hline']
    simp only [ProducerLine.slot]
    omega
  · rw [hqueue, hlen, hfull, hline']
    simp only [ProducerLine.unsignalled]
    omega

/-- The size is set. -/
theorem Side.Balanced.resize (h : x.Balanced c f) (hqueue : y.queue = x.queue.resize)
    (hplaces : y.empty + y.producer.line.slot = x.empty + x.producer.line.slot)
    (hcars : y.full + y.producer.line.unsignalled = x.full + x.producer.line.unsignalled) :
    y.Balanced c f := by
  have hp := h.places
  have hc := h.cars
  refine ⟨hqueue ▸ h.valid.resize, ?_, ?_, fun _ hne => ?_⟩
  · rw [hqueue, cars_resize]
    omega
  · rw [hqueue, cars_resize]
    omega
  · rw [hqueue, cars_resize] at hne ⊢
    rw [h.valid.size_resize, if_neg hne]

/-- A claimed car is taken out. -/
theorem Side.Balanced.dequeue (h : x.Balanced 1 0) :
    (dequeue x.queue).1 :: (dequeue x.queue).2.cars = x.queue.cars ∧
      { x with queue := (dequeue x.queue).2 : Side }.Balanced 0 1 := by
  have hp := h.places
  have hc := h.cars
  obtain ⟨n, ns, hcars⟩ := List.exists_cons_of_length_pos h.pos
  obtain ⟨hn, hvalid, hns, hsize⟩ := h.valid.dequeue hcars
  have hlen := congrArg List.length hcars
  rw [List.length_cons] at hlen
  refine ⟨by rw [hn, hns, hcars], hvalid, ?_, ?_, fun _ hne => ?_⟩
  · simp only [hns]
    omega
  · simp only [hns]
    omega
  · simp only [hns] at hne ⊢
    rw [hsize, if_neg hne]

end side

/-! ## Steps -/

section steps

variable {s t : System} {d : Direction} {g g' : Shared} {x x' : Side}

/-- A producer changes its own side, and what there is once. -/
theorem produce_eq_some (h : produce s d = some t) :
    produceAt d s.shared (s.side d) = some (t.shared, t.side d) ∧
      (∀ d', d' ≠ d → t.side d' = s.side d') ∧ t.flag = s.flag ∧ t.isSleep = s.isSleep := by
  obtain ⟨⟨g, x⟩, hat, heq⟩ := Option.bind_eq_some_iff.mp h
  obtain rfl := Option.some.inj heq
  refine ⟨?_, fun d' hne => Function.update_of_ne hne _ _, rfl, rfl⟩
  simpa only [Function.update_self] using hat

theorem afterEnqueue_eq (d : Direction) :
    d.loop.afterEnqueue = .count ∨ d.loop.afterEnqueue = .upMutex := by
  cases d
  · exact .inr rfl
  · exact .inl rfl

/-- What a producer does to the accounts: it keeps those of its side, and of the
mutex, and the only calls it makes are calls of `enqueue` with the cars it puts in. -/
theorem produceAt_spec {c f : ℕ} (h : x.Balanced c f) (hstep : produceAt d g x = some (g', x')) :
    x'.Balanced c f ∧
      g'.mutex + x'.producer.line.inside = g.mutex + x.producer.line.inside ∧
      g'.dequeued = g.dequeued ∧
      ∃ ns, g'.enqueued = g.enqueued ++ ns.map (d, ·) ∧ x'.queue.cars = x.queue.cars ++ ns := by
  cases hline : x.producer.line <;> simp only [produceAt, hline] at hstep
  case downEmpty =>
    split at hstep
    · cases hstep
    · obtain ⟨rfl, rfl⟩ := Prod.mk.inj (Option.some.inj hstep)
      refine ⟨h.move rfl ?_ ?_ (by simp [hline]), rfl, rfl, [], by simp, by simp⟩
      · simp only [hline, ProducerLine.slot]
        omega
      · simp only [hline, ProducerLine.unsignalled]
  case downMutex =>
    split at hstep
    · cases hstep
    · obtain ⟨rfl, rfl⟩ := Prod.mk.inj (Option.some.inj hstep)
      refine ⟨h.move rfl ?_ ?_ (by simp [hline]), ?_, rfl, [], by simp, by simp⟩
      · simp only [hline, ProducerLine.slot]
      · simp only [hline, ProducerLine.unsignalled]
      · simp only [ProducerLine.inside]
        omega
  case arrive =>
    obtain ⟨rfl, rfl⟩ := Prod.mk.inj (Option.some.inj hstep)
    refine ⟨h.move rfl ?_ ?_ (by simp [hline]), rfl, rfl, [], by simp, by simp⟩
    · simp only [hline, ProducerLine.slot]
    · simp only [hline, ProducerLine.unsignalled]
  case enqueue =>
    have hslot : x.producer.line.slot = 1 := by rw [hline]; rfl
    simp only [h.not_full hslot, Bool.false_eq_true, if_false] at hstep
    obtain ⟨rfl, rfl⟩ := Prod.mk.inj (Option.some.inj hstep)
    refine ⟨h.put hline rfl rfl rfl rfl, rfl, rfl, [g.page x.producer.totalCar], by simp, ?_⟩
    exact (h.valid.put ((h.room hslot).trans (by decide)) _).2
  case resize =>
    obtain ⟨rfl, rfl⟩ := Prod.mk.inj (Option.some.inj hstep)
    rcases afterEnqueue_eq d with hafter | hafter
    all_goals
      refine ⟨h.resize rfl ?_ ?_, ?_, rfl, [], by simp, by simp⟩
      · simp only [hline, hafter, ProducerLine.slot]
      · simp only [hline, hafter, ProducerLine.unsignalled]
      · simp only [hafter, ProducerLine.inside]
  case count =>
    split at hstep
    · obtain ⟨rfl, rfl⟩ := Prod.mk.inj (Option.some.inj hstep)
      refine ⟨h.move rfl ?_ ?_ (by simp [hline]), rfl, rfl, [], by simp, by simp⟩
      · simp only [hline, ProducerLine.slot]
      · simp only [hline, ProducerLine.unsignalled]
    · cases hstep
  case upMutex =>
    obtain ⟨rfl, rfl⟩ := Prod.mk.inj (Option.some.inj hstep)
    refine ⟨h.move rfl ?_ ?_ (by simp [hline]), rfl, rfl, [], by simp, by simp⟩
    · simp only [hline, ProducerLine.slot]
    · simp only [hline, ProducerLine.unsignalled]
  case upFull =>
    obtain ⟨rfl, rfl⟩ := Prod.mk.inj (Option.some.inj hstep)
    refine ⟨h.move rfl ?_ ?_ (by simp [hline]), rfl, rfl, [], by simp, by simp⟩
    · simp only [hline, ProducerLine.slot]
    · simp only [hline, ProducerLine.unsignalled]

/-- The values of the calls with cars of one direction. -/
theorem callsOf_map (d d' : Direction) (ns : List ℤ) :
    callsOf d' (ns.map (d, ·)) = if d' = d then ns else [] := by
  by_cases h : d' = d
  · simp [callsOf, List.filter_map, h, Function.comp_def]
  · simp [callsOf, h, Ne.symm h]

/-- **A producer keeps the accounts.** -/
theorem Balanced.produce (h : Balanced s) (hstep : produce s d = some t) : Balanced t := by
  obtain ⟨hat, hothers, hflag, -⟩ := produce_eq_some hstep
  obtain ⟨hx, hmutex, hdeq, ns, henq, hcars⟩ := produceAt_spec (h.side d) hat
  refine ⟨fun d' => ?_, ?_, fun d' => ?_⟩
  · rw [hflag]
    rcases eq_or_ne d' d with rfl | hne
    · exact hx
    · rw [hothers d' hne]
      exact h.side d'
  · have hm := h.mutex
    rw [hflag]
    cases d
    · rw [hothers .south (by decide)]
      omega
    · rw [hothers .north (by decide)]
      omega
  · have hcalls := h.calls d'
    rw [hdeq, henq, callsOf_append, callsOf_map]
    rcases eq_or_ne d' d with rfl | hne
    · rw [if_pos rfl, hcars, ← List.append_assoc, hcalls]
    · rw [if_neg hne, hothers d' hne, List.append_nil, hcalls]

/-! ### The flagperson -/

/-- Nothing is claimed, no place is held, and `mutex` is not taken. -/
structure FlagLine.Quiet (line : FlagLine) : Prop where
  /-- nothing is claimed -/
  claimed : ∀ d, line.claimed d = 0
  /-- no place is held -/
  freed : ∀ d, line.freed d = 0
  /-- `mutex` is not taken -/
  inside : line.inside = 0

theorem FlagLine.quiet_guard (d : Direction) : (FlagLine.guard d).Quiet := by
  cases d <;> exact ⟨fun _ => rfl, fun _ => rfl, rfl⟩

theorem FlagLine.quiet_leave (d : Direction) : (FlagLine.leave d).Quiet := by
  cases d <;> exact ⟨fun _ => rfl, fun _ => rfl, rfl⟩

/-- As long as he only looks, nothing changes. -/
theorem Balanced.look (h : Balanced s) (hs : s.flag.Quiet) {line : FlagLine} (hline : line.Quiet)
    {isSleep : ℤ} {output : List Line} :
    Balanced { s with
      shared := { s.shared with output := output }, flag := line, isSleep := isSleep } where
  side d := by
    have hd := h.side d
    rw [hs.claimed, hs.freed] at hd
    simpa only [hline.claimed, hline.freed] using hd
  mutex := by
    have hmutex := h.mutex
    rw [hs.inside] at hmutex
    simpa only [hline.inside] using hmutex
  calls := h.calls

/-- A line that is about one direction only. -/
def FlagLine.Only (d : Direction) (line : FlagLine) : Prop :=
  ∀ d', d' ≠ d → line.claimed d' = 0 ∧ line.freed d' = 0

theorem FlagLine.Quiet.only {line : FlagLine} (h : line.Quiet) (d : Direction) : line.Only d :=
  fun d' _ => ⟨h.claimed d', h.freed d'⟩

/-- The lines of the body of a loop. -/
theorem FlagLine.only_body (d : Direction) :
    (FlagLine.downMutex d).Only d ∧ (FlagLine.dequeue d).Only d ∧ (FlagLine.upMutex d).Only d ∧
      (FlagLine.upEmpty d).Only d :=
  ⟨fun _ hne => ⟨if_neg hne.symm, rfl⟩, fun _ hne => ⟨if_neg hne.symm, rfl⟩,
    fun _ hne => ⟨rfl, if_neg hne.symm⟩, fun _ hne => ⟨rfl, if_neg hne.symm⟩⟩

/-- When he does something for one direction, the accounts of the other one stay. -/
theorem Balanced.act (ns : List ℤ) (h : Balanced s) (hs : s.flag.Only d) (ht : t.flag.Only d)
    (hside : ∀ d', d' ≠ d → t.side d' = s.side d')
    (hx : (t.side d).Balanced (t.flag.claimed d) (t.flag.freed d))
    (hline : (t.side d).producer = (s.side d).producer)
    (hmutex : t.shared.mutex + t.flag.inside = s.shared.mutex + s.flag.inside)
    (henq : t.shared.enqueued = s.shared.enqueued)
    (hdeq : t.shared.dequeued = s.shared.dequeued ++ ns.map (d, ·))
    (hcars : (s.side d).queue.cars = ns ++ (t.side d).queue.cars) : Balanced t where
  side d' := by
    rcases eq_or_ne d' d with rfl | hne
    · exact hx
    · have hd' := h.side d'
      rw [(hs d' hne).1, (hs d' hne).2] at hd'
      rwa [hside d' hne, (ht d' hne).1, (ht d' hne).2]
  mutex := by
    have hm := h.mutex
    have hproducer : ∀ d', (t.side d').producer = (s.side d').producer := by
      intro d'
      rcases eq_or_ne d' d with rfl | hne
      · exact hline
      · rw [hside d' hne]
    rw [hproducer, hproducer]
    omega
  calls d' := by
    have hcalls := h.calls d'
    rw [henq, hdeq, callsOf_append, callsOf_map]
    rcases eq_or_ne d' d with rfl | hne
    · rw [if_pos rfl, List.append_assoc, ← hcars, hcalls]
    · rw [if_neg hne, List.append_nil, hside d' hne, hcalls]

/-- **The flagperson keeps the accounts.** -/
theorem Balanced.direct (h : Balanced s) (hstep : direct s = some t) : Balanced t := by
  cases hline : s.flag <;> simp only [Prodcons.direct, hline] at hstep
  case idleNorth | idleSouth =>
    obtain rfl := Option.some.inj hstep
    refine h.look (hline ▸ ⟨fun _ => rfl, fun _ => rfl, rfl⟩) ?_
    split
    · exact ⟨fun _ => rfl, fun _ => rfl, rfl⟩
    · exact FlagLine.quiet_guard _
  case idle =>
    have hs : s.flag.Quiet := hline ▸ ⟨fun _ => rfl, fun _ => rfl, rfl⟩
    split at hstep
    all_goals
      obtain rfl := Option.some.inj hstep
      exact h.look hs (FlagLine.quiet_guard _)
  case guardSize d | guardOther d =>
    obtain rfl := Option.some.inj hstep
    refine h.look (hline ▸ ⟨fun _ => rfl, fun _ => rfl, rfl⟩) ?_
    split
    · cases d <;> exact ⟨fun _ => rfl, fun _ => rfl, rfl⟩
    · exact FlagLine.quiet_leave _
  case downFull d =>
    split at hstep
    · cases hstep
    · next hfull =>
      obtain rfl := Option.some.inj hstep
      have hquiet : s.flag.Quiet := hline ▸ ⟨fun _ => rfl, fun _ => rfl, rfl⟩
      have hx := h.side d
      rw [hquiet.claimed, hquiet.freed] at hx
      refine h.act [] (hquiet.only d) (FlagLine.only_body d).1
        (fun d' hne => Function.update_of_ne hne _ _) ?_ ?_ ?_ rfl ?_ ?_
      · simp only [Function.update_self]
        refine hx.move rfl ?_ ?_ id
        · rfl
        · simp only [FlagLine.claimed, if_pos]
          omega
      · simp only [Function.update_self]
      · rw [hquiet.inside]
        rfl
      · simp
      · simp
  case downMutex d =>
    split at hstep
    · cases hstep
    · next hfree =>
      obtain rfl := Option.some.inj hstep
      have hx := h.side d
      rw [hline] at hx
      refine h.act [] (hline ▸ (FlagLine.only_body d).1) (FlagLine.only_body d).2.1
        (fun _ _ => rfl) hx rfl ?_ rfl ?_ rfl
      · rw [hline]
        simp only [FlagLine.inside]
        omega
      · simp
  case dequeue d =>
    obtain rfl := Option.some.inj hstep
    have hx := h.side d
    rw [hline] at hx
    simp only [FlagLine.claimed, FlagLine.freed, if_pos] at hx
    obtain ⟨hcars, hx'⟩ := hx.dequeue
    refine h.act [_] (hline ▸ (FlagLine.only_body d).2.1) (FlagLine.only_body d).2.2.1
      (fun d' hne => Function.update_of_ne hne _ _) ?_ ?_ ?_ rfl rfl ?_
    · simpa only [Function.update_self, FlagLine.claimed, FlagLine.freed, if_pos] using hx'
    · simp only [Function.update_self]
    · rw [hline]
      rfl
    · simp only [Function.update_self]
      exact hcars.symm
  case upMutex d =>
    obtain rfl := Option.some.inj hstep
    have hx := h.side d
    rw [hline] at hx
    refine h.act [] (hline ▸ (FlagLine.only_body d).2.2.1) (FlagLine.only_body d).2.2.2
      (fun _ _ => rfl) hx rfl ?_ rfl ?_ rfl
    · rw [hline]
      rfl
    · simp
  case upEmpty d =>
    obtain rfl := Option.some.inj hstep
    have hquiet := FlagLine.quiet_guard d
    have hx := h.side d
    rw [hline] at hx
    refine h.act [] (hline ▸ (FlagLine.only_body d).2.2.2) (hquiet.only d)
      (fun d' hne => Function.update_of_ne hne _ _) ?_ ?_ ?_ rfl ?_ ?_
    · simp only [Function.update_self]
      refine hx.move rfl ?_ ?_ id
      · have hheld : FlagLine.freed d (.upEmpty d) = 1 := if_pos rfl
        simp only [hquiet.freed d, hheld]
        omega
      · rw [hquiet.claimed]
        rfl
    · simp only [Function.update_self]
    · rw [hline, hquiet.inside]
      rfl
    · simp
    · simp

/-- **Every step keeps the accounts.** -/
theorem Balanced.step {p : Process} (h : Balanced s) (hstep : step s p = some t) : Balanced t := by
  cases p with
  | producer d => exact h.produce hstep
  | flagperson => exact h.direct hstep

end steps

/-! ## The counter -/

/-- The southern pointer has moved, and the value at the new place is not set yet. -/
def ProducerLine.Moved (line : ProducerLine) : Prop := line = .resize ∨ line = .count

instance (line : ProducerLine) : Decidable line.Moved :=
  inferInstanceAs (Decidable (_ ∨ _))

/-- The southern pointer and the page behind it. -/
structure Ahead (page : ℕ → ℤ) (p : Producer) : Prop where
  /-- the value at the pointer -/
  here : page p.totalCar = if p.line.Moved then 0 else 1
  /-- the pointer after its first move -/
  moved : p.line.Moved → 0 < p.totalCar
  /-- the rest of the page -/
  fresh : ∀ i, p.totalCar < i → page i = 0

theorem Ahead.of_not_moved {page : ℕ → ℤ} {p : Producer} (hline : ¬ p.line.Moved)
    (hhere : page p.totalCar = 1) (hfresh : ∀ i, p.totalCar < i → page i = 0) : Ahead page p :=
  ⟨by rw [if_neg hline, hhere], fun h => absurd h hline, hfresh⟩

/-- What the page of the counter holds: the northern pointer stays where it was, the
southern one walks over the page, and both only ever number a car with 1. -/
structure Counter (s : System) : Prop where
  /-- the northern pointer -/
  north : (s.side .north).producer.totalCar = 0
  /-- the northern loop has no line that counts -/
  uncounted : (s.side .north).producer.line ≠ .count
  /-- the value it sees -/
  first : s.shared.page 0 = 1
  /-- the southern pointer -/
  south : Ahead s.shared.page (s.side .south).producer
  /-- the numbers of the cars -/
  calls : ∀ call ∈ s.shared.enqueued, call.2 = 1

theorem Counter.init : Counter System.init where
  north := rfl
  uncounted := by decide
  first := rfl
  south := ⟨rfl, by decide, fun i hi => if_neg (Nat.ne_of_gt hi)⟩
  calls _ hcall := absurd hcall List.not_mem_nil

section counter

variable {s t : System} {g g' : Shared} {x x' : Side}

/-- A northern step leaves the page and the pointer alone. -/
theorem produceAt_north (h : produceAt .north g x = some (g', x')) (hline : x.producer.line ≠ .count) :
    g'.page = g.page ∧ x'.producer.totalCar = x.producer.totalCar ∧
      x'.producer.line ≠ .count ∧
      ∀ call ∈ g'.enqueued, call ∈ g.enqueued ∨ call.2 = g.page x.producer.totalCar := by
  cases heq : x.producer.line <;> simp only [produceAt, heq] at h
  case count => exact absurd heq hline
  case downEmpty | downMutex =>
    split at h
    · cases h
    · obtain ⟨rfl, rfl⟩ := Prod.mk.inj (Option.some.inj h)
      exact ⟨rfl, rfl, by simp, fun _ => .inl⟩
  case enqueue =>
    obtain ⟨rfl, rfl⟩ := Prod.mk.inj (Option.some.inj h)
    refine ⟨rfl, rfl, ?_, ?_⟩
    · split
      · exact ProducerLine.noConfusion
      · exact ProducerLine.noConfusion
    · intro call hcall
      rcases List.mem_append.mp hcall with hold | hnew
      · exact .inl hold
      · exact .inr (List.mem_singleton.mp hnew ▸ rfl)
  all_goals
    obtain ⟨rfl, rfl⟩ := Prod.mk.inj (Option.some.inj h)
    exact ⟨rfl, rfl, ProducerLine.noConfusion, fun _ => .inl⟩

/-- A southern step keeps to the page at the pointer, and does not touch the value
in front. -/
theorem produceAt_south (hx : Ahead g.page x.producer) (h : produceAt .south g x = some (g', x')) :
    Ahead g'.page x'.producer ∧ g'.page 0 = g.page 0 ∧
      ∀ call ∈ g'.enqueued, call ∈ g.enqueued ∨ call.2 = 1 := by
  have hhere := hx.here
  cases heq : x.producer.line <;> simp only [produceAt, heq] at h hhere
  case downEmpty | downMutex =>
    split at h
    · cases h
    · obtain ⟨rfl, rfl⟩ := Prod.mk.inj (Option.some.inj h)
      exact ⟨.of_not_moved (by simp [ProducerLine.Moved]) hhere hx.fresh, rfl, fun _ => .inl⟩
  case enqueue =>
    obtain ⟨rfl, rfl⟩ := Prod.mk.inj (Option.some.inj h)
    have hline : (if isFull x.queue then Direction.south.loop.afterEnqueue else .resize).Moved := by
      split
      · exact .inr rfl
      · exact .inl rfl
    refine ⟨⟨?_, fun _ => Nat.succ_pos _, fun i hi => hx.fresh i ?_⟩, rfl, ?_⟩
    · rw [if_pos hline]
      exact hx.fresh _ (Nat.lt_succ_self _)
    · exact (Nat.lt_succ_self _).trans hi
    · intro call hcall
      rcases List.mem_append.mp hcall with hold | hnew
      · exact .inl hold
      · obtain rfl := List.mem_singleton.mp hnew
        exact .inr hhere
  case resize =>
    obtain ⟨rfl, rfl⟩ := Prod.mk.inj (Option.some.inj h)
    exact ⟨⟨hhere, fun _ => hx.moved (.inl heq), hx.fresh⟩, rfl, fun _ => .inl⟩
  case count =>
    have hpos := hx.moved (.inr heq)
    split at h
    · obtain ⟨rfl, rfl⟩ := Prod.mk.inj (Option.some.inj h)
      refine ⟨.of_not_moved (by simp [ProducerLine.Moved]) ?_ fun i hi => ?_, ?_, fun _ => .inl⟩
      · simp only [Function.update_self, hhere]
        rfl
      · simp only [Function.update_of_ne (Nat.ne_of_gt hi)]
        exact hx.fresh i hi
      · exact Function.update_of_ne (Nat.ne_of_lt hpos) _ _
    · cases h
  all_goals
    obtain ⟨rfl, rfl⟩ := Prod.mk.inj (Option.some.inj h)
    exact ⟨.of_not_moved (by simp [ProducerLine.Moved]) hhere hx.fresh, rfl, fun _ => .inl⟩

/-- What the flagperson leaves as it is. -/
theorem direct_frame (h : direct s = some t) :
    t.shared.page = s.shared.page ∧ t.shared.enqueued = s.shared.enqueued ∧
      ∀ d, (t.side d).producer = (s.side d).producer := by
  have hupdate : ∀ (d : Direction) (x : Side), x.producer = (s.side d).producer →
      ∀ d', (Function.update s.side d x d').producer = (s.side d').producer := by
    intro d x hx d'
    rcases eq_or_ne d' d with rfl | hne
    · rw [Function.update_self, hx]
    · rw [Function.update_of_ne hne]
  cases hline : s.flag <;> simp only [direct, hline] at h
  case idle | downMutex =>
    split at h <;> first
      | obtain rfl := Option.some.inj h
        exact ⟨rfl, rfl, fun _ => rfl⟩
      | cases h
  case downFull d =>
    split at h
    · cases h
    · obtain rfl := Option.some.inj h
      exact ⟨rfl, rfl, hupdate d _ rfl⟩
  case dequeue d | upEmpty d =>
    obtain rfl := Option.some.inj h
    exact ⟨rfl, rfl, hupdate d _ rfl⟩
  all_goals
    obtain rfl := Option.some.inj h
    exact ⟨rfl, rfl, fun _ => rfl⟩

theorem Counter.step {p : Process} (h : Counter s) (hstep : step s p = some t) : Counter t := by
  cases p with
  | flagperson =>
    obtain ⟨hpage, henq, hproducer⟩ := direct_frame hstep
    refine ⟨?_, ?_, ?_, ?_, henq ▸ h.calls⟩
    · rw [hproducer, h.north]
    · rw [hproducer]
      exact h.uncounted
    · rw [hpage, h.first]
    · rw [hpage, hproducer]
      exact h.south
  | producer d =>
    obtain ⟨hat, hothers, -⟩ := produce_eq_some hstep
    cases d with
    | north =>
      obtain ⟨hpage, htotal, hline, hcalls⟩ := produceAt_north hat h.uncounted
      refine ⟨htotal.trans h.north, hline, hpage ▸ h.first, ?_, fun call hcall => ?_⟩
      · rw [hothers .south (by decide), hpage]
        exact h.south
      · rcases hcalls call hcall with hold | hnew
        · exact h.calls call hold
        · rw [hnew, h.north, h.first]
    | south =>
      obtain ⟨hx, hfirst, hcalls⟩ := produceAt_south h.south hat
      have hnorth := hothers .north (by decide)
      refine ⟨?_, ?_, hfirst.trans h.first, hx, fun call hcall => ?_⟩
      · rw [hnorth, h.north]
      · rw [hnorth]
        exact h.uncounted
      · rcases hcalls call hcall with hold | hnew
        · exact h.calls call hold
        · exact hnew

end counter

/-! ## No car is lost or invented -/

/-- What holds of the cars in every state. -/
structure Conserved (s : System) : Prop where
  /-- a queue holds at most `N` cars -/
  bound : ∀ d, (s.side d).queue.cars.length ≤ N
  /-- `enqueue` is not called on a full queue -/
  enqueue : ∀ d, (s.side d).producer.line = .enqueue → isFull (s.side d).queue = false
  /-- `dequeue` is not called on an empty one -/
  dequeue : ∀ d, s.flag = .dequeue d → isEmpty (s.side d).queue = false
  /-- it never returned -1 -/
  answer : ∀ call ∈ s.shared.dequeued, call.2 ≠ -1
  /-- one process at a time is between `down(mutex)` and `up(mutex)` -/
  mutex : ∀ p p' : Process, p.Inside s → p'.Inside s → p = p'
  /-- the cars that came in are those that left and those that wait, in this order -/
  calls : ∀ d, callsOf d s.shared.dequeued ++ (s.side d).queue.cars = callsOf d s.shared.enqueued

/-- Two processes that are inside would have taken `mutex` twice. -/
theorem Balanced.exclusive {s : System} (h : Balanced s) {p p' : Process} (hp : p.Inside s)
    (hp' : p'.Inside s) : p = p' := by
  have hmutex := h.mutex
  rcases p with (_ | _) | _ <;> rcases p' with (_ | _) | _ <;> simp only [Process.Inside] at hp hp'
  all_goals first
    | rfl
    | omega

/-- What is returned is what was put in. -/
theorem Balanced.mem_enqueued {s : System} (h : Balanced s) {call : Direction × ℤ}
    (hcall : call ∈ s.shared.dequeued) : call ∈ s.shared.enqueued := by
  obtain ⟨d, n⟩ := call
  have hmem : n ∈ callsOf d s.shared.dequeued := by
    simpa [callsOf] using hcall
  have hmem' : n ∈ callsOf d s.shared.enqueued := by
    rw [← h.calls d]
    exact List.mem_append_left _ hmem
  simpa [callsOf] using hmem'

/-- The accounts say what holds of the cars. -/
theorem Balanced.conserves {s : System} (h : Balanced s) (hcounter : Counter s) : Conserved s where
  bound d := by
    have hplaces := (h.side d).places
    omega
  enqueue d hline := (h.side d).not_full (by rw [hline]; rfl)
  dequeue d hline := by
    have hx := h.side d
    rw [hline] at hx
    have hpos := (show (s.side d).Balanced 1 _ from by simpa [FlagLine.claimed] using hx).pos
    rw [← Bool.not_eq_true, ← cars_eq_nil]
    exact List.ne_nil_of_length_pos hpos
  answer call hcall := by
    rw [hcounter.calls call (h.mem_enqueued hcall)]
    decide
  mutex _ _ hp hp' := h.exclusive hp hp'
  calls := h.calls

/-- **No car is lost or invented**, whatever the order in which the three processes
take their steps: on either side the cars that were taken out and those that wait are the
ones that came in, in that order, no call finds a queue that is full or empty when it must
not be, and one process at a time is inside (`Conserved`). -/
theorem conserved (ps : List Process) : Runs.Always step Conserved System.init ps := by
  have hguarded : Runs.Guarded step (fun _ _ => True) System.init ps := .trivial
  have hinv : Runs.Always step (fun s => Balanced s ∧ Counter s) System.init ps :=
    hguarded.always ⟨.init, .init⟩ fun s p t hs _ hstep => ⟨hs.1.step hstep, hs.2.step hstep⟩
  exact hinv.mono fun s hs => hs.1.conserves hs.2

end Csc452.Prodcons
