import Csc452.CarQueue
import Csc452.Runs

/-!
# Runs of a queue of cars

Any calls of `enqueue` and `dequeue`, one after the other, on a queue that is empty
at first. Beside the queue a list says what the calls are for: it holds the cars
that were enqueued and not dequeued yet.

* `bounded_fifo` — the queue does what the list does: it is a queue of at most
  `MAX_QUEUE_SIZE` cars, first in, first out.
* `size_iff` — the field `size` is the number of cars until the only car left is
  dequeued, and 1 then.
-/

namespace Csc452.Prodcons

open Runs (Always Guarded)

/-! ## Calls -/

/-- A call on a queue. -/
inductive QueueCall : Type where
  /-- `enqueue` -/
  | enqueue (element : ℤ)
  /-- `dequeue` -/
  | dequeue
deriving DecidableEq

/-- What a call returns, and the queue it leaves. -/
def QueueCall.run (q : CarQueue) : QueueCall → Option ℤ × CarQueue
  | .enqueue element => (none, Prodcons.enqueue q element)
  | .dequeue => (some (Prodcons.dequeue q).1, (Prodcons.dequeue q).2)

/-- The same of a list with a capacity: what does not fit is not put in, and what is
not there is taken for -1. -/
def QueueCall.apply (xs : List ℤ) : QueueCall → Option ℤ × List ℤ
  | .enqueue element =>
    (none, if xs.length < maxQueueSize.toNat then xs ++ [element] else xs)
  | .dequeue => (some (xs.headD (-1)), xs.tail)

/-- A call on a queue and on the list beside it. -/
def queueStep (s : CarQueue × List ℤ) (c : QueueCall) : Option (CarQueue × List ℤ) :=
  some ((c.run s.1).2, (c.apply s.2).2)

/-- A queue with no cars in it, whatever its cells hold. -/
def CarQueue.init (car : ℕ → ℤ) (size : ℤ) : CarQueue := ⟨car, -1, -1, size⟩

/-! ## One call -/

/-- A queue holds the cars of a list. -/
structure CarQueue.Holds (q : CarQueue) (xs : List ℤ) : Prop where
  /-- the positions are in range -/
  valid : q.Valid
  /-- from the first position to the last -/
  cars : q.cars = xs
  /-- there are not too many -/
  length_le : xs.length ≤ maxQueueSize.toNat

variable {q : CarQueue} {x : ℤ} {xs : List ℤ}

theorem CarQueue.Holds.init (car : ℕ → ℤ) (size : ℤ) : (CarQueue.init car size).Holds [] where
  valid := .empty rfl rfl
  cars := rfl
  length_le := Nat.zero_le _

namespace CarQueue.Holds

theorem isEmpty_iff (h : q.Holds xs) : isEmpty q = true ↔ xs = [] := by
  rw [← cars_eq_nil, h.cars]

theorem isFull_iff (h : q.Holds xs) : isFull q = true ↔ xs.length = maxQueueSize.toNat := by
  rw [h.valid.isFull_iff, h.cars, toNat_maxQueueSize]

/-- A full queue is left alone. -/
theorem enqueue_of_full (h : q.Holds xs) (hfull : xs.length = maxQueueSize.toNat) (x : ℤ) :
    enqueue q x = q := by
  rw [enqueue, if_pos (h.isFull_iff.mpr hfull)]

/-- In one with room the car goes to the back, and the size is right. -/
theorem enqueue_of_lt (h : q.Holds xs) (hroom : xs.length < maxQueueSize.toNat) (x : ℤ) :
    (enqueue q x).Holds (xs ++ [x]) ∧ (enqueue q x).size = (xs ++ [x]).length := by
  have hfull : ¬ isFull q = true := fun hfull => hroom.ne (h.isFull_iff.mp hfull)
  obtain ⟨hvalid, hcars⟩ := h.valid.put (by rw [h.cars, ← toNat_maxQueueSize]; exact hroom) x
  rw [h.cars] at hcars
  rw [enqueue, if_neg hfull]
  refine ⟨⟨hvalid.resize, hcars, ?_⟩, ?_⟩
  · rw [List.length_append]
    exact hroom
  · rw [hvalid.size_resize, hcars, if_neg (List.concat_ne_nil _ _)]

/-- An empty queue is left alone. -/
theorem dequeue_nil (h : q.Holds []) : dequeue q = (-1, q) := by
  rw [dequeue, if_pos (h.isEmpty_iff.mpr rfl)]

/-- Otherwise the first car is taken out, and the size is right unless it was the last. -/
theorem dequeue_cons (h : q.Holds (x :: xs)) :
    (dequeue q).1 = x ∧ (dequeue q).2.Holds xs ∧
      (dequeue q).2.size = if xs = [] then 1 else (xs.length : ℤ) := by
  obtain ⟨hx, hvalid, hcars, hsize⟩ := h.valid.dequeue h.cars
  exact ⟨hx, ⟨hvalid, hcars, (Nat.le_succ _).trans h.length_le⟩, hsize⟩

/-- A call on the queue does what it does on the list. -/
theorem run (h : q.Holds xs) (c : QueueCall) :
    (c.run q).1 = (c.apply xs).1 ∧ (c.run q).2.Holds (c.apply xs).2 := by
  cases c with
  | enqueue x =>
    refine ⟨rfl, ?_⟩
    simp only [QueueCall.run, QueueCall.apply]
    rcases h.length_le.lt_or_eq with hroom | hfull
    · rw [if_pos hroom]
      exact (h.enqueue_of_lt hroom x).1
    · rw [if_neg hfull.not_lt, h.enqueue_of_full hfull x]
      exact h
  | dequeue =>
    cases xs with
    | nil =>
      simp only [QueueCall.run, QueueCall.apply, h.dequeue_nil]
      exact ⟨rfl, h⟩
    | cons x xs =>
      obtain ⟨hx, hholds, -⟩ := h.dequeue_cons
      exact ⟨congrArg some hx, hholds⟩

end CarQueue.Holds

/-! ## Runs -/

/-- A queue behaves as a list with a capacity. -/
structure BehavesAs (q : CarQueue) (xs : List ℤ) : Prop where
  /-- the cars between the two positions are those of the list -/
  cars : q.cars = xs
  /-- there is room for them -/
  length_le : xs.length ≤ maxQueueSize.toNat
  /-- `is_full` -/
  full : isFull q = true ↔ xs.length = maxQueueSize.toNat
  /-- `is_empty` -/
  empty : isEmpty q = true ↔ xs = []
  /-- what the next call returns -/
  returns : ∀ c : QueueCall, (c.run q).1 = (c.apply xs).1
  /-- what it leaves -/
  leaves : ∀ c : QueueCall, (c.run q).2.cars = (c.apply xs).2
  /-- a full queue is left as it is -/
  full_stays : xs.length = maxQueueSize.toNat → ∀ x, enqueue q x = q
  /-- and so is an empty one -/
  empty_stays : xs = [] → dequeue q = (-1, q)

theorem CarQueue.Holds.behavesAs (h : q.Holds xs) : BehavesAs q xs where
  cars := h.cars
  length_le := h.length_le
  full := h.isFull_iff
  empty := h.isEmpty_iff
  returns c := (h.run c).1
  leaves c := (h.run c).2.cars
  full_stays hfull := h.enqueue_of_full hfull
  empty_stays hnil := by
    subst hnil
    exact h.dequeue_nil

theorem always_holds (car : ℕ → ℤ) (size : ℤ) (calls : List QueueCall) :
    Always queueStep (fun s => s.1.Holds s.2) (CarQueue.init car size, []) calls := by
  refine Guarded.trivial.always (.init car size) fun s c t hs _ hstep => ?_
  obtain rfl := Option.some.inj hstep
  exact (hs.run c).2

/-- **The queue is a bounded FIFO.** Whatever the memory of the ring and the stored size to
begin with: after any calls on a queue that is empty at first, it holds the cars of a list
of `maxQueueSize` at most, and the next call, whichever it is, returns and leaves what it
does for the list (`BehavesAs`). -/
theorem bounded_fifo (car : ℕ → ℤ) (size : ℤ) (calls : List QueueCall) :
    Always queueStep (fun s => BehavesAs s.1 s.2) (CarQueue.init car size, []) calls :=
  (always_holds car size calls).mono fun _ hs => hs.behavesAs

/-- One call from a size that is right: it is right afterwards unless the only car was
dequeued. -/
theorem CarQueue.Holds.size_run (h : q.Holds xs) (hsize : q.size = xs.length) (c : QueueCall) :
    (c.run q).2.size = (c.apply xs).2.length ↔ (c = .dequeue → xs.length ≠ 1) := by
  cases c with
  | enqueue x =>
    refine iff_of_true ?_ (by simp)
    simp only [QueueCall.run, QueueCall.apply]
    rcases h.length_le.lt_or_eq with hroom | hfull
    · rw [if_pos hroom]
      exact (h.enqueue_of_lt hroom x).2
    · rw [if_neg hfull.not_lt, h.enqueue_of_full hfull x]
      exact hsize
  | dequeue =>
    simp only [QueueCall.run, QueueCall.apply, forall_const]
    cases xs with
    | nil =>
      rw [h.dequeue_nil]
      exact iff_of_true hsize (by decide)
    | cons x xs =>
      obtain ⟨-, -, hleft⟩ := h.dequeue_cons
      rw [hleft, List.tail_cons, List.length_cons]
      split
      · next hnil => simp [hnil]
      · next hne =>
        have hpos := List.length_pos_iff.mpr hne
        exact iff_of_true rfl (by omega)

/-- The queue holds the cars of the list, and the size is right. -/
def Counts (s : CarQueue × List ℤ) : Prop := s.1.Holds s.2 ∧ s.1.size = s.2.length

/-- **The stored size** is the number of cars enqueued and not dequeued yet, in every
state of a run from an empty queue of size 0, if and only if no call dequeues the only
car there is. A queue of one car is left empty with size 1: `dequeue` computes the size
from the two positions it has just set to -1. -/
theorem size_iff (car : ℕ → ℤ) (calls : List QueueCall) :
    Always queueStep (fun s => s.1.size = s.2.length) (CarQueue.init car 0, []) calls ↔
      Guarded queueStep (fun s c => c = .dequeue → s.2.length ≠ 1) (CarQueue.init car 0, [])
        calls := by
  have hstart : Counts (CarQueue.init car 0, []) := ⟨.init car 0, rfl⟩
  constructor
  · refine fun halways => halways.guarded hstart fun s c t _ hs hstep ht => ?_
    obtain rfl := Option.some.inj hstep
    exact ⟨(hs.1.size_run hs.2 c).mp ht, (hs.1.run c).2, ht⟩
  · intro hguarded
    have hcounts : Always queueStep Counts (CarQueue.init car 0, []) calls := by
      refine hguarded.always hstart fun s c t hs hc hstep => ?_
      obtain rfl := Option.some.inj hstep
      exact ⟨(hs.1.run c).2, (hs.1.size_run hs.2 c).mpr hc⟩
    exact hcounts.mono fun s hs => hs.2

/-- A car comes and goes, and the size says that it is still there. -/
theorem last_car_counts :
    ¬ Always queueStep (fun s => s.1.size = s.2.length) (CarQueue.init (fun _ => 0) 0, [])
      [.enqueue 7, .dequeue] := by
  intro halways
  have hlast := halways.last rfl
  exact absurd hlast (by decide)

end Csc452.Prodcons
