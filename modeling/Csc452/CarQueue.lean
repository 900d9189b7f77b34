import Csc452.RingBuffer
import Mathlib.Algebra.Order.Ring.Int

/-!
# The queues of cars

The circular queue of `prodcons.c`. A queue is empty when `front` is -1; then
`rear` is -1 as well, and both are positions in `car` otherwise.

The field `size` is kept by `enqueue` and `dequeue`, and is what `main` looks at.
It is right after every `enqueue` (`size_resize`), and after every `dequeue` that
leaves a car behind; after the last car has been taken out it is 1
(`dequeue_spec`).
-/

namespace Csc452.Prodcons

open RingBuffer (window)

/-- `MAX_QUEUE_SIZE`. -/
def maxQueueSize : ℤ := 30

/-- `car_queue`. -/
structure CarQueue : Type where
  /-- the `int car[MAX_QUEUE_SIZE]` -/
  car : ℕ → ℤ
  /-- where the first car is, or -1 -/
  front : ℤ
  /-- where the last car is, or -1 -/
  rear : ℤ
  /-- the number of cars, as far as `main` is concerned -/
  size : ℤ

/-- `is_full`. -/
def isFull (q : CarQueue) : Bool :=
  q.front = q.rear + 1 ∨ (q.front = 0 ∧ q.rear = maxQueueSize - 1)

/-- `is_empty`. -/
def isEmpty (q : CarQueue) : Bool := q.front = -1

/-- The expression that `enqueue` and `dequeue` set `size` to. -/
def CarQueue.newSize (q : CarQueue) : ℤ :=
  if q.front > q.rear then maxQueueSize - q.front + q.rear + 1 else q.rear - q.front + 1

/-- The first half of `enqueue`, on a queue that is not full: the car is put in. -/
def CarQueue.put (q : CarQueue) (element : ℤ) : CarQueue :=
  let front := if q.front = -1 then 0 else q.front
  let rear := (q.rear + 1) % maxQueueSize
  { q with front := front, rear := rear, car := Function.update q.car rear.toNat element }

/-- The second half: the size is set. -/
def CarQueue.resize (q : CarQueue) : CarQueue := { q with size := q.newSize }

/-- `enqueue`. -/
def enqueue (q : CarQueue) (element : ℤ) : CarQueue :=
  if isFull q then q else (q.put element).resize

/-- `dequeue`: the element returned, and the queue. -/
def dequeue (q : CarQueue) : ℤ × CarQueue :=
  if isEmpty q then (-1, q)
  else
    let element := q.car q.front.toNat
    let q :=
      if q.front = q.rear then { q with front := -1, rear := -1 }
      else { q with front := (q.front + 1) % maxQueueSize }
    (element, q.resize)

/-- The cars in a queue, the first one first. -/
def CarQueue.cars (q : CarQueue) : List ℤ :=
  if isEmpty q then []
  else window q.car maxQueueSize.toNat q.front.toNat
    (((q.rear - q.front) % maxQueueSize).toNat + 1)

/-- The two positions are in range. -/
inductive CarQueue.Valid (q : CarQueue) : Prop where
  /-- of an empty queue -/
  | empty (hfront : q.front = -1) (hrear : q.rear = -1)
  /-- of a queue with cars -/
  | cars (hfront : 0 ≤ q.front ∧ q.front < maxQueueSize) (hrear : 0 ≤ q.rear ∧ q.rear < maxQueueSize)

variable {q : CarQueue} {x : ℤ} {xs : List ℤ}

theorem toNat_maxQueueSize : maxQueueSize.toNat = 30 := rfl

theorem cars_eq_nil : q.cars = [] ↔ isEmpty q = true := by
  rw [CarQueue.cars]
  split
  · next h => simp [h]
  · next h =>
    have hlen : 0 < (window q.car maxQueueSize.toNat q.front.toNat
        (((q.rear - q.front) % maxQueueSize).toNat + 1)).length := by
      rw [RingBuffer.length_window]
      exact Nat.succ_pos _
    exact ⟨fun hnil => absurd hnil (List.ne_nil_of_length_pos hlen), fun h' => absurd h' h⟩

/-- The number of cars of a queue that is not empty, from the two positions. -/
theorem length_cars (h : isEmpty q = false) :
    q.cars.length = ((q.rear - q.front) % maxQueueSize).toNat + 1 := by
  rw [CarQueue.cars, if_neg (by simp [h]), RingBuffer.length_window]

/-- The queue is full when all positions are taken. -/
theorem CarQueue.Valid.isFull_iff (h : q.Valid) : isFull q = true ↔ q.cars.length = 30 := by
  cases h with
  | empty hfront hrear =>
    have hnil : q.cars = [] := cars_eq_nil.mpr (by simp [isEmpty, hfront])
    simp [isFull, hnil, hfront, hrear]
  | cars hfront hrear =>
    rw [length_cars (by simp only [isEmpty, decide_eq_false_iff_not]; omega)]
    rw [isFull, decide_eq_true_eq]
    simp only [maxQueueSize] at *
    omega

/-- Putting in a car appends it. -/
theorem CarQueue.Valid.put (h : q.Valid) (hroom : q.cars.length < 30) (x : ℤ) :
    (q.put x).Valid ∧ (q.put x).cars = q.cars ++ [x] := by
  cases h with
  | empty hfront hrear =>
    have hnil : q.cars = [] := cars_eq_nil.mpr (by simp [isEmpty, hfront])
    refine ⟨.cars ?_ ?_, ?_⟩
    · simp [CarQueue.put, hfront, maxQueueSize]
    · simp [CarQueue.put, hrear, maxQueueSize]
    · rw [hnil]
      simp [CarQueue.cars, CarQueue.put, isEmpty, hfront, hrear, maxQueueSize, window]
  | cars hfront hrear =>
    have hne : q.front ≠ -1 := by omega
    have hempty : isEmpty q = false := by simp [isEmpty, hne]
    rw [length_cars hempty] at hroom
    have hrear' : 0 ≤ (q.rear + 1) % maxQueueSize ∧ (q.rear + 1) % maxQueueSize < maxQueueSize := by
      simp only [maxQueueSize] at *
      omega
    refine ⟨.cars (by simpa [CarQueue.put, hne] using hfront) hrear', ?_⟩
    -- the position behind the rear, counted from the front
    have hpos : ((q.rear + 1) % maxQueueSize).toNat =
        (q.front.toNat + (((q.rear - q.front) % maxQueueSize).toNat + 1)) % maxQueueSize.toNat := by
      rw [toNat_maxQueueSize]
      simp only [maxQueueSize] at *
      omega
    have hcount : (((q.rear + 1) % maxQueueSize - q.front) % maxQueueSize).toNat =
        ((q.rear - q.front) % maxQueueSize).toNat + 1 := by
      simp only [maxQueueSize] at *
      omega
    have hcars : (q.put x).cars = window (Function.update q.car ((q.rear + 1) % maxQueueSize).toNat x)
        maxQueueSize.toNat q.front.toNat
        ((((q.rear + 1) % maxQueueSize - q.front) % maxQueueSize).toNat + 1) := by
      simp [CarQueue.cars, CarQueue.put, isEmpty, hne]
    rw [hcars, hcount, hpos, RingBuffer.window_push (by simpa [maxQueueSize] using hroom),
      CarQueue.cars, if_neg (by simp [hempty])]

@[simp] theorem cars_resize : q.resize.cars = q.cars := rfl

theorem CarQueue.Valid.resize (h : q.Valid) : q.resize.Valid := by
  cases h with
  | empty hfront hrear => exact .empty hfront hrear
  | cars hfront hrear => exact .cars hfront hrear

/-- The size is the number of cars, except that it is 1 when there is none. -/
theorem CarQueue.Valid.size_resize (h : q.Valid) :
    q.resize.size = if q.cars = [] then 1 else (q.cars.length : ℤ) := by
  cases h with
  | empty hfront hrear =>
    rw [if_pos (cars_eq_nil.mpr (by simp [isEmpty, hfront]))]
    simp [CarQueue.resize, CarQueue.newSize, hfront, hrear]
  | cars hfront hrear =>
    have hempty : isEmpty q = false := by
      simp only [isEmpty, decide_eq_false_iff_not]
      omega
    rw [if_neg (by simp [cars_eq_nil, hempty]), length_cars hempty]
    simp only [CarQueue.resize, CarQueue.newSize, maxQueueSize] at *
    split <;> omega

/-- Taking a car out of a queue that has one. -/
theorem CarQueue.Valid.dequeue (h : q.Valid) (hcars : q.cars = x :: xs) :
    (dequeue q).1 = x ∧ (dequeue q).2.Valid ∧ (dequeue q).2.cars = xs ∧
      (dequeue q).2.size = if xs = [] then 1 else (xs.length : ℤ) := by
  have hempty : isEmpty q = false := by
    rw [← Bool.not_eq_true, ← cars_eq_nil, hcars]
    exact List.cons_ne_nil _ _
  cases h with
  | empty hfront hrear => simp [isEmpty, hfront] at hempty
  | cars hfront hrear =>
    have hwindow := hcars
    rw [CarQueue.cars, if_neg (by simp [hempty]), RingBuffer.window_succ] at hwindow
    obtain ⟨hx, hxs⟩ := List.cons.inj hwindow
    have hmod : q.front.toNat % maxQueueSize.toNat = q.front.toNat := by
      rw [toNat_maxQueueSize]
      simp only [maxQueueSize] at *
      omega
    rw [hmod] at hx
    -- the queue before its size is set
    let q' : CarQueue := if q.front = q.rear then { q with front := -1, rear := -1 }
      else { q with front := (q.front + 1) % maxQueueSize }
    have hdequeue : Csc452.Prodcons.dequeue q = (x, q'.resize) := by
      rw [Csc452.Prodcons.dequeue, if_neg (by simp [hempty]), ← hx]
    have hq' : q'.Valid ∧ q'.cars = xs := by
      rcases eq_or_ne q.front q.rear with heq | hne
      · have hlast : q' = { q with front := -1, rear := -1 } := if_pos heq
        rw [hlast]
        refine ⟨.empty rfl rfl, ?_⟩
        rw [← hxs, heq, sub_self]
        rfl
      · have hmore : q' = { q with front := (q.front + 1) % maxQueueSize } := if_neg hne
        rw [hmore]
        have hfront' : 0 ≤ (q.front + 1) % maxQueueSize ∧
            (q.front + 1) % maxQueueSize < maxQueueSize := by
          simp only [maxQueueSize] at *
          omega
        refine ⟨.cars hfront' hrear, ?_⟩
        have hne' : ((q.front + 1) % maxQueueSize) ≠ -1 := by omega
        have hpos : ((q.front + 1) % maxQueueSize).toNat =
            (q.front.toNat + 1) % maxQueueSize.toNat := by
          rw [toNat_maxQueueSize]
          simp only [maxQueueSize] at *
          omega
        have hcount : ((q.rear - (q.front + 1) % maxQueueSize) % maxQueueSize).toNat + 1 =
            ((q.rear - q.front) % maxQueueSize).toNat := by
          simp only [maxQueueSize] at *
          omega
        rw [CarQueue.cars, if_neg (by simpa [isEmpty] using hne')]
        simp only [hpos, hcount]
        exact hxs
    rw [hdequeue]
    exact ⟨rfl, hq'.1.resize, hq'.2, by rw [hq'.1.size_resize, hq'.2]⟩

end Csc452.Prodcons
