import Mathlib.Data.Nat.ModEq
import Mathlib.Logic.Function.Basic

/-!
# Ring buffers

A window of cells that goes around the end of a buffer: what it holds, and how it
grows at the rear and shrinks at the front. The cells are a function of their
position, and positions are taken modulo the capacity.
-/

namespace RingBuffer

universe u

variable {α : Type u} {cells : ℕ → α} {capacity front n : ℕ} {x : α}

/-- The `n` cells from `front` on. -/
def window (cells : ℕ → α) (capacity front n : ℕ) : List α :=
  (List.range n).map fun i => cells ((front + i) % capacity)

@[simp] theorem length_window : (window cells capacity front n).length = n := by
  simp [window]

/-- Cells at different distances from the front are different cells. -/
theorem position_ne {i j : ℕ} (hij : i < j) (hj : j < capacity) :
    (front + i) % capacity ≠ (front + j) % capacity := by
  intro heq
  have hmod : i ≡ j [MOD capacity] := Nat.ModEq.add_left_cancel' front heq
  exact absurd (hmod.eq_of_lt_of_lt (hij.trans hj) hj) (Nat.ne_of_lt hij)

/-- Writing the cell behind the rear appends to the window. -/
theorem window_push (hn : n < capacity) :
    window (Function.update cells ((front + n) % capacity) x) capacity front (n + 1) =
      window cells capacity front n ++ [x] := by
  have hsame : ∀ i ∈ List.range n,
      Function.update cells ((front + n) % capacity) x ((front + i) % capacity) =
        cells ((front + i) % capacity) := by
    intro i hi
    exact Function.update_of_ne (position_ne (List.mem_range.mp hi) hn) _ _
  rw [window, List.range_succ, List.map_append, List.map_congr_left hsame, List.map_singleton,
    Function.update_self, window]

/-- The first cell, and the window that begins behind it. -/
theorem window_succ :
    window cells capacity front (n + 1) =
      cells (front % capacity) :: window cells capacity ((front + 1) % capacity) n := by
  rw [window, List.range_succ_eq_map, List.map_cons, List.map_map, Nat.add_zero, window]
  refine congrArg _ (List.map_congr_left fun i _ => ?_)
  rw [Function.comp_apply, Nat.mod_add_mod, Nat.succ_eq_add_one, Nat.add_assoc, Nat.add_comm 1 i]

end RingBuffer
