import Mathlib.Data.Finset.Prod
import Mathlib.Data.Int.Interval
import Mathlib.Tactic.Linarith
import Mathlib.Tactic.Module

/-!
# A curve that fills a square

A walk from a point makes one move after the other. `moves n u v` are the moves
of the curve of order `n` that heads in direction `u` and keeps the square on the
side of `v`. A curve of the next order is four of them, joined by three moves:
the first and the last have the directions exchanged, and the last goes backward
on both.

Directions are elements of any additive commutative group. The points visited are
those of the grid spanned by `u` and `v` (`mem_walk_moves`), and when different
coordinates are different points, each of them is visited once
(`nodup_walk_moves`): there are as many of them as the walk is long.
-/

namespace SpaceFilling

universe u

variable {M : Type u} [AddCommGroup M]

/-! ## Walks -/

/-- The points visited, the first one included. -/
def walk (p : M) (ms : List M) : List M := ms.scanl (· + ·) p

variable {p q u v : M} {ms ms' : List M} {n : ℕ}

@[simp]
theorem walk_nil (p : M) : walk p [] = [p] := List.scanl_nil

theorem walk_cons (p m : M) (ms : List M) : walk p (m :: ms) = p :: walk (p + m) ms :=
  List.scanl_cons

theorem length_walk (p : M) (ms : List M) : (walk p ms).length = ms.length + 1 :=
  List.length_scanl

/-- A walk that goes on visits the points of both walks. -/
theorem walk_append_cons (p m : M) (ms ms' : List M) :
    walk p (ms ++ m :: ms') = walk p ms ++ walk (p + ms.sum + m) ms' := by
  induction ms generalizing p with
  | nil => rw [List.nil_append, walk_cons, walk_nil, List.sum_nil, add_zero, List.singleton_append]
  | cons x ms ih =>
    rw [List.cons_append, walk_cons, ih, walk_cons, List.cons_append, List.sum_cons, add_assoc p x]

/-- The moves, each with the point it starts from and the point it leads to. -/
def segments : M → List M → List (M × M)
  | _, [] => []
  | p, m :: ms => (p, p + m) :: segments (p + m) ms

theorem segments_append (p : M) (ms ms' : List M) :
    segments p (ms ++ ms') = segments p ms ++ segments (p + ms.sum) ms' := by
  induction ms generalizing p with
  | nil => rw [List.nil_append, List.sum_nil, add_zero, segments, List.nil_append]
  | cons m ms ih => rw [List.cons_append, segments, ih, segments, List.cons_append, List.sum_cons, add_assoc]

theorem length_segments (p : M) (ms : List M) : (segments p ms).length = ms.length := by
  induction ms generalizing p with
  | nil => rfl
  | cons m ms ih => rw [segments, List.length_cons, ih, List.length_cons]

/-- The points visited are the first one and those the moves lead to. -/
theorem walk_eq_cons (p : M) (ms : List M) : walk p ms = p :: (segments p ms).map Prod.snd := by
  induction ms generalizing p with
  | nil => rw [walk_nil, segments, List.map_nil]
  | cons m ms ih => rw [walk_cons, ih, segments, List.map_cons]

theorem mem_walk_self (p : M) (ms : List M) : p ∈ walk p ms := by
  rw [walk_eq_cons]
  exact List.mem_cons_self

/-- Both ends of a move are visited. -/
theorem mem_walk_of_mem_segments {s : M × M} (h : s ∈ segments p ms) :
    s.1 ∈ walk p ms ∧ s.2 ∈ walk p ms := by
  induction ms generalizing p with
  | nil => exact absurd h List.not_mem_nil
  | cons m ms ih =>
    rw [walk_cons]
    rcases List.mem_cons.mp h with rfl | h
    · exact ⟨List.mem_cons_self, List.mem_cons_of_mem _ (mem_walk_self _ _)⟩
    · exact ⟨List.mem_cons_of_mem _ (ih h).1, List.mem_cons_of_mem _ (ih h).2⟩

/-- A move leads where it should. -/
theorem exists_move_of_mem_segments {s : M × M} (h : s ∈ segments p ms) :
    ∃ m ∈ ms, s.2 = s.1 + m := by
  induction ms generalizing p with
  | nil => exact absurd h List.not_mem_nil
  | cons m ms ih =>
    rcases List.mem_cons.mp h with rfl | h
    · exact ⟨m, List.mem_cons_self, rfl⟩
    · obtain ⟨m', hm', heq⟩ := ih h
      exact ⟨m', List.mem_cons_of_mem _ hm', heq⟩

/-- Every point is an end of a line. -/
theorem exists_segment_of_mem_walk (hne : ms ≠ []) (h : q ∈ walk p ms) :
    ∃ s ∈ segments p ms, q = s.1 ∨ q = s.2 := by
  induction ms generalizing p with
  | nil => exact absurd rfl hne
  | cons m ms ih =>
    rw [walk_cons] at h
    rcases List.mem_cons.mp h with rfl | h
    · exact ⟨_, List.mem_cons_self, .inl rfl⟩
    rcases eq_or_ne ms [] with rfl | hms
    · rw [walk_nil] at h
      exact ⟨_, List.mem_cons_self, .inr (List.mem_singleton.mp h)⟩
    · obtain ⟨s, hs, hend⟩ := ih hms h
      exact ⟨s, List.mem_cons_of_mem _ hs, hend⟩

/-- Each move starts where the one before it led to. -/
theorem isChain_segments (r p : M) (ms : List M) :
    ((r, p) :: segments p ms).IsChain fun s s' => s'.1 = s.2 := by
  induction ms generalizing r p with
  | nil => exact List.isChain_singleton _
  | cons m ms ih =>
    rw [segments, List.isChain_cons_cons]
    exact ⟨rfl, ih p (p + m)⟩

/-! ## Grids -/

/-- The points of a square grid with `m` points to a side. -/
def Grid (m : ℤ) (p u v q : M) : Prop :=
  ∃ i j : ℤ, (0 ≤ i ∧ i < m) ∧ (0 ≤ j ∧ j < m) ∧ q = p + i • u + j • v

/-- A grid is made of its four quadrants, each seen from the point where the curve
enters it. -/
theorem grid_two_mul {m : ℤ} :
    Grid (2 * m) p u v q ↔
      Grid m p v u q ∨ Grid m (p + m • v) u v q ∨ Grid m (p + m • v + m • u) u v q ∨
        Grid m (p + (2 * m - 1) • u + (m - 1) • v) (-v) (-u) q := by
  constructor
  · rintro ⟨i, j, ⟨hi, hi'⟩, ⟨hj, hj'⟩, rfl⟩
    rcases lt_or_ge i m with him | him <;> rcases lt_or_ge j m with hjm | hjm
    · exact .inl ⟨j, i, ⟨hj, hjm⟩, ⟨hi, him⟩, by module⟩
    · exact .inr (.inl ⟨i, j - m, ⟨hi, him⟩, ⟨by linarith, by linarith⟩, by module⟩)
    · exact .inr (.inr (.inr ⟨m - 1 - j, 2 * m - 1 - i, ⟨by omega, by omega⟩, ⟨by omega, by omega⟩,
        by module⟩))
    · exact .inr (.inr (.inl ⟨i - m, j - m, ⟨by linarith, by linarith⟩, ⟨by linarith, by linarith⟩,
        by module⟩))
  · rintro (⟨j, i, ⟨hj, hj'⟩, ⟨hi, hi'⟩, rfl⟩ | ⟨i, j, ⟨hi, hi'⟩, ⟨hj, hj'⟩, rfl⟩ |
      ⟨i, j, ⟨hi, hi'⟩, ⟨hj, hj'⟩, rfl⟩ | ⟨j, i, ⟨hj, hj'⟩, ⟨hi, hi'⟩, rfl⟩)
    · exact ⟨i, j, ⟨hi, by linarith⟩, ⟨hj, by linarith⟩, by module⟩
    · exact ⟨i, m + j, ⟨hi, by linarith⟩, ⟨by linarith, by linarith⟩, by module⟩
    · exact ⟨m + i, m + j, ⟨by linarith, by linarith⟩, ⟨by linarith, by linarith⟩, by module⟩
    · exact ⟨2 * m - 1 - i, m - 1 - j, ⟨by omega, by omega⟩, ⟨by omega, by omega⟩, by module⟩

/-! ## The curve -/

/-- The moves of the curve of order `n`. -/
def moves : ℕ → M → M → List M
  | 0, _, _ => []
  | n + 1, u, v =>
    moves n v u ++ v :: (moves n u v ++ u :: (moves n u v ++ -v :: moves n (-v) (-u)))

/-- There are as many points as the grid has. -/
theorem length_moves (n : ℕ) (u v : M) : (moves n u v).length + 1 = 4 ^ n := by
  induction n generalizing u v with
  | zero => rfl
  | succ n ih =>
    have h₁ := ih v u
    have h₂ := ih u v
    have h₃ := ih (-v) (-u)
    simp only [moves, List.length_append, List.length_cons, pow_succ]
    omega

/-- A move is along one of the directions. -/
theorem eq_of_mem_moves {m : M} (h : m ∈ moves n u v) : m = u ∨ m = -u ∨ m = v ∨ m = -v := by
  induction n generalizing u v with
  | zero => exact absurd h List.not_mem_nil
  | succ n ih =>
    simp only [moves, List.mem_append, List.mem_cons] at h
    rcases h with h | rfl | h | rfl | h | rfl | h
    · have := ih h
      tauto
    · exact .inr (.inr (.inl rfl))
    · exact ih h
    · exact .inl rfl
    · exact ih h
    · exact .inr (.inr (.inr rfl))
    · have := ih h
      rw [neg_neg, neg_neg] at this
      tauto

/-- The curve ends on the side it started from. -/
theorem sum_moves (n : ℕ) (u v : M) : (moves n u v).sum = (2 ^ n - 1 : ℤ) • u := by
  induction n generalizing u v with
  | zero => rw [moves, List.sum_nil, pow_zero, sub_self, zero_smul]
  | succ n ih =>
    simp only [moves, List.sum_append, List.sum_cons, ih, pow_succ]
    module

/-- The points visited are those of the grid. -/
theorem mem_walk_moves : q ∈ walk p (moves n u v) ↔ Grid (2 ^ n) p u v q := by
  induction n generalizing p u v with
  | zero =>
    rw [moves, walk_nil, List.mem_singleton]
    constructor
    · rintro rfl
      exact ⟨0, 0, ⟨le_rfl, one_pos⟩, ⟨le_rfl, one_pos⟩, by module⟩
    · rintro ⟨i, j, ⟨hi, hi'⟩, ⟨hj, hj'⟩, rfl⟩
      obtain rfl : i = 0 := by omega
      obtain rfl : j = 0 := by omega
      module
  | succ n ih =>
    rw [moves, walk_append_cons, walk_append_cons, walk_append_cons, List.mem_append,
      List.mem_append, List.mem_append, ih, ih, ih, ih, pow_succ', grid_two_mul]
    -- the points where the quadrants are entered
    have h₁ : p + (moves n v u).sum + v = p + (2 ^ n : ℤ) • v := by
      rw [sum_moves]
      module
    have h₂ : p + (2 ^ n : ℤ) • v + (moves n u v).sum + u =
        p + (2 ^ n : ℤ) • v + (2 ^ n : ℤ) • u := by
      rw [sum_moves]
      module
    have h₃ : p + (2 ^ n : ℤ) • v + (2 ^ n : ℤ) • u + (moves n u v).sum + -v =
        p + (2 * 2 ^ n - 1 : ℤ) • u + (2 ^ n - 1 : ℤ) • v := by
      rw [sum_moves]
      module
    rw [h₁, h₂, h₃]

/-- Each point of the grid is visited once, when no two of them are the same. -/
theorem nodup_walk_moves (hinj : ∀ i j i' j' : ℤ, i • u + j • v = i' • u + j' • v → i = i' ∧ j = j') :
    (walk p (moves n u v)).Nodup := by
  classical
  let square := Finset.Ico (0 : ℤ) (2 ^ n) ×ˢ Finset.Ico (0 : ℤ) (2 ^ n)
  let place : ℤ × ℤ → M := fun c => p + (c.1 • u + c.2 • v)
  have hplace : Function.Injective place := by
    intro c c' h
    obtain ⟨hi, hj⟩ := hinj _ _ _ _ (add_left_cancel h)
    exact Prod.ext hi hj
  have hpoints : (walk p (moves n u v)).toFinset = square.image place := by
    ext q
    rw [List.mem_toFinset, mem_walk_moves, Finset.mem_image]
    constructor
    · rintro ⟨i, j, hi, hj, rfl⟩
      exact ⟨(i, j), Finset.mem_product.mpr ⟨Finset.mem_Ico.mpr hi, Finset.mem_Ico.mpr hj⟩,
        (add_assoc _ _ _).symm⟩
    · rintro ⟨⟨i, j⟩, hc, rfl⟩
      obtain ⟨hi, hj⟩ := Finset.mem_product.mp hc
      exact ⟨i, j, Finset.mem_Ico.mp hi, Finset.mem_Ico.mp hj, (add_assoc _ _ _).symm⟩
  have hcard : (walk p (moves n u v)).toFinset.card = (walk p (moves n u v)).length := by
    have hside : ((2 : ℤ) ^ n - 0).toNat = 2 ^ n := by
      rw [sub_zero]
      exact Int.toNat_natCast (2 ^ n)
    rw [hpoints, Finset.card_image_of_injective _ hplace, Finset.card_product, Int.card_Ico,
      length_walk, length_moves, hside, ← Nat.mul_pow]
  exact Multiset.toFinset_card_eq_card_iff_nodup.mp hcard

end SpaceFilling
