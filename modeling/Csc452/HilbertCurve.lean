import Csc452.Hilbert
import Mathlib.Tactic.LinearCombination

/-!
# The Hilbert curve fills its square

The turtle looks in one of four directions, and a turn to the side and back leads
through the same ones for either parity. With that the recursion makes the moves
of `SpaceFilling.moves`: one of their two directions is ahead of the turtle, the
other is on the side that `parity` names (`hilbertRecurse_facing`).

* `hilbert_fills` — it visits every point of the square once, ends on the side it
  started from and looks where it looked.
-/

namespace Csc452.Graphics

open SpaceFilling

/-! ## Directions -/

/-- The directions of the turtle. -/
def IsDirection (direction : ℤ) : Prop :=
  direction = 0 ∨ direction = 90 ∨ direction = 180 ∨ direction = 270

/-- The parities. -/
def IsParity (parity : ℤ) : Prop := parity = 1 ∨ parity = -1

/-- Where a direction points to. -/
def heading (direction : ℤ) : ℤ × ℤ :=
  if direction = 0 then (1, 0)
  else if direction = 90 then (0, 1)
  else if direction = 180 then (-1, 0)
  else (0, -1)

/-- What is to the left of somebody who looks in a direction. -/
def leftOf (h : ℤ × ℤ) : ℤ × ℤ := (-h.2, h.1)

/-- The direction after a quarter turn, to the left or to the right. -/
def turned (direction parity : ℤ) : ℤ := (direction + parity * 90 + 360).tmod 360

/-- A turtle in a direction and at a position. -/
def Turtle.facing (direction : ℤ) (p : ℤ × ℤ) : Turtle := ⟨direction, p.1, p.2⟩

variable {d parity dist : ℤ} {p q u v : ℤ × ℤ}

theorem IsParity.neg (hp : IsParity parity) : IsParity (-parity) := by
  rcases hp with rfl | rfl
  · exact Or.inr rfl
  · exact Or.inl rfl

theorem isDirection_turned (hd : IsDirection d) (hp : IsParity parity) :
    IsDirection (turned d parity) := by
  rcases hd with rfl | rfl | rfl | rfl <;> rcases hp with rfl | rfl <;> unfold IsDirection <;> decide

/-- A turn back. -/
theorem turned_turned_neg (hd : IsDirection d) (hp : IsParity parity) :
    turned (turned d parity) (-parity) = d := by
  rcases hd with rfl | rfl | rfl | rfl <;> rcases hp with rfl | rfl <;> decide

/-- A turn is to the left for parity 1 and to the right for -1. -/
theorem heading_turned (hd : IsDirection d) (hp : IsParity parity) :
    heading (turned d parity) = parity • leftOf (heading d) := by
  rcases hd with rfl | rfl | rfl | rfl <;> rcases hp with rfl | rfl <;> decide

/-- A turn the other way. -/
theorem heading_turned_neg (hd : IsDirection d) (hp : IsParity parity) :
    heading (turned d (-parity)) = -heading (turned d parity) := by
  rw [heading_turned hd hp.neg, heading_turned hd hp, neg_smul]

theorem leftOf_smul (c : ℤ) (h : ℤ × ℤ) : leftOf (c • h) = c • leftOf h :=
  Prod.ext (smul_neg c h.2).symm rfl

theorem leftOf_leftOf (h : ℤ × ℤ) : leftOf (leftOf h) = -h := rfl

theorem IsParity.mul_self (hp : IsParity parity) : parity * parity = 1 := by
  rcases hp with rfl | rfl <;> rfl

/-- Two turns are half of a full one. -/
theorem heading_turned_turned (hd : IsDirection d) (hp : IsParity parity) :
    heading (turned (turned d parity) parity) = -heading d := by
  rw [heading_turned (isDirection_turned hd hp) hp, heading_turned hd hp, leftOf_smul,
    leftOf_leftOf, smul_smul, hp.mul_self, one_smul]

/-- The arguments of the calls of `turn_left`. -/
theorem toInt_quarter (hp : IsParity parity) : toInt (parity * 90) = some (parity * 90) := by
  rcases hp with rfl | rfl <;> rfl

/-- And the calls. -/
theorem turnLeft_facing (hd : IsDirection d) (hp : IsParity parity) (p : ℤ × ℤ) :
    turnLeft (Turtle.facing d p) (parity * 90) = some (Turtle.facing (turned d parity) p) := by
  rcases hd with rfl | rfl | rfl | rfl <;> rcases hp with rfl | rfl <;> rfl

/-! ## Moves -/

/-- Both coordinates are `int`s. -/
def Fits (p : ℤ × ℤ) : Prop := (intMin ≤ p.1 ∧ p.1 ≤ intMax) ∧ intMin ≤ p.2 ∧ p.2 ≤ intMax

/-- Where a step leads, in coordinates. -/
theorem add_heading (p : ℤ × ℤ) (dist : ℤ) :
    p + dist • heading 0 = (p.1 + dist, p.2) ∧ p + dist • heading 90 = (p.1, p.2 + dist) ∧
      p + dist • heading 180 = (p.1 - dist, p.2) ∧ p + dist • heading 270 = (p.1, p.2 - dist) := by
  refine ⟨?_, ?_, ?_, ?_⟩ <;> ext <;> simp [heading, sub_eq_add_neg]

/-- `go_forward` goes where the turtle is heading. -/
theorem newPosition_facing (hd : IsDirection d) (hfits : Fits (p + dist • heading d)) :
    (Turtle.facing d p).newPosition dist = some (p + dist • heading d) := by
  obtain ⟨h0, h90, h180, h270⟩ := add_heading p dist
  rcases hd with rfl | rfl | rfl | rfl
  · rw [h0] at hfits ⊢
    exact congrArg (Option.map _) (toInt_of_mem hfits.1.1 hfits.1.2)
  · rw [h90] at hfits ⊢
    exact congrArg (Option.map _) (toInt_of_mem hfits.2.1 hfits.2.2)
  · rw [h180] at hfits ⊢
    exact congrArg (Option.map _) (toInt_of_mem hfits.1.1 hfits.1.2)
  · rw [h270] at hfits ⊢
    exact congrArg (Option.map _) (toInt_of_mem hfits.2.1 hfits.2.2)

variable {ι : Type} {line : ι → ℤ → ℤ → ℤ → ℤ → Option ι}

/-- Draw lines one after the other. -/
def drawLines (line : ι → ℤ → ℤ → ℤ → ℤ → Option ι) (segs : List ((ℤ × ℤ) × (ℤ × ℤ))) (img : ι) :
    Option ι :=
  segs.foldlM (fun img s => line img s.1.1 s.1.2 s.2.1 s.2.2) img

theorem drawLines_append (segs segs' : List ((ℤ × ℤ) × (ℤ × ℤ))) (img : ι) :
    drawLines line (segs ++ segs') img =
      (drawLines line segs img).bind fun img => drawLines line segs' img :=
  List.foldlM_append

theorem drawLines_cons (s : (ℤ × ℤ) × (ℤ × ℤ)) (segs : List ((ℤ × ℤ) × (ℤ × ℤ))) (img : ι) :
    drawLines line (s :: segs) img =
      (line img s.1.1 s.1.2 s.2.1 s.2.2).bind fun img => drawLines line segs img :=
  List.foldlM_cons

/-- A call of `go_forward`. -/
theorem goForward_facing (line : ι → ℤ → ℤ → ℤ → ℤ → Option ι) (hd : IsDirection d)
    (hu : dist • heading d = u) (hfits : Fits (p + u)) (img : ι) :
    goForward line (Turtle.facing d p) img dist =
      (line img p.1 p.2 (p + u).1 (p + u).2).map fun img => (Turtle.facing d (p + u), img) := by
  subst hu
  rw [goForward, newPosition_facing hd hfits, Option.map_eq_bind]
  rfl

/-- **The recursion**: it draws the moves of the curve, one after the other, and the
turtle is at the end of them and looks where it looked. -/
theorem hilbertRecurse_facing {n : ℕ} (hd : IsDirection d) (hp : IsParity parity)
    (hu : dist • heading d = u) (hv : dist • heading (turned d parity) = v)
    (hfits : ∀ q ∈ walk p (moves n u v), Fits q) (img : ι) :
    hilbertRecurse line n parity dist (Turtle.facing d p) img =
      (drawLines line (segments p (moves n u v)) img).map fun img =>
        (Turtle.facing d (p + (moves n u v).sum), img) := by
  induction n generalizing d parity u v p img with
  | zero =>
    rw [hilbertRecurse, moves, segments, List.sum_nil, add_zero]
    rfl
  | succ n ih =>
    have hd₁ := isDirection_turned hd hp
    have hd₂ := isDirection_turned hd hp.neg
    have hback₁ := turned_turned_neg hd hp
    have hback₂ := turned_turned_neg hd hp.neg
    rw [neg_neg] at hback₂
    have hv₂ : dist • heading (turned d (-parity)) = -v := by
      rw [heading_turned_neg hd hp, smul_neg, hv]
    have hu₂ : dist • heading (turned (turned d (-parity)) (-parity)) = -u := by
      rw [heading_turned_turned hd hp.neg, smul_neg, hu]
    rw [moves, walk_append_cons, walk_append_cons, walk_append_cons] at hfits
    simp only [List.forall_mem_append] at hfits
    obtain ⟨hfits₁, hfits₂, hfits₃, hfits₄⟩ := hfits
    -- the four quadrants, each from the point where the turtle enters it
    have h₁ := ih hd₁ hp.neg hv (by rw [hback₁, hu]) hfits₁
    have h₂ := ih hd hp hu hv hfits₂
    have h₃ := ih hd hp hu hv hfits₃
    have h₄ := ih hd₂ hp.neg hv₂ hu₂ hfits₄
    -- the moves from one to the next: each leads to the first point of a quadrant
    have hforward₁ := goForward_facing line hd₁ hv (hfits₂ _ (mem_walk_self _ _))
    have hforward₂ := goForward_facing line hd hu (hfits₃ _ (mem_walk_self _ _))
    have hforward₃ := goForward_facing line hd₂ hv₂ (hfits₄ _ (mem_walk_self _ _))
    -- and the turns before and after them
    have hturn₁ := turnLeft_facing hd hp
    have hturn₂ := turnLeft_facing hd₁ hp.neg
    have hturn₃ := turnLeft_facing hd hp.neg
    have hturn₄ := turnLeft_facing hd₂ hp
    rw [hback₁] at hturn₂
    rw [hback₂] at hturn₄
    simp only [hilbertRecurse, Option.bind_eq_bind, toInt_quarter hp, toInt_quarter hp.neg,
      hturn₁, hturn₂, hturn₃, hturn₄, h₁, h₂, h₃, h₄, hforward₁, hforward₂, hforward₃,
      Option.bind_some, Option.bind_map, Function.comp_def]
    have hsum : p + (moves n v u).sum + v + (moves n u v).sum + u + (moves n u v).sum + -v +
        (moves n (-v) (-u)).sum = p + (moves (n + 1) u v).sum := by
      simp only [moves, List.sum_append, List.sum_cons, add_assoc]
    rw [← hsum]
    simp only [moves, segments_append, segments, drawLines_append, drawLines_cons,
      Option.map_eq_bind, Option.bind_assoc, Function.comp_def]

/-! ## The square -/

/-- The point `i` steps ahead of the turtle and `j` to its side: to the left for
parity 1 and to the right for -1. -/
def Turtle.gridPoint (t : Turtle) (parity dist i j : ℤ) : ℤ × ℤ :=
  (t.currX, t.currY) + i • dist • heading t.direction +
    j • dist • parity • leftOf (heading t.direction)

/-- The turtle has filled the square of order `n` ahead of it and to its side. -/
structure FillsSquare (n : ℕ) (parity dist : ℤ) (t t' : Turtle)
    (calls : List ((ℤ × ℤ) × (ℤ × ℤ))) : Prop where
  /-- how often it went forward -/
  length : calls.length = 4 ^ n - 1
  /-- each time from where it was, at first from the start -/
  connected : (((t.currX, t.currY), (t.currX, t.currY)) :: calls).IsChain fun s s' => s'.1 = s.2
  /-- the start and the ends are the points of the grid -/
  points : ∀ q, q ∈ (t.currX, t.currY) :: calls.map Prod.snd ↔
    ∃ i j : ℤ, (0 ≤ i ∧ i < 2 ^ n) ∧ (0 ≤ j ∧ j < 2 ^ n) ∧ q = t.gridPoint parity dist i j
  /-- each of them once -/
  once : ((t.currX, t.currY) :: calls.map Prod.snd).Nodup
  /-- it ends straight ahead of the start -/
  position : (t'.currX, t'.currY) = t.gridPoint parity dist (2 ^ n - 1) 0
  /-- it looks where it looked -/
  direction : t'.direction = t.direction

/-- Different steps lead to different points. -/
theorem steps_injective (hd : IsDirection d) (hp : IsParity parity) (hdist : 1 ≤ dist)
    {i j i' j' : ℤ}
    (h : i • dist • heading d + j • dist • parity • leftOf (heading d) =
      i' • dist • heading d + j' • dist • parity • leftOf (heading d)) : i = i' ∧ j = j' := by
  have hne : dist ≠ 0 := (zero_lt_one.trans_le hdist).ne'
  have hunit : (heading d).1 ^ 2 + (heading d).2 ^ 2 = 1 := by
    rcases hd with rfl | rfl | rfl | rfl <;> decide
  have hsquare := hp.mul_self
  obtain ⟨hx, hy⟩ := Prod.ext_iff.mp h
  simp only [leftOf, Prod.fst_add, Prod.snd_add, Prod.smul_fst, Prod.smul_snd, smul_eq_mul] at hx hy
  constructor
  · apply mul_left_cancel₀ hne
    linear_combination (heading d).1 * hx + (heading d).2 * hy - dist * (i - i') * hunit
  · apply mul_left_cancel₀ hne
    linear_combination parity * ((heading d).1 * hy - (heading d).2 * hx) -
      dist * (j - j') * ((heading d).1 ^ 2 + (heading d).2 ^ 2) * hsquare - dist * (j - j') * hunit

/-- The moves of the curve fill the square. -/
theorem fillsSquare_moves {t : Turtle} (hdist : 1 ≤ dist) (hd : IsDirection t.direction)
    (hp : IsParity parity) (hu : dist • heading t.direction = u)
    (hv : dist • parity • leftOf (heading t.direction) = v) (n : ℕ) :
    FillsSquare n parity dist t
      (Turtle.facing t.direction ((t.currX, t.currY) + (moves n u v).sum))
      (segments (t.currX, t.currY) (moves n u v)) where
  length := by rw [length_segments, ← length_moves n u v, Nat.add_sub_cancel]
  connected := isChain_segments _ _ _
  points q := by
    rw [← walk_eq_cons, mem_walk_moves, ← hu, ← hv]
    rfl
  once := by
    rw [← walk_eq_cons, ← hu, ← hv]
    exact nodup_walk_moves fun i j i' j' h => steps_injective hd hp hdist h
  position := by
    rw [Turtle.gridPoint, hu, zero_smul, add_zero, ← sum_moves n u v]
    rfl
  direction := rfl

/-- **The Hilbert recursion fills its square**: from every position, in every of the four
directions and for either parity, for every length of the lines and every order, as long as
the points of the square have coordinates that are `int`s. And what it draws are the lines
from point to point. -/
theorem hilbert_fills {n : ℕ} {t : Turtle} (hdist : 1 ≤ dist) (hd : IsDirection t.direction)
    (hp : IsParity parity)
    (hfits : ∀ i j : ℤ, (0 ≤ i ∧ i < 2 ^ n) → (0 ≤ j ∧ j < 2 ^ n) →
      Fits (t.gridPoint parity dist i j)) :
    ∃ t' calls, forwardCalls n parity dist t = some (t', calls) ∧
      FillsSquare n parity dist t t' calls ∧
      ∀ g fuel img, hilbertDraw g fuel n parity dist t img =
        (calls.foldlM (fun img s => drawLine g fuel img s.1.1 s.1.2 s.2.1 s.2.2 (rgb 31 0 0))
          img).map fun img => (t', img) := by
  have hv : dist • heading (turned t.direction parity) =
      dist • parity • leftOf (heading t.direction) := by rw [heading_turned hd hp]
  have hfills := fillsSquare_moves hdist hd hp rfl rfl n
  have hwalk : ∀ q ∈ walk (t.currX, t.currY)
      (moves n (dist • heading t.direction) (dist • parity • leftOf (heading t.direction))),
      Fits q := by
    intro q hq
    rw [walk_eq_cons] at hq
    obtain ⟨i, j, hi, hj, rfl⟩ := (hfills.points q).mp hq
    exact hfits i j hi hj
  refine ⟨_, _, ?_, hfills, fun g fuel img => hilbertRecurse_facing hd hp rfl hv hwalk img⟩
  rw [forwardCalls]
  refine (hilbertRecurse_facing hd hp rfl hv hwalk []).trans ?_
  exact congrArg (Option.map _) (foldlM_record _ _)

theorem hilbert_fills_small :
    ∃ t' calls, forwardCalls 2 (-1) 3 ⟨90, 5, 7⟩ = some (t', calls) ∧
      FillsSquare 2 (-1) 3 ⟨90, 5, 7⟩ t' calls ∧
      ∀ g fuel img, hilbertDraw g fuel 2 (-1) 3 ⟨90, 5, 7⟩ img =
        (calls.foldlM (fun img s => drawLine g fuel img s.1.1 s.1.2 s.2.1 s.2.2 (rgb 31 0 0))
          img).map fun img => (t', img) :=
  hilbert_fills (by decide) (Or.inr (Or.inl rfl)) (Or.inr rfl) fun i j hi hj => by
    have hpoint : Turtle.gridPoint ⟨90, 5, 7⟩ (-1) 3 i j = (5 + 3 * j, 7 + 3 * i) := by
      simp only [Turtle.gridPoint, heading, leftOf]
      ext <;> simp <;> ring
    rw [hpoint]
    unfold Fits intMin intMax
    omega

/-- The simple U shape. -/
example : forwardCalls 1 1 5 ⟨0, 0, 0⟩ =
    some (⟨0, 5, 0⟩, [((0, 0), (0, 5)), ((0, 5), (5, 5)), ((5, 5), (5, 0))]) := rfl

end Csc452.Graphics
