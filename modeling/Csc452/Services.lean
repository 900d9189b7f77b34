import Mathlib.Data.List.Basic
import Mathlib.Tactic.Linarith

/-!
# Machines that answer

A service takes a request in a state, answers it and goes on in another state. One
service refines another when it gives the same answers: from related states, a request
that meets a condition is answered alike and leaves related states (`Refines`). Then all
requests of a run are answered alike (`Refines.answers_eq`), as long as each of them meets
the condition in the state the abstract service is in. The concrete service may take more
into account than the abstract one, so requests are translated first.

About the answers to a run of requests there are two rules. A queue in the state, of which
each answer says what was put to it and taken from it, is first in, first out over the whole
run (`in_order`); and a potential bounds what a run costs (`amortised`).
-/

namespace Services

universe u v w u' v'

variable {S : Type u} {I : Type v} {O : Type w} {S' : Type u'} {I' : Type v'}

/-- The answers to requests made one after the other. -/
def answers (serve : S → I → O × S) : S → List I → List O
  | _, [] => []
  | s, i :: is => (serve s i).1 :: answers serve (serve s i).2 is

/-- The state they leave. -/
def after (serve : S → I → O × S) : S → List I → S
  | s, [] => s
  | s, i :: is => after serve (serve s i).2 is

variable {serve : S → I → O × S} {s : S} {is : List I}

/-- The answers to the first requests. -/
theorem answers_take (n : ℕ) : answers serve s (is.take n) = (answers serve s is).take n := by
  induction is generalizing s n with
  | nil => rw [List.take_nil, answers, List.take_nil]
  | cons i is ih =>
    cases n with
    | zero => rfl
    | succ n => rw [List.take_succ_cons, answers, answers, List.take_succ_cons, ih]

/-- An answer is given in the state that the requests before it leave. -/
theorem getElem?_answers (n : ℕ) :
    (answers serve s is)[n]? = is[n]?.map fun i => (serve (after serve s (is.take n)) i).1 := by
  induction is generalizing s n with
  | nil => rfl
  | cons i is ih =>
    cases n with
    | zero => rfl
    | succ n =>
      rw [answers, List.getElem?_cons_succ, List.getElem?_cons_succ, List.take_succ_cons, after, ih]

/-- **First in, first out.** Of a queue that each request takes from in front and puts to
behind, what is taken and what is left in the end is what was there and what was put. -/
theorem in_order {α : Type w} (f : S → List α) (put take : O → List α)
    (h : ∀ s i, f s ++ put (serve s i).1 = take (serve s i).1 ++ f (serve s i).2) :
    f s ++ (answers serve s is).flatMap put =
      (answers serve s is).flatMap take ++ f (after serve s is) := by
  induction is generalizing s with
  | nil => exact List.append_nil (f s)
  | cons i is ih =>
    rw [answers, List.flatMap_cons, List.flatMap_cons, ← List.append_assoc, h, List.append_assoc,
      ih, ← List.append_assoc, after]

/-- A potential that pays for every request pays for all of them. -/
theorem amortised (potential : S → ℕ) (cost credit : O → ℕ)
    (h : ∀ s i, cost (serve s i).1 + potential (serve s i).2 ≤
      potential s + credit (serve s i).1) (s : S) (is : List I) :
    ((answers serve s is).map cost).sum + potential (after serve s is) ≤
      potential s + ((answers serve s is).map credit).sum := by
  induction is generalizing s with
  | nil => rw [answers, after, List.map_nil, List.map_nil, Nat.add_comm]
  | cons i is ih =>
    have hstep := h s i
    have hrest := ih (serve s i).2
    rw [answers, after, List.map_cons, List.map_cons, List.sum_cons, List.sum_cons]
    linarith

/-- Every request meets a condition in the state in which it is made. -/
def Admits (serve : S → I → O × S) (C : S → I → Prop) : S → List I → Prop
  | _, [] => True
  | s, i :: is => C s i ∧ Admits serve C (serve s i).2 is

instance Admits.decidable (serve : S → I → O × S) (C : S → I → Prop)
    [∀ s i, Decidable (C s i)] : (s : S) → (is : List I) → Decidable (Admits serve C s is)
  | _, [] => inferInstanceAs (Decidable True)
  | s, i :: is =>
    have := Admits.decidable serve C (serve s i).2 is
    inferInstanceAs (Decidable (C s i ∧ Admits serve C (serve s i).2 is))

/-- From related states, a request that meets the condition is answered alike. -/
structure Refines (serve : S → I → O × S) (serve' : S' → I' → O × S') (f : I → I')
    (C : S' → I' → Prop) (R : S → S' → Prop) : Prop where
  /-- a request -/
  served : ∀ {s s'} i, R s s' → C s' (f i) →
    (serve s i).1 = (serve' s' (f i)).1 ∧ R (serve s i).2 (serve' s' (f i)).2

namespace Refines

variable {serve' : S' → I' → O × S'} {f : I → I'} {C : S' → I' → Prop} {R : S → S' → Prop} {s' : S'}

/-- **Refinement.** Requests made one after the other are answered alike. -/
theorem answers_eq (h : Refines serve serve' f C R) (hR : R s s')
    (hC : Admits serve' C s' (is.map f)) :
    answers serve s is = answers serve' s' (is.map f) := by
  induction is generalizing s s' with
  | nil => rfl
  | cons i is ih =>
    obtain ⟨hanswer, hnext⟩ := h.served i hR hC.1
    rw [List.map_cons, answers, answers, hanswer, ih hnext hC.2]

/-- They leave related states. -/
theorem after_related (h : Refines serve serve' f C R) (hR : R s s')
    (hC : Admits serve' C s' (is.map f)) : R (after serve s is) (after serve' s' (is.map f)) := by
  induction is generalizing s s' with
  | nil => exact hR
  | cons i is ih => exact ih (h.served i hR hC.1).2 hC.2

/-- What a request that meets the condition is never answered, nobody is answered. -/
theorem forall_answers {P : O → Prop} (h : Refines serve serve' f C R)
    (hP : ∀ {s s'} i, R s s' → C s' (f i) → P (serve s i).1) (hR : R s s')
    (hC : Admits serve' C s' (is.map f)) : ∀ o ∈ answers serve s is, P o := by
  induction is generalizing s s' with
  | nil => exact fun o ho => absurd ho List.not_mem_nil
  | cons i is ih =>
    rw [answers]
    exact List.forall_mem_cons.mpr ⟨hP i hR hC.1, ih (h.served i hR hC.1).2 hC.2⟩

end Refines

end Services
