import Csc452.Runs
import Mathlib.Data.Nat.Notation

/-!
# Reachability and simulation

Two transition systems of the kind of `Runs`, one of which can do whatever the other
does. A step of the concrete system that meets a condition is matched by any number of
steps of the abstract one, none included; then so is a run whose steps all meet it
(`Simulation.always`).

Besides, what a run adds to a quantity that counts its steps (`add_count`).
-/

namespace Runs

universe u v u' v'

variable {S : Type u} {A : Type v} {S' : Type u'} {A' : Type v'}
variable {step : S → A → Option S} {step' : S' → A' → Option S'} {s t w : S} {s' t' : S'}

/-- A run leads from `s` to `t`. -/
def Reaches (step : S → A → Option S) (s t : S) : Prop := ∃ as, run step s as = some t

theorem run_singleton (s : S) (a : A) : run step s [a] = step s a := by
  rw [run]
  cases step s a <;> rfl

theorem run_append {as bs : List A} (h : run step s as = some t) (h' : run step t bs = some w) :
    run step s (as ++ bs) = some w := by
  induction as generalizing s with
  | nil =>
    obtain rfl : s = t := Option.some.inj h
    exact h'
  | cons a as ih =>
    obtain ⟨s₁, hstep, hrest⟩ := Option.bind_eq_some_iff.mp h
    rw [List.cons_append, run, hstep]
    exact ih hrest

theorem Reaches.refl (s : S) : Reaches step s s := ⟨[], rfl⟩

theorem Reaches.of_step {a : A} (h : step s a = some t) : Reaches step s t :=
  ⟨[a], by rw [run, h]; rfl⟩

theorem Reaches.trans (h : Reaches step s t) (h' : Reaches step t w) : Reaches step s w := by
  obtain ⟨as, has⟩ := h
  obtain ⟨bs, hbs⟩ := h'
  exact ⟨as ++ bs, run_append has hbs⟩

/-- What every step keeps holds of whatever can be reached. -/
theorem Reaches.invariant {P : S → Prop} (h : Reaches step s t) (hs : P s)
    (hstep : ∀ s a t, P s → step s a = some t → P t) : P t := by
  obtain ⟨as, has⟩ := h
  have halways : Always step P s as :=
    Guarded.trivial.always hs fun s a t hP _ ht => hstep s a t hP ht
  exact halways.last has

/-- Every step of the concrete system that meets the condition is some run of the
abstract one. -/
structure Simulation (step : S → A → Option S) (step' : S' → A' → Option S') (C : S → A → Prop)
    (R : S → S' → Prop) : Prop where
  /-- a step, from related states -/
  matched : ∀ {s s' a t}, R s s' → C s a → step s a = some t → ∃ t', Reaches step' s' t' ∧ R t t'

namespace Simulation

variable {C : S → A → Prop} {R : S → S' → Prop} {as : List A}

/-- In every state of a run of the concrete system, the abstract one could be in a
related state. -/
theorem always (h : Simulation step step' C R) (hR : R s s') (hC : Guarded step C s as) :
    Always step (fun t => ∃ t', Reaches step' s' t' ∧ R t t') s as := by
  refine hC.always ⟨s', .refl s', hR⟩ fun s a t hs ha hstep => ?_
  obtain ⟨s₁, hreach, hR₁⟩ := hs
  obtain ⟨t', hreach', hR'⟩ := h.matched hR₁ ha hstep
  exact ⟨t', hreach.trans hreach', hR'⟩

end Simulation

/-- How many of the actions of a run meet a condition. -/
def count (step : S → A → Option S) (C : S → A → Prop) [∀ s a, Decidable (C s a)] :
    S → List A → ℕ
  | _, [] => 0
  | s, a :: as =>
    match step s a with
    | none => 0
    | some t => (if C s a then 1 else 0) + count step C t as

/-- A quantity that goes up by one with a step that meets one condition and down by one with
a step that meets the other keeps the difference of the two counts. -/
theorem add_count {C D : S → A → Prop} [∀ s a, Decidable (C s a)] [∀ s a, Decidable (D s a)]
    {I : S → Prop} {f : S → ℕ} (hs : I s) (hI : ∀ s a t, I s → step s a = some t → I t)
    (hf : ∀ s a t, I s → step s a = some t →
      f t + (if D s a then 1 else 0) = f s + if C s a then 1 else 0)
    {as : List A} (hrun : run step s as = some t) :
    f t + count step D s as = f s + count step C s as := by
  induction as generalizing s with
  | nil =>
    obtain rfl : s = t := Option.some.inj hrun
    rfl
  | cons a as ih =>
    obtain ⟨s₁, hstep, hrest⟩ := Option.bind_eq_some_iff.mp hrun
    simp only [count, hstep]
    calc f t + ((if D s a then 1 else 0) + count step D s₁ as)
        = f t + count step D s₁ as + (if D s a then 1 else 0) := by omega
      _ = f s₁ + (if D s a then 1 else 0) + count step C s₁ as := by
        rw [ih (hI s a s₁ hs hstep) hrest]
        omega
      _ = f s + ((if C s a then 1 else 0) + count step C s₁ as) := by
        rw [hf s a s₁ hs hstep, Nat.add_assoc]

/-- Nothing is counted that cannot happen. -/
theorem count_false (s : S) (as : List A) : count step (fun _ _ => False) s as = 0 := by
  induction as generalizing s with
  | nil => rfl
  | cons a as ih =>
    rw [count]
    cases step s a with
    | none => rfl
    | some t => simp only [if_false, ih t]

end Runs
