import Mathlib.Data.Option.Basic

/-!
# Runs of a transition system

A transition system is a function `step` that says where an action leads from a
state, `none` when the action is not possible there. Runs take actions from a
list, one after the other.

Properties of runs come in two kinds: `Always P` says that every state reached
satisfies `P`, and `Guarded C` that every action taken meets the condition `C`
in the state in which it is taken. An invariant that is kept by every action
that meets the condition turns the second into the first (`Guarded.always`).
Conversely, when a state that satisfies `P` is never reached by an action that
fails the condition, the first gives the second (`Always.guarded`).
-/

namespace Runs

universe u v

variable {S : Type u} {A : Type v} {step : S → A → Option S} {P : S → Prop} {C : S → A → Prop}
variable {s t : S} {as : List A}

/-- Take the actions one after the other. -/
def run (step : S → A → Option S) : S → List A → Option S
  | s, [] => some s
  | s, a :: as => (step s a).bind fun t => run step t as

/-- Every state reached satisfies `P`, the first one included. -/
def Always (step : S → A → Option S) (P : S → Prop) : S → List A → Prop
  | s, [] => P s
  | s, a :: as => P s ∧ ∀ t, step s a = some t → Always step P t as

/-- Every action taken meets the condition. -/
def Guarded (step : S → A → Option S) (C : S → A → Prop) : S → List A → Prop
  | _, [] => True
  | s, a :: as => ∀ t, step s a = some t → C s a ∧ Guarded step C t as

/-- Whether the actions of a run meet a condition can be found out by running. -/
instance Guarded.decidable [∀ s a, Decidable (C s a)] :
    (s : S) → (as : List A) → Decidable (Guarded step C s as)
  | _, [] => inferInstanceAs (Decidable True)
  | s, a :: as =>
    match h : step s a with
    | none => isTrue fun t ht => by rw [h] at ht; cases ht
    | some t =>
      have := Guarded.decidable t as
      decidable_of_iff (C s a ∧ Guarded step C t as)
        ⟨fun hC t' ht' => Option.some.inj (h.symm.trans ht') ▸ hC, fun hC => hC t h⟩

theorem Guarded.trivial : Guarded step (fun _ _ => True) s as := by
  induction as generalizing s with
  | nil => exact True.intro
  | cons a as ih => exact fun t _ => ⟨True.intro, ih⟩

theorem Always.head (h : Always step P s as) : P s := by
  cases as with
  | nil => exact h
  | cons a as => exact h.1

/-- The last state of a run is one of those reached. -/
theorem Always.last (h : Always step P s as) (hrun : run step s as = some t) : P t := by
  induction as generalizing s with
  | nil =>
    obtain rfl : s = t := Option.some.inj hrun
    exact h
  | cons a as ih =>
    obtain ⟨s', hstep, hrest⟩ := Option.bind_eq_some_iff.mp hrun
    exact ih (h.2 s' hstep) hrest

/-- To refute it, a run that ends badly is enough. -/
theorem Always.all [DecidablePred P] (h : Always step P s as) :
    (run step s as).all (fun t => decide (P t)) = true := by
  cases hrun : run step s as with
  | none => rfl
  | some t => exact decide_eq_true (h.last hrun)

/-- **Invariants.** An invariant kept by every action that meets the condition
holds in every state of a run whose actions all meet it. -/
theorem Guarded.always (h : Guarded step C s as) (hs : P s)
    (hstep : ∀ s a t, P s → C s a → step s a = some t → P t) : Always step P s as := by
  induction as generalizing s with
  | nil => exact hs
  | cons a as ih => exact ⟨hs, fun t ht => ih (h t ht).2 (hstep s a t hs (h t ht).1 ht)⟩

/-- With an invariant, one condition on actions gives another. -/
theorem Guarded.guarded {C' : S → A → Prop} {I : S → Prop} (h : Guarded step C s as) (hs : I s)
    (hstep : ∀ s a t, I s → C s a → step s a = some t → C' s a ∧ I t) : Guarded step C' s as := by
  induction as generalizing s with
  | nil => trivial
  | cons a as ih =>
    intro t ht
    obtain ⟨hC, hrest⟩ := h t ht
    obtain ⟨hC', hI⟩ := hstep s a t hs hC ht
    exact ⟨hC', ih hrest hI⟩

/-- The converse, for a condition that no action can fail and still lead to a
state that satisfies `P`. -/
theorem Always.guarded {I : S → Prop} (h : Always step P s as) (hs : I s)
    (hstep : ∀ s a t, a ∈ as → I s → step s a = some t → P t → C s a ∧ I t) :
    Guarded step C s as := by
  induction as generalizing s with
  | nil => trivial
  | cons a as ih =>
    intro t ht
    have hrest := h.2 t ht
    obtain ⟨hC, hI⟩ := hstep s a t List.mem_cons_self hs ht hrest.head
    exact ⟨hC, ih hrest hI fun s' a' t' ha' => hstep s' a' t' (List.mem_cons_of_mem _ ha')⟩

theorem Always.mono {Q : S → Prop} (h : Always step P s as) (hPQ : ∀ s, P s → Q s) :
    Always step Q s as := by
  induction as generalizing s with
  | nil => exact hPQ s h
  | cons a as ih => exact ⟨hPQ s h.1, fun t ht => ih (h.2 t ht)⟩

theorem Always.and {Q : S → Prop} (h : Always step P s as) (hQ : Always step Q s as) :
    Always step (fun s => P s ∧ Q s) s as := by
  induction as generalizing s with
  | nil => exact ⟨h, hQ⟩
  | cons a as ih => exact ⟨⟨h.1, hQ.1⟩, fun t ht => ih (h.2 t ht) (hQ.2 t ht)⟩

/-- Actions that meet one condition by where they are in the list, and another
when they are taken. -/
theorem Guarded.and {p : A → Prop} (h : Guarded step C s as) (hp : ∀ a ∈ as, p a) :
    Guarded step (fun s a => C s a ∧ p a) s as := by
  induction as generalizing s with
  | nil => trivial
  | cons a as ih =>
    exact fun t ht => ⟨⟨(h t ht).1, hp a List.mem_cons_self⟩,
      ih (h t ht).2 fun a' ha' => hp a' (List.mem_cons_of_mem _ ha')⟩

/-- Two conditions at once. -/
theorem Guarded.and' {C' : S → A → Prop} (h : Guarded step C s as) (h' : Guarded step C' s as) :
    Guarded step (fun s a => C s a ∧ C' s a) s as := by
  induction as generalizing s with
  | nil => trivial
  | cons a as ih => exact fun t ht => ⟨⟨(h t ht).1, (h' t ht).1⟩, ih (h t ht).2 (h' t ht).2⟩

end Runs
