import Mathlib.Logic.Basic
import Mathlib.Data.Nat.Notation

/-!
# Programs that interfere

Programs over a shared state, as trees of atomic operations, and a logic for
programs that run next to others.

`Machine` says what an operation does to the shared state, and what a program
remembers of the operations it has performed. An operation is `Fresh` when what
its program remembers is still so; whether programs may rely on it is decided by
the statement, not by the machine. A program runs alone (`Machine.run`), or two
of them run interleaved by a schedule (`Machine.interleave`).

`Safe R G Q p` is the rely-guarantee judgement for a program: as long as the
others only change the state as `R` allows, and every operation is fresh when it
is performed, every operation of `p` changes the state as `G` allows, and the
result satisfies `Q`. States carry a ghost, which `R`, `G` and `Q` may speak
about and every operation may update as it needs to.

A safe program that runs alone meets its guarantee as a whole (`Safe.solo`), also when
it is stopped on the way (`Safe.stopped`), and two safe programs each of which relies on
what the other guarantees may be interleaved (`Safe.interleave`).
-/

namespace Interference

variable {Op : Type} {Res : Op → Type} {S K Γ α β : Type}

/-- A program ends with a result, or performs an operation and goes on with what
that returns. -/
inductive Prog (Op : Type) (Res : Op → Type) (α : Type) : Type where
  /-- the end -/
  | ret (a : α)
  /-- an operation and what comes after it -/
  | act (o : Op) (k : Res o → Prog Op Res α)

namespace Prog

/-- One program after the other. -/
def bind : Prog Op Res α → (α → Prog Op Res β) → Prog Op Res β
  | .ret a, f => f a
  | .act o k, f => .act o fun r => (k r).bind f

instance : Monad (Prog Op Res) where
  pure := Prog.ret
  bind := Prog.bind

theorem bind_assoc (p : Prog Op Res α) (f : α → Prog Op Res β) (g : β → Prog Op Res Γ) :
    (p.bind f).bind g = p.bind fun a => (f a).bind g := by
  induction p with
  | ret a => rfl
  | act o k ih => exact congrArg (Prog.act o) (funext ih)

theorem bind_ret (p : Prog Op Res α) : p.bind .ret = p := by
  induction p with
  | ret a => rfl
  | act o k ih => exact congrArg (Prog.act o) (funext ih)

instance : LawfulMonad (Prog Op Res) := .mk' _ bind_ret (fun _ _ => rfl) bind_assoc

/-- The program of one operation. -/
def op (o : Op) : Prog Op Res (Res o) := .act o .ret

end Prog

/-- The meaning of the operations. -/
structure Machine (Op : Type) (Res : Op → Type) (S K : Type) : Type where
  /-- what an operation returns, and the state it leaves -/
  exec (o : Op) (s : S) : Res o × S
  /-- what a program remembers after an operation -/
  learn (k : K) (o : Op) (s : S) : K
  /-- what is remembered is still so, as far as the operation depends on it -/
  Fresh (k : K) (o : Op) (s : S) : Prop

namespace Machine

variable (M : Machine Op Res S K)

/-- A program that runs alone. -/
def run : Prog Op Res α → S → α × S
  | .ret a, s => (a, s)
  | .act o f, s => run (f (M.exec o s).1) (M.exec o s).2

/-- A program that runs alone and is stopped after some operations, unless it has ended by
then. -/
def runFor : ℕ → Prog Op Res α → S → S
  | 0, _, s => s
  | _ + 1, .ret _, s => s
  | n + 1, .act o f, s => runFor n (f (M.exec o s).1) (M.exec o s).2

/-- The operations a program performs when it runs alone. -/
def trace : Prog Op Res α → S → List Op
  | .ret _, _ => []
  | .act o f, s => o :: trace (f (M.exec o s).1) (M.exec o s).2

/-- Two programs that take turns as a schedule says: `true` for the first. There
is no result when the schedule runs out before the programs end, or asks a
program that has ended to go on. -/
def interleave : List Bool → Prog Op Res α → Prog Op Res β → S → Option (α × β × S)
  | [], .ret a, .ret b, s => some (a, b, s)
  | true :: turns, .act o f, q, s => interleave turns (f (M.exec o s).1) q (M.exec o s).2
  | false :: turns, p, .act o f, s => interleave turns p (f (M.exec o s).1) (M.exec o s).2
  | _, _, _, _ => none

/-- Every operation of an interleaving is fresh when it is performed. -/
def FreshRun : List Bool → Prog Op Res α → K → Prog Op Res β → K → S → Prop
  | true :: turns, .act o f, k, q, l, s =>
    M.Fresh k o s ∧ FreshRun turns (f (M.exec o s).1) (M.learn k o s) q l (M.exec o s).2
  | false :: turns, p, k, .act o f, l, s =>
    M.Fresh l o s ∧ FreshRun turns p k (f (M.exec o s).1) (M.learn l o s) (M.exec o s).2
  | _, _, _, _, _, _ => True

/-- Whether the operations of an interleaving are fresh can be found out by running
it. -/
instance FreshRun.decidable [∀ k o s, Decidable (M.Fresh k o s)] :
    (turns : List Bool) → (p : Prog Op Res α) → (k : K) → (q : Prog Op Res β) → (l : K) →
      (s : S) → Decidable (M.FreshRun turns p k q l s)
  | true :: turns, .act o f, k, q, l, s =>
    have := FreshRun.decidable turns (f (M.exec o s).1) (M.learn k o s) q l (M.exec o s).2
    decidable_of_iff (M.Fresh k o s ∧
      M.FreshRun turns (f (M.exec o s).1) (M.learn k o s) q l (M.exec o s).2)
      (by cases q <;> simp [FreshRun])
  | false :: turns, p, k, .act o f, l, s =>
    have := FreshRun.decidable turns p k (f (M.exec o s).1) (M.learn l o s) (M.exec o s).2
    decidable_of_iff (M.Fresh l o s ∧
      M.FreshRun turns p k (f (M.exec o s).1) (M.learn l o s) (M.exec o s).2)
      (by cases p <;> simp [FreshRun])
  | [], p, _, q, _, _ => isTrue (by cases p <;> cases q <;> trivial)
  | true :: _, .ret _, _, q, _, _ => isTrue (by cases q <;> trivial)
  | false :: _, p, _, .ret _, _, _ => isTrue (by cases p <;> trivial)

variable {M}

theorem run_bind (p : Prog Op Res α) (f : α → Prog Op Res β) (s : S) :
    M.run (p.bind f) s = M.run (f (M.run p s).1) (M.run p s).2 := by
  induction p generalizing s with
  | ret a => rfl
  | act o k ih => exact ih _ _

theorem trace_bind (p : Prog Op Res α) (f : α → Prog Op Res β) (s : S) :
    M.trace (p.bind f) s = M.trace p s ++ M.trace (f (M.run p s).1) (M.run p s).2 := by
  induction p generalizing s with
  | ret a => rfl
  | act o k ih => exact congrArg (o :: ·) (ih _ _)

end Machine

/-! ## The logic -/

/-- The judgement, for a program that remembers `k` in the state `w`. The others
may have changed the state before each operation, and before the end. -/
def Safe (M : Machine Op Res S K) (R G : Γ × S → Γ × S → Prop) (Q : α → K → Γ × S → Prop) :
    Prog Op Res α → K → Γ × S → Prop
  | .ret a, k, w => ∀ w', R w w' → Q a k w'
  | .act o f, k, w => ∀ w', R w w' → M.Fresh k o w'.2 →
    ∃ g, G w' (g, (M.exec o w'.2).2) ∧
      Safe M R G Q (f (M.exec o w'.2).1) (M.learn k o w'.2) (g, (M.exec o w'.2).2)

namespace Safe

variable {M : Machine Op Res S K} {R G : Γ × S → Γ × S → Prop}
variable {Q : α → K → Γ × S → Prop} {k : K} {w w' : Γ × S}

/-- What the others do does not make a program unsafe. -/
theorem stable {p : Prog Op Res α} (htrans : ∀ a b c, R a b → R b c → R a c)
    (h : Safe M R G Q p k w) (hw : R w w') : Safe M R G Q p k w' := by
  cases p with
  | ret a => exact fun w'' hw' => h w'' (htrans _ _ _ hw hw')
  | act o f => exact fun w'' hw' hfresh => h w'' (htrans _ _ _ hw hw') hfresh

theorem mono {p : Prog Op Res α} {Q' : α → K → Γ × S → Prop} (h : Safe M R G Q p k w)
    (hQ : ∀ a k w, Q a k w → Q' a k w) : Safe M R G Q' p k w := by
  induction p generalizing k w with
  | ret a => exact fun w' hw' => hQ a k w' (h w' hw')
  | act o f ih =>
    intro w' hw' hfresh
    obtain ⟨g, hG, hrest⟩ := h w' hw' hfresh
    exact ⟨g, hG, ih _ hrest⟩

/-- One program after the other. -/
theorem bind {p : Prog Op Res α} {f : α → Prog Op Res β} {Q' : β → K → Γ × S → Prop}
    (hrefl : ∀ a, R a a) (h : Safe M R G (fun a k w => Safe M R G Q' (f a) k w) p k w) :
    Safe M R G Q' (p >>= f) k w := by
  induction p generalizing k w with
  | ret a => exact h w (hrefl w)
  | act o k' ih =>
    intro w' hw' hfresh
    obtain ⟨g, hG, hrest⟩ := h w' hw' hfresh
    exact ⟨g, hG, ih _ hrest⟩

/-- The end of a program, for a postcondition that is stable. -/
theorem pure {a : α} (h : ∀ w', R w w' → Q a k w') : Safe M R G Q (Pure.pure a) k w := h

/-- What every change keeps holds in the end. -/
theorem keep {p : Prog Op Res α} {J : Γ × S → Prop} (hR : ∀ a b, R a b → J a → J b)
    (hG : ∀ a b, G a b → J a → J b) (h : Safe M R G Q p k w) (hw : J w) :
    Safe M R G (fun a k w => Q a k w ∧ J w) p k w := by
  induction p generalizing k w with
  | ret a => exact fun w' hw' => ⟨h w' hw', hR _ _ hw' hw⟩
  | act o f ih =>
    intro w' hw' hfresh
    obtain ⟨g, hstep, hrest⟩ := h w' hw' hfresh
    exact ⟨g, hstep, ih _ hrest (hG _ _ hstep (hR _ _ hw' hw))⟩

/-- **Running alone.** Without others, a safe program meets its postcondition,
and its guarantee as a whole. `J` says that what the program remembers is so,
which nobody but the program can change. -/
theorem solo {p : Prog Op Res α} {J : K → S → Prop} (hrefl : ∀ a, R a a) (hG : ∀ a, G a a)
    (hGtrans : ∀ a b c, G a b → G b c → G a c)
    (hJ : ∀ k o s, J k s → M.Fresh k o s ∧ J (M.learn k o s) (M.exec o s).2)
    (h : Safe M R G Q p k w) (hk : J k w.2) :
    ∃ g k', Q (M.run p w.2).1 k' (g, (M.run p w.2).2) ∧ G w (g, (M.run p w.2).2) := by
  induction p generalizing k w with
  | ret a => exact ⟨w.1, k, h w (hrefl w), hG w⟩
  | act o f ih =>
    obtain ⟨hfresh, hk'⟩ := hJ k o w.2 hk
    obtain ⟨g, hstep, hrest⟩ := h w (hrefl w) hfresh
    obtain ⟨g', k', hQ, hG'⟩ := ih _ hrest hk'
    exact ⟨g', k', hQ, hGtrans _ _ _ hstep hG'⟩

/-- **Being stopped.** A safe program that runs alone has kept its guarantee wherever it is
stopped, and would keep it from there to its end. -/
theorem stopped {p : Prog Op Res α} {J : K → S → Prop} (hrefl : ∀ a, R a a) (hG : ∀ a, G a a)
    (hGtrans : ∀ a b c, G a b → G b c → G a c)
    (hJ : ∀ k o s, J k s → M.Fresh k o s ∧ J (M.learn k o s) (M.exec o s).2)
    (h : Safe M R G Q p k w) (hk : J k w.2) (n : ℕ) :
    ∃ g g' k', G w (g, M.runFor n p w.2) ∧ G (g, M.runFor n p w.2) (g', (M.run p w.2).2) ∧
      Q (M.run p w.2).1 k' (g', (M.run p w.2).2) := by
  induction p generalizing n k w with
  | ret a =>
    have hstop : M.runFor n (.ret a) w.2 = w.2 := by cases n <;> rfl
    rw [hstop]
    exact ⟨w.1, w.1, k, hG w, hG w, h w (hrefl w)⟩
  | act o f ih =>
    cases n with
    | zero =>
      obtain ⟨g', k', hQ, hG'⟩ := h.solo hrefl hG hGtrans hJ hk
      exact ⟨w.1, g', k', hG w, hG', hQ⟩
    | succ n =>
      obtain ⟨hfresh, hk'⟩ := hJ k o w.2 hk
      obtain ⟨g, hstep, hrest⟩ := h w (hrefl w) hfresh
      obtain ⟨g₁, g', k', hG₁, hG', hQ⟩ := ih _ hrest hk' n
      exact ⟨g₁, g', k', hGtrans _ _ _ hstep hG₁, hG', hQ⟩

/-- **Running interleaved.** Two safe programs, each of which relies on what the
other guarantees, meet their postconditions in the state they leave. -/
theorem interleave {R' G' : Γ × S → Γ × S → Prop} {Q' : β → K → Γ × S → Prop} {l : K}
    {p : Prog Op Res α} {q : Prog Op Res β} {turns : List Bool} {a : α} {b : β} {s : S}
    (hrefl : ∀ a, R a a) (hrefl' : ∀ a, R' a a)
    (htrans : ∀ a b c, R a b → R b c → R a c) (htrans' : ∀ a b c, R' a b → R' b c → R' a c)
    (hG : ∀ a b, G a b → R' a b) (hG' : ∀ a b, G' a b → R a b)
    (hp : Safe M R G Q p k w) (hq : Safe M R' G' Q' q l w)
    (hrun : M.interleave turns p q w.2 = some (a, b, s))
    (hfresh : M.FreshRun turns p k q l w.2) :
    ∃ g k' l', Q a k' (g, s) ∧ Q' b l' (g, s) := by
  induction turns generalizing p q k l w with
  | nil =>
    cases p with
    | ret a' =>
      cases q with
      | ret b' =>
        obtain ⟨rfl, rfl, rfl⟩ : a' = a ∧ b' = b ∧ w.2 = s := by
          simpa [Machine.interleave] using hrun
        exact ⟨w.1, k, l, hp w (hrefl w), hq w (hrefl' w)⟩
      | act o f => simp [Machine.interleave] at hrun
    | act o f => simp [Machine.interleave] at hrun
  | cons turn turns ih =>
    cases turn with
    | true =>
      cases p with
      | ret a' => simp [Machine.interleave] at hrun
      | act o f =>
        obtain ⟨g, hstep, hrest⟩ := hp w (hrefl w) hfresh.1
        exact ih hrest (hq.stable htrans' (hG _ _ hstep)) hrun hfresh.2
    | false =>
      cases q with
      | ret b' => cases p <;> simp [Machine.interleave] at hrun
      | act o f =>
        have hrun' : M.interleave turns p (f (M.exec o w.2).1) (M.exec o w.2).2 =
            some (a, b, s) := by
          cases p <;> simpa [Machine.interleave] using hrun
        have hfresh' : M.Fresh l o w.2 ∧
            M.FreshRun turns p k (f (M.exec o w.2).1) (M.learn l o w.2) (M.exec o w.2).2 := by
          cases p <;> simpa [Machine.FreshRun] using hfresh
        obtain ⟨g, hstep, hrest⟩ := hq w (hrefl' w) hfresh'.1
        exact ih (hp.stable htrans (hG' _ _ hstep)) hrest hrun' hfresh'.2

end Safe

end Interference
