import Csc452.Commits

/-!
# Requests under interference

The parts the requests share, proved once for a request that runs next to
others. There are two requests at most, so a request is known by a truth value.

The state is the disk with a ghost: the abstract file system, the blocks each
request has been handed out and not linked in, and the log of the effects so far
(`Ghost`). `World` is what always holds of it. A request relies on the others to
keep the world, to leave its target and its pending blocks alone, and to log
their effects as their own (`Rely`); it guarantees the same to the other, and to
change no bytes outside a frame (`Guar`).

A request updates the ghost together with the disk (`Ghost.commit`): it names the
abstract file system it leaves, the blocks it has pending from then on and the
effects the update has.
-/

namespace Csc452.Fuse

open Bytes (Memory AgreeOn HoldsString readLE shift)
open ByteFile (Disk Seen Saw machine)
open Interference (Prog Safe)

/-- What is known about the disk. -/
structure Ghost : Type where
  /-- the abstract file system -/
  fs : Fs
  /-- the blocks a request has been handed out and has not linked in -/
  pending : Bool → List ℕ
  /-- the effects so far, each with its request -/
  log : List (Bool × Effect)

/-- The disk and what is known about it. -/
abbrev State : Type := Ghost × Disk

/-- The effects of one request. -/
def Ghost.effects (g : Ghost) (t : Bool) : List Effect :=
  (g.log.filter fun e => e.1 = t).map Prod.snd

/-- The disk is laid out as the abstract file system says, and shows the effects
logged. -/
structure World (m : ℕ) (v₀ : View) (w : State) : Prop where
  /-- the layout -/
  layout : Layout m w.2 w.1.fs (w.1.pending true ++ w.1.pending false)
  /-- the view -/
  view : w.1.fs.view w.2.bytes = Effect.applyAll (w.1.log.map Prod.snd) v₀

/-- What a request relies on the other to do. -/
structure Rely (m : ℕ) (v₀ : View) (t : Bool) (T : Target) (w w' : State) : Prop where
  /-- the world stays sound -/
  world : World m v₀ w → World m v₀ w'
  /-- the target is spared -/
  spares : Spares T w.2 w.1.fs w'.2 w'.1.fs
  /-- the pending blocks stay the request's -/
  pending : w'.1.pending t = w.1.pending t
  /-- so do its effects -/
  effects : w'.1.effects t = w.1.effects t

namespace Rely

variable {m : ℕ} {v₀ : View} {t : Bool} {T : Target} {w w' w'' : State}

theorem refl (w : State) : Rely m v₀ t T w w :=
  ⟨id, .refl T w.2 w.1.fs, rfl, rfl⟩

theorem trans (h : Rely m v₀ t T w w') (h' : Rely m v₀ t T w' w'') : Rely m v₀ t T w w'' :=
  ⟨fun hw => h'.world (h.world hw), h.spares.trans h'.spares, h'.pending.trans h.pending,
    h'.effects.trans h.effects⟩

/-- No directory goes. -/
theorem dirs_length_le (h : Rely m v₀ t T w w') : w.1.fs.dirs.length ≤ w'.1.fs.dirs.length := by
  rcases hlen : w.1.fs.dirs.length with _ | i
  · exact Nat.zero_le _
  · obtain ⟨_, hi, _⟩ := h.spares.dirs i _ (List.getElem?_eq_getElem (by omega))
    exact (List.getElem?_eq_some_iff.mp hi).1

end Rely

/-! ## Updates -/

/-- The ghost after an update by a request. -/
def Ghost.commit (g : Ghost) (t : Bool) (fs : Fs) (pending : List ℕ) (es : List Effect) : Ghost where
  fs := fs
  pending := Function.update g.pending t pending
  log := g.log ++ es.map fun e => (t, e)

section commit

variable {g : Ghost} {t : Bool} {fs : Fs} {pending : List ℕ} {es : List Effect}

@[simp] theorem Ghost.commit_fs : (g.commit t fs pending es).fs = fs := rfl

@[simp] theorem Ghost.commit_pending : (g.commit t fs pending es).pending t = pending := by
  simp [Ghost.commit]

@[simp] theorem Ghost.commit_pending_not :
    (g.commit t fs pending es).pending (!t) = g.pending (!t) := by
  simp [Ghost.commit]

@[simp] theorem Ghost.commit_effects :
    (g.commit t fs pending es).effects t = g.effects t ++ es := by
  simp [Ghost.effects, Ghost.commit, List.filter_map, Function.comp_def]

@[simp] theorem Ghost.commit_effects_not :
    (g.commit t fs pending es).effects (!t) = g.effects (!t) := by
  simp [Ghost.effects, Ghost.commit, List.filter_map, Function.comp_def]

end commit

section world

variable {m : ℕ} {v₀ : View} {w : State} {t : Bool} {d' : Disk} {fs' : Fs} {pending' : List ℕ}
variable {es : List Effect}

theorem World.two_le (h : World m v₀ w) : 2 ≤ m := h.layout.two_le

/-- The layout, with the pending blocks of a request first. -/
theorem World.layout' (h : World m v₀ w) (t : Bool) :
    Layout m w.2 w.1.fs (w.1.pending t ++ w.1.pending (!t)) := by
  cases t with
  | true => exact h.layout
  | false => exact h.layout.perm List.perm_append_comm

/-- An update keeps the world sound. -/
theorem World.commit (h : World m v₀ w)
    (hlayout : Layout m d' fs' (pending' ++ w.1.pending (!t)))
    (hview : fs'.view d'.bytes = Effect.applyAll es (w.1.fs.view w.2.bytes)) :
    World m v₀ (w.1.commit t fs' pending' es, d') where
  layout := by
    cases t with
    | true => simpa [Ghost.commit] using hlayout
    | false => simpa [Ghost.commit] using hlayout.perm List.perm_append_comm
  view := by
    rw [Ghost.commit_fs, hview, h.view, ← Effect.applyAll_append]
    simp [Ghost.commit]

end world

/-- The state after a block has been handed out to a request. -/
def allocState (m : ℕ) (t : Bool) (w : State) : State :=
  (w.1.commit t { w.1.fs with used := w.1.fs.used + 1 } [blockSize * (w.1.fs.used + 1)] [],
    allocDisk m w.2 w.1.fs)

/-- What a request may change, as a relation that every request respects when it
is handed a block. -/
structure Frame (m : ℕ) (v₀ : View) (t : Bool) : Type where
  /-- the relation -/
  rel : State → State → Prop
  /-- changing nothing is allowed -/
  refl : ∀ w, rel w w
  /-- so is one change after the other -/
  trans : ∀ w w' w'', rel w w' → rel w' w'' → rel w w''
  /-- and being handed a block -/
  alloc : ∀ w, World m v₀ w → w.1.pending t = [] → w.1.fs.used + 3 ≤ m →
    rel w (allocState m t w)

/-- Everything may change. -/
def Frame.any (m : ℕ) (v₀ : View) (t : Bool) : Frame m v₀ t where
  rel _ _ := True
  refl _ := trivial
  trans _ _ _ _ _ := trivial
  alloc _ _ _ _ := trivial

/-- Who runs next to whom. -/
structure Context : Type where
  /-- the number of blocks of the disk -/
  m : ℕ
  /-- the view at the beginning -/
  v₀ : View
  /-- the request -/
  t : Bool
  /-- its target -/
  mine : Target
  /-- the target of the other -/
  other : Target
  /-- its frame -/
  frame : Frame m v₀ t

theorem World.allocState {m : ℕ} {v₀ : View} {t : Bool} {w : State} (h : World m v₀ w)
    (hpending : w.1.pending t = []) (hroom : w.1.fs.used + 3 ≤ m) :
    World m v₀ (allocState m t w) := by
  refine h.commit ?_ h.layout.view_alloc
  have halloc := (h.layout' t).alloc hroom
  rwa [hpending] at halloc

namespace Context

variable (c : Context)

/-- What the request relies on. -/
abbrev R (w w' : State) : Prop := Rely c.m c.v₀ c.t c.mine w w'

/-- What it guarantees. -/
structure G (w w' : State) : Prop where
  /-- the other may rely on it -/
  rely : Rely c.m c.v₀ (!c.t) c.other w w'
  /-- only the frame changes -/
  frame : c.frame.rel w w'

/-- A request, or the rest of one, is safe. -/
structure Runs {α : Type} (Q : α → Seen → State → Prop) (p : Request α) (k : Seen) (w : State) :
    Prop where
  /-- the judgement -/
  safe : Safe machine c.R c.G Q p k w

variable {c}

/-- The end of a request, for a postcondition that is stable. -/
theorem Runs.pure {α : Type} {Q : α → Seen → State → Prop} {a : α} {k : Seen} {w : State}
    (h : ∀ w', c.R w w' → Q a k w') : c.Runs Q (Pure.pure a) k w :=
  ⟨Safe.pure h⟩

theorem Runs.mono {α : Type} {Q Q' : α → Seen → State → Prop} {p : Request α} {k : Seen} {w : State}
    (h : c.Runs Q p k w) (hQ : ∀ a k w, Q a k w → Q' a k w) : c.Runs Q' p k w :=
  ⟨h.safe.mono hQ⟩

/-- One part of a request after the other. -/
theorem Runs.bind {α β : Type} {Q : β → Seen → State → Prop} {p : Request α} {f : α → Request β}
    {k : Seen} {w : State} (h : c.Runs (fun a k w => c.Runs Q (f a) k w) p k w) :
    c.Runs Q (p >>= f) k w :=
  ⟨Safe.bind Rely.refl (h.safe.mono fun _ _ _ h => h.safe)⟩

theorem G.refl (w : State) : c.G w w := ⟨.refl w, c.frame.refl w⟩

theorem G.trans {w w' w'' : State} (h : c.G w w') (h' : c.G w' w'') : c.G w w'' :=
  ⟨h.rely.trans h'.rely, c.frame.trans _ _ _ h.frame h'.frame⟩

/-- An update is allowed when it keeps the world sound, spares the target of the
other and stays inside the frame. -/
theorem G.commit {w : State} {d' : Disk} {fs' : Fs} {pending' : List ℕ} {es : List Effect}
    (hlayout : Layout c.m d' fs' (pending' ++ w.1.pending (!c.t)))
    (hview : fs'.view d'.bytes = Effect.applyAll es (w.1.fs.view w.2.bytes))
    (hspares : Spares c.other w.2 w.1.fs d' fs')
    (hframe : c.frame.rel w (w.1.commit c.t fs' pending' es, d')) :
    c.G w (w.1.commit c.t fs' pending' es, d') where
  rely :=
    { world := fun hw => hw.commit hlayout hview
      spares := hspares
      pending := Ghost.commit_pending_not
      effects := Ghost.commit_effects_not }
  frame := hframe

/-- An effect on the target of the request is allowed, and leaves it with nothing
pending. -/
theorem G.commits {w : State} {T : Target} {e : Effect} {d' : Disk} {fs' : Fs}
    (h : Commits c.m T e w.2 w.1.fs d' fs' (w.1.pending (!c.t))) (hother : c.other ≠ T)
    (hframe : c.frame.rel w (w.1.commit c.t fs' [] [e], d')) :
    c.G w (w.1.commit c.t fs' [] [e], d') :=
  .commit h.layout h.view (h.spares _ hother) hframe

end Context

/-- Requests end with their pending blocks linked in, and with the effects that
go with the value they return. -/
structure Ended (t : Bool) (es : List Effect) (w : State) : Prop where
  /-- nothing is pending -/
  pending : w.1.pending t = []
  /-- the effects -/
  effects : w.1.effects t = es

theorem Ended.stable {c : Context} {es : List Effect} {w w' : State} (h : Ended c.t es w) (hR : c.R w w') :
    Ended c.t es w' :=
  ⟨hR.pending.trans h.pending, hR.effects.trans h.effects⟩

end Csc452.Fuse

