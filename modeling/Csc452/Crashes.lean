import Csc452.DiskRuns

/-!
# Calls that are cut short

The file system has no journal. Here a call may be stopped after any of its accesses to
the disk, and the next one finds the disk as it is (`attemptStep`).

Blocks are handed out before they are linked in, and the mark is set first. So a call
that is stopped leaves a disk that is laid out, but for one block that belongs to nobody
(`stopped_consistent`). The calls that follow do not get it again, and do not mind: for
the judgements about requests it is a block that another request has pending, which never
goes on (`parked`).

To make a directory or a file is one access, and happens or does not. A write may be seen
half done, with the new size and some of the new contents, and changes no file but its own
(`stopped_halfway`).
-/

namespace Csc452.Fuse

open ByteFile (Disk Seen Remembers machine)
open Interference (Safe)
open Runs (Always Guarded)

variable {m : ℕ} {d : Disk} {fs : Fs} {v v' : View} {lost : List ℕ} {call : Call} {u : Uninit}
variable {path : CString} {buf : List UInt8} {offset : ℕ} {t : Bool} {w w' : State}
variable {es es' : List Effect}

/-! ## What is done gradually -/

/-- The state before a request, on a disk with blocks that belong to nobody. -/
def parked (fs : Fs) (lost : List ℕ) (d : Disk) : State :=
  (⟨fs, fun t => if t then [] else lost, []⟩, d)

theorem parked_world (h : Layout m d fs lost) : World m (fs.view d.bytes) (parked fs lost d) :=
  ⟨h, rfl⟩

theorem parked_ended : Ended true [] (parked fs lost d) := ⟨rfl, rfl⟩

/-- A request has one block pending at most, and takes no effect back. -/
structure Gradual (t : Bool) (w w' : State) : Prop where
  /-- the blocks -/
  pending : (w.1.pending t).length ≤ 1 → (w'.1.pending t).length ≤ 1
  /-- the effects -/
  effects : w.1.effects t <+: w'.1.effects t

theorem Gradual.refl (w : State) : Gradual t w w := ⟨id, List.prefix_refl _⟩

theorem Gradual.trans {w'' : State} (h : Gradual t w w') (h' : Gradual t w' w'') : Gradual t w w'' :=
  ⟨fun hw => h'.pending (h.pending hw), h.effects.trans h'.effects⟩

/-- What is pending is linked in. -/
theorem Gradual.commit (w : State) (fs' : Fs) (es : List Effect) (d' : Disk) :
    Gradual t w (w.1.commit t fs' [] es, d') where
  pending _ := by
    rw [Ghost.commit_pending]
    exact Nat.zero_le 1
  effects := by
    rw [Ghost.commit_effects]
    exact List.prefix_append _ _

theorem Gradual.alloc (w : State) : Gradual t w (allocState m t w) where
  pending _ := by
    rw [allocState, Ghost.commit_pending]
    exact le_refl 1
  effects := by
    rw [allocState, Ghost.commit_effects]
    exact List.prefix_append _ _

/-- The frame of a request that does things gradually, as they all do. -/
def Frame.gradual (m : ℕ) (v₀ : View) (t : Bool) : Frame m v₀ t where
  rel := Gradual t
  refl := .refl
  trans _ _ _ h h' := h.trans h'
  alloc w _ _ _ := .alloc w

/-- A request about `T` that may be stopped. -/
abbrev stoppable (m : ℕ) (v : View) (T : Target) : Context := alone m v T (.gradual m v true)

/-! ## The effects of a call, one after the other -/

/-- The effects that a call may have had when it is stopped. -/
def Call.Steps (call : Call) (v : View) (es : List Effect) : Prop :=
  match call with
  | .write _ buf offset =>
    es = [] ∨ ∃ F, v.file? call.comp.directory call.comp.key = some F ∧
      ∀ e ∈ es, ∃ data, e = .setFile call.comp.directory { F.written offset buf with data := data }
  | _ => es = [] ∨ call.respond v = some es

/-- A call has at most one effect. -/
theorem Call.length_respond_le (h : call.respond v = some es) : es.length ≤ 1 := by
  cases call with
  | mkdir path =>
    obtain ⟨-, hes⟩ := Option.ite_none_right_eq_some.mp h
    obtain rfl := Option.some.inj hes
    exact le_refl 1
  | mknod path =>
    obtain ⟨-, hes⟩ := Option.ite_none_right_eq_some.mp h
    obtain rfl := Option.some.inj hes
    exact le_refl 1
  | write path buf offset =>
    obtain ⟨-, F, -, ⟨-, rfl⟩ | ⟨-, -, rfl⟩⟩ := Call.respond_write h
    · exact Nat.zero_le 1
    · exact le_refl 1

theorem Call.Steps.of_prefix (h : call.Steps v es) (hes : es' <+: es) : call.Steps v es' := by
  have hone : es = [] ∨ call.respond v = some es → es' = [] ∨ call.respond v = some es' := by
    rintro (rfl | hcall)
    · exact .inl (List.prefix_nil.mp hes)
    · rcases List.eq_nil_or_concat es' with rfl | ⟨l, e, rfl⟩
      · exact .inl rfl
      · have hle := Call.length_respond_le hcall
        rw [hes.eq_of_length_le (by simpa using hle.trans (Nat.le_add_left 1 l.length))]
        exact .inr hcall
  cases call with
  | mkdir path => exact hone h
  | mknod path => exact hone h
  | write path buf offset =>
    rcases h with rfl | ⟨F, hF, hsets⟩
    · exact .inl (List.prefix_nil.mp hes)
    · exact .inr ⟨F, hF, fun e he => hsets e (hes.subset he)⟩

/-- What is seen of a call that has been stopped. -/
inductive Halfway (call : Call) (v v' : View) : Prop where
  /-- nothing -/
  | before (h : v' = v)
  /-- all of it -/
  | after (es : List Effect) (hcall : call.respond v = some es) (hview : v' = Effect.applyAll es v)
  /-- a file with its new size, and other contents -/
  | within (h : call.Partial v v')

theorem Call.Steps.halfway (h : call.Steps v es) : Halfway call v (Effect.applyAll es v) := by
  have hone : es = [] ∨ call.respond v = some es → Halfway call v (Effect.applyAll es v) := by
    rintro (rfl | hcall)
    · exact .before rfl
    · exact .after es hcall rfl
  cases call with
  | mkdir path => exact hone h
  | mknod path => exact hone h
  | write path buf offset =>
    rcases h with rfl | ⟨F, hF, hsets⟩
    · exact .before rfl
    · have hwrites : Writes (Call.write path buf offset).comp.directory
          ⟨F.fname, F.fext, newSize F.fsize offset buf.length, []⟩ es := hsets
      rcases hwrites.applyAll with hview | ⟨data, hdata⟩
      · exact .before hview
      · exact .within ⟨F, data, hF, hdata⟩

/-! ## Calls -/

/-- The call does what it does gradually. -/
def Call.Gradually (u : Uninit) (call : Call) (m : ℕ) (lost : List ℕ) (d : Disk) (fs : Fs) : Prop :=
  ∃ T, (stoppable m (fs.view d.bytes) T).Runs
    (fun _ _ w => w.1.pending true = [] ∧ call.Steps (fs.view d.bytes) (w.1.effects true))
    (call.request u) (fun _ => none) (parked fs lost d)

theorem mkdir_gradually (h : Layout m d fs lost) : (Call.mkdir path).Gradually u m lost d fs := by
  refine ⟨.dir (sscanf path.bytes).directory, (csc452Mkdir_runs_frame (stoppable m _ _)
    (fun _ => none) u path (parked_world h) parked_ended rfl (by simp [stoppable, alone])
    fun w fs' e d' => .commit w fs' [e] d').mono ?_⟩
  rintro ret k w (⟨-, hpath, hno, hends⟩ | ⟨-, -, hends⟩)
  · have heffects : w.1.effects true = [.addDir (sscanf path.bytes).directory] := hends.effects
    refine ⟨hends.pending, .inr ?_⟩
    rw [heffects]
    exact if_pos ⟨hpath.1, hpath.2, dir?_view_eq_none.mpr hno⟩
  · exact ⟨hends.pending, .inl hends.effects⟩

theorem mknod_gradually (h : Layout m d fs lost)
    (hlegal : (Call.mknod path).Legal (fs.view d.bytes)) (hvisible : (fs.view d.bytes).Visible) :
    (Call.mknod path).Gradually u m lost d fs := by
  rcases eq_or_ne (sscanf path.bytes).count 3 with hcount | hcount
  swap
  · refine ⟨.idle, ?_⟩
    rw [Call.request, csc452Mknod, if_pos hcount]
    exact .pure fun w hR => ⟨hR.pending, .inl hR.effects⟩
  rcases hdir : (fs.view d.bytes).dir? (sscanf path.bytes).directory with _ | Dv
  · exact absurd hdir (hlegal hcount)
  obtain ⟨i, D, hi, hname, rfl⟩ := dir?_view hdir
  have hD := List.mem_of_getElem? hi
  have hvisible' : ∀ F ∈ D.files, toInt F.fsize ≠ -1 := fun F hF =>
    hvisible (D.view d.bytes) (List.mem_map_of_mem hD) (F.view d.bytes) (List.mem_map_of_mem hF)
  refine ⟨.file (sscanf path.bytes).directory (sscanf path.bytes).key,
    (csc452Mknod_runs_frame (stoppable m _ _) (fun _ => none) u path (parked_world h) parked_ended
      hi hname hvisible' rfl (by simp [stoppable, alone])
      fun w fs' e d' => .commit w fs' [e] d').mono ?_⟩
  rintro ret k w (⟨-, hpath, hno, hends⟩ | ⟨-, -, hends⟩)
  · have heffects : w.1.effects true =
        [.addFile (sscanf path.bytes).directory (newFile (sscanf path.bytes))] := hends.effects
    refine ⟨hends.pending, .inr ?_⟩
    rw [heffects]
    exact if_pos ⟨hpath.1, hpath.2.1, hpath.2.2, hlegal hcount,
      (file?_view_eq_none h hD hname).mpr hno⟩
  · exact ⟨hends.pending, .inl hends.effects⟩

theorem write_gradually (h : Layout m d fs lost)
    (hlegal : (Call.write path buf offset).Legal (fs.view d.bytes)) :
    (Call.write path buf offset).Gradually u m lost d fs := by
  have hrefused : ∀ {T}, (stoppable m (fs.view d.bytes) T).Runs
      (fun ret _ w => ret < 0 ∧ Ended true [] w) (csc452Write u path buf offset) (fun _ => none)
      (parked fs lost d) → (Call.write path buf offset).Gradually u m lost d fs :=
    fun {T} hruns => ⟨T, hruns.mono fun _ _ _ hends => ⟨hends.2.pending, .inl hends.2.effects⟩⟩
  rcases eq_or_ne (sscanf path.bytes).count 3 with hcount | hcount
  swap
  · exact hrefused (T := .idle) (csc452Write_runs_path (parked_world h) parked_ended hcount)
  rcases hdir : (fs.view d.bytes).dir? (sscanf path.bytes).directory with _ | Dv
  · exact hrefused (T := .dir (sscanf path.bytes).directory)
      (csc452Write_runs_none (parked_world h) parked_ended hcount rfl (dir?_view_eq_none.mp hdir))
  obtain ⟨i, D, hi, hname, rfl⟩ := dir?_view hdir
  rcases hfile : (fs.view d.bytes).file? (sscanf path.bytes).directory (sscanf path.bytes).key with
    _ | Fv
  · exact hrefused (T := .file (sscanf path.bytes).directory (sscanf path.bytes).key)
      (csc452Write_runs_fresh (parked_world h) parked_ended hcount hi hname rfl
        ((file?_view_eq_none h (List.mem_of_getElem? hi) hname).mp hfile))
  have hoffset := hlegal Fv hfile
  obtain ⟨x, F, hx, hxname, hkey, rfl⟩ := file?_view hfile
  rw [File.view, length_dataOf] at hoffset
  refine ⟨.file x.dname F.key, (csc452Write_runs_frame (stoppable m _ _) (fun _ => none) path u buf
    (parked_world h) parked_ended hcount hx hxname hkey hoffset rfl (by simp [stoppable, alone])
    fun w fs' es d' _ => .commit w fs' es d').mono ?_⟩
  rintro ret k w hends
  refine ⟨hends.pending, ?_⟩
  rcases hends with ⟨-, -, -, hends⟩ | ⟨-, hends, -⟩ | ⟨done, -, -, -, -, hends⟩
  · exact .inl hends.effects
  · exact .inl hends.effects
  · have hwrites : Writes x.dname { F with fsize := newSize F.fsize offset buf.length }
        (w.1.effects true) := by
      have heffects := hends.effects
      cases done with
      | true =>
        obtain ⟨es, hes, heq⟩ := heffects
        have heq : w.1.effects true = _ := heq
        rw [heq]
        exact hes.append
      | false => exact heffects
    refine .inr ⟨F.view d.bytes, hfile, fun e he => ?_⟩
    obtain ⟨data, rfl⟩ := hwrites e he
    exact ⟨data, by rw [hxname]; rfl⟩

/-- Every call does. -/
theorem Call.gradually (u : Uninit) (h : Layout m d fs lost) (hlegal : call.Legal (fs.view d.bytes))
    (hvisible : (fs.view d.bytes).Visible) : call.Gradually u m lost d fs := by
  cases call with
  | mkdir path => exact mkdir_gradually h
  | mknod path => exact mknod_gradually h hlegal hvisible
  | write path buf offset => exact write_gradually h hlegal

/-- What is left on a disk by a call that did not get further than to `d'`. -/
structure Leaves (m : ℕ) (lost : List ℕ) (d' : Disk) (fs' : Fs) (own : List ℕ) (es : List Effect)
    (v : View) : Prop where
  /-- the layout -/
  layout : Layout m d' fs' (own ++ lost)
  /-- the view -/
  view : fs'.view d'.bytes = Effect.applyAll es v

theorem Context.G.leaves {T : Target} {g : Ghost} {d' : Disk} (h : Layout m d fs lost)
    (hG : (stoppable m (fs.view d.bytes) T).G (parked fs lost d) (g, d')) :
    Leaves m lost d' g.fs (g.pending true) (g.effects true) (fs.view d.bytes) := by
  have hworld := hG.rely.world (parked_world h)
  have hpending : g.pending false = lost := hG.rely.pending
  have hlayout := hworld.layout
  have hview := hworld.view
  rw [Ghost.log_eq hG.rely.effects] at hview
  rw [hpending] at hlayout
  exact ⟨hlayout, hview⟩

/-- **One call**, stopped after `n` accesses, or not at all. -/
theorem Call.stopped_spec (h : Layout m d fs lost) (hlegal : call.Legal (fs.view d.bytes))
    (hvisible : (fs.view d.bytes).Visible) (n : ℕ) :
    (∃ fs' own, own.length ≤ 1 ∧
      Layout m (machine.runFor n (call.request u) d) fs' (own ++ lost) ∧
      Halfway call (fs.view d.bytes) (fs'.view (machine.runFor n (call.request u) d).bytes)) ∧
    ∃ fs', Layout m (call.run u d).2 fs' lost := by
  obtain ⟨T, hruns⟩ := call.gradually u h hlegal hvisible
  obtain ⟨g, g', k, hG, hG', hpending, hsteps⟩ := hruns.safe.stopped (J := Remembers) Rely.refl .refl
    (fun _ _ _ h h' => h.trans h') (fun k o s hk => hk.exec o) (Remembers.init d) n
  have hleaves := hG.leaves h
  have hleaves' := (hG.trans hG').leaves h
  refine ⟨⟨g.fs, g.pending true, hG.frame.pending (Nat.zero_le 1), hleaves.layout, ?_⟩, g'.fs, ?_⟩
  · have hhalfway := (hsteps.of_prefix hG'.frame.effects).halfway
    rwa [← hleaves.view] at hhalfway
  · have hlayout := hleaves'.layout
    rwa [show g'.pending true = [] from hpending] at hlayout

/-! ## Runs in which calls are cut short -/

/-- A call, with what its local variables hold, and after how many accesses to the disk it
is stopped, if it is. -/
structure Attempt : Type where
  /-- the local variables -/
  u : Uninit
  /-- the call -/
  call : Call
  /-- where it is stopped -/
  stop : Option ℕ

/-- What an attempt leads to. -/
def attemptStep (d : Disk) (a : Attempt) : Option Disk :=
  match a.stop with
  | none => some (a.call.run a.u d).2
  | some n => some (machine.runFor n (a.call.request a.u) d)

instance (v : View) : Decidable v.Visible :=
  inferInstanceAs (Decidable (∀ D ∈ v, ∀ F ∈ D.files, toInt F.fsize ≠ -1))

/-- What the code does not check of a call. -/
structure Attempt.Legal (m : ℕ) (d : Disk) (a : Attempt) : Prop where
  /-- a file is made in a directory that is there, and a write starts in the contents -/
  legal : a.call.Legal (diskView m d)
  /-- no recorded size reads as -1 -/
  visible : (diskView m d).Visible

/-- The number of attempts that are cut short. -/
def cuts (as : List Attempt) : ℕ := as.countP fun a => a.stop.isSome

/-- One attempt. It loses a block at most, and only when it is cut short. -/
theorem Layout.attempt (h : Layout m d fs lost) {a : Attempt} {d' : Disk} (ha : a.Legal m d)
    (hstep : attemptStep d a = some d') :
    ∃ fs' lost', Layout m d' fs' lost' ∧ lost'.length ≤ lost.length + cuts [a] := by
  have hview := h.diskView_eq
  have hspec := a.call.stopped_spec (u := a.u) h (hview ▸ ha.legal) (hview ▸ ha.visible)
  rw [attemptStep] at hstep
  rcases hstop : a.stop with _ | n
  · rw [hstop] at hstep
    obtain rfl := Option.some.inj hstep
    obtain ⟨-, fs', hlayout⟩ := hspec 0
    exact ⟨fs', lost, hlayout, Nat.le_add_right _ _⟩
  · rw [hstop] at hstep
    obtain rfl := Option.some.inj hstep
    obtain ⟨⟨fs', own, hown, hlayout, -⟩, -⟩ := hspec n
    refine ⟨fs', own ++ lost, hlayout, ?_⟩
    have hone : cuts [a] = 1 := by simp [cuts, hstop]
    rw [hone, List.length_append, Nat.add_comm]
    exact Nat.add_le_add_left hown _

/-- **After crashes.** On a disk that starts as zeros, after any sequence of calls, each of
which may be cut short after any of its accesses to the disk: the disk is laid out, with
tables that are not exceeded, names that are known once and chains that end, and every
block handed out has one owner, but for as many blocks at most as calls have been cut
short.

Whether cut short or not, each call finds what the code does not check (`Attempt.Legal`): the
directory a file is made in is there, a write whose offset is inside the recorded size starts
inside the blocks of its file, and no recorded size reads as -1. A write that is cut short
may leave a size behind that is larger than its blocks, so the second of these is a condition
on what follows it. -/
theorem stopped_consistent (hm : 2 ≤ m) (hlt : blockSize * m < 2 ^ 31) {as : List Attempt}
    (h : Guarded attemptStep (fun d a => a.Legal m d) (zeroDisk m) as)
    (hrun : Runs.run attemptStep (zeroDisk m) as = some d) :
    ∃ lost, Layout m d (snapshot m d) lost ∧ lost.length ≤ cuts as := by
  suffices hall : ∀ as d₀ fs lost, Layout m d₀ fs lost →
      Guarded attemptStep (fun d a => a.Legal m d) d₀ as → Runs.run attemptStep d₀ as = some d →
      ∃ fs' lost', Layout m d fs' lost' ∧ lost'.length ≤ lost.length + cuts as by
    obtain ⟨fs', lost', hlayout, hle⟩ := hall as _ _ [] (.zero hm hlt) h hrun
    rw [hlayout.snapshot_eq]
    exact ⟨lost', hlayout, hle.trans (Nat.zero_add _).le⟩
  intro as
  induction as with
  | nil =>
    intro d₀ fs lost hlayout _ hrun
    obtain rfl : d₀ = d := Option.some.inj hrun
    exact ⟨fs, lost, hlayout, Nat.le_add_right _ _⟩
  | cons a as ih =>
    intro d₀ fs lost hlayout hguarded hrun
    obtain ⟨d₁, hstep, hrest⟩ := Option.bind_eq_some_iff.mp hrun
    obtain ⟨hlegal, hguarded⟩ := hguarded d₁ hstep
    obtain ⟨fs₁, lost₁, hlayout₁, hle₁⟩ := hlayout.attempt hlegal hstep
    obtain ⟨fs', lost', hlayout', hle'⟩ := ih d₁ fs₁ lost₁ hlayout₁ hguarded hrest
    refine ⟨fs', lost', hlayout', hle'.trans ?_⟩
    have hcuts : cuts (a :: as) = cuts [a] + cuts as := by simp [cuts, List.countP_cons, Nat.add_comm]
    omega

/-- A directory is made at the second attempt. The first one has used up a block. -/
theorem stopped_consistent_mkdir :
    let u : Uninit := ⟨fun _ => 0, fun _ => 0⟩
    let call : Call := .mkdir ⟨[47, 100], by decide⟩
    let as : List Attempt := [⟨u, call, some 7⟩, ⟨u, call, none⟩]
    ∃ d, Runs.run attemptStep (zeroDisk 5) as = some d ∧
      ∃ lost, Layout 5 d (snapshot 5 d) lost ∧ lost.length ≤ cuts as := by
  intro u call as
  refine ⟨_, rfl, stopped_consistent (by decide) (by decide) ?_ rfl⟩
  exact fun d hd => ⟨⟨trivial, by decide +kernel⟩, fun d' hd' => ⟨⟨trivial, by
    obtain rfl := Option.some.inj hd
    decide +kernel⟩, trivial⟩⟩

/-- **All or nothing, but for writes.** In every state of such a run: a call that is then cut
short anywhere is seen not at all, or as a whole, or, if it is a write to a file that is
there, as a new size and new contents of that file and nothing else. What the calls of the
run have to find, the last one has to find as well (`Attempt.Legal`). -/
theorem stopped_halfway (hm : 2 ≤ m) (hlt : blockSize * m < 2 ^ 31) {as : List Attempt}
    (h : Guarded attemptStep (fun d a => a.Legal m d) (zeroDisk m) as) :
    Always attemptStep (fun d => ∀ u call n, Attempt.Legal m d ⟨u, call, some n⟩ →
      Halfway call (diskView m d) (diskView m (machine.runFor n (call.request u) d)))
      (zeroDisk m) as := by
  have hlayout : Always attemptStep (fun d => ∃ fs lost, Layout m d fs lost) (zeroDisk m) as := by
    refine h.always ⟨_, [], .zero hm hlt⟩ ?_
    rintro d a d' ⟨fs, lost, hl⟩ ha hstep
    obtain ⟨fs', lost', hl', -⟩ := hl.attempt ha hstep
    exact ⟨fs', lost', hl'⟩
  refine hlayout.mono fun d ⟨fs, lost, hl⟩ u call n ha => ?_
  have hview := hl.diskView_eq
  obtain ⟨⟨fs', own, -, hl', hhalfway⟩, -⟩ :=
    call.stopped_spec (u := u) hl (hview ▸ ha.legal) (hview ▸ ha.visible) n
  rwa [hview, hl'.diskView_eq]

/-- After a `mkdir` that has been cut short. -/
theorem stopped_halfway_mkdir :
    let u : Uninit := ⟨fun _ => 0, fun _ => 0⟩
    Always attemptStep (fun d => ∀ u call n, Attempt.Legal 5 d ⟨u, call, some n⟩ →
      Halfway call (diskView 5 d) (diskView 5 (machine.runFor n (call.request u) d)))
      (zeroDisk 5) [⟨u, .mkdir ⟨[47, 100], by decide⟩, some 7⟩] := by
  intro u
  exact stopped_halfway (by decide) (by decide) fun d _ => ⟨⟨trivial, by decide +kernel⟩, trivial⟩

end Csc452.Fuse
