import Csc452.MakeRequests
import Csc452.WriteRequest

/-!
# Calls that run alone

The code refines the machine on views: a call that nothing interferes with does
what the machine says (`Call.run_spec`). A call that is refused changes nothing;
one that is accepted takes effect if there is room for it, and otherwise returns
an error, where a write may have changed the size and some of the contents of its
file.

It is obtained from the same judgements about the requests that hold when others
run, with nobody else around (`Context.Runs.alone`).
-/

namespace Csc452.Fuse

open Bytes (Memory AgreeOn shift)
open ByteFile (Disk Seen Remembers machine)
open Interference (Safe)

variable {m : ℕ} {d : Disk} {fs : Fs}

/-! ## The view of a layout -/

namespace Layout

theorem proper {pending : List ℕ} (h : Layout m d fs pending) : (fs.view d.bytes).Proper where
  dirs_nodup := by
    rw [Fs.view, List.map_map]
    exact h.dirs_nodup
  files_nodup Dv hDv := by
    obtain ⟨D, hD, rfl⟩ := List.mem_map.mp hDv
    rw [Dir.view, List.map_map]
    refine (List.map_congr_left fun F _ => ?_).symm ▸ h.files_nodup D hD
    exact F.view_key d.bytes
  data Dv hDv Fv hFv := by
    obtain ⟨D, -, rfl⟩ := List.mem_map.mp hDv
    obtain ⟨F, -, rfl⟩ := List.mem_map.mp hFv
    rw [File.view, length_dataOf]
    exact Dvd.intro _ rfl

/-- Blocks are counted in the view. -/
theorem length_owned : fs.owned.length = (fs.view d.bytes).blocks := by
  have hfiles : ∀ files : List File, (files.flatMap File.blocks).length =
      fileBlocks (files.map (File.view d.bytes)) := by
    intro files
    induction files with
    | nil => rfl
    | cons F files ih =>
      rw [List.flatMap_cons, List.length_append, ih, List.map_cons, fileBlocks_cons, File.view,
        length_dataOf, Nat.mul_div_cancel_left _ (by decide)]
  rw [Fs.owned, Fs.view]
  induction fs.dirs with
  | nil => rfl
  | cons D dirs ih =>
    rw [List.flatMap_cons, List.length_append, ih, List.map_cons, View.blocks_cons, Dir.owned,
      List.length_cons, hfiles, Dir.view]
    ring

theorem used_eq (h : Layout m d fs []) : fs.used = (fs.view d.bytes).blocks := by
  have hlen := h.partition.length_eq
  rw [List.append_nil, blocksUpTo, List.length_map, List.length_range] at hlen
  rw [← hlen, length_owned]

theorem room (h : Layout m d fs []) : Room m (fs.view d.bytes) where
  dirs := by
    rw [Fs.view, List.length_map]
    exact h.root.length_le
  files Dv hDv := by
    obtain ⟨D, hD, rfl⟩ := List.mem_map.mp hDv
    rw [Dir.view, List.length_map]
    exact (h.dir D hD).length_le
  blocks := by
    rw [← h.used_eq]
    exact h.used_le

end Layout

section lookup

variable {n : List UInt8} {key : List UInt8 × List UInt8} {mem : Memory}

theorem dir?_view {Dv : DirView} (h : (fs.view mem).dir? n = some Dv) :
    ∃ (i : ℕ) (D : Dir), fs.dirs[i]? = some D ∧ D.dname = n ∧ Dv = D.view mem := by
  obtain ⟨hmem, hname⟩ := View.dir?_eq_some h
  obtain ⟨D, hD, rfl⟩ := List.mem_map.mp hmem
  obtain ⟨i, hi⟩ := List.getElem?_of_mem hD
  exact ⟨i, D, hi, hname, rfl⟩

theorem dir?_view_eq_none : (fs.view mem).dir? n = none ↔ ∀ D ∈ fs.dirs, D.dname ≠ n := by
  rw [View.dir?_eq_none, Fs.view]
  simp [Dir.view]

/-- A file that is found has a place. -/
theorem file?_view {Fv : FileView} (h : (fs.view mem).file? n key = some Fv) :
    ∃ x F, Place.Holds x F fs ∧ x.dname = n ∧ F.key = key ∧ Fv = F.view mem := by
  obtain ⟨Dv, hDv, hFv, hkey⟩ := View.file?_eq_some h
  obtain ⟨i, D, hi, hname, rfl⟩ := dir?_view hDv
  obtain ⟨F, hF, rfl⟩ := List.mem_map.mp hFv
  obtain ⟨j, hj⟩ := List.getElem?_of_mem hF
  rw [File.view_key] at hkey
  exact ⟨⟨i, D.dname, D.block, j⟩, F, ⟨D, hi, rfl, rfl, hj⟩, hname, hkey, rfl⟩

/-- In a directory that is there, a file is found or is not there. -/
theorem file?_view_eq_none {pending : List ℕ} {D : Dir} (h : Layout m d fs pending)
    (hD : D ∈ fs.dirs) (hname : D.dname = n) :
    (fs.view d.bytes).file? n key = none ↔ ∀ F ∈ D.files, F.key ≠ key := by
  have hfind : (fs.view d.bytes).dir? n = some (D.view d.bytes) := by
    rcases hv : (fs.view d.bytes).dir? n with _ | Dv
    · exact absurd hname (dir?_view_eq_none.mp hv D hD)
    · obtain ⟨i, D', hi, hname', rfl⟩ := dir?_view hv
      rw [h.dir_unique (List.mem_of_getElem? hi) hD (hname'.trans hname.symm)]
  rw [View.file?, hfind, Option.bind_some, DirView.file?, List.find?_eq_none, Dir.view]
  simp

end lookup

/-- A file in its place is found. -/
theorem Place.Holds.file?_view {pending : List ℕ} {x : Place} {F : File} (hx : x.Holds F fs)
    (h : Layout m d fs pending) :
    (fs.view d.bytes).file? x.dname F.key = some (F.view d.bytes) := by
  obtain ⟨D, hi, hname, -, hj⟩ := hx
  have hD := List.mem_of_getElem? hi
  rcases hfile : (fs.view d.bytes).file? x.dname F.key with _ | Fv
  · exact absurd rfl ((file?_view_eq_none h hD hname).mp hfile F (List.mem_of_getElem? hj))
  · obtain ⟨x', F', ⟨D', hi', hname', -, hj'⟩, hx', hkey, rfl⟩ := Csc452.Fuse.file?_view hfile
    obtain rfl := h.dir_unique (List.mem_of_getElem? hi') hD (by rw [hname', hx', hname])
    rw [h.file_unique hD (List.mem_of_getElem? hj') (List.mem_of_getElem? hj) hkey]

/-! ## Nobody else -/

/-- A request that runs alone. -/
def alone (m : ℕ) (v : View) (T : Target) (frame : Frame m v true) : Context where
  m := m
  v₀ := v
  t := true
  mine := T
  other := .idle
  frame := frame

/-- The state before a request: nothing is pending, and nothing has happened. -/
def start (fs : Fs) (d : Disk) : State := (⟨fs, fun _ => [], []⟩, d)

theorem start_world (h : Layout m d fs []) : World m (fs.view d.bytes) (start fs d) := ⟨h, rfl⟩

theorem start_ended (t : Bool) : Ended t [] (start fs d) := ⟨rfl, rfl⟩

/-- What a request that ran alone leaves. -/
structure Left (m : ℕ) (v : View) (frame : Frame m v true) (w : State) (g : Ghost) (d' : Disk) :
    Prop where
  /-- the world is sound -/
  world : World m v (g, d')
  /-- nothing else is pending -/
  pending : g.pending false = []
  /-- there are no other effects -/
  effects : g.effects false = []
  /-- the frame is respected -/
  frame : frame.rel w (g, d')

/-- **Running alone**, with a target that is to be spared. -/
theorem Context.Runs.spares {α : Type} {T T' : Target} {frame : Frame m (fs.view d.bytes) true}
    {Q : α → Seen → State → Prop} {p : Request α} (h : Layout m d fs [])
    (hp : Context.Runs { alone m (fs.view d.bytes) T frame with other := T' } Q p (fun _ => none)
      (start fs d)) :
    ∃ g k, Q (machine.run p d).1 k (g, (machine.run p d).2) ∧
      Left m (fs.view d.bytes) frame (start fs d) g (machine.run p d).2 ∧
      Spares T' d fs (machine.run p d).2 g.fs := by
  obtain ⟨g, k, hQ, hG⟩ := hp.safe.solo (J := Remembers) Rely.refl .refl (fun _ _ _ h h' => h.trans h')
    (fun k o s hk => hk.exec o) (Remembers.init d)
  exact ⟨g, k, hQ, ⟨hG.rely.world (start_world h), hG.rely.pending, hG.rely.effects, hG.frame⟩,
    hG.rely.spares⟩

/-- **Running alone.** -/
theorem Context.Runs.alone {α : Type} {T : Target} {frame : Frame m (fs.view d.bytes) true}
    {Q : α → Seen → State → Prop} {p : Request α} (h : Layout m d fs [])
    (hp : (alone m (fs.view d.bytes) T frame).Runs Q p (fun _ => none) (start fs d)) :
    ∃ g k, Q (machine.run p d).1 k (g, (machine.run p d).2) ∧
      Left m (fs.view d.bytes) frame (start fs d) g (machine.run p d).2 := by
  obtain ⟨g, k, hQ, hleft, -⟩ := Context.Runs.spares h hp
  exact ⟨g, k, hQ, hleft⟩

theorem Ghost.log_eq {g : Ghost} (h : g.effects false = []) : g.log.map Prod.snd = g.effects true := by
  rw [Ghost.effects, List.map_eq_nil_iff, List.filter_eq_nil_iff] at h
  rw [Ghost.effects, List.filter_eq_self.mpr fun e he => by simpa using h e he]

/-- When nothing of its own is pending, nothing is. -/
theorem Left.layout {v : View} {frame : Frame m v true} {w : State} {g : Ghost} {d' : Disk}
    (h : Left m v frame w g d') (hpending : g.pending true = []) : Layout m d' g.fs [] := by
  have hlayout := h.world.layout
  rwa [hpending, h.pending] at hlayout

/-- A request that has ended leaves a layout, and the view its effects lead to. -/
theorem Left.ended {v : View} {frame : Frame m v true} {w : State} {g : Ghost} {d' : Disk}
    {es : List Effect} (h : Left m v frame w g d') (hends : Ended true es (g, d')) :
    Layout m d' g.fs [] ∧ g.fs.view d'.bytes = Effect.applyAll es v := by
  have hview := h.world.view
  rw [Ghost.log_eq h.effects, hends.effects] at hview
  exact ⟨h.layout hends.pending, hview⟩

/-! ## The calls -/

/-- The effects of a write that gave up on the way. -/
def Call.Partial (call : Call) (v v' : View) : Prop :=
  match call with
  | .write _ buf offset =>
    ∃ F data, v.file? call.comp.directory call.comp.key = some F ∧
      v' = (Effect.setFile call.comp.directory { F.written offset buf with data := data }).apply v
  | _ => False

/-- The call is a write. -/
def Call.IsWrite : Call → Prop
  | .write _ _ _ => True
  | _ => False

/-- How a call ends that runs alone. -/
inductive Outcome (m : ℕ) (call : Call) (v : View) (ret : ℤ) (v' : View) : Prop where
  /-- it is refused -/
  | refused (hcall : call.respond v = none) (hret : ret < 0) (hview : v' = v)
  /-- it takes effect -/
  | done (es : List Effect) (hcall : call.respond v = some es) (hroom : Room m (Effect.applyAll es v))
    (hret : 0 ≤ ret) (hview : v' = Effect.applyAll es v)
  /-- there is no room -/
  | full (es : List Effect) (hcall : call.respond v = some es)
    (hroom : ¬ Room m (Effect.applyAll es v)) (hret : ret < 0)
    (hbig : call.IsWrite → ret = -EFBIG) (hview : v' = v ∨ call.Partial v v')

/-- A call that runs alone. -/
def Call.run (u : Uninit) (call : Call) (d : Disk) : ℤ × Disk := machine.run (call.request u) d

variable {u : Uninit} {path : CString}

theorem mkdir_spec (h : Layout m d fs []) :
    ∃ fs', Layout m ((Call.mkdir path).run u d).2 fs' [] ∧
      Outcome m (.mkdir path) (fs.view d.bytes) ((Call.mkdir path).run u d).1
        (fs'.view ((Call.mkdir path).run u d).2.bytes) := by
  have hruns := csc452Mkdir_runs (alone m (fs.view d.bytes) (.dir (sscanf path.bytes).directory)
    (.any m _ true)) (fun _ => none) u path (start_world h) (start_ended true) rfl (by simp [alone])
    (fun _ _ => trivial)
  obtain ⟨g, k, hends, hleft⟩ := hruns.alone h
  have hrun : (Call.mkdir path).run u d = machine.run (csc452Mkdir u path) d := rfl
  rw [hrun]
  generalize machine.run (csc452Mkdir u path) d = r at *
  obtain ⟨ret, d'⟩ := r
  rcases hends with ⟨hret, hpath, hno, hends⟩ | ⟨hret, hwhy, hends⟩
  · obtain ⟨hlayout, hview⟩ := hleft.ended hends
    refine ⟨g.fs, hlayout, .done _ ?_ (hview ▸ hlayout.room) hret.ge hview⟩
    exact if_pos ⟨hpath.1, hpath.2, dir?_view_eq_none.mpr hno⟩
  · obtain ⟨hlayout, hview⟩ := hleft.ended hends
    refine ⟨g.fs, hlayout, ?_⟩
    rcases hcall : (Call.mkdir path).respond (fs.view d.bytes) with _ | es
    · exact .refused hcall hret hview
    obtain ⟨hpath, hes⟩ := Option.ite_none_right_eq_some.mp hcall
    obtain rfl := Option.some.inj hes
    refine .full _ hcall (fun hroom => ?_) hret (fun hwrite => hwrite.elim) (.inl hview)
    have hview : g.fs.view d'.bytes = fs.view d.bytes := hview
    rcases hwhy with hwhy | ⟨D, hD, hname⟩ | hfull | hfull
    · rcases hwhy with hcount | hlen
      · exact hcount hpath.1
      · exact absurd hlen (not_lt.mpr hpath.2.1)
    · have hnone : (g.fs.view d'.bytes).dir? (sscanf path.bytes).directory = none := by
        rw [hview]
        exact hpath.2.2
      exact dir?_view_eq_none.mp hnone D hD hname
    · have hlen : g.fs.dirs.length = (fs.view d.bytes).length := by
        rw [← hview, Fs.view, List.length_map]
      have hdirs : ((fs.view d.bytes).length + 1) ≤ maxDirsInRoot := by
        simpa [Effect.applyAll, Effect.apply] using hroom.dirs
      exact absurd (hfull.trans hlen.le) (not_le.mpr hdirs)
    · have hblocks : (fs.view d.bytes).blocks + 1 + 2 ≤ m := by
        rw [← View.blocks_addDir]
        exact hroom.blocks
      have hused := hlayout.used_eq
      rw [hview] at hused
      simp only [alone] at hfull
      omega

theorem mknod_spec (h : Layout m d fs []) (hlegal : (Call.mknod path).Legal (fs.view d.bytes))
    (hvisible : (fs.view d.bytes).Visible) :
    ∃ fs', Layout m ((Call.mknod path).run u d).2 fs' [] ∧
      Outcome m (.mknod path) (fs.view d.bytes) ((Call.mknod path).run u d).1
        (fs'.view ((Call.mknod path).run u d).2.bytes) := by
  rcases eq_or_ne (sscanf path.bytes).count 3 with hcount | hcount
  swap
  · have hrun : (Call.mknod path).run u d = (-EPERM, d) := by
      simp only [Call.run, Call.request, csc452Mknod, if_pos hcount]
      rfl
    rw [hrun]
    exact ⟨fs, h, .refused (if_neg fun hpath => hcount hpath.1) (show -EPERM < 0 by decide) rfl⟩
  rcases hdir : (fs.view d.bytes).dir? (sscanf path.bytes).directory with _ | Dv
  · exact absurd hdir (hlegal hcount)
  obtain ⟨i, D, hi, hname, rfl⟩ := dir?_view hdir
  have hD := List.mem_of_getElem? hi
  have hvisible' : ∀ F ∈ D.files, toInt F.fsize ≠ -1 := by
    intro F hF
    have hmem : F.view d.bytes ∈ (D.view d.bytes).files := List.mem_map_of_mem hF
    exact hvisible (D.view d.bytes) (List.mem_map_of_mem hD) (F.view d.bytes) hmem
  have hruns := csc452Mknod_runs (alone m (fs.view d.bytes)
    (.file (sscanf path.bytes).directory (sscanf path.bytes).key) (.any m _ true)) (fun _ => none)
    u path (start_world h) (start_ended true) hi hname hvisible' rfl (by simp [alone]) (fun _ _ => trivial)
  obtain ⟨g, k, hends, hleft⟩ := hruns.alone h
  have hrun : (Call.mknod path).run u d = machine.run (csc452Mknod u path) d := rfl
  rw [hrun]
  generalize machine.run (csc452Mknod u path) d = r at *
  obtain ⟨ret, d'⟩ := r
  rcases hends with ⟨hret, hpath, hno, hends⟩ | ⟨hret, hwhy, hends⟩
  · obtain ⟨hlayout, hview⟩ := hleft.ended hends
    refine ⟨g.fs, hlayout, .done _ ?_ (hview ▸ hlayout.room) hret.ge hview⟩
    refine if_pos ⟨hpath.1, hpath.2.1, hpath.2.2, hlegal hcount, ?_⟩
    exact (file?_view_eq_none h hD hname).mpr hno
  · obtain ⟨hlayout, hview⟩ := hleft.ended hends
    refine ⟨g.fs, hlayout, ?_⟩
    rcases hcall : (Call.mknod path).respond (fs.view d.bytes) with _ | es
    · exact .refused hcall hret hview
    obtain ⟨hpath, hes⟩ := Option.ite_none_right_eq_some.mp hcall
    obtain rfl := Option.some.inj hes
    refine .full _ hcall (fun hroom => ?_) hret (fun hwrite => hwrite.elim) (.inl hview)
    have hview : g.fs.view d'.bytes = fs.view d.bytes := hview
    rcases hwhy with hwhy | ⟨D', hD', hname', F, hF, hkey⟩ | ⟨D', hD', hname', hfull⟩ | hfull
    · rcases hwhy with hcount' | hlen | hlen
      · exact hcount' hcount
      · exact absurd hlen (not_lt.mpr hpath.2.1)
      · exact absurd hlen (not_lt.mpr hpath.2.2.1)
    · have hnone : (g.fs.view d'.bytes).file? (sscanf path.bytes).directory
          (sscanf path.bytes).key = none := by
        rw [hview]
        exact hpath.2.2.2.2
      exact (file?_view_eq_none hlayout hD' hname').mp hnone F hF hkey
    · -- the directory would have one file too many
      have hmem : D'.view d'.bytes ∈ fs.view d.bytes := by
        rw [← hview]
        exact List.mem_map_of_mem hD'
      have hadded := hroom.files _ (List.mem_map_of_mem hmem)
      have hname'' : (D'.view d'.bytes).dname = (Call.mknod path).comp.directory := hname'
      rw [if_pos hname''] at hadded
      simp only [List.length_append, Dir.view, List.length_map, List.length_singleton] at hadded
      exact absurd hfull (not_le.mpr hadded)
    · have hblocks : (fs.view d.bytes).blocks + 1 + 2 ≤ m := by
        have hadded := View.blocks_addFile (F := newFile (sscanf path.bytes)) h.proper hdir
        have hlen : (newFile (sscanf path.bytes)).data.length / dataSize = 1 := by
          rw [newFile, List.length_replicate]
          rfl
        rw [hlen] at hadded
        rw [← hadded]
        exact hroom.blocks
      have hused := hlayout.used_eq
      rw [hview] at hused
      simp only [alone] at hfull
      omega

section write

variable {buf : List UInt8} {offset : ℕ} {x : Place} {F : File}

/-- A write to a file that is there, with a target that is to be spared. -/
theorem write_spares (u : Uninit) (buf : List UInt8) (T' : Target)
    (frame : Frame m (fs.view d.bytes) true) (h : Layout m d fs [])
    (hcount : (sscanf path.bytes).count = 3) (hx : x.Holds F fs)
    (hname : x.dname = (sscanf path.bytes).directory) (hkey : F.key = (sscanf path.bytes).key)
    (hoffset : offset ≤ toSize (toInt F.fsize) → offset ≤ dataSize * F.blocks.length)
    (hframe : ∀ w w', Writing m true x F.key (x.block + fsizeOffset x.file) w w' →
      frame.rel w w') (hT' : T' ≠ .file x.dname F.key) :
    ∃ g k, WriteEnds { alone m (fs.view d.bytes) (.file x.dname F.key) frame with other := T' } x F
        (dataOf d.bytes F.blocks) offset buf ((Call.write path buf offset).run u d).1 k
        (g, ((Call.write path buf offset).run u d).2) ∧
      Left m (fs.view d.bytes) frame (start fs d) g ((Call.write path buf offset).run u d).2 ∧
      Spares T' d fs ((Call.write path buf offset).run u d).2 g.fs := by
  have hruns := csc452Write_runs
    { alone m (fs.view d.bytes) (.file x.dname F.key) frame with other := T' } (fun _ => none) path u
    buf (start_world h) (start_ended true) hcount hx hname hkey hoffset rfl hT' hframe
  exact hruns.spares h

/-- A write to a file that is there. -/
theorem write_alone (u : Uninit) (buf : List UInt8) (frame : Frame m (fs.view d.bytes) true)
    (h : Layout m d fs [])
    (hcount : (sscanf path.bytes).count = 3) (hx : x.Holds F fs)
    (hname : x.dname = (sscanf path.bytes).directory) (hkey : F.key = (sscanf path.bytes).key)
    (hoffset : offset ≤ toSize (toInt F.fsize) → offset ≤ dataSize * F.blocks.length)
    (hframe : ∀ w w', Writing m true x F.key (x.block + fsizeOffset x.file) w w' →
      frame.rel w w') :
    ∃ g k, WriteEnds (alone m (fs.view d.bytes) (.file x.dname F.key) frame) x F
        (dataOf d.bytes F.blocks) offset buf ((Call.write path buf offset).run u d).1 k
        (g, ((Call.write path buf offset).run u d).2) ∧
      Left m (fs.view d.bytes) frame (start fs d) g ((Call.write path buf offset).run u d).2 := by
  have hidle : Target.idle ≠ .file x.dname F.key := by simp
  obtain ⟨g, k, hends, hleft, -⟩ :=
    write_spares u buf .idle frame h hcount hx hname hkey hoffset hframe hidle
  exact ⟨g, k, hends, hleft⟩

/-- The loop did not give up. -/
theorem LoopEnds.done_outcome {v : View} {frame : Frame m v true} {T : Target} {g : Ghost}
    {d' : Disk} {k : Seen} {data : List UInt8} {p : ℕ}
    (hends : LoopEnds (alone m v T frame) x F data p buf true k (g, d'))
    (hleft : Left m v frame (start fs d) g d') (hp : p ≤ data.length) :
    Layout m d' g.fs [] ∧ p + buf.length < 2 ^ 31 ∧
      g.fs.view d'.bytes =
        (Effect.setFile x.dname (F.withData (splice data p buf))).apply v := by
  obtain ⟨es, hes, heffects⟩ := hends.effects
  obtain ⟨hlayout, hview⟩ := hleft.ended ⟨hends.pending, heffects⟩
  obtain ⟨F', hx, -, -, hlen⟩ := hends.file
  rw [if_pos rfl] at hlen
  have hsplice := le_length_splice buf hp
  refine ⟨hlayout, ?_, ?_⟩
  · rw [← hlen] at hsplice
    exact hsplice.trans_lt (hx.data_lt hlayout)
  · rw [hview, Effect.applyAll_append]
    exact hes.apply rfl

/-- The loop gave up: there is no room for a file with all of the bytes. -/
theorem LoopEnds.full_outcome {v : View} {frame : Frame m v true} {T : Target} {g : Ghost}
    {d' : Disk} {k : Seen} {data : List UInt8} {p : ℕ} {W : FileView}
    (hends : LoopEnds (alone m v T frame) x F data p buf false k (g, d'))
    (hleft : Left m v frame (start fs d) g d') (hkey : W.key = F.key)
    (hdvd : dataSize ∣ W.data.length) (hlen : p + buf.length ≤ W.data.length) :
    Layout m d' g.fs [] ∧ Writes x.dname F (g.effects true) ∧
      g.fs.view d'.bytes = Effect.applyAll (g.effects true) v ∧
      ¬ Room m ((Effect.setFile x.dname W).apply v) := by
  have hwrites : Writes x.dname F (g.effects true) := hends.effects
  obtain ⟨hlayout, hview⟩ := hleft.ended ⟨hends.pending, rfl⟩
  refine ⟨hlayout, hwrites, hview, fun hroom => ?_⟩
  obtain ⟨F', hx, hkey', -, hshort⟩ := hends.file
  rw [if_neg Bool.false_ne_true] at hshort
  have hfile := hx.file?_view hlayout
  rw [← F'.view_key d'.bytes] at hfile
  -- the file with all of the bytes has at least one block more
  have hcount := View.blocks_setFile hlayout.proper hfile (hkey.trans (hkey'.symm.trans
    (F'.view_key d'.bytes).symm))
  have hsame := hwrites.apply (v := v) hkey
  rw [← hview] at hsame
  have hblocks := hroom.blocks
  rw [← hsame] at hblocks
  have hfull : m ≤ g.fs.used + 2 := hends.full rfl
  rw [hlayout.used_eq] at hfull
  have hold : (F'.view d'.bytes).data.length / dataSize = F'.blocks.length := by
    rw [File.view, length_dataOf, Nat.mul_div_cancel_left _ (by decide)]
  rw [hold] at hcount
  obtain ⟨q, hq⟩ := hdvd
  have hnew : W.data.length / dataSize = q := by
    rw [hq, Nat.mul_div_cancel_left _ (by decide)]
  have hlt : dataSize * F'.blocks.length < dataSize * q := by omega
  have hlt' := lt_of_mul_lt_mul_left hlt (Nat.zero_le _)
  omega

/-- A refused write. -/
theorem write_refused {T : Target} (h : Layout m d fs [])
    (hcall : (Call.write path buf offset).respond (fs.view d.bytes) = none)
    (hruns : (alone m (fs.view d.bytes) T (.any m _ true)).Runs
      (fun ret _ w => ret < 0 ∧ Ended true [] w) (csc452Write u path buf offset) (fun _ => none)
      (start fs d)) :
    ∃ fs', Layout m ((Call.write path buf offset).run u d).2 fs' [] ∧
      Outcome m (.write path buf offset) (fs.view d.bytes) ((Call.write path buf offset).run u d).1
        (fs'.view ((Call.write path buf offset).run u d).2.bytes) := by
  obtain ⟨g, k, ⟨hret, hends⟩, hleft⟩ := hruns.alone h
  obtain ⟨hlayout, hview⟩ := hleft.ended hends
  exact ⟨g.fs, hlayout, .refused hcall hret hview⟩

theorem write_spec (h : Layout m d fs [])
    (hlegal : (Call.write path buf offset).Legal (fs.view d.bytes)) :
    ∃ fs', Layout m ((Call.write path buf offset).run u d).2 fs' [] ∧
      Outcome m (.write path buf offset) (fs.view d.bytes) ((Call.write path buf offset).run u d).1
        (fs'.view ((Call.write path buf offset).run u d).2.bytes) := by
  rcases eq_or_ne (sscanf path.bytes).count 3 with hcount | hcount
  swap
  · refine write_refused (T := .idle) h (if_neg hcount) ?_
    exact csc452Write_runs_path (start_world h) (start_ended true) hcount
  rcases hdir : (fs.view d.bytes).dir? (sscanf path.bytes).directory with _ | Dv
  · have hfile : (fs.view d.bytes).file? (sscanf path.bytes).directory (sscanf path.bytes).key =
        none := by rw [View.file?, hdir, Option.bind_none]
    refine write_refused (T := .dir (sscanf path.bytes).directory) h ?_ ?_
    · simp only [Call.respond, Call.comp, hfile, ite_self]
    · exact csc452Write_runs_none (start_world h) (start_ended true) hcount rfl
        (dir?_view_eq_none.mp hdir)
  obtain ⟨i, D, hi, hname, rfl⟩ := dir?_view hdir
  have hD := List.mem_of_getElem? hi
  rcases hfile : (fs.view d.bytes).file? (sscanf path.bytes).directory (sscanf path.bytes).key with
    _ | Fv
  · refine write_refused (T := .file (sscanf path.bytes).directory (sscanf path.bytes).key) h ?_ ?_
    · simp only [Call.respond, Call.comp, hfile, ite_self]
    · exact csc452Write_runs_fresh (start_world h) (start_ended true) hcount hi hname rfl
        ((file?_view_eq_none h hD hname).mp hfile)
  have hoffset := hlegal Fv hfile
  obtain ⟨x, F, hx, hxname, hkey, rfl⟩ := file?_view hfile
  rw [File.view, length_dataOf] at hoffset
  obtain ⟨g, k, hends, hleft⟩ := write_alone u buf (.any m _ true) h hcount
    hx hxname hkey hoffset (fun _ _ _ => trivial)
  have hrespond : (Call.write path buf offset).respond (fs.view d.bytes) =
      if toInt F.fsize = -1 then none
      else if buf = [] then some []
      else if toSize (toInt F.fsize) < offset then none
      else some [.setFile (sscanf path.bytes).directory ((F.view d.bytes).written offset buf)] := by
    simp only [Call.respond, Call.comp, hfile, if_pos hcount]
    rfl
  generalize (Call.write path buf offset).run u d = r at *
  obtain ⟨ret, d'⟩ := r
  rcases hends with ⟨hret, rfl, hvisible, hends⟩ | ⟨hret, hends, hwhy⟩ |
    ⟨done, hret, hbuf, hvisible, hinside, hends⟩
  · obtain ⟨hlayout, hview⟩ := hleft.ended hends
    rw [if_neg hvisible, if_pos rfl] at hrespond
    exact ⟨g.fs, hlayout, .done [] hrespond h.room hret.ge hview⟩
  · obtain ⟨hlayout, hview⟩ := hleft.ended hends
    refine ⟨g.fs, hlayout, .refused ?_ hret hview⟩
    rcases hwhy with hinvisible | ⟨hbuf, hbehind⟩
    · rw [hrespond, if_pos hinvisible]
    · rw [hrespond, if_neg hbuf, if_pos hbehind, ite_self]
  · rw [if_neg hvisible, if_neg hbuf, if_neg (not_lt.mpr hinside)] at hrespond
    have hdata : offset ≤ (dataOf d.bytes F.blocks).length :=
      (hoffset hinside).trans (length_dataOf _ _).ge
    have hwritten : (F.view d.bytes).written offset buf =
        File.withData { F with fsize := newSize F.fsize offset buf.length }
          (splice (dataOf d.bytes F.blocks) offset buf) := by
      simp only [FileView.written, File.withData, File.view]
    rw [← hxname, hwritten] at hrespond
    cases done with
    | true =>
      obtain ⟨hlayout, hsmall, hview⟩ := hends.done_outcome hleft hdata
      have hroom := hlayout.room
      rw [hview] at hroom
      refine ⟨g.fs, hlayout, .done _ hrespond hroom ?_ hview⟩
      rw [hret, if_pos rfl, toInt_natCast (by omega)]
      exact Int.natCast_nonneg _
    | false =>
      have hdvd : dataSize ∣ (splice (dataOf d.bytes F.blocks) offset buf).length :=
        dvd_length_splice _ _ (by rw [length_dataOf]; exact Dvd.intro _ rfl)
      obtain ⟨hlayout, hwrites, hview, hroom⟩ := hends.full_outcome hleft
        (W := File.withData { F with fsize := newSize F.fsize offset buf.length }
          (splice (dataOf d.bytes F.blocks) offset buf)) rfl hdvd (le_length_splice _ hdata)
      rw [if_neg Bool.false_ne_true] at hret
      refine ⟨g.fs, hlayout, .full _ hrespond hroom ?_ (fun _ => hret) ?_⟩
      · rw [hret]
        decide
      · rw [hview]
        refine hwrites.applyAll.imp_right ?_
        rintro ⟨data, hdata⟩
        exact ⟨F.view d.bytes, data, hfile, hxname ▸ hdata⟩

end write

/-- **The code refines the machine.** A call that runs alone leaves a layout, with
the view the machine says. -/
theorem Call.run_spec {call : Call} (h : Layout m d fs []) (hlegal : call.Legal (fs.view d.bytes))
    (hvisible : (fs.view d.bytes).Visible) :
    ∃ fs', Layout m (call.run u d).2 fs' [] ∧
      Outcome m call (fs.view d.bytes) (call.run u d).1 (fs'.view (call.run u d).2.bytes) := by
  cases call with
  | mkdir path => exact mkdir_spec h
  | mknod path => exact mknod_spec h hlegal hvisible
  | write path buf offset => exact write_spec h hlegal

end Csc452.Fuse
