import Csc452.Runs
import Csc452.Snapshot

/-!
# Runs of the file system

Calls made one after the other, each of them alone, from a disk of zeros. The
local variables of a call hold anything when it starts, so what they hold is part
of the action (`callStep`).

As long as files are made in directories that are there and no write runs out of
space (`Orderly`), the disk stays laid out and no recorded size is larger than
the contents (`Sound.step`). So whatever the code leaves unchecked is never
needed.
-/

namespace Csc452.Fuse

open ByteFile (Disk)
open Runs (Always Guarded)

/-! ## The runs -/

/-- A new disk of `m` blocks. -/
def zeroDisk (m : ℕ) : Disk where
  size := blockSize * m
  bytes _ := 0

/-- A call, with what its local variables hold, leads to the disk it leaves. -/
def callStep (d : Disk) (e : Uninit × Call) : Option Disk := some (e.2.run e.1 d).2

/-- The components of the path fit their buffers. -/
def Call.Fits (call : Call) : Prop :=
  call.comp.directory.length ≤ maxFilename ∧ call.comp.filename.length ≤ maxFilename ∧
    call.comp.extension.length ≤ maxExtension

/-- A file is made in a directory that is there. -/
def Call.Parented (call : Call) (v : View) : Prop :=
  match call with
  | .mknod _ => call.comp.count = 3 → v.dir? call.comp.directory ≠ none
  | _ => True

/-- The length of the buffer. -/
def Call.size : Call → ℕ
  | .write _ buf _ => buf.length
  | _ => 0

/-- A write passes the check of its offset and gives up. -/
def Call.OutOfSpace (call : Call) (v : View) (ret : ℤ) : Prop :=
  match call with
  | .write _ _ offset =>
    match v.file? call.comp.directory call.comp.key with
    | none => False
    | some F => offset ≤ toSize (toInt F.fsize) ∧ ret = -EFBIG
  | _ => False

/-- The calls there can be while the disk is not full: paths fit, files are made
in directories that are there, and no write runs out of space. -/
structure Orderly (m : ℕ) (d : Disk) (e : Uninit × Call) : Prop where
  /-- the path -/
  fits : e.2.Fits
  /-- the directory -/
  parented : e.2.Parented (diskView m d)
  /-- the disk -/
  space : ¬ e.2.OutOfSpace (diskView m d) (e.2.run e.1 d).1

/-- The calls there can be while no write fails: files are made in directories that are
there, and no write returns an error. -/
structure Flawless (m : ℕ) (d : Disk) (e : Uninit × Call) : Prop where
  /-- the directory -/
  parented : e.2.Parented (diskView m d)
  /-- the value returned -/
  written : e.2.IsWrite → 0 ≤ (e.2.run e.1 d).1

instance (call : Call) : Decidable call.Fits := inferInstanceAs (Decidable (_ ∧ _))

instance (call : Call) : Decidable call.IsWrite :=
  match call with
  | .mkdir _ => inferInstanceAs (Decidable False)
  | .mknod _ => inferInstanceAs (Decidable False)
  | .write _ _ _ => inferInstanceAs (Decidable True)

instance (call : Call) (v : View) : Decidable (call.Parented v) :=
  match call with
  | .mkdir _ => inferInstanceAs (Decidable True)
  | .mknod _ => inferInstanceAs (Decidable (_ → _))
  | .write _ _ _ => inferInstanceAs (Decidable True)

instance (call : Call) (v : View) (ret : ℤ) : Decidable (call.OutOfSpace v ret) :=
  match call with
  | .mkdir _ => inferInstanceAs (Decidable False)
  | .mknod _ => inferInstanceAs (Decidable False)
  | .write path buf offset =>
    match h : v.file? (Call.write path buf offset).comp.directory
        (Call.write path buf offset).comp.key with
    | none => isFalse fun hout => by simp only [Call.OutOfSpace, h] at hout
    | some F =>
      decidable_of_iff (offset ≤ toSize (toInt F.fsize) ∧ ret = -EFBIG)
        (by simp only [Call.OutOfSpace, h])

instance (m : ℕ) (d : Disk) (e : Uninit × Call) : Decidable (Orderly m d e) :=
  decidable_of_iff (e.2.Fits ∧ e.2.Parented (diskView m d) ∧
      ¬ e.2.OutOfSpace (diskView m d) (e.2.run e.1 d).1)
    ⟨fun h => ⟨h.1, h.2.1, h.2.2⟩, fun h => ⟨h.1, h.2, h.3⟩⟩

instance (m : ℕ) (d : Disk) (e : Uninit × Call) : Decidable (Flawless m d e) :=
  decidable_of_iff (e.2.Parented (diskView m d) ∧ (e.2.IsWrite → 0 ≤ (e.2.run e.1 d).1))
    ⟨fun h => ⟨h.1, h.2⟩, fun h => ⟨h.1, h.2⟩⟩

/-! ## Sizes that are not too large -/

/-- No recorded size is larger than the contents. -/
def View.Sized (v : View) : Prop := v.All fun F => F.fsize ≤ F.data.length

/-- A disk that is laid out, without a recorded size that is too large. -/
structure Sound (m : ℕ) (d : Disk) (fs : Fs) : Prop where
  /-- the layout -/
  layout : Layout m d fs []
  /-- the sizes -/
  sized : (fs.view d.bytes).Sized

section sound

variable {m : ℕ} {d : Disk} {fs : Fs} {v : View} {n : List UInt8} {F : FileView} {D : DirView}
variable {key : List UInt8 × List UInt8} {call : Call} {u : Uninit}

theorem Layout.zero (hm : 2 ≤ m) (hlt : blockSize * m < 2 ^ 31) :
    Layout m (zeroDisk m) ⟨[], 0⟩ [] := by
  have hzero : ∀ a k, Bytes.readLE (zeroDisk m).bytes a k = 0 :=
    fun a k => Bytes.readLE_zero fun _ _ _ => rfl
  refine
    { size := rfl, size_lt := hlt, used_le := hm, root := ⟨?_, Nat.zero_le _, ?_⟩, dir := ?_,
      chain := ?_, dirs_nodup := List.nodup_nil, files_nodup := ?_, mark := ?_,
      partition := .refl _, pending_zero := ?_, free := fun _ _ _ => rfl }
  · exact hzero _ _
  · exact fun i D hi => by simp at hi
  · exact fun D hD => absurd hD List.not_mem_nil
  · exact fun D hD => absurd hD List.not_mem_nil
  · exact fun D hD => absurd hD List.not_mem_nil
  · exact hzero _ _
  · exact fun b hb => absurd hb List.not_mem_nil

theorem Sound.zero (hm : 2 ≤ m) (hlt : blockSize * m < 2 ^ 31) : Sound m (zeroDisk m) ⟨[], 0⟩ :=
  ⟨.zero hm hlt, fun _ hD => absurd hD List.not_mem_nil⟩

/-- The contents of a file fit the disk. -/
theorem Layout.data_lt {pending : List ℕ} (h : Layout m d fs pending) (hD : D ∈ fs.view d.bytes)
    (hF : F ∈ D.files) : F.data.length < 2 ^ 31 := by
  obtain ⟨D₀, hD₀, rfl⟩ := List.mem_map.mp hD
  obtain ⟨F₀, hF₀, rfl⟩ := List.mem_map.mp hF
  obtain ⟨i, hi⟩ := List.getElem?_of_mem hD₀
  obtain ⟨j, hj⟩ := List.getElem?_of_mem hF₀
  have hx : Place.Holds ⟨i, D₀.dname, D₀.block, j⟩ F₀ fs := ⟨D₀, hi, rfl, rfl, hj⟩
  rw [File.view, length_dataOf]
  exact hx.data_lt h

theorem View.mem_of_file? (h : v.file? n key = some F) : ∃ D ∈ v, D.dname = n ∧ F ∈ D.files := by
  obtain ⟨D, hD, hF, -⟩ := View.file?_eq_some h
  exact ⟨D, (View.dir?_eq_some hD).1, (View.dir?_eq_some hD).2, hF⟩

namespace Sound

theorem fsize_lt (h : Sound m d fs) (hD : D ∈ fs.view d.bytes) (hF : F ∈ D.files) :
    F.fsize < 2 ^ 31 :=
  (h.sized D hD F hF).trans_lt (h.layout.data_lt hD hF)

/-- A recorded size that is read as an `int`, and as a `size_t` again. -/
theorem toSize_fsize (h : Sound m d fs) (hD : D ∈ fs.view d.bytes) (hF : F ∈ D.files) :
    toSize (toInt F.fsize) = F.fsize :=
  toSize_toInt_natCast (h.fsize_lt hD hF)

theorem visible (h : Sound m d fs) : (fs.view d.bytes).Visible := by
  intro D hD F hF
  rw [toInt_natCast (h.fsize_lt hD hF)]
  exact natCast_ne_neg_one _

/-- What the code does not check, but for the directory of a new file. -/
theorem legal (h : Sound m d fs) (hparented : call.Parented (fs.view d.bytes)) :
    call.Legal (fs.view d.bytes) := by
  cases call with
  | mkdir path => trivial
  | mknod path => exact hparented
  | write path buf offset =>
    intro F hF hoffset
    obtain ⟨D, hD, -, hmem⟩ := View.mem_of_file? hF
    rw [h.toSize_fsize hD hmem] at hoffset
    exact hoffset.trans (h.sized D hD F hmem)

end Sound

/-! ## Calls keep sizes small -/

/-- A file after a write that starts inside its contents. -/
theorem FileView.written_sized {offset : ℕ} {buf : List UInt8} (hF : F.fsize < 2 ^ 31)
    (hlen : (splice F.data offset buf).length < 2 ^ 31) (hoffset : offset ≤ F.data.length) :
    (F.written offset buf).fsize = offset + buf.length ∧
      (F.written offset buf).fsize ≤ (F.written offset buf).data.length := by
  have hle := le_length_splice buf hoffset
  have hsize := newSize_eq hF ((hle.trans_lt hlen).trans (by decide))
  rw [FileView.written_fsize, hsize, FileView.written]
  exact ⟨rfl, hle⟩

/-- The effects of an accepted call that has room keep sizes small. -/
theorem Sound.sized_respond {es : List Effect} (h : Sound m d fs)
    (hcall : call.respond (fs.view d.bytes) = some es)
    (hlt : ∀ D ∈ Effect.applyAll es (fs.view d.bytes), ∀ F ∈ D.files, F.data.length < 2 ^ 31) :
    (Effect.applyAll es (fs.view d.bytes)).Sized := by
  cases call with
  | mkdir path =>
    obtain ⟨-, hes⟩ := Option.ite_none_right_eq_some.mp hcall
    obtain rfl := Option.some.inj hes
    rw [Effect.applyAll_singleton]
    exact View.All.apply h.sized fun F hF => by cases hF
  | mknod path =>
    obtain ⟨-, hes⟩ := Option.ite_none_right_eq_some.mp hcall
    obtain rfl := Option.some.inj hes
    rw [Effect.applyAll_singleton]
    refine View.All.apply h.sized fun F hF => ?_
    obtain rfl := Option.mem_some.mp hF
    exact Nat.zero_le _
  | write path buf offset =>
    obtain ⟨-, F, hF, ⟨-, rfl⟩ | ⟨-, hoffset, rfl⟩⟩ := Call.respond_write hcall
    · exact h.sized
    obtain ⟨D, hD, -, hmem⟩ := View.mem_of_file? hF
    obtain ⟨-, -, -, hkey⟩ := View.file?_eq_some hF
    have hnew := Effect.file?_setFile (F := F) (W := F.written offset buf)
      (n := (sscanf path.bytes).directory) (by rw [FileView.written_key, hkey]; exact hF)
    rw [Effect.applyAll_singleton] at hlt ⊢
    obtain ⟨D', hD', -, hmem'⟩ := View.mem_of_file? hnew
    have hlen := hlt D' hD' _ hmem'
    rw [h.toSize_fsize hD hmem] at hoffset
    have hle := (FileView.written_sized (h.fsize_lt hD hmem) hlen
      (hoffset.trans (h.sized D hD F hmem))).2
    refine View.All.apply h.sized fun G hG => ?_
    rw [← Option.mem_some.mp hG]
    exact hle

/-- A write that has changed only a part of what it was to change ran out of
space. -/
theorem Call.Partial.outOfSpace {v' : View} {es : List Effect} {ret : ℤ} (h : call.Partial v v')
    (hcall : call.respond v = some es) (hes : es ≠ []) (hbig : call.IsWrite → ret = -EFBIG) :
    call.OutOfSpace v ret := by
  cases call with
  | mkdir path => exact h.elim
  | mknod path => exact h.elim
  | write path buf offset =>
    obtain ⟨-, F, hF, ⟨-, hnil⟩ | ⟨-, hoffset, -⟩⟩ := Call.respond_write hcall
    · exact absurd hnil hes
    · simp only [OutOfSpace, comp, hF]
      exact ⟨hoffset, hbig trivial⟩

/-- **One call.** A call that does not run out of space leaves a sound disk: it
takes effect, or it changes nothing. -/
theorem Sound.step (h : Sound m d fs) (hparented : call.Parented (fs.view d.bytes))
    (hspace : ¬ call.OutOfSpace (fs.view d.bytes) (call.run u d).1) :
    ∃ fs', Sound m (call.run u d).2 fs' ∧
      ((0 ≤ (call.run u d).1 ∧ ∃ es, call.respond (fs.view d.bytes) = some es ∧
          fs'.view (call.run u d).2.bytes = Effect.applyAll es (fs.view d.bytes)) ∨
        (call.run u d).1 < 0 ∧ fs'.view (call.run u d).2.bytes = fs.view d.bytes) := by
  obtain ⟨fs', hlayout, houtcome⟩ := Call.run_spec (u := u) h.layout (h.legal hparented) h.visible
  generalize call.run u d = r at *
  obtain ⟨ret, d'⟩ := r
  refine ⟨fs', ?_⟩
  rcases houtcome with ⟨-, hret, hview⟩ | ⟨es, hcall, -, hret, hview⟩ |
    ⟨es, hcall, hroom, hret, hbig, hview⟩
  · exact ⟨⟨hlayout, by rw [hview]; exact h.sized⟩, .inr ⟨hret, hview⟩⟩
  · refine ⟨⟨hlayout, ?_⟩, .inl ⟨hret, es, hcall, hview⟩⟩
    rw [hview]
    refine h.sized_respond hcall fun D hD F hF => ?_
    rw [← hview] at hD
    exact hlayout.data_lt hD hF
  · rcases hview with hview | hpart
    · exact ⟨⟨hlayout, by rw [hview]; exact h.sized⟩, .inr ⟨hret, hview⟩⟩
    · have hes : es ≠ [] := by
        rintro rfl
        exact hroom h.layout.room
      exact absurd (hpart.outOfSpace hcall hes hbig) hspace

/-- A write that runs out of space fails. -/
theorem Call.OutOfSpace.fails {ret : ℤ} (h : call.OutOfSpace v ret) : call.IsWrite ∧ ret < 0 := by
  cases call with
  | mkdir path => exact h.elim
  | mknod path => exact h.elim
  | write path buf offset =>
    simp only [OutOfSpace] at h
    split at h
    · exact h.elim
    · exact ⟨trivial, by rw [h.2]; decide⟩

/-! ## Runs on sound disks -/

/-- A run from a disk of zeros in which files are made in directories that are there and
no write runs out of space passes sound disks only. -/
theorem Sound.always {C : Disk → Uninit × Call → Prop} (hm : 2 ≤ m) (hlt : blockSize * m < 2 ^ 31)
    (hC : ∀ d e, C d e → e.2.Parented (diskView m d) ∧
      ¬ e.2.OutOfSpace (diskView m d) (e.2.run e.1 d).1)
    {calls : List (Uninit × Call)} (h : Guarded callStep C (zeroDisk m) calls) :
    Always callStep (fun d => ∃ fs, Sound m d fs) (zeroDisk m) calls := by
  refine h.always ⟨_, Sound.zero hm hlt⟩ ?_
  rintro d e d' ⟨fs, hfs⟩ hcall hstep
  obtain rfl := Option.some.inj hstep
  have hview := hfs.layout.diskView_eq
  obtain ⟨hparented, hspace⟩ := hC d e hcall
  obtain ⟨fs', hfs', -⟩ := hfs.step (hview ▸ hparented) (hview ▸ hspace)
  exact ⟨fs', hfs'⟩

/-- Without a write that fails, disks are sound. -/
theorem sound_of_flawless (hm : 2 ≤ m) (hlt : blockSize * m < 2 ^ 31)
    {calls : List (Uninit × Call)} (h : Guarded callStep (Flawless m) (zeroDisk m) calls) :
    Always callStep (fun d => ∃ fs, Sound m d fs) (zeroDisk m) calls :=
  Sound.always hm hlt (fun _ _ hcall => ⟨hcall.parented, fun hout =>
    absurd (hcall.written hout.fails.1) (not_le.mpr hout.fails.2)⟩) h

end sound

end Csc452.Fuse
