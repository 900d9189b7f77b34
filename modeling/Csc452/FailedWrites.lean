import Csc452.DiskRuns

/-!
# Writes that fail

A write that is refused changes nothing. One that gives up because the disk is
full has already set the size of its file. So a failed write leaves files as they
were exactly when it is refused, and whether it is can be told beforehand: the
offset lies behind the recorded size, or there is room for all of the bytes in the
blocks of the file and those not handed out yet (`HasRoom`).

The theorem is about whole runs (`keepsFiles_iff`): as long as every write has
room, sizes are not too large, and the first one that has none changes the size of
its file. Here every `fwrite` is an access to the disk. With a buffered `FILE` the size
is on the disk from the next `fseek` on, in `failed_write_grows` when the first block is
full; a write that gives up before that leaves it in the buffer of a `FILE` that is never
closed.
-/

namespace Csc452.Fuse

open ByteFile (Disk)
open Runs (Always Guarded)

/-! ## The statement -/

/-- Every file has the same recorded size and the same bytes up to it. -/
def KeepsRecorded (v v' : View) : Prop :=
  ∀ n key F, v.file? n key = some F → ∃ F', v'.file? n key = some F' ∧ F'.fsize = F.fsize ∧
    F'.data.take F.fsize = F.data.take F.fsize

/-- If the call is a write of something to a file that is there, and fails, files
are as they were. -/
def FailKeeps (m : ℕ) (d : Disk) (e : Uninit × Call) : Prop :=
  ∀ path buf offset, e.2 = .write path buf offset → buf ≠ [] → (sscanf path.bytes).count = 3 →
    (diskView m d).file? (sscanf path.bytes).directory (sscanf path.bytes).key ≠ none →
      (e.2.run e.1 d).1 < 0 → KeepsRecorded (diskView m d) (diskView m (e.2.run e.1 d).2)

/-- A write of something to a file that is there starts behind the recorded size,
or has room in the blocks of the file and those not handed out yet. -/
def HasRoom (m : ℕ) (d : Disk) (e : Uninit × Call) : Prop :=
  ∀ path buf offset, e.2 = .write path buf offset → buf ≠ [] → (sscanf path.bytes).count = 3 →
    ∀ F, (diskView m d).file? (sscanf path.bytes).directory (sscanf path.bytes).key = some F →
      F.fsize < offset ∨
        offset + buf.length ≤ F.data.length + dataSize * (m - 2 - (snapshot m d).used)

/-- The calls there can be: paths fit, files are made in directories that are there,
and the length of a buffer is a `size_t`. -/
structure Callable (m : ℕ) (d : Disk) (e : Uninit × Call) : Prop where
  /-- the path -/
  fits : e.2.Fits
  /-- the directory -/
  parented : e.2.Parented (diskView m d)
  /-- the buffer -/
  size : e.2.size < 2 ^ 64

instance (m : ℕ) (d : Disk) (e : Uninit × Call) : Decidable (Callable m d e) :=
  decidable_of_iff (e.2.Fits ∧ e.2.Parented (diskView m d) ∧ e.2.size < 2 ^ 64)
    ⟨fun h => ⟨h.1, h.2.1, h.2.2⟩, fun h => ⟨h.1, h.2, h.3⟩⟩

section failed

variable {m : ℕ} {d : Disk} {fs : Fs} {v : View} {u : Uninit} {path : CString} {buf : List UInt8}
variable {offset : ℕ} {F : FileView}

/-! ## Room -/

theorem Room.setFile {n : List UInt8} {W : FileView} (h : Room m v)
    (hblocks : ((Effect.setFile n W).apply v).blocks + 2 ≤ m) :
    Room m ((Effect.setFile n W).apply v) where
  dirs := by
    rw [Effect.apply, View.modifyDir, List.length_map]
    exact h.dirs
  files D' hD' := by
    obtain ⟨D, hD, rfl⟩ := List.mem_map.mp hD'
    split
    · rw [View.replace, List.length_map]
      exact h.files D hD
    · exact h.files D hD
  blocks := hblocks

/-- There is room for a write exactly when its bytes fit the blocks of the file and
those that are left. -/
theorem room_written_iff (h : Layout m d fs []) {n : List UInt8} {key : List UInt8 × List UInt8}
    (hF : (fs.view d.bytes).file? n key = some F) (hoffset : offset ≤ F.data.length) :
    Room m ((Effect.setFile n (F.written offset buf)).apply (fs.view d.bytes)) ↔
      offset + buf.length ≤ F.data.length + dataSize * (m - 2 - fs.used) := by
  obtain ⟨D, hD, hmem, rfl⟩ := View.file?_eq_some hF
  have hdvd := h.proper.data D (View.dir?_eq_some hD).1 F hmem
  have hcount := View.blocks_setFile (W := F.written offset buf) h.proper hF FileView.written_key
  have hdata : (F.written offset buf).data = splice F.data offset buf := by rw [FileView.written]
  rw [hdata, ← h.used_eq] at hcount
  have hused := h.used_le
  have hle := le_length_splice buf hoffset
  have hlt := length_splice_lt buf hoffset
  obtain ⟨p, hp⟩ := hdvd
  obtain ⟨q, hq⟩ := dvd_length_splice offset buf (hp ▸ Dvd.intro p rfl)
  have hpos : 0 < dataSize := by decide
  rw [hp, hq, Nat.mul_div_cancel_left _ hpos, Nat.mul_div_cancel_left _ hpos] at hcount
  rw [hp, hq] at hlt
  rw [hq] at hle
  rw [hp]
  simp only [dataSize] at *
  constructor
  · intro hroom
    have hblocks := hroom.blocks
    omega
  · intro hfits
    refine h.room.setFile ?_
    omega

/-! ## One call -/

theorem KeepsRecorded.refl (v : View) : KeepsRecorded v v := fun _ _ F hF => ⟨F, hF, rfl, rfl⟩

/-- A write inside the size of its file sets the size, also when it gives up. -/
theorem fsize_of_write (h : Sound m d fs) (hbuf : buf ≠ []) (hcount : (sscanf path.bytes).count = 3)
    (hF : (fs.view d.bytes).file? (sscanf path.bytes).directory (sscanf path.bytes).key = some F)
    (hoffset : offset ≤ F.fsize) :
    ∃ F', (diskView m ((Call.write path buf offset).run u d).2).file? (sscanf path.bytes).directory
      (sscanf path.bytes).key = some F' ∧ F'.fsize = newSize F.fsize offset buf.length := by
  obtain ⟨D, hD, -, hmem⟩ := View.mem_of_file? hF
  have hvisible := h.visible D hD F hmem
  have hdata := hoffset.trans (h.sized D hD F hmem)
  rw [← h.toSize_fsize hD hmem] at hoffset
  obtain ⟨x, F₀, hx, hname, hkey, rfl⟩ := file?_view hF
  rw [File.view, length_dataOf] at hdata
  obtain ⟨g, k, hends, hleft⟩ := write_alone u buf (.any m _ true) h.layout
    hcount hx hname hkey (fun _ => hdata) (fun _ _ _ => trivial)
  have hlayout := hleft.layout hends.pending
  obtain ⟨F', hx', hkey', hfsize⟩ := hends.fsize hvisible hbuf hoffset
  have hfile := hx'.file?_view hlayout
  rw [hkey', hkey, hname] at hfile
  rw [hlayout.diskView_eq]
  exact ⟨_, hfile, hfsize⟩

/-- A call that has room leaves a sound disk, and files as they were if it fails. -/
theorem Sound.failKeeps {e : Uninit × Call} (h : Sound m d fs)
    (hparented : e.2.Parented (fs.view d.bytes)) (hroom : HasRoom m d e) :
    FailKeeps m d e ∧ ∃ fs', Sound m (e.2.run e.1 d).2 fs' := by
  obtain ⟨u, call⟩ := e
  have hview := h.layout.diskView_eq
  obtain ⟨fs', hlayout, houtcome⟩ := Call.run_spec (u := u) h.layout (h.legal hparented) h.visible
  have hkeeps : fs'.view (call.run u d).2.bytes = fs.view d.bytes →
      FailKeeps m d (u, call) ∧ ∃ fs', Sound m (call.run u d).2 fs' := by
    refine fun hsame => ⟨fun path buf offset _ _ _ _ _ => ?_, fs', hlayout, ?_⟩
    · rw [hview, hlayout.diskView_eq, hsame]
      exact .refl _
    · rw [hsame]
      exact h.sized
  rcases houtcome with ⟨-, -, hsame⟩ | ⟨es, hcall, -, hret, happly⟩ |
    ⟨es, hcall, hfull, -, -, hsame | hpart⟩
  · exact hkeeps hsame
  · refine ⟨fun path buf offset _ _ _ _ hneg => absurd hneg (not_lt.mpr hret), fs', hlayout, ?_⟩
    rw [happly]
    refine h.sized_respond hcall fun D hD F hF => ?_
    rw [← happly] at hD
    exact hlayout.data_lt hD hF
  · exact hkeeps hsame
  · cases call with
    | mkdir path => exact hpart.elim
    | mknod path => exact hpart.elim
    | write path buf offset =>
      obtain ⟨hcount, F, hF, ⟨-, rfl⟩ | ⟨hbuf, hoffset, rfl⟩⟩ := Call.respond_write hcall
      · exact absurd h.layout.room hfull
      obtain ⟨D, hD, -, hmem⟩ := View.mem_of_file? hF
      rw [h.toSize_fsize hD hmem] at hoffset
      have hdata := hoffset.trans (h.sized D hD F hmem)
      rcases hroom path buf offset rfl hbuf hcount F (hview ▸ hF) with hbehind | hfits
      · exact absurd hoffset (not_le.mpr hbehind)
      · rw [h.layout.snapshot_eq] at hfits
        exact absurd ((room_written_iff h.layout hF hdata).mpr hfits) hfull

/-- A write that has no room fails, and changes the size of its file. -/
theorem Sound.hasRoom {e : Uninit × Call} (h : Sound m d fs)
    (hparented : e.2.Parented (fs.view d.bytes)) (hsize : e.2.size < 2 ^ 64)
    (hkeeps : FailKeeps m d e) : HasRoom m d e := by
  obtain ⟨u, call⟩ := e
  have hview := h.layout.diskView_eq
  rintro path buf offset rfl hbuf hcount F hF
  rw [h.layout.snapshot_eq]
  refine or_iff_not_imp_left.mpr fun hoffset => ?_
  rw [not_lt] at hoffset
  have hF' := hview ▸ hF
  obtain ⟨D, hD, -, hmem⟩ := View.mem_of_file? hF'
  have hdata := hoffset.trans (h.sized D hD F hmem)
  by_contra hfits
  have hfull := mt (room_written_iff h.layout hF' hdata).mp hfits
  have hrespond := Call.respond_write_eq hcount hF' (h.visible D hD F hmem) hbuf
    ((h.toSize_fsize hD hmem).symm ▸ hoffset)
  have hret : ((Call.write path buf offset).run u d).1 < 0 := by
    obtain ⟨fs', -, houtcome⟩ := Call.run_spec (u := u) h.layout (h.legal hparented) h.visible
    rcases houtcome with ⟨hcall, -, -⟩ | ⟨es, hcall, hroom, -, -⟩ | ⟨-, -, -, hret, -, -⟩
    · rw [hrespond] at hcall
      cases hcall
    · obtain rfl := Option.some.inj (hrespond.symm.trans hcall)
      exact absurd hroom hfull
    · exact hret
  -- the size has been set behind the contents
  obtain ⟨F₁, hF₁, hsize₁⟩ := fsize_of_write (u := u) h hbuf hcount hF' hoffset
  obtain ⟨F₂, hF₂, hsize₂, -⟩ := hkeeps path buf offset rfl hbuf hcount (by rw [hF]; simp) hret _ _ F hF
  obtain rfl : F₁ = F₂ := Option.some.inj (hF₁.symm.trans hF₂)
  have hle : F.fsize ≤ F.data.length := h.sized D hD F hmem
  have hlen : buf.length < 2 ^ 64 := hsize
  refine newSize_ne (h.fsize_lt hD hmem) hoffset hlen ?_ (hsize₁.symm.trans hsize₂)
  omega

end failed

/-! ## Runs -/

/-- **Failed writes.** In a run from a disk of zeros in which files are made in
directories that are there (`Callable`), every write that fails leaves files as they were
if and only if every write has room or starts behind the recorded size (`HasRoom`). What is
written is on the disk at once, the new size of the file first: so a write that does not
get its blocks has set the size. -/
theorem keepsFiles_iff {m : ℕ} (hm : 2 ≤ m) (hlt : blockSize * m < 2 ^ 31)
    {calls : List (Uninit × Call)}
    (hcallable : Guarded callStep (Callable m) (zeroDisk m) calls) :
    Guarded callStep (FailKeeps m) (zeroDisk m) calls ↔
      Guarded callStep (HasRoom m) (zeroDisk m) calls := by
  constructor
  · intro h
    refine (h.and' hcallable).guarded (I := fun d => ∃ fs, Sound m d fs) ⟨_, .zero hm hlt⟩ ?_
    rintro d e d' ⟨fs, hfs⟩ ⟨hkeeps, hcall⟩ hstep
    obtain rfl := Option.some.inj hstep
    have hparented := hfs.layout.diskView_eq ▸ hcall.parented
    have hroom := hfs.hasRoom hparented hcall.size hkeeps
    exact ⟨hroom, (hfs.failKeeps hparented hroom).2⟩
  · intro h
    refine (h.and' hcallable).guarded (I := fun d => ∃ fs, Sound m d fs) ⟨_, .zero hm hlt⟩ ?_
    rintro d e d' ⟨fs, hfs⟩ ⟨hroom, hcall⟩ hstep
    obtain rfl := Option.some.inj hstep
    exact hfs.failKeeps (hfs.layout.diskView_eq ▸ hcall.parented) hroom

/-- A file, and a write to it of a block and a byte. -/
theorem keepsFiles_iff_write :
    let u : Uninit := ⟨fun _ => 0, fun _ => 0⟩
    let d : CString := ⟨[47, 100], by decide⟩
    let f : CString := ⟨[47, 100, 47, 97, 46, 98], by decide⟩
    let calls := [(u, Call.mkdir d), (u, .mknod f), (u, .write f (List.replicate 505 65) 0)]
    Guarded callStep (FailKeeps 5) (zeroDisk 5) calls ↔
      Guarded callStep (HasRoom 5) (zeroDisk 5) calls :=
  keepsFiles_iff (by decide) (by decide) (by decide +kernel)

/-- On a disk of five blocks, a write of 1009 bytes to a new file fills the block of
the file and the last one that is left, and fails. The recorded size is 1009
afterwards. -/
theorem failed_write_grows :
    let u : Uninit := ⟨fun _ => 0, fun _ => 0⟩
    let d : CString := ⟨[47, 100], by decide⟩
    let f : CString := ⟨[47, 100, 47, 97, 46, 98], by decide⟩
    ¬ Guarded callStep (FailKeeps 5) (zeroDisk 5)
      [(u, .mkdir d), (u, .mknod f), (u, .write f (List.replicate 1009 65) 0)] := by
  intro u d f h
  have hkeeps := (((h _ rfl).2 _ rfl).2 _ rfl).1
  generalize hd₂ : ((Call.mknod f).run u ((Call.mkdir d).run u (zeroDisk 5)).2).2 = d₂ at hkeeps
  have hfacts : ((diskView 5 d₂).file? [100] ([97], [98])).map FileView.fsize = some 0 ∧
      ((Call.write f (List.replicate 1009 65) 0).run u d₂).1 < 0 ∧
      ((diskView 5 ((Call.write f (List.replicate 1009 65) 0).run u d₂).2).file? [100]
        ([97], [98])).map FileView.fsize = some 1009 := by
    rw [← hd₂]
    decide +kernel
  obtain ⟨hbefore, hret, hafter⟩ := hfacts
  obtain ⟨F, hF, hsize⟩ := Option.map_eq_some_iff.mp hbefore
  obtain ⟨F', hF', hsize'⟩ := Option.map_eq_some_iff.mp hafter
  have hbuf : List.replicate 1009 (65 : UInt8) ≠ [] := by
    refine List.ne_nil_of_length_pos ?_
    rw [List.length_replicate]
    exact Nat.succ_pos _
  obtain ⟨F'', hF'', hsame, -⟩ := hkeeps f (List.replicate 1009 65) 0 rfl hbuf (by decide)
    (by rw [show (sscanf f.bytes).directory = [100] by decide,
      show (sscanf f.bytes).key = ([97], [98]) by decide, hF]; simp) hret [100] ([97], [98]) F hF
  obtain rfl : F' = F'' := Option.some.inj (hF'.symm.trans hF'')
  omega

end Csc452.Fuse
