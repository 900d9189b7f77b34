import Csc452.Appending
import Csc452.Listing

/-!
# Making directories and files

When a request to make a directory or a file succeeds, and what it leaves when it
does not.

* `makes_exactly_of_flawless` — after a run in which no write failed: it succeeds when
  the path has the right shape, nothing has the name, the table has an entry left and
  the disk a block, and it adds what it is to add.

* `fails_cleanly_iff` — on every disk, whatever its bytes: a refused request leaves
  every byte as it was, and a file in a directory that is not there is refused,
  unless the allocator is reached in one of the two ways that go wrong.
-/

namespace Csc452.Fuse

open Bytes (Memory)
open ByteFile (Disk machine)
open Runs (Always Guarded)

/-! ## The allocator on any disk -/

/-- The address `next_free_block` computes, for what is in the place of the mark. -/
def nextFreeOf (u : Uninit) (d : Disk) : ℤ :=
  toLong (longAt (Bytes.write u.struct 0 (d.read (seekMark d.size d.size) 8)) 0 + blockSize)

/-- That address is before the last block. -/
def FreeBlock (u : Uninit) (d : Disk) : Prop := nextFreeOf u d < (d.size : ℤ) - blockSize

instance (u : Uninit) (d : Disk) : Decidable (FreeBlock u d) := inferInstanceAs (Decidable (_ < _))

/-- The disk with the mark moved on. -/
def markedDisk (u : Uninit) (d : Disk) : Disk :=
  d.write (seekMark (seekMark d.size d.size + (d.read (seekMark d.size d.size) 8).length) d.size)
    (longBytes (nextFreeOf u d))

section allocator

variable {u : Uninit} {d : Disk}

theorem run_fsizeOf : machine.run fsizeOf d = (d.size, d) := rfl

theorem run_fread {pos n : ℕ} : machine.run (fread pos n) d = (d.read pos n, d) := rfl

theorem run_fwrite {pos : ℕ} {bs : List UInt8} :
    machine.run (fwrite pos bs) d = ((), d.write pos bs) := rfl

theorem run_nextFreeBlock_full (h : ¬ FreeBlock u d) :
    machine.run (nextFreeBlock u) d = (-1, d) := by
  have hle := Int.not_lt.mp h
  unfold nextFreeOf at hle
  rw [nextFreeBlock, run_bind_of run_fsizeOf, run_bind_of run_fsizeOf, run_bind_of run_fread]
  dsimp only
  rw [if_pos hle, run_pure]

theorem run_nextFreeBlock_free (h : FreeBlock u d) :
    machine.run (nextFreeBlock u) d = (nextFreeOf u d, markedDisk u d) := by
  have hlt := Int.not_le.mpr h
  unfold nextFreeOf at hlt
  rw [nextFreeBlock, run_bind_of run_fsizeOf, run_bind_of run_fsizeOf, run_bind_of run_fread]
  dsimp only
  rw [if_neg hlt, run_bind_of run_fsizeOf, run_bind_of run_fwrite, run_pure]
  rfl

/-- A mark 513 bytes before the start of the disk is moved on to what counts as a
failure. -/
theorem markedDisk_ne (h : FreeBlock u d) (hnext : nextFreeOf u d = -1) : markedDisk u d ≠ d := by
  rw [FreeBlock, hnext] at h
  simp only [blockSize] at h
  have hseek : ∀ pos, seekMark pos d.size = d.size - 512 := by
    intro pos
    rw [seekMark, fseek, if_pos (by simp only [blockSize]; omega)]
    simp only [blockSize]
    omega
  have hread : d.read (d.size - 512) 8 = Bytes.read d.bytes (d.size - 512) 8 :=
    ByteFile.Disk.read_eq (by omega)
  have hlen : (longBytes (-1)).length = 8 := rfl
  intro heq
  rw [markedDisk, hnext, hseek, ByteFile.Disk.write_eq (by rw [hlen]; omega), longBytes] at heq
  -- the mark reads -1 then
  have hmark : Bytes.readLE d.bytes (d.size - 512) 8 = toSize (-1) := by
    have hself := Bytes.readLE_write_self (m := d.bytes) (a := d.size - 512) (k := 8) (toSize (-1))
    rw [Nat.mod_eq_of_lt (show toSize (-1) < 256 ^ 8 by decide)] at hself
    have hbytes := congrArg Disk.bytes heq
    dsimp only at hbytes
    rwa [hbytes] at hself
  have hlong : longAt (Bytes.write u.struct 0 (d.read (d.size - 512) 8)) 0 = -1 := by
    rw [hread, longAt, Bytes.readLE_congr Bytes.agreeOn_write_read]
    change toLong (Bytes.readLE (Bytes.shift d.bytes (d.size - 512)) 0 8 : ℕ) = -1
    rw [Bytes.readLE_shift, Nat.add_zero, hmark]
    decide
  rw [nextFreeOf, hseek, hlong] at hnext
  exact absurd hnext (by decide)

end allocator

/-! ## Requests that are refused -/

/-- The checks of `csc452_mkdir` before it asks for a block. -/
structure MkdirChecked (u : Uninit) (d : Disk) (p : PathComp) : Prop where
  /-- one component -/
  count : p.count = 1
  /-- a name that is not too long -/
  fits : p.directory.length ≤ 8
  /-- no directory has it -/
  missing : findDir (rootOf u d) p.directory = none
  /-- an entry of the root is free -/
  room : toSize (intAt (rootOf u d) 0) < maxDirsInRoot

/-- The checks of `csc452_mknod` before it asks for a block. The last two are made on
the block of the directory, or on a local variable when there is no directory. -/
structure MknodChecked (u : Uninit) (d : Disk) (p : PathComp) : Prop where
  /-- three components -/
  count : p.count = 3
  /-- a name and an extension that are not too long -/
  fits : ¬ (p.filename.length > 8 ∨ p.extension.length > 3)
  /-- no file has them, or its size counts as "no file" -/
  missing : findDir (rootOf u d) p.directory ≠ none →
    ∀ i, findFile (directoryBlock u d p.directory) p.filename p.extension = some i →
      toInt (sizeAt (directoryBlock u d p.directory) (fsizeOffset i)) = -1
  /-- an entry of the directory is free -/
  room : toSize (intAt (directoryBlock u d p.directory) 0) < maxFilesInDir

/-- The call gets to the allocator. -/
def Call.Checked (u : Uninit) (d : Disk) (call : Call) : Prop :=
  match call with
  | .mkdir _ => MkdirChecked u d call.comp
  | .mknod _ => MknodChecked u d call.comp
  | .write _ _ _ => False

/-- The call makes a file in a directory that is not there. -/
def Call.Orphan (u : Uninit) (d : Disk) (call : Call) : Prop :=
  match call with
  | .mknod _ => call.comp.count = 3 ∧ findDir (rootOf u d) call.comp.directory = none
  | _ => False

/-- A file in a directory that is not there is refused, and a call that is refused
leaves the disk alone. -/
structure FailsCleanly (u : Uninit) (d : Disk) (call : Call) : Prop where
  /-- the directory has to be there -/
  orphan : call.Orphan u d → (call.run u d).1 < 0
  /-- every byte is as before -/
  unchanged : (call.run u d).1 < 0 → (call.run u d).2 = d

section refused

variable {u : Uninit} {d : Disk} {path : CString}

/-- What comes behind the checks: ask for a block, and go on if there is one. -/
theorem run_allocate {k : ℤ → Request ℤ} (hk : ∀ a d', (machine.run (k a) d').1 = 0) :
    let r := machine.run (nextFreeBlock u >>= fun a => if a = -1 then pure (-EDQUOT) else k a) d
    (¬ FreeBlock u d → r = (-EDQUOT, d)) ∧
      (FreeBlock u d → nextFreeOf u d = -1 → r = (-EDQUOT, markedDisk u d)) ∧
      (FreeBlock u d → nextFreeOf u d ≠ -1 → r.1 = 0) := by
  intro r
  refine ⟨fun h => ?_, fun h hnext => ?_, fun h hnext => ?_⟩
  · exact (run_bind_of (run_nextFreeBlock_full h)).trans (by rw [if_pos rfl, run_pure])
  · exact (run_bind_of (run_nextFreeBlock_free h)).trans (by rw [if_pos hnext, run_pure])
  · have hr : r = _ := run_bind_of (run_nextFreeBlock_free h)
    rw [hr, if_neg hnext, hk]

/-- `csc452_mkdir` is refused by a check, or asks for a block. -/
theorem run_mkdir :
    (¬ (Call.mkdir path).Checked u d → ∃ ret < 0, (Call.mkdir path).run u d = (ret, d)) ∧
    ((Call.mkdir path).Checked u d → ∃ k : ℤ → Request ℤ,
      (∀ a d', (machine.run (k a) d').1 = 0) ∧ (Call.mkdir path).run u d =
        machine.run (nextFreeBlock u >>= fun a => if a = -1 then pure (-EDQUOT) else k a) d) := by
  have hrun : (Call.mkdir path).run u d = machine.run (csc452Mkdir u path) d := rfl
  have hchecked : (Call.mkdir path).Checked u d ↔ MkdirChecked u d (sscanf path.bytes) := Iff.rfl
  rw [hchecked, hrun, csc452Mkdir]
  dsimp only
  generalize sscanf path.bytes = p
  by_cases hcount : p.count ≠ 1
  · rw [if_pos hcount, run_pure]
    exact ⟨fun _ => ⟨-EPERM, by decide, rfl⟩, fun h => absurd h.count hcount⟩
  rw [if_neg hcount]
  by_cases hlen : p.directory.length > 8
  · rw [if_pos hlen, run_pure]
    exact ⟨fun _ => ⟨-ENAMETOOLONG, by decide, rfl⟩, fun h => absurd h.fits (Nat.not_le.mpr hlen)⟩
  rw [if_neg hlen, run_bind_of run_dirExists]
  rcases hdir : findDir (rootOf u d) p.directory with _ | i
  · rw [dirOrderOf, if_neg (not_not.mpr rfl), run_bind_of run_getRoot]
    by_cases hfull : toSize (intAt (rootOf u d) 0) ≥ maxDirsInRoot
    · rw [if_pos hfull, run_pure]
      exact ⟨fun _ => ⟨-ENOSPC, by decide, rfl⟩, fun h => absurd h.room (Nat.not_lt.mpr hfull)⟩
    · rw [if_neg hfull]
      refine ⟨fun h => absurd ⟨not_not.mp hcount, Nat.not_lt.mp hlen, hdir, Nat.not_le.mp hfull⟩ h,
        fun _ => ⟨_, fun a d' => ?_, rfl⟩⟩
      rfl
  · rw [dirOrderOf, if_pos (natCast_ne_neg_one i), run_pure]
    exact ⟨fun _ => ⟨-EEXIST, by decide, rfl⟩, fun h => by rw [h.missing] at hdir; cases hdir⟩

/-- What `file_exist` returns for a name with an extension. -/
theorem run_fileExist (u : Uninit) (d : Disk) (n fn fe : List UInt8) :
    ∃ size, machine.run (fileExist u n fn fe 3) d = (size, d) ∧
      (size = -1 ↔ (findDir (rootOf u d) n ≠ none →
        ∀ i, findFile (directoryBlock u d n) fn fe = some i →
          toInt (sizeAt (directoryBlock u d n) (fsizeOffset i)) = -1)) := by
  rw [fileExist]
  rcases hdir : findDir (rootOf u d) n with _ | k
  · refine ⟨-1, ?_, iff_of_true rfl fun h => absurd rfl h⟩
    rw [run_bind_of (run_getDir_none hdir)]
    dsimp only
    rw [if_pos rfl, run_pure]
  · rw [run_bind_of (run_getDir_some hdir), directoryBlock_eq hdir]
    dsimp only
    rw [if_neg (natCast_ne_neg_one k), if_pos rfl]
    rcases hfile : findFile (entryOf u d k) fn fe with _ | i
    · exact ⟨-1, rfl, iff_of_true rfl fun _ i hi => by cases hi⟩
    · refine ⟨toInt (sizeAt (entryOf u d k) (fsizeOffset i)), rfl, fun h _ j hj => ?_,
        fun h => h (Option.some_ne_none k) i rfl⟩
      obtain rfl := Option.some.inj hj
      exact h

/-- `csc452_mknod` is refused by a check, or asks for a block. -/
theorem run_mknod :
    (¬ (Call.mknod path).Checked u d → ∃ ret < 0, (Call.mknod path).run u d = (ret, d)) ∧
    ((Call.mknod path).Checked u d → ∃ k : ℤ → Request ℤ,
      (∀ a d', (machine.run (k a) d').1 = 0) ∧ (Call.mknod path).run u d =
        machine.run (nextFreeBlock u >>= fun a => if a = -1 then pure (-EDQUOT) else k a) d) := by
  have hrun : (Call.mknod path).run u d = machine.run (csc452Mknod u path) d := rfl
  have hchecked : (Call.mknod path).Checked u d ↔ MknodChecked u d (sscanf path.bytes) := Iff.rfl
  rw [hchecked, hrun, csc452Mknod]
  dsimp only
  generalize sscanf path.bytes = p
  by_cases hcount : p.count ≠ 3
  · rw [if_pos hcount, run_pure]
    exact ⟨fun _ => ⟨-EPERM, by decide, rfl⟩, fun h => absurd h.count hcount⟩
  rw [if_neg hcount]
  by_cases hlen : p.filename.length > 8 ∨ p.extension.length > 3
  · rw [if_pos hlen, run_pure]
    exact ⟨fun _ => ⟨-ENAMETOOLONG, by decide, rfl⟩, fun h => absurd hlen h.fits⟩
  obtain ⟨size, hexist, hmissing⟩ := run_fileExist u d p.directory p.filename p.extension
  rw [if_neg hlen, run_bind_of hexist]
  by_cases hsize : size ≠ -1
  · rw [if_pos hsize, run_pure]
    exact ⟨fun _ => ⟨-EEXIST, by decide, rfl⟩, fun h => absurd (hmissing.mpr h.missing) hsize⟩
  rw [if_neg hsize]
  -- whether there was a directory or not, the block it left is used
  obtain ⟨order, hget⟩ : ∃ order,
      machine.run (getDir u p.directory) d = ((directoryBlock u d p.directory, order), d) := by
    rcases hdir : findDir (rootOf u d) p.directory with _ | k
    · refine ⟨-1, ?_⟩
      rw [run_getDir_none hdir, directoryBlock, hdir, Option.map_none, Option.getD_none]
    · exact ⟨k, by rw [run_getDir_some hdir, directoryBlock_eq hdir]⟩
  rw [run_bind_of hget]
  dsimp only
  rw [run_bind_of run_getRoot]
  by_cases hfull : toSize (intAt (directoryBlock u d p.directory) 0) ≥ maxFilesInDir
  · rw [if_pos hfull, run_pure]
    exact ⟨fun _ => ⟨-ENOSPC, by decide, rfl⟩, fun h => absurd h.room (Nat.not_lt.mpr hfull)⟩
  · rw [if_neg hfull]
    refine ⟨fun h => absurd ⟨not_not.mp hcount, hlen, hmissing.mp (not_not.mp hsize),
      Nat.not_le.mp hfull⟩ h, fun _ => ⟨_, fun a d' => ?_, rfl⟩⟩
    rfl

/-- Either call is refused by a check, or asks for a block. -/
theorem Call.run_checked {call : Call} (hcall : ¬ call.IsWrite) :
    (¬ call.Checked u d → ∃ ret < 0, call.run u d = (ret, d)) ∧
    (call.Checked u d → ∃ k : ℤ → Request ℤ,
      (∀ a d', (machine.run (k a) d').1 = 0) ∧ call.run u d =
        machine.run (nextFreeBlock u >>= fun a => if a = -1 then pure (-EDQUOT) else k a) d) := by
  cases call with
  | mkdir path => exact run_mkdir
  | mknod path => exact run_mknod
  | write path buf offset => exact absurd trivial hcall

/-- Neither call returns a positive value. -/
theorem Call.run_nonpos {call : Call} (hcall : ¬ call.IsWrite) : (call.run u d).1 ≤ 0 := by
  obtain ⟨hrefused, hasks⟩ := call.run_checked (u := u) (d := d) hcall
  by_cases hchecked : call.Checked u d
  · obtain ⟨k, hk, hrun⟩ := hasks hchecked
    obtain ⟨hfull, hlast, hfree⟩ := run_allocate (u := u) (d := d) hk
    rw [← hrun] at hfull hlast hfree
    by_cases hblock : FreeBlock u d
    · by_cases hnext : nextFreeOf u d = -1
      · rw [hlast hblock hnext]
        exact show -EDQUOT ≤ 0 by decide
      · exact (hfree hblock hnext).le
    · rw [hfull hblock]
      exact show -EDQUOT ≤ 0 by decide
  · obtain ⟨ret, hneg, hrun⟩ := hrefused hchecked
    rw [hrun]
    exact hneg.le

theorem FailsCleanly.of_run {call : Call} {ret : ℤ} (h : call.run u d = (ret, d))
    (hneg : ret < 0) : FailsCleanly u d call where
  orphan _ := by rwa [h]
  unchanged _ := by rw [h]

/-- **Failed creation changes nothing**, and fails when the directory is not there, on
every disk, unless the call gets to the allocator and there is a block, for a file in a
directory that is not there, or because the mark reads 513 bytes before the disk. -/
theorem fails_cleanly_iff (u : Uninit) (d : Disk) (call : Call) (hcall : ¬ call.IsWrite) :
    FailsCleanly u d call ↔
      ¬ (call.Checked u d ∧ FreeBlock u d ∧ (call.Orphan u d ∨ nextFreeOf u d = -1)) := by
  have hruns := call.run_checked (u := u) (d := d) hcall
  by_cases hchecked : call.Checked u d
  · obtain ⟨k, hk, hrun⟩ := hruns.2 hchecked
    obtain ⟨hfull, hlast, hfree⟩ := run_allocate (u := u) (d := d) hk
    rw [← hrun] at hfull hlast hfree
    by_cases hblock : FreeBlock u d
    · by_cases hnext : nextFreeOf u d = -1
      · -- the mark is written, and the address taken for a failure
        refine iff_of_false (fun h => ?_) fun h => h ⟨hchecked, hblock, .inr hnext⟩
        have hunchanged := h.unchanged
        rw [hlast hblock hnext] at hunchanged
        exact markedDisk_ne hblock hnext (hunchanged (show -EDQUOT < 0 by decide))
      · have hret := hfree hblock hnext
        constructor
        · rintro h ⟨-, -, horphan | hnext'⟩
          · exact absurd (h.orphan horphan) (by rw [hret]; decide)
          · exact hnext hnext'
        · intro h
          exact ⟨fun horphan => absurd ⟨hchecked, hblock, .inl horphan⟩ h,
            fun hneg => absurd hneg (by rw [hret]; decide)⟩
    · exact iff_of_true (.of_run (hfull hblock) (by decide)) fun h => hblock h.2.1
  · obtain ⟨ret, hneg, hrun⟩ := hruns.1 hchecked
    exact iff_of_true (.of_run hrun hneg) fun h => hchecked h.1

end refused

/-- On a disk of three blocks, a directory takes the last one. A file in it passes all the
checks, but there is no block for it. -/
theorem fails_cleanly_iff_full :
    let u : Uninit := ⟨fun _ => 0, fun _ => 0⟩
    let dir : CString := ⟨[47, 100], by decide⟩
    let file : CString := ⟨[47, 100, 47, 97, 46, 98], by decide⟩
    let d := ((Call.mkdir dir).run u (zeroDisk 3)).2
    ((Call.mknod file).run u d).1 = -EDQUOT ∧ FailsCleanly u d (.mknod file) := by
  intro u dir file d
  refine ⟨by decide +kernel, (fails_cleanly_iff _ _ _ ?_).mpr fun h => ?_⟩
  · simp [Call.IsWrite]
  · exact absurd h.2.1 (by decide +kernel)

/-- A file in a directory that is not there: the call returns 0. -/
theorem orphan_is_accepted :
    let u : Uninit := ⟨fun _ => 0, fun _ => 0⟩
    let path : CString := ⟨[47, 110, 47, 97, 46, 98], by decide⟩
    (Call.mknod path).Fits ∧ (Call.mknod path).Orphan u (zeroDisk 4) ∧
      ((Call.mknod path).run u (zeroDisk 4)).1 = 0 ∧
      ¬ FailsCleanly u (zeroDisk 4) (.mknod path) := by
  intro u path
  have horphan : (Call.mknod path).Orphan u (zeroDisk 4) := ⟨by decide, by decide +kernel⟩
  have hret : ((Call.mknod path).run u (zeroDisk 4)).1 = 0 := by decide +kernel
  refine ⟨by decide, horphan, hret, fun h => ?_⟩
  exact absurd (h.orphan horphan) (by rw [hret]; decide)

/-! ## Requests that are accepted -/

/-- A block is neither the first nor the last one, and belongs to nobody. -/
def View.HasFree (m : ℕ) (v : View) : Prop := v.blocks + 2 < m

/-- Directories and files are made when they should be, and nothing else changes. -/
structure MakesExactly (m : ℕ) (d : Disk) : Prop where
  /-- when a directory is made -/
  mkdir_iff : ∀ u path, (Call.mkdir path).Fits →
    (((Call.mkdir path).run u d).1 = 0 ↔ (sscanf path.bytes).count = 1 ∧
      (diskView m d).dir? (sscanf path.bytes).directory = none ∧
      (diskView m d).length < maxDirsInRoot ∧ (diskView m d).HasFree m)
  /-- it comes after the others, and is empty -/
  mkdir_view : ∀ u path, (Call.mkdir path).Fits → ((Call.mkdir path).run u d).1 = 0 →
    diskView m ((Call.mkdir path).run u d).2 =
      diskView m d ++ [⟨(sscanf path.bytes).directory, []⟩]
  /-- when a file is made in a directory -/
  mknod_iff : ∀ u path D, (Call.mknod path).Fits →
    (diskView m d).dir? (sscanf path.bytes).directory = some D →
      (((Call.mknod path).run u d).1 = 0 ↔ (sscanf path.bytes).count = 3 ∧
        D.file? (sscanf path.bytes).key = none ∧ D.files.length < maxFilesInDir ∧
        (diskView m d).HasFree m)
  /-- it comes after the others, with the size 0 and the data of one block -/
  mknod_view : ∀ u path D, (Call.mknod path).Fits →
    (diskView m d).dir? (sscanf path.bytes).directory = some D →
      ((Call.mknod path).run u d).1 = 0 →
        diskView m ((Call.mknod path).run u d).2 =
          View.modifyDir (sscanf path.bytes).directory (· ++ [newFile (sscanf path.bytes)])
            (diskView m d)
  /-- which is the one block of its chain -/
  mknod_chain : ∀ u path D, (Call.mknod path).Fits →
    (diskView m d).dir? (sscanf path.bytes).directory = some D →
      ((Call.mknod path).run u d).1 = 0 →
        ∃ x F, Place.Holds x F (snapshot m ((Call.mknod path).run u d).2) ∧
          x.dname = (sscanf path.bytes).directory ∧ F.key = (sscanf path.bytes).key ∧
          F.fsize = 0 ∧ F.blocks.length = 1

section accepted

variable {m : ℕ} {d : Disk} {fs : Fs} {v : View} {n : List UInt8} {D : DirView} {u : Uninit}
  {path : CString} {call : Call}

theorem room_addDir_iff (h : Room m v) :
    Room m ((Effect.addDir n).apply v) ↔ v.length < maxDirsInRoot ∧ v.HasFree m := by
  have hblocks := View.blocks_addDir (v := v) (n := n)
  constructor
  · intro hroom
    have hdirs := hroom.dirs
    rw [Effect.apply, List.length_append, List.length_singleton] at hdirs
    have hle := hroom.blocks
    rw [hblocks] at hle
    exact ⟨hdirs, by rw [View.HasFree]; omega⟩
  · rintro ⟨hdirs, hfree⟩
    rw [View.HasFree] at hfree
    refine ⟨?_, fun D hD => ?_, by rw [hblocks]; omega⟩
    · rw [Effect.apply, List.length_append, List.length_singleton]
      exact hdirs
    · rcases List.mem_append.mp hD with hD | hD
      · exact h.files D hD
      · rw [List.mem_singleton.mp hD]
        exact Nat.zero_le _

theorem room_addFile_iff {F : FileView} (h : Room m v) (hproper : v.Proper)
    (hD : v.dir? n = some D) (hF : F.data.length = dataSize) :
    Room m ((Effect.addFile n F).apply v) ↔ D.files.length < maxFilesInDir ∧ v.HasFree m := by
  have hblocks := View.blocks_addFile (F := F) hproper hD
  rw [hF, Nat.div_self (by decide)] at hblocks
  constructor
  · intro hroom
    have hle := hroom.blocks
    rw [hblocks] at hle
    refine ⟨?_, by rw [View.HasFree]; omega⟩
    have hfiles := hroom.files _ (List.mem_map_of_mem (View.dir?_eq_some hD).1)
    rw [if_pos (View.dir?_eq_some hD).2] at hfiles
    have hadded : (D.files ++ [F]).length ≤ maxFilesInDir := hfiles
    rwa [List.length_append, List.length_singleton] at hadded
  · rintro ⟨hfiles, hfree⟩
    rw [View.HasFree] at hfree
    refine ⟨?_, fun D' hD' => ?_, by rw [hblocks]; omega⟩
    · rw [Effect.apply, View.modifyDir, List.length_map]
      exact h.dirs
    · obtain ⟨D₀, hD₀, rfl⟩ := List.mem_map.mp hD'
      split
      · next hname =>
        obtain ⟨hmem, hname'⟩ := View.dir?_eq_some hD
        obtain rfl : D₀ = D :=
          List.inj_on_of_nodup_map hproper.dirs_nodup hD₀ hmem (hname.trans hname'.symm)
        have hadded : (D₀.files ++ [F]).length ≤ maxFilesInDir := by
          rw [List.length_append, List.length_singleton]
          exact hfiles
        exact hadded
      · exact h.files D₀ hD₀

/-- **One call.** A request to make something returns 0 exactly when the machine accepts
it and there is room, and has the machine's effect then. -/
theorem Sound.makes (call : Call) (hs : Sound m d fs) (hcall : ¬ call.IsWrite)
    (hparented : call.Parented (diskView m d)) :
    ((call.run u d).1 = 0 ↔
      ∃ es, call.respond (diskView m d) = some es ∧ Room m (Effect.applyAll es (diskView m d))) ∧
    ((call.run u d).1 = 0 → ∃ es, call.respond (diskView m d) = some es ∧
      diskView m (call.run u d).2 = Effect.applyAll es (diskView m d)) := by
  rw [hs.layout.diskView_eq] at *
  obtain ⟨fs', hlayout, houtcome⟩ :=
    Call.run_spec (u := u) hs.layout (hs.legal hparented) hs.visible
  have hnonpos := call.run_nonpos (u := u) (d := d) hcall
  rw [hlayout.diskView_eq]
  generalize call.run u d = r at *
  obtain ⟨ret, d'⟩ := r
  rcases houtcome with ⟨hnone, hret, -⟩ | ⟨es, hes, hroom, hret, hview⟩ |
    ⟨es, hes, hroom, hret, -, -⟩
  · refine ⟨iff_of_false hret.ne ?_, fun hzero => absurd hzero hret.ne⟩
    rintro ⟨es, hes, -⟩
    rw [hnone] at hes
    cases hes
  · exact ⟨iff_of_true (le_antisymm hnonpos hret) ⟨es, hes, hroom⟩, fun _ => ⟨es, hes, hview⟩⟩
  · refine ⟨iff_of_false hret.ne ?_, fun hzero => absurd hzero hret.ne⟩
    rintro ⟨es', hes', hroom'⟩
    obtain rfl := Option.some.inj (hes.symm.trans hes')
    exact hroom hroom'

/-- Directories. -/
theorem Sound.makes_dir (hs : Sound m d fs) (hfits : (Call.mkdir path).Fits) :
    (((Call.mkdir path).run u d).1 = 0 ↔ (sscanf path.bytes).count = 1 ∧
      (diskView m d).dir? (sscanf path.bytes).directory = none ∧
      (diskView m d).length < maxDirsInRoot ∧ (diskView m d).HasFree m) ∧
    (((Call.mkdir path).run u d).1 = 0 → diskView m ((Call.mkdir path).run u d).2 =
      diskView m d ++ [⟨(sscanf path.bytes).directory, []⟩]) := by
  have hroom := hs.layout.room
  rw [← hs.layout.diskView_eq] at hroom
  obtain ⟨hiff, heffect⟩ :=
    hs.makes (u := u) (.mkdir path) (by simp [Call.IsWrite]) trivial
  refine ⟨hiff.trans ⟨?_, ?_⟩, fun hzero => ?_⟩
  · rintro ⟨es, hes, hroom'⟩
    obtain ⟨⟨hcount, -, hno⟩, hes⟩ := Option.ite_none_right_eq_some.mp hes
    obtain rfl := Option.some.inj hes
    rw [Effect.applyAll_singleton, room_addDir_iff hroom] at hroom'
    exact ⟨hcount, hno, hroom'⟩
  · rintro ⟨hcount, hno, hspace⟩
    refine ⟨[.addDir (sscanf path.bytes).directory], if_pos ⟨hcount, hfits.1, hno⟩, ?_⟩
    rw [Effect.applyAll_singleton]
    exact (room_addDir_iff hroom).mpr hspace
  · obtain ⟨es, hes, hview⟩ := heffect hzero
    obtain ⟨-, hes⟩ := Option.ite_none_right_eq_some.mp hes
    obtain rfl := Option.some.inj hes
    exact hview

/-- In a directory that is there, files are looked for there. -/
theorem View.file?_of_dir? {key : List UInt8 × List UInt8} (hD : v.dir? n = some D) :
    v.file? n key = D.file? key := by
  rw [View.file?, hD, Option.bind_some]

/-- Files. -/
theorem Sound.makes_file (hs : Sound m d fs) (hfits : (Call.mknod path).Fits)
    (hD : (diskView m d).dir? (sscanf path.bytes).directory = some D) :
    (((Call.mknod path).run u d).1 = 0 ↔ (sscanf path.bytes).count = 3 ∧
      D.file? (sscanf path.bytes).key = none ∧ D.files.length < maxFilesInDir ∧
      (diskView m d).HasFree m) ∧
    (((Call.mknod path).run u d).1 = 0 →
      (diskView m d).file? (sscanf path.bytes).directory (sscanf path.bytes).key = none ∧
      diskView m ((Call.mknod path).run u d).2 =
        View.modifyDir (sscanf path.bytes).directory (· ++ [newFile (sscanf path.bytes)])
          (diskView m d)) := by
  have hroom := hs.layout.room
  have hproper := hs.layout.proper
  rw [← hs.layout.diskView_eq] at hroom hproper
  have hdir : (diskView m d).dir? (sscanf path.bytes).directory ≠ none := by
    rw [hD]
    exact Option.some_ne_none D
  have hiff' := room_addFile_iff (F := newFile (sscanf path.bytes)) hroom hproper hD
    List.length_replicate
  obtain ⟨hiff, heffect⟩ :=
    hs.makes (u := u) (.mknod path) (by simp [Call.IsWrite]) fun _ => hdir
  refine ⟨hiff.trans ⟨?_, ?_⟩, fun hzero => ?_⟩
  · rintro ⟨es, hes, hroom'⟩
    obtain ⟨⟨hcount, -, -, -, hno⟩, hes⟩ := Option.ite_none_right_eq_some.mp hes
    obtain rfl := Option.some.inj hes
    have hspace := hiff'.mp hroom'
    exact ⟨hcount, by rwa [← View.file?_of_dir? hD], hspace⟩
  · rintro ⟨hcount, hno, hspace⟩
    refine ⟨[.addFile (sscanf path.bytes).directory (newFile (sscanf path.bytes))],
      if_pos ⟨hcount, hfits.2.1, hfits.2.2, hdir, (View.file?_of_dir? hD).trans hno⟩, ?_⟩
    rw [Effect.applyAll_singleton]
    exact hiff'.mpr hspace
  · obtain ⟨es, hes, hview⟩ := heffect hzero
    obtain ⟨hpath, hes⟩ := Option.ite_none_right_eq_some.mp hes
    obtain rfl := Option.some.inj hes
    exact ⟨hpath.2.2.2.2, hview⟩

/-- A new file has one block. -/
theorem Sound.makes_chain (hs : Sound m d fs) (hfits : (Call.mknod path).Fits)
    (hD : (diskView m d).dir? (sscanf path.bytes).directory = some D)
    (hzero : ((Call.mknod path).run u d).1 = 0) :
    ∃ x F, Place.Holds x F (snapshot m ((Call.mknod path).run u d).2) ∧
      x.dname = (sscanf path.bytes).directory ∧ F.key = (sscanf path.bytes).key ∧
      F.fsize = 0 ∧ F.blocks.length = 1 := by
  have hdir : (diskView m d).dir? (sscanf path.bytes).directory ≠ none := by
    rw [hD]
    exact Option.some_ne_none D
  obtain ⟨hno, hview⟩ := (hs.makes_file hfits hD).2 hzero
  have hparented : (Call.mknod path).Parented (fs.view d.bytes) :=
    fun _ => hs.layout.diskView_eq ▸ hdir
  obtain ⟨fs', hs', -⟩ := hs.step (u := u) hparented not_false
  rw [hs'.layout.diskView_eq] at hview
  rw [hs'.layout.snapshot_eq]
  have hfile := Effect.file?_addFile (F := newFile (sscanf path.bytes)) hdir hno
  rw [Effect.apply, ← hview] at hfile
  obtain ⟨x, F, hx, hname, hkey, heq⟩ := file?_view hfile
  have hlen := congrArg (fun G : FileView => G.data.length) heq
  rw [File.view, newFile] at hlen
  simp only [length_dataOf, List.length_replicate, dataSize] at hlen
  exact ⟨x, F, hx, hname, hkey, (congrArg FileView.fsize heq).symm, by omega⟩

theorem Sound.makesExactly (hs : Sound m d fs) : MakesExactly m d where
  mkdir_iff _ _ hfits := (hs.makes_dir hfits).1
  mkdir_view _ _ hfits := (hs.makes_dir hfits).2
  mknod_iff _ _ _ hfits hD := (hs.makes_file hfits hD).1
  mknod_view _ _ _ hfits hD hzero := ((hs.makes_file hfits hD).2 hzero).2
  mknod_chain _ _ _ hfits hD hzero := hs.makes_chain hfits hD hzero

end accepted

/-- **Creation succeeds exactly when it should**, on every disk that a run without a
write that fails passes: the path has the right shape, nothing has the name, the table
has an entry left and the disk a block. Then the new directory or file is there, and
everything else is as before. -/
theorem makes_exactly_of_flawless {m : ℕ} (hm : 2 ≤ m) (hlt : blockSize * m < 2 ^ 31)
    {calls : List (Uninit × Call)} (h : Guarded callStep (Flawless m) (zeroDisk m) calls) :
    Always callStep (MakesExactly m) (zeroDisk m) calls :=
  (sound_of_flawless hm hlt h).mono fun _ hfs =>
    let ⟨_, hs⟩ := hfs
    hs.makesExactly

/-- A directory, a file in it, and a block and one byte in the file. -/
theorem makes_exactly_of_flawless_one_byte :
    let u : Uninit := ⟨fun _ => 0, fun _ => 0⟩
    let dir : CString := ⟨[47, 100], by decide⟩
    let file : CString := ⟨[47, 100, 47, 97, 46, 98], by decide⟩
    Always callStep (MakesExactly 5) (zeroDisk 5)
      [(u, .mkdir dir), (u, .mknod file), (u, .write file (List.replicate 505 65) 0)] :=
  makes_exactly_of_flawless (by decide) (by decide) (by decide +kernel)

end Csc452.Fuse
