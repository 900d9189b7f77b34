import Csc452.Alone

/-!
# What a disk says

The abstract file system read off the bytes of a disk (`snapshot`): the table of
the root block, the tables of the directory blocks, the chains of the files and
the mark. It is a plain computation and says something about any bytes; on a disk
that is laid out as some file system says, it is that file system
(`Layout.snapshot_eq`), so there is only one.

What a user can see of a disk is then a function of it as well (`Disk.view`).
-/

namespace Csc452.Fuse

open Bytes (Memory HoldsString readLE shift stringAt)
open ByteFile (Disk)
open LinkedList (visit)

/-- The file of an entry of a directory block, on a disk of `m` blocks. -/
def snapshotFile (m : ℕ) (mem : Memory) (a j : ℕ) : File where
  fname := stringAt mem (a + fnameOffset j) (maxFilename + 1)
  fext := stringAt mem (a + fextOffset j) (maxExtension + 1)
  fsize := readLE mem (a + fsizeOffset j) 8
  blocks := visit (nextOf mem) 0 m (readLE mem (a + fileStartOffset j) 8)

/-- The directory of an entry of the root block. -/
def snapshotDir (m : ℕ) (mem : Memory) (i : ℕ) : Dir :=
  let a := readLE mem (dirStartOffset i) 8
  { dname := stringAt mem (dnameOffset i) (maxFilename + 1)
    block := a
    files := (List.range (readLE mem a 4)).map (snapshotFile m mem a) }

/-- The file system on a disk of `m` blocks. -/
def snapshot (m : ℕ) (d : Disk) : Fs where
  dirs := (List.range (readLE d.bytes 0 4)).map (snapshotDir m d.bytes)
  used := readLE d.bytes (markAddress m) 8 / blockSize

/-- What a user sees of a disk of `m` blocks. -/
def diskView (m : ℕ) (d : Disk) : View := (snapshot m d).view d.bytes

section snapshot

variable {m : ℕ} {d : Disk} {fs : Fs} {pending : List ℕ} {D : Dir} {F : File} {i j : ℕ}

theorem range_map_eq {α : Type} {l : List α} {f : ℕ → α} (h : ∀ i a, l[i]? = some a → f i = a) :
    (List.range l.length).map f = l := by
  refine List.ext_getElem (by simp) fun i hi hi' => ?_
  rw [List.getElem_map, List.getElem_range]
  exact h i l[i] (List.getElem?_eq_getElem hi')

theorem Layout.snapshotFile_eq (h : Layout m d fs pending) (hD : D ∈ fs.dirs)
    (hj : D.files[j]? = some F) : snapshotFile m d.bytes D.block j = F := by
  have hslot := (h.dir D hD).slot j F hj
  have hF := List.mem_of_getElem? hj
  obtain ⟨i, hi⟩ := List.getElem?_of_mem hD
  have hx : Place.Holds ⟨i, D.dname, D.block, j⟩ F fs := ⟨D, hi, rfl, rfl, hj⟩
  have hlen : F.blocks.length ≤ m := by
    have hle := hx.length_le h
    have hused := h.used_le
    omega
  have hfname : stringAt d.bytes (D.block + fnameOffset j) (maxFilename + 1) = F.fname :=
    hslot.fname.shift.stringAt_eq hslot.fnameFits.noNul (Nat.lt_succ_of_le hslot.fnameFits.length_le)
  have hfext : stringAt d.bytes (D.block + fextOffset j) (maxExtension + 1) = F.fext :=
    hslot.fext.shift.stringAt_eq hslot.fextFits.noNul (Nat.lt_succ_of_le hslot.fextFits.length_le)
  have hfsize : readLE d.bytes (D.block + fsizeOffset j) 8 = F.fsize :=
    Bytes.readLE_shift.symm.trans hslot.fsize
  have hstart : readLE d.bytes (D.block + fileStartOffset j) 8 = F.start :=
    Bytes.readLE_shift.symm.trans hslot.start
  rw [snapshotFile, hfname, hfext, hfsize, hstart, (h.chain D hD F hF).chain.visit_eq hlen]

theorem Layout.snapshotDir_eq (h : Layout m d fs pending) (hi : fs.dirs[i]? = some D) :
    snapshotDir m d.bytes i = D := by
  have hslot := h.root.slot i D hi
  have hD := List.mem_of_getElem? hi
  have hcount : readLE d.bytes D.block 4 = D.files.length :=
    Bytes.readLE_shift.symm.trans (h.dir D hD).count
  have hdname : stringAt d.bytes (dnameOffset i) (maxFilename + 1) = D.dname :=
    hslot.dname.stringAt_eq hslot.fits.noNul (Nat.lt_succ_of_le hslot.fits.length_le)
  simp only [snapshotDir, hslot.start, hdname, hcount]
  rw [range_map_eq fun j F hj => h.snapshotFile_eq hD hj]

/-- **Reading back.** There is one file system a disk is laid out as. -/
theorem Layout.snapshot_eq (h : Layout m d fs pending) : snapshot m d = fs := by
  rw [snapshot, h.root.count, h.mark, Nat.mul_div_cancel_left _ (by decide),
    range_map_eq fun i D hi => h.snapshotDir_eq hi]

theorem Layout.diskView_eq (h : Layout m d fs pending) : diskView m d = fs.view d.bytes := by
  rw [diskView, h.snapshot_eq]

end snapshot

end Csc452.Fuse
