import Csc452.FileSystem
import Csc452.LinkedList
import Mathlib.Data.List.Nodup

/-!
# What is on the disk

The abstract file system: directories and files with their names, their sizes
and the blocks they occupy (`Fs`), and the relation between it and the bytes of
the disk (`Layout`). The relation is put together from one fact for each kind of
block: the root block lists the directories, a directory block lists its files,
a data block carries its link behind its data, and the last block of the disk
carries the mark up to which blocks have been handed out. Every block handed out
has exactly one owner, and a block not handed out yet is zero; a request that has
been handed a block owns it as `pending` until it has linked it in.

What a user can see of it is a `View`: names, sizes and contents, and no
addresses.
-/

namespace Csc452.Fuse

open Bytes (Memory AgreeOn HoldsString readLE shift)
open ByteFile (Disk)
open LinkedList (Chain)

/-! ## The abstract file system -/

/-- A file: its name, its extension, its recorded size and its blocks. -/
structure File : Type where
  /-- `fname` -/
  fname : List UInt8
  /-- `fext` -/
  fext : List UInt8
  /-- `fsize` -/
  fsize : ℕ
  /-- the chain that starts at `nStartBlock` -/
  blocks : List ℕ

/-- `nStartBlock` -/
def File.start (F : File) : ℕ := F.blocks.headD 0

/-- What a file is looked up by. -/
def File.key (F : File) : List UInt8 × List UInt8 := (F.fname, F.fext)

/-- A directory: its name, its block and its files. -/
structure Dir : Type where
  /-- `dname` -/
  dname : List UInt8
  /-- `nStartBlock` -/
  block : ℕ
  /-- `files` -/
  files : List File

/-- All directories, and the number of blocks handed out. -/
structure Fs : Type where
  /-- `directories` -/
  dirs : List Dir
  /-- the number of blocks handed out -/
  used : ℕ

/-- The blocks of a directory and of its files. -/
def Dir.owned (D : Dir) : List ℕ := D.block :: D.files.flatMap File.blocks

/-- The blocks with an owner. -/
def Fs.owned (fs : Fs) : List ℕ := fs.dirs.flatMap Dir.owned

/-- The blocks handed out: the ones behind the root block, in order. -/
def blocksUpTo (used : ℕ) : List ℕ := (List.range used).map fun i => blockSize * (i + 1)

/-! ## The blocks -/

/-- A name that fits a field of `n` characters and a terminator. -/
structure Fits (n : ℕ) (s : List UInt8) : Prop where
  /-- no terminator inside -/
  noNul : 0 ∉ s
  /-- the length -/
  length_le : s.length ≤ n

/-- The entry of a directory in the root block. -/
structure DirSlot (s : Memory) (i : ℕ) (D : Dir) : Prop where
  /-- the name fits -/
  fits : Fits maxFilename D.dname
  /-- the name -/
  dname : HoldsString s (dnameOffset i) D.dname
  /-- the block -/
  start : readLE s (dirStartOffset i) 8 = D.block

/-- The root block lists the directories. -/
structure RootBlock (s : Memory) (dirs : List Dir) : Prop where
  /-- `nDirectories` -/
  count : readLE s 0 4 = dirs.length
  /-- the table is not exceeded -/
  length_le : dirs.length ≤ maxDirsInRoot
  /-- the entries -/
  slot : ∀ i D, dirs[i]? = some D → DirSlot s i D

/-- The entry of a file in a directory block. -/
structure FileSlot (s : Memory) (j : ℕ) (F : File) : Prop where
  /-- the name fits -/
  fnameFits : Fits maxFilename F.fname
  /-- the extension fits -/
  fextFits : Fits maxExtension F.fext
  /-- the name -/
  fname : HoldsString s (fnameOffset j) F.fname
  /-- the extension -/
  fext : HoldsString s (fextOffset j) F.fext
  /-- the size -/
  fsize : readLE s (fsizeOffset j) 8 = F.fsize
  /-- the first block -/
  start : readLE s (fileStartOffset j) 8 = F.start

/-- A directory block lists the files. -/
structure DirBlock (s : Memory) (files : List File) : Prop where
  /-- `nFiles` -/
  count : readLE s 0 4 = files.length
  /-- the table is not exceeded -/
  length_le : files.length ≤ maxFilesInDir
  /-- the entries -/
  slot : ∀ j F, files[j]? = some F → FileSlot s j F

/-- The link of a data block. -/
def nextOf (m : Memory) (a : ℕ) : Option ℕ := some (readLE m (a + nextOffset) 8)

/-- The blocks of a file are the chain from its first one. -/
structure FileChain (m : Memory) (F : File) : Prop where
  /-- there is a first one -/
  ne_nil : F.blocks ≠ []
  /-- the chain -/
  chain : Chain (nextOf m) 0 F.start F.blocks

/-- A block of zeros. -/
def ZeroBlock (m : Memory) (a : ℕ) : Prop := ∀ i, a ≤ i → i < a + blockSize → m i = 0

/-- The address of the last block of a disk of `m` blocks, which carries the
mark. -/
def markAddress (m : ℕ) : ℕ := blockSize * (m - 1)

/-- A disk of `m` blocks is laid out as the abstract file system says; `pending`
are the blocks handed out that are not linked in yet. -/
structure Layout (m : ℕ) (d : Disk) (fs : Fs) (pending : List ℕ) : Prop where
  /-- the size of the disk -/
  size : d.size = blockSize * m
  /-- addresses are small numbers -/
  size_lt : blockSize * m < 2 ^ 31
  /-- the last block is not handed out -/
  used_le : fs.used + 2 ≤ m
  /-- the root block -/
  root : RootBlock d.bytes fs.dirs
  /-- the directory blocks -/
  dir : ∀ D ∈ fs.dirs, DirBlock (shift d.bytes D.block) D.files
  /-- the chains -/
  chain : ∀ D ∈ fs.dirs, ∀ F ∈ D.files, FileChain d.bytes F
  /-- no two directories have the same name -/
  dirs_nodup : (fs.dirs.map Dir.dname).Nodup
  /-- no two files of a directory have the same name and extension -/
  files_nodup : ∀ D ∈ fs.dirs, (D.files.map File.key).Nodup
  /-- the mark -/
  mark : readLE d.bytes (markAddress m) 8 = blockSize * fs.used
  /-- every block handed out has one owner -/
  partition : (fs.owned ++ pending).Perm (blocksUpTo fs.used)
  /-- pending blocks are zero -/
  pending_zero : ∀ b ∈ pending, ZeroBlock d.bytes b
  /-- so is everything not handed out -/
  free : ∀ i, blockSize * (fs.used + 1) ≤ i → i < markAddress m → d.bytes i = 0

/-! ## Reading the blocks -/

section reading

variable {s s' m m' : Memory} {dirs : List Dir} {files : List File} {D : Dir} {F : File}
variable {i j a : ℕ}

theorem intAt_eq {n : ℕ} (h : readLE s a 4 = n) (hn : n < 2 ^ 31) : intAt s a = n := by
  rw [intAt, h, toInt, Int.bmod]
  omega

theorem longAt_eq {n : ℕ} (h : readLE s a 8 = n) (hn : n < 2 ^ 63) : longAt s a = n := by
  rw [longAt, h, toLong, Int.bmod]
  omega

theorem RootBlock.intAt_count (h : RootBlock s dirs) : intAt s 0 = dirs.length :=
  intAt_eq h.count (h.length_le.trans_lt (by decide))

theorem DirBlock.intAt_count (h : DirBlock s files) : intAt s 0 = files.length :=
  intAt_eq h.count (h.length_le.trans_lt (by decide))

theorem findDir_eq_some {n : List UInt8} (h : RootBlock s dirs) (hn : 0 ∉ n)
    (hfind : findDir s n = some i) : ∃ D, dirs[i]? = some D ∧ D.dname = n := by
  rw [findDir, h.intAt_count, Int.toNat_natCast] at hfind
  have hi : i < dirs.length := List.mem_range.mp (List.mem_of_find?_eq_some hfind)
  have hcmp := List.find?_some hfind
  have hslot := h.slot i dirs[i] (List.getElem?_eq_getElem hi)
  refine ⟨dirs[i], List.getElem?_eq_getElem hi, ?_⟩
  exact ((Bytes.strcmpEq_eq hslot.dname hn hslot.fits.noNul).mp hcmp).symm

theorem findDir_eq_none {n : List UInt8} (h : RootBlock s dirs) (hn : 0 ∉ n)
    (hfind : findDir s n = none) : ∀ D ∈ dirs, D.dname ≠ n := by
  rintro D hD rfl
  obtain ⟨i, hi, rfl⟩ := List.mem_iff_getElem.mp hD
  have hslot := h.slot i dirs[i] (List.getElem?_eq_getElem hi)
  rw [findDir, h.intAt_count, Int.toNat_natCast] at hfind
  have hcmp := List.find?_eq_none.mp hfind i (List.mem_range.mpr hi)
  exact hcmp ((Bytes.strcmpEq_eq hslot.dname hn hslot.fits.noNul).mpr rfl)

/-- The comparison of an entry with a name and an extension. -/
theorem FileSlot.strcmpEq {fn fe : List UInt8} (h : FileSlot s j F) (hfn : 0 ∉ fn) (hfe : 0 ∉ fe) :
    (Bytes.strcmpEq s (fnameOffset j) fn && Bytes.strcmpEq s (fextOffset j) fe) = true ↔
      F.key = (fn, fe) := by
  rw [Bool.and_eq_true, Bytes.strcmpEq_eq h.fname hfn h.fnameFits.noNul,
    Bytes.strcmpEq_eq h.fext hfe h.fextFits.noNul, File.key, Prod.mk.injEq]
  exact ⟨fun h => ⟨h.1.symm, h.2.symm⟩, fun h => ⟨h.1.symm, h.2.symm⟩⟩

theorem findFile_eq_some {fn fe : List UInt8} (h : DirBlock s files) (hfn : 0 ∉ fn) (hfe : 0 ∉ fe)
    (hfind : findFile s fn fe = some j) : ∃ F, files[j]? = some F ∧ F.key = (fn, fe) := by
  rw [findFile, h.intAt_count, Int.toNat_natCast] at hfind
  have hj : j < files.length := List.mem_range.mp (List.mem_of_find?_eq_some hfind)
  have hslot := h.slot j files[j] (List.getElem?_eq_getElem hj)
  have hcmp := List.find?_some hfind
  exact ⟨files[j], List.getElem?_eq_getElem hj, (hslot.strcmpEq hfn hfe).mp hcmp⟩

theorem findFile_eq_none {fn fe : List UInt8} (h : DirBlock s files) (hfn : 0 ∉ fn) (hfe : 0 ∉ fe)
    (hfind : findFile s fn fe = none) : ∀ F ∈ files, F.key ≠ (fn, fe) := by
  intro F hF hkey
  obtain ⟨j, hj, rfl⟩ := List.mem_iff_getElem.mp hF
  have hslot := h.slot j files[j] (List.getElem?_eq_getElem hj)
  rw [findFile, h.intAt_count, Int.toNat_natCast] at hfind
  exact List.find?_eq_none.mp hfind j (List.mem_range.mpr hj) ((hslot.strcmpEq hfn hfe).mpr hkey)

/-- The loop finds the one file there is. -/
theorem findFile_eq {fn fe : List UInt8} (h : DirBlock s files) (hfn : 0 ∉ fn) (hfe : 0 ∉ fe)
    (hnodup : (files.map File.key).Nodup) (hj : files[j]? = some F) (hkey : F.key = (fn, fe)) :
    findFile s fn fe = some j := by
  rcases hfind : findFile s fn fe with _ | j'
  · exact absurd hkey (findFile_eq_none h hfn hfe hfind F (List.mem_of_getElem? hj))
  · obtain ⟨F', hj', hkey'⟩ := findFile_eq_some h hfn hfe hfind
    have hsame : (files.map File.key)[j]? = (files.map File.key)[j']? := by
      rw [List.getElem?_map, List.getElem?_map, hj, hj', Option.map_some, Option.map_some, hkey,
        hkey']
    have hlt : j < (files.map File.key).length := by
      rw [List.length_map]
      exact (List.getElem?_eq_some_iff.mp hj).1
    rw [List.getElem?_inj hlt hnodup] at hsame
    rw [hsame]

/-! ## Blocks that stay as they are -/

theorem DirSlot.congr (h : DirSlot s i D) (heq : AgreeOn s s' (dnameOffset i) 17) :
    DirSlot s' i D where
  fits := h.fits
  dname := h.dname.congr (heq.mono (le_refl _) (by
    have := h.fits.length_le
    simp only [maxFilename] at this
    omega))
  start := by
    rw [← Bytes.readLE_congr (heq.mono (by simp only [dirStartOffset]; omega)
      (by simp only [dirStartOffset]; omega)), h.start]

theorem RootBlock.congr (h : RootBlock s dirs) (heq : AgreeOn s s' 0 blockSize) :
    RootBlock s' dirs where
  count := by
    rw [← Bytes.readLE_congr (heq.mono (le_refl _) (by decide)), h.count]
  length_le := h.length_le
  slot i D hi := by
    have hlt := (List.getElem?_eq_some_iff.mp hi).1
    have hle := h.length_le
    refine (h.slot i D hi).congr (heq.mono (Nat.zero_le _) ?_)
    simp only [dnameOffset, maxDirsInRoot, blockSize, maxFilename] at *
    omega

theorem FileSlot.congr (h : FileSlot s j F) (heq : AgreeOn s s' (fnameOffset j) 29) :
    FileSlot s' j F where
  fnameFits := h.fnameFits
  fextFits := h.fextFits
  fname := h.fname.congr (heq.mono (le_refl _) (by
    have := h.fnameFits.length_le
    simp only [maxFilename] at this
    omega))
  fext := h.fext.congr (heq.mono (by simp only [fextOffset]; omega) (by
    have := h.fextFits.length_le
    simp only [maxExtension, fextOffset] at *
    omega))
  fsize := by
    rw [← Bytes.readLE_congr (heq.mono (by simp only [fsizeOffset]; omega)
      (by simp only [fsizeOffset]; omega)), h.fsize]
  start := by
    rw [← Bytes.readLE_congr (heq.mono (by simp only [fileStartOffset]; omega)
      (by simp only [fileStartOffset]; omega)), h.start]

theorem fnameOffset_le (hj : j < files.length) (hle : files.length ≤ maxFilesInDir) :
    fnameOffset j + 29 ≤ blockSize := by
  simp only [fnameOffset, maxFilesInDir, blockSize, maxFilename, maxExtension] at *
  omega

theorem DirBlock.congr (h : DirBlock s files) (heq : AgreeOn s s' 0 blockSize) :
    DirBlock s' files where
  count := by
    rw [← Bytes.readLE_congr (heq.mono (le_refl _) (by decide)), h.count]
  length_le := h.length_le
  slot j F hj := by
    have hlt := (List.getElem?_eq_some_iff.mp hj).1
    exact (h.slot j F hj).congr (heq.mono (Nat.zero_le _)
      ((fnameOffset_le hlt h.length_le).trans (Nat.zero_add _).ge))

theorem nextOf_congr (h : AgreeOn m m' a blockSize) : nextOf m' a = nextOf m a := by
  rw [nextOf, nextOf, Bytes.readLE_congr (h.mono (Nat.le_add_right _ _)
    (by simp only [nextOffset, blockSize]; omega))]

theorem FileChain.congr (h : FileChain m F) (heq : ∀ b ∈ F.blocks, AgreeOn m m' b blockSize) :
    FileChain m' F :=
  ⟨h.ne_nil, h.chain.congr fun b hb => nextOf_congr (heq b hb)⟩

end reading

end Csc452.Fuse
