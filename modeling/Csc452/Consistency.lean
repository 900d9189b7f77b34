import Csc452.DiskRuns
import Mathlib.Algebra.Order.Floor.Div

/-!
# Consistency

What holds of the bytes of a disk after any sequence of calls that does not run
out of space (`consistent_of_orderly`): the tables are not exceeded, names are
known once, the files are chains that end and are long enough for the recorded
sizes, every block handed out belongs to exactly one directory or file, and
nothing has been written where nothing has been handed out.
-/

namespace Csc452.Fuse

open ByteFile (Disk)
open LinkedList (Chain)
open Runs (Always Guarded)

/-- The disk is consistent. Directories, files and blocks are those read off the
disk. -/
structure Consistent (m : ℕ) (d : Disk) : Prop where
  /-- the table of directories -/
  nDirectories : 0 ≤ intAt d.bytes 0 ∧ intAt d.bytes 0 ≤ 29
  /-- the tables of files -/
  nFiles : ∀ D ∈ (snapshot m d).dirs, 0 ≤ intAt d.bytes D.block ∧ intAt d.bytes D.block ≤ 17
  /-- the names of directories -/
  dnames : ((snapshot m d).dirs.map Dir.dname).Nodup
  /-- the names and extensions of files -/
  fnames : ∀ D ∈ (snapshot m d).dirs, (D.files.map File.key).Nodup
  /-- the mark is what the last block says -/
  mark : longAt d.bytes (markAddress m) = (blockSize * (snapshot m d).used : ℕ)
  /-- the addresses -/
  addresses : ∀ b ∈ (snapshot m d).owned, blockSize ∣ b ∧ blockSize ≤ b ∧
    b < blockSize * m - blockSize ∧ b ≤ blockSize * (snapshot m d).used
  /-- the chains -/
  chains : ∀ D ∈ (snapshot m d).dirs, ∀ F ∈ D.files,
    Chain (nextOf d.bytes) 0 F.start F.blocks ∧ F.blocks.Nodup ∧
      max 1 (F.fsize ⌈/⌉ maxDataInBlock) ≤ F.blocks.length
  /-- every block up to the mark has one owner -/
  partition : (snapshot m d).owned.Perm (blocksUpTo (snapshot m d).used)
  /-- the blocks above the mark -/
  free : ∀ i, blockSize * ((snapshot m d).used + 1) ≤ i → i < blockSize * m - blockSize →
    d.bytes i = 0

theorem Sound.consistent {m : ℕ} {d : Disk} {fs : Fs} (h : Sound m d fs) : Consistent m d := by
  have hl := h.layout
  have hmark := markAddress_add hl.two_le
  have hused := hl.used_le
  have hlt := hl.size_lt
  have hroot := hl.root.intAt_count
  have hrootLe := hl.root.length_le
  have hkey : ∀ b ∈ fs.owned, b ∈ fs.owned ++ [] := fun b hb => List.mem_append_left _ hb
  have hpartition : fs.owned.Perm (blocksUpTo fs.used) := by simpa using hl.partition
  refine
    { nDirectories := ?_, nFiles := ?_, dnames := ?_, fnames := ?_, mark := ?_, addresses := ?_,
      chains := ?_, partition := ?_, free := ?_ }
  all_goals try rw [hl.snapshot_eq]
  · rw [hroot]
    simp only [maxDirsInRoot, blockSize, maxFilename] at hrootLe
    omega
  · intro D hD
    have hcount : intAt d.bytes D.block = D.files.length :=
      intAt_eq (Bytes.readLE_shift.symm.trans (hl.dir D hD).count)
        ((hl.dir D hD).length_le.trans_lt (by decide))
    have hle := (hl.dir D hD).length_le
    rw [hcount]
    simp only [maxFilesInDir, blockSize, maxFilename, maxExtension] at hle
    omega
  · exact hl.dirs_nodup
  · exact hl.files_nodup
  · exact longAt_eq hl.mark (by simp only [blockSize] at *; omega)
  · intro b hb
    obtain ⟨⟨hdvd, hle⟩, hlow⟩ := hl.blockAddress (hkey b hb)
    obtain ⟨i, hi, rfl⟩ := mem_blocksUpTo.mp (hpartition.mem_iff.mp hb)
    refine ⟨hdvd, hlow, ?_, ?_⟩
    all_goals simp only [blockSize] at *; omega
  · intro D hD F hF
    have hchain := hl.chain D hD F hF
    refine ⟨hchain.chain, hchain.chain.nodup, max_le (List.length_pos_iff.mpr hchain.ne_nil) ?_⟩
    have hsize := h.sized (D.view d.bytes) (List.mem_map_of_mem hD) (F.view d.bytes)
      (List.mem_map_of_mem hF)
    simp only [File.view, length_dataOf] at hsize
    exact (ceilDiv_le_iff_le_mul (by decide)).mpr hsize
  · exact hpartition
  · intro i hi hi'
    exact hl.free i hi (by omega)

/-- **Consistency.** A disk that starts as zeros, with a root block and a block for the mark
at least and below 2 GiB, is consistent in every state that calls reach, as long as paths
fit, files are made in directories that are there, and no write runs out of space
(`Orderly`). Calls that are refused may be among them. -/
theorem consistent_of_orderly {m : ℕ} (hm : 2 ≤ m) (hlt : blockSize * m < 2 ^ 31)
    {calls : List (Uninit × Call)} (h : Guarded callStep (Orderly m) (zeroDisk m) calls) :
    Always callStep (Consistent m) (zeroDisk m) calls := by
  have hsound := Sound.always hm hlt (fun _ _ hcall => ⟨hcall.parented, hcall.space⟩) h
  exact hsound.mono fun d ⟨fs, hfs⟩ => hfs.consistent

/-- A directory, a file in it, and a block and a byte in that. -/
theorem consistent_of_orderly_write :
    let u : Uninit := ⟨fun _ => 0, fun _ => 0⟩
    let d : CString := ⟨[47, 100], by decide⟩
    let f : CString := ⟨[47, 100, 47, 97, 46, 98], by decide⟩
    Always callStep (Consistent 5) (zeroDisk 5)
      [(u, .mkdir d), (u, .mknod f), (u, .write f (List.replicate 505 65) 0)] :=
  consistent_of_orderly (by decide) (by decide) (by decide +kernel)

end Csc452.Fuse
