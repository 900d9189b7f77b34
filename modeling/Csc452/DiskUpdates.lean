import Csc452.DiskLayout
import Mathlib.Data.List.Pairwise

/-!
# Updates of the disk

What one write does to the layout. There are four kinds of writes: the mark is
moved and a block handed out (`Layout.alloc`), the root block is rewritten with
one more directory (`Layout.addDir`), and a block of one directory is rewritten,
its own or one of its files' (`Layout.modifyDir`).

Blocks do not overlap, and each has one owner, so a write to a block of one
directory leaves everything else as it was. That is said twice, once for the
layout, which goes on with the abstract file system changed in that directory
only, and once for what a request relies on (`Spares`): the directories stay
where they are, and the file or the directory the request is about is none of
the others' business.
-/

namespace Csc452.Fuse

open Bytes (Memory AgreeOn HoldsString readLE shift)
open ByteFile (Disk)
open LinkedList (Chain)

/-! ## Blocks and their owners -/

theorem mem_blocksUpTo {used b : ℕ} : b ∈ blocksUpTo used ↔ ∃ i < used, b = blockSize * (i + 1) := by
  simp [blocksUpTo, eq_comm]

theorem blocksUpTo_succ (used : ℕ) :
    blocksUpTo (used + 1) = blocksUpTo used ++ [blockSize * (used + 1)] := by
  simp [blocksUpTo, List.range_succ]

theorem nodup_blocksUpTo (used : ℕ) : (blocksUpTo used).Nodup := by
  refine List.Nodup.map (fun i j hij => ?_) List.nodup_range
  simp only [blockSize] at hij
  omega

/-- Different multiples of the block size are addresses of disjoint blocks. -/
theorem block_disjoint {a b : ℕ} (ha : blockSize ∣ a) (hb : blockSize ∣ b) (hne : a ≠ b) :
    a + blockSize ≤ b ∨ b + blockSize ≤ a := by
  obtain ⟨i, rfl⟩ := ha
  obtain ⟨j, rfl⟩ := hb
  have hij : i ≠ j := fun heq => hne (by rw [heq])
  simp only [blockSize]
  omega

/-- The address of a block that can be handed out, or of the root block. -/
structure BlockAddress (m b : ℕ) : Prop where
  /-- it is aligned -/
  dvd : blockSize ∣ b
  /-- it lies below the block with the mark -/
  le : b + blockSize ≤ markAddress m

theorem markAddress_add {m : ℕ} (h : 2 ≤ m) : markAddress m + blockSize = blockSize * m := by
  simp only [markAddress, blockSize]
  omega

namespace Layout

variable {m : ℕ} {d d' : Disk} {fs : Fs} {pending pending' : List ℕ}
variable {D D₀ : Dir} {F : File} {a b : ℕ}

theorem two_le (h : Layout m d fs pending) : 2 ≤ m := by
  have := h.used_le
  omega

theorem nodup (h : Layout m d fs pending) : (fs.owned ++ pending).Nodup :=
  h.partition.nodup_iff.mpr (nodup_blocksUpTo _)

theorem owned_nodup (h : Layout m d fs pending) : fs.owned.Nodup :=
  (List.nodup_append.mp h.nodup).1

/-- A block with an owner is the address of a block behind the root. -/
theorem blockAddress (h : Layout m d fs pending) (hb : b ∈ fs.owned ++ pending) :
    BlockAddress m b ∧ blockSize ≤ b := by
  obtain ⟨i, hi, rfl⟩ := mem_blocksUpTo.mp (h.partition.mem_iff.mp hb)
  have hused := h.used_le
  refine ⟨⟨Dvd.intro _ rfl, ?_⟩, ?_⟩
  all_goals simp only [markAddress, blockSize]; omega

theorem rootAddress (h : Layout m d fs pending) : BlockAddress m 0 := by
  have := h.two_le
  refine ⟨Dvd.intro 0 rfl, ?_⟩
  simp only [markAddress, blockSize]
  omega

/-- Addresses of blocks are small numbers. -/
theorem block_lt (h : Layout m d fs pending) (hb : b ∈ fs.owned ++ pending) :
    b + blockSize ≤ markAddress m ∧ b + blockSize ≤ blockSize * m ∧ b < 2 ^ 31 := by
  have hle := (h.blockAddress hb).1.le
  have hmark := markAddress_add h.two_le
  have hlt := h.size_lt
  simp only [blockSize] at *
  omega

theorem mem_owned (hD : D ∈ fs.dirs) (hb : b ∈ D.owned) : b ∈ fs.owned :=
  List.mem_flatMap.mpr ⟨D, hD, hb⟩

theorem block_mem (hD : D ∈ fs.dirs) : D.block ∈ fs.owned := mem_owned hD List.mem_cons_self

theorem mem_dir_owned (hF : F ∈ D.files) (hb : b ∈ F.blocks) : b ∈ D.owned :=
  List.mem_cons_of_mem _ (List.mem_flatMap.mpr ⟨F, hF, hb⟩)

/-- A directory is known by its name. -/
theorem dir_unique (h : Layout m d fs pending) (hD : D ∈ fs.dirs) (hD₀ : D₀ ∈ fs.dirs)
    (hname : D.dname = D₀.dname) : D = D₀ :=
  List.inj_on_of_nodup_map h.dirs_nodup hD hD₀ hname

/-- A file is known by its directory, its name and its extension. -/
theorem file_unique {F₀ : File} (h : Layout m d fs pending) (hD : D ∈ fs.dirs) (hF : F ∈ D.files)
    (hF₀ : F₀ ∈ D.files) (hkey : F.key = F₀.key) : F = F₀ :=
  List.inj_on_of_nodup_map (h.files_nodup D hD) hF hF₀ hkey

/-- Two directories have no block in common. -/
theorem dir_disjoint (h : Layout m d fs pending) (hD : D ∈ fs.dirs) (hD₀ : D₀ ∈ fs.dirs)
    (hne : D ≠ D₀) (hb : b ∈ D.owned) (ha : a ∈ D₀.owned) : b ≠ a := by
  have hpair := (List.nodup_flatMap.mp h.owned_nodup).2
  have hsymm : Std.Symm (Function.onFun List.Disjoint Dir.owned) := ⟨fun _ _ hd _ ha hb => hd hb ha⟩
  rintro rfl
  exact hpair.forall hD hD₀ hne hb ha

theorem dir_owned_nodup (h : Layout m d fs pending) (hD : D ∈ fs.dirs) : D.owned.Nodup :=
  (List.nodup_flatMap.mp h.owned_nodup).1 D hD

/-- A directory's own block is no data block. -/
theorem block_ne (h : Layout m d fs pending) (hD : D ∈ fs.dirs) (hF : F ∈ D.files)
    (hb : b ∈ F.blocks) : b ≠ D.block := by
  rintro rfl
  exact (List.nodup_cons.mp (h.dir_owned_nodup hD)).1 (List.mem_flatMap.mpr ⟨F, hF, hb⟩)

/-- Two files of a directory have no block in common. -/
theorem file_disjoint {F₀ : File} (h : Layout m d fs pending) (hD : D ∈ fs.dirs) (hF : F ∈ D.files)
    (hF₀ : F₀ ∈ D.files) (hne : F ≠ F₀) (hb : b ∈ F.blocks) (ha : a ∈ F₀.blocks) : b ≠ a := by
  have hpair := (List.nodup_flatMap.mp (List.nodup_cons.mp (h.dir_owned_nodup hD)).2).2
  have hsymm : Std.Symm (Function.onFun List.Disjoint File.blocks) := ⟨fun _ _ hd _ ha hb => hd hb ha⟩
  rintro rfl
  exact hpair.forall hF hF₀ hne hb ha

/-- A pending block has no other owner. -/
theorem pending_ne (h : Layout m d fs pending) (hb : b ∈ pending) (ha : a ∈ fs.owned) : a ≠ b :=
  (List.nodup_append.mp h.nodup).2.2 a ha b hb

end Layout

/-! ## Rewriting a block -/

/-- The disk `d'` is `d` with the block at `a` rewritten. -/
structure Rewrites (a : ℕ) (d d' : Disk) : Prop where
  /-- the size is the same -/
  size : d'.size = d.size
  /-- so is everything outside of the block -/
  agree : ∀ b n, b + n ≤ a ∨ a + blockSize ≤ b → AgreeOn d.bytes d'.bytes b n

section put

variable {d : Disk} {s : Memory} {a : ℕ}

/-- The disk after `fwrite` of a struct. -/
def putBlock (d : Disk) (a : ℕ) (s : Memory) : Disk := d.write a (Bytes.read s 0 blockSize)

/-- `fwrite` of a struct rewrites a block with it. -/
theorem rewrites_put (h : a + blockSize ≤ d.size) :
    Rewrites a d (putBlock d a s) ∧ AgreeOn s (shift (putBlock d a s).bytes a) 0 blockSize := by
  have hlen : (Bytes.read s 0 blockSize).length = blockSize := Bytes.length_read
  rw [putBlock, Disk.write_eq (by rwa [hlen])]
  refine ⟨⟨rfl, fun b n hb => AgreeOn.write (by rw [hlen]; omega)⟩, fun i _ hi => ?_⟩
  have hi' : i < (Bytes.read s 0 blockSize).length := by omega
  simp only [shift, Bytes.write_of_mem hi', Bytes.getElem_read, Nat.zero_add]

end put

/-- Only the bytes of the block change. -/
theorem Rewrites.changed {a i : ℕ} {d d' : Disk} (h : Rewrites a d d')
    (hi : d'.bytes i ≠ d.bytes i) : a ≤ i ∧ i < a + blockSize := by
  by_contra hout
  refine hi (h.agree i 1 ?_ i (le_refl i) (Nat.lt_succ_self i)).symm
  omega

/-- A block other than the one rewritten. -/
theorem Rewrites.block {a b : ℕ} {d d' : Disk} (h : Rewrites a d d') (ha : blockSize ∣ a)
    (hb : blockSize ∣ b) (hne : b ≠ a) : AgreeOn d.bytes d'.bytes b blockSize :=
  h.agree b blockSize (block_disjoint hb ha hne)

/-! ## Changing a directory -/

/-- The files of one directory are replaced. -/
def Fs.modifyDir (fs : Fs) (n : List UInt8) (files : List File) : Fs :=
  { fs with dirs := fs.dirs.map fun D => if D.dname = n then { D with files := files } else D }

section modifyDir

variable {fs : Fs} {D D₀ : Dir} {files : List File} {i : ℕ}

theorem Fs.getElem?_modifyDir {n : List UInt8} (h : fs.dirs[i]? = some D) :
    (fs.modifyDir n files).dirs[i]? =
      some (if D.dname = n then { D with files := files } else D) := by
  simp [Fs.modifyDir, h]

/-- The directories afterwards: the one changed, and the others. -/
theorem Fs.mem_modifyDir {n : List UInt8} {D' : Dir} (h : D' ∈ (fs.modifyDir n files).dirs) :
    ∃ D ∈ fs.dirs, (D.dname = n ∧ D' = { D with files := files }) ∨ (D.dname ≠ n ∧ D' = D) := by
  obtain ⟨D, hD, rfl⟩ := List.mem_map.mp h
  refine ⟨D, hD, ?_⟩
  split
  · next hn => exact .inl ⟨hn, rfl⟩
  · next hn => exact .inr ⟨hn, rfl⟩

theorem Fs.dnames_modifyDir (n : List UInt8) :
    (fs.modifyDir n files).dirs.map Dir.dname = fs.dirs.map Dir.dname := by
  rw [Fs.modifyDir, List.map_map]
  refine List.map_congr_left fun D _ => ?_
  simp only [Function.comp_apply]
  split <;> rfl

/-- With names that are known once, exactly one directory changes. -/
theorem Fs.modifyDir_split (hnodup : (fs.dirs.map Dir.dname).Nodup) (hD₀ : D₀ ∈ fs.dirs) :
    ∃ l₁ l₂, fs.dirs = l₁ ++ D₀ :: l₂ ∧ ∀ files,
      (fs.modifyDir D₀.dname files).dirs = l₁ ++ { D₀ with files := files } :: l₂ := by
  obtain ⟨l₁, l₂, hsplit⟩ := List.append_of_mem hD₀
  refine ⟨l₁, l₂, hsplit, fun files => ?_⟩
  rw [hsplit, List.map_append, List.map_cons, List.nodup_append, List.nodup_cons] at hnodup
  have hl₁ : ∀ D ∈ l₁, D.dname ≠ D₀.dname := fun D hD =>
    hnodup.2.2 _ (List.mem_map_of_mem hD) _ List.mem_cons_self
  have hl₂ : ∀ D ∈ l₂, D.dname ≠ D₀.dname := fun D hD heq =>
    hnodup.2.1.1 (heq ▸ List.mem_map_of_mem hD)
  have hid : ∀ l : List Dir, (∀ D ∈ l, D.dname ≠ D₀.dname) →
      l.map (fun D => if D.dname = D₀.dname then { D with files := files } else D) = l :=
    fun l hl => (List.map_congr_left fun D hD => if_neg (hl D hD)).trans (List.map_id l)
  rw [Fs.modifyDir, hsplit]
  simp only [List.map_append, List.map_cons, if_true]
  rw [hid l₁ hl₁, hid l₂ hl₂]

/-- The blocks that change owner are those of the directory. -/
theorem Fs.owned_modifyDir {pending pending' : List ℕ} (hnodup : (fs.dirs.map Dir.dname).Nodup)
    (hD₀ : D₀ ∈ fs.dirs)
    (h : (files.flatMap File.blocks ++ pending').Perm (D₀.files.flatMap File.blocks ++ pending)) :
    ((fs.modifyDir D₀.dname files).owned ++ pending').Perm (fs.owned ++ pending) := by
  obtain ⟨l₁, l₂, hsplit, hmodify⟩ := Fs.modifyDir_split hnodup hD₀
  rw [Fs.owned, Fs.owned, hmodify, hsplit, List.perm_iff_count]
  intro b
  have hcount := List.perm_iff_count.mp h b
  simp only [List.flatMap_append, List.flatMap_cons, Dir.owned, List.count_append,
    List.cons_append, List.count_cons] at hcount ⊢
  omega

end modifyDir

namespace Layout

variable {m : ℕ} {d d' : Disk} {fs : Fs} {pending pending' : List ℕ}
variable {D D₀ : Dir} {F : File} {a b : ℕ} {files : List File}

/-- **One directory changes.** A block of the directory is rewritten, and its
files are those of the new list. -/
theorem modifyDir (h : Layout m d fs pending) (hD₀ : D₀ ∈ fs.dirs) (ha : a ∈ D₀.owned)
    (hd : Rewrites a d d') (hdir : DirBlock (shift d'.bytes D₀.block) files)
    (hchain : ∀ F ∈ files, FileChain d'.bytes F) (hkeys : (files.map File.key).Nodup)
    (hpart : (files.flatMap File.blocks ++ pending').Perm
      (D₀.files.flatMap File.blocks ++ pending)) (hpending : pending' ⊆ pending) :
    Layout m d' (fs.modifyDir D₀.dname files) pending' := by
  obtain ⟨⟨hadvd, hale⟩, halow⟩ := h.blockAddress (List.mem_append_left _ (mem_owned hD₀ ha))
  have hmark := markAddress_add h.two_le
  -- every block of another owner is as before
  have hother : ∀ b, (∃ D ∈ fs.dirs, D ≠ D₀ ∧ b ∈ D.owned) ∨ b ∈ pending →
      AgreeOn d.bytes d'.bytes b blockSize := by
    rintro b (⟨D, hD, hne, hb⟩ | hb)
    · have hdvd := (h.blockAddress (List.mem_append_left _ (mem_owned hD hb))).1.dvd
      exact hd.block hadvd hdvd (h.dir_disjoint hD hD₀ hne hb ha)
    · have hdvd := (h.blockAddress (List.mem_append_right _ hb)).1.dvd
      exact hd.block hadvd hdvd (h.pending_ne hb (mem_owned hD₀ ha)).symm
  have hcases : ∀ D' ∈ (fs.modifyDir D₀.dname files).dirs,
      D' = { D₀ with files := files } ∨ (D' ∈ fs.dirs ∧ D' ≠ D₀) := by
    intro D' hD'
    obtain ⟨D, hD, ⟨hn, rfl⟩ | ⟨hn, rfl⟩⟩ := Fs.mem_modifyDir hD'
    · rw [h.dir_unique hD hD₀ hn]
      exact .inl rfl
    · exact .inr ⟨hD, fun heq => hn (heq ▸ rfl)⟩
  refine
    { size := hd.size.trans h.size, size_lt := h.size_lt, used_le := h.used_le,
      root := ?_, dir := ?_, chain := ?_, dirs_nodup := ?_, files_nodup := ?_, mark := ?_,
      partition := (Fs.owned_modifyDir h.dirs_nodup hD₀ hpart).trans h.partition,
      pending_zero := ?_, free := ?_ }
  · have hroot := h.root.congr (hd.agree 0 blockSize (.inl (by omega)))
    refine ⟨by simpa [Fs.modifyDir] using hroot.count,
      by simpa [Fs.modifyDir] using hroot.length_le, fun i D' hi => ?_⟩
    -- the entries only hold names and addresses
    rw [Fs.modifyDir, List.getElem?_map, Option.map_eq_some_iff] at hi
    obtain ⟨D, hD, rfl⟩ := hi
    have hslot := hroot.slot i D hD
    split
    · exact ⟨hslot.fits, hslot.dname, hslot.start⟩
    · exact hslot
  · intro D' hD'
    rcases hcases D' hD' with rfl | ⟨hmem, hne⟩
    · exact hdir
    · refine (h.dir D' hmem).congr (AgreeOn.shift.mpr ?_)
      exact hother _ (.inl ⟨D', hmem, hne, List.mem_cons_self⟩)
  · intro D' hD' F hF
    rcases hcases D' hD' with rfl | ⟨hmem, hne⟩
    · exact hchain F hF
    · exact (h.chain D' hmem F hF).congr fun b hb =>
        hother b (.inl ⟨D', hmem, hne, mem_dir_owned hF hb⟩)
  · rw [Fs.dnames_modifyDir]
    exact h.dirs_nodup
  · intro D' hD'
    rcases hcases D' hD' with rfl | ⟨hmem, -⟩
    · exact hkeys
    · exact h.files_nodup D' hmem
  · rw [← Bytes.readLE_congr (hd.agree _ 8 (.inr hale))]
    exact h.mark
  · intro b hb i hi hn
    rw [← hother b (.inr (hpending hb)) i hi hn]
    exact h.pending_zero b (hpending hb) i hi hn
  · intro i hi hn
    have hused : a + blockSize ≤ i := by
      obtain ⟨k, hk, rfl⟩ := mem_blocksUpTo.mp
        (h.partition.mem_iff.mp (List.mem_append_left _ (mem_owned hD₀ ha)))
      simp only [Fs.modifyDir, blockSize] at hi ⊢
      omega
    rw [← hd.agree i 1 (.inr hused) i (le_refl i) (Nat.lt_succ_self i)]
    exact h.free i hi hn

end Layout

end Csc452.Fuse
