import Csc452.DiskUpdates
import Csc452.Tables
import Csc452.View

/-!
# What an update shows

Every update of the disk seen from two sides: what it does to the view
(`Fs.view`), and what it spares (`Spares`). The first is an effect, or nothing;
the second is what a request may rely on while other requests run, as long as
these have other targets: directories stay at their index, with their block, a
file that is its target stays as it is, and a target that does not exist yet is
not made by others.
-/

namespace Csc452.Fuse

open Bytes (Memory AgreeOn HoldsString readLE shift)
open ByteFile (Disk)
open LinkedList (Chain)
open Layout (block_mem mem_owned mem_dir_owned)

/-! ## The view of a disk -/

/-- The data of a list of blocks. -/
def dataOf (m : Memory) (blocks : List ℕ) : List UInt8 :=
  blocks.flatMap fun b => Bytes.read m b dataSize

/-- What a user sees of a file. -/
def File.view (m : Memory) (F : File) : FileView where
  fname := F.fname
  fext := F.fext
  fsize := F.fsize
  data := dataOf m F.blocks

/-- What a user sees of a directory. -/
def Dir.view (m : Memory) (D : Dir) : DirView where
  dname := D.dname
  files := D.files.map (File.view m)

/-- What a user sees of the disk. -/
def Fs.view (m : Memory) (fs : Fs) : View := fs.dirs.map (Dir.view m)

@[simp] theorem File.view_key (m : Memory) (F : File) : (F.view m).key = F.key := by
  simp only [FileView.key, File.view, File.key]

theorem File.view_fsize (m : Memory) (F : File) : (F.view m).fsize = F.fsize := rfl

theorem dataOf_congr {m m' : Memory} {blocks : List ℕ}
    (h : ∀ b ∈ blocks, AgreeOn m m' b blockSize) : dataOf m' blocks = dataOf m blocks := by
  rw [dataOf, dataOf, List.flatMap_def, List.flatMap_def]
  refine congrArg List.flatten (List.map_congr_left fun b hb => (Bytes.read_congr ?_).symm)
  exact (h b hb).mono (le_refl _) (by simp only [dataSize, blockSize]; omega)

theorem File.view_congr {m m' : Memory} {F : File}
    (h : ∀ b ∈ F.blocks, AgreeOn m m' b blockSize) : F.view m' = F.view m := by
  rw [File.view, File.view, dataOf_congr h]

@[simp] theorem dataOf_append {m : Memory} {bs bs' : List ℕ} :
    dataOf m (bs ++ bs') = dataOf m bs ++ dataOf m bs' :=
  List.flatMap_append

@[simp] theorem dataOf_cons {m : Memory} {b : ℕ} {bs : List ℕ} :
    dataOf m (b :: bs) = Bytes.read m b dataSize ++ dataOf m bs :=
  List.flatMap_cons

@[simp] theorem dataOf_nil {m : Memory} : dataOf m [] = [] := rfl

theorem length_dataOf (m : Memory) (blocks : List ℕ) :
    (dataOf m blocks).length = dataSize * blocks.length := by
  induction blocks with
  | nil => rfl
  | cons b blocks ih =>
    rw [dataOf_cons, List.length_append, Bytes.length_read, ih, List.length_cons]
    ring

/-- The list of files with one of them replaced. -/
def replaceFile (F : File) (files : List File) : List File :=
  files.map fun F' => if F'.key = F.key then F else F'

/-- Keys are known once, so replacing by key is replacing at an index. -/
theorem set_eq_replaceFile {files : List File} {F F' : File} {j : ℕ}
    (hnodup : (files.map File.key).Nodup) (hj : files[j]? = some F) (hkey : F'.key = F.key) :
    files.set j F' = replaceFile F' files := by
  refine List.ext_getElem? fun i => ?_
  rw [replaceFile, List.getElem?_map]
  rcases eq_or_ne j i with rfl | hne
  · rw [List.getElem?_set_self (List.getElem?_eq_some_iff.mp hj).1, hj, Option.map_some,
      if_pos hkey.symm]
  · rw [List.getElem?_set_ne hne]
    rcases hi : files[i]? with _ | G
    · rfl
    · have hG : G.key ≠ F'.key := by
        intro hsame
        have hij : (files.map File.key)[j]? = (files.map File.key)[i]? := by
          rw [List.getElem?_map, List.getElem?_map, hj, hi, Option.map_some, Option.map_some, hsame,
            hkey]
        refine hne ((List.getElem?_inj ?_ hnodup).mp hij)
        rw [List.length_map]
        exact (List.getElem?_eq_some_iff.mp hj).1
      rw [Option.map_some, if_neg hG]

section view

variable {m : ℕ} {d d' : Disk} {fs : Fs} {pending : List ℕ} {D₀ : Dir} {F : File} {a : ℕ}
variable {files : List File}

/-- The blocks that are not those of the file rewritten. -/
theorem Layout.view_file (h : Layout m d fs pending) (hD₀ : D₀ ∈ fs.dirs) (ha : a ∈ D₀.owned)
    (hd : Rewrites a d d') (hF : F ∈ D₀.files) (haF : a ∉ F.blocks) :
    F.view d'.bytes = F.view d.bytes := by
  refine File.view_congr fun b hb => ?_
  have hadvd := (h.blockAddress (List.mem_append_left _ (Layout.mem_owned hD₀ ha))).1.dvd
  have hbdvd := (h.blockAddress (List.mem_append_left _
    (Layout.mem_owned hD₀ (Layout.mem_dir_owned hF hb)))).1.dvd
  exact hd.block hadvd hbdvd fun heq => haF (heq ▸ hb)

/-- Only the files of the directory change. -/
theorem Layout.view_modifyDir (h : Layout m d fs pending) (hD₀ : D₀ ∈ fs.dirs) (ha : a ∈ D₀.owned)
    (hd : Rewrites a d d') :
    (fs.modifyDir D₀.dname files).view d'.bytes =
      View.modifyDir D₀.dname (fun _ => files.map (File.view d'.bytes)) (fs.view d.bytes) := by
  simp only [Fs.view, Fs.modifyDir, View.modifyDir, List.map_map]
  refine List.map_congr_left fun D hD => ?_
  simp only [Function.comp_apply]
  rcases eq_or_ne D.dname D₀.dname with hn | hn
  · have hn' : (D.view d.bytes).dname = D₀.dname := hn
    simp only [if_pos hn, if_pos hn']
    simp only [Dir.view]
  · have hn' : (D.view d.bytes).dname ≠ D₀.dname := hn
    simp only [if_neg hn, if_neg hn']
    simp only [Dir.view, DirView.mk.injEq, true_and]
    refine List.map_congr_left fun F hF => File.view_congr fun b hb => ?_
    have hadvd := (h.blockAddress (List.mem_append_left _ (mem_owned hD₀ ha))).1.dvd
    have hbdvd := (h.blockAddress (List.mem_append_left _
      (mem_owned hD (mem_dir_owned hF hb)))).1.dvd
    have hne : D ≠ D₀ := fun heq => hn (heq ▸ rfl)
    exact hd.block hadvd hbdvd (h.dir_disjoint hD hD₀ hne (mem_dir_owned hF hb) ha)

/-- The directory with a name in the view. -/
theorem Layout.files_of_view {Dv : DirView} (h : Layout m d fs pending) (hD₀ : D₀ ∈ fs.dirs)
    (hDv : Dv ∈ fs.view d.bytes) (hn : Dv.dname = D₀.dname) :
    Dv.files = D₀.files.map (File.view d.bytes) := by
  obtain ⟨D, hD, rfl⟩ := List.mem_map.mp hDv
  rw [h.dir_unique hD hD₀ hn]
  rfl

/-- A file added shows as one. -/
theorem Layout.view_addFile (h : Layout m d fs pending) (hD₀ : D₀ ∈ fs.dirs)
    (hd : Rewrites D₀.block d d') :
    (fs.modifyDir D₀.dname (D₀.files ++ [F])).view d'.bytes =
      (Effect.addFile D₀.dname (F.view d'.bytes)).apply (fs.view d.bytes) := by
  rw [h.view_modifyDir hD₀ List.mem_cons_self hd, Effect.apply]
  refine View.modifyDir_congr fun Dv hDv hn => ?_
  rw [h.files_of_view hD₀ hDv hn, List.map_append]
  refine congrArg₂ (· ++ ·) (List.map_congr_left fun F' hF' => ?_) rfl
  exact h.view_file hD₀ List.mem_cons_self hd hF' fun hmem => h.block_ne hD₀ hF' hmem rfl

/-- A file replaced shows as one, if no other file has the block rewritten. -/
theorem Layout.view_replaceFile (h : Layout m d fs pending) (hD₀ : D₀ ∈ fs.dirs)
    (ha : a ∈ D₀.owned) (hd : Rewrites a d d')
    (haF : ∀ F' ∈ D₀.files, F'.key ≠ F.key → a ∉ F'.blocks) :
    (fs.modifyDir D₀.dname (replaceFile F D₀.files)).view d'.bytes =
      (Effect.setFile D₀.dname (F.view d'.bytes)).apply (fs.view d.bytes) := by
  rw [h.view_modifyDir hD₀ ha hd]
  refine View.modifyDir_congr fun Dv hDv hn => ?_
  rw [h.files_of_view hD₀ hDv hn, replaceFile, View.replace, List.map_map, List.map_map]
  refine List.map_congr_left fun F' hF' => ?_
  simp only [Function.comp_apply]
  rcases eq_or_ne F'.key F.key with hkey | hkey
  · have hkey' : (F'.view d.bytes).key = (F.view d'.bytes).key := by simpa using hkey
    simp only [if_pos hkey, if_pos hkey']
  · have hkey' : (F'.view d.bytes).key ≠ (F.view d'.bytes).key := by simpa using hkey
    simp only [if_neg hkey, if_neg hkey']
    exact h.view_file hD₀ ha hd hF' (haF F' hF' hkey)

end view

/-! ## What an update spares -/

/-- The target is kept in a directory: it stays, or it stays away. -/
structure Target.Keeps (T : Target) (m m' : Memory) (D D' : Dir) : Prop where
  /-- the name is the same -/
  dname : D'.dname = D.dname
  /-- so is the block -/
  block : D'.block = D.block
  /-- no file goes -/
  length_le : D.files.length ≤ D'.files.length
  /-- the target stays as it is -/
  file : ∀ (j : ℕ) (F : File), D.files[j]? = some F → T = .file D.dname F.key →
    D'.files[j]? = some F ∧ ∀ b ∈ F.blocks, AgreeOn m m' b blockSize
  /-- the target stays away -/
  fresh : ∀ key, T = .file D.dname key → (∀ F ∈ D.files, F.key ≠ key) → ∀ F ∈ D'.files, F.key ≠ key

/-- An update spares a target. -/
structure Spares (T : Target) (d : Disk) (fs : Fs) (d' : Disk) (fs' : Fs) : Prop where
  /-- no block is taken back -/
  used_le : fs.used ≤ fs'.used
  /-- directories stay where they are -/
  dirs : ∀ (i : ℕ) (D : Dir), fs.dirs[i]? = some D →
    ∃ D', fs'.dirs[i]? = some D' ∧ T.Keeps d.bytes d'.bytes D D'
  /-- the directory to be made is not made by others -/
  fresh : ∀ n, T = .dir n → (∀ D ∈ fs.dirs, D.dname ≠ n) → ∀ D ∈ fs'.dirs, D.dname ≠ n

theorem Target.Keeps.refl (T : Target) (m : Memory) (D : Dir) : T.Keeps m m D D where
  dname := rfl
  block := rfl
  length_le := le_refl _
  file _ _ hj _ := ⟨hj, fun b _ => AgreeOn.refl m b _⟩
  fresh _ _ h := h

theorem Target.Keeps.trans {T : Target} {m m' m'' : Memory} {D D' D'' : Dir}
    (h : T.Keeps m m' D D') (h' : T.Keeps m' m'' D' D'') : T.Keeps m m'' D D'' where
  dname := h'.dname.trans h.dname
  block := h'.block.trans h.block
  length_le := h.length_le.trans h'.length_le
  file j F hj hT := by
    obtain ⟨hj', heq⟩ := h.file j F hj hT
    obtain ⟨hj'', heq'⟩ := h'.file j F hj' (by rw [h.dname]; exact hT)
    exact ⟨hj'', fun b hb => (heq b hb).trans (heq' b hb)⟩
  fresh key hT hno := h'.fresh key (by rw [h.dname]; exact hT) (h.fresh key hT hno)

namespace Spares

variable {T : Target} {d d' d'' : Disk} {fs fs' fs'' : Fs}

theorem refl (T : Target) (d : Disk) (fs : Fs) : Spares T d fs d fs where
  used_le := le_refl _
  dirs _ D hi := ⟨D, hi, .refl T d.bytes D⟩
  fresh _ _ h := h

theorem trans (h : Spares T d fs d' fs') (h' : Spares T d' fs' d'' fs'') :
    Spares T d fs d'' fs'' where
  used_le := h.used_le.trans h'.used_le
  dirs i D hi := by
    obtain ⟨D', hi', hkeeps⟩ := h.dirs i D hi
    obtain ⟨D'', hi'', hkeeps'⟩ := h'.dirs i D' hi'
    exact ⟨D'', hi'', hkeeps.trans hkeeps'⟩
  fresh n hT hno := h'.fresh n hT (h.fresh n hT hno)

end Spares

/-- Changing the files of a directory spares a target that is not among those
that change. -/
theorem Layout.spares_modifyDir {m : ℕ} {d d' : Disk} {fs : Fs} {pending : List ℕ} {D₀ : Dir}
    {a : ℕ} {files : List File} {T : Target} (h : Layout m d fs pending) (hD₀ : D₀ ∈ fs.dirs)
    (ha : a ∈ D₀.owned) (hd : Rewrites a d d') (hlen : D₀.files.length ≤ files.length)
    (hfile : ∀ (j : ℕ) (F : File), D₀.files[j]? = some F → T = .file D₀.dname F.key →
      files[j]? = some F ∧ a ∉ F.blocks)
    (hfresh : ∀ key, T = .file D₀.dname key → (∀ F ∈ D₀.files, F.key ≠ key) →
      ∀ F ∈ files, F.key ≠ key) :
    Spares T d fs d' (fs.modifyDir D₀.dname files) where
  used_le := le_refl _
  dirs i D hi := by
    have hD := List.mem_of_getElem? hi
    have hadvd := (h.blockAddress (List.mem_append_left _ (mem_owned hD₀ ha))).1.dvd
    have hagree : ∀ F ∈ D.files, a ∉ F.blocks →
        ∀ b ∈ F.blocks, AgreeOn d.bytes d'.bytes b blockSize := by
      intro F hF haF b hb
      have hbdvd := (h.blockAddress (List.mem_append_left _
        (mem_owned hD (mem_dir_owned hF hb)))).1.dvd
      exact hd.block hadvd hbdvd fun heq => haF (heq ▸ hb)
    refine ⟨_, Fs.getElem?_modifyDir hi, ?_⟩
    rcases eq_or_ne D.dname D₀.dname with hn | hn
    · obtain rfl := h.dir_unique hD hD₀ hn
      rw [if_pos rfl]
      refine ⟨rfl, rfl, hlen, fun j F hj hT => ?_, hfresh⟩
      obtain ⟨hj', haF⟩ := hfile j F hj hT
      exact ⟨hj', hagree F (List.mem_of_getElem? hj) haF⟩
    · rw [if_neg hn]
      have hne : D ≠ D₀ := fun heq => hn (heq ▸ rfl)
      refine ⟨rfl, rfl, le_refl _, fun j F hj _ => ⟨hj, ?_⟩, fun _ _ hno => hno⟩
      have hF := List.mem_of_getElem? hj
      exact hagree F hF fun hmem => h.dir_disjoint hD hD₀ hne (mem_dir_owned hF hmem) ha rfl
  fresh n hT hno D' hD' := by
    obtain ⟨D, hD, ⟨-, rfl⟩ | ⟨-, rfl⟩⟩ := Fs.mem_modifyDir hD'
    · exact hno D hD
    · exact hno D' hD

/-! ## Handing out a block -/

section alloc

variable {m : ℕ} {d : Disk} {fs : Fs} {pending pending' : List ℕ}

/-- The disk after the mark has been moved by one block. -/
def allocDisk (m : ℕ) (d : Disk) (fs : Fs) : Disk :=
  d.write (markAddress m) (longBytes ((blockSize * (fs.used + 1) : ℕ) : ℤ))

theorem Layout.size_eq (h : Layout m d fs pending) : d.size = markAddress m + blockSize := by
  rw [h.size, markAddress_add h.two_le]

/-- Moving the mark leaves everything below it as it was. -/
theorem Layout.alloc_agree (h : Layout m d fs pending) {a n : ℕ} (hn : a + n ≤ markAddress m) :
    AgreeOn d.bytes (allocDisk m d fs).bytes a n := by
  rw [allocDisk, Disk.write_eq (by rw [length_longBytes, h.size_eq]; simp only [blockSize]; omega)]
  exact AgreeOn.write (.inr hn)

/-- **A block is handed out.** The mark moves up by one block, which is pending
from then on. -/
theorem Layout.alloc (h : Layout m d fs pending) (hroom : fs.used + 3 ≤ m) :
    Layout m (allocDisk m d fs) { fs with used := fs.used + 1 }
      (blockSize * (fs.used + 1) :: pending) := by
  have hmark := markAddress_add h.two_le
  have hsize := h.size_eq
  have hwrite : allocDisk m d fs =
      { d with
        bytes := Bytes.write d.bytes (markAddress m)
          (longBytes ((blockSize * (fs.used + 1) : ℕ) : ℤ)) } :=
    Disk.write_eq (by rw [length_longBytes, hsize]; simp only [blockSize]; omega)
  have hagree : ∀ {b : ℕ}, b ∈ fs.owned ++ pending →
      AgreeOn d.bytes (allocDisk m d fs).bytes b blockSize :=
    fun hb => h.alloc_agree (h.blockAddress hb).1.le
  refine
    { size := by rw [hwrite]; exact h.size, size_lt := h.size_lt, used_le := ?_,
      root := h.root.congr (h.alloc_agree (h.rootAddress.le)),
      dir := fun D hD => (h.dir D hD).congr
        (AgreeOn.shift.mpr (hagree (List.mem_append_left _ (block_mem hD)))),
      chain := fun D hD F hF => (h.chain D hD F hF).congr fun b hb =>
        hagree (List.mem_append_left _ (mem_owned hD (mem_dir_owned hF hb))),
      dirs_nodup := h.dirs_nodup, files_nodup := h.files_nodup, mark := ?_, partition := ?_,
      pending_zero := ?_, free := ?_ }
  · simp only
    omega
  · have hlt : blockSize * (fs.used + 1) < 2 ^ 64 := by
      have hused := h.used_le
      have hlt := h.size_lt
      simp only [blockSize] at *
      omega
    rw [hwrite, longBytes, Bytes.readLE_write_self, toSize_natCast hlt]
    exact Nat.mod_eq_of_lt hlt
  · rw [blocksUpTo_succ]
    have hperm := h.partition.append_right [blockSize * (fs.used + 1)]
    refine List.Perm.trans ?_ hperm
    rw [List.append_assoc]
    exact (List.perm_append_left_iff _).mpr (List.perm_append_singleton _ _).symm
  · intro b hb i hi hn
    have hle : blockSize * (fs.used + 1) + blockSize ≤ markAddress m := by
      simp only [markAddress, blockSize]
      omega
    rcases List.mem_cons.mp hb with rfl | hb
    · rw [← h.alloc_agree hle i hi hn]
      exact h.free i hi (by omega)
    · rw [← hagree (List.mem_append_right _ hb) i hi hn]
      exact h.pending_zero b hb i hi hn
  · intro i hi hn
    rw [← h.alloc_agree (n := 1) (Nat.succ_le_of_lt hn) i (le_refl i) (Nat.lt_succ_self i)]
    refine h.free i ?_ hn
    simp only [blockSize] at hi ⊢
    omega

/-- Nobody sees it. -/
theorem Layout.view_alloc (h : Layout m d fs pending) :
    Fs.view (allocDisk m d fs).bytes { fs with used := fs.used + 1 } = fs.view d.bytes := by
  simp only [Fs.view]
  refine List.map_congr_left fun D hD => ?_
  simp only [Dir.view, DirView.mk.injEq, true_and]
  refine List.map_congr_left fun F hF => File.view_congr fun b hb => ?_
  have hmem := List.mem_append_left pending (mem_owned hD (mem_dir_owned hF hb))
  exact h.alloc_agree (h.blockAddress hmem).1.le

/-- It spares every target. -/
theorem Layout.spares_alloc (h : Layout m d fs pending) (T : Target) :
    Spares T d fs (allocDisk m d fs) { fs with used := fs.used + 1 } where
  used_le := Nat.le_succ _
  dirs i D hi := by
    refine ⟨D, hi, rfl, rfl, le_refl _, fun j F hj _ => ⟨hj, fun b hb => ?_⟩, fun _ _ hno => hno⟩
    have hmem := List.mem_append_left pending
      (mem_owned (List.mem_of_getElem? hi) (mem_dir_owned (List.mem_of_getElem? hj) hb))
    exact h.alloc_agree (h.blockAddress hmem).1.le
  fresh _ _ hno := hno

/-- The order of the pending blocks does not matter. -/
theorem Layout.perm (h : Layout m d fs pending) (hperm : pending.Perm pending') :
    Layout m d fs pending' :=
  { h with
    partition := ((List.perm_append_left_iff _).mpr hperm.symm).trans h.partition
    pending_zero := fun b hb => h.pending_zero b (hperm.mem_iff.mpr hb) }

end alloc

end Csc452.Fuse
