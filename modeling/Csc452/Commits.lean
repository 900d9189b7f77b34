import Csc452.DiskEffects

/-!
# The four changes

A request changes the abstract file system with one write, to the root block or
to a block of one directory: `csc452_mkdir` adds a directory (`Layout.addDir`),
`csc452_mknod` a file (`Layout.addFile`), and `csc452_write` sets the size of a
file (`Layout.setSize`) and the data of one of its blocks, which may link in a
block it has been handed out (`Layout.setData`, `Layout.link`).

Each of them is shown to be a change by an effect (`Commits`): the disk is laid
out as the changed file system says, the view changes by the effect, and every
target but that of the request is spared.
-/

namespace Csc452.Fuse

open Bytes (Memory AgreeOn HoldsString readLE shift)
open ByteFile (Disk)
open LinkedList (Chain)
open Layout (block_mem mem_owned mem_dir_owned)

/-- A change of the disk by an effect on a target. -/
structure Commits (m : ℕ) (T : Target) (e : Effect) (d : Disk) (fs : Fs) (d' : Disk) (fs' : Fs)
    (pending' : List ℕ) : Prop where
  /-- the layout afterwards -/
  layout : Layout m d' fs' pending'
  /-- the view afterwards -/
  view : fs'.view d'.bytes = e.apply (fs.view d.bytes)
  /-- other targets are spared -/
  spares : ∀ T', T' ≠ T → Spares T' d fs d' fs'

variable {m : ℕ} {d d' : Disk} {fs : Fs} {pending pending' : List ℕ} {D₀ : Dir} {F F' : File}
variable {a b i j : ℕ} {s : Memory} {n : List UInt8}

/-! ## A directory is added -/

theorem ZeroBlock.readLE {k : ℕ} (h : ZeroBlock d.bytes b) (hk : i + k ≤ blockSize) :
    readLE d.bytes (b + i) k = 0 :=
  Bytes.readLE_zero fun x hx hn => h x (by omega) (by omega)

theorem ZeroBlock.congr (h : ZeroBlock d.bytes b) (heq : AgreeOn d.bytes d'.bytes b blockSize) :
    ZeroBlock d'.bytes b := fun x hx hn => by rw [← heq x hx hn, h x hx hn]

theorem Fs.owned_addDir : ({ fs with dirs := fs.dirs ++ [⟨n, b, []⟩] } : Fs).owned = fs.owned ++ [b] := by
  simp [Fs.owned, Dir.owned]

/-- **A directory is added.** The root block is rewritten, and a pending block
becomes the block of the directory. -/
theorem Layout.addDir (h : Layout m d fs (b :: pending)) (hno : ∀ D ∈ fs.dirs, D.dname ≠ n)
    (hd : Rewrites 0 d d') (hroot : RootBlock d'.bytes (fs.dirs ++ [⟨n, b, []⟩])) :
    Commits m (.dir n) (.addDir n) d fs d' { fs with dirs := fs.dirs ++ [⟨n, b, []⟩] } pending := by
  have hagree : ∀ x, x ∈ fs.owned ++ b :: pending → AgreeOn d.bytes d'.bytes x blockSize :=
    fun x hx => hd.agree x blockSize (.inr (by have := (h.blockAddress hx).2; omega))
  have hb : b ∈ fs.owned ++ b :: pending := List.mem_append_right _ List.mem_cons_self
  have hzero : ZeroBlock d'.bytes b :=
    (h.pending_zero b List.mem_cons_self).congr (hagree b hb)
  have hmem : ∀ D ∈ fs.dirs, ∀ x ∈ D.owned, x ∈ fs.owned ++ b :: pending :=
    fun D hD x hx => List.mem_append_left _ (mem_owned hD hx)
  have hcases : ∀ D ∈ fs.dirs ++ [⟨n, b, []⟩], D ∈ fs.dirs ∨ D = ⟨n, b, []⟩ := by simp
  refine ⟨?_, ?_, fun T' hT' => ⟨le_refl _, fun i D hi => ⟨D, ?_, rfl, rfl, le_refl _, ?_, ?_⟩, ?_⟩⟩
  · refine
      { size := hd.size.trans h.size, size_lt := h.size_lt, used_le := h.used_le, root := hroot,
        dir := fun D hD => ?_, chain := fun D hD F hF => ?_, dirs_nodup := ?_,
        files_nodup := fun D hD => ?_, mark := ?_, partition := ?_, pending_zero := ?_, free := ?_ }
    · rcases hcases D hD with hD | rfl
      · exact (h.dir D hD).congr (AgreeOn.shift.mpr (hagree _ (hmem D hD _ List.mem_cons_self)))
      · refine ⟨?_, Nat.zero_le _, fun j F hj => by simp at hj⟩
        rw [Bytes.readLE_shift]
        exact hzero.readLE (by simp only [blockSize]; omega)
    · rcases hcases D hD with hD | rfl
      · exact (h.chain D hD F hF).congr fun x hx => hagree x (hmem D hD x (mem_dir_owned hF hx))
      · exact absurd hF List.not_mem_nil
    · rw [List.map_append, List.map_singleton]
      refine List.nodup_append.mpr ⟨h.dirs_nodup, List.nodup_singleton _, fun x hx y hy => ?_⟩
      obtain ⟨D, hD, rfl⟩ := List.mem_map.mp hx
      rw [List.mem_singleton.mp hy]
      exact hno D hD
    · rcases hcases D hD with hD | rfl
      · exact h.files_nodup D hD
      · exact List.nodup_nil
    · have hmark := (h.blockAddress hb).1.le
      rw [← Bytes.readLE_congr (hd.agree _ 8 (.inr (by omega)))]
      exact h.mark
    · rw [Fs.owned_addDir, List.append_assoc]
      exact h.partition
    · exact fun x hx => (h.pending_zero x (List.mem_cons_of_mem _ hx)).congr
        (hagree x (List.mem_append_right _ (List.mem_cons_of_mem _ hx)))
    · intro x hx hn
      have hx' : 0 + blockSize ≤ x := by simp only [blockSize] at hx ⊢; omega
      rw [← hd.agree x 1 (.inr hx') x (le_refl x) (Nat.lt_succ_self x)]
      exact h.free x hx hn
  · simp only [Fs.view, Effect.apply, List.map_append, List.map_singleton]
    refine congrArg₂ (· ++ ·) (List.map_congr_left fun D hD => ?_) rfl
    simp only [Dir.view, DirView.mk.injEq, true_and]
    exact List.map_congr_left fun F hF => File.view_congr fun x hx =>
      hagree x (hmem D hD x (mem_dir_owned hF hx))
  · rw [List.getElem?_append_left (List.getElem?_eq_some_iff.mp hi).1]
    exact hi
  · have hD := List.mem_of_getElem? hi
    exact fun j F hj _ => ⟨hj, fun x hx =>
      hagree x (hmem D hD x (mem_dir_owned (List.mem_of_getElem? hj) hx))⟩
  · exact fun _ _ hfresh => hfresh
  · intro n' hT hno' D hD
    rcases hcases D hD with hD | rfl
    · exact hno' D hD
    · rintro rfl
      exact hT' hT

/-! ## A file is added -/

/-- The data of a zero block. -/
theorem ZeroBlock.read (h : ZeroBlock d.bytes b) :
    Bytes.read d.bytes b dataSize = List.replicate dataSize 0 := by
  refine List.ext_getElem (by simp) fun i hi _ => ?_
  rw [Bytes.length_read] at hi
  rw [Bytes.getElem_read, List.getElem_replicate]
  exact h _ (by omega) (by simp only [dataSize, blockSize] at hi ⊢; omega)

/-- A block whose link is zero is a chain. -/
theorem fileChain_singleton (hb : b ≠ 0) (hblocks : F.blocks = [b])
    (hlink : readLE d.bytes (b + nextOffset) 8 = 0) : FileChain d.bytes F where
  ne_nil := by simp [hblocks]
  chain := by
    rw [File.start, hblocks, List.headD_cons]
    exact .cons hb (congrArg some hlink) .nil

/-- **A file is added.** The block of a directory is rewritten, and a pending
block becomes the first block of the file. -/
theorem Layout.addFile (h : Layout m d fs (b :: pending)) (hD₀ : D₀ ∈ fs.dirs)
    (hblocks : F.blocks = [b]) (hno : ∀ G ∈ D₀.files, G.key ≠ F.key) (hd : Rewrites D₀.block d d')
    (hdir : DirBlock (shift d'.bytes D₀.block) (D₀.files ++ [F])) :
    Commits m (.file D₀.dname F.key)
      (.addFile D₀.dname ⟨F.fname, F.fext, F.fsize, List.replicate dataSize 0⟩) d fs d'
      (fs.modifyDir D₀.dname (D₀.files ++ [F])) pending := by
  have ha : D₀.block ∈ D₀.owned := List.mem_cons_self
  obtain ⟨⟨hadvd, -⟩, -⟩ := h.blockAddress (List.mem_append_left _ (mem_owned hD₀ ha))
  obtain ⟨⟨hbdvd, -⟩, hblow⟩ := h.blockAddress (List.mem_append_right _ List.mem_cons_self)
  have hzero : ZeroBlock d'.bytes b := by
    refine (h.pending_zero b List.mem_cons_self).congr (hd.block hadvd hbdvd ?_)
    exact (h.pending_ne List.mem_cons_self (mem_owned hD₀ ha)).symm
  have hfiles : ∀ G ∈ D₀.files ++ [F], G ∈ D₀.files ∨ G = F := by simp
  refine ⟨h.modifyDir hD₀ ha hd hdir ?_ ?_ ?_ (List.subset_cons_self _ _), ?_, fun T' hT' => ?_⟩
  · intro G hG
    rcases hfiles G hG with hG | rfl
    · refine (h.chain D₀ hD₀ G hG).congr fun x hx => hd.block hadvd ?_ (h.block_ne hD₀ hG hx)
      exact (h.blockAddress (List.mem_append_left _ (mem_owned hD₀ (mem_dir_owned hG hx)))).1.dvd
    · refine fileChain_singleton (by simp only [blockSize] at hblow; omega) hblocks ?_
      exact hzero.readLE (by simp only [nextOffset, blockSize]; omega)
  · rw [List.map_append, List.map_singleton]
    refine List.nodup_append.mpr
      ⟨h.files_nodup D₀ hD₀, List.nodup_singleton _, fun x hx y hy => ?_⟩
    obtain ⟨G, hG, rfl⟩ := List.mem_map.mp hx
    rw [List.mem_singleton.mp hy]
    exact hno G hG
  · simp [hblocks]
  · rw [h.view_addFile hD₀ hd]
    simp only [File.view, hblocks, dataOf_cons, dataOf_nil, List.append_nil, hzero.read]
  · refine h.spares_modifyDir hD₀ ha hd (by simp) (fun i G hi _ => ⟨?_, ?_⟩) ?_
    · rw [List.getElem?_append_left (List.getElem?_eq_some_iff.mp hi).1]
      exact hi
    · exact fun hmem => h.block_ne hD₀ (List.mem_of_getElem? hi) hmem rfl
    · rintro key hT hnokey G hG rfl
      rcases hfiles G hG with hG | rfl
      · exact hnokey G hG rfl
      · exact hT' hT

/-! ## A file is replaced -/

/-- A file of a list, replaced by one with the same key. -/
theorem flatMap_set {files : List File} (hj : files[j]? = some F)
    (hblocks : F'.blocks.Perm (F.blocks ++ pending')) :
    ((files.set j F').flatMap File.blocks).Perm (files.flatMap File.blocks ++ pending') := by
  obtain ⟨hlt, hF⟩ := List.getElem?_eq_some_iff.mp hj
  rw [List.set_eq_take_append_cons_drop, if_pos hlt]
  nth_rewrite 3 [← List.take_append_drop j files]
  rw [List.drop_eq_getElem_cons hlt, hF, List.perm_iff_count]
  intro x
  have hcount := List.perm_iff_count.mp hblocks x
  simp only [List.flatMap_append, List.flatMap_cons, List.count_append] at hcount ⊢
  omega

/-- The entry of a file in a list with one file replaced. -/
theorem mem_set_files {files : List File} {G : File} (hnodup : (files.map File.key).Nodup)
    (hj : files[j]? = some F) (hkey : F'.key = F.key) (hG : G ∈ files.set j F') :
    G = F' ∨ (G ∈ files ∧ G.key ≠ F.key) := by
  rw [set_eq_replaceFile hnodup hj hkey] at hG
  obtain ⟨G', hG', rfl⟩ := List.mem_map.mp hG
  split
  · exact .inl rfl
  · next hne => exact .inr ⟨hG', fun heq => hne (heq.trans hkey.symm)⟩

/-- A block of the directory is rewritten, its own or one of a file's, and the
file is replaced. -/
theorem Layout.setFile {l : List ℕ} (h : Layout m d fs (l ++ pending)) (hD₀ : D₀ ∈ fs.dirs)
    (hj : D₀.files[j]? = some F) (hkey : F'.key = F.key) (ha : a = D₀.block ∨ a ∈ F.blocks)
    (hd : Rewrites a d d') (hdir : DirBlock (shift d'.bytes D₀.block) (D₀.files.set j F'))
    (hchain : FileChain d'.bytes F') (hblocks : F'.blocks.Perm (F.blocks ++ l)) :
    Commits m (.file D₀.dname F.key) (.setFile D₀.dname (F'.view d'.bytes)) d fs d'
      (fs.modifyDir D₀.dname (D₀.files.set j F')) pending := by
  have hF := List.mem_of_getElem? hj
  have hnodup := h.files_nodup D₀ hD₀
  have haD : a ∈ D₀.owned := by
    rcases ha with rfl | ha
    · exact List.mem_cons_self
    · exact mem_dir_owned hF ha
  obtain ⟨⟨hadvd, -⟩, -⟩ := h.blockAddress (List.mem_append_left _ (mem_owned hD₀ haD))
  -- no other file has the block
  have hother : ∀ G ∈ D₀.files, G.key ≠ F.key → a ∉ G.blocks := by
    intro G hG hne hmem
    rcases ha with rfl | ha
    · exact h.block_ne hD₀ hG hmem rfl
    · exact h.file_disjoint hD₀ hG hF (fun heq => hne (heq ▸ rfl)) hmem ha rfl
  have hset := set_eq_replaceFile hnodup hj hkey
  refine ⟨h.modifyDir hD₀ haD hd hdir (fun G hG => ?_) ?_ ?_ (List.subset_append_right _ _), ?_,
    fun T' hT' => h.spares_modifyDir hD₀ haD hd (by simp) (fun i G hi hT => ?_) ?_⟩
  · rcases mem_set_files hnodup hj hkey hG with rfl | ⟨hG, hne⟩
    · exact hchain
    · refine (h.chain D₀ hD₀ G hG).congr fun x hx => hd.block hadvd ?_ fun heq => ?_
      · exact (h.blockAddress (List.mem_append_left _ (mem_owned hD₀ (mem_dir_owned hG hx)))).1.dvd
      · exact hother G hG hne (heq ▸ hx)
  · obtain ⟨hlt, hjF⟩ := List.getElem?_eq_some_iff.mp hj
    have hlt' : j < (D₀.files.map File.key).length := by rwa [List.length_map]
    have hsame : F.key = (D₀.files.map File.key)[j] := by rw [List.getElem_map, hjF]
    rw [List.map_set, hkey, hsame, List.set_getElem_self hlt']
    exact hnodup
  · rw [← List.append_assoc]
    exact (flatMap_set hj hblocks).append_right pending
  · rw [hset]
    exact h.view_replaceFile hD₀ haD hd fun G hG hne => hother G hG (hkey ▸ hne)
  · have hne : G.key ≠ F.key := fun heq => hT' (heq ▸ hT)
    have hij : j ≠ i := by
      rintro rfl
      exact hne (congrArg File.key (Option.some.inj (hi.symm.trans hj)))
    exact ⟨by rw [List.getElem?_set_ne hij]; exact hi, hother G (List.mem_of_getElem? hi) hne⟩
  · rintro key hT hno G hG rfl
    rcases mem_set_files hnodup hj hkey hG with rfl | ⟨hG, -⟩
    · exact hT' (hkey ▸ hT)
    · exact hno G hG rfl

/-- **The size of a file is set.** -/
theorem Layout.setSize {z : ℕ} (h : Layout m d fs pending) (hD₀ : D₀ ∈ fs.dirs)
    (hj : D₀.files[j]? = some F) (hd : Rewrites D₀.block d d')
    (hdir : DirBlock (shift d'.bytes D₀.block) (D₀.files.set j { F with fsize := z })) :
    Commits m (.file D₀.dname F.key)
        (.setFile D₀.dname (File.view d'.bytes { F with fsize := z })) d fs d'
        (fs.modifyDir D₀.dname (D₀.files.set j { F with fsize := z })) pending ∧
      ∀ x ∈ F.blocks, AgreeOn d.bytes d'.bytes x blockSize := by
  have hF := List.mem_of_getElem? hj
  have ha : D₀.block ∈ D₀.owned := List.mem_cons_self
  have hblocks : ∀ x ∈ F.blocks, AgreeOn d.bytes d'.bytes x blockSize := by
    intro x hx
    refine hd.block ?_ ?_ (h.block_ne hD₀ hF hx)
    · exact (h.blockAddress (List.mem_append_left _ (mem_owned hD₀ ha))).1.dvd
    · exact (h.blockAddress (List.mem_append_left _ (mem_owned hD₀ (mem_dir_owned hF hx)))).1.dvd
  have hchain : FileChain d'.bytes { F with fsize := z } :=
    have hold := (h.chain D₀ hD₀ F hF).congr hblocks
    ⟨hold.ne_nil, hold.chain⟩
  have hperm : F.blocks.Perm (F.blocks ++ []) := by rw [List.append_nil]
  exact ⟨Layout.setFile (l := []) h hD₀ hj rfl (.inl rfl) hd hdir hchain hperm, hblocks⟩

/-! ## A data block is rewritten -/

/-- The entry of a file does not depend on the blocks behind the first one. -/
theorem DirBlock.setBlocks {files : List File} {blocks : List ℕ} (h : DirBlock s files)
    (hj : files[j]? = some F) (hstart : blocks.headD 0 = F.start) :
    DirBlock s (files.set j { F with blocks := blocks }) where
  count := by
    rw [List.length_set]
    exact h.count
  length_le := by
    rw [List.length_set]
    exact h.length_le
  slot i G hi := by
    rcases eq_or_ne j i with rfl | hne
    · rw [List.getElem?_set_self (List.getElem?_eq_some_iff.mp hj).1] at hi
      obtain rfl := Option.some.inj hi
      have hslot := h.slot j F hj
      exact ⟨hslot.fnameFits, hslot.fextFits, hslot.fname, hslot.fext, hslot.fsize,
        hslot.start.trans hstart.symm⟩
    · rw [List.getElem?_set_ne hne] at hi
      exact h.slot i G hi

section setBlock

variable {pre post : List ℕ}

/-- The blocks of a file around the one that is rewritten. -/
theorem Layout.rewrites_block (h : Layout m d fs pending) (hD₀ : D₀ ∈ fs.dirs) (hF : F ∈ D₀.files)
    (hsplit : F.blocks = pre ++ a :: post) (hd : Rewrites a d d') :
    ∀ x ∈ pre ++ post, AgreeOn d.bytes d'.bytes x blockSize := by
  have hdvd : ∀ x ∈ F.blocks, blockSize ∣ x := fun x hx =>
    (h.blockAddress (List.mem_append_left _ (mem_owned hD₀ (mem_dir_owned hF hx)))).1.dvd
  have hnodup := (h.chain D₀ hD₀ F hF).chain.nodup
  rw [hsplit] at hdvd hnodup
  obtain ⟨hnot, -⟩ := List.nodup_cons.mp (List.nodup_middle.mp hnodup)
  intro x hx
  refine hd.block (hdvd a (by simp)) (hdvd x ?_) fun heq => hnot (heq ▸ hx)
  rcases List.mem_append.mp hx with hx | hx
  · exact List.mem_append_left _ hx
  · exact List.mem_append_right _ (List.mem_cons_of_mem _ hx)

/-- The directory block does not change when a data block does. -/
theorem Layout.dirBlock_of_data (h : Layout m d fs pending) (hD₀ : D₀ ∈ fs.dirs) (hF : F ∈ D₀.files)
    (ha : a ∈ F.blocks) (hd : Rewrites a d d') : DirBlock (shift d'.bytes D₀.block) D₀.files := by
  refine (h.dir D₀ hD₀).congr (AgreeOn.shift.mpr (hd.block ?_ ?_ (h.block_ne hD₀ hF ha).symm))
  · exact (h.blockAddress (List.mem_append_left _ (mem_owned hD₀ (mem_dir_owned hF ha)))).1.dvd
  · exact (h.blockAddress (List.mem_append_left _ (block_mem hD₀))).1.dvd

/-- The data of the block that was rewritten. -/
theorem dataOf_rewritten (hs : AgreeOn s (shift d'.bytes a) 0 blockSize) :
    Bytes.read d'.bytes a dataSize = Bytes.read s 0 dataSize := by
  rw [Bytes.read_congr (hs.mono (le_refl _) (by simp only [dataSize, blockSize]; omega)),
    Bytes.read_shift, Nat.add_zero]

/-- The link of the block that was rewritten. -/
theorem nextOf_rewritten (hs : AgreeOn s (shift d'.bytes a) 0 blockSize) :
    nextOf d'.bytes a = some (readLE s nextOffset 8) := by
  rw [nextOf, ← Bytes.readLE_shift, ← Bytes.readLE_congr (hs.mono (Nat.zero_le _)
    (by simp only [nextOffset, blockSize]; omega))]

/-- **A data block is rewritten**, and its link stays. -/
theorem Layout.setData (h : Layout m d fs pending) (hD₀ : D₀ ∈ fs.dirs)
    (hj : D₀.files[j]? = some F) (hsplit : F.blocks = pre ++ a :: post) (hd : Rewrites a d d')
    (hs : AgreeOn s (shift d'.bytes a) 0 blockSize) (hlink : readLE s nextOffset 8 = post.headD 0) :
    Commits m (.file D₀.dname F.key) (.setFile D₀.dname (F.view d'.bytes)) d fs d'
        (fs.modifyDir D₀.dname (D₀.files.set j F)) pending ∧
      dataOf d'.bytes F.blocks =
        dataOf d.bytes pre ++ Bytes.read s 0 dataSize ++ dataOf d.bytes post := by
  have hF := List.mem_of_getElem? hj
  have ha : a ∈ F.blocks := by simp [hsplit]
  have hagree := h.rewrites_block hD₀ hF hsplit hd
  have hchain : FileChain d'.bytes F := by
    refine ⟨(h.chain D₀ hD₀ F hF).ne_nil, (h.chain D₀ hD₀ F hF).chain.congr fun x hx => ?_⟩
    have hold := (h.chain D₀ hD₀ F hF).chain
    rw [hsplit] at hold hx
    rcases eq_or_ne x a with rfl | hne
    · rw [nextOf_rewritten hs, hold.next_eq, hlink]
    · refine nextOf_congr (hagree x ?_)
      simpa [hne] using hx
  have hdata : dataOf d'.bytes F.blocks =
      dataOf d.bytes pre ++ Bytes.read s 0 dataSize ++ dataOf d.bytes post := by
    simp only [hsplit, dataOf_append, dataOf_cons, List.append_assoc, dataOf_rewritten hs]
    rw [dataOf_congr fun x hx => hagree x (List.mem_append_left _ hx),
      dataOf_congr fun x hx => hagree x (List.mem_append_right _ hx)]
  have hdir : DirBlock (shift d'.bytes D₀.block) (D₀.files.set j F) := by
    obtain ⟨hlt, hjF⟩ := List.getElem?_eq_some_iff.mp hj
    rw [← hjF, List.set_getElem_self hlt]
    exact h.dirBlock_of_data hD₀ hF ha hd
  have hperm : F.blocks.Perm (F.blocks ++ []) := by rw [List.append_nil]
  exact ⟨Layout.setFile (l := []) h hD₀ hj rfl (.inr ha) hd hdir hchain hperm, hdata⟩

/-- **A block is linked in.** The last block of a file is rewritten, and its link
leads to a pending block. -/
theorem Layout.link (h : Layout m d fs (b :: pending)) (hD₀ : D₀ ∈ fs.dirs)
    (hj : D₀.files[j]? = some F) (hsplit : F.blocks = pre ++ [a]) (hd : Rewrites a d d')
    (hs : AgreeOn s (shift d'.bytes a) 0 blockSize) (hlink : readLE s nextOffset 8 = b) :
    Commits m (.file D₀.dname F.key)
        (.setFile D₀.dname (File.view d'.bytes { F with blocks := F.blocks ++ [b] })) d fs d'
        (fs.modifyDir D₀.dname (D₀.files.set j { F with blocks := F.blocks ++ [b] })) pending ∧
      dataOf d'.bytes (F.blocks ++ [b]) =
        dataOf d.bytes pre ++ Bytes.read s 0 dataSize ++ List.replicate dataSize 0 := by
  have hF := List.mem_of_getElem? hj
  have ha : a ∈ F.blocks := by simp [hsplit]
  have hagree := h.rewrites_block hD₀ hF hsplit hd
  have hold := (h.chain D₀ hD₀ F hF).chain
  have hne : b ≠ a := h.pending_ne List.mem_cons_self (mem_owned hD₀ (mem_dir_owned hF ha)) |>.symm
  obtain ⟨⟨hbdvd, -⟩, hblow⟩ := h.blockAddress (List.mem_append_right _ List.mem_cons_self)
  have hadvd :=
    (h.blockAddress (List.mem_append_left _ (mem_owned hD₀ (mem_dir_owned hF ha)))).1.dvd
  have hzero : ZeroBlock d'.bytes b :=
    (h.pending_zero b List.mem_cons_self).congr (hd.block hadvd hbdvd hne)
  have hstart : (F.blocks ++ [b]).headD 0 = F.start := by
    rw [File.start, hsplit]
    cases pre <;> rfl
  have hchain : FileChain d'.bytes { F with blocks := F.blocks ++ [b] } := by
    refine ⟨by simp, ?_⟩
    rw [show File.start { F with blocks := F.blocks ++ [b] } = F.start from hstart]
    refine hold.snoc (a := a) (by simp [hsplit]) (by simp only [blockSize] at hblow; omega) ?_ ?_
      fun x hx hxa => ?_
    · exact congrArg some (hzero.readLE (by simp only [nextOffset, blockSize]; omega))
    · rw [nextOf_rewritten hs, hlink]
    · refine nextOf_congr (hagree x ?_)
      rw [hsplit] at hx
      simpa [hxa] using hx
  have hdata : dataOf d'.bytes (F.blocks ++ [b]) =
      dataOf d.bytes pre ++ Bytes.read s 0 dataSize ++ List.replicate dataSize 0 := by
    simp only [hsplit, dataOf_append, dataOf_cons, dataOf_nil, List.append_nil,
      dataOf_rewritten hs, hzero.read]
    rw [dataOf_congr fun x hx => hagree x (List.mem_append_left _ hx)]
  have hdir := (h.dirBlock_of_data hD₀ hF ha hd).setBlocks hj hstart
  have hperm : (F.blocks ++ [b]).Perm (F.blocks ++ [b]) := .refl _
  exact ⟨Layout.setFile (l := [b]) h hD₀ hj rfl (.inr ha) hd hdir hchain hperm, hdata⟩

end setBlock

end Csc452.Fuse
