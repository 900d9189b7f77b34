import Csc452.RequestRules
import Csc452.Specification

/-!
# `mkdir` and `mknod`

What a request to make a directory or a file does while others run. It either
returns 0 after exactly one effect, or it returns an error and has no effect; and
then the reason is one that stays: the path is none of its paths, the target
exists, the table is full or the disk is full.
-/

namespace Csc452.Fuse

open Bytes (Memory AgreeOn HoldsString readLE shift)
open ByteFile (Disk Seen Saw machine)
open Interference (Prog Safe)

/-! ## `mkdir` -/

/-- Why a directory is not made. -/
inductive MkdirRefused (m : ℕ) (p : PathComp) (fs : Fs) : Prop where
  /-- the path is not that of a directory -/
  | path (h : p.count ≠ 1 ∨ 8 < p.directory.length)
  /-- it exists -/
  | exist (h : ∃ D ∈ fs.dirs, D.dname = p.directory)
  /-- the table is full -/
  | table (h : maxDirsInRoot ≤ fs.dirs.length)
  /-- the disk is full -/
  | disk (h : m ≤ fs.used + 2)

/-- Why a file is not made. -/
inductive MknodRefused (m : ℕ) (p : PathComp) (fs : Fs) : Prop where
  /-- the path is not that of a file -/
  | path (h : p.count ≠ 3 ∨ (8 < p.filename.length ∨ 3 < p.extension.length))
  /-- it exists -/
  | exist (h : ∃ D ∈ fs.dirs, D.dname = p.directory ∧
      ∃ F ∈ D.files, F.key = p.key)
  /-- the table is full -/
  | table (h : ∃ D ∈ fs.dirs, D.dname = p.directory ∧ maxFilesInDir ≤ D.files.length)
  /-- the disk is full -/
  | disk (h : m ≤ fs.used + 2)

variable {c : Context} {k : Seen} {w : State} {u : Uninit} {path : CString}

theorem MkdirRefused.stable {p : PathComp} {w' : State} (h : MkdirRefused c.m p w.1.fs)
    (hR : c.R w w') : MkdirRefused c.m p w'.1.fs := by
  rcases h with h | ⟨D, hD, hn⟩ | h | h
  · exact .path h
  · obtain ⟨i, hi⟩ := List.getElem?_of_mem hD
    obtain ⟨D', hi', hkeeps⟩ := hR.spares.dirs i D hi
    exact .exist ⟨D', List.mem_of_getElem? hi', hkeeps.dname.trans hn⟩
  · exact .table (h.trans hR.dirs_length_le)
  · exact .disk (h.trans (Nat.add_le_add_right hR.spares.used_le 2))

/-- How `csc452_mkdir` ends, for a file system it begins with. -/
inductive MkdirEnds (c : Context) (p : PathComp) (fs : Fs) (ret : ℤ) (k : Seen) (w : State) : Prop where
  /-- the directory is made -/
  | made (hret : ret = 0) (hpath : p.count = 1 ∧ p.directory.length ≤ 8)
    (hno : ∀ D ∈ fs.dirs, D.dname ≠ p.directory) (hends : Ended c.t [.addDir p.directory] w)
  /-- it is not -/
  | refused (hret : ret < 0) (hwhy : MkdirRefused c.m p w.1.fs) (hends : Ended c.t [] w)

/-- The root block with the entry of a new directory. -/
theorem RootBlock.mkdir {root root' : Memory} {dirs : List Dir} {n : List UInt8} {b : ℕ}
    (h : RootBlock root dirs) (hlen : dirs.length < maxDirsInRoot) (hn : Fits maxFilename n)
    (hb : b < 2 ^ 63)
    (hroot' : root' = setLong (setString root (dnameOffset (intAt root 0).toNat) n)
      (dirStartOffset (intAt root 0).toNat) b) :
    RootBlock (setInt root' 0 (intAt root' 0 + 1)) (dirs ++ [⟨n, b, []⟩]) := by
  have hcount : readLE root' 0 4 = dirs.length := by
    rw [hroot', ← Bytes.readLE_congr (agreeOn_setLong ?_), ← Bytes.readLE_congr (agreeOn_setString ?_)]
    · exact h.count
    all_goals simp only [dirStartOffset, dnameOffset]; omega
  have hint : intAt root' 0 = dirs.length :=
    intAt_eq hcount (h.length_le.trans_lt (by decide))
  rw [hint, hroot', h.intAt_count, Int.toNat_natCast]
  exact h.append (D := ⟨n, b, []⟩) hlen hn hb

variable (c k u path) in
/-- **`mkdir` next to others**, in a frame that allows it to link in its block. -/
theorem csc452Mkdir_runs_frame (hw : World c.m c.v₀ w) (hstart : Ended c.t [] w)
    (hmine : c.mine = .dir (sscanf path.bytes).directory)
    (hother : c.other ≠ .dir (sscanf path.bytes).directory)
    (hframe : ∀ w fs' e d', c.frame.rel w (w.1.commit c.t fs' [] [e], d')) :
    c.Runs (MkdirEnds c (sscanf path.bytes) w.1.fs) (csc452Mkdir u path) k w := by
  have hnoNul := (sscanf_noNul path.noNul).directory
  have hrefused : ∀ {k w₁ e}, c.R w w₁ → 0 < e → MkdirRefused c.m (sscanf path.bytes) w₁.1.fs →
      c.Runs (MkdirEnds c (sscanf path.bytes) w.1.fs) (pure (-e)) k w₁ := by
    intro k w₁ e hR he hwhy
    exact .pure fun w₂ hR₂ => .refused (by omega) (hwhy.stable hR₂) (hstart.stable (hR.trans hR₂))
  rw [csc452Mkdir]
  split
  · next hcount => exact hrefused (.refl w) (by decide) (.path (.inl hcount))
  next hcount =>
  split
  · next hlen => exact hrefused (.refl w) (by decide) (.path (.inr hlen))
  next hlen =>
  refine dirExists_bind hw hnoNul (fun w₁ i D k₁ hR₁ hw₁ hi hname _ => ?_)
    fun w₁ k₁ hR₁ hw₁ hno _ => ?_
  · rw [if_pos (natCast_ne_neg_one i)]
    exact hrefused hR₁ (by decide) (.exist ⟨D, List.mem_of_getElem? hi, hname⟩)
  rw [if_neg (by simp)]
  refine getRoot_bind hw₁ fun w₂ root k₂ hR₂ hw₂ hagree₂ hsaw₂ _ => ?_
  have hroot₂ := hw₂.layout.root.congr hagree₂
  have hR₂' := hR₁.trans hR₂
  have hsize : toSize (intAt root 0) = w₂.1.fs.dirs.length := by
    rw [hroot₂.intAt_count, toSize_natCast (hroot₂.length_le.trans_lt (by decide))]
  rw [hsize]
  split
  · next hfull => exact hrefused hR₂' (by decide) (.table hfull)
  next hroom =>
  refine nextFreeBlock_bind hw₂ (hR₂'.pending.trans hstart.pending)
    (fun w₃ k₃ hR₃ hw₃ hfull => ?_) fun w₃ k₃ hR₃ hw₃ hkeep₃ => ?_
  · rw [if_pos rfl]
    exact hrefused (hR₂'.trans hR₃) (by decide) (.disk hfull)
  rw [if_neg (natCast_ne_neg_one _)]
  have hR₃' := hR₂'.trans hR₃
  refine fwriteStruct_bind hw₃ fun w₄ hR₄ hw₄ hfresh => ?_
  -- the root block is as it was when it was read
  have hsaw₃ := hkeep₃ _ _ _ hsaw₂ (.inl (by have := hw.layout.rootAddress.le; omega))
  have hroot₄ := hw₄.layout.root.congr ((hfresh _ hsaw₃).trans hagree₂)
  have hpending₄ : w₄.1.pending c.t = [blockSize * (w₃.1.fs.used + 1)] :=
    hR₄.pending.trans Ghost.commit_pending
  have heffects₄ : w₄.1.effects c.t = [] := by
    rw [hR₄.effects, allocState, Ghost.commit_effects, hR₃'.effects, hstart.effects]
    rfl
  have hlayout₄ := hw₄.layout' c.t
  rw [hpending₄] at hlayout₄
  have hblock : blockSize * (w₃.1.fs.used + 1) < 2 ^ 31 :=
    (hlayout₄.block_lt (List.mem_append_right _ List.mem_cons_self)).2.2
  have hno₄ : ∀ D ∈ w₄.1.fs.dirs, D.dname ≠ (sscanf path.bytes).directory :=
    hR₄.spares.fresh _ hmine ((hR₂.trans hR₃).spares.fresh _ hmine hno)
  have hlen₄ : w₄.1.fs.dirs.length < maxDirsInRoot := by
    have hcount := hroot₂.intAt_count.symm.trans hroot₄.intAt_count
    omega
  have hnew := hroot₄.mkdir hlen₄ ⟨hnoNul, not_lt.mp hlen⟩ (hblock.trans (by decide)) rfl
  have hput := fun s => rewrites_put (s := s) (d := w₄.2) (a := 0) (by rw [hlayout₄.size_eq]; omega)
  have hcommit := Layout.addDir hlayout₄ hno₄ (hput _).1
    (hnew.congr (by simpa only [Bytes.shift_zero] using (hput _).2))
  refine ⟨_, .commits hcommit hother (hframe _ _ _ _), fun k' _ => ?_⟩
  have hno₀ : ∀ D ∈ w.1.fs.dirs, D.dname ≠ (sscanf path.bytes).directory := by
    intro D hD hname
    obtain ⟨i, hi⟩ := List.getElem?_of_mem hD
    obtain ⟨D₁, hi₁, hkeeps₁⟩ := hR₁.spares.dirs i D hi
    exact hno D₁ (List.mem_of_getElem? hi₁) (hkeeps₁.dname.trans hname)
  refine .pure fun w₅ hR₅ =>
    .made rfl ⟨not_not.mp hcount, not_lt.mp hlen⟩ hno₀ (Ended.stable ?_ hR₅)
  exact ⟨Ghost.commit_pending, by rw [Ghost.commit_effects, heffects₄]; rfl⟩

variable (c k u path) in
/-- **`mkdir` next to others.** -/
theorem csc452Mkdir_runs (hw : World c.m c.v₀ w) (hstart : Ended c.t [] w)
    (hmine : c.mine = .dir (sscanf path.bytes).directory)
    (hother : c.other ≠ .dir (sscanf path.bytes).directory)
    (hframe : ∀ w w', c.frame.rel w w') :
    c.Runs (MkdirEnds c (sscanf path.bytes) w.1.fs) (csc452Mkdir u path) k w :=
  csc452Mkdir_runs_frame c k u path hw hstart hmine hother fun _ _ _ _ => hframe _ _

/-! ## `mknod` -/

theorem MknodRefused.stable {p : PathComp} {w' : State} (h : MknodRefused c.m p w.1.fs)
    (hmine : c.mine = .file p.directory p.key) (hR : c.R w w') :
    MknodRefused c.m p w'.1.fs := by
  rcases h with h | ⟨D, hD, hn, F, hF, hkey⟩ | ⟨D, hD, hn, hfull⟩ | h
  · exact .path h
  · obtain ⟨i, hi⟩ := List.getElem?_of_mem hD
    obtain ⟨j, hj⟩ := List.getElem?_of_mem hF
    obtain ⟨D', hi', hkeeps⟩ := hR.spares.dirs i D hi
    have hj' := (hkeeps.file j F hj (by rw [hmine, hn, hkey])).1
    exact .exist ⟨D', List.mem_of_getElem? hi', hkeeps.dname.trans hn, F,
      List.mem_of_getElem? hj', hkey⟩
  · obtain ⟨i, hi⟩ := List.getElem?_of_mem hD
    obtain ⟨D', hi', hkeeps⟩ := hR.spares.dirs i D hi
    exact .table ⟨D', List.mem_of_getElem? hi', hkeeps.dname.trans hn,
      hfull.trans hkeeps.length_le⟩
  · exact .disk (h.trans (Nat.add_le_add_right hR.spares.used_le 2))

/-- The entry of a new file. -/
def newEntry (p : PathComp) (b : ℕ) : File where
  fname := p.filename
  fext := p.extension
  fsize := 0
  blocks := [b]

/-- How `csc452_mknod` ends, for a directory it begins with. -/
inductive MknodEnds (c : Context) (p : PathComp) (D : Dir) (ret : ℤ) (k : Seen) (w : State) : Prop where
  /-- the file is made -/
  | made (hret : ret = 0)
    (hpath : p.count = 3 ∧ p.filename.length ≤ 8 ∧ p.extension.length ≤ 3)
    (hno : ∀ F ∈ D.files, F.key ≠ p.key) (hends : Ended c.t [.addFile p.directory (newFile p)] w)
  /-- it is not -/
  | refused (hret : ret < 0) (hwhy : MknodRefused c.m p w.1.fs) (hends : Ended c.t [] w)

/-- A directory block with the entry of a new file. -/
theorem DirBlock.mknod {entry entry' : Memory} {files : List File} {F : File} {b : ℕ}
    (h : DirBlock entry files) (hlen : files.length < maxFilesInDir)
    (hfname : Fits maxFilename F.fname) (hfext : Fits maxExtension F.fext) (hsize : F.fsize = 0)
    (hstart : F.start = b) (hb : b < 2 ^ 63)
    (hentry' : entry' = setLong (setLong (setString (setString entry
      (fnameOffset (intAt entry 0).toNat) F.fname) (fextOffset (intAt entry 0).toNat) F.fext)
      (fsizeOffset (intAt entry 0).toNat) 0) (fileStartOffset (intAt entry 0).toNat) b) :
    DirBlock (setInt entry' 0 (intAt entry' 0 + 1)) (files ++ [F]) := by
  have hcount : readLE entry' 0 4 = files.length := by
    rw [hentry', ← Bytes.readLE_congr (agreeOn_setLong ?_), ← Bytes.readLE_congr (agreeOn_setLong ?_),
      ← Bytes.readLE_congr (agreeOn_setString ?_), ← Bytes.readLE_congr (agreeOn_setString ?_)]
    · exact h.count
    all_goals simp only [fileStartOffset, fsizeOffset, fextOffset, fnameOffset]; omega
  have hint : intAt entry' 0 = files.length :=
    intAt_eq hcount (h.length_le.trans_lt (by decide))
  rw [hint, hentry', h.intAt_count, Int.toNat_natCast, ← hstart]
  exact h.append hlen hfname hfext hsize (hstart.symm ▸ hb)

/-- The last access of `csc452_mknod`: the entry goes to the disk, with the block that has
been handed out. -/
theorem addEntry_runs {i b : ℕ} {p : PathComp} {D D₁ : Dir} {files : List File}
    {entry entry' mem : Memory} (hw : World c.m c.v₀ w) (hi : w.1.fs.dirs[i]? = some D₁)
    (hname : D₁.dname = p.directory) (hpending : w.1.pending c.t = [b])
    (heffects : w.1.effects c.t = []) (hsaw : Saw k D₁.block blockSize mem)
    (hagree : AgreeOn (shift mem D₁.block) entry 0 blockSize) (hdir : DirBlock entry files)
    (hroom : files.length < maxFilesInDir)
    (hpath : p.count = 3 ∧ p.filename.length ≤ 8 ∧ p.extension.length ≤ 3) (hnoNul : p.NoNul)
    (hno : ∀ F ∈ D.files, F.key ≠ p.key) (hno₁ : ∀ F ∈ D₁.files, F.key ≠ p.key)
    (hmine : c.mine = .file p.directory p.key) (hother : c.other ≠ c.mine)
    (hframe : ∀ w fs' e d', c.frame.rel w (w.1.commit c.t fs' [] [e], d'))
    (hentry' : entry' = setLong (setLong (setString (setString entry
      (fnameOffset (intAt entry 0).toNat) p.filename) (fextOffset (intAt entry 0).toNat) p.extension)
      (fsizeOffset (intAt entry 0).toNat) 0) (fileStartOffset (intAt entry 0).toNat) b) :
    c.Runs (MknodEnds c p D)
      (fwriteStruct D₁.block (setInt entry' 0 (intAt entry' 0 + 1)) >>= fun _ => pure 0) k w := by
  have hmine₁ : c.mine = .file D₁.dname p.key := by rw [hmine, hname]
  refine fwriteStruct_bind hw fun w₂ hR₂ hw₂ hfresh => ?_
  -- the directory block is as it was when it was read
  obtain ⟨D₂, hi₂, hkeeps₂⟩ := hR₂.spares.dirs i D₁ hi
  have hmem₂ := List.mem_of_getElem? hi₂
  have hdir₂ : DirBlock entry D₂.files := by
    refine (hw₂.layout.dir D₂ hmem₂).congr ?_
    rw [hkeeps₂.block]
    exact (AgreeOn.shift.mpr (hfresh _ hsaw)).trans hagree
  have hlen₂ : D₂.files.length < maxFilesInDir := by
    have hcount := hdir.intAt_count.symm.trans hdir₂.intAt_count
    omega
  have hno₂ : ∀ F ∈ D₂.files, F.key ≠ p.key := hkeeps₂.fresh _ hmine₁ hno₁
  have hlayout₂ := hw₂.layout' c.t
  rw [hR₂.pending.trans hpending] at hlayout₂
  have hb : b < 2 ^ 31 := (hlayout₂.block_lt (List.mem_append_right _ List.mem_cons_self)).2.2
  have hblock₂ := hlayout₂.block_lt (List.mem_append_left _ (Layout.block_mem hmem₂))
  have hentry := hdir₂.mknod (F := newEntry p b) hlen₂
    ⟨hnoNul.filename, by simp only [newEntry, maxFilename]; omega⟩
    ⟨hnoNul.extension, by simp only [newEntry, maxExtension]; omega⟩ rfl rfl (hb.trans (by decide))
    hentry'
  have hput := fun s => rewrites_put (s := s) (d := w₂.2) (a := D₂.block)
    (by rw [hlayout₂.size]; exact hblock₂.2.1)
  have hcommit := Layout.addFile (F := newEntry p b) hlayout₂ hmem₂ rfl hno₂ (hput _).1
    (hentry.congr (hput _).2)
  rw [hkeeps₂.dname, hkeeps₂.block] at hcommit
  refine ⟨_, .commits hcommit ?_ (hframe _ _ _ _), fun k' _ => ?_⟩
  · exact fun heq => hother (heq.trans hmine₁.symm)
  refine .pure fun w₃ hR₃ => .made rfl hpath hno (Ended.stable ?_ hR₃)
  exact ⟨Ghost.commit_pending, by rw [Ghost.commit_effects, hR₂.effects, heffects, hname]; rfl⟩

variable (c k u path) in
/-- **`mknod` next to others**, in a directory that is there and in a frame that allows it to
link in its block. -/
theorem csc452Mknod_runs_frame {i : ℕ} {D : Dir} (hw : World c.m c.v₀ w) (hstart : Ended c.t [] w)
    (hi : w.1.fs.dirs[i]? = some D) (hname : D.dname = (sscanf path.bytes).directory)
    (hvisible : ∀ F ∈ D.files, toInt F.fsize ≠ -1)
    (hmine : c.mine = .file (sscanf path.bytes).directory
      (sscanf path.bytes).key)
    (hother : c.other ≠ c.mine)
    (hframe : ∀ w fs' e d', c.frame.rel w (w.1.commit c.t fs' [] [e], d')) :
    c.Runs (MknodEnds c (sscanf path.bytes) D) (csc452Mknod u path) k w := by
  have hnoNul := sscanf_noNul path.noNul
  generalize hp : sscanf path.bytes = p at *
  have hn : 0 ∉ D.dname := hname ▸ hnoNul.directory
  have hrefused : ∀ {k w₁ e}, c.R w w₁ → 0 < e → MknodRefused c.m p w₁.1.fs →
      c.Runs (MknodEnds c p D) (pure (-e)) k w₁ := by
    intro k w₁ e hR he hwhy
    exact .pure fun w₂ hR₂ =>
      .refused (by omega) (hwhy.stable hmine hR₂) (hstart.stable (hR.trans hR₂))
  rw [csc452Mknod]
  simp only [hp]
  split
  · next hcount => exact hrefused (.refl w) (by decide) (.path (.inl hcount))
  next hcount =>
  split
  · next hlen => exact hrefused (.refl w) (by decide) (.path (.inr hlen))
  next hlen =>
  rw [← hname]
  have hmine' : c.mine = .file D.dname p.key := by rw [hmine, hname]
  rcases Classical.em (∃ F ∈ D.files, F.key = p.key) with ⟨F, hF, hkey⟩ | hno
  · obtain ⟨j, hj⟩ := List.getElem?_of_mem hF
    refine fileExist_bind hw hi hn hnoNul.filename hnoNul.extension hj hkey (hkey ▸ hmine')
      fun w₁ k₁ hR₁ hw₁ => ?_
    rw [if_pos (hvisible F hF)]
    have hwhy : MknodRefused c.m p w.1.fs :=
      .exist ⟨D, List.mem_of_getElem? hi, hname, F, hF, hkey⟩
    exact hrefused hR₁ (by decide) (hwhy.stable hmine hR₁)
  have hno' : ∀ F ∈ D.files, F.key ≠ p.key :=
    fun F hF hkey => hno ⟨F, hF, hkey⟩
  refine fileExist_bind_fresh hw hi hn hnoNul.filename hnoNul.extension hmine' hno'
    fun w₁ k₁ hR₁ hw₁ => ?_
  rw [if_neg (by simp)]
  obtain ⟨D₁, hi₁, hkeeps₁⟩ := hR₁.spares.dirs i D hi
  rw [← hkeeps₁.dname]
  refine getDir_bind hw₁ hi₁ (hkeeps₁.dname ▸ hn)
    fun w₂ entry k₂ D₂ hR₂ hw₂ hi₂ hkeeps₂ hagree₂ hsaw₂ => ?_
  have hkeeps₂' := hkeeps₁.trans hkeeps₂
  have hdir₂ : DirBlock entry D₂.files :=
    (hw₂.layout.dir D₂ (List.mem_of_getElem? hi₂)).congr (by rwa [hkeeps₂.block])
  refine getRoot_bind' hw₂ fun w₃ root k₃ hR₃ hw₃ hroot₃ hkeep₃ => ?_
  obtain ⟨D₃, hi₃, hkeeps₃⟩ := hR₃.spares.dirs i D₂ hi₂
  have hkeeps₃' := hkeeps₂'.trans hkeeps₃
  have hmem₃ := List.mem_append_left (w₃.1.pending true ++ w₃.1.pending false)
    (Layout.block_mem (List.mem_of_getElem? hi₃))
  have hblock₃ := hw₃.layout.block_lt hmem₃
  have hlow := (hw₃.layout.blockAddress hmem₃).2
  rw [hroot₃.dirStart_eq hi₃ (by omega), fseek_natCast]
  have hblock : D₁.block = D₃.block := (hkeeps₃.block.trans hkeeps₂.block).symm
  rw [hblock] at hagree₂ hsaw₂
  have hR₃' := (hR₁.trans hR₂).trans hR₃
  have hsize : toSize (intAt entry 0) = D₂.files.length := by
    rw [hdir₂.intAt_count, toSize_natCast (hdir₂.length_le.trans_lt (by decide))]
  rw [hsize]
  split
  · next hfull =>
    refine hrefused hR₃' (by decide) (.table ⟨D₃, List.mem_of_getElem? hi₃, ?_, ?_⟩)
    · exact hkeeps₃'.dname.trans hname
    · exact le_trans hfull hkeeps₃.length_le
  next hroom =>
  refine nextFreeBlock_bind hw₃ (hR₃'.pending.trans hstart.pending)
    (fun w₄ k₄ hR₄ hw₄ hfull => ?_) fun w₄ k₄ hR₄ hw₄ hkeep₄ => ?_
  · rw [if_pos rfl]
    exact hrefused (hR₃'.trans hR₄) (by decide) (.disk hfull)
  rw [if_neg (natCast_ne_neg_one _)]
  obtain ⟨D₄, hi₄, hkeeps₄⟩ := hR₄.spares.dirs i D₃ hi₃
  have hkeeps₄' := hkeeps₃'.trans hkeeps₄
  have hsaw₄ := hkeep₄ _ _ _ (hkeep₃ _ _ _ hsaw₂ (.inr (by omega))) (.inl hblock₃.1)
  rw [← hkeeps₄.block] at hsaw₄ hagree₂ ⊢
  refine addEntry_runs hw₄ hi₄ (hkeeps₄'.dname.trans hname) Ghost.commit_pending ?_ hsaw₄ hagree₂
    hdir₂ (not_le.mp hroom) (by omega) hnoNul hno' (hkeeps₄'.fresh _ hmine' hno') hmine hother
    hframe rfl
  rw [allocState, Ghost.commit_effects, (hR₃'.trans hR₄).effects, hstart.effects]
  rfl

variable (c k u path) in
/-- **`mknod` next to others**, in a directory that is there. -/
theorem csc452Mknod_runs {i : ℕ} {D : Dir} (hw : World c.m c.v₀ w) (hstart : Ended c.t [] w)
    (hi : w.1.fs.dirs[i]? = some D) (hname : D.dname = (sscanf path.bytes).directory)
    (hvisible : ∀ F ∈ D.files, toInt F.fsize ≠ -1)
    (hmine : c.mine = .file (sscanf path.bytes).directory
      (sscanf path.bytes).key)
    (hother : c.other ≠ c.mine) (hframe : ∀ w w', c.frame.rel w w') :
    c.Runs (MknodEnds c (sscanf path.bytes) D) (csc452Mknod u path) k w :=
  csc452Mknod_runs_frame c k u path hw hstart hi hname hvisible hmine hother
    fun _ _ _ _ => hframe _ _

end Csc452.Fuse
