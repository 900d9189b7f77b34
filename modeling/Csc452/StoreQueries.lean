import Csc452.FileService
import Csc452.Slices

/-!
# The store on a disk

What a disk that is laid out stores, without where the blocks are and what is in them behind
the end of a file (`View.stored`), and what the requests that only look find: they are
answered as the store answers them (`Sound.getattr`, `Sound.readdir`, `Sound.read`).

The loops of the code go through tables in memory, and the store through lists. Both find the
first entry there is (`find?_table`).
-/

namespace Csc452.Fuse

open Bytes (Memory AgreeOn stringAt)
open ByteFile (Disk machine)

/-! ## What a view stores -/

/-- A file, without what is behind its end. -/
def FileView.stored (F : FileView) : StoredFile where
  fname := F.fname
  fext := F.fext
  contents := F.contents
  blocks := F.data.length / dataSize

/-- The files of a directory. -/
def DirView.stored (D : DirView) : StoredDir where
  dname := D.dname
  files := D.files.map FileView.stored

/-- All directories. -/
def View.stored (v : View) : Store := v.map DirView.stored

/-- The store is what is on a disk that is laid out. -/
structure Stores (m : ℕ) (d : Disk) (s : Store) : Prop where
  /-- what is on the disk -/
  stored : ∃ fs, Sound m d fs ∧ (fs.view d.bytes).stored = s

section stored

variable {v : View} {n : List UInt8} {key : List UInt8 × List UInt8} {D : DirView}
  {F : FileView} {p : PathComp} {files : List FileView}

@[simp] theorem View.length_stored (v : View) : v.stored.length = v.length := List.length_map _

theorem FileView.length_contents (h : F.fsize ≤ F.data.length) : F.stored.contents.length = F.fsize :=
  List.length_take_of_le h

theorem dir?_stored : v.stored.dir? n = (v.dir? n).map DirView.stored := by
  rw [Store.dir?, View.stored, List.find?_map]
  rfl

theorem DirView.file?_stored : D.stored.file? key = (D.file? key).map FileView.stored := by
  rw [StoredDir.file?, DirView.stored, List.find?_map]
  rfl

theorem file?_stored :
    v.stored.file? p = (v.file? p.directory p.key).map FileView.stored := by
  rw [Store.file?, dir?_stored, View.file?]
  cases v.dir? p.directory with
  | none => rfl
  | some D => exact DirView.file?_stored

theorem used_stored (v : View) : v.stored.used = v.blocks := by
  simp only [Store.used, View.stored, View.blocks, DirView.stored, List.map_map,
    Function.comp_def, FileView.stored]

/-- Changes of directories. -/
theorem modifyDir_stored {f : List FileView → List FileView} {g : List StoredFile → List StoredFile}
    (h : ∀ files, (f files).map FileView.stored = g (files.map FileView.stored)) :
    (View.modifyDir n f v).stored = v.stored.modifyDir n g := by
  simp only [View.stored, View.modifyDir, Store.modifyDir, List.map_map]
  refine List.map_congr_left fun D _ => ?_
  simp only [Function.comp_apply]
  rcases eq_or_ne D.dname n with hn | hn
  · rw [if_pos hn, if_pos (show D.stored.dname = n from hn)]
    simp only [DirView.stored, h]
  · rw [if_neg hn, if_neg (show D.stored.dname ≠ n from hn)]

theorem replace_stored (W : FileView) :
    (View.replace W files).map FileView.stored =
      Store.replace W.stored (files.map FileView.stored) := by
  simp only [View.replace, Store.replace, List.map_map]
  refine List.map_congr_left fun F _ => ?_
  simp only [Function.comp_apply]
  rcases eq_or_ne F.key W.key with hkey | hkey
  · rw [if_pos hkey, if_pos (show F.stored.key = W.stored.key from hkey)]
  · rw [if_neg hkey, if_neg (show F.stored.key ≠ W.stored.key from hkey)]

/-- The contents grow to the block with the last byte written, if they have to. -/
theorem blocks_splice {data buf : List UInt8} {offset : ℕ} (hdvd : dataSize ∣ data.length)
    (hoffset : offset ≤ data.length) : (splice data offset buf).length / dataSize =
      max (data.length / dataSize) ((offset + buf.length) ⌈/⌉ dataSize) := by
  have hpos : 0 < dataSize := by decide
  have hge := length_splice_ge data offset buf
  have hle := le_length_splice buf hoffset
  have hlt := length_splice_lt buf hoffset
  obtain ⟨p, hp⟩ := hdvd
  obtain ⟨q, hq⟩ := dvd_length_splice offset buf (hp ▸ Dvd.intro p rfl)
  rw [hp, hq] at hge hlt
  rw [hq] at hle
  have hpq : p ≤ q := Nat.le_of_mul_le_mul_left hge hpos
  have hceil : (offset + buf.length) ⌈/⌉ dataSize ≤ q := (ceilDiv_le_iff_le_mul hpos).mpr hle
  rw [hp, hq, Nat.mul_div_cancel_left _ hpos, Nat.mul_div_cancel_left _ hpos]
  refine le_antisymm ?_ (max_le hpq hceil)
  rcases hlt with hsame | hgrown
  · exact (Nat.eq_of_mul_eq_mul_left hpos hsame).le.trans (le_max_left _ _)
  · refine le_max_of_le_right ?_
    by_contra hshort
    have hend := (ceilDiv_le_iff_le_mul hpos).mp
      (Nat.le_sub_one_of_lt (not_le.mp hshort))
    have hblock : dataSize * (q - 1) + dataSize = dataSize * q := by
      rw [← Nat.mul_succ, Nat.succ_eq_add_one, Nat.sub_add_cancel]
      omega
    omega

/-- A write inside a file, as the store sees it. -/
theorem FileView.written_stored {offset : ℕ} {buf : List UInt8} (hsized : F.fsize ≤ F.data.length)
    (hdvd : dataSize ∣ F.data.length) (hoffset : offset ≤ F.fsize)
    (hsize : (F.written offset buf).fsize = offset + buf.length) :
    (F.written offset buf).stored = F.stored.written offset buf := by
  have hinside := hoffset.trans hsized
  have hcontents : (F.written offset buf).contents = F.contents.take offset ++ buf := by
    rw [FileView.contents, hsize, FileView.contents, List.take_take, min_eq_left hoffset,
      FileView.written, take_splice buf hinside]
  have hblocks : (F.written offset buf).data.length / dataSize =
      max (F.data.length / dataSize) ((offset + buf.length) ⌈/⌉ dataSize) := by
    rw [FileView.written, blocks_splice hdvd hinside]
  rw [FileView.stored, hcontents, hblocks]
  rfl

end stored

/-! ## What a request finds on a disk -/

section found

variable {m : ℕ} {d : Disk} {fs : Fs} {u : Uninit} {n fn fe : List UInt8} {i : ℕ} {D : Dir}

theorem Layout.rootOf (h : Layout m d fs []) (u : Uninit) : RootBlock (rootOf u d) fs.dirs := by
  have hpos : 0 + blockSize ≤ d.size := by
    rw [h.size, Nat.zero_add]
    exact Nat.le_mul_of_pos_right _ (Nat.zero_lt_two.trans_le h.two_le)
  have hagree : AgreeOn (Bytes.shift d.bytes 0) (Fuse.rootOf u d) 0 blockSize := by
    rw [Fuse.rootOf, ByteFile.Disk.read_eq hpos]
    exact Bytes.agreeOn_write_read.symm
  rw [Bytes.shift_zero] at hagree
  exact h.root.congr hagree

theorem Layout.entryOf (h : Layout m d fs []) (hi : fs.dirs[i]? = some D) (u : Uninit) :
    DirBlock (entryOf u d i) D.files := by
  have hD := List.mem_of_getElem? hi
  have hb := h.block_lt (List.mem_append_left _ (Layout.block_mem hD))
  refine (h.dir D hD).congr ?_
  rw [Fuse.entryOf, (h.rootOf u).dirStart_eq hi (hb.2.2.trans (by decide)), fseek_natCast,
    ByteFile.Disk.read_eq (h.size.symm ▸ hb.2.1)]
  exact Bytes.agreeOn_write_read.symm

/-- The loop of `dir_exists` finds what the view has. -/
theorem Layout.findDir_cases (h : Layout m d fs []) (u : Uninit) (hn : 0 ∉ n) :
    (findDir (Fuse.rootOf u d) n = none ∧ (fs.view d.bytes).dir? n = none) ∨
      ∃ i D, findDir (Fuse.rootOf u d) n = some i ∧ fs.dirs[i]? = some D ∧
        (fs.view d.bytes).dir? n = some (D.view d.bytes) := by
  rcases hfind : findDir (Fuse.rootOf u d) n with _ | i
  · exact .inl ⟨rfl, dir?_view_eq_none.mpr (findDir_eq_none (h.rootOf u) hn hfind)⟩
  · obtain ⟨D, hi, hname⟩ := findDir_eq_some (h.rootOf u) hn hfind
    refine .inr ⟨i, D, rfl, hi, ?_⟩
    rcases hv : (fs.view d.bytes).dir? n with _ | Dv
    · exact absurd hname (dir?_view_eq_none.mp hv D (List.mem_of_getElem? hi))
    · obtain ⟨i', D', hi', hname', rfl⟩ := dir?_view hv
      rw [h.dir_unique (List.mem_of_getElem? hi') (List.mem_of_getElem? hi)
        (hname'.trans hname.symm)]

/-- A loop that looks for the first entry of a table finds the first element of a list. -/
theorem find?_table {α : Type} {l : List α} {q : ℕ → Bool} {p : α → Bool}
    (h : ∀ j a, l[j]? = some a → q j = p a) :
    ((List.range l.length).find? q).bind (fun j => l[j]?) = l.find? p := by
  rcases hfind : (List.range l.length).find? q with _ | j
  · refine (List.find?_eq_none.mpr fun a ha => ?_).symm
    obtain ⟨j, hj, rfl⟩ := List.mem_iff_getElem.mp ha
    rw [← h j _ (List.getElem?_eq_getElem hj)]
    exact List.find?_eq_none.mp hfind j (List.mem_range.mpr hj)
  · obtain ⟨hq, hj, hbefore⟩ := List.find?_range_eq_some.mp hfind
    rw [List.mem_range] at hj
    rw [Option.bind_some, List.getElem?_eq_getElem hj]
    refine (List.find?_eq_some_iff_getElem.mpr
      ⟨by rw [← h j _ (List.getElem?_eq_getElem hj)]; exact hq, j, hj, rfl, fun k hk => ?_⟩).symm
    rw [← h k _ (List.getElem?_eq_getElem (hk.trans hj))]
    exact hbefore k hk

/-- The files `file_exist` looks for: the extension counts if the path has one. -/
def FileView.Matches (fn fe : List UInt8) (pathComp : ℤ) (F : FileView) : Prop :=
  F.fname = fn ∧ (pathComp = 3 → F.fext = fe)

instance (fn fe : List UInt8) (pathComp : ℤ) (F : FileView) : Decidable (F.Matches fn fe pathComp) :=
  inferInstanceAs (Decidable (_ ∧ _))

/-- The first of them in a directory. -/
def View.first? (v : View) (n fn fe : List UInt8) (pathComp : ℤ) : Option FileView :=
  (v.dir? n).bind fun D => D.files.find? fun F => F.Matches fn fe pathComp

/-- What `file_exist` returns. -/
def sizeOr : Option FileView → ℤ
  | some F => toInt F.fsize
  | none => -1

/-- The loop of `file_exist` finds the first of them. -/
theorem DirBlock.first_cases {entry : Memory} {files : List File} (mem : Memory) (pathComp : ℤ)
    (h : DirBlock entry files) (hfn : 0 ∉ fn) (hfe : 0 ∉ fe) :
    let loop := if pathComp = 3 then findFile entry fn fe else findFilename entry fn
    let first := (files.map (File.view mem)).find? fun F => F.Matches fn fe pathComp
    (loop = none ∧ first = none) ∨
      ∃ j F, loop = some j ∧ files[j]? = some F ∧ first = some (F.view mem) := by
  intro loop first
  -- both loops go through the table
  obtain ⟨q, hloop, hq⟩ : ∃ q : ℕ → Bool, loop = (List.range files.length).find? q ∧
      ∀ (j : ℕ) (F : File), files[j]? = some F →
        q j = decide ((F.view mem).Matches fn fe pathComp) := by
    by_cases hthree : pathComp = 3
    · refine ⟨_, (if_pos hthree).trans (by rw [findFile, h.intAt_count, Int.toNat_natCast]),
        fun j F hj => ?_⟩
      rw [Bool.eq_iff_iff, decide_eq_true_iff, (h.slot j F hj).strcmpEq hfn hfe, File.key,
        Prod.mk.injEq]
      exact and_congr_right fun _ => ⟨fun hext _ => hext, fun hext => hext hthree⟩
    · refine ⟨_, (if_neg hthree).trans (by rw [findFilename, h.intAt_count, Int.toNat_natCast]),
        fun j F hj => ?_⟩
      rw [Bool.eq_iff_iff, decide_eq_true_iff, Bytes.strcmpEq_eq (h.slot j F hj).fname hfn
        (h.slot j F hj).fnameFits.noNul]
      exact ⟨fun hname => ⟨hname.symm, fun hext => absurd hext hthree⟩, fun hname => hname.1.symm⟩
  have hfirst : first = (loop.bind fun j => files[j]?).map (File.view mem) := by
    rw [hloop, find?_table hq]
    exact List.find?_map
  rcases hj : loop with _ | j
  · exact .inl ⟨rfl, by rw [hfirst, hj]; rfl⟩
  · have hlt : j < files.length := List.mem_range.mp (List.mem_of_find?_eq_some (hloop.symm.trans hj))
    refine .inr ⟨j, files[j], rfl, List.getElem?_eq_getElem hlt, ?_⟩
    rw [hfirst, hj, Option.bind_some, List.getElem?_eq_getElem hlt, Option.map_some]

/-- `file_exist` on a disk that is laid out. -/
theorem Layout.run_fileExist (h : Layout m d fs []) (u : Uninit) (pathComp : ℤ) (hn : 0 ∉ n)
    (hfn : 0 ∉ fn) (hfe : 0 ∉ fe) : machine.run (fileExist u n fn fe pathComp) d =
      (sizeOr ((fs.view d.bytes).first? n fn fe pathComp), d) := by
  rw [fileExist, View.first?]
  rcases h.findDir_cases u hn with ⟨hdir, hv⟩ | ⟨i, D, hdir, hi, hv⟩
  · rw [run_bind_of (run_getDir_none hdir), hv]
    rfl
  · have hentry := h.entryOf hi u
    rw [run_bind_of (run_getDir_some hdir), hv, Option.bind_some]
    dsimp only
    rw [if_neg (natCast_ne_neg_one i), Dir.view]
    rcases hentry.first_cases d.bytes pathComp hfn hfe with ⟨hloop, hfirst⟩ |
      ⟨j, F, hloop, hj, hfirst⟩
    · rw [hloop, hfirst]
      rfl
    · have hsize : sizeAt (Fuse.entryOf u d i) (fsizeOffset j) = F.fsize :=
        (hentry.slot j F hj).fsize
      rw [hloop, hfirst, sizeOr, File.view_fsize, ← hsize, run_pure]

end found

/-! ## Requests that look -/

section looking

variable {m : ℕ} {d : Disk} {fs : Fs} {u : Uninit} {path : CString} {v : View} {p : PathComp}
  {F : FileView} {n fn fe : List UInt8} {pathComp : ℤ}

theorem first?_three : v.first? p.directory p.filename p.extension 3 = v.file? p.directory p.key := by
  rw [View.first?, View.file?]
  refine congrArg (Option.bind _) (funext fun D => congrArg (fun q => List.find? q D.files)
    (funext fun F => decide_eq_decide.mpr ?_))
  rw [FileView.Matches, FileView.key, PathComp.key, Prod.mk.injEq]
  exact and_congr_right fun _ => ⟨fun hext => hext rfl, fun hext _ => hext⟩

theorem first?_name (h : pathComp ≠ 3) : (v.first? n fn fe pathComp).map FileView.stored =
    (v.stored.dir? n).bind fun D => D.named? fn := by
  rw [View.first?, dir?_stored]
  rcases v.dir? n with _ | D
  · rfl
  · rw [Option.bind_some, Option.map_some, Option.bind_some, StoredDir.named?, DirView.stored,
      List.find?_map]
    refine congrArg (fun q => (List.find? q D.files).map FileView.stored)
      (funext fun F => decide_eq_decide.mpr ?_)
    exact and_iff_left fun hthree => absurd hthree h

theorem sought?_stored (h : p.count = 2 ∨ p.count = 3) : v.stored.sought? p =
    (v.first? p.directory p.filename p.extension p.count).map FileView.stored := by
  rw [Store.sought?]
  rcases h with htwo | hthree
  · rw [if_pos htwo, first?_name (by rw [htwo]; decide)]
  · rw [if_neg (by rw [hthree]; decide), if_pos hthree, file?_stored, hthree, first?_three]

theorem mem_of_first? (h : v.first? n fn fe pathComp = some F) : ∃ D ∈ v, F ∈ D.files := by
  obtain ⟨D, hD, hF⟩ := Option.bind_eq_some_iff.mp h
  exact ⟨D, (View.dir?_eq_some hD).1, List.mem_of_find?_eq_some hF⟩

/-- The size of a file on a sound disk is that of its contents. -/
theorem Sound.sizeOr_eq (hs : Sound m d fs)
    (hF : (fs.view d.bytes).first? n fn fe pathComp = some F) :
    toInt F.fsize = F.stored.contents.length ∧ toInt F.fsize ≠ -1 := by
  obtain ⟨D, hD, hmem⟩ := mem_of_first? hF
  exact ⟨by rw [FileView.length_contents (hs.sized D hD F hmem), toInt_natCast (hs.fsize_lt hD hmem)],
    hs.visible D hD F hmem⟩

/-- `csc452_getattr` -/
theorem Sound.getattr (hs : Sound m d fs) : machine.run (csc452Getattr u path) d =
    ((fs.view d.bytes).stored.getattr (sscanf path.bytes) path, d) := by
  have hnoNul := sscanf_noNul path.noNul
  rw [csc452Getattr, Store.getattr]
  by_cases hroot : path.bytes = [47]
  · simp only [if_pos hroot]
    rfl
  simp only [if_neg hroot]
  generalize sscanf path.bytes = p at *
  by_cases hone : p.count = 1
  · simp only [if_pos hone, dir?_stored]
    rw [run_bind_of run_dirExists]
    rcases hs.layout.findDir_cases u hnoNul.directory with ⟨hdir, hv⟩ | ⟨i, D, hdir, -, hv⟩
    · rw [hdir, hv]
      rfl
    · rw [hdir, hv, dirOrderOf, if_pos (natCast_ne_neg_one i)]
      rfl
  simp only [if_neg hone]
  by_cases hfile : p.count = 2 ∨ p.count = 3
  · rw [if_pos hfile, run_bind_of (hs.layout.run_fileExist u p.count hnoNul.directory
      hnoNul.filename hnoNul.extension)]
    rw [sought?_stored hfile]
    rcases hfirst : (fs.view d.bytes).first? p.directory p.filename p.extension p.count with _ | F
    · rfl
    · obtain ⟨hsize, hvisible⟩ := hs.sizeOr_eq hfirst
      rw [sizeOr, if_pos hvisible, hsize]
      rfl
  · obtain ⟨htwo, hthree⟩ := not_or.mp hfile
    simp only [if_neg hfile, Store.sought?, if_neg htwo, if_neg hthree]
    rfl

/-- A loop that lists the names in a table. -/
theorem listNames_table {α : Type} {l : List α} {f : α → List UInt8} {block : Memory}
    {offset : ℕ → ℕ} (h : ∀ j a, l[j]? = some a → Bytes.HoldsString block (offset j) (f a) ∧
      0 ∉ f a ∧ (f a).length < blockSize - offset j) :
    listNames block offset l.length = l.map f := by
  rw [listNames, Int.toNat_natCast, ← List.length_map (f := f)]
  refine range_map_eq fun j a hj => ?_
  rw [List.getElem?_map] at hj
  obtain ⟨a', ha', rfl⟩ := Option.map_eq_some_iff.mp hj
  obtain ⟨hholds, hnoNul, hlt⟩ := h j a' ha'
  exact hholds.stringAt_eq hnoNul hlt

theorem Layout.listNames_root (h : Layout m d fs []) (u : Uninit) :
    listNames (Fuse.rootOf u d) dnameOffset (intAt (Fuse.rootOf u d) 0) =
      (fs.view d.bytes).stored.map StoredDir.dname := by
  have hroot := h.rootOf u
  rw [hroot.intAt_count, listNames_table (f := Dir.dname) fun j D hj => ?_]
  · rw [Fs.view, View.stored, List.map_map, List.map_map]
    rfl
  · have hslot := hroot.slot j D hj
    have hlt := (List.getElem?_eq_some_iff.mp hj).1
    have hle := hroot.length_le
    have hlen := hslot.fits.length_le
    refine ⟨hslot.dname, hslot.fits.noNul, ?_⟩
    simp only [dnameOffset, maxDirsInRoot, blockSize, maxFilename] at *
    omega

theorem Layout.listNames_entry {i : ℕ} {D : Dir} (h : Layout m d fs [])
    (hi : fs.dirs[i]? = some D) (u : Uninit) :
    listNames (Fuse.entryOf u d i) fnameOffset (intAt (Fuse.entryOf u d i) 0) =
      (D.view d.bytes).stored.files.map StoredFile.fname := by
  have hentry := h.entryOf hi u
  rw [hentry.intAt_count, listNames_table (f := File.fname) fun j F hj => ?_]
  · rw [Dir.view, DirView.stored, List.map_map, List.map_map]
    rfl
  · have hslot := hentry.slot j F hj
    have hlt := fnameOffset_le (List.getElem?_eq_some_iff.mp hj).1 hentry.length_le
    have hlen := hslot.fnameFits.length_le
    refine ⟨hslot.fname, hslot.fnameFits.noNul, ?_⟩
    simp only [maxFilename] at hlen
    omega

/-- `csc452_readdir` -/
theorem Sound.readdir (hs : Sound m d fs) : machine.run (csc452Readdir u path) d =
    ((fs.view d.bytes).stored.readdir (sscanf path.bytes) path, d) := by
  have hnoNul := sscanf_noNul path.noNul
  rw [csc452Readdir, Store.readdir]
  by_cases hroot : path.bytes = [47]
  · simp only [if_pos hroot]
    rw [run_bind_of run_getRoot, run_pure, hs.layout.listNames_root u]
  simp only [if_neg hroot]
  generalize sscanf path.bytes = p at *
  by_cases hone : p.count = 1
  · simp only [if_pos hone, dir?_stored]
    rcases hs.layout.findDir_cases u hnoNul.directory with ⟨hdir, hv⟩ | ⟨i, D, hdir, hi, hv⟩
    · rw [run_bind_of (run_getDir_none hdir), hv]
      rfl
    · rw [run_bind_of (run_getDir_some hdir), hv]
      dsimp only
      rw [if_neg (natCast_ne_neg_one i), run_pure, hs.layout.listNames_entry hi u]
      rfl
  · simp only [if_neg hone]
    rfl

/-- What `csc452_read` and `csc452_write` check before they look for the file. -/
theorem Sound.run_checks {α : Type} (hs : Sound m d fs) (bad : ℤ → α) (k : Request α)
    (hnoNul : p.NoNul) :
    machine.run (do
      let dirOrder ← if p.count = 1 then dirExists u p.directory else pure (-1)
      if dirOrder ≠ -1 then pure (bad (-EISDIR))
      else if p.count ≠ 3 then pure (bad (-ENOENT))
      else k) d =
    if p.count = 3 then machine.run k d
    else (bad ((fs.view d.bytes).stored.missing p), d) := by
  rw [Store.missing, dir?_stored]
  by_cases hone : p.count = 1
  · have hthree : p.count ≠ 3 := by rw [hone]; decide
    rw [if_pos hone, run_bind_of run_dirExists, if_neg hthree]
    rcases hs.layout.findDir_cases u hnoNul.directory with ⟨hdir, hv⟩ | ⟨i, D, hdir, -, hv⟩
    · rw [hdir, hv, dirOrderOf]
      dsimp only
      rw [if_neg (not_not.mpr rfl), if_pos hthree, if_neg (by simp), run_pure]
    · rw [hdir, hv, dirOrderOf]
      dsimp only
      rw [if_pos (natCast_ne_neg_one i), if_pos ⟨hone, rfl⟩, run_pure]
  · rw [if_neg hone, pure_bind]
    dsimp only
    rw [if_neg (not_not.mpr rfl)]
    by_cases hthree : p.count = 3
    · rw [if_neg (not_not.mpr hthree), if_pos hthree]
    · rw [if_pos hthree, if_neg hthree, run_pure, if_neg (not_and_of_not_left _ hone)]

/-- The file of a path, as the store knows it. -/
theorem Sound.stored_file (hs : Sound m d fs)
    (hF : (fs.view d.bytes).file? p.directory p.key = some F) :
    F.stored.contents.length = F.fsize ∧ toSize (toInt F.fsize) = F.fsize ∧ F.fsize < 2 ^ 31 ∧
      F.fsize ≤ F.data.length := by
  obtain ⟨D, hD, -, hmem⟩ := View.mem_of_file? hF
  have hsized := hs.sized D hD F hmem
  exact ⟨FileView.length_contents hsized, hs.toSize_fsize hD hmem, hs.fsize_lt hD hmem, hsized⟩

/-- `csc452_read` of what is in a file. -/
theorem Sound.read_inside {size offset : ℕ} (hs : Sound m d fs)
    (hcount : (sscanf path.bytes).count = 3)
    (hF : (fs.view d.bytes).file? (sscanf path.bytes).directory (sscanf path.bytes).key = some F)
    (hsize : size ≠ 0) (hoffset : offset ≤ F.fsize) (hinside : offset = 0 ∨ offset + size ≤ F.fsize) :
    machine.run (csc452Read u path size offset) d =
      ((((slice F.contents offset size).length : ℤ), slice F.contents offset size), d) := by
  obtain ⟨-, -, hlt, hsized⟩ := hs.stored_file hF
  obtain ⟨x, F, hx, hname, hkey, rfl⟩ := file?_view hF
  obtain ⟨D, hi, hDname, -, hj⟩ := id hx
  rw [File.view_fsize] at hlt hsized hoffset hinside
  rw [File.view, length_dataOf] at hsized
  obtain ⟨a, post, s, hblocks, hagree, hrun, -⟩ := csc452Read_leads (u := u) hs.layout hcount
    (List.mem_of_getElem? hi) (List.mem_of_getElem? hj) (hDname.trans hname) hkey hlt hsize hoffset
  have hend : offset + min size F.fsize ≤ F.fsize := by omega
  obtain ⟨ops, hrest, -⟩ := readRest_performs (min size F.fsize) offset (a + blockSize) hs.layout hx
    hblocks hagree (hend.trans hsized)
  have hslice : slice (F.view d.bytes).contents offset size =
      slice (dataOf d.bytes F.blocks) offset (min size F.fsize) := by
    have hcontents : (F.view d.bytes).contents = (dataOf d.bytes F.blocks).take F.fsize := rfl
    rw [hcontents]
    rcases hinside with rfl | hinside
    · simp only [slice, List.drop_zero, List.take_take]
    · rw [min_eq_left (by omega), slice_take hinside]
  have hlength : (slice (dataOf d.bytes F.blocks) offset (min size F.fsize)).length =
      min size F.fsize := by
    rw [slice, List.length_take_of_le]
    rw [List.length_drop, length_dataOf]
    omega
  rw [hrun, hrest.run, hslice, hlength]

/-- `get_dir` changes nothing. -/
theorem run_getDir (u : Uninit) (d : Disk) (n : List UInt8) :
    ∃ r, machine.run (getDir u n) d = (r, d) := by
  rcases hdir : findDir (Fuse.rootOf u d) n with _ | i
  · exact ⟨_, run_getDir_none hdir⟩
  · exact ⟨_, run_getDir_some hdir⟩

/-- What a path without a file lacks. -/
theorem Store.missing_three {s : Store} (h : p.count = 3) : s.missing p = -ENOENT :=
  if_neg fun hone => absurd (hone.1.symm.trans h) (by decide)

/-- `csc452_read` -/
theorem Sound.read {size offset : ℕ} (hs : Sound m d fs)
    (hok : (Op.read path size offset).Serviceable m (fs.view d.bytes).stored) :
    machine.run (csc452Read u path size offset) d =
      ((fs.view d.bytes).stored.read (sscanf path.bytes) size offset, d) := by
  have hnoNul := sscanf_noNul path.noNul
  by_cases hcount : (sscanf path.bytes).count ≠ 3
  · rw [csc452Read]
    dsimp only
    rw [hs.run_checks (fun ret => (ret, [])) _ hnoNul, Store.read, if_neg hcount, if_neg hcount]
  have hcount := not_not.mp hcount
  have hexist := hs.layout.run_fileExist u 3 hnoNul.directory hnoNul.filename hnoNul.extension
  rw [first?_three] at hexist
  rw [Store.read, if_pos hcount, file?_stored]
  rcases hF : (fs.view d.bytes).file? (sscanf path.bytes).directory (sscanf path.bytes).key with
    _ | F
  · rw [hF] at hexist
    rw [csc452Read]
    dsimp only
    rw [hs.run_checks (fun ret => (ret, [])) _ hnoNul, if_pos hcount, run_bind_of hexist, sizeOr,
      if_pos rfl, run_pure, Option.map_none, Store.missing_three hcount]
  rw [hF] at hexist
  obtain ⟨hlength, hfsize, hlt, -⟩ := hs.stored_file hF
  have hstored : (fs.view d.bytes).stored.file? (sscanf path.bytes) = some F.stored := by
    rw [file?_stored, hF, Option.map_some]
  have hinside := hok.inside hcount hstored
  simp only [Option.map_some, hlength] at hinside ⊢
  have hvisible : F.fsize ≠ toSize (-1) := by
    rw [toSize]
    omega
  rcases eq_or_ne size 0 with rfl | hsize
  · rw [csc452Read]
    dsimp only
    rw [hs.run_checks (fun ret => (ret, [])) _ hnoNul, if_pos hcount, run_bind_of hexist, sizeOr,
      hfsize, if_neg hvisible, if_pos rfl, run_pure, if_pos rfl]
  rw [if_neg hsize]
  by_cases hoffset : F.fsize < offset
  · obtain ⟨r, hget⟩ := run_getDir u d (sscanf path.bytes).directory
    rw [csc452Read]
    dsimp only
    rw [hs.run_checks (fun ret => (ret, [])) _ hnoNul, if_pos hcount, run_bind_of hexist, sizeOr,
      hfsize, if_neg hvisible, if_neg hsize, run_bind_of hget, if_pos hoffset, run_pure,
      if_pos hoffset]
  · have hoffset := not_lt.mp hoffset
    rw [if_neg (not_lt.mpr hoffset)]
    exact hs.read_inside hcount hF hsize hoffset (hinside hoffset)

end looking

end Csc452.Fuse
