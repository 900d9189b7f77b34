import Csc452.StoreQueries

/-!
# The disk serves the store

Whatever is asked of the file system on a new disk, one request after the other, is
answered as the store answers it, and the store is what is on the disk then
(`serves_store`). In particular no answer depends on what the local variables of the calls
hold before they are set.

A call that fails leaves the store as it is, and one that does not takes the one effect it
is for. So what is left to show is which value is returned when.
-/

namespace Csc452.Fuse

open ByteFile (Disk machine)
open Services (Refines answers after Admits)

/-! ## Requests that change something -/

section changing

variable {m : ℕ} {d : Disk} {fs : Fs} {u : Uninit} {path : CString} {call : Call} {F : FileView}
  {buf : List UInt8} {offset : ℕ}

/-- The mark says which block is the next one. -/
theorem Layout.nextFreeOf_eq (h : Layout m d fs []) (u : Uninit) :
    nextFreeOf u d = (blockSize * (fs.used + 1) : ℕ) := by
  have hmark := markAddress_add h.two_le
  have hlt := h.size_lt
  have hused := h.used_le
  have htmp := longAt_read (s := u.struct) h.mark (by simp only [blockSize] at *; omega)
  rw [nextFreeOf, h.size, seekMark_eq h.two_le,
    ByteFile.Disk.read_eq (by rw [h.size]; simp only [blockSize] at *; omega), htmp, toLong, Int.bmod]
  simp only [blockSize] at *
  omega

theorem Layout.freeBlock_iff (h : Layout m d fs []) (u : Uninit) :
    FreeBlock u d ↔ (fs.view d.bytes).stored.HasBlock m := by
  rw [FreeBlock, h.nextFreeOf_eq u, h.size, Store.HasBlock, used_stored, ← h.used_eq]
  simp only [blockSize]
  omega

/-- A request for a block that gets one succeeds. -/
theorem Layout.run_allocate (h : Layout m d fs []) {k : ℤ → Request ℤ}
    (hk : ∀ a d', (machine.run (k a) d').1 = 0) :
    (machine.run (nextFreeBlock u >>= fun a => if a = -1 then pure (-EDQUOT) else k a) d).1 =
      if ¬ (fs.view d.bytes).stored.HasBlock m then -EDQUOT else 0 := by
  obtain ⟨hfull, -, hfree⟩ := Fuse.run_allocate (u := u) (d := d) hk
  by_cases hblock : FreeBlock u d
  · rw [if_neg (not_not.mpr ((h.freeBlock_iff u).mp hblock)),
      hfree hblock (by rw [h.nextFreeOf_eq u]; exact natCast_ne_neg_one _)]
  · rw [if_pos (fun hhas => hblock ((h.freeBlock_iff u).mpr hhas)), hfull hblock]

/-- A call that fails leaves the store as it is. -/
theorem Sound.refused (hs : Sound m d fs) (hparented : call.Parented (fs.view d.bytes))
    (hspace : ¬ call.OutOfSpace (fs.view d.bytes) (call.run u d).1)
    (hneg : (call.run u d).1 < 0) : Stores m (call.run u d).2 (fs.view d.bytes).stored := by
  obtain ⟨fs', hs', ⟨hret, -⟩ | ⟨-, hview⟩⟩ := hs.step hparented hspace
  · exact absurd hneg (not_lt.mpr hret)
  · exact ⟨fs', hs', by rw [hview]⟩

/-- A call that does not fail takes effect. -/
theorem Sound.effected (hs : Sound m d fs) (call : Call)
    (hparented : call.Parented (fs.view d.bytes))
    (hspace : ¬ call.OutOfSpace (fs.view d.bytes) (call.run u d).1)
    (hret : 0 ≤ (call.run u d).1) : ∃ es, call.respond (fs.view d.bytes) = some es ∧
      Stores m (call.run u d).2 (Effect.applyAll es (fs.view d.bytes)).stored := by
  obtain ⟨fs', hs', ⟨-, es, hes, hview⟩ | ⟨hneg, -⟩⟩ := hs.step hparented hspace
  · exact ⟨es, hes, fs', hs', by rw [hview]⟩
  · exact absurd hret (not_le.mpr hneg)

/-- The value `csc452_mkdir` returns. -/
theorem Sound.mkdir_ret (hs : Sound m d fs)
    (hfits : (sscanf path.bytes).directory.length ≤ maxFilename) :
    ((Call.mkdir path).run u d).1 =
      ((fs.view d.bytes).stored.mkdir m (sscanf path.bytes)).1 := by
  have hnoNul := sscanf_noNul path.noNul
  have hcountEq := (hs.layout.rootOf u).intAt_count
  have hlength : (fs.view d.bytes).stored.length = fs.dirs.length := by
    rw [View.length_stored, Fs.view, List.length_map]
  have hsmall := hs.layout.root.length_le.trans_lt (show maxDirsInRoot < 2 ^ 64 by decide)
  rw [show (Call.mkdir path).run u d = machine.run (csc452Mkdir u path) d from rfl, csc452Mkdir,
    Store.mkdir]
  dsimp only
  generalize sscanf path.bytes = p at *
  by_cases hcount : p.count ≠ 1
  · rw [if_pos hcount, if_pos hcount, run_pure]
  rw [if_neg hcount, if_neg hcount,
    if_neg (show ¬ p.directory.length > 8 from not_lt.mpr hfits), run_bind_of run_dirExists,
    dir?_stored]
  rcases hs.layout.findDir_cases u hnoNul.directory with ⟨hdir, hv⟩ | ⟨i, D, hdir, -, hv⟩
  · rw [hdir, hv, dirOrderOf, if_neg (not_not.mpr rfl), run_bind_of run_getRoot, hcountEq, hlength,
      toSize_natCast hsmall, Option.map_none, Option.isSome_none, if_neg Bool.false_ne_true]
    by_cases hfull : fs.dirs.length ≥ maxDirsInRoot
    · rw [if_pos hfull, if_pos hfull, run_pure]
    · rw [if_neg hfull, if_neg hfull, hs.layout.run_allocate fun a d' => rfl]
      split <;> rfl
  · rw [hdir, hv, dirOrderOf, if_pos (natCast_ne_neg_one i), run_pure]
    rfl

/-- Either a directory is added, or nothing changes. -/
theorem Store.mkdir_cases (m : ℕ) (s : Store) (p : PathComp) :
    ((s.mkdir m p).1 < 0 ∧ (s.mkdir m p).2 = s) ∨
      ((s.mkdir m p).1 = 0 ∧ (s.mkdir m p).2 = s ++ [⟨p.directory, []⟩]) := by
  rw [Store.mkdir]
  split_ifs
  · exact .inl ⟨show -EPERM < 0 by decide, rfl⟩
  · exact .inl ⟨show -EEXIST < 0 by decide, rfl⟩
  · exact .inl ⟨show -ENOSPC < 0 by decide, rfl⟩
  · exact .inr ⟨rfl, rfl⟩
  · exact .inl ⟨show -EDQUOT < 0 by decide, rfl⟩

/-- `csc452_mkdir` -/
theorem Sound.mkdir (hs : Sound m d fs)
    (hfits : (sscanf path.bytes).directory.length ≤ maxFilename) :
    Stores m ((Call.mkdir path).run u d).2
      ((fs.view d.bytes).stored.mkdir m (sscanf path.bytes)).2 := by
  have hret := hs.mkdir_ret (u := u) hfits
  rcases Store.mkdir_cases m (fs.view d.bytes).stored (sscanf path.bytes) with
    ⟨hneg, hsame⟩ | ⟨hzero, hadded⟩
  · rw [hsame]
    exact hs.refused trivial not_false (hret ▸ hneg)
  · obtain ⟨es, hes, hstores⟩ := hs.effected (u := u) (.mkdir path) trivial not_false
      (hret.trans hzero).ge
    obtain ⟨-, hes⟩ := Option.ite_none_right_eq_some.mp hes
    obtain rfl := Option.some.inj hes
    rw [hadded]
    rwa [Effect.applyAll_singleton, Effect.apply, View.stored, List.map_append] at hstores

/-- The value `csc452_mknod` returns, in a directory that is there. -/
theorem Sound.mknod_ret (hs : Sound m d fs)
    (hfits : (sscanf path.bytes).filename.length ≤ maxFilename ∧
      (sscanf path.bytes).extension.length ≤ maxExtension)
    (hok : (sscanf path.bytes).count = 3 →
      ((fs.view d.bytes).stored.dir? (sscanf path.bytes).directory).isSome) :
    ((Call.mknod path).run u d).1 =
      ((fs.view d.bytes).stored.mknod m (sscanf path.bytes)).1 := by
  have hnoNul := sscanf_noNul path.noNul
  rw [show (Call.mknod path).run u d = machine.run (csc452Mknod u path) d from rfl, csc452Mknod,
    Store.mknod]
  dsimp only
  generalize sscanf path.bytes = p at *
  by_cases hcount : p.count ≠ 3
  · rw [if_pos hcount, if_pos hcount, run_pure]
  have hexist := hs.layout.run_fileExist u 3 hnoNul.directory hnoNul.filename hnoNul.extension
  rw [first?_three] at hexist
  rw [if_neg hcount, if_neg hcount, if_neg (show ¬ (p.filename.length > 8 ∨ p.extension.length > 3)
    from not_or.mpr ⟨not_lt.mpr hfits.1, not_lt.mpr hfits.2⟩), run_bind_of hexist]
  have hok := hok (not_not.mp hcount)
  rw [dir?_stored] at hok ⊢
  rcases hs.layout.findDir_cases u hnoNul.directory with ⟨-, hv⟩ | ⟨i, D, hdir, hi, hv⟩
  · rw [hv] at hok
    exact absurd hok Bool.false_ne_true
  have hentry := hs.layout.entryOf hi u
  have hlength : (D.view d.bytes).stored.files.length = D.files.length := by
    rw [DirView.stored, Dir.view, List.length_map, List.length_map]
  have hsmall := hentry.length_le.trans_lt (show maxFilesInDir < 2 ^ 64 by decide)
  rw [View.file?, hv, Option.bind_some, Option.map_some]
  simp only [DirView.file?_stored]
  rcases hF : (D.view d.bytes).file? p.key with _ | F
  · rw [sizeOr, if_neg (not_not.mpr rfl), run_bind_of (run_getDir_some hdir)]
    dsimp only
    rw [run_bind_of run_getRoot, hentry.intAt_count, hlength, toSize_natCast hsmall,
      Option.map_none, Option.isSome_none, if_neg Bool.false_ne_true]
    by_cases hfull : D.files.length ≥ maxFilesInDir
    · rw [if_pos hfull, if_pos hfull, run_pure]
    · rw [if_neg hfull, if_neg hfull, hs.layout.run_allocate fun a d' => rfl]
      split <;> rfl
  · have hfile : (fs.view d.bytes).file? p.directory p.key = some F := by
      rw [View.file?, hv, Option.bind_some, hF]
    obtain ⟨D', hD', -, hmem⟩ := View.mem_of_file? hfile
    rw [sizeOr, if_pos (hs.visible D' hD' F hmem), run_pure]
    rfl

/-- Either a file is added, or nothing changes. -/
theorem Store.mknod_cases (m : ℕ) (s : Store) (p : PathComp) :
    ((s.mknod m p).1 < 0 ∧ (s.mknod m p).2 = s) ∨
      ((s.mknod m p).1 = 0 ∧ (s.mknod m p).2 =
        s.modifyDir p.directory (· ++ [⟨p.filename, p.extension, [], 1⟩])) := by
  rw [Store.mknod]
  by_cases hcount : p.count ≠ 3
  · rw [if_pos hcount]
    exact .inl ⟨show -EPERM < 0 by decide, rfl⟩
  rw [if_neg hcount]
  cases s.dir? p.directory with
  | none => exact .inl ⟨show -ENOENT < 0 by decide, rfl⟩
  | some D =>
    dsimp only
    split_ifs
    · exact .inl ⟨show -EEXIST < 0 by decide, rfl⟩
    · exact .inl ⟨show -ENOSPC < 0 by decide, rfl⟩
    · exact .inr ⟨rfl, rfl⟩
    · exact .inl ⟨show -EDQUOT < 0 by decide, rfl⟩

/-- A new file, as the store sees it. -/
theorem newFile_stored (p : PathComp) :
    (newFile p).stored = ⟨p.filename, p.extension, [], 1⟩ := by
  rw [FileView.stored, FileView.contents, newFile, List.take_zero, List.length_replicate,
    Nat.div_self (by decide)]

/-- `csc452_mknod` -/
theorem Sound.mknod (hs : Sound m d fs)
    (hfits : (sscanf path.bytes).filename.length ≤ maxFilename ∧
      (sscanf path.bytes).extension.length ≤ maxExtension)
    (hok : (sscanf path.bytes).count = 3 →
      ((fs.view d.bytes).stored.dir? (sscanf path.bytes).directory).isSome) :
    Stores m ((Call.mknod path).run u d).2
      ((fs.view d.bytes).stored.mknod m (sscanf path.bytes)).2 := by
  have hret := hs.mknod_ret (u := u) hfits hok
  have hparented : (Call.mknod path).Parented (fs.view d.bytes) := by
    intro hcount
    have hdir := hok hcount
    rw [dir?_stored, Option.isSome_map] at hdir
    exact Option.isSome_iff_ne_none.mp hdir
  rcases Store.mknod_cases m (fs.view d.bytes).stored (sscanf path.bytes) with
    ⟨hneg, hsame⟩ | ⟨hzero, hadded⟩
  · rw [hsame]
    exact hs.refused hparented not_false (hret ▸ hneg)
  · obtain ⟨es, hes, hstores⟩ := hs.effected (u := u) (.mknod path) hparented not_false
      (hret.trans hzero).ge
    obtain ⟨-, hes⟩ := Option.ite_none_right_eq_some.mp hes
    obtain rfl := Option.some.inj hes
    rw [Effect.applyAll_singleton, Effect.apply] at hstores
    rw [hadded]
    rwa [modifyDir_stored (g := (· ++ [(newFile (sscanf path.bytes)).stored]))
      fun files => List.map_append, newFile_stored] at hstores

/-- `csc452_write` inside a file, with room for all of it. -/
theorem Sound.write_inside (hs : Sound m d fs) (hcount : (sscanf path.bytes).count = 3)
    (hF : (fs.view d.bytes).file? (sscanf path.bytes).directory (sscanf path.bytes).key = some F)
    (hbuf : buf ≠ []) (hoffset : offset ≤ F.fsize)
    (hroom : (fs.view d.bytes).stored.HasRoom m F.stored (offset + buf.length)) :
    ((Call.write path buf offset).run u d).1 = buf.length ∧
      Stores m ((Call.write path buf offset).run u d).2 ((fs.view d.bytes).stored.modifyDir
        (sscanf path.bytes).directory (Store.replace (F.stored.written offset buf))) := by
  obtain ⟨-, hfsize, hlt, hsized⟩ := hs.stored_file hF
  obtain ⟨D, hD, -, hmem⟩ := View.mem_of_file? hF
  have hvisible := hs.visible D hD F hmem
  have hdvd := hs.layout.proper.data D hD F hmem
  have hcall := Call.respond_write_eq hcount hF hvisible hbuf (hfsize.symm ▸ hoffset)
  -- there is room among the blocks of the file and those that belong to nobody
  have hroom' : offset + buf.length ≤ F.data.length + dataSize * (m - 2 - fs.used) := by
    rw [Store.HasRoom, used_stored, ← hs.layout.used_eq, FileView.stored, Nat.mul_add,
      Nat.mul_div_cancel' hdvd] at hroom
    exact hroom
  have hsmall : offset + buf.length < 2 ^ 64 := by
    have hdata := hs.layout.data_lt hD hmem
    have hsize := hs.layout.size_lt
    simp only [dataSize, blockSize] at hroom' hsize
    omega
  have hret : ((Call.write path buf offset).run u d).1 = buf.length := by
    obtain ⟨x, F, hx, hname, hkey, rfl⟩ := file?_view hF
    rw [File.view, length_dataOf] at hsized hroom'
    exact (hs.layout.rewrote (u := u) hcount hx hname hkey hbuf hoffset hsized
      (by rw [Nat.mul_add]; exact hroom')).1
  have hpos : 0 ≤ ((Call.write path buf offset).run u d).1 := hret ▸ Int.natCast_nonneg _
  obtain ⟨es, hes, hstores⟩ := hs.effected (u := u) (.write path buf offset) trivial
    (fun hout => absurd hout.fails.2 (not_lt.mpr hpos)) hpos
  obtain rfl := Option.some.inj (hcall.symm.trans hes)
  refine ⟨hret, ?_⟩
  rw [Effect.applyAll_singleton, Effect.apply,
    modifyDir_stored fun files => replace_stored (F.written offset buf),
    FileView.written_stored hsized hdvd hoffset
      (FileView.written_fsize.trans (newSize_eq hlt hsmall))] at hstores
  exact hstores

/-- `csc452_write` -/
theorem Sound.write (hs : Sound m d fs)
    (hok : (Op.write path buf offset).Serviceable m (fs.view d.bytes).stored) :
    ((Call.write path buf offset).run u d).1 =
        ((fs.view d.bytes).stored.write m (sscanf path.bytes) buf offset).1 ∧
      Stores m ((Call.write path buf offset).run u d).2
        ((fs.view d.bytes).stored.write m (sscanf path.bytes) buf offset).2 := by
  have hnoNul := sscanf_noNul path.noNul
  have hrun : (Call.write path buf offset).run u d = machine.run (csc452Write u path buf offset) d :=
    rfl
  -- a request that is refused does nothing
  have hrefused : ∀ ret, machine.run (csc452Write u path buf offset) d = (ret, d) →
      ((Call.write path buf offset).run u d).1 = ret ∧
        Stores m ((Call.write path buf offset).run u d).2 (fs.view d.bytes).stored := by
    intro ret h
    rw [hrun, h]
    exact ⟨rfl, fs, hs, rfl⟩
  by_cases hcount : (sscanf path.bytes).count ≠ 3
  · rw [Store.write, if_neg hcount]
    refine hrefused _ ?_
    rw [csc452Write]
    dsimp only
    rw [hs.run_checks (fun ret => ret) _ hnoNul, if_neg hcount]
  have hcount := not_not.mp hcount
  have hexist := hs.layout.run_fileExist u 3 hnoNul.directory hnoNul.filename hnoNul.extension
  rw [first?_three] at hexist
  rw [Store.write, if_pos hcount, file?_stored]
  rcases hF : (fs.view d.bytes).file? (sscanf path.bytes).directory (sscanf path.bytes).key with
    _ | F
  · rw [hF] at hexist
    rw [Option.map_none, Store.missing_three hcount]
    refine hrefused _ ?_
    rw [csc452Write]
    dsimp only
    rw [hs.run_checks (fun ret => ret) _ hnoNul, if_pos hcount, run_bind_of hexist, sizeOr,
      if_pos rfl, run_pure]
  rw [hF] at hexist
  obtain ⟨hlength, hfsize, hlt, -⟩ := hs.stored_file hF
  have hstored : (fs.view d.bytes).stored.file? (sscanf path.bytes) = some F.stored := by
    rw [file?_stored, hF, Option.map_some]
  have hinside := hok.hasRoom hcount hstored
  simp only [Option.map_some, hlength] at hinside ⊢
  have hvisible : F.fsize ≠ toSize (-1) := by
    rw [toSize]
    omega
  rcases eq_or_ne buf [] with rfl | hbuf
  · rw [if_pos rfl]
    refine hrefused _ ?_
    rw [csc452Write]
    dsimp only
    rw [hs.run_checks (fun ret => ret) _ hnoNul, if_pos hcount, run_bind_of hexist, sizeOr, hfsize,
      if_neg hvisible, if_pos List.length_nil, run_pure]
  rw [if_neg hbuf]
  by_cases hoffset : F.fsize < offset
  · obtain ⟨r, hget⟩ := run_getDir u d (sscanf path.bytes).directory
    rw [if_pos (.inl hoffset)]
    refine hrefused _ ?_
    rw [csc452Write]
    dsimp only
    rw [hs.run_checks (fun ret => ret) _ hnoNul, if_pos hcount, run_bind_of hexist, sizeOr, hfsize,
      if_neg hvisible, if_neg (mt List.length_eq_zero_iff.mp hbuf), run_bind_of hget, if_pos hoffset,
      run_pure]
  · have hroom := hinside (not_lt.mp hoffset)
    rw [if_neg (not_or.mpr ⟨hoffset, not_not.mpr hroom⟩)]
    exact hs.write_inside hcount hF hbuf (not_lt.mp hoffset) hroom

end changing

/-! ## Runs -/

/-- Every entry of `csc452_oper` does to the disk what the service does to the store. -/
theorem disk_refines (m : ℕ) : Refines serveDisk (Store.serve m) Prod.snd
    (fun s op => op.Admitted m s) (Stores m) where
  served := by
    rintro d s ⟨u, op⟩ ⟨fs, hs, rfl⟩ hok
    cases op with
    | getattr path =>
      rw [serveDisk, Op.request, run_bind_of hs.getattr]
      exact ⟨rfl, fs, hs, rfl⟩
    | readdir path =>
      rw [serveDisk, Op.request, run_bind_of hs.readdir]
      exact ⟨rfl, fs, hs, rfl⟩
    | mkdir path =>
      have hrun : machine.run (csc452Mkdir u path) d = (Call.mkdir path).run u d := rfl
      rw [serveDisk, Op.request, run_bind_of hrun]
      exact ⟨congrArg Answer.code (hs.mkdir_ret hok.directory), hs.mkdir hok.directory⟩
    | read path size offset =>
      rw [serveDisk, Op.request, run_bind_of (hs.read hok.serviceable)]
      exact ⟨rfl, fs, hs, rfl⟩
    | write path buf offset =>
      have hrun : machine.run (csc452Write u path buf offset) d =
        (Call.write path buf offset).run u d := rfl
      obtain ⟨hret, hstores⟩ := hs.write (u := u) hok.serviceable
      rw [serveDisk, Op.request, run_bind_of hrun]
      exact ⟨congrArg Answer.code hret, hstores⟩
    | mknod path =>
      have hrun : machine.run (csc452Mknod u path) d = (Call.mknod path).run u d := rfl
      have hfits := And.intro hok.filename hok.extension
      rw [serveDisk, Op.request, run_bind_of hrun]
      exact ⟨congrArg Answer.code (hs.mknod_ret hfits hok.serviceable),
        hs.mknod hfits hok.serviceable⟩
    | truncate path size => exact ⟨rfl, fs, hs, rfl⟩
    | flush path => exact ⟨rfl, fs, hs, rfl⟩
    | opened path => exact ⟨rfl, fs, hs, rfl⟩
    | unlink path => exact ⟨rfl, fs, hs, rfl⟩
    | rmdir path => exact ⟨rfl, fs, hs, rfl⟩

/-- **The file system is the store.** On a disk that starts as zeros, requests the code can
serve are answered as the store answers them, whatever the local variables hold, and what is
on the disk afterwards is what is in the store. -/
theorem serves_store {m : ℕ} (hm : 2 ≤ m) (hlt : blockSize * m < 2 ^ 31)
    {requests : List (Uninit × Op)} (h : Admits (Store.serve m) (fun s op => op.Admitted m s) []
      (requests.map Prod.snd)) :
    answers serveDisk (zeroDisk m) requests = answers (Store.serve m) [] (requests.map Prod.snd) ∧
      (diskView m (after serveDisk (zeroDisk m) requests)).stored =
        after (Store.serve m) [] (requests.map Prod.snd) := by
  have hstart : Stores m (zeroDisk m) [] := ⟨_, Sound.zero hm hlt, rfl⟩
  refine ⟨(disk_refines m).answers_eq hstart h, ?_⟩
  obtain ⟨fs, hs, hstored⟩ := (disk_refines m).after_related hstart h
  rw [hs.layout.diskView_eq, hstored]

/-- A file is made, written over two blocks, cut off by a write in the middle, looked at and
read; then the disk is full. -/
theorem serves_store_full :
    let u : Uninit := ⟨fun _ => 0, fun _ => 0⟩
    let dir : CString := ⟨[47, 100], by decide⟩
    let file : CString := ⟨[47, 100, 47, 97, 46, 98], by decide⟩
    let other : CString := ⟨[47, 101], by decide⟩
    let requests := [Op.mkdir dir, .mknod file, .write file (List.replicate 600 65) 0,
      .write file [66, 67] 2, .getattr file, .read file 4 0, .readdir dir, .rmdir dir, .mkdir other]
    answers serveDisk (zeroDisk 5) (requests.map fun op => (u, op)) =
      answers (Store.serve 5) [] ((requests.map fun op => (u, op)).map Prod.snd) ∧
        (diskView 5 (after serveDisk (zeroDisk 5) (requests.map fun op => (u, op)))).stored =
          after (Store.serve 5) [] ((requests.map fun op => (u, op)).map Prod.snd) :=
  serves_store (by decide) (by decide) (by decide +kernel)

-- the blocks of the file stay its own, so there is none left for another directory
example :
    let dir : CString := ⟨[47, 100], by decide⟩
    let file : CString := ⟨[47, 100, 47, 97, 46, 98], by decide⟩
    let other : CString := ⟨[47, 101], by decide⟩
    answers (Store.serve 5) [] [.mkdir dir, .mknod file, .write file (List.replicate 600 65) 0,
        .write file [66, 67] 2, .getattr file, .read file 4 0, .readdir dir, .rmdir dir,
        .mkdir other] =
      [.code 0, .code 0, .code 600, .code 2, .attributes 0 (some (Stat.file 4)),
        .bytes 4 [65, 65, 66, 67], .names 0 [[97]], .code 0, .code (-EDQUOT)] := by
  decide +kernel

end Csc452.Fuse
