import Csc452.Paths
import Csc452.Splices

/-!
# What a read returns

A request to read a file, alone on a disk: what it returns, and every block it looks
at on the way (`Performs`). It walks along the chain of the file, and as long as what
it is asked for lies inside the file, it never gets to the end of the chain.

The number of bytes is cut down to the size of the file, not to what is behind the
offset. So a read that starts behind the first byte and ends behind the last one
returns more than there is (`slices_iff`).
-/

namespace Csc452.Fuse

open Bytes (Memory AgreeOn shift)
open ByteFile (Disk Access machine)
open Runs (Always Guarded)

/-! ## The statement -/

/-- What a read of `size` bytes at an offset should return, and look at: the bytes of
the file there are, and the blocks of the file, after it has been looked up twice. -/
structure Sliced (m : ℕ) (d : Disk) (p : PathComp) (F : FileView) (size offset : ℕ)
    (r : ℤ × List UInt8) (ops : List Access) : Prop where
  /-- the value returned -/
  ret : r.1 = (min size (F.fsize - offset) : ℕ)
  /-- as many bytes -/
  length : r.2.length = min size (F.fsize - offset)
  /-- the bytes -/
  bytes : r.2 = slice F.contents offset (min size (F.fsize - offset))
  /-- the blocks looked at -/
  chain : ∀ (x : Place) (F₀ : File), x.Holds F₀ (snapshot m d) → x.dname = p.directory →
    F₀.key = p.key → ∀ o ∈ ops.drop 6, ∃ b ∈ F₀.blocks, o = .read b blockSize

/-- On a disk, reads return what they should if and only if they start with the first
byte of the file or do not end behind the last one. -/
def SlicesIff (m : ℕ) (d : Disk) : Prop :=
  ∀ (u : Uninit) (path : CString) (size offset : ℕ) (F : FileView),
    (sscanf path.bytes).count = 3 →
    (diskView m d).file? (sscanf path.bytes).directory (sscanf path.bytes).key = some F →
    offset ≤ F.fsize →
      (Sliced m d (sscanf path.bytes) F size offset
          (machine.run (csc452Read u path size offset) d).1
          (machine.trace (csc452Read u path size offset) d) ↔
        offset = 0 ∨ offset + size ≤ F.fsize)

/-! ## Requests that only read -/

/-- A request returns a value and does not change the disk. On the way it performs the
operations listed. -/
structure Performs {α : Type} (d : Disk) (p : Request α) (a : α) (ops : List Access) : Prop where
  /-- the value, and the disk -/
  run : machine.run p d = (a, d)
  /-- the operations -/
  trace : machine.trace p d = ops

section performs

variable {α β : Type} {d : Disk} {ops ops' : List Access}

theorem Performs.pure (a : α) : Performs d (pure a) a [] := ⟨rfl, rfl⟩

theorem Performs.bind {p : Request α} {f : α → Request β} {a : α} {b : β} (h : Performs d p a ops)
    (h' : Performs d (f a) b ops') : Performs d (p >>= f) b (ops ++ ops') where
  run := (run_bind_of h.run).trans h'.run
  trace := by
    have hbind := Interference.Machine.trace_bind (M := machine) p f d
    rw [h.run, h.trace] at hbind
    rw [← h'.trace]
    exact hbind

/-- A request that does nothing more. -/
theorem Performs.last {p : Request α} {f : α → Request β} {a : α} {b : β} (h : Performs d p a ops)
    (hf : f a = Pure.pure b) : Performs d (p >>= f) b ops := by
  have hboth := h.bind (f := f) (b := b) (by rw [hf]; exact .pure b)
  rwa [List.append_nil] at hboth

/-- `fread` of a whole struct, from inside the disk. -/
theorem Performs.freadStruct {s : Memory} {pos : ℕ} (h : pos + blockSize ≤ d.size) :
    ∃ s', AgreeOn (shift d.bytes pos) s' 0 blockSize ∧
      Performs d (freadStruct s pos) (s', pos + blockSize) [.read pos blockSize] := by
  refine ⟨Bytes.write s 0 (d.read pos blockSize), ?_, ?_, rfl⟩
  · rw [ByteFile.Disk.read_eq h]
    exact Bytes.agreeOn_write_read.symm
  · rw [run_freadStruct, ByteFile.Disk.read_eq h, Bytes.length_read]

/-- A request gets to another one, by the operations listed. -/
structure Leads {α : Type} (d : Disk) (p q : Request α) (ops : List Access) : Prop where
  /-- they end in the same way -/
  run : machine.run p d = machine.run q d
  /-- the operations in front of those of the other one -/
  trace : machine.trace p d = ops ++ machine.trace q d

theorem Performs.leads {p : Request α} {f : α → Request β} {a : α} (h : Performs d p a ops) :
    Leads d (p >>= f) (f a) ops where
  run := run_bind_of h.run
  trace := by
    have hbind := Interference.Machine.trace_bind (M := machine) p f d
    rwa [h.run, h.trace] at hbind

theorem Leads.trans {p q r : Request α} (h : Leads d p q ops) (h' : Leads d q r ops') :
    Leads d p r (ops ++ ops') where
  run := h.run.trans h'.run
  trace := by rw [h.trace, h'.trace, List.append_assoc]

end performs

section read

variable {m : ℕ} {d : Disk} {fs : Fs} {x : Place} {F : File} {D : Dir} {u : Uninit}
  {path : CString} {pre post : List ℕ} {a n p beginIndex pos : ℕ} {s : Memory}
  {data : List UInt8} {size offset : ℕ}

/-! ## Along the chain -/

/-- The walk stays in the chain when it starts there. -/
theorem walk_performs (pos : ℕ) (cur : ℤ) (hl : Layout m d fs []) (hx : x.Holds F fs)
    (hsplit : F.blocks = pre ++ a :: post) (hs : AgreeOn (shift d.bytes a) s 0 blockSize)
    (hbegin : beginIndex ≤ dataSize * (post.length + 1)) :
    ∃ pos' cur' s' pre' a' post' beginIndex' ops,
      Performs d (walk pos cur s beginIndex) (pos', cur', s', beginIndex') ops ∧
        (∀ o ∈ ops, ∃ b ∈ F.blocks, o = .read b blockSize) ∧
        F.blocks = pre' ++ a' :: post' ∧ AgreeOn (shift d.bytes a') s' 0 blockSize ∧
        beginIndex' ≤ dataSize ∧
        dataSize * pre'.length + beginIndex' = dataSize * pre.length + beginIndex := by
  induction post generalizing pos cur s beginIndex pre a with
  | nil =>
    refine ⟨pos, cur, s, pre, a, [], beginIndex, [], ?_, by simp, hsplit, hs, by simpa using hbegin,
      rfl⟩
    rw [walk, dif_neg (by simp only [List.length_nil, dataSize] at hbegin
                          simp only [maxDataInBlock, blockSize]; omega)]
    exact .pure _
  | cons b post ih =>
    rw [walk]
    split
    · next hgt =>
      have hnext : longAt s nextOffset = b := longAt_next hl hx hsplit (readLE_next hl hx hsplit hs)
      have hmem : b ∈ F.blocks := by simp [hsplit]
      have hb := hl.block_lt (List.mem_append_left _ (hx.owned hmem))
      obtain ⟨s₁, hs₁, hread⟩ := Performs.freadStruct (s := s) (hl.size.symm ▸ hb.2.1)
      have hbegin' : beginIndex - maxDataInBlock ≤ dataSize * (post.length + 1) := by
        simp only [List.length_cons, maxDataInBlock, blockSize, dataSize] at *
        omega
      obtain ⟨pos', cur', s', pre', a', post', beginIndex', ops, hwalk, hops, hsplit', hs', hle,
        hsum⟩ := ih (b + blockSize) b (hsplit.trans (List.append_cons _ _ _)) hs₁ hbegin'
      refine ⟨pos', cur', s', pre', a', post', beginIndex', .read b blockSize :: ops, ?_, ?_,
        hsplit', hs', hle, ?_⟩
      · simp only [hnext, fseek_natCast]
        exact hread.bind hwalk
      · intro o ho
        rcases List.mem_cons.mp ho with rfl | ho
        · exact ⟨b, hmem, rfl⟩
        · exact hops o ho
      · rw [hsum, List.length_append, List.length_singleton]
        simp only [maxDataInBlock, blockSize, dataSize] at *
        omega
    · next hle =>
      refine ⟨pos, cur, s, pre, a, b :: post, beginIndex, [], .pure _, by simp, hsplit, hs, ?_, rfl⟩
      simp only [maxDataInBlock, blockSize, dataSize] at *
      omega

/-- So does the copying loop, when there is enough to copy. -/
theorem readLoop_performs (n pos : ℕ) (hl : Layout m d fs []) (hx : x.Holds F fs)
    (hsplit : F.blocks = pre ++ a :: post) (hs : AgreeOn (shift d.bytes a) s 0 blockSize)
    (hdata : dataOf d.bytes F.blocks = data) (hp : p = dataSize * pre.length + beginIndex)
    (hbegin : beginIndex ≤ dataSize) (hlen : p + n ≤ data.length) :
    ∃ ops, Performs d (readLoop n pos s beginIndex (maxDataInBlock - beginIndex)) (slice data p n)
      ops ∧ ∀ o ∈ ops, ∃ b ∈ F.blocks, o = .read b blockSize := by
  induction n generalizing pre a post s beginIndex p pos with
  | zero => exact ⟨[], .pure _, by simp⟩
  | succ n ih =>
    -- one byte from the block in memory, and the rest
    have hbyte : ∀ {pre₁ a₁ post₁ s₁ begin₁} pos₁, F.blocks = pre₁ ++ a₁ :: post₁ →
        AgreeOn (shift d.bytes a₁) s₁ 0 blockSize → p = dataSize * pre₁.length + begin₁ →
        begin₁ < dataSize →
        ∃ ops, Performs d (readLoop n pos₁ s₁ (begin₁ + 1) (maxDataInBlock - begin₁ - 1) >>=
          fun rest => pure (s₁ begin₁ :: rest)) (slice data p (n + 1)) ops ∧
            ∀ o ∈ ops, ∃ b ∈ F.blocks, o = .read b blockSize := by
      intro pre₁ a₁ post₁ s₁ begin₁ pos₁ hsplit₁ hs₁ hp₁ hlt
      have hhead : data[p]? = some (s₁ begin₁) := by
        rw [hp₁, ← hdata, hsplit₁, ← localData_self hs₁]
        exact getElem?_localData hlt
      have hp₁' : p + 1 = dataSize * pre₁.length + (begin₁ + 1) := by
        rw [hp₁]
        rfl
      obtain ⟨ops, hrest, hops⟩ := ih pos₁ hsplit₁ hs₁ hp₁' hlt (by omega)
      rw [Nat.sub_sub, slice_succ hhead]
      exact ⟨ops, hrest.last rfl, hops⟩
    rw [readLoop]
    rcases lt_or_eq_of_le hbegin with hlt | rfl
    · rw [if_neg (by simp only [maxDataInBlock, blockSize, dataSize] at *; omega), pure_bind]
      exact hbyte pos hsplit hs hp hlt
    · -- the end of the data: there is another block
      rw [if_pos (by simp only [maxDataInBlock, blockSize, dataSize])]
      have hlength : data.length = dataSize * (pre.length + (post.length + 1)) := by
        rw [← hdata, hsplit, length_dataOf, List.length_append, List.length_cons]
      rcases post with _ | ⟨b, post⟩
      · rw [List.length_nil] at hlength
        simp only [dataSize] at *
        omega
      have hnext : longAt s nextOffset = b := longAt_next hl hx hsplit (readLE_next hl hx hsplit hs)
      have hmem : b ∈ F.blocks := by simp [hsplit]
      have hb := hl.block_lt (List.mem_append_left _ (hx.owned hmem))
      obtain ⟨s₁, hs₁, hread⟩ := Performs.freadStruct (s := s) (hl.size.symm ▸ hb.2.1)
      have hp' : p = dataSize * (pre ++ [a]).length + 0 := by
        rw [hp, List.length_append, List.length_singleton]
        ring
      obtain ⟨ops, hrest, hops⟩ := hbyte (b + blockSize) (hsplit.trans (List.append_cons _ _ _)) hs₁
        hp' (by decide)
      rw [hnext, fseek_natCast]
      refine ⟨.read b blockSize :: ops, ?_, fun o ho => ?_⟩
      · exact hread.bind hrest
      rcases List.mem_cons.mp ho with rfl | ho
      · exact ⟨b, hmem, rfl⟩
      · exact hops o ho

/-! ## The request -/

/-- What `get_dir` reads for a directory that is there. -/
def lookup (D : Dir) : List Access :=
  [.read 0 blockSize, .read 0 blockSize, .read D.block blockSize]

theorem getDir_performs (hl : Layout m d fs []) (hD : D ∈ fs.dirs) :
    ∃ (entry : Memory) (i : ℕ), DirBlock entry D.files ∧
      Performs d (getDir u D.dname) (entry, (i : ℤ)) (lookup D) := by
  have hpos : 0 + blockSize ≤ d.size := by
    rw [hl.size, Nat.zero_add]
    exact Nat.le_mul_of_pos_right _ (Nat.zero_lt_two.trans_le hl.two_le)
  obtain ⟨root, hagree, hread⟩ := Performs.freadStruct (s := u.struct) hpos
  rw [Bytes.shift_zero] at hagree
  have hroot := hl.root.congr hagree
  have hget : Performs d (getRoot u) root [.read 0 blockSize] := hread.last rfl
  obtain ⟨j, hj⟩ := List.getElem?_of_mem hD
  have hnoNul := (hroot.slot j D hj).fits.noNul
  rcases hfind : findDir root D.dname with _ | i
  · exact absurd rfl (findDir_eq_none hroot hnoNul hfind D hD)
  obtain ⟨D', hi, hname⟩ := findDir_eq_some hroot hnoNul hfind
  obtain rfl := hl.dir_unique (List.mem_of_getElem? hi) hD hname
  have hexists : Performs d (dirExists u D'.dname) (i : ℤ) [.read 0 blockSize] := by
    refine hget.last ?_
    rw [hfind]
  have hb := hl.block_lt (List.mem_append_left _ (Layout.block_mem hD))
  obtain ⟨entry, hentry, hread'⟩ := Performs.freadStruct (s := u.struct) (hl.size.symm ▸ hb.2.1)
  refine ⟨entry, i, (hl.dir D' hD).congr hentry, ?_⟩
  rw [getDir]
  refine hget.bind (hexists.bind ?_)
  rw [if_neg (natCast_ne_neg_one i), hroot.dirStart_eq hi (hb.2.2.trans (by decide)), fseek_natCast]
  exact hread'.last rfl

theorem fileExist_performs (hl : Layout m d fs []) (hD : D ∈ fs.dirs) (hF : F ∈ D.files)
    (hnoNul : 0 ∉ F.fname ∧ 0 ∉ F.fext) :
    Performs d (fileExist u D.dname F.fname F.fext 3) (toInt F.fsize) (lookup D) := by
  obtain ⟨entry, i, hentry, hget⟩ := getDir_performs (u := u) hl hD
  obtain ⟨j, hj⟩ := List.getElem?_of_mem hF
  have hfind := findFile_eq hentry hnoNul.1 hnoNul.2 (hl.files_nodup D hD) hj rfl
  have hsize : sizeAt entry (fsizeOffset j) = F.fsize := (hentry.slot j F hj).fsize
  rw [fileExist]
  refine hget.last ?_
  simp only [if_neg (natCast_ne_neg_one i), if_true, hfind, hsize]

/-- What comes after the first block has been read. -/
def readRest (s : Memory) (pos size offset : ℕ) : Request (ℤ × List UInt8) :=
  walk pos 0 s (offset % 2 ^ 32) >>= fun r =>
    readLoop size r.1 r.2.2.1 r.2.2.2 (maxDataInBlock - r.2.2.2) >>= fun buf =>
      pure (toInt size, buf)

/-- A read of something looks the file up, twice, and reads its first block. -/
theorem csc452Read_leads (hl : Layout m d fs []) (hcount : (sscanf path.bytes).count = 3)
    (hD : D ∈ fs.dirs) (hF : F ∈ D.files) (hname : D.dname = (sscanf path.bytes).directory)
    (hkey : F.key = (sscanf path.bytes).key) (hlt : F.fsize < 2 ^ 31) (hsize : size ≠ 0)
    (hoffset : offset ≤ F.fsize) :
    ∃ a post s, F.blocks = a :: post ∧ AgreeOn (shift d.bytes a) s 0 blockSize ∧
      Leads d (csc452Read u path size offset) (readRest s (a + blockSize) (min size F.fsize) offset)
        (lookup D ++ (lookup D ++ [.read a blockSize])) := by
  obtain ⟨hfname, hfext⟩ := Prod.mk.inj hkey
  have hnoNul := sscanf_noNul path.noNul
  have hnoNul' : 0 ∉ F.fname ∧ 0 ∉ F.fext := by
    rw [hfname, hfext]
    exact ⟨hnoNul.filename, hnoNul.extension⟩
  have hexist := fileExist_performs (u := u) hl hD hF hnoNul'
  obtain ⟨entry, i, hentry, hget⟩ := getDir_performs (u := u) hl hD
  obtain ⟨j, hj⟩ := List.getElem?_of_mem hF
  have hfind := findFile_eq hentry hnoNul'.1 hnoNul'.2 (hl.files_nodup D hD) hj rfl
  have hslot := hentry.slot j F hj
  obtain ⟨i₀, hi₀⟩ := List.getElem?_of_mem hD
  have hx : Place.Holds ⟨i₀, D.dname, D.block, j⟩ F fs := ⟨D, hi₀, rfl, rfl, hj⟩
  obtain ⟨a, post, hblocks, hcur, ha⟩ := hx.first_block hl hslot
  obtain ⟨s, hs, hread⟩ := Performs.freadStruct (s := u.struct) (hl.size.symm ▸ ha)
  refine ⟨a, post, s, hblocks, hs, ?_⟩
  rw [hname, hfname, hfext] at hexist
  rw [hname] at hget
  rw [hfname, hfext] at hfind
  have hint := toSize_toInt_natCast hlt
  have hmin : (if size > F.fsize then F.fsize else size) = min size F.fsize := by
    rw [min_def]
    split <;> split <;> omega
  have hvisible : F.fsize ≠ toSize (-1) := by
    rw [toSize]
    omega
  rw [csc452Read]
  dsimp only
  rw [if_neg (by rw [hcount]; decide), pure_bind, if_neg (by simp), if_neg (by simp [hcount])]
  refine hexist.leads.trans ?_
  rw [hint, if_neg hvisible, if_neg hsize]
  refine hget.leads.trans ?_
  dsimp only
  rw [hfind, Option.getD_some, if_neg (not_lt.mpr hoffset), hcur, fseek_natCast]
  have hrest := hread.leads (f := fun r => readRest r.1 r.2 (min size F.fsize) offset)
  rw [← hmin] at hrest ⊢
  exact hrest

/-- A read of nothing only looks the file up. -/
theorem csc452Read_zero (u : Uninit) (offset : ℕ) (hl : Layout m d fs []) (hcount : (sscanf path.bytes).count = 3)
    (hD : D ∈ fs.dirs) (hF : F ∈ D.files) (hname : D.dname = (sscanf path.bytes).directory)
    (hkey : F.key = (sscanf path.bytes).key) (hlt : F.fsize < 2 ^ 31) :
    Performs d (csc452Read u path 0 offset) (0, []) (lookup D) := by
  obtain ⟨hfname, hfext⟩ := Prod.mk.inj hkey
  have hnoNul := sscanf_noNul path.noNul
  have hexist := fileExist_performs (u := u) hl hD hF
    (by rw [hfname, hfext]; exact ⟨hnoNul.filename, hnoNul.extension⟩)
  rw [hname, hfname, hfext] at hexist
  have hint := toSize_toInt_natCast hlt
  have hvisible : F.fsize ≠ toSize (-1) := by
    rw [toSize]
    omega
  rw [csc452Read]
  dsimp only
  rw [if_neg (by rw [hcount]; decide), pure_bind, if_neg (by simp), if_neg (by simp [hcount])]
  refine hexist.last ?_
  rw [hint, if_neg hvisible, if_pos rfl]

/-- What is inside the file is read. -/
theorem readRest_performs (n offset pos : ℕ) (hl : Layout m d fs []) (hx : x.Holds F fs) (hblocks : F.blocks = a :: post)
    (hs : AgreeOn (shift d.bytes a) s 0 blockSize) (hle : offset + n ≤ dataSize * F.blocks.length) :
    ∃ ops, Performs d (readRest s pos n offset) ((n : ℤ), slice (dataOf d.bytes F.blocks) offset n)
      ops ∧ ∀ o ∈ ops, ∃ b ∈ F.blocks, o = .read b blockSize := by
  have hsmall := hx.data_lt hl
  have hsplit : F.blocks = [] ++ a :: post := hblocks
  have hoffset : offset % 2 ^ 32 = offset := Nat.mod_eq_of_lt (by omega)
  have hinside : offset ≤ dataSize * (post.length + 1) := by
    rw [hblocks, List.length_cons] at hle
    omega
  obtain ⟨pos', cur', s', pre', a', post', begin', ops, hwalk, hops, hsplit', hs', hbegin, hsum⟩ :=
    walk_performs pos 0 hl hx hsplit hs hinside
  have hp : offset = dataSize * pre'.length + begin' := by simpa using hsum.symm
  obtain ⟨ops', hloop, hops'⟩ := readLoop_performs n pos' hl hx hsplit' hs' rfl hp hbegin
    (by rwa [length_dataOf])
  have hrest : Performs d (readRest s pos n offset)
      (toInt n, slice (dataOf d.bytes F.blocks) offset n) (ops ++ ops') := by
    rw [readRest, hoffset]
    exact hwalk.bind (hloop.last rfl)
  rw [toInt_natCast (show n < 2 ^ 31 by omega)] at hrest
  refine ⟨_, hrest, fun o ho => ?_⟩
  rcases List.mem_append.mp ho with ho | ho
  · exact hops o ho
  · exact hops' o ho

/-- What does not depend on the rest of a request. -/
theorem run_last {α β γ : Type} (p : Request α) (q : α → Request β) (z : γ) :
    (machine.run (p >>= fun r => q r >>= fun b => pure (z, b)) d).1.1 = z := by
  have hbind := Interference.Machine.run_bind (M := machine) p
    (fun r => q r >>= fun b => pure (z, b)) d
  have hbind' := Interference.Machine.run_bind (M := machine) (q (machine.run p d).1)
    (fun b => pure (z, b)) (machine.run p d).2
  exact congrArg (fun r => r.1.1) (hbind.trans hbind')

/-- The value returned does not depend on what is found. -/
theorem run_readRest : (machine.run (readRest s pos n offset) d).1.1 = toInt n :=
  run_last _ _ _

theorem Sound.slicesIff (hs : Sound m d fs) : SlicesIff m d := by
  intro u path size offset Fv hcount hfile hoffset
  have hl := hs.layout
  rw [hl.diskView_eq] at hfile
  obtain ⟨Dv, hDv, -, hmem⟩ := View.mem_of_file? hfile
  have hsized := hs.sized Dv hDv Fv hmem
  obtain ⟨x, F, hx, hname, hkey, rfl⟩ := file?_view hfile
  rw [File.view_fsize] at hsized hoffset ⊢
  rw [File.view, length_dataOf] at hsized
  have hlt : F.fsize < 2 ^ 31 := hsized.trans_lt (hx.data_lt hl)
  obtain ⟨D, hi, hDname, -, hj⟩ := id hx
  have hD := List.mem_of_getElem? hi
  have hF := List.mem_of_getElem? hj
  -- the blocks of the file are those of the place
  have hsame : ∀ (x' : Place) (F' : File), x'.Holds F' (snapshot m d) →
      x'.dname = (sscanf path.bytes).directory → F'.key = (sscanf path.bytes).key → F' = F := by
    rintro x' F' ⟨D', hi', hDname', -, hj'⟩ hname' hkey'
    rw [hl.snapshot_eq] at hi'
    obtain rfl := hl.dir_unique (List.mem_of_getElem? hi') hD
      ((hDname'.trans hname').trans (hDname.trans hname).symm)
    exact hl.file_unique hD (List.mem_of_getElem? hj') hF (hkey'.trans hkey.symm)
  rcases eq_or_ne size 0 with rfl | hsize
  · obtain ⟨hrun, htrace⟩ := csc452Read_zero u offset hl hcount hD hF (hDname.trans hname) hkey hlt
    rw [hrun, htrace]
    exact iff_of_true ⟨by simp, by simp, by simp [slice], by simp [lookup]⟩ (.inr hoffset)
  obtain ⟨a, post, s, hblocks, hagree, hrun, htrace⟩ := csc452Read_leads (u := u) hl hcount hD hF
    (hDname.trans hname) hkey hlt hsize hoffset
  rw [hrun, htrace]
  by_cases hinside : offset = 0 ∨ offset + size ≤ F.fsize
  · have hn : min size (F.fsize - offset) = min size F.fsize := by omega
    obtain ⟨ops, ⟨hrest, hrest'⟩, hops⟩ := readRest_performs (min size F.fsize) offset (a + blockSize)
      hl hx hblocks hagree (by omega)
    have hlen : offset + min size F.fsize ≤ F.fsize := by omega
    rw [hrest, hrest']
    refine iff_of_true ⟨?_, ?_, ?_, ?_⟩ hinside
    · rw [File.view_fsize, hn]
    · rw [File.view_fsize, hn, slice, List.length_take, List.length_drop, length_dataOf]
      omega
    · have hcontents : (F.view d.bytes).contents = (dataOf d.bytes F.blocks).take F.fsize := rfl
      rw [File.view_fsize, hn, hcontents, slice_take hlen]
    · intro x' F' hx' hname' hkey' o ho
      obtain rfl := hsame x' F' hx' hname' hkey'
      have ho : o ∈ Access.read a blockSize :: ops := ho
      rcases List.mem_cons.mp ho with rfl | ho
      · exact ⟨a, by simp [hblocks], rfl⟩
      · exact hops o ho
  · refine iff_of_false (fun h => ?_) hinside
    have hret := h.ret
    rw [run_readRest, toInt_natCast (by omega), File.view_fsize] at hret
    omega

end read

/-! ## Runs -/

/-- **A read is a slice**, after a run from a disk of zeros in which no write failed and files
were made in directories that are there (`Flawless`), if and only if it starts with the first
byte of the file or does not end behind the last one. Otherwise the number of bytes is that of
the file, not of what is left of it. -/
theorem slices_iff {m : ℕ} (hm : 2 ≤ m) (hlt : blockSize * m < 2 ^ 31)
    {calls : List (Uninit × Call)} (h : Guarded callStep (Flawless m) (zeroDisk m) calls) :
    Always callStep (SlicesIff m) (zeroDisk m) calls :=
  (sound_of_flawless hm hlt h).mono fun _ ⟨_, hs⟩ => hs.slicesIff

/-- A file of a block and one byte. -/
theorem slices_iff_one_byte :
    let u : Uninit := ⟨fun _ => 0, fun _ => 0⟩
    let dir : CString := ⟨[47, 100], by decide⟩
    let file : CString := ⟨[47, 100, 47, 97, 46, 98], by decide⟩
    Always callStep (SlicesIff 5) (zeroDisk 5)
      [(u, .mkdir dir), (u, .mknod file), (u, .write file (List.replicate 505 65) 0)] :=
  slices_iff (by decide) (by decide) (by decide +kernel)

/-- Two bytes asked for behind the first one of a file of two: the call returns both, the
second of which was never written. -/
theorem read_too_long :
    let u : Uninit := ⟨fun _ => 0, fun _ => 0⟩
    let dir : CString := ⟨[47, 100], by decide⟩
    let file : CString := ⟨[47, 100, 47, 97, 46, 98], by decide⟩
    let calls := [(u, Call.mkdir dir), (u, .mknod file), (u, .write file [65, 66] 0)]
    Guarded callStep (Flawless 5) (zeroDisk 5) calls ∧
      ¬ Always callStep (fun d => ∀ F,
        (diskView 5 d).file? (sscanf file.bytes).directory (sscanf file.bytes).key = some F →
          1 ≤ F.fsize → Sliced 5 d (sscanf file.bytes) F 2 1
            (machine.run (csc452Read u file 2 1) d).1 (machine.trace (csc452Read u file 2 1) d))
          (zeroDisk 5) calls := by
  intro u dir file calls
  refine ⟨by decide +kernel, fun halways => ?_⟩
  have hlast := ((halways.2 _ rfl).2 _ rfl).2 _ rfl
  generalize hd₃ : ((Call.write file [65, 66] 0).run u
    ((Call.mknod file).run u ((Call.mkdir dir).run u (zeroDisk 5)).2).2).2 = d₃ at hlast
  have hfacts : ((diskView 5 d₃).file? (sscanf file.bytes).directory (sscanf file.bytes).key).map
        FileView.fsize = some 2 ∧ (machine.run (csc452Read u file 2 1) d₃).1.1 = 2 := by
    rw [← hd₃]
    decide +kernel
  obtain ⟨htwo, hret⟩ := hfacts
  obtain ⟨F, hF, hsize⟩ := Option.map_eq_some_iff.mp htwo
  have hsliced := (hlast F hF (by omega)).ret
  rw [hret, hsize] at hsliced
  exact absurd hsliced (by decide)

end Csc452.Fuse
