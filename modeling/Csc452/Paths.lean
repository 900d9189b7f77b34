import Csc452.DiskRuns
import Mathlib.Data.List.TakeWhile

/-!
# Paths

What the calls make of a path. They trust the number of components `sscanf`
assigns, and the literals between the conversions are not counted: a path may go
on behind the last component that is assigned, and the white space in front of
`%s` and behind it is lost. So the components do not determine the path.

They do for regular paths, and only for those (`parsedExactly_iff`): where a path
goes on behind the slash after its directory, there is a name in front of the
first dot, and behind the dot an extension without white space. With that, the
paths of two objects differ, and only the paths of directories are taken for
directories (`exact_iff`).
-/

namespace Csc452.Fuse

open Bytes (Memory HoldsString strcmpEq)
open ByteFile (Disk machine)

/-! ## The statement -/

/-- The path is what the components assigned say. -/
structure ParsedExactly (path : List UInt8) : Prop where
  /-- one component -/
  one : (sscanf path).count = 1 → path = 47 :: (sscanf path).directory
  /-- two of them -/
  two : (sscanf path).count = 2 → path = 47 :: ((sscanf path).directory ++
    47 :: (sscanf path).filename)
  /-- all three -/
  three : (sscanf path).count = 3 → path = 47 :: ((sscanf path).directory ++
    47 :: ((sscanf path).filename ++ 46 :: (sscanf path).extension))

/-- The root block, as a call reads it. -/
def rootOf (u : Uninit) (d : Disk) : Memory := Bytes.write u.struct 0 (d.read 0 blockSize)

/-- The path of the root, or of a directory in its table. -/
def DirectoryPath (u : Uninit) (d : Disk) (path : List UInt8) : Prop :=
  path = [47] ∨ ∃ n, path = 47 :: n ∧ ∃ i : ℕ, i < (intAt (rootOf u d) 0).toNat ∧
    HoldsString (rootOf u d) (dnameOffset i) n

/-- The calls treat a path as what it is. -/
structure Exact (path : CString) : Prop where
  /-- the components -/
  parsed : ParsedExactly path.bytes
  /-- `csc452_getattr` reports directories only -/
  getattr : ∀ u d, (machine.run (csc452Getattr u path) d).1 = (0, some Stat.dir) →
    DirectoryPath u d path.bytes
  /-- `csc452_readdir` lists directories only -/
  readdir : ∀ u d, (machine.run (csc452Readdir u path) d).1.1 = 0 → DirectoryPath u d path.bytes

/-- The call makes a directory or a file at the path, and there is a disk on which
it is accepted. -/
def Call.Makes (call : Call) (path : CString) : Prop :=
  (call = .mkdir path ∨ call = .mknod path) ∧ ∃ u d, (call.run u d).1 = 0

/-- Two paths do not name the same object, unless they are the same. -/
def Distinct (path path' : CString) : Prop :=
  ∀ call call' : Call, call.Makes path → call'.Makes path' → call.target = call'.target →
    path.bytes = path'.bytes

/-- If the path goes on behind the slash after its directory, there is a name. If
there is a dot behind that, there is an extension, without white space. -/
def Regular (path : List UInt8) : Prop :=
  ∀ directory tail, path = 47 :: (directory ++ 47 :: tail) → directory ≠ [] → 47 ∉ directory →
    tail ≠ [] ∧ tail.head? ≠ some 46 ∧
      ∀ filename extension, tail = filename ++ 46 :: extension → 46 ∉ filename →
        extension ≠ [] ∧ ∀ c ∈ extension, isSpace c = false

/-! ## Scanning up to a character -/

section scan

variable {c : UInt8} {l s rest : List UInt8}

theorem takeWhile_ne_append (h : c ∉ s) : (s ++ c :: rest).takeWhile (· ≠ c) = s := by
  have hs : ∀ a ∈ s, decide (a ≠ c) = true := fun a ha => decide_eq_true fun heq => h (heq ▸ ha)
  rw [List.takeWhile_append_of_pos hs, List.takeWhile_cons_of_neg (by simp), List.append_nil]

theorem dropWhile_ne_append (h : c ∉ s) : (s ++ c :: rest).dropWhile (· ≠ c) = c :: rest := by
  have hs : ∀ a ∈ s, decide (a ≠ c) = true := fun a ha => decide_eq_true fun heq => h (heq ▸ ha)
  rw [List.dropWhile_append_of_pos hs, List.dropWhile_cons_of_neg (by simp)]

theorem takeWhile_ne_self (h : c ∉ s) : s.takeWhile (· ≠ c) = s :=
  List.takeWhile_eq_self_iff.mpr fun _ ha => decide_eq_true fun heq => h (heq ▸ ha)

theorem dropWhile_ne_nil (h : c ∉ s) : s.dropWhile (· ≠ c) = [] :=
  List.dropWhile_eq_nil_iff.mpr fun _ ha => decide_eq_true fun heq => h (heq ▸ ha)

end scan

section sscanf

variable {path directory filename extension tail : List UInt8}

theorem scanExtension_eq (hne : extension ≠ []) (h : ∀ c ∈ extension, isSpace c = false) :
    scanExtension directory filename extension = ⟨3, directory, filename, extension⟩ := by
  have hdrop : extension.dropWhile isSpace = extension := by
    cases extension with
    | nil => rfl
    | cons c rest => rw [List.dropWhile_cons_of_neg (by simp [h c List.mem_cons_self])]
  have htake : extension.takeWhile (fun c => !isSpace c) = extension :=
    List.takeWhile_eq_self_iff.mpr fun c hc => by simp [h c hc]
  simp only [scanExtension, hdrop, htake, if_neg hne]

/-- The extension assigned has no white space. -/
theorem scanExtension_cases (directory filename rest : List UInt8) :
    scanExtension directory filename rest = ⟨2, directory, filename, []⟩ ∨
      ∃ extension, extension ≠ [] ∧ (∀ c ∈ extension, isSpace c = false) ∧
        scanExtension directory filename rest = ⟨3, directory, filename, extension⟩ := by
  rw [scanExtension]
  split
  · exact .inl rfl
  · next hne =>
    refine .inr ⟨_, hne, fun c hc => ?_, rfl⟩
    simpa using List.mem_takeWhile_imp hc

theorem scanFilename_nil : scanFilename directory [] = ⟨1, directory, [], []⟩ := rfl

theorem scanFilename_dot : scanFilename directory (46 :: tail) = ⟨1, directory, [], []⟩ := rfl

theorem scanFilename_name (hne : filename ≠ []) (h : 46 ∉ filename) :
    scanFilename directory filename = ⟨2, directory, filename, []⟩ := by
  simp only [scanFilename, takeWhile_ne_self h, dropWhile_ne_nil h, if_neg hne]

theorem scanFilename_extension (hne : filename ≠ []) (h : 46 ∉ filename) :
    scanFilename directory (filename ++ 46 :: tail) = scanExtension directory filename tail := by
  simp only [scanFilename, takeWhile_ne_append h, dropWhile_ne_append h, if_neg hne]

theorem sscanf_directory (hne : directory ≠ []) (h : 47 ∉ directory) :
    sscanf (47 :: directory) = ⟨1, directory, [], []⟩ := by
  simp only [sscanf, ne_eq, not_true_eq_false, if_false, if_neg hne, takeWhile_ne_self h,
    dropWhile_ne_nil h]

theorem sscanf_tail (hne : directory ≠ []) (h : 47 ∉ directory) :
    sscanf (47 :: (directory ++ 47 :: tail)) = scanFilename directory tail := by
  simp only [sscanf, ne_eq, not_true_eq_false, if_false, takeWhile_ne_append h,
    dropWhile_ne_append h, if_neg hne]
  rw [if_neg (by simp)]

/-- What a path can look like. -/
theorem path_cases (path : List UInt8) :
    (sscanf path).count ≤ 0 ∨
      ∃ directory, directory ≠ [] ∧ 47 ∉ directory ∧
        (path = 47 :: directory ∨ ∃ tail, path = 47 :: (directory ++ 47 :: tail)) := by
  rcases path with _ | ⟨c, rest⟩
  · exact .inl (by decide)
  by_cases hc : c = 47
  · subst hc
    by_cases hslash : (47 : UInt8) ∈ rest
    · obtain ⟨directory, tail, rfl, hdir⟩ := List.eq_append_cons_of_mem hslash
      rcases eq_or_ne directory [] with rfl | hne
      · exact .inl (le_refl 0)
      · exact .inr ⟨directory, hne, hdir, .inr ⟨tail, rfl⟩⟩
    · rcases eq_or_ne rest [] with rfl | hne
      · exact .inl (by decide)
      · exact .inr ⟨rest, hne, hslash, .inl rfl⟩
  · refine .inl ?_
    rw [sscanf, if_pos hc]

/-- What can be behind the slash after the directory. -/
theorem tail_cases (tail : List UInt8) :
    (tail = [] ∨ tail.head? = some 46) ∨ (tail ≠ [] ∧ 46 ∉ tail) ∨
      ∃ filename rest, tail = filename ++ 46 :: rest ∧ filename ≠ [] ∧ 46 ∉ filename := by
  by_cases hdot : (46 : UInt8) ∈ tail
  · obtain ⟨filename, rest, rfl, hname⟩ := List.eq_append_cons_of_mem hdot
    rcases eq_or_ne filename [] with rfl | hne
    · exact .inl (.inr rfl)
    · exact .inr (.inr ⟨filename, rest, rfl, hne, hname⟩)
  · rcases eq_or_ne tail [] with rfl | hne
    · exact .inl (.inl rfl)
    · exact .inr (.inl ⟨hne, hdot⟩)

theorem scanFilename_count_one (h : tail = [] ∨ tail.head? = some 46) :
    scanFilename directory tail = ⟨1, directory, [], []⟩ := by
  rcases h with rfl | hhead
  · exact scanFilename_nil
  · obtain ⟨rest, rfl⟩ := List.head?_eq_some_iff.mp hhead
    exact scanFilename_dot

end sscanf

/-! ## What a request reads -/

section run

variable {α β : Type} {u : Uninit} {d d' : Disk} {n : List UInt8}

theorem run_pure (a : α) : machine.run (pure a) d = (a, d) := rfl

theorem run_bind_of {p : Request α} {f : α → Request β} {a : α}
    (h : machine.run p d = (a, d')) : machine.run (p >>= f) d = machine.run (f a) d' := by
  have hbind := Interference.Machine.run_bind (M := machine) p f d
  rw [h] at hbind
  exact hbind

theorem run_freadStruct {struct : Memory} {pos : ℕ} :
    machine.run (freadStruct struct pos) d = ((Bytes.write struct 0 (d.read pos blockSize),
      pos + (d.read pos blockSize).length), d) := rfl

theorem run_getRoot : machine.run (getRoot u) d = (rootOf u d, d) := rfl

/-- What `dir_exists` returns. -/
def dirOrderOf : Option ℕ → ℤ
  | some i => i
  | none => -1

theorem run_dirExists :
    machine.run (dirExists u n) d = (dirOrderOf (findDir (rootOf u d) n), d) := by
  rw [dirExists, run_bind_of run_getRoot]
  rcases findDir (rootOf u d) n with _ | i
  · rfl
  · rfl

/-- The block of the `i`-th directory, as a call reads it. -/
def entryOf (u : Uninit) (d : Disk) (i : ℕ) : Memory :=
  Bytes.write u.struct 0 (d.read (fseek 0 (dirStart u (rootOf u d) i)) blockSize)

theorem run_getDir_none (h : findDir (rootOf u d) n = none) :
    machine.run (getDir u n) d = ((u.struct, -1), d) := by
  rw [getDir, run_bind_of run_getRoot, run_bind_of run_dirExists, h, dirOrderOf, if_pos rfl,
    run_pure]

theorem run_getDir_some {i : ℕ} (h : findDir (rootOf u d) n = some i) :
    machine.run (getDir u n) d = ((entryOf u d i, (i : ℤ)), d) := by
  rw [getDir, run_bind_of run_getRoot, run_bind_of run_dirExists, h, dirOrderOf,
    if_neg (natCast_ne_neg_one i), run_bind_of run_freadStruct]
  rfl

theorem dirOrderOf_ne {o : Option ℕ} (h : dirOrderOf o ≠ -1) : ∃ i, o = some i := by
  cases o with
  | none => exact absurd rfl h
  | some i => exact ⟨i, rfl⟩

theorem findDir_holdsString {root : Memory} {i : ℕ} (h : findDir root n = some i) :
    i < (intAt root 0).toNat ∧ HoldsString root (dnameOffset i) n := by
  rw [findDir] at h
  have hmem := List.mem_of_find?_eq_some h
  have hname := List.find?_some h
  exact ⟨List.mem_range.mp hmem, Bytes.strcmpEq_iff.mp hname⟩

end run

/-! ## Regular paths -/

section regular

variable {path path' : CString} {n : List UInt8} {call : Call} {u : Uninit} {d : Disk}

/-- **Exactness.** The components determine the regular paths, and no others. -/
theorem parsedExactly_iff {path : List UInt8} : ParsedExactly path ↔ Regular path := by
  constructor
  · rintro ⟨hone, htwo, hthree⟩ directory tail rfl hne hdir
    rw [sscanf_tail hne hdir] at hone htwo hthree
    -- nothing is assigned behind the slash
    have hfirst : tail ≠ [] ∧ tail.head? ≠ some 46 := by
      rw [← not_or]
      intro hshort
      rw [scanFilename_count_one hshort] at hone
      simpa using hone rfl
    refine ⟨hfirst.1, hfirst.2, ?_⟩
    rintro filename rest rfl hname
    have hfilename : filename ≠ [] := by
      rintro rfl
      exact hfirst.2 rfl
    rw [scanFilename_extension hfilename hname] at htwo hthree
    rcases scanExtension_cases directory filename rest with heq | ⟨extension, hext, hspace, heq⟩
    · rw [heq] at htwo
      simpa using htwo rfl
    · rw [heq] at hthree
      obtain rfl : rest = extension := by simpa using hthree rfl
      exact ⟨hext, hspace⟩
  · intro h
    rcases path_cases path with hcount | ⟨directory, hne, hdir, rfl | ⟨tail, rfl⟩⟩
    · exact ⟨fun _ => by omega, fun _ => by omega, fun _ => by omega⟩
    · rw [← List.append_nil directory] at h
      refine ⟨fun _ => ?_, fun hcount => ?_, fun hcount => ?_⟩
      all_goals rw [sscanf_directory hne hdir] at *
      · cases hcount
      · cases hcount
    · obtain ⟨htail, hhead, hrest⟩ := h directory tail rfl hne hdir
      rcases tail_cases tail with hshort | ⟨hname, hdot⟩ | ⟨filename, rest, rfl, hname, hdot⟩
      · exact absurd hshort (not_or.mpr ⟨htail, hhead⟩)
      · refine ⟨fun hcount => ?_, fun _ => ?_, fun hcount => ?_⟩
        all_goals rw [sscanf_tail hne hdir, scanFilename_name hname hdot] at *
        · cases hcount
        · cases hcount
      · obtain ⟨hext, hspace⟩ := hrest filename rest rfl hdot
        refine ⟨fun hcount => ?_, fun hcount => ?_, fun _ => ?_⟩
        all_goals
          rw [sscanf_tail hne hdir, scanFilename_extension hname hdot,
            scanExtension_eq hext hspace] at *
        · cases hcount
        · cases hcount

/-- A call that is accepted assigned the components it names its object by. -/
theorem Call.Makes.count (h : call.Makes path) :
    call = .mkdir path ∧ (sscanf path.bytes).count = 1 ∨
      call = .mknod path ∧ (sscanf path.bytes).count = 3 := by
  obtain ⟨rfl | rfl, u, d, hret⟩ := h
  · refine .inl ⟨rfl, ?_⟩
    by_contra hcount
    have hrefused : csc452Mkdir u path = pure (-EPERM) := by rw [csc452Mkdir, if_pos hcount]
    rw [run, request, hrefused, run_pure] at hret
    cases hret
  · refine .inr ⟨rfl, ?_⟩
    by_contra hcount
    have hrefused : csc452Mknod u path = pure (-EPERM) := by rw [csc452Mknod, if_pos hcount]
    rw [run, request, hrefused, run_pure] at hret
    cases hret

theorem ParsedExactly.distinct (h : ParsedExactly path.bytes) (h' : ParsedExactly path'.bytes) :
    Distinct path path' := by
  intro call call' hcall hcall' htarget
  rcases hcall.count with ⟨rfl, hcount⟩ | ⟨rfl, hcount⟩
  · rcases hcall'.count with ⟨rfl, hcount'⟩ | ⟨rfl, hcount'⟩
    · have hdir := Target.dir.inj htarget
      simp only [Call.comp] at hdir
      rw [h.one hcount, h'.one hcount', hdir]
    · cases htarget
  · rcases hcall'.count with ⟨rfl, hcount'⟩ | ⟨rfl, hcount'⟩
    · cases htarget
    · obtain ⟨hdir, hkey⟩ := Target.file.inj htarget
      obtain ⟨hname, hext⟩ := Prod.mk.inj hkey
      simp only [Call.comp] at hdir hname hext
      rw [h.three hcount, h'.three hcount', hdir, hname, hext]

/-! ## Directories -/

theorem Stat.file_ne_dir (size : ℤ) : Stat.file size ≠ Stat.dir := by
  intro h
  cases congrArg Stat.mode h

/-- `csc452_getattr` reports a directory for the root and for a single component in
the table. -/
theorem getattr_dir (h : (machine.run (csc452Getattr u path) d).1 = (0, some Stat.dir)) :
    path.bytes = [47] ∨ (sscanf path.bytes).count = 1 ∧
      ∃ i, findDir (rootOf u d) (sscanf path.bytes).directory = some i := by
  rw [csc452Getattr] at h
  split at h
  · next hroot => exact .inl hroot
  dsimp only at h
  split at h
  · next hcount =>
    rw [run_bind_of run_dirExists] at h
    split at h
    · next hfound => exact .inr ⟨hcount, dirOrderOf_ne hfound⟩
    · cases h
  · split at h
    · rcases hsize : machine.run (fileExist u (sscanf path.bytes).directory
        (sscanf path.bytes).filename (sscanf path.bytes).extension (sscanf path.bytes).count) d
        with ⟨fsize, d'⟩
      rw [run_bind_of hsize] at h
      split at h
      · exact absurd (Option.some.inj (Prod.mk.inj h).2) (Stat.file_ne_dir fsize)
      · cases h
    · cases h

/-- So does `csc452_readdir`. -/
theorem readdir_dir (h : (machine.run (csc452Readdir u path) d).1.1 = 0) :
    path.bytes = [47] ∨ (sscanf path.bytes).count = 1 ∧
      ∃ i, findDir (rootOf u d) (sscanf path.bytes).directory = some i := by
  rw [csc452Readdir] at h
  split at h
  · next hroot => exact .inl hroot
  dsimp only at h
  split at h
  · next hcount =>
    rcases hfind : findDir (rootOf u d) (sscanf path.bytes).directory with _ | i
    · have hget := run_getDir_none hfind
      simp only [run_bind_of hget, if_true] at h
      cases h
    · exact .inr ⟨hcount, i, rfl⟩
  · cases h

theorem ParsedExactly.directoryPath (h : ParsedExactly path.bytes)
    (hdir : path.bytes = [47] ∨ (sscanf path.bytes).count = 1 ∧
      ∃ i, findDir (rootOf u d) (sscanf path.bytes).directory = some i) :
    DirectoryPath u d path.bytes := by
  rcases hdir with hroot | ⟨hcount, i, hfind⟩
  · exact .inl hroot
  · exact .inr ⟨_, h.one hcount, i, findDir_holdsString hfind⟩

/-- **Paths.** Two paths are treated as what they are exactly if both are regular: their
components make up the whole of them and only paths of directories are taken for directories,
on every disk (`Exact`), and paths that `csc452_mkdir` or `csc452_mknod` accepts are of
different objects if they differ (`Distinct`). -/
theorem exact_iff (path path' : CString) :
    (Exact path ∧ Exact path' ∧ Distinct path path') ↔
      Regular path.bytes ∧ Regular path'.bytes := by
  have hexact : ∀ {path : CString}, ParsedExactly path.bytes → Exact path := fun h =>
    ⟨h, fun _ _ hdir => h.directoryPath (getattr_dir hdir),
      fun _ _ hdir => h.directoryPath (readdir_dir hdir)⟩
  rw [← parsedExactly_iff, ← parsedExactly_iff]
  constructor
  · rintro ⟨h, h', -⟩
    exact ⟨h.parsed, h'.parsed⟩
  · rintro ⟨h, h'⟩
    exact ⟨hexact h, hexact h', h.distinct h'⟩

end regular

/-- A slash at the end is not noticed: `/d/` makes the directory `d`, and names it. -/
theorem trailing_slash :
    let u : Uninit := ⟨fun _ => 0, fun _ => 0⟩
    let path : CString := ⟨[47, 100], by decide⟩
    let path' : CString := ⟨[47, 100, 47], by decide⟩
    ¬ (Exact path ∧ Exact path' ∧ Distinct path path') ∧ ¬ Distinct path path' ∧
      (machine.run (csc452Getattr u path') ((Call.mkdir path).run u (zeroDisk 3)).2).1 =
        (0, some Stat.dir) := by
  intro u path path'
  have hmakes : (Call.mkdir path).Makes path ∧ (Call.mkdir path').Makes path' :=
    ⟨⟨.inl rfl, u, (zeroDisk 3), by decide +kernel⟩,
      ⟨.inl rfl, u, (zeroDisk 3), by decide +kernel⟩⟩
  have hsame : ¬ Distinct path path' := by
    intro h
    exact absurd (h _ _ hmakes.1 hmakes.2 rfl) (by decide)
  exact ⟨fun h => hsame h.2.2, hsame, by decide +kernel⟩

end Csc452.Fuse
