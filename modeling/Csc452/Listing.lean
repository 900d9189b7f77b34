import Csc452.Paths

/-!
# Listings

`csc452_readdir` passes the name of each file on, without its extension. The path
made of a directory and a listed name is then looked up by `csc452_getattr`, which
makes do with the name, and by `csc452_read` and `csc452_write`, which want an
extension.

So the names of a directory lead back to its files only if there are none
(`resolves_iff`): the extension of a listed name, if `sscanf` finds one in it, is a
part of the stored name, and what is in front of it is not the whole of it
(`not_selects_listed`). A name without a dot, as `csc452_mknod` stores them, is refused
altogether (`refused_listed`).
-/

namespace Csc452.Fuse

open Bytes (Memory stringAt)
open ByteFile (Disk machine)
open Runs (Always)

/-! ## The statement -/

/-- The path of a directory that is there. -/
def ExistingDirectory (u : Uninit) (d : Disk) (path : CString) : Prop :=
  ∃ n, path.bytes = 47 :: n ∧ n ≠ [] ∧ 47 ∉ n ∧ ∃ k, findDir (rootOf u d) n = some k

/-- The names `csc452_readdir` passes to `filler`. -/
def listed (u : Uninit) (d : Disk) (path : CString) : List (List UInt8) :=
  (machine.run (csc452Readdir u path) d).1.2

/-- The block of a directory, as `get_dir` reads it. -/
def directoryBlock (u : Uninit) (d : Disk) (n : List UInt8) : Memory :=
  ((findDir (rootOf u d) n).map (entryOf u d)).getD u.struct

/-- The entry `csc452_read` and `csc452_write` look for. -/
def Selects (u : Uninit) (d : Disk) (file : CString) (i : ℕ) : Prop :=
  (sscanf file.bytes).count = 3 ∧ findFile (directoryBlock u d (sscanf file.bytes).directory)
    (sscanf file.bytes).filename (sscanf file.bytes).extension = some i

/-- The names a directory lists are distinct, and each leads back to its file. -/
structure Resolves (u : Uninit) (d : Disk) (path : CString) : Prop where
  /-- the names -/
  distinct : (listed u d path).Nodup
  /-- `csc452_getattr` reports the size in the entry -/
  getattr : ∀ i name, (listed u d path)[i]? = some name → ∀ file : CString,
    file.bytes = path.bytes ++ 47 :: name → (machine.run (csc452Getattr u file) d).1 =
      (0, some (Stat.file
        (sizeAt (directoryBlock u d (sscanf path.bytes).directory) (fsizeOffset i))))
  /-- `csc452_read` works on the entry -/
  read : ∀ i name, (listed u d path)[i]? = some name → ∀ file : CString,
    file.bytes = path.bytes ++ 47 :: name → Selects u d file i ∧
      ∀ size offset, (machine.run (csc452Read u file size offset) d).1.1 ≠ -ENOENT
  /-- `csc452_write` works on the entry -/
  write : ∀ i name, (listed u d path)[i]? = some name → ∀ file : CString,
    file.bytes = path.bytes ++ 47 :: name → Selects u d file i ∧
      ∀ buf offset, (machine.run (csc452Write u file buf offset) d).1 ≠ -ENOENT

section resolves

variable {u : Uninit} {d : Disk} {path file : CString} {n name : List UInt8} {i k : ℕ}

/-! ## The names -/

theorem directoryBlock_eq (hk : findDir (rootOf u d) n = some k) :
    directoryBlock u d n = entryOf u d k := by
  rw [directoryBlock, hk, Option.map_some, Option.getD_some]

theorem listed_eq (hpath : path.bytes = 47 :: n) (hne : n ≠ []) (hn : 47 ∉ n)
    (hk : findDir (rootOf u d) n = some k) :
    listed u d path = listNames (entryOf u d k) fnameOffset (intAt (entryOf u d k) 0) := by
  have hroot : path.bytes ≠ [47] := by
    rw [hpath]
    simpa using hne
  have hget := run_getDir_some hk
  rw [listed, csc452Readdir, if_neg hroot, hpath, sscanf_directory hne hn]
  simp only [if_true, run_bind_of hget, if_neg (natCast_ne_neg_one k), run_pure]

/-! ## Looking names up -/

/-- An entry is never found by the name it is listed with: in front of the extension
is only a part of it. -/
theorem not_selects_listed (hne : n ≠ []) (hn : 47 ∉ n) (hk : findDir (rootOf u d) n = some k)
    (hname : name = stringAt (entryOf u d k) (fnameOffset i) (blockSize - fnameOffset i))
    (hfile : file.bytes = 47 :: (n ++ 47 :: name)) : ¬ Selects u d file i := by
  rintro ⟨hcount, hfind⟩
  rw [hfile, sscanf_tail hne hn] at hfind
  rw [hfile, sscanf_tail hne hn] at hcount
  rcases tail_cases name with hshort | ⟨hname', hdot⟩ | ⟨filename, rest, hsplit, hname', hdot⟩
  · rw [scanFilename_count_one hshort] at hcount
    cases hcount
  · rw [scanFilename_name hname' hdot] at hcount
    cases hcount
  · rw [hsplit, scanFilename_extension hname' hdot] at hcount hfind
    rcases scanExtension_cases n filename rest with heq | ⟨extension, -, -, heq⟩
    · rw [heq] at hcount
      cases hcount
    rw [heq, directoryBlock_eq hk, findFile] at hfind
    have hboth := List.find?_some hfind
    have hholds : Bytes.HoldsString (entryOf u d k) (fnameOffset i) filename :=
      Bytes.strcmpEq_iff.mp (Bool.and_eq_true_iff.mp hboth).1
    -- the stored name is what is in front of the dot, and goes on behind it
    have hnoNul : 0 ∉ filename ++ 46 :: rest := by
      rw [← hsplit, hname]
      exact Bytes.stringAt_noNul
    have hlen : (filename ++ 46 :: rest).length ≤ blockSize - fnameOffset i := by
      rw [← hsplit, hname, stringAt]
      exact (List.takeWhile_prefix _).length_le.trans Bytes.length_read.le
    have hstored := hholds.stringAt_eq (n := blockSize - fnameOffset i)
      (fun hmem => hnoNul (List.mem_append_left _ hmem))
      (by rw [List.length_append, List.length_cons] at hlen; omega)
    rw [← hname, hsplit] at hstored
    simp at hstored

/-- A name without a dot is a path without an extension: there is nothing to read, and
nothing to write to. -/
theorem refused_listed (hne : n ≠ []) (hn : 47 ∉ n) (hname : name ≠ []) (hdot : 46 ∉ name)
    (hfile : file.bytes = 47 :: (n ++ 47 :: name)) :
    (∀ size offset, (machine.run (csc452Read u file size offset) d).1.1 = -ENOENT) ∧
      ∀ buf offset, (machine.run (csc452Write u file buf offset) d).1 = -ENOENT := by
  have hcount : (sscanf file.bytes).count = 2 := by
    rw [hfile, sscanf_tail hne hn, scanFilename_name hname hdot]
  have hone : (sscanf file.bytes).count ≠ 1 := by omega
  have hthree : (sscanf file.bytes).count ≠ 3 := by omega
  refine ⟨fun size offset => ?_, fun buf offset => ?_⟩
  · rw [csc452Read]
    simp only [if_neg hone, pure_bind, if_pos hthree, ne_eq, not_true_eq_false, if_false, run_pure]
  · rw [csc452Write]
    simp only [if_neg hone, pure_bind, if_pos hthree, ne_eq, not_true_eq_false, if_false, run_pure]

theorem ExistingDirectory.resolves (h : ExistingDirectory u d path) :
    Resolves u d path ↔ intAt (directoryBlock u d (sscanf path.bytes).directory) 0 ≤ 0 := by
  obtain ⟨n, hpath, hne, hn, k, hk⟩ := h
  have hlisted := listed_eq hpath hne hn hk
  rw [hpath, sscanf_directory hne hn, directoryBlock_eq hk]
  constructor
  · intro h
    by_contra hpos
    have hlt : 0 < (intAt (entryOf u d k) 0).toNat := by omega
    have hfirst : (listed u d path)[0]? = some
        (stringAt (entryOf u d k) (fnameOffset 0) (blockSize - fnameOffset 0)) := by
      rw [hlisted, listNames, List.getElem?_map, List.getElem?_range hlt, Option.map_some]
    have hnoNul : 0 ∉ path.bytes ++
        47 :: stringAt (entryOf u d k) (fnameOffset 0) (blockSize - fnameOffset 0) := by
      rw [List.mem_append, List.mem_cons, not_or, not_or]
      exact ⟨path.noNul, by decide, Bytes.stringAt_noNul⟩
    refine not_selects_listed hne hn hk rfl ?_ (h.read 0 _ hfirst ⟨_, hnoNul⟩ rfl).1
    simp only [hpath, List.cons_append]
  · intro hempty
    have hnil : listed u d path = [] := by
      rw [hlisted, listNames, Int.toNat_of_nonpos hempty]
      rfl
    refine ⟨by rw [hnil]; exact List.nodup_nil, ?_, ?_, ?_⟩
    all_goals
      intro i name hname
      rw [hnil] at hname
      cases hname

end resolves

/-- **Listings.** In every state that calls reach from a disk of zeros, whatever the calls and
what they return, the names a directory lists lead back to its files exactly if it has
none. The directory is any in the table of the root whose name can stand in a path
(`ExistingDirectory`). -/
theorem resolves_iff (m : ℕ) (calls : List (Uninit × Call)) :
    Always callStep (fun d => ∀ u path, ExistingDirectory u d path →
      (Resolves u d path ↔ intAt (directoryBlock u d (sscanf path.bytes).directory) 0 ≤ 0))
    (zeroDisk m) calls :=
  Runs.Guarded.trivial.always (fun _ _ h => h.resolves)
    fun _ _ _ _ _ _ _ _ h => h.resolves

/-- Two files that differ in the extension are listed under one name, and neither
can be read with it. -/
theorem listed_twice :
    let u : Uninit := ⟨fun _ => 0, fun _ => 0⟩
    let d : CString := ⟨[47, 100], by decide⟩
    let f : CString := ⟨[47, 100, 47, 97, 46, 98], by decide⟩
    let f' : CString := ⟨[47, 100, 47, 97, 46, 99], by decide⟩
    ¬ Always callStep (fun d => ∀ u path, ExistingDirectory u d path → Resolves u d path)
      (zeroDisk 5) [(u, .mkdir d), (u, .mknod f), (u, .mknod f')] := by
  intro u d f f' h
  have hlast := h.last rfl u d ⟨[100], rfl, by decide, by decide, 0, by decide +kernel⟩
  exact absurd hlast.distinct (by decide +kernel)

end Csc452.Fuse
