import Csc452.DiskLayout

/-!
# Editing the tables

What the code does to a table it has read into memory, before it writes it back:
`csc452_mkdir` appends an entry to the root block (`RootBlock.append`),
`csc452_mknod` one to a directory block (`DirBlock.append`), and `csc452_write`
sets the size in an entry (`DirBlock.setSize`). Entries do not overlap, so each
edit is seen in one entry and in the count.
-/

namespace Csc452.Fuse

open Bytes (Memory AgreeOn HoldsString readLE)

variable {s : Memory} {a b n : ℕ} {z : ℤ} {t : List UInt8}

/-! ## Setting a field -/

@[simp] theorem length_longBytes (z : ℤ) : (longBytes z).length = 8 := Bytes.length_toLE _ _

@[simp] theorem length_intBytes (z : ℤ) : (intBytes z).length = 4 := Bytes.length_toLE _ _

theorem toSize_natCast {n : ℕ} (h : n < 2 ^ 64) : toSize (n : ℤ) = n := by
  rw [toSize]
  omega

theorem toSize_lt (z : ℤ) : toSize z < 2 ^ 64 := by
  rw [toSize]
  omega

theorem readLE_setLong_self : readLE (setLong s a z) a 8 = toSize z := by
  rw [setLong, longBytes, Bytes.readLE_write_self]
  exact Nat.mod_eq_of_lt (toSize_lt z)

theorem readLE_setInt_self (h : n < 2 ^ 31) : readLE (setInt s a (n : ℤ)) a 4 = n := by
  rw [setInt, intBytes, Bytes.readLE_write_self]
  omega

theorem agreeOn_setLong (h : a + 8 ≤ b ∨ b + n ≤ a) : AgreeOn s (setLong s a z) b n :=
  AgreeOn.write (by rwa [length_longBytes])

theorem agreeOn_setInt (h : a + 4 ≤ b ∨ b + n ≤ a) : AgreeOn s (setInt s a z) b n :=
  AgreeOn.write (by rwa [length_intBytes])

theorem agreeOn_setString (h : a + (t.length + 1) ≤ b ∨ b + n ≤ a) :
    AgreeOn s (setString s a t) b n :=
  AgreeOn.write (by simpa using h)

/-! ## The root block -/

/-- `csc452_mkdir` puts an entry behind the last one. -/
theorem RootBlock.append {dirs : List Dir} {D : Dir} (h : RootBlock s dirs)
    (hlen : dirs.length < maxDirsInRoot) (hfits : Fits maxFilename D.dname)
    (hblock : D.block < 2 ^ 63) :
    RootBlock
      (setInt (setLong (setString s (dnameOffset dirs.length) D.dname)
        (dirStartOffset dirs.length) D.block) 0 (dirs.length + 1))
      (dirs ++ [D]) where
  count := by
    have hn : dirs.length + 1 < 2 ^ 31 := by
      simp only [maxDirsInRoot, blockSize, maxFilename] at hlen
      omega
    rw [List.length_append, List.length_singleton]
    exact_mod_cast readLE_setInt_self hn
  length_le := by
    rw [List.length_append, List.length_singleton]
    exact hlen
  slot i D' hi := by
    have hname := hfits.length_le
    simp only [maxFilename] at hname
    rcases lt_or_ge i dirs.length with hlt | hge
    · -- an old entry lies in front of the new one
      rw [List.getElem?_append_left hlt] at hi
      refine (((h.slot i D' hi).congr (agreeOn_setString ?_)).congr (agreeOn_setLong ?_)).congr
        (agreeOn_setInt ?_)
      all_goals simp only [dirStartOffset, dnameOffset]; omega
    · obtain ⟨rfl, rfl⟩ : i = dirs.length ∧ D' = D := by
        rw [List.getElem?_append_right hge] at hi
        rcases hk : i - dirs.length with _ | k
        · rw [hk] at hi
          exact ⟨by omega, (Option.some.inj hi).symm⟩
        · rw [hk] at hi
          simp at hi
      refine ⟨hfits, ?_, ?_⟩
      · refine ((HoldsString.write_self _ _ _).congr (agreeOn_setLong ?_)).congr (agreeOn_setInt ?_)
        all_goals simp only [dirStartOffset, dnameOffset]; omega
      · rw [← Bytes.readLE_congr (agreeOn_setInt ?_), readLE_setLong_self, toSize_natCast (by omega)]
        simp only [dirStartOffset, dnameOffset]
        omega

/-! ## A directory block -/

/-- `csc452_mknod` puts an entry behind the last one. -/
theorem DirBlock.append {files : List File} {F : File} (h : DirBlock s files)
    (hlen : files.length < maxFilesInDir) (hfname : Fits maxFilename F.fname)
    (hfext : Fits maxExtension F.fext) (hsize : F.fsize = 0) (hstart : F.start < 2 ^ 63) :
    DirBlock
      (setInt (setLong (setLong (setString (setString s (fnameOffset files.length) F.fname)
        (fextOffset files.length) F.fext) (fsizeOffset files.length) 0)
        (fileStartOffset files.length) F.start) 0 (files.length + 1))
      (files ++ [F]) where
  count := by
    have hn : files.length + 1 < 2 ^ 31 := by
      simp only [maxFilesInDir, blockSize, maxFilename, maxExtension] at hlen
      omega
    rw [List.length_append, List.length_singleton]
    exact_mod_cast readLE_setInt_self hn
  length_le := by
    rw [List.length_append, List.length_singleton]
    exact hlen
  slot j F' hj := by
    have hname := hfname.length_le
    have hext := hfext.length_le
    simp only [maxFilename, maxExtension] at hname hext
    rcases lt_or_ge j files.length with hlt | hge
    · rw [List.getElem?_append_left hlt] at hj
      refine (((((h.slot j F' hj).congr (agreeOn_setString ?_)).congr (agreeOn_setString ?_)).congr
        (agreeOn_setLong ?_)).congr (agreeOn_setLong ?_)).congr (agreeOn_setInt ?_)
      all_goals simp only [fileStartOffset, fsizeOffset, fextOffset, fnameOffset]; omega
    · obtain ⟨rfl, rfl⟩ : j = files.length ∧ F' = F := by
        rw [List.getElem?_append_right hge] at hj
        rcases hk : j - files.length with _ | k
        · rw [hk] at hj
          exact ⟨by omega, (Option.some.inj hj).symm⟩
        · rw [hk] at hj
          simp at hj
      refine ⟨hfname, hfext, ?_, ?_, ?_, ?_⟩
      · refine ((((HoldsString.write_self _ _ _).congr (agreeOn_setString ?_)).congr
          (agreeOn_setLong ?_)).congr (agreeOn_setLong ?_)).congr (agreeOn_setInt ?_)
        all_goals simp only [fileStartOffset, fsizeOffset, fextOffset, fnameOffset]; omega
      · refine (((HoldsString.write_self _ _ _).congr (agreeOn_setLong ?_)).congr
          (agreeOn_setLong ?_)).congr (agreeOn_setInt ?_)
        all_goals simp only [fileStartOffset, fsizeOffset, fextOffset, fnameOffset]; omega
      · rw [← Bytes.readLE_congr (agreeOn_setInt ?_), ← Bytes.readLE_congr (agreeOn_setLong ?_),
          readLE_setLong_self, hsize]
        · rfl
        all_goals simp only [fileStartOffset, fsizeOffset, fnameOffset]; omega
      · rw [← Bytes.readLE_congr (agreeOn_setInt ?_), readLE_setLong_self,
          toSize_natCast (by omega)]
        simp only [fileStartOffset, fnameOffset]
        omega

/-- `csc452_write` sets the size in the entry of a file. -/
theorem DirBlock.setSize {files : List File} {F : File} {j : ℕ} (h : DirBlock s files)
    (hj : files[j]? = some F) (z : ℤ) :
    DirBlock (setLong s (fsizeOffset j) z) (files.set j { F with fsize := toSize z }) where
  count := by
    rw [List.length_set, ← Bytes.readLE_congr (agreeOn_setLong ?_)]
    · exact h.count
    · simp only [fsizeOffset, fnameOffset]
      omega
  length_le := by
    rw [List.length_set]
    exact h.length_le
  slot i F' hi := by
    rcases eq_or_ne j i with rfl | hne
    · rw [List.getElem?_set_self (List.getElem?_eq_some_iff.mp hj).1] at hi
      obtain rfl := Option.some.inj hi
      have hslot := h.slot j F hj
      have hname := hslot.fnameFits.length_le
      have hext := hslot.fextFits.length_le
      simp only [maxFilename, maxExtension] at hname hext
      refine ⟨hslot.fnameFits, hslot.fextFits, hslot.fname.congr (agreeOn_setLong ?_),
        hslot.fext.congr (agreeOn_setLong ?_), readLE_setLong_self, ?_⟩
      · simp only [fsizeOffset]
        omega
      · simp only [fsizeOffset, fextOffset]
        omega
      · rw [← Bytes.readLE_congr (agreeOn_setLong ?_)]
        · exact hslot.start
        · simp only [fsizeOffset, fileStartOffset]
          omega
    · rw [List.getElem?_set_ne hne] at hi
      refine (h.slot i F' hi).congr (agreeOn_setLong ?_)
      simp only [fsizeOffset, fnameOffset]
      omega

end Csc452.Fuse
