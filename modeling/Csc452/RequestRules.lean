import Csc452.Requests

/-!
# The parts of the requests

A rule for each function the requests share. It is about the function followed by
the rest of the request: the rest has to be safe in every state the others can
bring about before the function is done, with what it has found out.

A request remembers what it has read (`Saw`). Reading elsewhere does not make it
forget (`KeepsMemory`), and when it writes a block back, the block is still as
remembered (`fwriteStruct_bind`).
-/

namespace Csc452.Fuse

open Bytes (Memory AgreeOn HoldsString readLE shift)
open ByteFile (Disk Seen Saw machine)
open Interference (Prog Safe)

/-! ## The components of a path -/

/-- No component contains a terminator. -/
structure PathComp.NoNul (p : PathComp) : Prop where
  /-- the first -/
  directory : 0 ∉ p.directory
  /-- the second -/
  filename : 0 ∉ p.filename
  /-- the third -/
  extension : 0 ∉ p.extension

theorem not_mem_takeWhile {f : UInt8 → Bool} {l : List UInt8} (h : 0 ∉ l) : 0 ∉ l.takeWhile f :=
  fun hmem => h ((List.takeWhile_sublist f).subset hmem)

theorem not_mem_dropWhile {f : UInt8 → Bool} {l : List UInt8} (h : 0 ∉ l) : 0 ∉ l.dropWhile f :=
  fun hmem => h ((List.dropWhile_sublist f).subset hmem)

theorem scanExtension_noNul {directory filename rest : List UInt8} (hd : 0 ∉ directory)
    (hf : 0 ∉ filename) (hrest : 0 ∉ rest) : (scanExtension directory filename rest).NoNul := by
  have hext : 0 ∉ (rest.dropWhile isSpace).takeWhile fun c => !isSpace c :=
    not_mem_takeWhile (not_mem_dropWhile hrest)
  simp only [scanExtension]
  split
  · exact ⟨hd, hf, List.not_mem_nil⟩
  · exact ⟨hd, hf, hext⟩

theorem scanFilename_noNul {directory rest : List UInt8} (hd : 0 ∉ directory) (hrest : 0 ∉ rest) :
    (scanFilename directory rest).NoNul := by
  have hf : 0 ∉ rest.takeWhile (· ≠ 46) := not_mem_takeWhile hrest
  simp only [scanFilename]
  split
  · exact ⟨hd, List.not_mem_nil, List.not_mem_nil⟩
  · split
    · exact ⟨hd, hf, List.not_mem_nil⟩
    · next heq =>
      have htail := not_mem_dropWhile (f := (· ≠ 46)) hrest
      rw [heq] at htail
      exact scanExtension_noNul hd hf (List.not_mem_of_not_mem_cons htail)

theorem sscanf_noNul {path : List UInt8} (h : 0 ∉ path) : (sscanf path).NoNul := by
  have hnil : ∀ count, (PathComp.mk count [] [] []).NoNul :=
    fun _ => ⟨List.not_mem_nil, List.not_mem_nil, List.not_mem_nil⟩
  rcases path with _ | ⟨c, rest⟩
  · exact hnil _
  have hrest : 0 ∉ rest := List.not_mem_of_not_mem_cons h
  have hd : 0 ∉ rest.takeWhile (· ≠ 47) := not_mem_takeWhile hrest
  simp only [sscanf]
  split_ifs
  · exact hnil _
  · exact hnil _
  · exact hnil _
  · split
    · exact ⟨hd, List.not_mem_nil, List.not_mem_nil⟩
    · next heq =>
      have htail := not_mem_dropWhile (f := (· ≠ 47)) hrest
      rw [heq] at htail
      exact scanFilename_noNul hd (List.not_mem_of_not_mem_cons htail)

/-! ## What is remembered -/

/-- Everything remembered outside of a run of bytes is still remembered. -/
def KeepsMemory (k k' : Seen) (a n : ℕ) : Prop :=
  ∀ b l mem, Saw k b l mem → b + l ≤ a ∨ a + n ≤ b → Saw k' b l mem

theorem KeepsMemory.refl (k : Seen) (a n : ℕ) : KeepsMemory k k a n := fun _ _ _ h _ => h

section rules

variable {c : Context} {α β : Type} {Q : α → Seen → State → Prop} {k : Seen} {w : State}

/-! ## Single operations -/

/-- The size of the disk never changes. -/
theorem fsizeOf_bind {f : ℕ → Request α} (hw : World c.m c.v₀ w)
    (h : ∀ w', c.R w w' → World c.m c.v₀ w' → c.Runs Q (f (blockSize * c.m)) k w') :
    c.Runs Q (fsizeOf >>= f) k w := by
  refine ⟨fun w' hR _ => ⟨w'.1, .refl w', ?_⟩⟩
  have hw' := hR.world hw
  change Safe machine c.R c.G Q (f w'.2.size) k w'
  rw [hw'.layout.size]
  exact (h w' hR hw').safe

/-- A read from inside the disk. -/
theorem fread_bind {a n : ℕ} {f : List UInt8 → Request α} (hw : World c.m c.v₀ w)
    (hin : a + n ≤ blockSize * c.m)
    (h : ∀ w' k', c.R w w' → World c.m c.v₀ w' → Saw k' a n w'.2.bytes → KeepsMemory k k' a n →
      c.Runs Q (f (Bytes.read w'.2.bytes a n)) k' w') :
    c.Runs Q (fread a n >>= f) k w := by
  refine ⟨fun w' hR _ => ⟨w'.1, .refl w', ?_⟩⟩
  have hw' := hR.world hw
  have hsize : a + n ≤ w'.2.size := by rwa [hw'.layout.size]
  have hread : w'.2.read a n = Bytes.read w'.2.bytes a n := Disk.read_eq hsize
  have hsaw : Saw (k.note a (w'.2.read a n)) a n w'.2.bytes := Saw.note_read hsize
  change Safe machine c.R c.G Q (f (w'.2.read a n)) (k.note a (w'.2.read a n)) w'
  rw [hread] at hsaw ⊢
  refine (h w' _ hR hw' hsaw fun b l mem hb hdisj => hb.note ?_).safe
  rw [Bytes.length_read]
  exact hdisj.symm

/-- A write over bytes that are remembered finds them so. -/
theorem fwrite_bind {a : ℕ} {bs : List UInt8} {f : Unit → Request α} (hw : World c.m c.v₀ w)
    (h : ∀ w', c.R w w' → World c.m c.v₀ w' →
      (∀ mem, Saw k a bs.length mem → AgreeOn w'.2.bytes mem a bs.length) →
      ∃ g, c.G w' (g, w'.2.write a bs) ∧
        ∀ k', KeepsMemory k k' a bs.length → c.Runs Q (f ()) k' (g, w'.2.write a bs)) :
    c.Runs Q (fwrite a bs >>= f) k w := by
  refine ⟨fun w' hR hfresh => ?_⟩
  obtain ⟨g, hG, hrest⟩ := h w' hR (hR.world hw) fun mem hsaw => hsaw.agreeOn hfresh
  exact ⟨g, hG, (hrest _ fun b l mem hsaw hdisj => hsaw.note hdisj.symm).safe⟩

/-- Reading a struct from inside the disk. -/
theorem freadStruct_bind {s : Memory} {pos : ℕ} {f : Memory × ℕ → Request α}
    (hw : World c.m c.v₀ w) (hpos : pos + blockSize ≤ blockSize * c.m)
    (h : ∀ w' s' k', c.R w w' → World c.m c.v₀ w' →
      AgreeOn (shift w'.2.bytes pos) s' 0 blockSize → Saw k' pos blockSize w'.2.bytes →
      KeepsMemory k k' pos blockSize → c.Runs Q (f (s', pos + blockSize)) k' w') :
    c.Runs Q (freadStruct s pos >>= f) k w := by
  rw [freadStruct, bind_assoc]
  refine fread_bind hw hpos fun w' k' hR hw' hsaw hkeep => ?_
  rw [pure_bind, Bytes.length_read]
  exact h w' _ k' hR hw' Bytes.agreeOn_write_read.symm hsaw hkeep

/-- Writing a struct back. -/
theorem fwriteStruct_bind {s : Memory} {pos : ℕ} {f : Unit → Request α} (hw : World c.m c.v₀ w)
    (h : ∀ w', c.R w w' → World c.m c.v₀ w' →
      (∀ mem, Saw k pos blockSize mem → AgreeOn w'.2.bytes mem pos blockSize) →
      ∃ g, c.G w' (g, putBlock w'.2 pos s) ∧
        ∀ k', KeepsMemory k k' pos blockSize → c.Runs Q (f ()) k' (g, putBlock w'.2 pos s)) :
    c.Runs Q (fwriteStruct pos s >>= f) k w := by
  refine fwrite_bind hw fun w' hR hw' hsaw => ?_
  rw [Bytes.length_read] at hsaw
  obtain ⟨g, hG, hrest⟩ := h w' hR hw' hsaw
  refine ⟨g, hG, fun k' hkeep => hrest k' ?_⟩
  rwa [Bytes.length_read] at hkeep

/-! ## Looking up -/

/-- `get_root` -/
theorem getRoot_bind {u : Uninit} {f : Memory → Request α} (hw : World c.m c.v₀ w)
    (h : ∀ w' root k', c.R w w' → World c.m c.v₀ w' → AgreeOn w'.2.bytes root 0 blockSize →
      Saw k' 0 blockSize w'.2.bytes → KeepsMemory k k' 0 blockSize → c.Runs Q (f root) k' w') :
    c.Runs Q (getRoot u >>= f) k w := by
  have hm := hw.two_le
  refine freadStruct_bind (f := fun p => f p.1) hw (by simp only [blockSize]; omega) ?_
  intro w' s' k' hR hw' hs hsaw hkeep
  refine h w' s' k' hR hw' (fun i hi hn => ?_) hsaw hkeep
  rw [← hs i hi hn, shift, Nat.zero_add]

/-- `get_root`, with the table it finds. -/
theorem getRoot_bind' {u : Uninit} {f : Memory → Request α} (hw : World c.m c.v₀ w)
    (h : ∀ w' root k', c.R w w' → World c.m c.v₀ w' → RootBlock root w'.1.fs.dirs →
      KeepsMemory k k' 0 blockSize → c.Runs Q (f root) k' w') :
    c.Runs Q (getRoot u >>= f) k w :=
  getRoot_bind hw fun w' root k' hR hw' hroot _ hkeep =>
    h w' root k' hR hw' (hw'.layout.root.congr hroot) hkeep

/-- `dir_exists` finds the directory with a name, or there is none. -/
theorem dirExists_bind {u : Uninit} {n : List UInt8} {f : ℤ → Request α} (hw : World c.m c.v₀ w)
    (hn : 0 ∉ n)
    (hsome : ∀ w' i D k', c.R w w' → World c.m c.v₀ w' → w'.1.fs.dirs[i]? = some D →
      D.dname = n → KeepsMemory k k' 0 blockSize → c.Runs Q (f (i : ℕ)) k' w')
    (hnone : ∀ w' k', c.R w w' → World c.m c.v₀ w' → (∀ D ∈ w'.1.fs.dirs, D.dname ≠ n) →
      KeepsMemory k k' 0 blockSize → c.Runs Q (f (-1)) k' w') :
    c.Runs Q (dirExists u n >>= f) k w := by
  rw [dirExists, bind_assoc]
  refine getRoot_bind' hw ?_
  intro w' root k' hR hw' hroot hkeep
  rcases hfind : findDir root n with _ | i
  · exact hnone w' k' hR hw' (findDir_eq_none hroot hn hfind) hkeep
  · obtain ⟨D, hi, hname⟩ := findDir_eq_some hroot hn hfind
    exact hsome w' i D k' hR hw' hi hname hkeep

/-- The address of a directory's block in the root block. -/
theorem RootBlock.dirStart_eq {root : Memory} {dirs : List Dir} {D : Dir} {i : ℕ} {u : Uninit}
    (h : RootBlock root dirs) (hi : dirs[i]? = some D) (hD : D.block < 2 ^ 63) :
    dirStart u root (i : ℕ) = D.block := by
  rw [dirStart, if_pos (Int.natCast_nonneg i), Int.toNat_natCast]
  exact longAt_eq (h.slot i D hi).start hD

/-- Neither an index nor an address is the value that stands for nothing. -/
theorem natCast_ne_neg_one (i : ℕ) : (i : ℤ) ≠ -1 := by omega

theorem fseek_natCast (pos a : ℕ) : fseek pos (a : ℤ) = a := by
  rw [fseek, if_pos (Int.natCast_nonneg a), Int.toNat_natCast]

/-- `get_dir` reads the block of a directory that is there. -/
theorem getDir_bind {u : Uninit} {f : Memory × ℤ → Request α} {i : ℕ} {D : Dir}
    (hw : World c.m c.v₀ w) (hi : w.1.fs.dirs[i]? = some D) (hn : 0 ∉ D.dname)
    (h : ∀ w' entry k' D', c.R w w' → World c.m c.v₀ w' → w'.1.fs.dirs[i]? = some D' →
      c.mine.Keeps w.2.bytes w'.2.bytes D D' → AgreeOn (shift w'.2.bytes D.block) entry 0 blockSize →
      Saw k' D.block blockSize w'.2.bytes → c.Runs Q (f (entry, (i : ℕ))) k' w') :
    c.Runs Q (getDir u D.dname >>= f) k w := by
  rw [getDir, bind_assoc]
  refine getRoot_bind' hw ?_
  intro w₁ root k₁ hR₁ hw₁ hroot _
  obtain ⟨D₁, hi₁, hkeeps₁⟩ := hR₁.spares.dirs i D hi
  rw [bind_assoc]
  refine dirExists_bind hw₁ hn ?_ ?_
  · intro w₂ i₂ D₂ k₂ hR₂ hw₂ hi₂ hname₂ _
    obtain ⟨D₂', hi₂', hkeeps₂⟩ := hR₂.spares.dirs i D₁ hi₁
    -- names are known once, so the index is that of the directory
    obtain rfl : i₂ = i := by
      have hsame : (w₂.1.fs.dirs.map Dir.dname)[i₂]? = (w₂.1.fs.dirs.map Dir.dname)[i]? := by
        rw [List.getElem?_map, List.getElem?_map, hi₂, hi₂', Option.map_some, Option.map_some,
          hname₂, hkeeps₂.dname, hkeeps₁.dname]
      refine (List.getElem?_inj ?_ hw₂.layout.dirs_nodup).mp hsame
      rw [List.length_map]
      exact (List.getElem?_eq_some_iff.mp hi₂).1
    have hblock := hw₁.layout.block_lt
      (List.mem_append_left _ (Layout.block_mem (List.mem_of_getElem? hi₁)))
    rw [if_neg (natCast_ne_neg_one i₂), bind_assoc, hroot.dirStart_eq hi₁ (by omega), fseek_natCast,
      hkeeps₁.block]
    rw [hkeeps₁.block] at hblock
    refine freadStruct_bind hw₂ hblock.2.1 ?_
    intro w₃ entry k₃ hR₃ hw₃ hentry hsaw _
    have hR := (hR₁.trans hR₂).trans hR₃
    obtain ⟨D₃, hi₃, hkeeps₃⟩ := hR.spares.dirs i₂ D hi
    exact h w₃ entry k₃ D₃ hR hw₃ hi₃ hkeeps₃ hentry hsaw
  · intro w₂ k₂ hR₂ hw₂ hnone _
    obtain ⟨D₂, hi₂, hkeeps₂⟩ := hR₂.spares.dirs i D₁ hi₁
    exact absurd (hkeeps₂.dname.trans hkeeps₁.dname) (hnone D₂ (List.mem_of_getElem? hi₂))

/-- `get_dir` finds nothing when there is no directory and the request is the one
to make it. -/
theorem getDir_bind_none {u : Uninit} {n : List UInt8} {f : Memory × ℤ → Request α}
    (hw : World c.m c.v₀ w) (hn : 0 ∉ n) (hT : c.mine = .dir n)
    (hno : ∀ D ∈ w.1.fs.dirs, D.dname ≠ n)
    (h : ∀ w' k', c.R w w' → World c.m c.v₀ w' → c.Runs Q (f (u.struct, -1)) k' w') :
    c.Runs Q (getDir u n >>= f) k w := by
  rw [getDir, bind_assoc]
  refine getRoot_bind' hw fun w₁ root k₁ hR₁ hw₁ _ _ => ?_
  rw [bind_assoc]
  refine dirExists_bind hw₁ hn (fun w₂ i D k₂ hR₂ hw₂ hi hname _ => ?_)
    fun w₂ k₂ hR₂ hw₂ _ _ => ?_
  · have hno₂ := (hR₁.trans hR₂).spares.fresh n hT hno
    exact absurd hname (hno₂ D (List.mem_of_getElem? hi))
  · exact h w₂ k₂ (hR₁.trans hR₂) hw₂

/-- `file_exist` returns the size of a file that is there. -/
theorem fileExist_bind {u : Uninit} {fn fe : List UInt8} {f : ℤ → Request α} {i j : ℕ} {D : Dir}
    {F : File} (hw : World c.m c.v₀ w) (hi : w.1.fs.dirs[i]? = some D) (hn : 0 ∉ D.dname)
    (hfn : 0 ∉ fn) (hfe : 0 ∉ fe) (hj : D.files[j]? = some F) (hkey : F.key = (fn, fe))
    (hT : c.mine = .file D.dname F.key)
    (h : ∀ w' k', c.R w w' → World c.m c.v₀ w' → c.Runs Q (f (toInt F.fsize)) k' w') :
    c.Runs Q (fileExist u D.dname fn fe 3 >>= f) k w := by
  rw [fileExist, bind_assoc]
  refine getDir_bind hw hi hn fun w' entry k' D' hR hw' hi' hkeeps hentry _ => ?_
  have hD' := List.mem_of_getElem? hi'
  have hdir : DirBlock entry D'.files := (hw'.layout.dir D' hD').congr (by rwa [hkeeps.block])
  have hj' := (hkeeps.file j F hj hT).1
  simp only [if_neg (natCast_ne_neg_one i), if_true]
  rw [findFile_eq hdir hfn hfe (hw'.layout.files_nodup D' hD') hj' hkey]
  change c.Runs Q (f (toInt (readLE entry (fsizeOffset j) 8 : ℕ))) k' w'
  rw [(hdir.slot j F hj').fsize]
  exact h w' k' hR hw'

/-- `file_exist` finds no file that is not there, when the request is the one to
make it. -/
theorem fileExist_bind_fresh {u : Uninit} {fn fe : List UInt8} {f : ℤ → Request α} {i : ℕ} {D : Dir}
    (hw : World c.m c.v₀ w) (hi : w.1.fs.dirs[i]? = some D) (hn : 0 ∉ D.dname)
    (hfn : 0 ∉ fn) (hfe : 0 ∉ fe) (hT : c.mine = .file D.dname (fn, fe))
    (hno : ∀ F ∈ D.files, F.key ≠ (fn, fe))
    (h : ∀ w' k', c.R w w' → World c.m c.v₀ w' → c.Runs Q (f (-1)) k' w') :
    c.Runs Q (fileExist u D.dname fn fe 3 >>= f) k w := by
  rw [fileExist, bind_assoc]
  refine getDir_bind hw hi hn fun w' entry k' D' hR hw' hi' hkeeps hentry _ => ?_
  have hD' := List.mem_of_getElem? hi'
  have hdir : DirBlock entry D'.files := (hw'.layout.dir D' hD').congr (by rwa [hkeeps.block])
  simp only [if_neg (natCast_ne_neg_one i), if_true]
  rcases hfind : findFile entry fn fe with _ | j
  · exact h w' k' hR hw'
  · obtain ⟨F, hj, hkey⟩ := findFile_eq_some hdir hfn hfe hfind
    exact absurd hkey (hkeeps.fresh _ hT hno F (List.mem_of_getElem? hj))

/-- `file_exist` finds no file in a directory that is not there. -/
theorem fileExist_bind_none {u : Uninit} {n fn fe : List UInt8} {f : ℤ → Request α} {count : ℤ}
    (hw : World c.m c.v₀ w) (hn : 0 ∉ n) (hT : c.mine = .dir n)
    (hno : ∀ D ∈ w.1.fs.dirs, D.dname ≠ n)
    (h : ∀ w' k', c.R w w' → World c.m c.v₀ w' → c.Runs Q (f (-1)) k' w') :
    c.Runs Q (fileExist u n fn fe count >>= f) k w := by
  rw [fileExist, bind_assoc]
  exact getDir_bind_none hw hn hT hno fun w' k' hR hw' => h w' k' hR hw'

/-! ## Allocating -/

theorem seekMark_eq {m pos : ℕ} (hm : 2 ≤ m) : seekMark pos (blockSize * m) = markAddress m := by
  have hmark := markAddress_add hm
  rw [seekMark, fseek, if_pos (by simp only [blockSize]; omega)]
  omega

/-- A `long` read into a struct. -/
theorem longAt_read {s mem : Memory} {a n : ℕ} (h : readLE mem a 8 = n) (hn : n < 2 ^ 63) :
    longAt (Bytes.write s 0 (Bytes.read mem a 8)) 0 = n := by
  refine longAt_eq ?_ hn
  rw [Bytes.readLE_congr Bytes.agreeOn_write_read]
  exact Bytes.readLE_shift.trans h

/-- `next_free_block` finds the disk full, or hands out the block behind the
mark. -/
theorem nextFreeBlock_bind {u : Uninit} {f : ℤ → Request α} (hw : World c.m c.v₀ w)
    (hpending : w.1.pending c.t = [])
    (hfull : ∀ w' k', c.R w w' → World c.m c.v₀ w' → c.m ≤ w'.1.fs.used + 2 →
      c.Runs Q (f (-1)) k' w')
    (hroom : ∀ w' k', c.R w w' → World c.m c.v₀ (allocState c.m c.t w') →
      KeepsMemory k k' (markAddress c.m) 8 →
      c.Runs Q (f (blockSize * (w'.1.fs.used + 1) : ℕ)) k' (allocState c.m c.t w')) :
    c.Runs Q (nextFreeBlock u >>= f) k w := by
  have hm := hw.two_le
  have hmark := markAddress_add hm
  have hlt := hw.layout.size_lt
  rw [nextFreeBlock, bind_assoc]
  refine fsizeOf_bind hw fun w₁ hR₁ hw₁ => ?_
  rw [bind_assoc]
  refine fsizeOf_bind hw₁ fun w₂ hR₂ hw₂ => ?_
  rw [bind_assoc, seekMark_eq hm]
  refine fread_bind hw₂ (by simp only [blockSize] at *; omega) fun w₃ k₃ hR₃ hw₃ hsaw₃ hkeep₃ => ?_
  have hused := hw₃.layout.used_le
  have htmp := longAt_read (s := u.struct) hw₃.layout.mark (by simp only [blockSize] at *; omega)
  have hnext : toLong (longAt (Bytes.write u.struct 0 (Bytes.read w₃.2.bytes (markAddress c.m) 8)) 0 +
      blockSize) = (blockSize * (w₃.1.fs.used + 1) : ℕ) := by
    rw [htmp, toLong, Int.bmod]
    simp only [blockSize] at *
    omega
  simp only [hnext]
  split
  · next hle =>
    have hR := (hR₁.trans hR₂).trans hR₃
    exact hfull w₃ k₃ hR hw₃ (by simp only [blockSize] at *; omega)
  · next hlt =>
    rw [bind_assoc]
    refine fsizeOf_bind hw₃ fun w₄ hR₄ hw₄ => ?_
    rw [bind_assoc, seekMark_eq hm]
    refine fwrite_bind hw₄ fun w₅ hR₅ hw₅ hsaw₅ => ?_
    rw [length_longBytes] at hsaw₅
    have hR := (((hR₁.trans hR₂).trans hR₃).trans hR₄).trans hR₅
    -- the mark is as it was when it was read
    have hsame : w₅.1.fs.used = w₃.1.fs.used := by
      have hread := Bytes.readLE_congr (hsaw₅ _ hsaw₃)
      rw [hw₅.layout.mark, hw₃.layout.mark] at hread
      simp only [blockSize] at hread
      omega
    have hroom₅ : w₅.1.fs.used + 3 ≤ c.m := by
      rw [hsame]
      simp only [blockSize] at *
      omega
    have hpending₅ : w₅.1.pending c.t = [] := hR.pending.trans hpending
    have halloc := (hw₅.layout' c.t).alloc hroom₅
    rw [hpending₅] at halloc
    rw [← hsame]
    refine ⟨(allocState c.m c.t w₅).1, .commit halloc ?_ ?_ ?_, fun k' hkeep => ?_⟩
    · exact hw₅.layout.view_alloc
    · exact hw₅.layout.spares_alloc _
    · exact c.frame.alloc w₅ hw₅ hpending₅ hroom₅
    · rw [length_longBytes] at hkeep
      exact hroom w₅ k' hR (hw₅.allocState hpending₅ hroom₅) fun b l mem hb hdisj =>
        hkeep b l mem (hkeep₃ b l mem hb hdisj) hdisj

end rules

end Csc452.Fuse
