import Csc452.Requests

/-!
# The file a request writes

A request that writes a file knows it by its place: the index of the directory in
the root block, the index of the file in the directory block, and the name and
the block of the directory (`Place`). As long as the others spare the file, it
stays in its place with the blocks it has.

What such a request changes is confined (`Confined`): the size in the entry of the
file, the mark, and the blocks that belong to the file in the end. No block is
given up on the way.
-/

namespace Csc452.Fuse

open Bytes (Memory AgreeOn HoldsString readLE shift)
open ByteFile (Disk)

/-! ## The place of a file -/

/-- Where a file is. -/
structure Place : Type where
  /-- the index of the directory -/
  dir : ℕ
  /-- the name of the directory -/
  dname : List UInt8
  /-- the block of the directory -/
  block : ℕ
  /-- the index of the file -/
  file : ℕ

/-- The file with its place. -/
def Place.Holds (x : Place) (F : File) (fs : Fs) : Prop :=
  ∃ D, fs.dirs[x.dir]? = some D ∧ D.dname = x.dname ∧ D.block = x.block ∧ D.files[x.file]? = some F

namespace Place.Holds

variable {x : Place} {F F' : File} {d d' : Disk} {fs fs' : Fs} {D : Dir} {m : ℕ} {pending : List ℕ}

/-- A file that is spared stays in its place, with its blocks. -/
theorem spares (h : x.Holds F fs) (hs : Spares (.file x.dname F.key) d fs d' fs') :
    x.Holds F fs' ∧ ∀ b ∈ F.blocks, AgreeOn d.bytes d'.bytes b blockSize := by
  obtain ⟨D, hi, hname, hblock, hj⟩ := h
  obtain ⟨D', hi', hkeeps⟩ := hs.dirs x.dir D hi
  obtain ⟨hj', hagree⟩ := hkeeps.file x.file F hj (by rw [hname])
  exact ⟨⟨D', hi', hkeeps.dname.trans hname, hkeeps.block.trans hblock, hj'⟩, hagree⟩

/-- The file can be replaced in its place. -/
theorem set (hi : fs.dirs[x.dir]? = some D) (hname : D.dname = x.dname) (hblock : D.block = x.block)
    (hj : D.files[x.file]? = some F) : x.Holds F' (fs.modifyDir D.dname (D.files.set x.file F')) := by
  refine ⟨{ D with files := D.files.set x.file F' }, ?_, hname, hblock, ?_⟩
  · rw [Fs.getElem?_modifyDir hi, if_pos rfl]
  · exact List.getElem?_set_self (List.getElem?_eq_some_iff.mp hj).1

/-- There is one file in a place. -/
theorem unique (h : x.Holds F fs) (h' : x.Holds F' fs) : F = F' := by
  obtain ⟨D, hi, -, -, hj⟩ := h
  obtain ⟨D', hi', -, -, hj'⟩ := h'
  obtain rfl := Option.some.inj (hi.symm.trans hi')
  exact Option.some.inj (hj.symm.trans hj')

theorem owned {b : ℕ} (h : x.Holds F fs) (hb : b ∈ F.blocks) : b ∈ fs.owned := by
  obtain ⟨D, hi, -, -, hj⟩ := h
  exact Layout.mem_owned (List.mem_of_getElem? hi)
    (Layout.mem_dir_owned (List.mem_of_getElem? hj) hb)

theorem chain (h : x.Holds F fs) (hl : Layout m d fs pending) : FileChain d.bytes F := by
  obtain ⟨D, hi, -, -, hj⟩ := h
  exact hl.chain D (List.mem_of_getElem? hi) F (List.mem_of_getElem? hj)

/-- A file has no more blocks than have been handed out. -/
theorem length_le (h : x.Holds F fs) (hl : Layout m d fs pending) :
    F.blocks.length ≤ fs.used := by
  have hsub : F.blocks ⊆ blocksUpTo fs.used := fun b hb =>
    hl.partition.mem_iff.mp (List.mem_append_left _ (h.owned hb))
  have hle := (h.chain hl).chain.nodup.length_le_of_subset hsub
  rwa [blocksUpTo, List.length_map, List.length_range] at hle

/-- What is in its blocks is not too long for an `int`. -/
theorem data_lt (h : x.Holds F fs) (hl : Layout m d fs pending) :
    dataSize * F.blocks.length < 2 ^ 31 := by
  have hlen := h.length_le hl
  have hused := hl.used_le
  have hlt := hl.size_lt
  simp only [dataSize, blockSize] at *
  omega

/-- The entry of the file leads to its first block. -/
theorem first_block {entry : Memory} (h : x.Holds F fs) (hl : Layout m d fs pending)
    (hslot : FileSlot entry x.file F) :
    ∃ a post, F.blocks = a :: post ∧ longAt entry (fileStartOffset x.file) = a ∧
      a + blockSize ≤ blockSize * m := by
  obtain ⟨a, post, hblocks⟩ := List.exists_cons_of_ne_nil (h.chain hl).ne_nil
  have hstart : F.start = a := by rw [File.start, hblocks, List.headD_cons]
  have ha := hl.block_lt (List.mem_append_left _ (h.owned (b := a) (by simp [hblocks])))
  exact ⟨a, post, hblocks, longAt_eq (hslot.start.trans hstart) (ha.2.2.trans (by decide)), ha.2.1⟩

end Place.Holds

/-! ## Confinement -/

/-- A block that belongs to the file a request writes, or is pending. -/
def Owns (t : Bool) (n : List UInt8) (key : List UInt8 × List UInt8) (w : State) (b : ℕ) : Prop :=
  b ∈ w.1.pending t ∨ ∃ D ∈ w.1.fs.dirs, D.dname = n ∧ ∃ F ∈ D.files, F.key = key ∧ b ∈ F.blocks

/-- Only the size of the file at `a`, the mark and the file's own blocks change. -/
structure Confined (m : ℕ) (t : Bool) (n : List UInt8) (key : List UInt8 × List UInt8) (a : ℕ)
    (w w' : State) : Prop where
  /-- no block is given up -/
  owns : ∀ b, Owns t n key w b → Owns t n key w' b
  /-- the bytes that change -/
  bytes : ∀ i, w'.2.bytes i ≠ w.2.bytes i → (a ≤ i ∧ i < a + 8) ∨
    (markAddress m ≤ i ∧ i < markAddress m + 8) ∨ ∃ b, Owns t n key w' b ∧ b ≤ i ∧ i < b + blockSize

namespace Confined

variable {m : ℕ} {t : Bool} {n : List UInt8} {key : List UInt8 × List UInt8} {a : ℕ}
variable {w w' w'' : State}

theorem refl (w : State) : Confined m t n key a w w := ⟨fun _ h => h, fun _ hi => absurd rfl hi⟩

theorem trans (h : Confined m t n key a w w') (h' : Confined m t n key a w' w'') :
    Confined m t n key a w w'' where
  owns b hb := h'.owns b (h.owns b hb)
  bytes i hi := by
    rcases eq_or_ne (w''.2.bytes i) (w'.2.bytes i) with heq | hne
    · rcases h.bytes i (heq ▸ hi) with hsize | hmark | ⟨b, hb, hle, hlt⟩
      · exact .inl hsize
      · exact .inr (.inl hmark)
      · exact .inr (.inr ⟨b, h'.owns b hb, hle, hlt⟩)
    · exact h'.bytes i hne

/-- Handing out a block only changes the mark. -/
theorem alloc {v₀ : View} (hw : World m v₀ w) (hpending : w.1.pending t = []) :
    Confined m t n key a w (allocState m t w) where
  owns b hb := by
    rcases hb with hb | hb
    · rw [hpending] at hb
      exact absurd hb List.not_mem_nil
    · exact .inr hb
  bytes i hi := by
    refine .inr (.inl ?_)
    have hsize := hw.layout.size_eq
    rw [allocState, allocDisk, Disk.write_eq
      (by rw [length_longBytes, hsize]; simp only [blockSize]; omega)] at hi
    rcases lt_or_ge i (markAddress m) with hlt | hge
    · exact absurd (Bytes.write_of_lt hlt) hi
    · refine ⟨hge, lt_of_not_ge fun hle => hi (Bytes.write_of_ge ?_)⟩
      rwa [length_longBytes]

/-- Replacing the file by one that has all the blocks keeps them. -/
theorem commit (a : ℕ) (es : List Effect) {pending : List ℕ} {D : Dir} {F F' : File} {j : ℕ}
    {d' : Disk} (hl : Layout m w.2 w.1.fs pending) (hD : D ∈ w.1.fs.dirs) (hj : D.files[j]? = some F)
    (hkey : F'.key = F.key) (hsub : w.1.pending t ++ F.blocks ⊆ F'.blocks)
    (hbytes : ∀ i, d'.bytes i ≠ w.2.bytes i →
      (a ≤ i ∧ i < a + 8) ∨ ∃ b ∈ F'.blocks, b ≤ i ∧ i < b + blockSize) :
    Confined m t D.dname F.key a w
      (w.1.commit t (w.1.fs.modifyDir D.dname (D.files.set j F')) [] es, d') := by
  have hnew : ∀ b ∈ F'.blocks, Owns t D.dname F.key
      (w.1.commit t (w.1.fs.modifyDir D.dname (D.files.set j F')) [] es, d') b := by
    obtain ⟨i, hi⟩ := List.getElem?_of_mem hD
    have hj' : (D.files.set j F')[j]? = some F' :=
      List.getElem?_set_self (List.getElem?_eq_some_iff.mp hj).1
    intro b hb
    refine .inr ⟨{ D with files := D.files.set j F' }, ?_, rfl, F', List.mem_of_getElem? hj', hkey, hb⟩
    refine List.mem_of_getElem? (i := i) ?_
    rw [Ghost.commit_fs, Fs.getElem?_modifyDir hi, if_pos rfl]
  refine ⟨fun b hb => hnew b (hsub (List.mem_append.mpr ?_)), fun i hi => ?_⟩
  · rcases hb with hb | ⟨D', hD', hname, G, hG, hGkey, hb⟩
    · exact .inl hb
    · obtain rfl := hl.dir_unique hD' hD hname
      obtain rfl := hl.file_unique hD' hG (List.mem_of_getElem? hj) hGkey
      exact .inr hb
  · rcases hbytes i hi with hsize | ⟨b, hb, hle⟩
    · exact .inl hsize
    · exact .inr (.inr ⟨b, hnew b hb, hle⟩)

end Confined

/-! ## Growth -/

/-- Another file in a place, after `k` blocks have been handed out. -/
def Fs.put (fs : Fs) (x : Place) (F : File) (k : ℕ) : Fs where
  dirs := fs.dirs.modify x.dir fun D => { D with files := D.files.set x.file F }
  used := fs.used + k

/-- The next blocks that will be handed out, in order. -/
def newBlocks (used k : ℕ) : List ℕ := (List.range' (used + 1) k).map (blockSize * ·)

/-- A file in its place is another one, which has the blocks handed out since at the
end of its chain. All else stays. -/
structure Grown (t : Bool) (x : Place) (F F' : File) (k : ℕ) (w w' : State) : Prop where
  /-- only the file is another one -/
  fs : w'.1.fs = w.1.fs.put x F' k
  /-- it has the same name and extension -/
  key : F'.key = F.key
  /-- its blocks, and the one that is not linked in yet -/
  chain : F'.blocks ++ w'.1.pending t = F.blocks ++ w.1.pending t ++ newBlocks w.1.fs.used k

/-- The file in a place only grows, by the blocks handed out. -/
def Grows (t : Bool) (x : Place) (w w' : State) : Prop :=
  ∀ F, x.Holds F w.1.fs → ∃ F' k, Grown t x F F' k w w'

section put

variable {fs : Fs} {x : Place} {F F' : File} {D : Dir} {j k : ℕ}

theorem newBlocks_append (used j k : ℕ) :
    newBlocks used j ++ newBlocks (used + j) k = newBlocks used (j + k) := by
  rw [newBlocks, newBlocks, newBlocks, ← List.map_append, Nat.add_right_comm used j 1,
    List.range'_append_1]

theorem length_newBlocks (used k : ℕ) : (newBlocks used k).length = k := by
  rw [newBlocks, List.length_map, List.length_range']

theorem Fs.put_put : (fs.put x F j).put x F' k = fs.put x F' (j + k) := by
  simp only [Fs.put, List.modify_modify_eq, Function.comp_def, List.set_set, Nat.add_assoc]

theorem Place.Holds.put (h : x.Holds F fs) : x.Holds F' (fs.put x F' k) := by
  obtain ⟨D, hi, hname, hblock, hj⟩ := h
  refine ⟨{ D with files := D.files.set x.file F' }, ?_, hname, hblock, ?_⟩
  · rw [Fs.put, List.getElem?_modify_eq, hi]
    rfl
  · exact List.getElem?_set_self (List.getElem?_eq_some_iff.mp hj).1

/-- A file put where it is. -/
theorem Place.Holds.put_self (h : x.Holds F fs) : fs.put x F k = { fs with used := fs.used + k } := by
  obtain ⟨D, hi, -, -, hj⟩ := h
  rw [Fs.put, Fs.mk.injEq]
  refine ⟨List.ext_getElem? fun i => ?_, rfl⟩
  rcases eq_or_ne x.dir i with rfl | hne
  · obtain ⟨hj, hj'⟩ := List.getElem?_eq_some_iff.mp hj
    rw [List.getElem?_modify_eq, hi, ← hj']
    simp
  · rw [List.getElem?_modify_ne _ _ hne]

/-- Names are known once, so replacing by name is replacing at an index. -/
theorem Fs.modifyDir_eq_put (hnodup : (fs.dirs.map Dir.dname).Nodup) (hi : fs.dirs[x.dir]? = some D) :
    fs.modifyDir D.dname (D.files.set x.file F) = fs.put x F 0 := by
  rw [Fs.modifyDir, Fs.put, Fs.mk.injEq]
  refine ⟨List.ext_getElem? fun i => ?_, rfl⟩
  rw [List.getElem?_map]
  rcases eq_or_ne x.dir i with rfl | hne
  · rw [List.getElem?_modify_eq, hi]
    simp
  · rw [List.getElem?_modify_ne _ _ hne]
    rcases hi' : fs.dirs[i]? with _ | D'
    · rfl
    · have hname : D'.dname ≠ D.dname := by
        intro hsame
        refine hne ((List.getElem?_inj ?_ hnodup).mp ?_)
        · rw [List.length_map]
          exact (List.getElem?_eq_some_iff.mp hi).1
        · rw [List.getElem?_map, List.getElem?_map, hi, hi', Option.map_some, Option.map_some, hsame]
      rw [Option.map_some, if_neg hname]

end put

namespace Grows

variable {m : ℕ} {t : Bool} {x : Place} {w w' w'' : State}

theorem refl (w : State) : Grows t x w w :=
  fun F hx => ⟨F, 0, (hx.put_self (k := 0)).symm, rfl, (List.append_nil _).symm⟩

theorem trans (h : Grows t x w w') (h' : Grows t x w' w'') : Grows t x w w'' := by
  intro F hx
  obtain ⟨F', j, hfs, hkey, hchain⟩ := h F hx
  obtain ⟨F'', k, hfs', hkey', hchain'⟩ := h' F' (by rw [hfs]; exact hx.put)
  refine ⟨F'', j + k, ?_, hkey'.trans hkey, ?_⟩
  · rw [hfs', hfs, Fs.put_put]
  · rw [hchain', hchain, hfs, List.append_assoc, Fs.put, newBlocks_append]

/-- The block handed out is the next one. -/
theorem alloc (hpending : w.1.pending t = []) : Grows t x w (allocState m t w) := by
  intro F hx
  refine ⟨F, 1, hx.put_self.symm, rfl, ?_⟩
  rw [allocState, Ghost.commit_pending, hpending, List.append_nil]
  rfl

/-- The file is replaced by one with the pending blocks behind its own. -/
theorem commit (es : List Effect) {pending : List ℕ} {D : Dir} {F F' : File} (d' : Disk)
    (hl : Layout m w.2 w.1.fs pending) (hi : w.1.fs.dirs[x.dir]? = some D)
    (hj : D.files[x.file]? = some F) (hkey : F'.key = F.key)
    (hblocks : F'.blocks = F.blocks ++ w.1.pending t) :
    Grows t x w (w.1.commit t (w.1.fs.modifyDir D.dname (D.files.set x.file F')) [] es, d') := by
  rintro F₀ ⟨D', hi', -, -, hj'⟩
  obtain rfl := Option.some.inj (hi.symm.trans hi')
  obtain rfl := Option.some.inj (hj.symm.trans hj')
  refine ⟨F', 0, ?_, hkey, ?_⟩
  · rw [Ghost.commit_fs, Fs.modifyDir_eq_put hl.dirs_nodup hi]
  · rw [Ghost.commit_pending, List.append_nil, hblocks]
    exact (List.append_nil _).symm

end Grows

/-- A request that writes the file in a place changes what is its own, and only lets
the file grow. -/
structure Writing (m : ℕ) (t : Bool) (x : Place) (key : List UInt8 × List UInt8) (a : ℕ)
    (w w' : State) : Prop where
  /-- the bytes -/
  confined : Confined m t x.dname key a w w'
  /-- the blocks -/
  grows : Grows t x w w'

/-- The frame of a request that writes a file. -/
def Frame.confined (m : ℕ) (v₀ : View) (t : Bool) (n : List UInt8)
    (key : List UInt8 × List UInt8) (a : ℕ) : Frame m v₀ t where
  rel := Confined m t n key a
  refl := .refl
  trans _ _ _ h h' := h.trans h'
  alloc _ hw hpending _ := .alloc hw hpending

/-- The same, with the growth of the file. -/
def Frame.writing (m : ℕ) (v₀ : View) (t : Bool) (x : Place) (key : List UInt8 × List UInt8)
    (a : ℕ) : Frame m v₀ t where
  rel := Writing m t x key a
  refl w := ⟨.refl w, .refl w⟩
  trans _ _ _ h h' := ⟨h.confined.trans h'.confined, h.grows.trans h'.grows⟩
  alloc _ hw hpending _ := ⟨.alloc hw hpending, .alloc hpending⟩

end Csc452.Fuse
