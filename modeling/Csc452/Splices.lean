import Csc452.Appending

/-!
# Where a write leaves its bytes

A write that has room leaves the file with the blocks it had and the next ones that
are handed out, and nothing else on the disk depends on how the bytes were copied
(`Rewrote.unique`). So it does not matter whether they come in one call or in two.

* `splices_iff` — after a run in which no write failed: a write splices its buffer into
  the contents if and only if it does not end before they do. If it does, they end
  there from then on.
* `splits_alike` — two writes, one behind the other, leave the disk of one write of
  both buffers; but not after a file was made where there is no directory
  (`split_is_refused`).
-/

namespace Csc452.Fuse

open Bytes (Memory AgreeOn readLE shift)
open ByteFile (Disk)
open LinkedList (Chain)
open Runs (Always Guarded)

/-! ## The statements -/

/-- What is in a file: its first bytes, as many as its size says. -/
def FileView.contents (F : FileView) : List UInt8 := F.data.take F.fsize

/-- The bytes in front of position `n` fit the blocks of a file and those that belong to
nobody; neither the root block nor the last block does. -/
def View.HasRoom (m : ℕ) (v : View) (F : FileView) (n : ℕ) : Prop :=
  n ≤ F.data.length + dataSize * (m - 2 - v.blocks)

/-- A write of something to a file that is there, inside its size, with room on the
disk. -/
structure WritesInside (m : ℕ) (d : Disk) (p : PathComp) (F : FileView) (offset : ℕ)
    (buf : List UInt8) : Prop where
  /-- the path is that of a file -/
  count : p.count = 3
  /-- the file is there -/
  file : (diskView m d).file? p.directory p.key = some F
  /-- there is something to write -/
  ne_nil : buf ≠ []
  /-- the offset -/
  offset_le : offset ≤ F.fsize
  /-- the disk -/
  room : (diskView m d).HasRoom m F (offset + buf.length)

/-- All bytes are written, and the contents are as before but for these bytes. -/
structure Spliced (m : ℕ) (p : PathComp) (F : FileView) (offset : ℕ) (buf : List UInt8)
    (r : ℤ × Disk) : Prop where
  /-- the value returned -/
  ret : r.1 = buf.length
  /-- the file afterwards -/
  file : ∃ F', (diskView m r.2).file? p.directory p.key = some F' ∧
    F'.fsize = max F.fsize (offset + buf.length) ∧
    F'.contents = F.contents.take offset ++ buf ++ F.contents.drop (offset + buf.length)

/-- On a disk, writes splice if and only if they do not end before the file does. -/
def SplicesIff (m : ℕ) (d : Disk) : Prop :=
  ∀ (u : Uninit) (path : CString) (buf : List UInt8) (offset : ℕ) (F : FileView),
    WritesInside m d (sscanf path.bytes) F offset buf →
      (Spliced m (sscanf path.bytes) F offset buf ((Call.write path buf offset).run u d) ↔
        F.fsize ≤ offset + buf.length)

/-- On a disk, two writes one behind the other do what one write does: they write all of
the bytes, and leave the same disk. -/
def SplitsAlike (m : ℕ) (d : Disk) : Prop :=
  ∀ (u u₁ u₂ : Uninit) (path : CString) (a b : List UInt8) (offset : ℕ) (F : FileView),
    a ≠ [] → b ≠ [] → WritesInside m d (sscanf path.bytes) F offset (a ++ b) →
      let r := (Call.write path (a ++ b) offset).run u d
      let r₁ := (Call.write path a offset).run u₁ d
      let r₂ := (Call.write path b (offset + a.length)).run u₂ r₁.2
      r₂.2 = r.2 ∧ r₁.1 = a.length ∧ r₂.1 = b.length ∧ r.1 = (a ++ b).length

/-! ## Two disks with the same files -/

/-- Two memories with the same chain and the same data agree on its blocks. -/
theorem agreeOn_chain {mem mem' : Memory} {p : ℕ} {blocks : List ℕ}
    (h : Chain (nextOf mem) 0 p blocks) (h' : Chain (nextOf mem') 0 p blocks)
    (hdata : dataOf mem blocks = dataOf mem' blocks) :
    ∀ b ∈ blocks, AgreeOn mem mem' b blockSize := by
  intro b hb
  have hnext : readLE mem (b + nextOffset) 8 = readLE mem' (b + nextOffset) 8 :=
    Option.some.inj (h.1.next_eq h'.1 b hb)
  have hread : Bytes.read mem b dataSize = Bytes.read mem' b dataSize := by
    clear h h' hnext
    induction blocks with
    | nil => exact absurd hb List.not_mem_nil
    | cons c blocks ih =>
      rw [dataOf_cons, dataOf_cons] at hdata
      obtain ⟨hhead, htail⟩ := List.append_inj hdata (by rw [Bytes.length_read, Bytes.length_read])
      rcases List.mem_cons.mp hb with rfl | hb
      · exact hhead
      · exact ih htail hb
  intro i hi hlt
  rcases lt_or_ge i (b + dataSize) with hdata' | hlink
  · exact AgreeOn.of_read hread i hi hdata'
  · exact AgreeOn.of_readLE hnext i hlink (by simp only [nextOffset, blockSize] at *; omega)

/-- A write leaves another file in the place of the old one, with the next blocks of the
disk behind its own, and changes nothing else. -/
structure Rewrote (m : ℕ) (fs fs' : Fs) (x : Place) (F F' : File) (d d' : Disk) : Prop where
  /-- the layout -/
  layout : Layout m d' fs' []
  /-- the name -/
  key : F'.key = F.key
  /-- the blocks -/
  grown : ∃ k, fs' = fs.put x F' k ∧ F'.blocks = F.blocks ++ newBlocks fs.used k
  /-- the bytes that change -/
  bytes : ∀ i, d'.bytes i ≠ d.bytes i →
    (x.block + fsizeOffset x.file ≤ i ∧ i < x.block + fsizeOffset x.file + 8) ∨
      (markAddress m ≤ i ∧ i < markAddress m + 8) ∨ ∃ b ∈ F'.blocks, b ≤ i ∧ i < b + blockSize

namespace Rewrote

variable {m : ℕ} {fs fs₁ fs₂ : Fs} {x : Place} {F F₁ F₂ : File} {d d₁ d₂ : Disk}

theorem holds (h : Rewrote m fs fs₁ x F F₁ d d₁) (hx : x.Holds F fs) : x.Holds F₁ fs₁ := by
  obtain ⟨k, hfs, -⟩ := h.grown
  rw [hfs]
  exact hx.put

theorem trans (h : Rewrote m fs fs₁ x F F₁ d d₁) (h' : Rewrote m fs₁ fs₂ x F₁ F₂ d₁ d₂) :
    Rewrote m fs fs₂ x F F₂ d d₂ := by
  obtain ⟨j, hfs, hblocks⟩ := h.grown
  obtain ⟨k, hfs', hblocks'⟩ := h'.grown
  refine ⟨h'.layout, h'.key.trans h.key, ⟨j + k, ?_, ?_⟩, fun i hi => ?_⟩
  · rw [hfs', hfs, Fs.put_put]
  · rw [hblocks', hblocks, hfs, List.append_assoc, Fs.put, newBlocks_append]
  · rcases eq_or_ne (d₂.bytes i) (d₁.bytes i) with heq | hne
    · rcases h.bytes i (heq ▸ hi) with hsize | hmark | ⟨b, hb, hle⟩
      · exact .inl hsize
      · exact .inr (.inl hmark)
      · exact .inr (.inr ⟨b, by rw [hblocks']; exact List.mem_append_left _ hb, hle⟩)
    · exact h'.bytes i hne

/-- The size and the data say which file it is. -/
theorem file_eq (h₁ : Rewrote m fs fs₁ x F F₁ d d₁) (h₂ : Rewrote m fs fs₂ x F F₂ d d₂)
    (hfsize : F₁.fsize = F₂.fsize) (hlen : F₁.blocks.length = F₂.blocks.length) :
    F₁ = F₂ ∧ fs₁ = fs₂ := by
  obtain ⟨j, hfs₁, hblocks₁⟩ := h₁.grown
  obtain ⟨k, hfs₂, hblocks₂⟩ := h₂.grown
  obtain rfl : j = k := by
    rw [hblocks₁, hblocks₂, List.length_append, List.length_append, length_newBlocks,
      length_newBlocks] at hlen
    omega
  have hkey := h₁.key.trans h₂.key.symm
  have hblocks := hblocks₁.trans hblocks₂.symm
  obtain rfl : F₁ = F₂ := by
    cases F₁
    cases F₂
    obtain ⟨hfname, hfext⟩ := Prod.mk.inj hkey
    simp only at hfname hfext hfsize hblocks
    rw [hfname, hfext, hfsize, hblocks]
  exact ⟨rfl, hfs₁.trans hfs₂.symm⟩

/-- **One disk.** What a write leaves is known from the size and the data of the file. -/
theorem unique (h₁ : Rewrote m fs fs₁ x F F₁ d d₁) (h₂ : Rewrote m fs fs₂ x F F₂ d d₂)
    (hx : x.Holds F fs) (hfsize : F₁.fsize = F₂.fsize)
    (hdata : dataOf d₁.bytes F₁.blocks = dataOf d₂.bytes F₂.blocks) : d₁ = d₂ := by
  have hlen : F₁.blocks.length = F₂.blocks.length := by
    have hboth := congrArg List.length hdata
    rw [length_dataOf, length_dataOf] at hboth
    simp only [dataSize] at hboth
    omega
  obtain ⟨rfl, rfl⟩ := h₁.file_eq h₂ hfsize hlen
  have hx₁ := h₁.holds hx
  have hchain := agreeOn_chain (hx₁.chain h₁.layout).chain (hx₁.chain h₂.layout).chain hdata
  have hmark := AgreeOn.of_readLE (h₁.layout.mark.trans h₂.layout.mark.symm)
  have hfield : AgreeOn d₁.bytes d₂.bytes (x.block + fsizeOffset x.file) 8 := by
    obtain ⟨D, hi, -, hblock, hj⟩ := hx₁
    have hD := List.mem_of_getElem? hi
    have hsize₁ := ((h₁.layout.dir D hD).slot _ _ hj).fsize
    have hsize₂ := ((h₂.layout.dir D hD).slot _ _ hj).fsize
    rw [Bytes.readLE_shift, hblock] at hsize₁ hsize₂
    exact AgreeOn.of_readLE (hsize₁.trans hsize₂.symm)
  have hbytes : d₁.bytes = d₂.bytes := by
    funext i
    by_contra hne
    have hout : d₁.bytes i ≠ d.bytes i ∨ d₂.bytes i ≠ d.bytes i := by
      by_contra hboth
      rw [not_or, not_not, not_not] at hboth
      exact hne (hboth.1.trans hboth.2.symm)
    rcases hout.elim (h₁.bytes i) (h₂.bytes i) with ⟨hle, hlt⟩ | ⟨hle, hlt⟩ | ⟨b, hb, hle, hlt⟩
    · exact hne (hfield i hle hlt)
    · exact hne (hmark i hle hlt)
    · exact hne (hchain b hb i hle hlt)
  have hsize := h₁.layout.size.trans h₂.layout.size.symm
  cases d₁
  cases d₂
  rw [Disk.mk.injEq]
  exact ⟨hsize, hbytes⟩

end Rewrote

/-! ## One write -/

section write

variable {m : ℕ} {d : Disk} {fs : Fs} {x : Place} {F : File} {Fv : FileView} {path : CString}
  {u : Uninit} {offset : ℕ} {a b buf : List UInt8}

/-- A write that has room, to a file with a size that is not too large. -/
theorem Layout.rewrote (h : Layout m d fs []) (hcount : (sscanf path.bytes).count = 3)
    (hx : x.Holds F fs) (hname : x.dname = (sscanf path.bytes).directory)
    (hkey : F.key = (sscanf path.bytes).key) (hbuf : buf ≠ []) (hoffset : offset ≤ F.fsize)
    (hsized : F.fsize ≤ dataSize * F.blocks.length)
    (hroom : offset + buf.length ≤ dataSize * (F.blocks.length + (m - 2 - fs.used))) :
    ((Call.write path buf offset).run u d).1 = buf.length ∧
      ∃ fs' F', Rewrote m fs fs' x F F' d ((Call.write path buf offset).run u d).2 ∧
        F'.fsize = offset + buf.length ∧ F'.fsize ≤ dataSize * F'.blocks.length ∧
        dataOf ((Call.write path buf offset).run u d).2.bytes F'.blocks =
          splice (dataOf d.bytes F.blocks) offset buf := by
  have hlt := hsized.trans_lt (hx.data_lt h)
  have hint := toInt_natCast hlt
  obtain ⟨g, k, hends, hleft⟩ := write_alone u buf
    (.writing m _ true x F.key (x.block + fsizeOffset x.file)) h hcount hx hname hkey
    (fun _ => hoffset.trans hsized) (fun _ _ hwriting => hwriting)
  generalize (Call.write path buf offset).run u d = r at *
  obtain ⟨ret, d'⟩ := r
  have hpending : g.pending true = [] := hends.pending
  have hlayout := hleft.layout hpending
  obtain ⟨F', j, hfs, hkey', hchain⟩ := hleft.frame.grows F hx
  simp only [start, List.append_nil, hpending] at hfs hchain
  have hx' : x.Holds F' g.fs := hfs ▸ hx.put
  rcases hends with ⟨-, hnil, -, -⟩ | ⟨-, -, hwhy⟩ | ⟨done, hret, -, -, -, hloop⟩
  · exact absurd hnil hbuf
  · rcases hwhy with hinvisible | ⟨-, hbehind⟩
    · exact absurd (hint.symm.trans hinvisible) (natCast_ne_neg_one _)
    · rw [hint, toSize_natCast (hlt.trans (by decide))] at hbehind
      exact absurd hoffset (not_le.mpr hbehind)
  obtain ⟨F'', hx'', -, hfsize, hlen⟩ := hloop.file
  obtain rfl := hx''.unique hx'
  dsimp only at hfsize
  have hused : g.fs.used = fs.used + j := by
    rw [hfs]
    rfl
  cases done with
  | false =>
    -- all blocks are handed out, and would have been enough
    rw [if_neg Bool.false_ne_true] at hlen
    have hfull : m ≤ g.fs.used + 2 := hloop.full rfl
    rw [hchain, List.length_append, length_newBlocks] at hlen
    simp only [dataSize] at hlen hroom
    omega
  | true =>
    rw [if_pos rfl] at hlen
    have hdata : offset ≤ (dataOf d.bytes F.blocks).length := by
      rw [length_dataOf]
      exact hoffset.trans hsized
    obtain ⟨-, hsmall, hview⟩ := hloop.done_outcome hleft hdata
    rw [newSize_eq hlt (hsmall.trans (by decide))] at hfsize
    have hsized' : F''.fsize ≤ dataSize * F''.blocks.length := by
      rw [hfsize, hlen]
      exact le_length_splice buf hdata
    refine ⟨?_, g.fs, F'', ⟨hlayout, hkey', ⟨j, hfs, hchain⟩, ?_⟩, hfsize, hsized', ?_⟩
    · rw [hret, if_pos rfl, toInt_natCast (by omega)]
    · intro i hi
      rcases hleft.frame.confined.bytes i hi with hsize | hmark | ⟨b, hb, hle⟩
      · exact .inl hsize
      · exact .inr (.inl hmark)
      · refine .inr (.inr ⟨b, ?_, hle⟩)
        rcases hb with hb | ⟨D, hD, hname', G, hG, hkey'', hb⟩
        · rw [hpending] at hb
          exact absurd hb List.not_mem_nil
        · obtain ⟨D', hi', hname'', -, hj'⟩ := hx''
          obtain rfl := hlayout.dir_unique hD (List.mem_of_getElem? hi') (hname'.trans hname''.symm)
          obtain rfl := hlayout.file_unique hD hG (List.mem_of_getElem? hj') (hkey''.trans hkey'.symm)
          exact hb
    · have hfile := hx''.file?_view hlayout
      have hnew := Effect.file?_setFile (n := x.dname) (W := File.withData
        { F with fsize := newSize F.fsize offset buf.length }
        (splice (dataOf d.bytes F.blocks) offset buf)) (hx.file?_view h)
      rw [← hview] at hnew
      rw [hkey'] at hfile
      have heq := Option.some.inj (hfile.symm.trans hnew)
      exact congrArg FileView.data heq

/-- One splice behind the other. -/
theorem splice_append (data : List UInt8) (p : ℕ) (a b : List UInt8) :
    splice (splice data p a) (p + a.length) b = splice data p (a ++ b) := by
  induction a generalizing data p with
  | nil => rfl
  | cons c a ih =>
    rw [List.cons_append, splice, splice, List.length_cons, Nat.add_comm a.length 1,
      ← Nat.add_assoc, ih]

/-- Two writes one behind the other, or one. -/
theorem Layout.split (h : Layout m d fs []) (hcount : (sscanf path.bytes).count = 3)
    (hx : x.Holds F fs) (hname : x.dname = (sscanf path.bytes).directory)
    (hkey : F.key = (sscanf path.bytes).key) (ha : a ≠ []) (hb : b ≠ []) (hoffset : offset ≤ F.fsize)
    (hsized : F.fsize ≤ dataSize * F.blocks.length)
    (hroom : offset + (a ++ b).length ≤ dataSize * (F.blocks.length + (m - 2 - fs.used)))
    (u₁ u₂ : Uninit) :
    let r := (Call.write path (a ++ b) offset).run u d
    let r₁ := (Call.write path a offset).run u₁ d
    let r₂ := (Call.write path b (offset + a.length)).run u₂ r₁.2
    r₂.2 = r.2 ∧ r₁.1 = a.length ∧ r₂.1 = b.length ∧ r.1 = (a ++ b).length := by
  intro r r₁ r₂
  have hlen : (a ++ b).length = a.length + b.length := List.length_append
  obtain ⟨hret, fs', F', hwrote, hfsize, -, hdata⟩ :=
    h.rewrote (u := u) hcount hx hname hkey (List.append_ne_nil_of_left_ne_nil ha b) hoffset hsized
      hroom
  obtain ⟨hret₁, fs₁, F₁, hwrote₁, hfsize₁, hsized₁, hdata₁⟩ :=
    h.rewrote (u := u₁) hcount hx hname hkey ha hoffset hsized (by omega)
  -- the blocks the first call takes are missing from those there are for the second
  have hroom₁ : offset + a.length + b.length ≤
      dataSize * (F₁.blocks.length + (m - 2 - fs₁.used)) := by
    obtain ⟨k, hfs₁, hblocks₁⟩ := hwrote₁.grown
    have hused₁ : fs₁.used = fs.used + k := by
      rw [hfs₁]
      rfl
    have hle := hwrote₁.layout.used_le
    rw [hblocks₁, List.length_append, length_newBlocks]
    simp only [dataSize] at *
    omega
  obtain ⟨hret₂, fs₂, F₂, hwrote₂, hfsize₂, -, hdata₂⟩ :=
    hwrote₁.layout.rewrote (u := u₂) hcount (hwrote₁.holds hx) hname (hwrote₁.key.trans hkey) hb
      hfsize₁.ge hsized₁ hroom₁
  refine ⟨(hwrote₁.trans hwrote₂).unique hwrote hx ?_ ?_, hret₁, hret₂, hret⟩
  · rw [hfsize₂, hfsize, hlen, Nat.add_assoc]
  · rw [hdata₂, hdata₁, splice_append, hdata]

/-- The file of a write, in its place. -/
theorem WritesInside.place (hs : Sound m d fs)
    (h : WritesInside m d (sscanf path.bytes) Fv offset buf) :
    ∃ (x : Place) (F : File), x.Holds F fs ∧ x.dname = (sscanf path.bytes).directory ∧
      F.key = (sscanf path.bytes).key ∧ Fv = F.view d.bytes ∧
      F.fsize ≤ dataSize * F.blocks.length ∧
      offset + buf.length ≤ dataSize * (F.blocks.length + (m - 2 - fs.used)) := by
  have hfile := h.file
  have hroom := h.room
  rw [hs.layout.diskView_eq] at hfile hroom
  obtain ⟨D, hD, -, hmem⟩ := View.mem_of_file? hfile
  have hsized := hs.sized D hD Fv hmem
  obtain ⟨x, F, hx, hname, hkey, rfl⟩ := file?_view hfile
  rw [File.view, length_dataOf] at hsized
  rw [View.HasRoom, ← hs.layout.used_eq, File.view, length_dataOf, ← Nat.mul_add] at hroom
  exact ⟨x, F, hx, hname, hkey, rfl, hsized, hroom⟩

theorem Sound.splitsAlike (hs : Sound m d fs) : SplitsAlike m d := by
  intro u u₁ u₂ path a b offset Fv ha hb h
  obtain ⟨x, F, hx, hname, hkey, rfl, hsized, hroom⟩ := h.place hs
  exact hs.layout.split h.count hx hname hkey ha hb h.offset_le hsized hroom u₁ u₂

theorem Sound.splicesIff (hs : Sound m d fs) : SplicesIff m d := by
  intro u path buf offset Fv h
  obtain ⟨x, F, hx, hname, hkey, rfl, hsized, hroom⟩ := h.place hs
  have hoffset : offset ≤ F.fsize := h.offset_le
  obtain ⟨hret, fs', F', hwrote, hfsize, hsized', hdata⟩ :=
    hs.layout.rewrote (u := u) h.count hx hname hkey h.ne_nil hoffset hsized hroom
  have hfile := (hwrote.holds hx).file?_view hwrote.layout
  rw [← hwrote.layout.diskView_eq, hwrote.key, hname, hkey] at hfile
  rw [File.view_fsize]
  constructor
  · rintro ⟨-, G, hG, hGsize, -⟩
    obtain rfl := Option.some.inj (hfile.symm.trans hG)
    rw [File.view_fsize, File.view_fsize, hfsize] at hGsize
    exact hGsize ▸ le_max_left _ _
  · intro hend
    refine ⟨hret, _, hfile, ?_, ?_⟩
    · rw [File.view_fsize, File.view_fsize, hfsize, max_eq_right hend]
    · have hlen : offset ≤ (dataOf d.bytes F.blocks).length := by
        rw [length_dataOf]
        exact hoffset.trans hsized
      have hnew : (F'.view ((Call.write path buf offset).run u d).2.bytes).contents =
          (splice (dataOf d.bytes F.blocks) offset buf).take (offset + buf.length) := by
        rw [← hdata, ← hfsize]
        rfl
      have hold : (F.view d.bytes).contents = (dataOf d.bytes F.blocks).take F.fsize := rfl
      rw [hnew, take_splice buf hlen, hold, List.take_take, min_eq_left hoffset,
        List.drop_eq_nil_of_le ((List.length_take_le _ _).trans hend), List.append_nil]

end write

/-! ## Runs -/

/-- **A write splices**, after a run from a disk of zeros in which no write failed and files
were made in directories that are there (`Flawless`), if and only if it does not end before
the file does. For the difference is a `size_t`, and the recorded size becomes the position
where the write ends, be it larger or smaller. -/
theorem splices_iff {m : ℕ} (hm : 2 ≤ m) (hlt : blockSize * m < 2 ^ 31)
    {calls : List (Uninit × Call)} (h : Guarded callStep (Flawless m) (zeroDisk m) calls) :
    Always callStep (SplicesIff m) (zeroDisk m) calls :=
  (sound_of_flawless hm hlt h).mono fun _ ⟨_, hs⟩ => hs.splicesIff

/-- A file of a block and one byte. -/
theorem splices_iff_one_byte :
    let u : Uninit := ⟨fun _ => 0, fun _ => 0⟩
    let dir : CString := ⟨[47, 100], by decide⟩
    let file : CString := ⟨[47, 100, 47, 97, 46, 98], by decide⟩
    Always callStep (SplicesIff 5) (zeroDisk 5)
      [(u, .mkdir dir), (u, .mknod file), (u, .write file (List.replicate 505 65) 0)] :=
  splices_iff (by decide) (by decide) (by decide +kernel)

/-- A byte written at the start of a file of two bytes leaves a file of one. -/
theorem overwrite_truncates :
    let u : Uninit := ⟨fun _ => 0, fun _ => 0⟩
    let dir : CString := ⟨[47, 100], by decide⟩
    let file : CString := ⟨[47, 100, 47, 97, 46, 98], by decide⟩
    let calls := [(u, Call.mkdir dir), (u, .mknod file), (u, .write file [65, 66] 0)]
    Guarded callStep (Flawless 5) (zeroDisk 5) calls ∧
      ¬ Always callStep (fun d => ∀ F, WritesInside 5 d (sscanf file.bytes) F 0 [67] →
        Spliced 5 (sscanf file.bytes) F 0 [67] ((Call.write file [67] 0).run u d))
          (zeroDisk 5) calls := by
  intro u dir file calls
  refine ⟨by decide +kernel, fun halways => ?_⟩
  have hlast := ((halways.2 _ rfl).2 _ rfl).2 _ rfl
  generalize hd₃ : ((Call.write file [65, 66] 0).run u
    ((Call.mknod file).run u ((Call.mkdir dir).run u (zeroDisk 5)).2).2).2 = d₃ at hlast
  have hfacts : (diskView 5 d₃).blocks = 2 ∧
      ((diskView 5 d₃).file? (sscanf file.bytes).directory (sscanf file.bytes).key).map
        FileView.fsize = some 2 ∧
      ((diskView 5 ((Call.write file [67] 0).run u d₃).2).file? (sscanf file.bytes).directory
        (sscanf file.bytes).key).map FileView.fsize = some 1 := by
    rw [← hd₃]
    decide +kernel
  obtain ⟨hblocks, htwo, hone⟩ := hfacts
  obtain ⟨F, hF, hsize⟩ := Option.map_eq_some_iff.mp htwo
  have hinside : WritesInside 5 d₃ (sscanf file.bytes) F 0 [67] :=
    ⟨by decide, hF, by decide, Nat.zero_le _, by
      rw [View.HasRoom, hblocks]
      exact le_add_left (show 0 + [(67 : UInt8)].length ≤ dataSize * (5 - 2 - 2) by decide)⟩
  obtain ⟨F', hF', hfsize, -⟩ := (hlast F hinside).file
  rw [hF', Option.map_some, hfsize, hsize] at hone
  exact absurd hone (by decide)

/-- **Splitting a write does not matter**, after a run from a disk of zeros in which no write
failed and files were made in directories that are there (`Flawless`): the disk is the same,
byte for byte, with the same blocks handed out. -/
theorem splits_alike {m : ℕ} (hm : 2 ≤ m) (hlt : blockSize * m < 2 ^ 31)
    {calls : List (Uninit × Call)} (h : Guarded callStep (Flawless m) (zeroDisk m) calls) :
    Always callStep (SplitsAlike m) (zeroDisk m) calls :=
  (sound_of_flawless hm hlt h).mono fun _ ⟨_, hs⟩ => hs.splitsAlike

/-- A file of a block and one byte, on a disk with room for more. -/
theorem splits_alike_one_byte :
    let u : Uninit := ⟨fun _ => 0, fun _ => 0⟩
    let dir : CString := ⟨[47, 100], by decide⟩
    let file : CString := ⟨[47, 100, 47, 97, 46, 98], by decide⟩
    Always callStep (SplitsAlike 6) (zeroDisk 6)
      [(u, .mkdir dir), (u, .mknod file), (u, .write file (List.replicate 505 65) 0)] :=
  splits_alike (by decide) (by decide) (by decide +kernel)

/-- A file made where there is no directory: its entry goes where the local variables of
`csc452_mknod` say, here to the block that the next directory gets. In it they also leave
an entry whose file has the block of the directory itself. A write to that file undoes
the change of its size, so the second of two writes is refused. -/
theorem split_is_refused :
    let u : Uninit := ⟨fun _ => 0, fun _ => 0⟩
    let u' : Uninit := ⟨Bytes.write (fun _ => 0) 0 ([1, 0, 0, 0] ++ [112, 0, 0, 0, 0, 0, 0, 0, 0] ++
      [113, 0, 0, 0] ++ longBytes 0 ++ longBytes 1024), Bytes.write (fun _ => 0) 0 [0, 4, 0, 0]⟩
    let dir : CString := ⟨[47, 100], by decide⟩
    let orphan : CString := ⟨[47, 122, 47, 114, 46, 115], by decide⟩
    let calls := [(u', Call.mknod orphan), (u, .mkdir dir)]
    Guarded callStep (fun d e => e.2.IsWrite → 0 ≤ (e.2.run e.1 d).1) (zeroDisk 4) calls ∧
      ¬ Always callStep (SplitsAlike 4) (zeroDisk 4) calls := by
  intro u u' dir orphan calls
  let file : CString := ⟨[47, 100, 47, 112, 46, 113], by decide⟩
  refine ⟨by decide +kernel, fun halways => ?_⟩
  have hlast := (halways.2 _ rfl).2 _ rfl
  generalize hd₂ : ((Call.mkdir dir).run u ((Call.mknod orphan).run u' (zeroDisk 4)).2).2 = d₂
    at hlast
  have hfacts : ((diskView 4 d₂).file? (sscanf file.bytes).directory (sscanf file.bytes).key).map
      (fun F => F.data.length) = some dataSize ∧
      ((Call.write file [66] (0 + [(65 : UInt8)].length)).run u
        ((Call.write file [65] 0).run u d₂).2).1 < 0 := by
    rw [← hd₂]
    decide +kernel
  obtain ⟨hfile, hrefused⟩ := hfacts
  obtain ⟨F, hF, hlen⟩ := Option.map_eq_some_iff.mp hfile
  have hinside : WritesInside 4 d₂ (sscanf file.bytes) F 0 ([65] ++ [66]) :=
    ⟨by decide, hF, by decide, Nat.zero_le _, by
      rw [View.HasRoom, hlen]
      exact Nat.le_add_right_of_le (by decide)⟩
  obtain ⟨-, -, hret, -⟩ := hlast u u u file [65] [66] 0 F (by decide) (by decide) hinside
  rw [hret] at hrefused
  exact absurd hrefused (by decide)

end Csc452.Fuse
