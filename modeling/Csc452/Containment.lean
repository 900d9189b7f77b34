import Csc452.DiskRuns

/-!
# Writes stay in their file

A write to a file changes the entry of the file, the blocks of the file and the
mark, and nothing else (`WriteContained`), in every run in which writes start
inside the blocks of their files or right behind them (`Inside`). The runs include
those in which the disk is full and writes have given up.

It does not hold without that condition. A write that gives up has already set
the size, and the next one trusts it: behind the last block of its file it comes to
the root block, and overwrites it (`write_escapes`). The code returns -EFBIG there
without an `fclose`. In the run of `write_escapes` the new size is on the disk all
the same: the write that gives up has moved on the same `FILE` since.
-/

namespace Csc452.Fuse

open Bytes (AgreeOn)
open ByteFile (Disk)
open Runs (Always Guarded)

/-! ## The statement -/

/-- What a write to the `j`-th file of a directory changes. Directories, files and
blocks are those read off the disk. -/
structure WriteContained (m : ℕ) (D : Dir) (j : ℕ) (F : File) (d d' : Disk) : Prop where
  /-- the entry of the file, the mark, and the blocks the file has in the end -/
  bytes : ∃ D' ∈ (snapshot m d').dirs, D'.dname = D.dname ∧ ∃ F' ∈ D'.files, F'.key = F.key ∧
    F.blocks ⊆ F'.blocks ∧ ∀ i, d'.bytes i ≠ d.bytes i →
      (D.block + fnameOffset j ≤ i ∧ i < D.block + fnameOffset j + 29) ∨
        (markAddress m ≤ i ∧ i < markAddress m + 8) ∨ ∃ b ∈ F'.blocks, b ≤ i ∧ i < b + blockSize
  /-- the root block does not change -/
  root : AgreeOn d.bytes d'.bytes 0 blockSize
  /-- nor do the blocks of other directories -/
  dirs : ∀ D₁ ∈ (snapshot m d).dirs, D₁ ≠ D → AgreeOn d.bytes d'.bytes D₁.block blockSize
  /-- nor do the blocks of other files -/
  files : ∀ D₁ ∈ (snapshot m d).dirs, ∀ F₁ ∈ D₁.files, ¬ (D₁ = D ∧ F₁ = F) →
    ∀ b ∈ F₁.blocks, AgreeOn d.bytes d'.bytes b blockSize

/-- If the call is a write to a file that is there, inside its size, it is
contained. -/
def CallContained (m : ℕ) (d : Disk) (e : Uninit × Call) : Prop :=
  ∀ path buf offset, e.2 = .write path buf offset → (sscanf path.bytes).count = 3 →
    ∀ D ∈ (snapshot m d).dirs, D.dname = (sscanf path.bytes).directory →
      ∀ j F, D.files[j]? = some F → F.key = (sscanf path.bytes).key → offset ≤ F.fsize →
        WriteContained m D j F d (e.2.run e.1 d).2

/-- A write that the code lets start starts inside the blocks of its file or right
behind them, and does not end where the size would read as -1. -/
def Call.StartsInside (call : Call) (v : View) : Prop :=
  match call with
  | .write _ buf offset =>
    ∀ F, v.file? call.comp.directory call.comp.key = some F → offset ≤ toSize (toInt F.fsize) →
      offset ≤ F.data.length ∧ toInt (offset + buf.length : ℕ) ≠ -1
  | _ => True

/-- The condition: paths fit, files are made in directories that are there, and
writes start inside the blocks of their files. -/
structure Inside (m : ℕ) (d : Disk) (e : Uninit × Call) : Prop where
  /-- the path -/
  fits : e.2.Fits
  /-- the directory -/
  parented : e.2.Parented (diskView m d)
  /-- the offset -/
  starts : e.2.StartsInside (diskView m d)

instance (call : Call) (v : View) : Decidable (call.StartsInside v) :=
  match call with
  | .mkdir _ => inferInstanceAs (Decidable True)
  | .mknod _ => inferInstanceAs (Decidable True)
  | .write path buf offset =>
    decidable_of_iff (∀ F ∈ v.file? (Call.write path buf offset).comp.directory
      (Call.write path buf offset).comp.key, offset ≤ toSize (toInt F.fsize) →
        offset ≤ F.data.length ∧ toInt (offset + buf.length : ℕ) ≠ -1) Iff.rfl

instance (m : ℕ) (d : Disk) (e : Uninit × Call) : Decidable (Inside m d e) :=
  decidable_of_iff (e.2.Fits ∧ e.2.Parented (diskView m d) ∧ e.2.StartsInside (diskView m d))
    ⟨fun h => ⟨h.1, h.2.1, h.2.2⟩, fun h => ⟨h.1, h.2, h.3⟩⟩

section contained

variable {m : ℕ} {d d' : Disk} {fs fs' : Fs} {v : View} {call : Call} {u : Uninit}
variable {D : Dir} {F : File} {n : List UInt8} {e : Effect}

theorem Call.StartsInside.legal (h : call.StartsInside v) (hparented : call.Parented v) :
    call.Legal v := by
  cases call with
  | mkdir path => trivial
  | mknod path => exact hparented
  | write path buf offset => exact fun F hF hoffset => (h F hF hoffset).1

/-! ## Sizes stay visible -/

/-- The size a write sets, when the size before and the end of the write are
visible. -/
theorem newSize_visible {fsize offset size : ℕ} (hfsize : toInt fsize ≠ -1)
    (hend : toInt (offset + size : ℕ) ≠ -1) : toInt (newSize fsize offset size) ≠ -1 := by
  rcases toInt_newSize fsize offset size with heq | heq
  · rw [heq]
    exact hfsize
  · rw [heq]
    exact hend

/-- What a call leaves. -/
theorem Outcome.visible {ret : ℤ} {v' : View} (h : Outcome m call v ret v') (hv : v.Visible) (hroom : Room m v)
    (hstarts : call.StartsInside v) : v'.Visible := by
  have hwritten : ∀ path buf offset F, call = .write path buf offset →
      v.file? call.comp.directory call.comp.key = some F → offset ≤ toSize (toInt F.fsize) →
      toInt (F.written offset buf).fsize ≠ -1 := by
    rintro path buf offset F rfl hF hoffset
    rw [FileView.written_fsize]
    obtain ⟨D, hD, -, hmem⟩ := View.mem_of_file? hF
    exact newSize_visible (hv D hD F hmem) (hstarts F hF hoffset).2
  rcases h with ⟨-, -, rfl⟩ | ⟨es, hcall, -, -, rfl⟩ | ⟨es, hcall, hfull, -, -, rfl | hpart⟩
  · exact hv
  · cases call with
    | mkdir path =>
      obtain ⟨-, hes⟩ := Option.ite_none_right_eq_some.mp hcall
      obtain rfl := Option.some.inj hes
      rw [Effect.applyAll_singleton]
      exact View.All.apply hv fun F hF => by cases hF
    | mknod path =>
      obtain ⟨-, hes⟩ := Option.ite_none_right_eq_some.mp hcall
      obtain rfl := Option.some.inj hes
      rw [Effect.applyAll_singleton]
      refine View.All.apply hv fun F hF => ?_
      rw [← Option.mem_some.mp hF]
      exact (by decide : toInt ((0 : ℕ) : ℤ) ≠ -1)
    | write path buf offset =>
      obtain ⟨-, F, hF, ⟨-, rfl⟩ | ⟨-, hoffset, rfl⟩⟩ := Call.respond_write hcall
      · exact hv
      rw [Effect.applyAll_singleton]
      refine View.All.apply hv fun G hG => ?_
      have hvisible := hwritten path buf offset F rfl hF hoffset
      rw [← Option.mem_some.mp hG]
      exact hvisible
  · exact hv
  · cases call with
    | mkdir path => exact hpart.elim
    | mknod path => exact hpart.elim
    | write path buf offset =>
      obtain ⟨F, data, hF, rfl⟩ := hpart
      obtain ⟨-, F', hF', ⟨-, rfl⟩ | ⟨-, hoffset, -⟩⟩ := Call.respond_write hcall
      · exact absurd hroom hfull
      obtain rfl : F = F' := Option.some.inj (hF.symm.trans hF')
      refine View.All.apply hv fun G hG => ?_
      have hvisible := hwritten path buf offset F rfl hF hoffset
      generalize F.written offset buf = W at *
      rw [← Option.mem_some.mp hG]
      exact hvisible

/-! ## Containment -/

/-- A block at one address and a byte of a block at another. -/
theorem BlockAddress.not_mem {a b i : ℕ} (ha : BlockAddress m a) (hb : BlockAddress m b)
    (hne : a ≠ b) (hi : a ≤ i ∧ i < a + blockSize) : ¬ (b ≤ i ∧ i < b + blockSize) := by
  rcases block_disjoint ha.dvd hb.dvd hne with hle | hle
  · omega
  · omega

/-- A write that only changes its own blocks, and spares every other target, is
contained. -/
theorem Confined.contained {j : ℕ} {g : Ghost} (h : Layout m d fs []) (h' : Layout m d' g.fs [])
    (hpending : g.pending true = []) (hD : D ∈ fs.dirs) (hj : D.files[j]? = some F)
    (hconf : Confined m true D.dname F.key (D.block + fsizeOffset j) (start fs d) (g, d'))
    (hspares : ∀ T', T' ≠ .file D.dname F.key → Spares T' d fs d' g.fs) :
    WriteContained m D j F d d' := by
  have hF := List.mem_of_getElem? hj
  have haddress : ∀ b ∈ fs.owned, BlockAddress m b ∧ blockSize ≤ b :=
    fun b hb => h.blockAddress (List.mem_append_left _ hb)
  have haddress' : ∀ b ∈ g.fs.owned, BlockAddress m b ∧ blockSize ≤ b :=
    fun b hb => h'.blockAddress (List.mem_append_left _ hb)
  have hDblock := haddress D.block (Layout.block_mem hD)
  have hfield : fnameOffset j + 29 ≤ blockSize :=
    fnameOffset_le (List.getElem?_eq_some_iff.mp hj).1 (h.dir D hD).length_le
  have howns : ∀ b, Owns true D.dname F.key (g, d') b →
      ∃ D' ∈ g.fs.dirs, D'.dname = D.dname ∧ ∃ F' ∈ D'.files, F'.key = F.key ∧ b ∈ F'.blocks := by
    rintro b (hb | hb)
    · rw [hpending] at hb
      exact absurd hb List.not_mem_nil
    · exact hb
  have hkeep : ∀ b ∈ F.blocks, Owns true D.dname F.key (g, d') b :=
    fun b hb => hconf.owns b (.inr ⟨D, hD, rfl, F, hF, rfl, hb⟩)
  -- the file afterwards is the one that has the first block
  obtain ⟨b₀, hb₀⟩ := List.exists_mem_of_ne_nil _ (h.chain D hD F hF).ne_nil
  obtain ⟨D', hD', hname, F', hF', hkey, -⟩ := howns b₀ (hkeep b₀ hb₀)
  have hall : ∀ b, Owns true D.dname F.key (g, d') b → b ∈ F'.blocks := by
    intro b hb
    obtain ⟨D'', hD'', hname', F'', hF'', hkey', hmem⟩ := howns b hb
    obtain rfl := h'.dir_unique hD'' hD' (hname'.trans hname.symm)
    obtain rfl := h'.file_unique hD'' hF'' hF' (hkey'.trans hkey.symm)
    exact hmem
  have howned' : ∀ b ∈ F'.blocks, b ∈ g.fs.owned :=
    fun b hb => Layout.mem_owned hD' (Layout.mem_dir_owned hF' hb)
  have hbytes : ∀ i, d'.bytes i ≠ d.bytes i →
      (D.block + fnameOffset j ≤ i ∧ i < D.block + fnameOffset j + 29) ∨
        (markAddress m ≤ i ∧ i < markAddress m + 8) ∨
          ∃ b ∈ F'.blocks, b ≤ i ∧ i < b + blockSize := by
    intro i hi
    rcases hconf.bytes i hi with hentry | hmark | ⟨b, hb, hle⟩
    · refine .inl ?_
      simp only [fsizeOffset] at hentry
      omega
    · exact .inr (.inl hmark)
    · exact .inr (.inr ⟨b, hall b hb, hle⟩)
  refine ⟨?_, ?_, ?_, ?_⟩
  · rw [h'.snapshot_eq]
    exact ⟨D', hD', hname, F', hF', hkey, fun b hb => hall b (hkeep b hb), hbytes⟩
  · intro i _ hi
    by_contra hne
    have hroot := h.rootAddress.le
    rcases hbytes i (Ne.symm hne) with hentry | hmark | ⟨b, hb, hle⟩
    · have := hDblock.2
      omega
    · omega
    · have := (haddress' b (howned' b hb)).2
      omega
  · rw [h.snapshot_eq]
    intro D₁ hD₁ hne i hle hlt
    by_contra hchanged
    have hD₁block := haddress D₁.block (Layout.block_mem hD₁)
    rcases hbytes i (Ne.symm hchanged) with hentry | hmark | ⟨b, hb, hin⟩
    · have hblocks : D₁.block ≠ D.block :=
        h.dir_disjoint hD₁ hD hne List.mem_cons_self List.mem_cons_self
      exact hD₁block.1.not_mem hDblock.1 hblocks ⟨hle, hlt⟩ (by omega)
    · have := hD₁block.1.le
      omega
    · obtain ⟨i₁, hi₁⟩ := List.getElem?_of_mem hD₁
      obtain ⟨D₁', hi₁', hkeeps⟩ := (hspares .idle (by simp)).dirs i₁ D₁ hi₁
      have hD₁' := List.mem_of_getElem? hi₁'
      have hne' : D₁' ≠ D' := by
        rintro rfl
        exact hne (h.dir_unique hD₁ hD (hkeeps.dname.symm.trans hname))
      have hb' : D₁'.block ≠ b :=
        h'.dir_disjoint hD₁' hD' hne' List.mem_cons_self (Layout.mem_dir_owned hF' hb)
      rw [hkeeps.block] at hb'
      exact hD₁block.1.not_mem (haddress' b (howned' b hb)).1 hb' ⟨hle, hlt⟩ hin
  · rw [h.snapshot_eq]
    intro D₁ hD₁ F₁ hF₁ hne
    obtain ⟨i₁, hi₁⟩ := List.getElem?_of_mem hD₁
    obtain ⟨j₁, hj₁⟩ := List.getElem?_of_mem hF₁
    have hx : Place.Holds ⟨i₁, D₁.dname, D₁.block, j₁⟩ F₁ fs := ⟨D₁, hi₁, rfl, rfl, hj₁⟩
    refine (hx.spares (hspares (.file D₁.dname F₁.key) fun heq => hne ?_)).2
    obtain ⟨hname₁, hkey₁⟩ := Target.file.inj heq
    obtain rfl := h.dir_unique hD₁ hD hname₁
    exact ⟨rfl, h.file_unique hD₁ hF₁ hF hkey₁⟩

theorem write_contained {path : CString} {buf : List UInt8} {offset j : ℕ} (h : Layout m d fs [])
    (hcount : (sscanf path.bytes).count = 3) (hD : D ∈ fs.dirs)
    (hname : D.dname = (sscanf path.bytes).directory) (hj : D.files[j]? = some F)
    (hkey : F.key = (sscanf path.bytes).key)
    (hoffset : offset ≤ toSize (toInt F.fsize) → offset ≤ dataSize * F.blocks.length) :
    WriteContained m D j F d ((Call.write path buf offset).run u d).2 := by
  obtain ⟨i, hi⟩ := List.getElem?_of_mem hD
  have hx : Place.Holds ⟨i, D.dname, D.block, j⟩ F fs := ⟨D, hi, rfl, rfl, hj⟩
  have hrun := fun T' hT' => write_spares u buf T'
    (.confined m _ true D.dname F.key (D.block + fsizeOffset j)) h hcount hx hname hkey
    hoffset (fun _ _ h => h.confined) hT'
  generalize ((Call.write path buf offset).run u d) = r at *
  obtain ⟨ret, d'⟩ := r
  obtain ⟨g, k, hends, hleft, -⟩ := hrun .idle (by simp)
  have hpending : g.pending true = [] := hends.pending
  have hlayout := hleft.layout hpending
  refine Confined.contained h hlayout hpending hD hj hleft.frame fun T' hT' => ?_
  -- every run of the request leaves the same file system
  obtain ⟨g', k', hends', hleft', hspares⟩ := hrun _ hT'
  have hlayout' := hleft'.layout hends'.pending
  have hsame : g'.fs = g.fs := hlayout'.snapshot_eq.symm.trans hlayout.snapshot_eq
  rwa [hsame] at hspares

end contained

/-! ## Runs -/

/-- **Containment.** In every run from a disk of zeros in which paths fit, files are made in
directories that are there, and writes that the code lets start do so inside the blocks of
their files (`Inside`): every write to a file that is there changes its entry, its blocks and
the mark, and nothing else. Some of the writes of the run may have given up because the disk
is full, and left a size behind that is too large. -/
theorem contained_of_inside {m : ℕ} (hm : 2 ≤ m) (hlt : blockSize * m < 2 ^ 31)
    {calls : List (Uninit × Call)} (h : Guarded callStep (Inside m) (zeroDisk m) calls) :
    Guarded callStep (CallContained m) (zeroDisk m) calls := by
  refine h.guarded (I := fun d => ∃ fs, Layout m d fs [] ∧ (fs.view d.bytes).Visible)
    ⟨_, Layout.zero hm hlt, fun _ hD => absurd hD List.not_mem_nil⟩ ?_
  rintro d ⟨u, call⟩ d' ⟨fs, hl, hvisible⟩ hinside hstep
  obtain rfl := Option.some.inj hstep
  have hview := hl.diskView_eq
  have hstarts : call.StartsInside (fs.view d.bytes) := hview ▸ hinside.starts
  have hlegal := hstarts.legal (hview ▸ hinside.parented)
  refine ⟨?_, ?_⟩
  · rintro path buf offset rfl hcount D hD hname j F hj hkey -
    rw [hl.snapshot_eq] at hD
    refine write_contained hl hcount hD hname hj hkey fun hoffset => ?_
    obtain ⟨i, hi⟩ := List.getElem?_of_mem hD
    have hx : Place.Holds ⟨i, D.dname, D.block, j⟩ F fs := ⟨D, hi, rfl, rfl, hj⟩
    have hfile := hx.file?_view hl
    simp only [hname, hkey] at hfile
    have hle := (hstarts _ hfile hoffset).1
    rwa [File.view, length_dataOf] at hle
  · obtain ⟨fs', hl', houtcome⟩ := Call.run_spec (u := u) hl hlegal hvisible
    exact ⟨fs', hl', houtcome.visible hvisible hl.room hstarts⟩

/-- A file, and two writes to it. -/
theorem contained_of_inside_writes :
    let u : Uninit := ⟨fun _ => 0, fun _ => 0⟩
    let d : CString := ⟨[47, 100], by decide⟩
    let f : CString := ⟨[47, 100, 47, 97, 46, 98], by decide⟩
    Guarded callStep (CallContained 5) (zeroDisk 5)
      [(u, .mkdir d), (u, .mknod f), (u, .write f [65] 0), (u, .write f [66] 1)] :=
  contained_of_inside (by decide) (by decide) (by decide +kernel)

/-- On a disk of five blocks, a write of 1009 bytes fills a block, takes the last
one that is left, fills that too and gives up, with the size set to 1009. The next
one, of a byte at offset 1009, changes the root block. -/
theorem write_escapes :
    let u : Uninit := ⟨fun _ => 0, fun _ => 0⟩
    let d : CString := ⟨[47, 100], by decide⟩
    let f : CString := ⟨[47, 100, 47, 97, 46, 98], by decide⟩
    ¬ Guarded callStep (CallContained 5) (zeroDisk 5)
      [(u, .mkdir d), (u, .mknod f), (u, .write f (List.replicate 1009 65) 0),
        (u, .write f [66] 1009)] := by
  intro u d f h
  have hcontained := ((((h _ rfl).2 _ rfl).2 _ rfl).2 _ rfl).1
  generalize hd₃ : ((Call.write f (List.replicate 1009 65) 0).run u
    ((Call.mknod f).run u ((Call.mkdir d).run u (zeroDisk 5)).2).2).2 = d₃ at hcontained
  have hfacts : (snapshot 5 d₃).dirs.map (fun D => (D.dname, D.files.map fun F => (F.key, F.fsize))) =
      [([100], [(([97], [98]), 1009)])] ∧
      d₃.bytes 1 ≠ ((Call.write f [66] 1009).run u d₃).2.bytes 1 := by
    rw [← hd₃]
    decide +kernel
  obtain ⟨hdirs, hbyte⟩ := hfacts
  obtain ⟨D, hD, hdir⟩ := List.map_eq_singleton_iff.mp hdirs
  obtain ⟨hname, hfiles⟩ := Prod.mk.inj hdir
  obtain ⟨F, hF, hfile⟩ := List.map_eq_singleton_iff.mp hfiles
  obtain ⟨hkey, hsize⟩ := Prod.mk.inj hfile
  have hroot := hcontained f [66] 1009 rfl (by decide) D (by rw [hD]; exact List.mem_cons_self) hname
    0 F (by rw [hF]; rfl) hkey (by omega)
  have hsame := hroot.root 1 (Nat.zero_le 1) (by decide)
  simp only at hsame
  exact hbyte hsame

end Csc452.Fuse
