import Csc452.Tables
import Csc452.View

/-!
# What the calls are for

The file system as a machine on views. A call that is accepted in a view has at
most one effect (`Call.respond`); whether there is room for it can be seen from
the view it leads to (`Room`), because the number of blocks in use can be counted
there (`View.blocks`).

The calls have preconditions that the code does not check (`Call.Legal`): a file
is made in a directory that is there, and a write that starts inside the recorded
size of its file starts in its blocks or right behind them. The second one holds as
long as no recorded size is larger than the contents.
-/

namespace Csc452.Fuse

/-! ## The calls -/

/-- A call that may change the disk. -/
inductive Call : Type where
  /-- `csc452_mkdir` -/
  | mkdir (path : CString)
  /-- `csc452_mknod` -/
  | mknod (path : CString)
  /-- `csc452_write` -/
  | write (path : CString) (buf : List UInt8) (offset : ℕ)

/-- The path of a call, as the code takes it apart. -/
def Call.comp : Call → PathComp
  | .mkdir path => sscanf path.bytes
  | .mknod path => sscanf path.bytes
  | .write path _ _ => sscanf path.bytes

/-- The name and the extension in a path. -/
def PathComp.key (p : PathComp) : List UInt8 × List UInt8 := (p.filename, p.extension)

/-- What the code does for a call. -/
def Call.request (u : Uninit) : Call → Request ℤ
  | .mkdir path => csc452Mkdir u path
  | .mknod path => csc452Mknod u path
  | .write path buf offset => csc452Write u path buf offset

/-- What a call is about. -/
def Call.target (call : Call) : Target :=
  match call with
  | .mkdir _ => .dir call.comp.directory
  | _ => .file call.comp.directory call.comp.key

/-! ## Sizes -/

/-- The size `csc452_write` sets. It reads the recorded size as an `int` and adds
the difference to it. -/
def newSize (fsize offset size : ℕ) : ℕ :=
  let increase := toSize ((offset : ℤ) - toSize (toInt fsize) + size)
  if increase > 0 then toSize ((fsize : ℤ) + increase) else fsize

theorem toInt_natCast {n : ℕ} (h : n < 2 ^ 31) : toInt n = n := by
  rw [toInt, Int.bmod]
  omega

/-- The `int` is a `size_t` again. -/
theorem toSize_toInt_natCast {n : ℕ} (h : n < 2 ^ 31) : toSize (toInt n) = n := by
  rw [toInt_natCast h, toSize_natCast (h.trans (by decide))]

theorem toSize_toInt_eq {z : ℤ} : toSize (toInt z) = toSize (-1) ↔ toInt z = -1 := by
  simp only [toSize, toInt, Int.bmod]
  omega

/-- It is where the write ends, as a `size_t`. -/
theorem newSize_eq_mod {fsize : ℕ} (hfsize : fsize < 2 ^ 31) (offset size : ℕ) :
    newSize fsize offset size = (offset + size) % 2 ^ 64 := by
  rw [newSize, toInt_natCast hfsize, toSize_natCast (hfsize.trans (by decide))]
  generalize hinc : toSize ((offset : ℤ) - fsize + size) = increase
  rw [toSize] at hinc
  split
  · rw [toSize]
    omega
  · omega

theorem newSize_eq {fsize offset size : ℕ} (hfsize : fsize < 2 ^ 31) (h : offset + size < 2 ^ 64) :
    newSize fsize offset size = offset + size :=
  (newSize_eq_mod hfsize offset size).trans (Nat.mod_eq_of_lt h)

/-- It is another one, unless the write ends at the recorded size. -/
theorem newSize_ne {fsize offset size : ℕ} (hfsize : fsize < 2 ^ 31) (hoffset : offset ≤ fsize)
    (hsize : size < 2 ^ 64) (hne : offset + size ≠ fsize) : newSize fsize offset size ≠ fsize := by
  rw [newSize_eq_mod hfsize]
  omega

theorem toSize_emod (z : ℤ) : (toSize z : ℤ) % 2 ^ 32 = z % 2 ^ 32 := by
  rw [toSize]
  omega

theorem toInt_emod (z : ℤ) : toInt z % 2 ^ 32 = z % 2 ^ 32 := Int.bmod_emod

theorem toInt_congr {y z : ℤ} (h : y % 2 ^ 32 = z % 2 ^ 32) : toInt y = toInt z := by
  have h' : y % (2 ^ 32 : ℕ) = z % (2 ^ 32 : ℕ) := by exact_mod_cast h
  rw [toInt, toInt, Int.bmod, Int.bmod, h']

/-- As an `int`, it always is. -/
theorem toInt_newSize (fsize offset size : ℕ) :
    newSize fsize offset size = fsize ∨
      toInt (newSize fsize offset size) = toInt (offset + size : ℕ) := by
  rw [newSize]
  split
  · refine .inr (toInt_congr ?_)
    have hold := (toSize_emod (toInt fsize)).trans (toInt_emod fsize)
    have hinc := toSize_emod ((offset : ℤ) - toSize (toInt fsize) + size)
    rw [toSize_emod]
    push_cast
    omega
  · exact .inl rfl

/-! ## Looking up -/

/-- The directory with a name. -/
def View.dir? (v : View) (n : List UInt8) : Option DirView := v.find? fun D => D.dname = n

/-- The file with a name and an extension. -/
def DirView.file? (D : DirView) (key : List UInt8 × List UInt8) : Option FileView :=
  D.files.find? fun F => F.key = key

/-- The file with a name and an extension in a directory. -/
def View.file? (v : View) (n : List UInt8) (key : List UInt8 × List UInt8) : Option FileView :=
  (v.dir? n).bind fun D => D.file? key

/-! ## The machine -/

/-- The view of a new file. -/
def newFile (p : PathComp) : FileView where
  fname := p.filename
  fext := p.extension
  fsize := 0
  data := List.replicate dataSize 0

/-- A file after a write. -/
def FileView.written (F : FileView) (offset : ℕ) (buf : List UInt8) : FileView where
  fname := F.fname
  fext := F.fext
  fsize := newSize F.fsize offset buf.length
  data := splice F.data offset buf

theorem FileView.written_fsize {F : FileView} {offset : ℕ} {buf : List UInt8} :
    (F.written offset buf).fsize = newSize F.fsize offset buf.length := by
  rw [FileView.written]

theorem FileView.written_key {F : FileView} {offset : ℕ} {buf : List UInt8} :
    (F.written offset buf).key = F.key := by
  rw [FileView.key, FileView.written, FileView.key]

/-- The effects of a call that is accepted, if there is room for them. -/
def Call.respond (call : Call) (v : View) : Option (List Effect) :=
  let p := call.comp
  match call with
  | .mkdir _ =>
    if p.count = 1 ∧ p.directory.length ≤ 8 ∧ v.dir? p.directory = none then
      some [.addDir p.directory]
    else none
  | .mknod _ =>
    if p.count = 3 ∧ p.filename.length ≤ 8 ∧ p.extension.length ≤ 3 ∧ v.dir? p.directory ≠ none ∧
        v.file? p.directory p.key = none then
      some [.addFile p.directory (newFile p)]
    else none
  | .write _ buf offset =>
    if p.count = 3 then
      match v.file? p.directory p.key with
      | none => none
      | some F =>
        if toInt F.fsize = -1 then none
        else if buf = [] then some []
        else if toSize (toInt F.fsize) < offset then none
        else some [.setFile p.directory (F.written offset buf)]
    else none

/-- A write is accepted when its file is there and it starts inside of the recorded
size. -/
theorem Call.respond_write {path : CString} {buf : List UInt8} {offset : ℕ} {v : View}
    {es : List Effect} (h : (Call.write path buf offset).respond v = some es) :
    (sscanf path.bytes).count = 3 ∧
      ∃ F, v.file? (sscanf path.bytes).directory (sscanf path.bytes).key = some F ∧
      (buf = [] ∧ es = [] ∨ buf ≠ [] ∧ offset ≤ toSize (toInt F.fsize) ∧
        es = [.setFile (sscanf path.bytes).directory (F.written offset buf)]) := by
  obtain ⟨hcount, h⟩ := Option.ite_none_right_eq_some.mp h
  simp only [comp] at h
  rcases hF : v.file? (sscanf path.bytes).directory (sscanf path.bytes).key with _ | F
  · rw [hF] at h
    cases h
  simp only [hF] at h
  obtain ⟨-, h⟩ := Option.ite_none_left_eq_some.mp h
  refine ⟨hcount, F, rfl, ?_⟩
  rcases eq_or_ne buf [] with rfl | hbuf
  · rw [if_pos rfl] at h
    exact .inl ⟨rfl, (Option.some.inj h).symm⟩
  · rw [if_neg hbuf] at h
    obtain ⟨hoffset, h⟩ := Option.ite_none_left_eq_some.mp h
    exact .inr ⟨hbuf, not_lt.mp hoffset, (Option.some.inj h).symm⟩

theorem Call.respond_write_eq {path : CString} {buf : List UInt8} {offset : ℕ} {v : View}
    {F : FileView} (hcount : (sscanf path.bytes).count = 3)
    (hF : v.file? (sscanf path.bytes).directory (sscanf path.bytes).key = some F)
    (hvisible : toInt F.fsize ≠ -1) (hbuf : buf ≠ []) (hoffset : offset ≤ toSize (toInt F.fsize)) :
    (Call.write path buf offset).respond v =
      some [.setFile (sscanf path.bytes).directory (F.written offset buf)] := by
  simp only [respond, comp, hF, if_pos hcount, if_neg hvisible, if_neg hbuf,
    if_neg (not_lt.mpr hoffset)]

/-- The number of blocks in use. -/
def View.blocks (v : View) : ℕ :=
  (v.map fun D => 1 + (D.files.map fun F => F.data.length / dataSize).sum).sum

/-- A disk of `m` blocks and the tables on it have room for a view. -/
structure Room (m : ℕ) (v : View) : Prop where
  /-- the root block -/
  dirs : v.length ≤ maxDirsInRoot
  /-- the directory blocks -/
  files : ∀ D ∈ v, D.files.length ≤ maxFilesInDir
  /-- the disk, with the root block and the block with the mark -/
  blocks : v.blocks + 2 ≤ m

/-- What the code does not check. -/
def Call.Legal (call : Call) (v : View) : Prop :=
  match call with
  | .mkdir _ => True
  | .mknod _ => call.comp.count = 3 → v.dir? call.comp.directory ≠ none
  | .write _ _ offset =>
    ∀ F, v.file? call.comp.directory call.comp.key = some F →
      offset ≤ toSize (toInt F.fsize) → offset ≤ F.data.length

/-- No recorded size reads as -1. -/
def View.Visible (v : View) : Prop := ∀ D ∈ v, ∀ F ∈ D.files, toInt F.fsize ≠ -1

/-- Names are known once, and contents come in blocks. -/
structure View.Proper (v : View) : Prop where
  /-- the names of directories -/
  dirs_nodup : (v.map DirView.dname).Nodup
  /-- the names of files -/
  files_nodup : ∀ D ∈ v, (D.files.map FileView.key).Nodup
  /-- the contents -/
  data : ∀ D ∈ v, ∀ F ∈ D.files, dataSize ∣ F.data.length

/-! ## Looking up after an effect -/

namespace View

variable {v : View} {n n' : List UInt8} {D : DirView} {key : List UInt8 × List UInt8}

theorem dir?_eq_some (h : v.dir? n = some D) : D ∈ v ∧ D.dname = n :=
  ⟨List.mem_of_find?_eq_some h, by simpa using List.find?_some h⟩

theorem dir?_eq_none : v.dir? n = none ↔ ∀ D ∈ v, D.dname ≠ n := by
  simp [dir?]

theorem file?_eq_some {F : FileView} (h : v.file? n key = some F) :
    ∃ D, v.dir? n = some D ∧ F ∈ D.files ∧ F.key = key := by
  obtain ⟨D, hD, hF⟩ := Option.bind_eq_some_iff.mp h
  exact ⟨D, hD, List.mem_of_find?_eq_some hF, by simpa using List.find?_some hF⟩

theorem dir?_modifyDir (f : List FileView → List FileView) :
    (modifyDir n' f v).dir? n =
      (v.dir? n).map fun D => if D.dname = n' then { D with files := f D.files } else D := by
  rw [dir?, modifyDir, List.find?_map, dir?]
  refine congrArg (Option.map _) (congrArg (fun p => List.find? p v) (funext fun D => ?_))
  simp only [Function.comp_apply]
  split <;> rfl

end View

namespace Effect

variable {v : View} {n : List UInt8} {D : DirView} {key : List UInt8 × List UInt8} {e : Effect}

/-- Only one effect makes a directory. -/
theorem dir?_apply (h : e.target ≠ .dir n) : (e.apply v).dir? n = none ↔ v.dir? n = none := by
  cases e with
  | addDir n' =>
    have hne : n' ≠ n := fun heq => h (by rw [target, heq])
    simp [apply, View.dir?, hne]
  | addFile n' F => simp [apply, View.dir?_modifyDir]
  | setFile n' F => simp [apply, View.dir?_modifyDir]

theorem file?_append {F : FileView} (h : F.key ≠ key) :
    ({ D with files := D.files ++ [F] } : DirView).file? key = D.file? key := by
  simp [DirView.file?, h]

theorem file?_replace {F : FileView} (h : F.key ≠ key) :
    ({ D with files := View.replace F D.files } : DirView).file? key = D.file? key := by
  simp only [DirView.file?, View.replace, List.find?_map]
  have hsame : ((fun G : FileView => decide (G.key = key)) ∘
      fun G => if G.key = F.key then F else G) = fun G => decide (G.key = key) := by
    funext G
    simp only [Function.comp_apply]
    split
    · next hG => rw [decide_eq_false h, decide_eq_false (hG ▸ h)]
    · rfl
  rw [hsame]
  rcases hfind : List.find? (fun G : FileView => decide (G.key = key)) D.files with _ | G
  · rfl
  · have hG : G.key = key := by simpa using List.find?_some hfind
    rw [Option.map_some, if_neg (hG ▸ h.symm)]

/-- A file that is replaced is the new one. -/
theorem file?_setFile {F W : FileView} (h : v.file? n W.key = some F) :
    ((setFile n W).apply v).file? n W.key = some W := by
  obtain ⟨D, hD, hF⟩ := Option.bind_eq_some_iff.mp h
  rw [apply, View.file?, View.dir?_modifyDir, hD, Option.map_some, Option.bind_some,
    if_pos (View.dir?_eq_some hD).2]
  rw [DirView.file?] at hF
  simp only [DirView.file?, View.replace, List.find?_map]
  have hsame : ((fun G : FileView => decide (G.key = W.key)) ∘
      fun G => if G.key = W.key then W else G) = fun G => decide (G.key = W.key) := by
    funext G
    simp only [Function.comp_apply]
    split
    · next hG => rw [decide_eq_true hG, decide_eq_true rfl]
    · rfl
  have hkey : F.key = W.key := by simpa using List.find?_some hF
  rw [hsame, hF, Option.map_some, if_pos hkey]

/-- An effect that is not about a file leaves it as it is. -/
theorem file?_apply (h : e.target ≠ .file n key) : (e.apply v).file? n key = v.file? n key := by
  have hmodify : ∀ n' (f : List FileView → List FileView),
      (n' = n → ∀ D : DirView, ({ D with files := f D.files } : DirView).file? key = D.file? key) →
      (View.modifyDir n' f v).file? n key = v.file? n key := by
    intro n' f hf
    rw [View.file?, View.file?, View.dir?_modifyDir]
    rcases hD : v.dir? n with _ | D
    · rfl
    · rw [Option.map_some, Option.bind_some, Option.bind_some]
      split
      · next hn => exact hf (hn.symm.trans (View.dir?_eq_some hD).2) D
      · rfl
  cases e with
  | addDir n' =>
    rw [apply, View.file?, View.file?, View.dir?, List.find?_append]
    rcases hD : List.find? (fun D : DirView => decide (D.dname = n)) v with _ | D
    · by_cases hn : n' = n
      · simp [View.dir?, hD, hn, DirView.file?]
      · simp [View.dir?, hD, hn]
    · simp [View.dir?, hD]
  | addFile n' F =>
    exact hmodify n' (· ++ [F]) fun hn D =>
      file?_append fun hkey => h (by rw [target, hn, hkey])
  | setFile n' F =>
    exact hmodify n' (View.replace F) fun hn D =>
      file?_replace fun hkey => h (by rw [target, hn, hkey])

end Effect

/-! ## Several effects -/

section effects

variable {call : Call} {v : View} {es : List Effect} {n : List UInt8}
variable {key : List UInt8 × List UInt8}

theorem Effect.file?_applyAll (hes : ∀ e ∈ es, e.target ≠ .file n key) :
    (Effect.applyAll es v).file? n key = v.file? n key := by
  induction es generalizing v with
  | nil => rfl
  | cons e es ih =>
    have hrest := ih (v := e.apply v) fun e' he' => hes e' (List.mem_cons_of_mem _ he')
    exact hrest.trans (Effect.file?_apply (hes e List.mem_cons_self))

/-- The effects of a call are about its target. -/
theorem Call.respond_target (hcall : call.respond v = some es) : ∀ e ∈ es, e.target = call.target := by
  intro e he
  cases call with
  | mkdir path =>
    obtain ⟨-, hes⟩ := Option.ite_none_right_eq_some.mp hcall
    obtain rfl := Option.some.inj hes
    rw [List.mem_singleton.mp he]
    rfl
  | mknod path =>
    obtain ⟨-, hes⟩ := Option.ite_none_right_eq_some.mp hcall
    obtain rfl := Option.some.inj hes
    rw [List.mem_singleton.mp he]
    rfl
  | write path buf offset =>
    obtain ⟨-, F, hF, ⟨-, rfl⟩ | ⟨-, -, rfl⟩⟩ := Call.respond_write hcall
    · exact absurd he List.not_mem_nil
    · obtain ⟨-, -, -, hkey⟩ := View.file?_eq_some hF
      rw [List.mem_singleton.mp he, Effect.target, FileView.written_key, hkey]
      rfl

end effects

/-! ## Counting blocks -/

/-- The blocks of a list of files. -/
def fileBlocks (files : List FileView) : ℕ := (files.map fun F => F.data.length / dataSize).sum

theorem fileBlocks_append {files files' : List FileView} :
    fileBlocks (files ++ files') = fileBlocks files + fileBlocks files' := by
  simp [fileBlocks]

theorem fileBlocks_cons {F : FileView} {files : List FileView} :
    fileBlocks (F :: files) = F.data.length / dataSize + fileBlocks files := by
  simp [fileBlocks]

theorem View.blocks_append {v v' : View} : View.blocks (v ++ v') = v.blocks + View.blocks v' := by
  simp [View.blocks]

theorem View.blocks_cons {D : DirView} {v : View} :
    View.blocks (D :: v) = 1 + fileBlocks D.files + v.blocks := by
  simp [View.blocks, fileBlocks]

namespace View

variable {v : View} {n : List UInt8} {D : DirView} {F W : FileView} {m : ℕ}
variable {files : List FileView}

/-- With names that are known once, exactly one directory changes. -/
theorem modifyDir_split (hnodup : (v.map DirView.dname).Nodup) (hD : v.dir? n = some D) :
    ∃ l₁ l₂, v = l₁ ++ D :: l₂ ∧
      ∀ f, modifyDir n f v = l₁ ++ { D with files := f D.files } :: l₂ := by
  obtain ⟨hmem, rfl⟩ := dir?_eq_some hD
  obtain ⟨l₁, l₂, rfl⟩ := List.append_of_mem hmem
  refine ⟨l₁, l₂, rfl, fun f => ?_⟩
  rw [List.map_append, List.map_cons, List.nodup_append, List.nodup_cons] at hnodup
  have hid : ∀ l : View, (∀ D' ∈ l, D'.dname ≠ D.dname) → modifyDir D.dname f l = l :=
    fun l hl => (List.map_congr_left fun D' hD' => if_neg (hl D' hD')).trans (List.map_id l)
  have hl₁ := hid l₁ fun D' hD' =>
    hnodup.2.2 _ (List.mem_map_of_mem hD') _ List.mem_cons_self
  have hl₂ := hid l₂ fun D' hD' heq => hnodup.2.1.1 (heq ▸ List.mem_map_of_mem hD')
  have happend : modifyDir D.dname f (l₁ ++ D :: l₂) =
      modifyDir D.dname f l₁ ++ { D with files := f D.files } :: modifyDir D.dname f l₂ := by
    simp [modifyDir]
  rw [happend, hl₁, hl₂]

/-- With keys that are known once, exactly one file is replaced. -/
theorem replace_split (hnodup : (files.map FileView.key).Nodup) (hF : F ∈ files)
    (hkey : W.key = F.key) :
    ∃ l₁ l₂, files = l₁ ++ F :: l₂ ∧ replace W files = l₁ ++ W :: l₂ := by
  obtain ⟨l₁, l₂, rfl⟩ := List.append_of_mem hF
  refine ⟨l₁, l₂, rfl, ?_⟩
  rw [List.map_append, List.map_cons, List.nodup_append, List.nodup_cons] at hnodup
  have hid : ∀ l : List FileView, (∀ G ∈ l, G.key ≠ F.key) → replace W l = l :=
    fun l hl => (List.map_congr_left fun G hG => if_neg (hkey ▸ hl G hG)).trans (List.map_id l)
  have hl₁ := hid l₁ fun G hG => hnodup.2.2 _ (List.mem_map_of_mem hG) _ List.mem_cons_self
  have hl₂ := hid l₂ fun G hG heq => hnodup.2.1.1 (heq ▸ List.mem_map_of_mem hG)
  have happend : replace W (l₁ ++ F :: l₂) = replace W l₁ ++ W :: replace W l₂ := by
    simp [replace, hkey]
  rw [happend, hl₁, hl₂]

theorem blocks_addDir : ((Effect.addDir n).apply v).blocks = v.blocks + 1 := by
  rw [Effect.apply, blocks_append, blocks_cons]
  rfl

theorem blocks_addFile (h : v.Proper) (hD : v.dir? n = some D) :
    ((Effect.addFile n F).apply v).blocks = v.blocks + F.data.length / dataSize := by
  obtain ⟨l₁, l₂, hsplit, hmodify⟩ := modifyDir_split h.dirs_nodup hD
  rw [Effect.apply, hmodify, hsplit, blocks_append, blocks_append, blocks_cons, blocks_cons,
    fileBlocks_append, fileBlocks_cons]
  simp only [fileBlocks, List.map_nil, List.sum_nil]
  omega

theorem blocks_setFile (h : v.Proper) (hF : v.file? n F.key = some F) (hkey : W.key = F.key) :
    ((Effect.setFile n W).apply v).blocks + F.data.length / dataSize =
      v.blocks + W.data.length / dataSize := by
  obtain ⟨D, hD, hmem, -⟩ := file?_eq_some hF
  obtain ⟨l₁, l₂, hsplit, hmodify⟩ := modifyDir_split h.dirs_nodup hD
  obtain ⟨f₁, f₂, hfiles, hreplace⟩ := replace_split (h.files_nodup D (dir?_eq_some hD).1) hmem hkey
  rw [Effect.apply, hmodify, hreplace, hsplit, blocks_append, blocks_append, blocks_cons,
    blocks_cons, hfiles, fileBlocks_append, fileBlocks_append, fileBlocks_cons, fileBlocks_cons]
  omega

end View

/-! ## Room -/

theorem length_grow_ge (data : List UInt8) (p : ℕ) : data.length ≤ (grow data p).length := by
  rw [grow]
  split
  · rw [List.length_append]
    exact Nat.le_add_right _ _
  · exact le_refl _

theorem lt_length_grow {data : List UInt8} {p : ℕ} (h : p ≤ data.length) :
    p < (grow data p).length := by
  rw [grow]
  split
  · rw [List.length_append, List.length_replicate, dataSize]
    omega
  · omega

theorem dvd_length_grow {data : List UInt8} {p : ℕ} (h : dataSize ∣ data.length) :
    dataSize ∣ (grow data p).length := by
  rw [grow]
  split
  · rw [List.length_append, List.length_replicate]
    exact Nat.dvd_add h (dvd_refl _)
  · exact h

theorem length_splice_ge (data : List UInt8) (p : ℕ) (buf : List UInt8) :
    data.length ≤ (splice data p buf).length := by
  induction buf generalizing data p with
  | nil => exact le_refl _
  | cons c buf ih =>
    have hset : ((grow data p).set p c).length = (grow data p).length := List.length_set
    exact ((length_grow_ge data p).trans hset.ge).trans (ih _ _)

/-- A write has room for all of its bytes. -/
theorem le_length_splice {data : List UInt8} {p : ℕ} (buf : List UInt8) (h : p ≤ data.length) :
    p + buf.length ≤ (splice data p buf).length := by
  induction buf generalizing data p with
  | nil => exact h
  | cons c buf ih =>
    have hlt : p + 1 ≤ ((grow data p).set p c).length := by
      rw [List.length_set]
      exact lt_length_grow h
    have hrest := ih hlt
    rw [splice, List.length_cons]
    omega

/-- Contents either keep their length, or grow to the block with the last byte. -/
theorem length_splice_lt {data : List UInt8} {p : ℕ} (buf : List UInt8) (h : p ≤ data.length) :
    (splice data p buf).length = data.length ∨
      (splice data p buf).length < p + buf.length + dataSize := by
  induction buf generalizing data p with
  | nil => exact .inl rfl
  | cons c buf ih =>
    have hlt : p + 1 ≤ ((grow data p).set p c).length := by
      rw [List.length_set]
      exact lt_length_grow h
    have hrest := ih hlt
    have hgrow : (grow data p).length = data.length ∨ (grow data p).length = p + dataSize := by
      rw [grow]
      split
      · next hp =>
        rw [List.length_append, List.length_replicate, ← hp]
        exact .inr rfl
      · exact .inl rfl
    rw [splice, List.length_cons]
    rw [List.length_set] at hrest
    omega

theorem dvd_length_splice {data : List UInt8} (p : ℕ) (buf : List UInt8)
    (h : dataSize ∣ data.length) : dataSize ∣ (splice data p buf).length := by
  induction buf generalizing data p with
  | nil => exact h
  | cons c buf ih =>
    refine ih _ ?_
    rw [List.length_set]
    exact dvd_length_grow h

end Csc452.Fuse
