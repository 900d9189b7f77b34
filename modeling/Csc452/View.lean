import Mathlib.Data.List.Basic
import Mathlib.Data.List.Nodup

/-!
# The file system as its users see it

Directories with files, files with a name, an extension, a recorded size and
contents, and nothing about where on the disk any of it is. The contents of a
file are the data of all its blocks, so they come in pieces of 504 bytes and go
on behind the recorded size.

Requests change a view in three ways (`Effect`): a directory is added, a file is
added to a directory, or a file gets a new size and new contents. Effects on
different targets commute, except that two additions to the same list come in
some order (`Effect.setFile_comm`).

`splice` is what a write does to the contents: it overwrites, and where the
contents end it adds a block of zeros first.
-/

namespace Csc452.Fuse

/-- A file. -/
structure FileView : Type where
  /-- the name -/
  fname : List UInt8
  /-- the extension -/
  fext : List UInt8
  /-- the recorded size -/
  fsize : ℕ
  /-- the data of its blocks -/
  data : List UInt8
  deriving DecidableEq

/-- What a file is looked up by. -/
def FileView.key (F : FileView) : List UInt8 × List UInt8 := (F.fname, F.fext)

/-- A directory. -/
structure DirView : Type where
  /-- the name -/
  dname : List UInt8
  /-- the files, in the order in which they were made -/
  files : List FileView
  deriving DecidableEq

/-- All directories, in the order in which they were made. -/
abbrev View : Type := List DirView

namespace View

/-- Change the files of the directories with a name. -/
def modifyDir (n : List UInt8) (f : List FileView → List FileView) (v : View) : View :=
  v.map fun D => if D.dname = n then { D with files := f D.files } else D

/-- Replace the file with the key of `F` by `F`. -/
def replace (F : FileView) (files : List FileView) : List FileView :=
  files.map fun F' => if F'.key = F.key then F else F'

end View

/-- A change of a view. -/
inductive Effect : Type where
  /-- a directory is added -/
  | addDir (n : List UInt8)
  /-- a file is added to a directory -/
  | addFile (n : List UInt8) (F : FileView)
  /-- a file of a directory is replaced -/
  | setFile (n : List UInt8) (F : FileView)

/-- The view after an effect. -/
def Effect.apply : Effect → View → View
  | .addDir n, v => v ++ [⟨n, []⟩]
  | .addFile n F, v => View.modifyDir n (· ++ [F]) v
  | .setFile n F, v => View.modifyDir n (View.replace F) v

/-- The view after a list of effects. -/
def Effect.applyAll (es : List Effect) (v : View) : View := es.foldl (fun v e => e.apply v) v

theorem Effect.applyAll_append (es es' : List Effect) (v : View) :
    applyAll (es ++ es') v = applyAll es' (applyAll es v) :=
  List.foldl_append

theorem Effect.applyAll_singleton (e : Effect) (v : View) : applyAll [e] v = e.apply v := rfl

/-- What a request is about. -/
inductive Target : Type where
  /-- nothing -/
  | idle
  /-- the directory it makes -/
  | dir (n : List UInt8)
  /-- the file it makes or writes -/
  | file (n : List UInt8) (key : List UInt8 × List UInt8)
  deriving DecidableEq

/-- What an effect is about. -/
def Effect.target : Effect → Target
  | .addDir n => .dir n
  | .addFile n F => .file n F.key
  | .setFile n F => .file n F.key

/-! ## What all files have in common -/

/-- Every file has a property. -/
def View.All (P : FileView → Prop) (v : View) : Prop := ∀ D ∈ v, ∀ F ∈ D.files, P F

/-- The file an effect adds or sets. -/
def Effect.file? : Effect → Option FileView
  | .addDir _ => none
  | .addFile _ F => some F
  | .setFile _ F => some F

theorem View.All.modifyDir {P : FileView → Prop} {v : View} {n : List UInt8}
    {f : List FileView → List FileView} (h : v.All P)
    (hf : ∀ D ∈ v, ∀ F ∈ f D.files, F ∈ D.files ∨ P F) : (View.modifyDir n f v).All P := by
  intro D' hD' F hF
  obtain ⟨D, hD, rfl⟩ := List.mem_map.mp hD'
  split at hF
  · exact (hf D hD F hF).elim (h D hD F) id
  · exact h D hD F hF

/-- A property of all files is kept by an effect when the file it adds or sets
has it. -/
theorem View.All.apply {P : FileView → Prop} {v : View} {e : Effect} (h : v.All P)
    (he : ∀ F ∈ e.file?, P F) : (e.apply v).All P := by
  cases e with
  | addDir n =>
    intro D hD F hF
    rcases List.mem_append.mp hD with hD | hD
    · exact h D hD F hF
    · rw [List.mem_singleton.mp hD] at hF
      exact absurd hF List.not_mem_nil
  | addFile n F =>
    refine View.All.modifyDir (f := (· ++ [F])) h fun D _ G hG => ?_
    refine (List.mem_append.mp hG).imp_right fun hG => ?_
    rw [List.mem_singleton.mp hG]
    exact he F rfl
  | setFile n F =>
    refine h.modifyDir fun D _ G hG => ?_
    obtain ⟨G', hG', rfl⟩ := List.mem_map.mp hG
    split
    · exact .inr (he F rfl)
    · exact .inl hG'

/-! ## Effects on different targets -/

namespace View

variable {n n' : List UInt8} {F F' : FileView} {files : List FileView} {v : View}

theorem replace_append : replace F (files ++ [F']) =
    replace F files ++ [if F'.key = F.key then F else F'] := by
  simp [replace]

theorem replace_replace (h : F'.key = F.key) : replace F (replace F' files) = replace F files := by
  simp only [replace, List.map_map]
  refine List.map_congr_left fun G _ => ?_
  simp only [Function.comp_apply]
  rcases eq_or_ne G.key F'.key with hG | hG
  · simp only [if_pos hG, if_pos h, if_pos (hG.trans h)]
  · simp only [if_neg hG]

theorem replace_comm (h : F'.key ≠ F.key) :
    replace F (replace F' files) = replace F' (replace F files) := by
  simp only [replace, List.map_map]
  refine List.map_congr_left fun G _ => ?_
  simp only [Function.comp_apply]
  rcases eq_or_ne G.key F.key with hF | hF
  · have hF' : G.key ≠ F'.key := fun h' => h (h'.symm.trans hF)
    simp only [if_neg hF', if_pos hF, if_neg (Ne.symm h)]
  · rcases eq_or_ne G.key F'.key with hF' | hF'
    · simp only [if_pos hF', if_neg h, if_neg hF]
    · simp only [if_neg hF', if_neg hF]

theorem modifyDir_append (f : List FileView → List FileView) (D : DirView) :
    modifyDir n f (v ++ [D]) =
      modifyDir n f v ++ [if D.dname = n then { D with files := f D.files } else D] := by
  simp [modifyDir]

/-- Only the files of the directories with the name matter. -/
theorem modifyDir_congr {f f' : List FileView → List FileView}
    (h : ∀ D ∈ v, D.dname = n → f D.files = f' D.files) : modifyDir n f v = modifyDir n f' v := by
  refine List.map_congr_left fun D hD => ?_
  rcases eq_or_ne D.dname n with hn | hn
  · simp only [if_pos hn, h D hD hn]
  · simp only [if_neg hn]

/-- Two changes of directories commute when the changes of the files do. -/
theorem modifyDir_comm (f f' : List FileView → List FileView)
    (h : n = n' → ∀ files, f (f' files) = f' (f files)) :
    modifyDir n f (modifyDir n' f' v) = modifyDir n' f' (modifyDir n f v) := by
  simp only [modifyDir, List.map_map]
  refine List.map_congr_left fun D _ => ?_
  simp only [Function.comp_apply]
  rcases eq_or_ne D.dname n with hn | hn
  · rcases eq_or_ne D.dname n' with hn' | hn'
    · simp only [if_pos hn, if_pos hn', h (hn.symm.trans hn')]
    · simp only [if_pos hn, if_neg hn']
  · rcases eq_or_ne D.dname n' with hn' | hn'
    · simp only [if_neg hn, if_pos hn']
    · simp only [if_neg hn, if_neg hn']

end View

namespace Effect

variable {n : List UInt8} {F : FileView} {e : Effect} {v : View}

/-- Replacing a file commutes with an effect that is not about it. -/
theorem setFile_comm (h : e.target ≠ .file n F.key) :
    (setFile n F).apply (e.apply v) = e.apply ((setFile n F).apply v) := by
  cases e with
  | addDir n' =>
    simp only [apply, View.modifyDir_append, View.replace]
    simp
  | addFile n' F' =>
    refine View.modifyDir_comm (View.replace F) (· ++ [F']) fun hn files => ?_
    rw [View.replace_append, if_neg fun hkey => h (by rw [target, hn, hkey])]
  | setFile n' F' =>
    exact View.modifyDir_comm _ _ fun hn files =>
      View.replace_comm fun hkey => h (by rw [target, hn, hkey])

/-- Replacing a file twice. -/
theorem setFile_setFile {F' : FileView} (h : F'.key = F.key) :
    (setFile n F).apply ((setFile n F').apply v) = (setFile n F).apply v := by
  simp only [apply, View.modifyDir, List.map_map]
  refine List.map_congr_left fun D _ => ?_
  simp only [Function.comp_apply]
  rcases eq_or_ne D.dname n with hn | hn
  · simp only [if_pos hn, View.replace_replace h]
  · simp only [if_neg hn]

end Effect

/-! ## Writing into the contents -/

/-- The length of the data of a block. -/
def dataSize : ℕ := 504

/-- At their end, contents grow by a block of zeros. -/
def grow (data : List UInt8) (p : ℕ) : List UInt8 :=
  if p = data.length then data ++ List.replicate dataSize 0 else data

/-- Overwrite contents from a position on. -/
def splice : List UInt8 → ℕ → List UInt8 → List UInt8
  | data, _, [] => data
  | data, p, c :: buf => splice ((grow data p).set p c) (p + 1) buf

end Csc452.Fuse
