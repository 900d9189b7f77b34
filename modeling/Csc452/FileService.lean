import Csc452.Creation
import Csc452.Services
import Mathlib.Algebra.Order.Floor.Div

/-!
# The service of the file system

All entries of `csc452_oper`, as requests that are answered (`Op.serve`), and what they
are for: a store of directories and files that knows nothing of blocks, but for how many
of them each file holds (`Store.serve`). It is the code's idea of a file that it states: a
write cuts the file off behind what is written, but its blocks stay its own.

The code can be asked for more than it can do. It does not look for the directory of a new
file, spoils a file when a write runs out of space, and reads on behind the end of one. What
is left when these requests are not made is `Op.Admitted`.
-/

namespace Csc452.Fuse

open ByteFile (Disk machine)
open Interference (Prog)

/-! ## The entries that do nothing -/

/-- `csc452_rmdir` -/
def csc452Rmdir (_ : CString) : Request ℤ := pure 0

/-- `csc452_unlink` -/
def csc452Unlink (_ : CString) : Request ℤ := pure 0

/-- `csc452_truncate` -/
def csc452Truncate (_ : CString) (_ : ℤ) : Request ℤ := pure 0

/-- `csc452_open` -/
def csc452Open (_ : CString) : Request ℤ := pure 0

/-- `csc452_flush` -/
def csc452Flush (_ : CString) : Request ℤ := pure 0

/-! ## Requests and answers -/

/-- A request to an entry of `csc452_oper`. -/
inductive Op : Type where
  /-- `.getattr` -/
  | getattr (path : CString)
  /-- `.readdir` -/
  | readdir (path : CString)
  /-- `.mkdir` -/
  | mkdir (path : CString)
  /-- `.read` -/
  | read (path : CString) (size offset : ℕ)
  /-- `.write` -/
  | write (path : CString) (buf : List UInt8) (offset : ℕ)
  /-- `.mknod` -/
  | mknod (path : CString)
  /-- `.truncate` -/
  | truncate (path : CString) (size : ℤ)
  /-- `.flush` -/
  | flush (path : CString)
  /-- `.open` -/
  | opened (path : CString)
  /-- `.unlink` -/
  | unlink (path : CString)
  /-- `.rmdir` -/
  | rmdir (path : CString)

/-- What an entry returns, and what it fills in. -/
inductive Answer : Type where
  /-- nothing but a value -/
  | code (ret : ℤ)
  /-- the attributes -/
  | attributes (ret : ℤ) (stat : Option Stat)
  /-- the names passed to `filler` -/
  | names (ret : ℤ) (list : List (List UInt8))
  /-- the bytes copied to the buffer -/
  | bytes (ret : ℤ) (buf : List UInt8)
  deriving DecidableEq

/-- The path of a request. -/
def Op.path : Op → CString
  | .getattr path | .readdir path | .mkdir path | .read path _ _ | .write path _ _
  | .mknod path | .truncate path _ | .flush path | .opened path | .unlink path
  | .rmdir path => path

/-- The path, as the code takes it apart. -/
def Op.comp (op : Op) : PathComp := sscanf op.path.bytes

/-- The entry of `csc452_oper`. -/
def Op.request (u : Uninit) : Op → Request Answer
  | .getattr path => do
    let r ← csc452Getattr u path
    pure (.attributes r.1 r.2)
  | .readdir path => do
    let r ← csc452Readdir u path
    pure (.names r.1 r.2)
  | .mkdir path => do
    let ret ← csc452Mkdir u path
    pure (.code ret)
  | .read path size offset => do
    let r ← csc452Read u path size offset
    pure (.bytes r.1 r.2)
  | .write path buf offset => do
    let ret ← csc452Write u path buf offset
    pure (.code ret)
  | .mknod path => do
    let ret ← csc452Mknod u path
    pure (.code ret)
  | .truncate path size => do
    let ret ← csc452Truncate path size
    pure (.code ret)
  | .flush path => do
    let ret ← csc452Flush path
    pure (.code ret)
  | .opened path => do
    let ret ← csc452Open path
    pure (.code ret)
  | .unlink path => do
    let ret ← csc452Unlink path
    pure (.code ret)
  | .rmdir path => do
    let ret ← csc452Rmdir path
    pure (.code ret)

/-- A request, with what the local variables hold, alone on a disk. -/
def serveDisk (d : Disk) (e : Uninit × Op) : Answer × Disk := machine.run (e.2.request e.1) d

/-! ## The store -/

/-- A file of the store. -/
structure StoredFile : Type where
  /-- the name -/
  fname : List UInt8
  /-- the extension -/
  fext : List UInt8
  /-- what is in it -/
  contents : List UInt8
  /-- the blocks it holds -/
  blocks : ℕ
  deriving DecidableEq

/-- What a file is looked up by. -/
def StoredFile.key (F : StoredFile) : List UInt8 × List UInt8 := (F.fname, F.fext)

/-- A directory of the store. -/
structure StoredDir : Type where
  /-- the name -/
  dname : List UInt8
  /-- the files, in the order in which they were made -/
  files : List StoredFile
  deriving DecidableEq

/-- All directories, in the order in which they were made. -/
abbrev Store : Type := List StoredDir

/-- The file with a name and an extension. -/
def StoredDir.file? (D : StoredDir) (key : List UInt8 × List UInt8) : Option StoredFile :=
  D.files.find? fun F => F.key = key

/-- The first file with a name. -/
def StoredDir.named? (D : StoredDir) (fname : List UInt8) : Option StoredFile :=
  D.files.find? fun F => F.fname = fname

/-- A file after a write: it ends where the write ends, and keeps its blocks. -/
def StoredFile.written (F : StoredFile) (offset : ℕ) (buf : List UInt8) : StoredFile where
  fname := F.fname
  fext := F.fext
  contents := F.contents.take offset ++ buf
  blocks := max F.blocks ((offset + buf.length) ⌈/⌉ dataSize)

namespace Store

variable (m : ℕ) (s : Store) (p : PathComp)

/-- The directory with a name. -/
def dir? (n : List UInt8) : Option StoredDir := s.find? fun D => D.dname = n

/-- The file of a path with an extension. -/
def file? : Option StoredFile := (s.dir? p.directory).bind fun D => D.file? p.key

/-- The file of a path, which is the first one with its name if it has no extension. -/
def sought? : Option StoredFile :=
  if p.count = 2 then (s.dir? p.directory).bind fun D => D.named? p.filename
  else if p.count = 3 then s.file? p
  else none

/-- Change the files of the directories with a name. -/
def modifyDir (n : List UInt8) (f : List StoredFile → List StoredFile) : Store :=
  s.map fun D => if D.dname = n then { D with files := f D.files } else D

/-- Replace the file with the key of `F` by `F`. -/
def replace (F : StoredFile) (files : List StoredFile) : List StoredFile :=
  files.map fun F' => if F'.key = F.key then F else F'

/-- The blocks in use: one for each directory, and those of the files. -/
def used : ℕ := (s.map fun D => 1 + (D.files.map StoredFile.blocks).sum).sum

/-- A disk of `m` blocks has one left for a new directory or file. The first and the last
block are not handed out. -/
def HasBlock : Prop := s.used + 2 < m

/-- The bytes in front of position `n` fit the blocks of a file and those left. -/
def HasRoom (F : StoredFile) (n : ℕ) : Prop := n ≤ dataSize * (F.blocks + (m - 2 - s.used))

instance : Decidable (s.HasBlock m) := inferInstanceAs (Decidable (_ < _))

instance (F : StoredFile) (n : ℕ) : Decidable (s.HasRoom m F n) := inferInstanceAs (Decidable (_ ≤ _))

/-! ## What the entries are for -/

/-- Make a directory. -/
def mkdir : ℤ × Store :=
  if p.count ≠ 1 then (-EPERM, s)
  else if (s.dir? p.directory).isSome then (-EEXIST, s)
  else if maxDirsInRoot ≤ s.length then (-ENOSPC, s)
  else if ¬ s.HasBlock m then (-EDQUOT, s)
  else (0, s ++ [⟨p.directory, []⟩])

/-- Make a file. -/
def mknod : ℤ × Store :=
  if p.count ≠ 3 then (-EPERM, s)
  else
    match s.dir? p.directory with
    | none => (-ENOENT, s)
    | some D =>
      if (D.file? p.key).isSome then (-EEXIST, s)
      else if maxFilesInDir ≤ D.files.length then (-ENOSPC, s)
      else if ¬ s.HasBlock m then (-EDQUOT, s)
      else (0, s.modifyDir p.directory (· ++ [⟨p.filename, p.extension, [], 1⟩]))

/-- What is wrong with the path of a file, if there is no such file. -/
def missing : ℤ := if p.count = 1 ∧ (s.dir? p.directory).isSome then -EISDIR else -ENOENT

/-- Write to a file. -/
def write (buf : List UInt8) (offset : ℕ) : ℤ × Store :=
  match if p.count = 3 then s.file? p else none with
  | none => (s.missing p, s)
  | some F =>
    if buf = [] then (0, s)
    else if F.contents.length < offset ∨ ¬ s.HasRoom m F (offset + buf.length) then (-EFBIG, s)
    else (buf.length, s.modifyDir p.directory (replace (F.written offset buf)))

/-- Read from a file. -/
def read (size offset : ℕ) : ℤ × List UInt8 :=
  match if p.count = 3 then s.file? p else none with
  | none => (s.missing p, [])
  | some F =>
    if size = 0 then (0, [])
    else if F.contents.length < offset then (-EINVAL, [])
    else
      let buf := slice F.contents offset size
      (buf.length, buf)

/-- What kind of object a path leads to, and how large it is. -/
def getattr (path : CString) : ℤ × Option Stat :=
  let found : Option Stat :=
    if path.bytes = [47] then some Stat.dir
    else if p.count = 1 then (s.dir? p.directory).map fun _ => Stat.dir
    else (s.sought? p).map fun F => Stat.file F.contents.length
  (if found.isSome then 0 else -ENOENT, found)

/-- What is in a directory. -/
def readdir (path : CString) : ℤ × List (List UInt8) :=
  if path.bytes = [47] then (0, [46] :: [46, 46] :: s.map StoredDir.dname)
  else
    match if p.count = 1 then s.dir? p.directory else none with
    | none => (-ENOENT, [])
    | some D => (0, D.files.map StoredFile.fname)

/-- **The service**, on a disk of `m` blocks. -/
def serve (op : Op) : Answer × Store :=
  let p := op.comp
  match op with
  | .getattr path => (.attributes (s.getattr p path).1 (s.getattr p path).2, s)
  | .readdir path => (.names (s.readdir p path).1 (s.readdir p path).2, s)
  | .mkdir _ => (.code (s.mkdir m p).1, (s.mkdir m p).2)
  | .read _ size offset => (.bytes (s.read p size offset).1 (s.read p size offset).2, s)
  | .write _ buf offset => (.code (s.write m p buf offset).1, (s.write m p buf offset).2)
  | .mknod _ => (.code (s.mknod m p).1, (s.mknod m p).2)
  | .truncate _ _ | .flush _ | .opened _ | .unlink _ | .rmdir _ => (.code 0, s)

end Store

/-! ## The requests there can be -/

/-- A request the code can serve, by what is in the store: a file is made in a directory
that is there, a write that starts inside its file has room, and a read that does so starts
with the first byte or does not end behind the last one. -/
def Op.Serviceable (m : ℕ) (s : Store) (op : Op) : Prop :=
  let p := op.comp
  match op with
  | .mknod _ => p.count = 3 → (s.dir? p.directory).isSome
  | .write _ buf offset => p.count = 3 →
    match s.file? p with
    | none => True
    | some F => offset ≤ F.contents.length → s.HasRoom m F (offset + buf.length)
  | .read _ size offset => p.count = 3 →
    match s.file? p with
    | none => True
    | some F => offset ≤ F.contents.length → offset = 0 ∨ offset + size ≤ F.contents.length
  | _ => True

/-- Besides, the components of its path fit their buffers. -/
structure Op.Admitted (m : ℕ) (s : Store) (op : Op) : Prop where
  /-- the directory -/
  directory : op.comp.directory.length ≤ maxFilename
  /-- the name -/
  filename : op.comp.filename.length ≤ maxFilename
  /-- the extension -/
  extension : op.comp.extension.length ≤ maxExtension
  /-- the request -/
  serviceable : op.Serviceable m s

instance (m : ℕ) (s : Store) (op : Op) : Decidable (op.Serviceable m s) :=
  match op with
  | .mknod _ => inferInstanceAs (Decidable (_ → _))
  | .write path buf offset =>
    match h : s.file? (Op.write path buf offset).comp with
    | none => isTrue fun _ => by simp only [h]
    | some F =>
      decidable_of_iff ((Op.write path buf offset).comp.count = 3 → offset ≤ F.contents.length →
        s.HasRoom m F (offset + buf.length)) (by simp only [Op.Serviceable, h])
  | .read path size offset =>
    match h : s.file? (Op.read path size offset).comp with
    | none => isTrue fun _ => by simp only [h]
    | some F =>
      decidable_of_iff ((Op.read path size offset).comp.count = 3 → offset ≤ F.contents.length →
        offset = 0 ∨ offset + size ≤ F.contents.length) (by simp only [Op.Serviceable, h])
  | .getattr _ | .readdir _ | .mkdir _ | .truncate _ _ | .flush _ | .opened _ | .unlink _
  | .rmdir _ => inferInstanceAs (Decidable True)

instance (m : ℕ) (s : Store) (op : Op) : Decidable (op.Admitted m s) :=
  decidable_of_iff (op.comp.directory.length ≤ maxFilename ∧
      op.comp.filename.length ≤ maxFilename ∧ op.comp.extension.length ≤ maxExtension ∧
      op.Serviceable m s)
    ⟨fun h => ⟨h.1, h.2.1, h.2.2.1, h.2.2.2⟩,
      fun h => ⟨h.directory, h.filename, h.extension, h.serviceable⟩⟩

section serviceable

variable {m : ℕ} {s : Store} {path : CString} {F : StoredFile} {offset : ℕ}

/-- A write that starts inside its file has room. -/
theorem Op.Serviceable.hasRoom {buf : List UInt8}
    (h : (Op.write path buf offset).Serviceable m s) (hcount : (sscanf path.bytes).count = 3)
    (hF : s.file? (sscanf path.bytes) = some F) (hoffset : offset ≤ F.contents.length) :
    s.HasRoom m F (offset + buf.length) := by
  simp only [Op.Serviceable, Op.comp, Op.path, hF] at h
  exact h hcount hoffset

/-- A read that starts inside its file starts with the first byte, or ends inside. -/
theorem Op.Serviceable.inside {size : ℕ} (h : (Op.read path size offset).Serviceable m s)
    (hcount : (sscanf path.bytes).count = 3) (hF : s.file? (sscanf path.bytes) = some F)
    (hoffset : offset ≤ F.contents.length) : offset = 0 ∨ offset + size ≤ F.contents.length := by
  simp only [Op.Serviceable, Op.comp, Op.path, hF] at h
  exact h hcount hoffset

end serviceable

end Csc452.Fuse
