import Csc452.ByteFile
import Mathlib.Data.List.Basic
import Mathlib.Algebra.Order.Ring.Int

/-!
# The file system

The operations of `csc452fuse.c` as programs over `.disk`. A request is the
sequence of its `fread`s and `fwrite`s, in the order in which the code performs
them; everything in between is local.

The structs of the code are read and written as raw memory of 512 bytes, so here
they are memories too, and a field is what its bytes say: `int` and `long`
fields are signed, `size_t` fields are not. A local struct starts as whatever was
on the stack (`Uninit`), and a read that comes up short leaves the rest of it as
it was.

Stdio is direct here: an `fread` or an `fwrite` is one access to `.disk`, at once,
and the buffer of a `FILE` is left out. In the code what `fwrite` stores reaches
`.disk` at the next `fseek` or `fclose` of the same `FILE`. Every `fwrite` is
followed by one of the two, but for the return of `csc452_write` when no block is
left, which comes without `fclose`: the enlarged entry is then on the disk only if
the `FILE` has been moved since, to walk to the offset or to store a block.

Two things the code cannot recover from are left out: `.disk` can always be
opened, and a component of a path that is longer than its buffer is kept whole
instead of running over the stack.
-/

namespace Csc452.Fuse

open Bytes (Memory readLE toLE strcmpEq)
open ByteFile (Access Disk)
open Interference (Prog)

/-- A request on the way. -/
abbrev Request (α : Type) : Type := Prog Access Access.Res α

/-- `BLOCK_SIZE` -/
def blockSize : ℕ := 512

/-- `MAX_FILENAME` -/
def maxFilename : ℕ := 8

/-- `MAX_EXTENSION` -/
def maxExtension : ℕ := 3

/-- `MAX_FILES_IN_DIR` -/
def maxFilesInDir : ℕ := (blockSize - 4) / ((maxFilename + 1) + (maxExtension + 1) + 8 + 8)

/-- `MAX_DIRS_IN_ROOT` -/
def maxDirsInRoot : ℕ := (blockSize - 4) / ((maxFilename + 1) + 8)

/-- `MAX_DATA_IN_BLOCK` -/
def maxDataInBlock : ℕ := blockSize - 8

/-! ## Errors -/

/-- `EPERM` -/
def EPERM : ℤ := 1

/-- `ENOENT` -/
def ENOENT : ℤ := 2

/-- `EEXIST` -/
def EEXIST : ℤ := 17

/-- `EISDIR` -/
def EISDIR : ℤ := 21

/-- `EINVAL` -/
def EINVAL : ℤ := 22

/-- `EFBIG` -/
def EFBIG : ℤ := 27

/-- `ENOSPC` -/
def ENOSPC : ℤ := 28

/-- `ENAMETOOLONG` -/
def ENAMETOOLONG : ℤ := 36

/-- `EDQUOT` -/
def EDQUOT : ℤ := 122

/-! ## Numbers -/

/-- A value converted to `int`. -/
def toInt (z : ℤ) : ℤ := z.bmod (2 ^ 32)

/-- A value converted to `long`. -/
def toLong (z : ℤ) : ℤ := z.bmod (2 ^ 64)

/-- A value converted to `size_t`. -/
def toSize (z : ℤ) : ℕ := (z % 2 ^ 64).toNat

/-- The `int` at an address. -/
def intAt (m : Memory) (a : ℕ) : ℤ := toInt (readLE m a 4)

/-- The `long` at an address. -/
def longAt (m : Memory) (a : ℕ) : ℤ := toLong (readLE m a 8)

/-- The `size_t` at an address. -/
def sizeAt (m : Memory) (a : ℕ) : ℕ := readLE m a 8

/-- The bytes of an `int`. -/
def intBytes (z : ℤ) : List UInt8 := toLE 4 (z % 2 ^ 32).toNat

/-- The bytes of a `long` or a `size_t`. -/
def longBytes (z : ℤ) : List UInt8 := toLE 8 (toSize z)

/-! ## The structs -/

/-- What the local variables of a call hold before they are set. -/
structure Uninit : Type where
  /-- an uninitialised struct -/
  struct : Memory
  /-- the four bytes below a `csc452_root_directory` -/
  below : Memory

/-- The offset of `directories[i].dname`. -/
def dnameOffset (i : ℕ) : ℕ := 4 + 17 * i

/-- The offset of `directories[i].nStartBlock`. -/
def dirStartOffset (i : ℕ) : ℕ := dnameOffset i + 9

/-- The offset of `files[i].fname`. -/
def fnameOffset (i : ℕ) : ℕ := 4 + 29 * i

/-- The offset of `files[i].fext`. -/
def fextOffset (i : ℕ) : ℕ := fnameOffset i + 9

/-- The offset of `files[i].fsize`. -/
def fsizeOffset (i : ℕ) : ℕ := fnameOffset i + 13

/-- The offset of `files[i].nStartBlock`. -/
def fileStartOffset (i : ℕ) : ℕ := fnameOffset i + 21

/-- The offset of `nNextBlock`. -/
def nextOffset : ℕ := 504

/-- `root.directories[i].nStartBlock`. For the index -1 the field starts four
bytes below the struct and ends with `nDirectories`. -/
def dirStart (u : Uninit) (root : Memory) (i : ℤ) : ℤ :=
  if 0 ≤ i then longAt root (dirStartOffset i.toNat)
  else longAt (fun k => if k < 4 then u.below k else root (k - 4)) 0

/-- A struct after `strcpy` into one of its fields. -/
def setString (m : Memory) (a : ℕ) (s : List UInt8) : Memory := Bytes.write m a (s ++ [0])

/-- A struct after an `int` field is set. -/
def setInt (m : Memory) (a : ℕ) (z : ℤ) : Memory := Bytes.write m a (intBytes z)

/-- A struct after a `long` or `size_t` field is set. -/
def setLong (m : Memory) (a : ℕ) (z : ℤ) : Memory := Bytes.write m a (longBytes z)

/-! ## The path -/

/-- A C string, without its terminator. -/
structure CString : Type where
  /-- the characters -/
  bytes : List UInt8
  /-- none of them is the terminator -/
  noNul : 0 ∉ bytes

/-- What `sscanf` makes of a path. -/
structure PathComp : Type where
  /-- the number of components assigned, or -1 -/
  count : ℤ
  /-- the first one, if assigned -/
  directory : List UInt8
  /-- the second one, if assigned -/
  filename : List UInt8
  /-- the third one, if assigned -/
  extension : List UInt8
  deriving DecidableEq

/-- `isspace` -/
def isSpace (c : UInt8) : Bool := c = 32 || (9 ≤ c && c ≤ 13)

/-- The part of `sscanf` behind the second literal: `%s`. -/
def scanExtension (directory filename rest : List UInt8) : PathComp :=
  let extension := (rest.dropWhile isSpace).takeWhile fun c => !isSpace c
  if extension = [] then ⟨2, directory, filename, []⟩ else ⟨3, directory, filename, extension⟩

/-- The part of `sscanf` behind the second slash: `%[^.].%s`. -/
def scanFilename (directory rest : List UInt8) : PathComp :=
  let filename := rest.takeWhile (· ≠ 46)
  if filename = [] then ⟨1, directory, [], []⟩
  else
    match rest.dropWhile (· ≠ 46) with
    | [] => ⟨2, directory, filename, []⟩
    | _ :: rest => scanExtension directory filename rest

/-- `sscanf(path, "/%[^/]/%[^.].%s", directory, filename, extension)` -/
def sscanf (path : List UInt8) : PathComp :=
  match path with
  | [] => ⟨-1, [], [], []⟩
  | c :: rest =>
    if c ≠ 47 then ⟨0, [], [], []⟩
    else if rest = [] then ⟨-1, [], [], []⟩
    else
      let directory := rest.takeWhile (· ≠ 47)
      if directory = [] then ⟨0, [], [], []⟩
      else
        match rest.dropWhile (· ≠ 47) with
        | [] => ⟨1, directory, [], []⟩
        | _ :: rest => scanFilename directory rest

/-! ## Access to the disk -/

/-- `fseek(fp, offset, SEEK_SET)`: the position afterwards. It stays where it was
when the offset is negative. -/
def fseek (pos : ℕ) (offset : ℤ) : ℕ := if 0 ≤ offset then offset.toNat else pos

/-- The size of the file, which `SEEK_END` depends on. -/
def fsizeOf : Request ℕ := Prog.op Access.size

/-- `fread` at a position: the bytes there are. -/
def fread (pos n : ℕ) : Request (List UInt8) := Prog.op (Access.read pos n)

/-- `fwrite` at a position. -/
def fwrite (pos : ℕ) (bs : List UInt8) : Request Unit := Prog.op (Access.write pos bs)

/-- `fread` of a whole struct: the struct afterwards and the position. -/
def freadStruct (struct : Memory) (pos : ℕ) : Request (Memory × ℕ) := do
  let bs ← fread pos blockSize
  pure (Bytes.write struct 0 bs, pos + bs.length)

/-- `fwrite` of a whole struct. -/
def fwriteStruct (pos : ℕ) (struct : Memory) : Request Unit :=
  fwrite pos (Bytes.read struct 0 blockSize)

/-- `get_root` -/
def getRoot (u : Uninit) : Request Memory := do
  let (root, _) ← freadStruct u.struct 0
  pure root

/-- The loop of `dir_exists`. -/
def findDir (root : Memory) (directory : List UInt8) : Option ℕ :=
  (List.range (intAt root 0).toNat).find? fun i => strcmpEq root (dnameOffset i) directory

/-- `dir_exists` -/
def dirExists (u : Uninit) (directory : List UInt8) : Request ℤ := do
  let root ← getRoot u
  match findDir root directory with
  | some i => pure i
  | none => pure (-1)

/-- `get_dir`: the entry and the value returned. -/
def getDir (u : Uninit) (directory : List UInt8) : Request (Memory × ℤ) := do
  let root ← getRoot u
  let dirOrder ← dirExists u directory
  if dirOrder = -1 then pure (u.struct, -1)
  else do
    let (entry, _) ← freadStruct u.struct (fseek 0 (dirStart u root dirOrder))
    pure (entry, dirOrder)

/-- The loop that looks for a file by name and extension. -/
def findFile (entry : Memory) (filename extension : List UInt8) : Option ℕ :=
  (List.range (intAt entry 0).toNat).find? fun i =>
    strcmpEq entry (fnameOffset i) filename && strcmpEq entry (fextOffset i) extension

/-- The same loop, for a path without an extension. -/
def findFilename (entry : Memory) (filename : List UInt8) : Option ℕ :=
  (List.range (intAt entry 0).toNat).find? fun i => strcmpEq entry (fnameOffset i) filename

/-- `file_exist` -/
def fileExist (u : Uninit) (directory filename extension : List UInt8) (pathComp : ℤ) :
    Request ℤ := do
  let (entry, dirOrder) ← getDir u directory
  if dirOrder = -1 then pure (-1)
  else
    match if pathComp = 3 then findFile entry filename extension else findFilename entry filename with
    | some i => pure (toInt (sizeAt entry (fsizeOffset i)))
    | none => pure (-1)

/-- The position `fseek(fp, (-1)*BLOCK_SIZE, SEEK_END)` leads to. -/
def seekMark (pos size : ℕ) : ℕ := fseek pos ((size : ℤ) - blockSize)

/-- `next_free_block` -/
def nextFreeBlock (u : Uninit) : Request ℤ := do
  let size ← fsizeOf
  let fileMax : ℤ := (size : ℤ) - blockSize
  let pos := seekMark size (← fsizeOf)
  let bs ← fread pos 8
  let tmp := longAt (Bytes.write u.struct 0 bs) 0
  let nextFree := toLong (tmp + blockSize)
  if fileMax ≤ nextFree then pure (-1)
  else do
    let pos := seekMark (pos + bs.length) (← fsizeOf)
    fwrite pos (longBytes nextFree)
    pure nextFree

/-! ## The operations -/

/-- `csc452_mkdir` -/
def csc452Mkdir (u : Uninit) (path : CString) : Request ℤ := do
  let p := sscanf path.bytes
  if p.count ≠ 1 then pure (-EPERM)
  else if p.directory.length > 8 then pure (-ENAMETOOLONG)
  else do
    let dirOrder ← dirExists u p.directory
    if dirOrder ≠ -1 then pure (-EEXIST)
    else do
      let root ← getRoot u
      if toSize (intAt root 0) ≥ maxDirsInRoot then pure (-ENOSPC)
      else do
        let address ← nextFreeBlock u
        if address = -1 then pure (-EDQUOT)
        else do
          let n := (intAt root 0).toNat
          let root := setString root (dnameOffset n) p.directory
          let root := setLong root (dirStartOffset n) address
          let root := setInt root 0 (intAt root 0 + 1)
          fwriteStruct 0 root
          pure 0

/-- `csc452_mknod` -/
def csc452Mknod (u : Uninit) (path : CString) : Request ℤ := do
  let p := sscanf path.bytes
  if p.count ≠ 3 then pure (-EPERM)
  else if p.filename.length > 8 ∨ p.extension.length > 3 then pure (-ENAMETOOLONG)
  else do
    let size ← fileExist u p.directory p.filename p.extension 3
    if size ≠ -1 then pure (-EEXIST)
    else do
      -- the value returned is not looked at before it is used as an index
      let (entry, dirOrder) ← getDir u p.directory
      let root ← getRoot u
      if toSize (intAt entry 0) ≥ maxFilesInDir then pure (-ENOSPC)
      else do
        let address ← nextFreeBlock u
        if address = -1 then pure (-EDQUOT)
        else do
          let n := (intAt entry 0).toNat
          let entry := setString entry (fnameOffset n) p.filename
          let entry := setString entry (fextOffset n) p.extension
          let entry := setLong entry (fsizeOffset n) 0
          let entry := setLong entry (fileStartOffset n) address
          let entry := setInt entry 0 (intAt entry 0 + 1)
          fwriteStruct (fseek 0 (dirStart u root dirOrder)) entry
          pure 0

/-- The loop of `csc452_read` and `csc452_write` that walks to the block with the
first byte. `begin_index` is an `int` compared as a `size_t`, so a negative one
counts as a large one: it is kept as an unsigned number of 32 bits. -/
def walk (pos : ℕ) (cur : ℤ) (block : Memory) (beginIndex : ℕ) :
    Request (ℕ × ℤ × Memory × ℕ) :=
  if _h : maxDataInBlock < beginIndex then do
    let cur := longAt block nextOffset
    let (block, pos) ← freadStruct block (fseek pos cur)
    walk pos cur block (beginIndex - maxDataInBlock)
  else pure (pos, cur, block, beginIndex)
termination_by beginIndex
decreasing_by simp only [maxDataInBlock, blockSize] at *; omega

/-- The copying loop of `csc452_read`, for the number of bytes left to read. -/
def readLoop : ℕ → ℕ → Memory → ℕ → ℕ → Request (List UInt8)
  | 0, _, _, _, _ => pure []
  | leftToRead + 1, pos, block, beginIndex, fileBlockLeft => do
    let (block, pos, beginIndex, fileBlockLeft) ←
      if fileBlockLeft = 0 then do
        let (block, pos) ← freadStruct block (fseek pos (longAt block nextOffset))
        pure (block, pos, 0, maxDataInBlock)
      else pure (block, pos, beginIndex, fileBlockLeft)
    let rest ← readLoop leftToRead pos block (beginIndex + 1) (fileBlockLeft - 1)
    pure (block beginIndex :: rest)

/-- `csc452_read`: the value returned and the bytes copied to the buffer. -/
def csc452Read (u : Uninit) (path : CString) (size offset : ℕ) : Request (ℤ × List UInt8) := do
  let p := sscanf path.bytes
  let dirOrder ← if p.count = 1 then dirExists u p.directory else pure (-1)
  if dirOrder ≠ -1 then pure (-EISDIR, [])
  else if p.count ≠ 3 then pure (-ENOENT, [])
  else do
    let fsize := toSize (← fileExist u p.directory p.filename p.extension 3)
    if fsize = toSize (-1) then pure (-ENOENT, [])
    else if size = 0 then pure (0, [])
    else do
      let (entry, _) ← getDir u p.directory
      let i := (findFile entry p.filename p.extension).getD (intAt entry 0).toNat
      if offset > fsize then pure (-EINVAL, [])
      else do
        let (block, pos) ← freadStruct u.struct (fseek 0 (longAt entry (fileStartOffset i)))
        let (pos, _, block, beginIndex) ← walk pos 0 block (offset % 2 ^ 32)
        let size := if size > fsize then fsize else size
        let buf ← readLoop size pos block beginIndex (maxDataInBlock - beginIndex)
        pure (toInt size, buf)

/-- The copying loop of `csc452_write`, for the bytes left to write: whether they
all were. -/
def writeLoop (u : Uninit) : List UInt8 → ℕ → ℤ → Memory → ℕ → ℕ → Request Bool
  | [], pos, cur, block, _, _ => do
    fwriteStruct (fseek pos cur) block
    pure true
  | c :: buf, pos, cur, block, beginIndex, fileBlockLeft => do
    if fileBlockLeft = 0 then do
      let address ← if longAt block nextOffset = 0 then nextFreeBlock u else pure 0
      if address = -1 then pure false
      else do
        let block :=
          if longAt block nextOffset = 0 then setLong block nextOffset address else block
        -- save content of the current one
        let pos := fseek pos cur
        fwriteStruct pos block
        let cur := longAt block nextOffset
        let (block, pos) ← freadStruct block (fseek (pos + blockSize) cur)
        writeLoop u buf pos cur (Bytes.write block 0 [c]) 1 (maxDataInBlock - 1)
    else
      writeLoop u buf pos cur (Bytes.write block beginIndex [c]) (beginIndex + 1)
        (fileBlockLeft - 1)

/-- `csc452_write`. The entry with the new size is on the disk as soon as it is
written: the `FILE` it goes through has no buffer here. -/
def csc452Write (u : Uninit) (path : CString) (buf : List UInt8) (offset : ℕ) : Request ℤ := do
  let p := sscanf path.bytes
  let dirOrder ← if p.count = 1 then dirExists u p.directory else pure (-1)
  if dirOrder ≠ -1 then pure (-EISDIR)
  else if p.count ≠ 3 then pure (-ENOENT)
  else do
    let fsize := toSize (← fileExist u p.directory p.filename p.extension 3)
    if fsize = toSize (-1) then pure (-ENOENT)
    else if buf.length = 0 then pure 0
    else do
      let (entry, dirOrder) ← getDir u p.directory
      let i := (findFile entry p.filename p.extension).getD (intAt entry 0).toNat
      if offset > fsize then pure (-EFBIG)
      else do
        let cur := longAt entry (fileStartOffset i)
        let (block, pos) ← freadStruct u.struct (fseek 0 cur)
        let fileSizeIncrease := toSize ((offset : ℤ) - fsize + buf.length)
        let pos ←
          if fileSizeIncrease > 0 then do
            let entry := setLong entry (fsizeOffset i)
              (sizeAt entry (fsizeOffset i) + fileSizeIncrease)
            let root ← getRoot u
            let pos := fseek pos (dirStart u root dirOrder)
            fwriteStruct pos entry
            pure (pos + blockSize)
          else pure pos
        let (pos, cur, block, beginIndex) ← walk pos cur block (offset % 2 ^ 32)
        let done ← writeLoop u buf pos cur block beginIndex (maxDataInBlock - beginIndex)
        if done then pure (toInt buf.length) else pure (-EFBIG)

/-- What `csc452_getattr` fills in. -/
structure Stat : Type where
  /-- `st_mode` -/
  mode : ℕ
  /-- `st_nlink` -/
  nlink : ℕ
  /-- `st_size`, when it is set -/
  size : Option ℤ
  deriving DecidableEq

/-- `S_IFDIR | 0755`, with two links -/
def Stat.dir : Stat := { mode := 0o040755, nlink := 2, size := none }

/-- `S_IFREG | 0666`, with two links -/
def Stat.file (size : ℤ) : Stat := { mode := 0o100666, nlink := 2, size := some size }

/-- `csc452_getattr`: the value returned and what was filled in. -/
def csc452Getattr (u : Uninit) (path : CString) : Request (ℤ × Option Stat) := do
  if path.bytes = [47] then pure (0, some Stat.dir)
  else do
    let p := sscanf path.bytes
    if p.count = 1 then do
      let dirOrder ← dirExists u p.directory
      if dirOrder ≠ -1 then pure (0, some Stat.dir) else pure (-ENOENT, none)
    else if p.count = 2 ∨ p.count = 3 then do
      let fsize ← fileExist u p.directory p.filename p.extension p.count
      if fsize ≠ -1 then pure (0, some (Stat.file fsize)) else pure (-ENOENT, none)
    else pure (-ENOENT, none)

/-- The loop of `csc452_readdir` over `n` names that start at the offsets given. -/
def listNames (block : Memory) (offset : ℕ → ℕ) (n : ℤ) : List (List UInt8) :=
  (List.range n.toNat).map fun i => Bytes.stringAt block (offset i) (blockSize - offset i)

/-- `csc452_readdir`: the value returned and the names passed to `filler`. -/
def csc452Readdir (u : Uninit) (path : CString) : Request (ℤ × List (List UInt8)) := do
  if path.bytes = [47] then do
    let root ← getRoot u
    pure (0, [46] :: [46, 46] :: listNames root dnameOffset (intAt root 0))
  else do
    let p := sscanf path.bytes
    if p.count = 1 then do
      let (entry, dirOrder) ← getDir u p.directory
      if dirOrder = -1 then pure (-ENOENT, [])
      else pure (0, listNames entry fnameOffset (intAt entry 0))
    else pure (-ENOENT, [])

end Csc452.Fuse
