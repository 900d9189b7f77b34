import Csc452.Walking
import Csc452.Specification

/-!
# `read`

What a request to read a file does while others run. It walks to the block with
the first byte and copies byte by byte out of a block in memory, reading the next
one when it comes to the end of the data. As long as the others spare the file,
what it returns is a slice of the contents (`csc452Read_runs`), and
`csc452_getattr` returns the recorded size (`csc452Getattr_runs`).
-/

namespace Csc452.Fuse

open Bytes (Memory AgreeOn shift)
open ByteFile (Disk Seen machine)

/-- The `n` bytes of some contents from `p` on. -/
def slice (data : List UInt8) (p n : ℕ) : List UInt8 := (data.drop p).take n

theorem slice_succ {data : List UInt8} {p n : ℕ} {c : UInt8} (h : data[p]? = some c) :
    slice data p (n + 1) = c :: slice data (p + 1) n := by
  obtain ⟨hlt, rfl⟩ := List.getElem?_eq_some_iff.mp h
  rw [slice, List.drop_eq_getElem_cons hlt, List.take_succ_cons, slice]

/-- Only the part in front of an end matters. -/
theorem slice_take {data : List UInt8} {p n e : ℕ} (h : p + n ≤ e) :
    slice (data.take e) p n = slice data p n := by
  rw [slice, slice, List.drop_take, List.take_take, min_eq_left (by omega)]

/-! ## The copying loop -/

section loop

variable {c : Context} {k : Seen} {w : State} {x : Place} {F : File} {pre post : List ℕ}
variable {a n p beginIndex pos : ℕ} {s : Memory} {data : List UInt8}

/-- **The copying loop.** -/
theorem readLoop_runs (hw : World c.m c.v₀ w) (hx : x.Holds F w.1.fs)
    (hmine : c.mine = .file x.dname F.key) (hsplit : F.blocks = pre ++ a :: post)
    (hs : AgreeOn (shift w.2.bytes a) s 0 blockSize) (hdata : dataOf w.2.bytes F.blocks = data)
    (hp : p = dataSize * pre.length + beginIndex) (hbegin : beginIndex ≤ dataSize)
    (hlen : p + n ≤ data.length) :
    c.Runs (fun buf _ _ => buf = slice data p n)
      (readLoop n pos s beginIndex (maxDataInBlock - beginIndex)) k w := by
  induction n generalizing pre a post s beginIndex p pos k w with
  | zero => exact .pure fun w₁ _ => rfl
  | succ n ih =>
    -- one byte from the block in memory, and the rest
    have hbyte : ∀ {w₁ k₁ pre₁ a₁ post₁ s₁ begin₁ pos₁}, World c.m c.v₀ w₁ → x.Holds F w₁.1.fs →
        F.blocks = pre₁ ++ a₁ :: post₁ → AgreeOn (shift w₁.2.bytes a₁) s₁ 0 blockSize →
        dataOf w₁.2.bytes F.blocks = data → p = dataSize * pre₁.length + begin₁ →
        begin₁ < dataSize →
        c.Runs (fun buf _ _ => buf = slice data p (n + 1))
          (readLoop n pos₁ s₁ (begin₁ + 1) (maxDataInBlock - begin₁ - 1) >>= fun rest =>
            pure (s₁ begin₁ :: rest)) k₁ w₁ := by
      intro w₁ k₁ pre₁ a₁ post₁ s₁ begin₁ pos₁ hw₁ hx₁ hsplit₁ hs₁ hdata₁ hp₁ hlt
      have hhead : data[p]? = some (s₁ begin₁) := by
        rw [hp₁, ← hdata₁, hsplit₁, ← localData_self hs₁]
        exact getElem?_localData hlt
      rw [Nat.sub_sub]
      refine .bind ((ih (p := p + 1) hw₁ hx₁ hsplit₁ hs₁ hdata₁ (by rw [hp₁]; rfl) hlt
        (by omega)).mono fun rest k₂ w₂ hrest => .pure fun w₃ _ => ?_)
      rw [slice_succ hhead, hrest]
    rw [readLoop]
    rcases lt_or_eq_of_le hbegin with hlt | rfl
    · rw [if_neg (by simp only [maxDataInBlock, blockSize, dataSize] at *; omega), pure_bind]
      exact hbyte hw hx hsplit hs hdata hp hlt
    · -- the end of the data: there is another block
      rw [if_pos (by simp only [maxDataInBlock, blockSize, dataSize])]
      have hlength : data.length = dataSize * (pre.length + (post.length + 1)) := by
        rw [← hdata, hsplit, length_dataOf, List.length_append, List.length_cons]
      rcases post with _ | ⟨b, post⟩
      · rw [List.length_nil] at hlength
        simp only [dataSize] at *
        omega
      have hnext : longAt s nextOffset = b :=
        longAt_next hw.layout hx hsplit (readLE_next hw.layout hx hsplit hs)
      have hb := hw.layout.block_lt
        (List.mem_append_left _ (hx.owned (b := b) (by simp [hsplit])))
      rw [hnext, fseek_natCast]
      refine freadStruct_bind hw hb.2.1 fun w₁ s₁ k₁ hR₁ hw₁ hs₁ _ _ => ?_
      obtain ⟨hx₁, hagree₁⟩ := hx.spares (hmine ▸ hR₁.spares)
      simp only [pure_bind]
      refine hbyte hw₁ hx₁ (hsplit.trans (List.append_cons _ _ _)) hs₁
        ((dataOf_congr hagree₁).trans hdata) ?_ (by decide)
      rw [hp, List.length_append, List.length_singleton]
      ring

end loop

/-! ## The requests -/

section request

variable {c : Context} {k : Seen} {w : State} {x : Place} {F : File} {path : CString} {u : Uninit}
variable {offset size : ℕ}

variable (c k path u size) in
/-- **`read` next to others**, of bytes in front of the recorded size of a file whose
contents are long enough. -/
theorem csc452Read_runs (hw : World c.m c.v₀ w) (hcount : (sscanf path.bytes).count = 3)
    (hx : x.Holds F w.1.fs) (hname : x.dname = (sscanf path.bytes).directory)
    (hkey : F.key = (sscanf path.bytes).key) (hfsize : F.fsize ≤ dataSize * F.blocks.length)
    (hsize : offset + size ≤ F.fsize) (hmine : c.mine = .file x.dname F.key) :
    c.Runs (fun r _ _ => r = ((size : ℤ), slice (dataOf w.2.bytes F.blocks) offset size))
      (csc452Read u path size offset) k w := by
  have hnoNul := sscanf_noNul path.noNul
  generalize hp : sscanf path.bytes = p at *
  have hsmall := hfsize.trans_lt (hx.data_lt hw.layout)
  have hvisible : toInt F.fsize = F.fsize := toInt_natCast hsmall
  have hsizeEq : toSize (F.fsize : ℤ) = F.fsize := toSize_natCast (hsmall.trans (by decide))
  obtain ⟨D, hi, hDname, hblock, hj⟩ := id hx
  have hn : 0 ∉ D.dname := hDname ▸ hname ▸ hnoNul.directory
  have hmine' : c.mine = .file D.dname F.key := by rw [hmine, hDname]
  rw [csc452Read]
  simp only [hp, hcount]
  rw [if_neg (by decide), pure_bind, if_neg (by simp), if_neg (by simp), ← hname, ← hDname]
  refine fileExist_bind hw hi hn hnoNul.filename hnoNul.extension hj hkey hmine'
    fun w₁ k₁ hR₁ hw₁ => ?_
  rw [hvisible, if_neg (by rw [hsizeEq, toSize]; omega), hsizeEq]
  split
  · next hzero =>
    refine .pure fun w₂ _ => ?_
    rw [hzero]
    rfl
  next hpos =>
  obtain ⟨D₁, hi₁, hkeeps₁⟩ := hR₁.spares.dirs x.dir D hi
  rw [← hkeeps₁.dname]
  refine getDir_bind hw₁ hi₁ (hkeeps₁.dname ▸ hn)
    fun w₂ entry k₂ D₂ hR₂ hw₂ hi₂ hkeeps₂ hagree₂ _ => ?_
  have hkeeps₂' := hkeeps₁.trans hkeeps₂
  have hR₂' := hR₁.trans hR₂
  have hD₂ := List.mem_of_getElem? hi₂
  have hdir₂ : DirBlock entry D₂.files :=
    (hw₂.layout.dir D₂ hD₂).congr (by rwa [hkeeps₂'.block, ← hkeeps₁.block])
  have hj₂ := (hkeeps₂'.file x.file F hj hmine').1
  obtain ⟨hx₂, hblocks₂⟩ := hx.spares (hmine ▸ hR₂'.spares)
  have hslot := hdir₂.slot x.file F hj₂
  rw [findFile_eq hdir₂ hnoNul.filename hnoNul.extension (hw₂.layout.files_nodup D₂ hD₂) hj₂ hkey]
  simp only [Option.getD_some]
  rw [if_neg (by omega)]
  -- the first block of the file
  obtain ⟨a, post, hblocks, hcur, ha⟩ := hx₂.first_block hw₂.layout hslot
  rw [hcur, fseek_natCast]
  refine freadStruct_bind hw₂ ha fun w₃ s k₃ hR₃ hw₃ hs₃ _ _ => ?_
  have hR₃' := hR₂'.trans hR₃
  obtain ⟨hx₃, hblocks₃⟩ := hx.spares (hmine ▸ hR₃'.spares)
  have hoffset : offset ≤ dataSize * (post.length + 1) := by
    rw [hblocks, List.length_cons] at hfsize
    omega
  simp only [Nat.mod_eq_of_lt (show offset < 2 ^ 32 by omega)]
  have hsplit : F.blocks = [] ++ a :: post := hblocks
  refine walk_bind hw₃ hx₃ hmine hsplit hs₃ hoffset
    fun w₄ k₄ pos₄ cur₄ s₄ pre₄ a₄ post₄ begin₄ hR₄ hw₄ hsplit₄ hs₄ hle hsum _ => ?_
  have hR₄' := hR₃'.trans hR₄
  obtain ⟨hx₄, hblocks₄⟩ := hx.spares (hmine ▸ hR₄'.spares)
  simp only [if_neg (show ¬ F.fsize < size by omega)]
  refine .bind ((readLoop_runs hw₄ hx₄ hmine hsplit₄ hs₄ (dataOf_congr hblocks₄) (p := offset)
    (by simpa using hsum.symm) hle (by rw [length_dataOf]; omega)).mono
      fun buf k₅ w₅ hbuf => .pure fun w₆ _ => ?_)
  rw [hbuf, toInt_natCast (by omega)]

variable (c k path u) in
/-- **`getattr` next to others**, of a file. -/
theorem csc452Getattr_runs (hw : World c.m c.v₀ w) (hcount : (sscanf path.bytes).count = 3)
    (hx : x.Holds F w.1.fs) (hname : x.dname = (sscanf path.bytes).directory)
    (hkey : F.key = (sscanf path.bytes).key) (hvisible : toInt F.fsize ≠ -1)
    (hmine : c.mine = .file x.dname F.key) :
    c.Runs (fun r _ _ => r = (0, some (Stat.file (toInt F.fsize)))) (csc452Getattr u path) k w := by
  have hnoNul := sscanf_noNul path.noNul
  have hroot : path.bytes ≠ [47] := by
    intro heq
    rw [heq] at hcount
    exact absurd hcount (by decide)
  generalize hp : sscanf path.bytes = p at *
  obtain ⟨D, hi, hDname, hblock, hj⟩ := id hx
  have hn : 0 ∉ D.dname := hDname ▸ hname ▸ hnoNul.directory
  have hmine' : c.mine = .file D.dname F.key := by rw [hmine, hDname]
  rw [csc452Getattr, if_neg hroot]
  simp only [hp, hcount]
  rw [if_neg (by decide), if_pos (by decide), ← hname, ← hDname]
  refine fileExist_bind hw hi hn hnoNul.filename hnoNul.extension hj hkey hmine'
    fun w₁ k₁ hR₁ hw₁ => ?_
  rw [if_pos hvisible]
  exact .pure fun w₂ _ => rfl

end request

end Csc452.Fuse
