import Csc452.Confinement
import Csc452.RequestRules

/-!
# Along a chain

What `csc452_read` and `csc452_write` share: the loop that walks to the block
with the first byte (`walk_bind`), and the data of a file one of whose blocks is
in memory (`localData`).
-/

namespace Csc452.Fuse

open Bytes (Memory AgreeOn HoldsString readLE shift)
open ByteFile (Disk Seen Saw machine)
open LinkedList (Chain)

/-! ## A block in memory -/

/-- The data of a file with one of its blocks in memory. -/
def localData (mem : Memory) (pre : List ℕ) (s : Memory) (post : List ℕ) : List UInt8 :=
  dataOf mem pre ++ Bytes.read s 0 dataSize ++ dataOf mem post

section localData

variable {mem mem' s : Memory} {pre post : List ℕ} {a i : ℕ} {b : UInt8}

theorem length_localData :
    (localData mem pre s post).length = dataSize * (pre.length + (post.length + 1)) := by
  rw [localData, List.length_append, List.length_append, Bytes.length_read, length_dataOf,
    length_dataOf]
  ring

/-- Right after the block has been read. -/
theorem localData_self (h : AgreeOn (shift mem a) s 0 blockSize) :
    localData mem pre s post = dataOf mem (pre ++ a :: post) := by
  have hread : Bytes.read s 0 dataSize = Bytes.read mem a dataSize := by
    rw [← Bytes.read_congr (h.mono (le_refl _) (by simp only [dataSize, blockSize]; omega)),
      Bytes.read_shift, Nat.add_zero]
  rw [localData, hread, dataOf_append, dataOf_cons, List.append_assoc]

theorem localData_congr (h : ∀ x ∈ pre ++ post, AgreeOn mem mem' x blockSize) :
    localData mem' pre s post = localData mem pre s post := by
  rw [localData, localData, dataOf_congr fun x hx => h x (List.mem_append_left _ hx),
    dataOf_congr fun x hx => h x (List.mem_append_right _ hx)]

/-- The link is not part of the data. -/
theorem localData_setLong {z : ℤ} :
    localData mem pre (setLong s nextOffset z) post = localData mem pre s post := by
  have hread : Bytes.read (setLong s nextOffset z) 0 dataSize = Bytes.read s 0 dataSize :=
    (Bytes.read_congr (agreeOn_setLong (.inr (by decide)))).symm
  rw [localData, localData, hread]

/-- Setting a byte of the block. -/
theorem localData_write (hi : i < dataSize) :
    localData mem pre (Bytes.write s i [b]) post =
      (localData mem pre s post).set (dataSize * pre.length + i) b := by
  have hread : Bytes.read (Bytes.write s i [b]) 0 dataSize = (Bytes.read s 0 dataSize).set i b := by
    simpa using Bytes.read_write_one (m := s) (a := 0) (c := b) hi
  have hlen : (dataOf mem pre).length = dataSize * pre.length := length_dataOf mem pre
  rw [localData, localData, hread, List.set_append_left _ _ (by simp [hlen, hi]),
    List.set_append_right _ _ (by omega), hlen, Nat.add_sub_cancel_left]

/-- The byte of the block at an index. -/
theorem getElem?_localData (hi : i < dataSize) :
    (localData mem pre s post)[dataSize * pre.length + i]? = some (s i) := by
  have hlen : (dataOf mem pre).length = dataSize * pre.length := length_dataOf mem pre
  have hi' : i < (Bytes.read s 0 dataSize).length := by rwa [Bytes.length_read]
  rw [localData, List.append_assoc, List.getElem?_append_right (by omega), hlen,
    Nat.add_sub_cancel_left, List.getElem?_append_left hi', List.getElem?_eq_getElem hi',
    Bytes.getElem_read, Nat.zero_add]

end localData

/-! ## Walking -/

section walk

variable {c : Context} {α : Type} {Q : α → Seen → State → Prop} {k : Seen} {w : State}
variable {x : Place} {F : File} {pre post : List ℕ} {a : ℕ} {s : Memory}

/-- The link of a block in memory. -/
theorem longAt_next {m : ℕ} {d : Disk} {fs : Fs} {pending : List ℕ} (hl : Layout m d fs pending)
    (hx : x.Holds F fs) (hsplit : F.blocks = pre ++ a :: post)
    (hs : readLE s nextOffset 8 = post.headD 0) : longAt s nextOffset = post.headD 0 := by
  refine longAt_eq hs ?_
  rcases post with _ | ⟨b, post⟩
  · exact Nat.two_pow_pos 63
  · have hb : b ∈ fs.owned := hx.owned (by simp [hsplit])
    exact (hl.block_lt (List.mem_append_left _ hb)).2.2.trans (by decide)

/-- The link of a block that has been read. -/
theorem readLE_next {m : ℕ} {d : Disk} {fs : Fs} {pending : List ℕ} (hl : Layout m d fs pending)
    (hx : x.Holds F fs) (hsplit : F.blocks = pre ++ a :: post)
    (hs : AgreeOn (shift d.bytes a) s 0 blockSize) : readLE s nextOffset 8 = post.headD 0 := by
  have hchain := (hx.chain hl).chain
  rw [hsplit] at hchain
  rw [← Bytes.readLE_congr (hs.mono (Nat.zero_le _) (by simp only [nextOffset, blockSize]; omega)),
    Bytes.readLE_shift]
  exact Option.some.inj hchain.next_eq

/-- The walk stops in the block with the first byte, or at the end of the one in
front of it. -/
theorem walk_bind {pos beginIndex : ℕ} {cur : ℤ} {f : ℕ × ℤ × Memory × ℕ → Request α}
    (hw : World c.m c.v₀ w) (hx : x.Holds F w.1.fs) (hmine : c.mine = .file x.dname F.key)
    (hsplit : F.blocks = pre ++ a :: post) (hs : AgreeOn (shift w.2.bytes a) s 0 blockSize)
    (hbegin : beginIndex ≤ dataSize * (post.length + 1))
    (h : ∀ w' k' pos' cur' s' pre' a' post' beginIndex', c.R w w' → World c.m c.v₀ w' →
      F.blocks = pre' ++ a' :: post' → AgreeOn (shift w'.2.bytes a') s' 0 blockSize →
      beginIndex' ≤ dataSize →
      dataSize * pre'.length + beginIndex' = dataSize * pre.length + beginIndex →
      (cur = (a : ℤ) → cur' = (a' : ℤ)) → c.Runs Q (f (pos', cur', s', beginIndex')) k' w') :
    c.Runs Q (walk pos cur s beginIndex >>= f) k w := by
  induction post generalizing pos cur s beginIndex k w pre a with
  | nil =>
    rw [walk, dif_neg (by simp only [List.length_nil, dataSize] at hbegin
                          simp only [maxDataInBlock, blockSize]; omega), pure_bind]
    exact h w k pos cur s pre a [] beginIndex (.refl w) hw hsplit hs (by simpa using hbegin) rfl id
  | cons b post ih =>
    rw [walk]
    split
    · next hgt =>
      have hnext : longAt s nextOffset = b :=
        longAt_next hw.layout hx hsplit (readLE_next hw.layout hx hsplit hs)
      have hb := hw.layout.block_lt
        (List.mem_append_left _ (hx.owned (b := b) (by simp [hsplit])))
      simp only [hnext, fseek_natCast, bind_assoc]
      refine freadStruct_bind hw hb.2.1 fun w₁ s₁ k₁ hR₁ hw₁ hs₁ _ _ => ?_
      have hx₁ := (hx.spares (hmine ▸ hR₁.spares)).1
      have hsplit₁ : F.blocks = (pre ++ [a]) ++ b :: post := by simp [hsplit]
      refine ih hw₁ hx₁ hsplit₁ hs₁ ?_ fun w' k' pos' cur' s' pre' a' post' beginIndex' hR hw' hsp hs'
        hle heq hcur => h w' k' pos' cur' s' pre' a' post' beginIndex' (hR₁.trans hR) hw' hsp hs' hle
          ?_ fun _ => hcur rfl
      · simp only [List.length_cons, maxDataInBlock, blockSize, dataSize] at *
        omega
      · simp only [List.length_append, List.length_singleton, maxDataInBlock, blockSize, dataSize]
          at *
        omega
    · next hle =>
      rw [pure_bind]
      refine h w k pos cur s pre a (b :: post) beginIndex (.refl w) hw hsplit hs ?_ rfl id
      simp only [maxDataInBlock, blockSize, dataSize] at *
      omega

end walk

end Csc452.Fuse
