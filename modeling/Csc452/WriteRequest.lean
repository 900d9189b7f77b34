import Csc452.Walking
import Csc452.Specification

/-!
# `write`

What a request to write a file does while others run. It first sets the new size
in the entry of the file. Then it walks to the block with the first byte and
copies the buffer, byte by byte, into a block in memory, which it flushes when it
is full; at the end of the chain it links in a new block first. When there is
none, it gives up: what it has flushed stays, and so does the new size.

All of its effects replace the file by one of the new size, and the last one has
the contents with the buffer spliced in (`WriteEnds`).
-/

namespace Csc452.Fuse

open Bytes (Memory AgreeOn HoldsString readLE shift)
open ByteFile (Disk Seen Saw machine)

/-- A file with other contents. -/
def File.withData (F : File) (data : List UInt8) : FileView where
  fname := F.fname
  fext := F.fext
  fsize := F.fsize
  data := data

/-- Effects that replace a file by one with other contents. -/
def Writes (n : List UInt8) (F : File) (es : List Effect) : Prop :=
  ∀ e ∈ es, ∃ data, e = .setFile n (F.withData data)

theorem Writes.append {n : List UInt8} {F : File} {es : List Effect} {data : List UInt8}
    (h : Writes n F es) : Writes n F (es ++ [.setFile n (F.withData data)]) := by
  intro e he
  rcases List.mem_append.mp he with he | he
  · exact h e he
  · exact ⟨data, List.mem_singleton.mp he⟩

/-- Only the last one matters. -/
theorem Writes.apply {n : List UInt8} {F : File} {es : List Effect} {v : View} {W : FileView}
    (h : Writes n F es) (hkey : W.key = F.key) :
    (Effect.setFile n W).apply (Effect.applyAll es v) = (Effect.setFile n W).apply v := by
  induction es generalizing v with
  | nil => rfl
  | cons e es ih =>
    obtain ⟨data, rfl⟩ := h e List.mem_cons_self
    refine (ih fun e he => h e (List.mem_cons_of_mem _ he)).trans ?_
    exact Effect.setFile_setFile hkey.symm

theorem Writes.applyAll {n : List UInt8} {F : File} {es : List Effect} {v : View}
    (h : Writes n F es) : Effect.applyAll es v = v ∨
      ∃ data, Effect.applyAll es v = (Effect.setFile n (F.withData data)).apply v := by
  rcases List.eq_nil_or_concat es with rfl | ⟨es, e, rfl⟩
  · exact .inl rfl
  · rw [List.concat_eq_append] at h ⊢
    obtain ⟨data, rfl⟩ := h e (by simp)
    refine .inr ⟨data, ?_⟩
    rw [Effect.applyAll_append]
    exact Writes.apply (fun e he => h e (List.mem_append_left _ he)) rfl

section commit

variable {c : Context} {α : Type} {Q : α → Seen → State → Prop} {k : Seen} {w : State}
variable {x : Place} {F F' : File} {pre post : List ℕ} {a b e : ℕ} {s : Memory} {D : Dir} {d' : Disk}
variable {key : List UInt8 × List UInt8}

/-- The state after the file has been replaced. -/
structure Replaced (c : Context) (x : Place) (F' : File) (w : State) (g : Ghost) (d' : Disk) :
    Prop where
  /-- the world stays sound -/
  world : World c.m c.v₀ (g, d')
  /-- nothing is pending -/
  pending : g.pending c.t = []
  /-- the file is in its place -/
  holds : x.Holds F' g.fs
  /-- the effect -/
  effects : g.effects c.t = w.1.effects c.t ++ [.setFile x.dname (F'.view d'.bytes)]

/-- Replacing the file is allowed. -/
theorem Context.replace (hw : World c.m c.v₀ w)
    (h : Commits c.m (.file D.dname F.key) (.setFile D.dname (F'.view d'.bytes)) w.2 w.1.fs d'
      (w.1.fs.modifyDir D.dname (D.files.set x.file F')) (w.1.pending (!c.t)))
    (hother : c.other ≠ .file x.dname key)
    (hframe : ∀ w fs' es d', Writing c.m c.t x key e w (w.1.commit c.t fs' [] es, d') →
      c.frame.rel w (w.1.commit c.t fs' [] es, d'))
    (hi : w.1.fs.dirs[x.dir]? = some D) (hname : D.dname = x.dname) (hblock : D.block = x.block)
    (hj : D.files[x.file]? = some F) (hkey : F.key = key) (hkey' : F'.key = F.key)
    (hblocks : F'.blocks = F.blocks ++ w.1.pending c.t)
    (hbytes : ∀ i, d'.bytes i ≠ w.2.bytes i →
      (e ≤ i ∧ i < e + 8) ∨ ∃ b ∈ F'.blocks, b ≤ i ∧ i < b + blockSize) :
    ∃ g, c.G w (g, d') ∧ Replaced c x F' w g d' := by
  have hsub : w.1.pending c.t ++ F.blocks ⊆ F'.blocks := by
    rw [hblocks]
    exact List.perm_append_comm.subset
  have hconf := Confined.commit e [.setFile D.dname (F'.view d'.bytes)] hw.layout
    (List.mem_of_getElem? hi) hj hkey' hsub hbytes
  have hgrows := Grows.commit [.setFile D.dname (F'.view d'.bytes)] d' hw.layout hi hj hkey' hblocks
  rw [hkey, hname] at hconf
  rw [hname] at hgrows
  have hG := Context.G.commits h (by rwa [hkey, hname])
    (by rw [hname]; exact hframe _ _ _ _ ⟨hconf, hgrows⟩)
  refine ⟨_, hG, hG.rely.world hw, Ghost.commit_pending, Place.Holds.set hi hname hblock hj, ?_⟩
  rw [Ghost.commit_effects, hname]

/-- The size in the entry of a file, set on the disk. -/
theorem changed_setSize {z : ℤ} {i j : ℕ} {d : Disk} {entry : Memory}
    (hd : Rewrites a d d') (hold : AgreeOn (shift d.bytes a) entry 0 blockSize)
    (hnew : AgreeOn (setLong entry (fsizeOffset j) z) (shift d'.bytes a) 0 blockSize)
    (hi : d'.bytes i ≠ d.bytes i) : a + fsizeOffset j ≤ i ∧ i < a + fsizeOffset j + 8 := by
  obtain ⟨hle, hlt⟩ := hd.changed hi
  obtain ⟨r, rfl⟩ := Nat.exists_eq_add_of_le hle
  by_contra hout
  have hsame := agreeOn_setLong (s := entry) (a := fsizeOffset j) (b := r) (n := 1) (z := z)
    (by omega) r (le_refl r) (Nat.lt_succ_self r)
  have hr : r < 0 + blockSize := by omega
  exact hi ((hnew r (Nat.zero_le r) hr).symm.trans
    (hsame.symm.trans (hold r (Nat.zero_le r) hr).symm))

variable (hmine : c.mine = .file x.dname key) (hother : c.other ≠ .file x.dname key)
variable (hframe : ∀ w fs' es d', Writing c.m c.t x key e w (w.1.commit c.t fs' [] es, d') →
  c.frame.rel w (w.1.commit c.t fs' [] es, d'))

include hmine hother hframe

/-- A full block goes to the disk. -/
theorem flush_bind {f : Unit → Request α} (hw : World c.m c.v₀ w) (hx : x.Holds F w.1.fs)
    (hkey : F.key = key) (hpending : w.1.pending c.t = []) (hsplit : F.blocks = pre ++ a :: post)
    (hlink : readLE s nextOffset 8 = post.headD 0)
    (h : ∀ w' k', World c.m c.v₀ w' → w'.1.pending c.t = [] → x.Holds F w'.1.fs →
      dataOf w'.2.bytes F.blocks = localData w.2.bytes pre s post →
      w'.1.effects c.t = w.1.effects c.t ++ [.setFile x.dname (F.view w'.2.bytes)] →
      c.Runs Q (f ()) k' w') :
    c.Runs Q (fwriteStruct a s >>= f) k w := by
  refine fwriteStruct_bind hw fun w₁ hR₁ hw₁ _ => ?_
  obtain ⟨hx₁, hagree₁⟩ := hx.spares (hkey ▸ hmine ▸ hR₁.spares)
  have howned : a ∈ w₁.1.fs.owned := hx₁.owned (by simp [hsplit])
  obtain ⟨D, hi, hname, hblock, hj⟩ := hx₁
  have hpending₁ : w₁.1.pending c.t = [] := hR₁.pending.trans hpending
  have hlayout₁ := hw₁.layout' c.t
  rw [hpending₁] at hlayout₁
  have ha := hlayout₁.block_lt (List.mem_append_left _ howned)
  obtain ⟨hd, hs⟩ := rewrites_put (d := w₁.2) (a := a) (s := s) (by rw [hlayout₁.size]; exact ha.2.1)
  obtain ⟨hcommit, hdata⟩ := Layout.setData hlayout₁ (List.mem_of_getElem? hi) hj hsplit hd hs hlink
  obtain ⟨g, hG, hnew⟩ := Context.replace hw₁ hcommit hother hframe hi hname hblock hj hkey rfl
    (by simp [hpending₁]) (fun i hi => .inr ⟨a, by simp [hsplit], hd.changed hi⟩)
  refine ⟨g, hG, fun k' _ => h _ k' hnew.world hnew.pending hnew.holds ?_ ?_⟩
  · refine hdata.trans (localData_congr fun y hy => hagree₁ y ?_)
    rw [hsplit]
    exact (List.mem_append.mp hy).elim (fun hy => by simp [hy]) fun hy => by simp [hy]
  · rw [hnew.effects, hR₁.effects]

/-- The size of the file is set, in an entry that is remembered. -/
theorem setSize_bind {f : Unit → Request α} {entry : Memory} {z : ℤ} (hw : World c.m c.v₀ w)
    (hx : x.Holds F w.1.fs) (hkey : F.key = key) (hpending : w.1.pending c.t = [])
    (hfield : e = x.block + fsizeOffset x.file) {mem : Memory}
    (hsaw : Saw k x.block blockSize mem) (hentry : AgreeOn (shift mem x.block) entry 0 blockSize)
    (h : ∀ w' k', World c.m c.v₀ w' → w'.1.pending c.t = [] →
      x.Holds { F with fsize := toSize z } w'.1.fs →
      (∀ b ∈ F.blocks, AgreeOn w.2.bytes w'.2.bytes b blockSize) →
      w'.1.effects c.t = w.1.effects c.t ++
        [.setFile x.dname (File.view w'.2.bytes { F with fsize := toSize z })] →
      c.Runs Q (f ()) k' w') :
    c.Runs Q (fwriteStruct x.block (setLong entry (fsizeOffset x.file) z) >>= f) k w := by
  refine fwriteStruct_bind hw fun w₁ hR₁ hw₁ hfresh => ?_
  obtain ⟨hx₁, hagree₁⟩ := hx.spares (hkey ▸ hmine ▸ hR₁.spares)
  obtain ⟨D, hi, hname, hblock, hj⟩ := hx₁
  have hD := List.mem_of_getElem? hi
  have hpending₁ : w₁.1.pending c.t = [] := hR₁.pending.trans hpending
  have hlayout₁ := hw₁.layout' c.t
  rw [hpending₁] at hlayout₁
  have ha := hlayout₁.block_lt (List.mem_append_left _ (Layout.block_mem hD))
  have hold : AgreeOn (shift w₁.2.bytes D.block) entry 0 blockSize := by
    rw [hblock]
    exact (AgreeOn.shift.mpr (hfresh _ hsaw)).trans hentry
  rw [← hblock]
  obtain ⟨hd, hs⟩ := rewrites_put (d := w₁.2) (a := D.block)
    (s := setLong entry (fsizeOffset x.file) z) (by rw [hlayout₁.size]; exact ha.2.1)
  have hdir := ((hlayout₁.dir D hD).congr hold).setSize hj z
  obtain ⟨hcommit, hagree⟩ := Layout.setSize hlayout₁ hD hj hd (hdir.congr hs)
  obtain ⟨g, hG, hnew⟩ := Context.replace hw₁ hcommit hother hframe hi hname hblock hj hkey rfl
    (by simp [hpending₁])
    fun i hi => .inl (by rw [hfield, ← hblock]; exact changed_setSize hd hold hs hi)
  refine ⟨g, hG, fun k' _ => h _ k' hnew.world hnew.pending hnew.holds ?_ ?_⟩
  · exact fun b hb => (hagree₁ b hb).trans (hagree b hb)
  · rw [hnew.effects, hR₁.effects]

/-- The place of the entry is looked up in the root block first. -/
theorem updateSize_bind {f : Memory → Request α} {u : Uninit} {pos : ℕ} {entry : Memory} {z : ℤ}
    (hw : World c.m c.v₀ w) (hx : x.Holds F w.1.fs) (hkey : F.key = key)
    (hpending : w.1.pending c.t = []) (hfield : e = x.block + fsizeOffset x.file) {mem : Memory}
    (hsaw : Saw k x.block blockSize mem) (hentry : AgreeOn (shift mem x.block) entry 0 blockSize)
    (h : ∀ root w' k', World c.m c.v₀ w' → w'.1.pending c.t = [] →
      x.Holds { F with fsize := toSize z } w'.1.fs →
      (∀ b ∈ F.blocks, AgreeOn w.2.bytes w'.2.bytes b blockSize) →
      w'.1.effects c.t = w.1.effects c.t ++
        [.setFile x.dname (File.view w'.2.bytes { F with fsize := toSize z })] →
      c.Runs Q (f root) k' w') :
    c.Runs Q (getRoot u >>= fun root =>
      fwriteStruct (fseek pos (dirStart u root x.dir)) (setLong entry (fsizeOffset x.file) z) >>=
        fun _ => f root) k w := by
  refine getRoot_bind' hw fun w₁ root k₁ hR₁ hw₁ hroot hkeep => ?_
  obtain ⟨hx₁, hblocks₁⟩ := hx.spares (hkey ▸ hmine ▸ hR₁.spares)
  obtain ⟨D, hi, hname, hblock, hj⟩ := id hx₁
  have hmem := List.mem_append_left (w₁.1.pending true ++ w₁.1.pending false)
    (Layout.block_mem (List.mem_of_getElem? hi))
  have hD := hw₁.layout.block_lt hmem
  have hlow := (hw₁.layout.blockAddress hmem).2
  rw [hblock] at hlow
  rw [hroot.dirStart_eq hi (hD.2.2.trans (by decide)), fseek_natCast, hblock]
  refine setSize_bind hmine hother hframe hw₁ hx₁ hkey (hR₁.pending.trans hpending) hfield
    (hkeep _ _ _ hsaw (.inr (by omega))) hentry fun w₂ k₂ hw₂ hpending₂ hx₂ hblocks₂ heffects₂ => ?_
  refine h root w₂ k₂ hw₂ hpending₂ hx₂ (fun b hb => (hblocks₁ b hb).trans (hblocks₂ b hb)) ?_
  rw [heffects₂, hR₁.effects]

/-- The last block goes to the disk with the link to a new one. -/
theorem link_bind {f : Unit → Request α} (hw : World c.m c.v₀ w) (hx : x.Holds F w.1.fs)
    (hkey : F.key = key) (hpending : w.1.pending c.t = [b]) (hsplit : F.blocks = pre ++ [a])
    (hlink : readLE s nextOffset 8 = b)
    (h : ∀ w' k', World c.m c.v₀ w' → w'.1.pending c.t = [] →
      x.Holds { F with blocks := F.blocks ++ [b] } w'.1.fs →
      dataOf w'.2.bytes (F.blocks ++ [b]) =
        localData w.2.bytes pre s [] ++ List.replicate dataSize 0 →
      w'.1.effects c.t = w.1.effects c.t ++
        [.setFile x.dname (File.view w'.2.bytes { F with blocks := F.blocks ++ [b] })] →
      c.Runs Q (f ()) k' w') :
    c.Runs Q (fwriteStruct a s >>= f) k w := by
  refine fwriteStruct_bind hw fun w₁ hR₁ hw₁ _ => ?_
  obtain ⟨hx₁, hagree₁⟩ := hx.spares (hkey ▸ hmine ▸ hR₁.spares)
  have howned : a ∈ w₁.1.fs.owned := hx₁.owned (by simp [hsplit])
  obtain ⟨D, hi, hname, hblock, hj⟩ := hx₁
  have hpending₁ : w₁.1.pending c.t = [b] := hR₁.pending.trans hpending
  have hlayout₁ := hw₁.layout' c.t
  rw [hpending₁] at hlayout₁
  have ha := hlayout₁.block_lt (List.mem_append_left _ howned)
  obtain ⟨hd, hs⟩ := rewrites_put (d := w₁.2) (a := a) (s := s) (by rw [hlayout₁.size]; exact ha.2.1)
  obtain ⟨hcommit, hdata⟩ := Layout.link hlayout₁ (List.mem_of_getElem? hi) hj hsplit hd hs hlink
  obtain ⟨g, hG, hnew⟩ := Context.replace hw₁ hcommit hother hframe hi hname hblock hj hkey rfl
    (by simp [hpending₁]) (fun i hi => .inr ⟨a, by simp [hsplit], hd.changed hi⟩)
  refine ⟨g, hG, fun k' _ => h _ k' hnew.world hnew.pending hnew.holds ?_ ?_⟩
  · rw [hdata, localData, dataOf_nil, List.append_nil, dataOf_congr fun y hy => hagree₁ y ?_]
    simp [hsplit, hy]
  · rw [hnew.effects, hR₁.effects]

end commit

/-! ## The copying loop -/

/-- How the copying loop ends, for contents `data`, a position and the bytes to
copy there: they have all been copied, or the disk is full and the file has no
room for them. -/
structure LoopEnds (c : Context) (x : Place) (F : File) (data : List UInt8) (p : ℕ)
    (buf : List UInt8) (done : Bool) (k : Seen) (w : State) : Prop where
  /-- nothing is pending -/
  pending : w.1.pending c.t = []
  /-- the blocks of the file in the end -/
  file : ∃ F', x.Holds F' w.1.fs ∧ F'.key = F.key ∧ F'.fsize = F.fsize ∧
    if done then dataSize * F'.blocks.length = (splice data p buf).length
    else dataSize * F'.blocks.length < p + buf.length
  /-- the effects -/
  effects : if done then ∃ es, Writes x.dname F es ∧
      w.1.effects c.t = es ++ [.setFile x.dname (F.withData (splice data p buf))]
    else Writes x.dname F (w.1.effects c.t)
  /-- why it gave up -/
  full : done = false → c.m ≤ w.1.fs.used + 2

section loop

variable {c : Context} {k : Seen} {w : State} {x : Place} {F : File} {pre post : List ℕ}
variable {a e p beginIndex pos : ℕ} {s : Memory} {key : List UInt8 × List UInt8} {u : Uninit}
variable {buf data : List UInt8} {done : Bool} {v : UInt8}

theorem LoopEnds.stable {w' : State} (h : LoopEnds c x F data p buf done k w)
    (hmine : c.mine = .file x.dname F.key) (hR : c.R w w') :
    LoopEnds c x F data p buf done k w' where
  pending := hR.pending.trans h.pending
  file := by
    obtain ⟨F', hx, hkey, hrest⟩ := h.file
    exact ⟨F', (hx.spares (hkey ▸ hmine ▸ hR.spares)).1, hkey, hrest⟩
  effects := by
    rw [hR.effects]
    exact h.effects
  full hdone := (h.full hdone).trans (Nat.add_le_add_right hR.spares.used_le 2)

/-- One byte copied. -/
theorem LoopEnds.cons (h : LoopEnds c x F ((grow data p).set p v) (p + 1) buf done k w) :
    LoopEnds c x F data p (v :: buf) done k w where
  pending := h.pending
  file := by
    have hlen : p + (v :: buf).length = p + 1 + buf.length := by
      rw [List.length_cons]
      ring
    rw [hlen]
    exact h.file
  effects := h.effects
  full := h.full

/-- Where the loop stands: it has the block `a` of the file in memory, and the next byte goes
to the position `p` of what the file holds with it. -/
structure Copying (c : Context) (x : Place) (F : File) (data : List UInt8) (p : ℕ) (pre : List ℕ)
    (a : ℕ) (post : List ℕ) (s : Memory) (beginIndex : ℕ) (w : State) : Prop where
  /-- the disk is laid out -/
  world : World c.m c.v₀ w
  /-- the file -/
  holds : x.Holds F w.1.fs
  /-- nothing is pending -/
  pending : w.1.pending c.t = []
  /-- the block is one of the file -/
  split : F.blocks = pre ++ a :: post
  /-- it leads to the next one -/
  link : readLE s nextOffset 8 = post.headD 0
  /-- the contents, with the block as it is in memory -/
  contents : localData w.2.bytes pre s post = data
  /-- the position -/
  position : p = dataSize * pre.length + beginIndex
  /-- it is in the block or right behind it -/
  begin_le : beginIndex ≤ dataSize
  /-- what has been done so far -/
  writes : Writes x.dname F (w.1.effects c.t)

namespace Copying

theorem length_data (h : Copying c x F data p pre a post s beginIndex w) :
    data.length = dataSize * (pre.length + (post.length + 1)) := by
  rw [← h.contents, length_localData]

/-- Nothing is added to the file inside its blocks. -/
theorem grow_eq (h : Copying c x F data p pre a post s beginIndex w)
    (hinside : beginIndex < dataSize ∨ post ≠ []) : grow data p = data := by
  have hbegin := h.begin_le
  have hpost : 1 ≤ post.length ∨ beginIndex < dataSize :=
    hinside.symm.imp_left List.length_pos_of_ne_nil
  refine if_neg ?_
  rw [h.position, h.length_data, Nat.mul_add, Nat.mul_add]
  simp only [dataSize] at *
  omega

/-- A byte goes into the block in memory. -/
theorem write (h : Copying c x F data p pre a post s beginIndex w) (hlt : beginIndex < dataSize) :
    Copying c x F ((grow data p).set p v) (p + 1) pre a post (Bytes.write s beginIndex [v])
      (beginIndex + 1) w where
  world := h.world
  holds := h.holds
  pending := h.pending
  split := h.split
  link := by
    rw [← Bytes.readLE_congr (AgreeOn.write ?_)]
    · exact h.link
    · simp only [List.length_singleton, nextOffset, dataSize] at *
      omega
  contents := by
    rw [localData_write hlt, h.contents, h.grow_eq (.inl hlt), h.position]
  position := by
    rw [h.position, Nat.add_assoc]
  begin_le := hlt
  writes := h.writes

end Copying

/-- From wherever it stands, the loop copies the buffer. -/
def Copies (c : Context) (x : Place) (key : List UInt8 × List UInt8) (u : Uninit)
    (buf : List UInt8) : Prop :=
  ∀ {F data p pre a post s beginIndex pos k w}, F.key = key →
    Copying c x F data p pre a post s beginIndex w →
      c.Runs (LoopEnds c x F data p buf)
        (writeLoop u buf pos a s beginIndex (maxDataInBlock - beginIndex)) k w

variable (hmine : c.mine = .file x.dname key) (hother : c.other ≠ .file x.dname key)
variable (hframe : ∀ w fs' es d', Writing c.m c.t x key e w (w.1.commit c.t fs' [] es, d') →
  c.frame.rel w (w.1.commit c.t fs' [] es, d'))

include hmine

/-- The loop goes on with the first byte of a block, which it reads. -/
theorem Copies.enter (ih : Copies c x key u buf) (hw : World c.m c.v₀ w) (hx : x.Holds F w.1.fs)
    (hkey : F.key = key) (hpending : w.1.pending c.t = []) (hsplit : F.blocks = pre ++ a :: post)
    (hdata : dataOf w.2.bytes F.blocks = data) (hp : p = dataSize * pre.length)
    (hwrites : Writes x.dname F (w.1.effects c.t)) :
    c.Runs (LoopEnds c x F (data.set p v) (p + 1) buf)
      (freadStruct s a >>= fun r =>
        writeLoop u buf r.2 a (Bytes.write r.1 0 [v]) 1 (maxDataInBlock - 1)) k w := by
  have ha := hw.layout.block_lt (List.mem_append_left _ (hx.owned (b := a) (by simp [hsplit])))
  refine freadStruct_bind hw ha.2.1 fun w₁ s₁ k₁ hR₁ hw₁ hs₁ _ _ => ?_
  obtain ⟨hx₁, hagree₁⟩ := hx.spares (hkey ▸ hmine ▸ hR₁.spares)
  have hstands : Copying c x F data p pre a post s₁ 0 w₁ :=
    { world := hw₁
      holds := hx₁
      pending := hR₁.pending.trans hpending
      split := hsplit
      link := readLE_next hw₁.layout hx₁ hsplit hs₁
      contents := by rw [localData_self hs₁, ← hsplit, dataOf_congr hagree₁, hdata]
      position := hp
      begin_le := Nat.zero_le _
      writes := by rwa [hR₁.effects] }
  have hnext := hstands.write (v := v) (by decide)
  rw [hstands.grow_eq (.inl (by decide))] at hnext
  exact ih hkey hnext

include hother hframe

/-- The end of the buffer: the block is flushed. -/
theorem Copies.nil : Copies c x key u [] := by
  intro F data p pre a post s beginIndex pos k w hkey h
  rw [writeLoop, fseek_natCast]
  refine flush_bind hmine hother hframe h.world h.holds hkey h.pending h.split h.link
    fun w₁ k₁ hw₁ hpending₁ hx₁ hdata₁ heffects₁ => .pure fun w₂ hR₂ => ?_
  have hends : LoopEnds c x F data p [] true k₁ w₁ := by
    refine ⟨hpending₁, ⟨F, hx₁, rfl, rfl, ?_⟩, ⟨_, h.writes, ?_⟩, fun h => by cases h⟩
    · rw [if_pos rfl, splice, ← h.contents, ← hdata₁, length_dataOf]
    · rw [heffects₁, splice, ← h.contents, ← hdata₁]
      rfl
  exact hends.stable (hkey ▸ hmine) hR₂

/-- The block is full, and the last one: another one is handed out and linked in, or there is
none. -/
theorem Copies.extend (ih : Copies c x key u buf) (hkey : F.key = key)
    (h : Copying c x F data p pre a [] s dataSize w) :
    c.Runs (LoopEnds c x F ((grow data p).set p v) (p + 1) buf)
      (writeLoop u (v :: buf) pos a s dataSize (maxDataInBlock - dataSize)) k w := by
  have hlong : longAt s nextOffset = 0 := longAt_next h.world.layout h.holds h.split h.link
  rw [writeLoop, if_pos (by simp only [maxDataInBlock, blockSize, dataSize])]
  simp only [hlong, if_true]
  refine nextFreeBlock_bind h.world h.pending (fun w₁ k₁ hR₁ hw₁ hfull => ?_)
    fun w₁ k₁ hR₁ hw₁ _ => ?_
  · rw [if_pos rfl]
    refine .pure fun w₂ hR₂ => LoopEnds.stable ?_ (hkey ▸ hmine) hR₂
    obtain ⟨hx₁, -⟩ := h.holds.spares (hkey ▸ hmine ▸ hR₁.spares)
    refine ⟨hR₁.pending.trans h.pending, ⟨F, hx₁, rfl, rfl, ?_⟩, ?_, fun _ => hfull⟩
    · rw [h.split, h.position, List.length_append, List.length_singleton, Nat.mul_add, Nat.mul_one]
      simp only [Bool.false_eq_true, if_false]
      omega
    · rw [hR₁.effects]
      exact h.writes
  · have hR₁' := hR₁.spares.trans ((hR₁.world h.world).layout.spares_alloc c.mine)
    obtain ⟨hx₁, hagree₁⟩ := h.holds.spares (hkey ▸ hmine ▸ hR₁')
    have hpending₁ : (allocState c.m c.t w₁).1.pending c.t = [blockSize * (w₁.1.fs.used + 1)] :=
      Ghost.commit_pending
    generalize blockSize * (w₁.1.fs.used + 1) = b at *
    have hb := (hw₁.layout' c.t).block_lt (b := b)
      (List.mem_append_right _ (List.mem_append_left _ (by simp [hpending₁])))
    have hread : readLE (setLong s nextOffset b) nextOffset 8 = b := by
      rw [readLE_setLong_self, toSize_natCast (hb.2.2.trans (by decide))]
    have hnew : longAt (setLong s nextOffset b) nextOffset = b :=
      longAt_eq hread (hb.2.2.trans (by decide))
    simp only [if_neg (natCast_ne_neg_one b), fseek_natCast, hnew]
    refine link_bind hmine hother hframe hw₁ hx₁ hkey hpending₁ h.split hread
      fun w₂ k₂ hw₂ hpending₂ hx₂ hdata₂ heffects₂ => ?_
    have heffects : (allocState c.m c.t w₁).1.effects c.t = w.1.effects c.t := by
      rw [allocState, Ghost.commit_effects, List.append_nil, hR₁.effects]
    refine (ih.enter hmine hw₂ hx₂ hkey hpending₂ (by rw [h.split]) ?_ ?_ ?_).mono
      fun _ _ _ h => ⟨h.pending, h.file, h.effects, h.full⟩
    · have hgrow : grow data p = data ++ List.replicate dataSize 0 := if_pos (by
        rw [h.position, h.length_data, List.length_nil]
        ring)
      have hsame : localData (allocState c.m c.t w₁).2.bytes pre s [] = data := by
        rw [← h.contents]
        refine localData_congr fun y hy => hagree₁ y ?_
        rw [List.append_nil] at hy
        simp [h.split, hy]
      exact hdata₂.trans (by rw [localData_setLong, hsame, hgrow])
    · rw [h.position, List.length_append, List.length_singleton]
      ring
    · rw [heffects₂, heffects]
      exact Writes.append h.writes

/-- The block is full, and there is another one behind it. -/
theorem Copies.next {b : ℕ} (ih : Copies c x key u buf) (hkey : F.key = key)
    (h : Copying c x F data p pre a (b :: post) s dataSize w) :
    c.Runs (LoopEnds c x F ((grow data p).set p v) (p + 1) buf)
      (writeLoop u (v :: buf) pos a s dataSize (maxDataInBlock - dataSize)) k w := by
  have hlong : longAt s nextOffset = b := longAt_next h.world.layout h.holds h.split h.link
  have hb := (h.world.layout.blockAddress (b := b)
    (List.mem_append_left _ (h.holds.owned (by simp [h.split])))).2
  have hb' : (b : ℤ) ≠ 0 := by
    simp only [blockSize] at hb
    omega
  rw [writeLoop, if_pos (by simp only [maxDataInBlock, blockSize, dataSize])]
  simp only [hlong, if_neg hb', pure_bind, fseek_natCast]
  rw [if_neg (by decide), h.grow_eq (.inr (List.cons_ne_nil b post))]
  refine flush_bind hmine hother hframe h.world h.holds hkey h.pending h.split h.link
    fun w₁ k₁ hw₁ hpending₁ hx₁ hdata₁ heffects₁ => ?_
  refine ih.enter hmine hw₁ hx₁ hkey hpending₁ (h.split.trans (List.append_cons _ _ _)) ?_ ?_ ?_
  · rw [hdata₁, h.contents]
  · rw [h.position, List.length_append, List.length_singleton]
    ring
  · rw [heffects₁]
    exact Writes.append h.writes

/-- **The copying loop.** -/
theorem writeLoop_runs : Copies c x key u buf := by
  induction buf with
  | nil => exact Copies.nil hmine hother hframe
  | cons v buf ih =>
    intro F data p pre a post s beginIndex pos k w hkey h
    refine Context.Runs.mono ?_ fun _ _ _ h => LoopEnds.cons h
    rcases lt_or_eq_of_le h.begin_le with hlt | rfl
    · rw [writeLoop, if_neg (by simp only [maxDataInBlock, blockSize, dataSize] at *; omega),
        Nat.sub_sub]
      exact ih hkey (h.write hlt)
    · cases post with
      | nil => exact ih.extend hmine hother hframe hkey h
      | cons b post => exact ih.next hmine hother hframe hkey h

end loop

/-! ## The request -/

/-- How `csc452_write` ends for a file with the contents `data`. -/
inductive WriteEnds (c : Context) (x : Place) (F : File) (data : List UInt8) (offset : ℕ)
    (buf : List UInt8) (ret : ℤ) (k : Seen) (w : State) : Prop where
  /-- there is nothing to write -/
  | empty (hret : ret = 0) (hbuf : buf = []) (hvisible : toInt F.fsize ≠ -1)
    (hends : Ended c.t [] w)
  /-- the size is taken for an error, or the offset lies behind the end -/
  | refused (hret : ret < 0) (hends : Ended c.t [] w)
    (hwhy : toInt F.fsize = -1 ∨ buf ≠ [] ∧ toSize (toInt F.fsize) < offset)
  /-- the loop has run -/
  | loop (done : Bool) (hret : ret = if done then toInt buf.length else -EFBIG) (hbuf : buf ≠ [])
    (hvisible : toInt F.fsize ≠ -1) (hoffset : offset ≤ toSize (toInt F.fsize))
    (hends : LoopEnds c x { F with fsize := newSize F.fsize offset buf.length } data offset buf
      done k w)

/-- Nothing is pending in the end. -/
theorem WriteEnds.pending {c : Context} {x : Place} {F : File} {data buf : List UInt8} {offset : ℕ}
    {ret : ℤ} {k : Seen} {w : State} (h : WriteEnds c x F data offset buf ret k w) :
    w.1.pending c.t = [] := by
  cases h with
  | empty _ _ _ hends => exact hends.pending
  | refused _ hends _ => exact hends.pending
  | loop _ _ _ _ _ hends => exact hends.pending

/-- The loop leaves the file in its place. -/
theorem LoopEnds.fsize {c : Context} {x : Place} {F : File} {size p : ℕ} {data buf : List UInt8}
    {done : Bool} {k : Seen} {w : State}
    (h : LoopEnds c x { F with fsize := size } data p buf done k w) :
    ∃ F', x.Holds F' w.1.fs ∧ F'.key = F.key ∧ F'.fsize = size := by
  obtain ⟨F', hx, hkey, hfsize, -⟩ := h.file
  exact ⟨F', hx, hkey, hfsize⟩

/-- A write of something to a file that can be seen, inside its size, leaves the
file in its place with the new size, whether or not it gives up. -/
theorem WriteEnds.fsize {c : Context} {x : Place} {F : File} {data buf : List UInt8} {offset : ℕ}
    {ret : ℤ} {k : Seen} {w : State} (h : WriteEnds c x F data offset buf ret k w)
    (hvisible : toInt F.fsize ≠ -1) (hbuf : buf ≠ []) (hoffset : offset ≤ toSize (toInt F.fsize)) :
    ∃ F', x.Holds F' w.1.fs ∧ F'.key = F.key ∧ F'.fsize = newSize F.fsize offset buf.length := by
  rcases h with ⟨-, hnil, -, -⟩ | ⟨-, -, hwhy⟩ | ⟨done, -, -, -, -, hends⟩
  · exact absurd hnil hbuf
  · rcases hwhy with hinvisible | ⟨-, hbehind⟩
    · exact absurd hinvisible hvisible
    · exact absurd hbehind (not_lt.mpr hoffset)
  · exact hends.fsize

section request

variable {c : Context} {k : Seen} {w : State} {x : Place} {F : File} {path : CString} {u : Uninit}
variable {offset a e : ℕ} {buf data : List UInt8} {post : List ℕ} {s : Memory}
variable {key : List UInt8 × List UInt8}

/-- The path of a directory, or of nothing. -/
theorem csc452Write_runs_path (hw : World c.m c.v₀ w) (hstart : Ended c.t [] w)
    (hcount : (sscanf path.bytes).count ≠ 3) :
    c.Runs (fun ret _ w => ret < 0 ∧ Ended c.t [] w) (csc452Write u path buf offset) k w := by
  have hrefused : ∀ {k w₁ e}, c.R w w₁ → 0 < e →
      c.Runs (fun ret _ w => ret < 0 ∧ Ended c.t [] w) (pure (-e)) k w₁ :=
    fun hR he => .pure fun w₂ hR₂ => ⟨by omega, hstart.stable (hR.trans hR₂)⟩
  have hnoNul := sscanf_noNul path.noNul
  rw [csc452Write]
  simp only [if_pos hcount]
  split
  · refine dirExists_bind hw hnoNul.directory (fun w₁ i D k₁ hR₁ hw₁ _ _ _ => ?_)
      fun w₁ k₁ hR₁ hw₁ _ _ => ?_
    · rw [if_pos (natCast_ne_neg_one i)]
      exact hrefused hR₁ (by decide)
    · rw [if_neg (by simp)]
      exact hrefused hR₁ (by decide)
  · rw [pure_bind, if_neg (by simp)]
    exact hrefused (.refl w) (by decide)

/-- The path of a file in a directory that is not there. -/
theorem csc452Write_runs_none (hw : World c.m c.v₀ w) (hstart : Ended c.t [] w)
    (hcount : (sscanf path.bytes).count = 3)
    (hmine : c.mine = .dir (sscanf path.bytes).directory)
    (hno : ∀ D ∈ w.1.fs.dirs, D.dname ≠ (sscanf path.bytes).directory) :
    c.Runs (fun ret _ w => ret < 0 ∧ Ended c.t [] w) (csc452Write u path buf offset) k w := by
  have hnoNul := sscanf_noNul path.noNul
  rw [csc452Write]
  simp only [hcount]
  rw [if_neg (by decide), pure_bind, if_neg (by simp), if_neg (by simp)]
  refine fileExist_bind_none hw hnoNul.directory hmine hno fun w₁ k₁ hR₁ hw₁ => ?_
  rw [if_pos rfl]
  exact .pure fun w₂ hR₂ => ⟨by decide, hstart.stable (hR₁.trans hR₂)⟩

/-- The path of a file that is not there. -/
theorem csc452Write_runs_fresh {i : ℕ} {D : Dir} (hw : World c.m c.v₀ w) (hstart : Ended c.t [] w)
    (hcount : (sscanf path.bytes).count = 3) (hi : w.1.fs.dirs[i]? = some D)
    (hname : D.dname = (sscanf path.bytes).directory)
    (hmine : c.mine = .file (sscanf path.bytes).directory
      (sscanf path.bytes).key)
    (hno : ∀ F ∈ D.files, F.key ≠ (sscanf path.bytes).key) :
    c.Runs (fun ret _ w => ret < 0 ∧ Ended c.t [] w) (csc452Write u path buf offset) k w := by
  have hnoNul := sscanf_noNul path.noNul
  rw [csc452Write]
  simp only [hcount]
  rw [if_neg (by decide), pure_bind, if_neg (by simp), if_neg (by simp), ← hname]
  refine fileExist_bind_fresh hw hi (hname ▸ hnoNul.directory) hnoNul.filename hnoNul.extension
    (hname ▸ hmine) hno fun w₁ k₁ hR₁ hw₁ => ?_
  rw [if_pos rfl]
  exact .pure fun w₂ hR₂ => ⟨by decide, hstart.stable (hR₁.trans hR₂)⟩

/-- What comes after the size has been set: the walk and the copying loop. -/
theorem writeRest_runs {pos : ℕ} (hw : World c.m c.v₀ w) (hx : x.Holds F w.1.fs) (hkey : F.key = key)
    (hpending : w.1.pending c.t = []) (hblocks : F.blocks = a :: post)
    (hs : AgreeOn (shift w.2.bytes a) s 0 blockSize) (hdata : dataOf w.2.bytes F.blocks = data)
    (hoffset : offset ≤ dataSize * F.blocks.length) (hwrites : Writes x.dname F (w.1.effects c.t))
    (hmine : c.mine = .file x.dname key) (hother : c.other ≠ .file x.dname key)
    (hframe : ∀ w fs' es d', Writing c.m c.t x key e w (w.1.commit c.t fs' [] es, d') →
      c.frame.rel w (w.1.commit c.t fs' [] es, d')) :
    c.Runs (LoopEnds c x F data offset buf)
      (walk pos a s (offset % 2 ^ 32) >>= fun r =>
        writeLoop u buf r.1 r.2.1 r.2.2.1 r.2.2.2 (maxDataInBlock - r.2.2.2)) k w := by
  have hsmall := hoffset.trans_lt (hx.data_lt hw.layout)
  rw [Nat.mod_eq_of_lt (hsmall.trans (by decide))]
  have hsplit : F.blocks = [] ++ a :: post := hblocks
  refine walk_bind hw hx (hkey ▸ hmine) hsplit hs (by rwa [hblocks] at hoffset)
    fun w₁ k₁ pos₁ cur s₁ pre₁ a₁ post₁ begin₁ hR₁ hw₁ hsplit₁ hs₁ hle hsum hcur => ?_
  obtain ⟨hx₁, hagree₁⟩ := hx.spares (hkey ▸ hmine ▸ hR₁.spares)
  simp only [hcur rfl]
  refine writeLoop_runs hmine hother hframe hkey
    { world := hw₁
      holds := hx₁
      pending := hR₁.pending.trans hpending
      split := hsplit₁
      link := readLE_next hw₁.layout hx₁ hsplit₁ hs₁
      contents := ?_
      position := ?_
      begin_le := hle
      writes := by rwa [hR₁.effects] }
  · rw [localData_self hs₁, ← hsplit₁, dataOf_congr hagree₁, hdata]
  · simpa using hsum.symm

/-- The end of the request, for whatever the loop leaves. -/
theorem writeRest_ends {pos z : ℕ} (hmine : c.mine = .file x.dname F.key) (hbuf : buf ≠ [])
    (hvisible : toInt F.fsize ≠ -1) (hoffset : offset ≤ toSize (toInt F.fsize))
    (hz : z = newSize F.fsize offset buf.length)
    (hloop : c.Runs (LoopEnds c x { F with fsize := z } data offset buf)
      (walk pos a s (offset % 2 ^ 32) >>= fun r =>
        writeLoop u buf r.1 r.2.1 r.2.2.1 r.2.2.2 (maxDataInBlock - r.2.2.2)) k w) :
    c.Runs (WriteEnds c x F data offset buf)
      (walk pos a s (offset % 2 ^ 32) >>= fun r =>
        writeLoop u buf r.1 r.2.1 r.2.2.1 r.2.2.2 (maxDataInBlock - r.2.2.2) >>= fun done =>
          if done then pure (toInt buf.length) else pure (-EFBIG)) k w := by
  rw [← bind_assoc]
  refine .bind (hloop.mono fun done k₁ w₁ hends => ?_)
  have hends' : ∀ w₂, c.R w₁ w₂ → LoopEnds c x { F with fsize := z } data offset buf done k₁ w₂ :=
    fun w₂ hR₂ => hends.stable hmine hR₂
  rw [hz] at hends'
  cases done with
  | true =>
    exact .pure fun w₂ hR₂ => .loop true (if_pos rfl).symm hbuf hvisible hoffset (hends' w₂ hR₂)
  | false =>
    exact .pure fun w₂ hR₂ => .loop false (if_neg Bool.false_ne_true).symm hbuf hvisible hoffset
      (hends' w₂ hR₂)

/-- The request, once it has the entry of the file and its first block: the size is set if it
changes, and the rest goes on. -/
theorem writeSized_runs {pos : ℕ} {entry mem : Memory} (hw : World c.m c.v₀ w)
    (hstart : Ended c.t [] w) (hx : x.Holds F w.1.fs) (hblocks : F.blocks = a :: post)
    (hs : AgreeOn (shift w.2.bytes a) s 0 blockSize) (hdata : dataOf w.2.bytes F.blocks = data)
    (hsaw : Saw k x.block blockSize mem) (hentry : AgreeOn (shift mem x.block) entry 0 blockSize)
    (hbuf : buf ≠ []) (hvisible : toInt F.fsize ≠ -1) (hinside : offset ≤ toSize (toInt F.fsize))
    (hoffset : offset ≤ dataSize * F.blocks.length) (hmine : c.mine = .file x.dname F.key)
    (hother : c.other ≠ c.mine)
    (hframe : ∀ w fs' es d', Writing c.m c.t x F.key (x.block + fsizeOffset x.file) w
        (w.1.commit c.t fs' [] es, d') →
      c.frame.rel w (w.1.commit c.t fs' [] es, d')) :
    c.Runs (WriteEnds c x F data offset buf)
      (if toSize ((offset : ℤ) - toSize (toInt F.fsize) + buf.length) > 0 then do
        let root ← getRoot u
        fwriteStruct (fseek pos (dirStart u root x.dir)) (setLong entry (fsizeOffset x.file)
          (F.fsize + toSize ((offset : ℤ) - toSize (toInt F.fsize) + buf.length)))
        let pos ← pure (fseek pos (dirStart u root x.dir) + blockSize)
        let r ← walk pos a s (offset % 2 ^ 32)
        let done ← writeLoop u buf r.1 r.2.1 r.2.2.1 r.2.2.2 (maxDataInBlock - r.2.2.2)
        if done then pure (toInt buf.length) else pure (-EFBIG)
      else do
        let pos ← pure pos
        let r ← walk pos a s (offset % 2 ^ 32)
        let done ← writeLoop u buf r.1 r.2.1 r.2.2.1 r.2.2.2 (maxDataInBlock - r.2.2.2)
        if done then pure (toInt buf.length) else pure (-EFBIG)) k w := by
  have hother' : c.other ≠ .file x.dname F.key := hmine ▸ hother
  obtain ⟨z, hz⟩ : ∃ z, z = newSize F.fsize offset buf.length := ⟨_, rfl⟩
  have hsize := hz
  rw [newSize] at hsize
  split
  · next hincrease =>
    rw [if_pos hincrease] at hsize
    refine updateSize_bind hmine hother' hframe hw hx rfl hstart.pending rfl hsaw hentry
      fun root w₁ k₁ hw₁ hpending₁ hx₁ hblocks₁ heffects₁ => ?_
    rw [← hsize] at hx₁ heffects₁
    rw [pure_bind]
    refine writeRest_ends hmine hbuf hvisible hinside hz (writeRest_runs hw₁ hx₁ rfl hpending₁
      hblocks ?_ ?_ hoffset ?_ hmine hother' hframe)
    · exact (AgreeOn.shift.mpr (hblocks₁ a (by simp [hblocks]))).symm.trans hs
    · exact (dataOf_congr hblocks₁).trans hdata
    · rw [heffects₁, hstart.effects]
      exact Writes.append fun e he => absurd he List.not_mem_nil
  · next hincrease =>
    rw [if_neg hincrease] at hsize
    rw [pure_bind]
    refine writeRest_ends hmine hbuf hvisible hinside hz (writeRest_runs hw ?_ rfl
      hstart.pending hblocks hs hdata hoffset ?_ hmine hother' hframe)
    · rw [hsize]
      exact hx
    · rw [hstart.effects]
      exact fun e he => absurd he List.not_mem_nil

variable (c k path u buf) in
/-- **`write` next to others**, to a file that is there, at an offset that lies in
its blocks or right behind them, in a frame that allows it to write the file. -/
theorem csc452Write_runs_frame (hw : World c.m c.v₀ w) (hstart : Ended c.t [] w)
    (hcount : (sscanf path.bytes).count = 3) (hx : x.Holds F w.1.fs)
    (hname : x.dname = (sscanf path.bytes).directory)
    (hkey : F.key = (sscanf path.bytes).key)
    (hoffset : offset ≤ toSize (toInt F.fsize) → offset ≤ dataSize * F.blocks.length)
    (hmine : c.mine = .file x.dname F.key) (hother : c.other ≠ c.mine)
    (hframe : ∀ w fs' es d', Writing c.m c.t x F.key (x.block + fsizeOffset x.file) w
        (w.1.commit c.t fs' [] es, d') →
      c.frame.rel w (w.1.commit c.t fs' [] es, d')) :
    c.Runs (WriteEnds c x F (dataOf w.2.bytes F.blocks) offset buf)
      (csc452Write u path buf offset) k w := by
  have hnoNul := sscanf_noNul path.noNul
  generalize hp : sscanf path.bytes = p at *
  have hother' : c.other ≠ .file x.dname F.key := hmine ▸ hother
  have hrefused : ∀ {k w₁ e}, c.R w w₁ → 0 < e →
      (toInt F.fsize = -1 ∨ buf ≠ [] ∧ toSize (toInt F.fsize) < offset) →
      c.Runs (WriteEnds c x F (dataOf w.2.bytes F.blocks) offset buf) (pure (-e)) k w₁ :=
    fun hR he hwhy => .pure fun w₂ hR₂ => .refused (by omega) (hstart.stable (hR.trans hR₂)) hwhy
  obtain ⟨D, hi, hDname, hblock, hj⟩ := id hx
  have hn : 0 ∉ D.dname := hDname ▸ hname ▸ hnoNul.directory
  have hmine' : c.mine = .file D.dname F.key := by rw [hmine, hDname]
  rw [csc452Write]
  simp only [hp, hcount]
  rw [if_neg (by decide), pure_bind, if_neg (by simp), if_neg (by simp), ← hname, ← hDname]
  refine fileExist_bind hw hi hn hnoNul.filename hnoNul.extension hj hkey hmine'
    fun w₁ k₁ hR₁ hw₁ => ?_
  split
  · next hinvisible => exact hrefused hR₁ (by decide) (.inl (toSize_toInt_eq.mp hinvisible))
  next hvisible =>
  split
  · next hbuf =>
    exact .pure fun w₂ hR₂ => .empty rfl (List.length_eq_zero_iff.mp hbuf)
      (fun h => hvisible (toSize_toInt_eq.mpr h)) (hstart.stable (hR₁.trans hR₂))
  next hbuf =>
  have hbuf' : buf ≠ [] := fun h => hbuf (by rw [h]; rfl)
  have hvisible' : toInt F.fsize ≠ -1 := fun h => hvisible (toSize_toInt_eq.mpr h)
  obtain ⟨D₁, hi₁, hkeeps₁⟩ := hR₁.spares.dirs x.dir D hi
  rw [← hkeeps₁.dname]
  refine getDir_bind hw₁ hi₁ (hkeeps₁.dname ▸ hn)
    fun w₂ entry k₂ D₂ hR₂ hw₂ hi₂ hkeeps₂ hagree₂ hsaw₂ => ?_
  rw [hkeeps₁.block, hblock] at hagree₂ hsaw₂
  have hkeeps₂' := hkeeps₁.trans hkeeps₂
  have hR₂' := hR₁.trans hR₂
  have hD₂ := List.mem_of_getElem? hi₂
  have hdir₂ : DirBlock entry D₂.files :=
    (hw₂.layout.dir D₂ hD₂).congr (by rwa [hkeeps₂'.block, hblock])
  have hj₂ := (hkeeps₂'.file x.file F hj hmine').1
  obtain ⟨hx₂, hblocks₂⟩ := hx.spares (hmine ▸ hR₂'.spares)
  have hslot := hdir₂.slot x.file F hj₂
  rw [findFile_eq hdir₂ hnoNul.filename hnoNul.extension (hw₂.layout.files_nodup D₂ hD₂) hj₂ hkey]
  simp only [Option.getD_some]
  split
  · next hbehind => exact hrefused hR₂' (by decide) (.inr ⟨hbuf', hbehind⟩)
  next hnot =>
  have hinside := not_lt.mp hnot
  have hoffset := hoffset hinside
  -- the first block of the file
  obtain ⟨a, post, hblocks, hcur, ha⟩ := hx₂.first_block hw₂.layout hslot
  have hsizeAt : sizeAt entry (fsizeOffset x.file) = F.fsize := hslot.fsize
  rw [hcur, fseek_natCast, hsizeAt]
  refine freadStruct_bind hw₂ ha fun w₃ s k₃ hR₃ hw₃ hs₃ _ hkeep₃ => ?_
  have hR₃' := hR₂'.trans hR₃
  obtain ⟨hx₃, hblocks₃⟩ := hx.spares (hmine ▸ hR₃'.spares)
  -- reading it does not touch the block of the directory
  have hne : a ≠ D.block := hw.layout.block_ne (List.mem_of_getElem? hi) (List.mem_of_getElem? hj)
    (by simp [hblocks])
  have hadvd := (hw.layout.blockAddress
    (List.mem_append_left _ (hx.owned (b := a) (by simp [hblocks])))).1.dvd
  have hDdvd := (hw.layout.blockAddress
    (List.mem_append_left _ (Layout.block_mem (List.mem_of_getElem? hi)))).1.dvd
  rw [hblock] at hne hDdvd
  exact writeSized_runs hw₃ (hstart.stable hR₃') hx₃ hblocks hs₃ (dataOf_congr hblocks₃)
    (hkeep₃ _ _ _ hsaw₂ (block_disjoint hDdvd hadvd hne.symm)) hagree₂ hbuf' hvisible' hinside
    hoffset hmine hother hframe

variable (c k path u buf) in
/-- **`write` next to others**, to a file that is there, at an offset that lies in
its blocks or right behind them. -/
theorem csc452Write_runs (hw : World c.m c.v₀ w) (hstart : Ended c.t [] w)
    (hcount : (sscanf path.bytes).count = 3) (hx : x.Holds F w.1.fs)
    (hname : x.dname = (sscanf path.bytes).directory)
    (hkey : F.key = (sscanf path.bytes).key)
    (hoffset : offset ≤ toSize (toInt F.fsize) → offset ≤ dataSize * F.blocks.length)
    (hmine : c.mine = .file x.dname F.key) (hother : c.other ≠ c.mine)
    (hframe : ∀ w w', Writing c.m c.t x F.key (x.block + fsizeOffset x.file) w w' →
      c.frame.rel w w') :
    c.Runs (WriteEnds c x F (dataOf w.2.bytes F.blocks) offset buf)
      (csc452Write u path buf offset) k w :=
  csc452Write_runs_frame c k path u buf hw hstart hcount hx hname hkey hoffset hmine hother
    fun _ _ _ _ hwriting => hframe _ _ hwriting

end request

end Csc452.Fuse
