import Mathlib.Data.Finset.Card
import Mathlib.Data.Fintype.Basic
import Mathlib.Data.Fintype.Fin
import Mathlib.Logic.Function.Basic
import Mathlib.Tactic.Tauto

/-!
# The page table of the virtual memory simulator

The data of `vmsim.java` that all four replacement algorithms share: a
single-level table with one entry for each 2 KB page of a 32-bit address space,
and the references of a trace. The Java `PageTableEntry` objects are mutable;
here the table is a function and every field assignment is an update of it, in
the order of the assignments.

The second half is about tables alone. A table is `WellFormed` for `k` when its
valid entries occupy the frames `0, …, k - 1`, one each, and every other entry
is as the constructor made it. The two ways an algorithm changes residency,
`load` and `swap`, keep that.
-/

namespace Csc452.Vmsim

/-- Page size in bytes: 2K per page. -/
def pageSize : ℕ := 2048

/-- Number of pages of a 32-bit address space. -/
def tableSize : ℕ := 2 ^ (32 - 11)

/-- An index of the page table. -/
abbrev Page : Type := Fin tableSize

/-- The first letter of a trace line: instruction fetch, modify, store, load. -/
inductive Operation : Type where
  /-- instruction fetch -/
  | I
  /-- modify: a load and a store -/
  | M
  /-- store -/
  | S
  /-- load -/
  | L
  deriving DecidableEq

/-- Does the operation leave the page different from its copy on disk? -/
def Operation.writes : Operation → Bool
  | .M => true
  | .S => true
  | _ => false

/-- One line of the trace, after parsing. -/
structure Reference : Type where
  /-- the operation, `command[0]` -/
  operation : Operation
  /-- the address, `command[1]` read as a hexadecimal number -/
  address : BitVec 32

/-- `(int) (address / PAGE_SIZE)`; a 32-bit address never leaves the table. -/
def Reference.tableIndex (r : Reference) : Page :=
  ⟨r.address.toNat / pageSize, by
    have := r.address.isLt
    unfold pageSize tableSize
    omega⟩

/-- An entry of the page table. -/
structure PageTableEntry : Type where
  /-- written to since it was loaded -/
  dirty : Bool
  /-- resident -/
  valid : Bool
  /-- reference bit of the second-chance algorithm -/
  ref : Bool
  /-- the frame holding the page, `-1` when there is none -/
  frame : ℤ
  deriving DecidableEq

/-- The constructor. -/
def PageTableEntry.new : PageTableEntry :=
  { dirty := false, valid := false, ref := true, frame := -1 }

/-- `evict()`: every field is set back. -/
def PageTableEntry.evict (entry : PageTableEntry) : PageTableEntry :=
  { entry with dirty := false, valid := false, ref := true, frame := -1 }

@[simp] theorem PageTableEntry.evict_eq_new (entry : PageTableEntry) : entry.evict = .new := rfl

/-- The page table. -/
abbrev PageTable : Type := Page → PageTableEntry

/-- `new PageTableEntry[TABLE_SIZE]`, filled by `main`. -/
def PageTable.init : PageTable := fun _ => .new

/-! ## Changing residency -/

/-- Make `t` resident in frame `f`: `entry.valid = true; entry.frame = f`. -/
def PageTable.load (pt : PageTable) (t : Page) (f : ℤ) : PageTable :=
  Function.update pt t { pt t with valid := true, frame := f }

/-- Give the frame of `v` to `t`: `entry.frame = entryEvict.frame; entry.valid =
true;` and then `entryEvict.evict()`. -/
def PageTable.swap (pt : PageTable) (t v : Page) : PageTable :=
  let pt := pt.load t (pt v).frame
  Function.update pt v (pt v).evict

/-- The resident pages. -/
def PageTable.resident (pt : PageTable) : Finset Page :=
  Finset.univ.filter fun p => (pt p).valid

@[simp] theorem PageTable.mem_resident {pt : PageTable} {p : Page} :
    p ∈ pt.resident ↔ (pt p).valid = true := by
  simp [resident]

@[simp] theorem PageTable.load_self (pt : PageTable) (t : Page) (f : ℤ) :
    pt.load t f t = { pt t with valid := true, frame := f } := by
  simp [load]

theorem PageTable.load_of_ne {pt : PageTable} {t p : Page} {f : ℤ} (h : p ≠ t) :
    pt.load t f p = pt p := by
  simp [load, h]

theorem PageTable.swap_target {pt : PageTable} {t v : Page} (h : t ≠ v) :
    pt.swap t v t = { pt t with valid := true, frame := (pt v).frame } := by
  simp [swap, h]

@[simp] theorem PageTable.swap_victim (pt : PageTable) (t v : Page) : pt.swap t v v = .new := by
  simp [swap]

theorem PageTable.swap_of_ne {pt : PageTable} {t v p : Page} (ht : p ≠ t) (hv : p ≠ v) :
    pt.swap t v p = pt p := by
  simp [swap, hv, load_of_ne ht]

theorem PageTable.resident_init : PageTable.init.resident = ∅ := by
  ext p
  simp [init, PageTableEntry.new]

theorem PageTable.resident_load (pt : PageTable) (t : Page) (f : ℤ) :
    (pt.load t f).resident = insert t pt.resident := by
  ext p
  by_cases h : p = t
  · subst h
    simp
  · simp [load_of_ne h, h]

theorem PageTable.resident_swap {pt : PageTable} {t v : Page} (h : t ≠ v) :
    (pt.swap t v).resident = insert t (pt.resident.erase v) := by
  ext p
  by_cases ht : p = t
  · subst ht
    simp [swap_target h]
  · by_cases hv : p = v
    · subst hv
      simp [ht, PageTableEntry.new]
    · simp [swap_of_ne ht hv, ht, hv]

/-! ## Well-formed tables -/

/-- The resident pages occupy the first `k` frames, one each, and an entry that
is not resident is as new. -/
structure PageTable.WellFormed (pt : PageTable) (k : ℕ) : Prop where
  /-- as many resident pages as frames in use -/
  card : pt.resident.card = k
  /-- frames of resident pages are in use -/
  frame_range : ∀ p, (pt p).valid = true → 0 ≤ (pt p).frame ∧ (pt p).frame < k
  /-- no two resident pages share a frame -/
  frame_inj : ∀ p q, (pt p).valid = true → (pt q).valid = true →
    (pt p).frame = (pt q).frame → p = q
  /-- an entry that is not resident is as the constructor made it -/
  clean : ∀ p, (pt p).valid = false → pt p = .new

namespace PageTable.WellFormed

variable {pt : PageTable} {k : ℕ}

theorem init : PageTable.init.WellFormed 0 where
  card := by rw [resident_init, Finset.card_empty]
  frame_range p h := by simp [PageTable.init, PageTableEntry.new] at h
  frame_inj p q h := by simp [PageTable.init, PageTableEntry.new] at h
  clean p _ := rfl

/-- Only the `dirty` and `ref` bits of resident pages differ. -/
theorem congr {pt' : PageTable} (h : pt.WellFormed k)
    (hvalid : ∀ p, (pt' p).valid = (pt p).valid) (hframe : ∀ p, (pt' p).frame = (pt p).frame)
    (hclean : ∀ p, (pt p).valid = false → pt' p = pt p) : pt'.WellFormed k where
  card := by
    have hres : pt'.resident = pt.resident := by ext p; simp [hvalid]
    rw [hres, h.card]
  frame_range p hp := by
    rw [hframe]
    exact h.frame_range p (hvalid p ▸ hp)
  frame_inj p q hp hq hpq := by
    rw [hframe, hframe] at hpq
    exact h.frame_inj p q (hvalid p ▸ hp) (hvalid q ▸ hq) hpq
  clean p hp := by
    rw [hvalid] at hp
    rw [hclean p hp, h.clean p hp]

/-- Loading a page into the first free frame. -/
theorem load {t : Page} (h : pt.WellFormed k) (ht : (pt t).valid = false) :
    (pt.load t k).WellFormed (k + 1) where
  card := by
    rw [resident_load, Finset.card_insert_of_notMem (by simp [ht]), h.card]
  frame_range p hp := by
    by_cases hpt : p = t
    · subst hpt
      simp
    · rw [load_of_ne hpt] at hp ⊢
      have := h.frame_range p hp
      omega
  frame_inj p q hp hq hpq := by
    -- the frame `k` is new: no page resident before has it
    have hlt : ∀ p, (pt p).valid = true → (pt p).frame ≠ k := fun p hp heq => by
      have := (h.frame_range p hp).2
      omega
    by_cases hpt : p = t <;> by_cases hqt : q = t
    · rw [hpt, hqt]
    · subst hpt
      rw [load_of_ne hqt] at hq hpq
      exact absurd (hpq.symm.trans (by simp)) (hlt q hq)
    · subst hqt
      rw [load_of_ne hpt] at hp hpq
      exact absurd (hpq.trans (by simp)) (hlt p hp)
    · rw [load_of_ne hpt] at hp hpq
      rw [load_of_ne hqt] at hq hpq
      exact h.frame_inj p q hp hq hpq
  clean p hp := by
    by_cases hpt : p = t
    · subst hpt
      simp at hp
    · rw [load_of_ne hpt] at hp ⊢
      exact h.clean p hp

/-- Giving the frame of a resident page to one that is not resident. -/
theorem swap {t v : Page} (h : pt.WellFormed k) (ht : (pt t).valid = false)
    (hv : (pt v).valid = true) : (pt.swap t v).WellFormed k := by
  have htv : t ≠ v := fun heq => by rw [heq, hv] at ht; cases ht
  -- every page resident afterwards has the frame of a page resident before
  have hold : ∀ p, (pt.swap t v p).valid = true →
      (p = t ∧ (pt.swap t v p).frame = (pt v).frame) ∨
        (p ≠ t ∧ p ≠ v ∧ (pt p).valid = true ∧ (pt.swap t v p).frame = (pt p).frame) := by
    intro p hp
    by_cases hpt : p = t
    · subst hpt
      exact Or.inl ⟨rfl, by rw [swap_target htv]⟩
    · by_cases hpv : p = v
      · subst hpv
        simp [PageTableEntry.new] at hp
      · rw [swap_of_ne hpt hpv] at hp ⊢
        exact Or.inr ⟨hpt, hpv, hp, rfl⟩
  refine ⟨?_, ?_, ?_, ?_⟩
  · rw [resident_swap htv,
      Finset.card_insert_of_notMem (by simp [ht]), Finset.card_erase_add_one (by simp [hv]), h.card]
  · intro p hp
    rcases hold p hp with ⟨-, hf⟩ | ⟨-, -, hp, hf⟩
    · rw [hf]
      exact h.frame_range v hv
    · rw [hf]
      exact h.frame_range p hp
  · intro p q hp hq hpq
    rcases hold p hp with ⟨hpt, hf⟩ | ⟨-, hpv, hp, hf⟩ <;>
      rcases hold q hq with ⟨hqt, hg⟩ | ⟨-, hqv, hq, hg⟩
    · rw [hpt, hqt]
    · exact absurd (h.frame_inj v q hv hq (by rw [← hf, ← hg, hpq])).symm hqv
    · exact absurd (h.frame_inj p v hp hv (by rw [← hf, ← hg, hpq])) hpv
    · exact h.frame_inj p q hp hq (by rw [← hf, ← hg, hpq])
  · intro p hp
    by_cases hpt : p = t
    · subst hpt
      simp [swap_target htv] at hp
    · by_cases hpv : p = v
      · subst hpv
        simp
      · rw [swap_of_ne hpt hpv] at hp ⊢
        exact h.clean p hp

end PageTable.WellFormed

end Csc452.Vmsim
