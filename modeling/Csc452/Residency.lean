import Csc452.Replacement
import Csc452.DemandPaging

/-!
# What the four loops have in common

`Lawful` lists what the loop needs of an algorithm: a relation `Link` between
its own data and the page table that the three branches keep, and a choice of
victim that succeeds in a full memory and picks a resident page. From that, one
lemma about the loop body (`Lawful.body`) says everything a turn can do, and
one induction (`Lawful.loop`) carries it through a trace. The four algorithms
are then four proofs of `Lawful`.

`Link` may look at the references still to come. Three algorithms have no use
for that; `opt` relates its occurrence sets to them.
-/

namespace Csc452.Vmsim

variable {R : Type}

/-- The two tables differ in reference bits of resident pages only. -/
structure PageTable.SameButRef (pt pt' : PageTable) : Prop where
  /-- every other field is the same -/
  fields : ∀ p, pt' p = { pt p with ref := (pt' p).ref }
  /-- entries that are not resident are the same -/
  clean : ∀ p, (pt p).valid = false → pt' p = pt p

namespace PageTable.SameButRef

variable {pt pt' pt'' : PageTable}

theorem refl (pt : PageTable) : pt.SameButRef pt := ⟨fun _ => rfl, fun _ _ => rfl⟩

theorem valid (h : pt.SameButRef pt') (p : Page) : (pt' p).valid = (pt p).valid := by
  rw [h.fields p]

theorem frame (h : pt.SameButRef pt') (p : Page) : (pt' p).frame = (pt p).frame := by
  rw [h.fields p]

theorem dirty (h : pt.SameButRef pt') (p : Page) : (pt' p).dirty = (pt p).dirty := by
  rw [h.fields p]

theorem trans (h : pt.SameButRef pt') (h' : pt'.SameButRef pt'') : pt.SameButRef pt'' where
  fields p := by rw [h'.fields p, h.fields p]
  clean p hp := by rw [h'.clean p (by rw [h.valid, hp]), h.clean p hp]

theorem wellFormed {k : ℕ} (h : pt.SameButRef pt') (hwf : pt.WellFormed k) : pt'.WellFormed k :=
  hwf.congr h.valid h.frame h.clean

/-- Assigning the reference bit of a resident page. -/
theorem update {v : Page} (hv : (pt v).valid = true) (b : Bool) :
    pt.SameButRef (Function.update pt v { pt v with ref := b }) where
  fields p := by
    by_cases hp : p = v
    · subst hp
      simp
    · simp [hp]
  clean p hp := by
    have hpv : p ≠ v := fun heq => by rw [heq, hv] at hp; cases hp
    simp [hpv]

end PageTable.SameButRef

/-! ## The interface -/

/-- What the loop needs of an algorithm. `Link σ d pt k` relates its data `d` to
a page table with `k` frames in use while the references `σ` are still to come;
`ok` restricts the victims as in `DemandPaging.Serves`. -/
structure Lawful (alg : Algorithm R) (numFrames : ℕ)
    (ok : List Page → Finset Page → Page → Prop)
    (Link : List Reference → R → PageTable → ℕ → Prop) : Prop where
  /-- a hit touches the reference bit alone -/
  hit_ref : ∀ entry, alg.hit entry = { entry with ref := (alg.hit entry).ref }
  /-- the relation sees residency and frames alone -/
  congr : ∀ {σ d pt pt' k}, Link σ d pt k → (∀ p, (pt' p).valid = (pt p).valid) →
    (∀ p, (pt' p).frame = (pt p).frame) → Link σ d pt' k
  /-- a hit keeps the relation -/
  hit : ∀ {r σ d pt k}, Link (r :: σ) d pt k → (pt r.tableIndex).valid = true →
    Link σ (alg.tick d) pt k
  /-- a fault in a memory that is not full succeeds and keeps the relation -/
  fill : ∀ {r σ d pt k}, Link (r :: σ) d pt k → pt.WellFormed k →
    (pt r.tableIndex).valid = false → k < numFrames →
      ∃ d', alg.fill r.tableIndex k d = some d' ∧
        Link σ (alg.tick d') (pt.load r.tableIndex k) (k + 1)
  /-- a fault in a full memory succeeds, evicts a resident page and keeps the
  relation -/
  evict : ∀ {r σ d pt}, Link (r :: σ) d pt numFrames → pt.WellFormed numFrames →
    (pt r.tableIndex).valid = false →
      ∃ v pt' d' d'', alg.choose pt d = some (v, pt', d') ∧ (pt v).valid = true ∧
        pt.SameButRef pt' ∧ alg.replace r.tableIndex (pt v).frame d' = some d'' ∧
        Link σ (alg.tick d'') (pt.swap r.tableIndex v) numFrames ∧
        ok (σ.map Reference.tableIndex) pt.resident v

/-- The invariant of the loop, with the references `σ` still to come. -/
structure Sound (numFrames : ℕ) (Link : List Reference → R → PageTable → ℕ → Prop)
    (σ : List Reference) (s : State R) : Prop where
  /-- the table is well formed -/
  table : s.pageTable.WellFormed s.pageSoFar
  /-- no more frames in use than there are -/
  bound : s.pageSoFar ≤ numFrames
  /-- the data of the algorithm agree with the table -/
  link : Link σ s.store s.pageTable s.pageSoFar

/-- What one turn of the loop does to residency and to the counters. -/
inductive Outcome (numFrames : ℕ) (s : State R) (t : Page) (s' : State R) : Event → Prop where
  /-- the page was resident -/
  | hit : (s.pageTable t).valid = true → s'.pageTable.resident = s.pageTable.resident →
      s'.pageSoFar = s.pageSoFar → s'.pageFault = s.pageFault →
      s'.writeToDisk = s.writeToDisk → Outcome numFrames s t s' .hit
  /-- the page was loaded into a free frame -/
  | noEviction : (s.pageTable t).valid = false → s.pageSoFar < numFrames →
      s'.pageTable.resident = insert t s.pageTable.resident →
      s'.pageSoFar = s.pageSoFar + 1 → s'.pageFault = s.pageFault + 1 →
      s'.writeToDisk = s.writeToDisk → Outcome numFrames s t s' .noEviction
  /-- the page was loaded into the frame of `v` -/
  | evict {v : Page} : (s.pageTable t).valid = false → s.pageSoFar = numFrames →
      (s.pageTable v).valid = true →
      s'.pageTable.resident = insert t (s.pageTable.resident.erase v) →
      s'.pageSoFar = s.pageSoFar → s'.pageFault = s.pageFault + 1 →
      s'.writeToDisk = s.writeToDisk + (s.pageTable v).dirty.toNat →
      Outcome numFrames s t s' (.evict v (s.pageTable v).dirty)

/-- The dirty bits after a turn: the page referenced gains what the operation
writes, every other resident page keeps its bit. -/
def DirtyBits (s : State R) (r : Reference) (s' : State R) : Prop :=
  ∀ p, (s'.pageTable p).valid = true →
    (s'.pageTable p).dirty =
      ((s.pageTable p).dirty || (decide (p = r.tableIndex) && r.operation.writes))

/-! ## processOperation -/

@[simp] theorem processOperation_store (s : State R) (t : Page) (o : Operation) :
    (processOperation s t o).store = s.store := by
  cases o <;> rfl

@[simp] theorem processOperation_pageSoFar (s : State R) (t : Page) (o : Operation) :
    (processOperation s t o).pageSoFar = s.pageSoFar := by
  cases o <;> rfl

@[simp] theorem processOperation_pageFault (s : State R) (t : Page) (o : Operation) :
    (processOperation s t o).pageFault = s.pageFault := by
  cases o <;> rfl

@[simp] theorem processOperation_writeToDisk (s : State R) (t : Page) (o : Operation) :
    (processOperation s t o).writeToDisk = s.writeToDisk := by
  cases o <;> rfl

/-- `processOperation` sets the dirty bit of its page when the operation writes. -/
theorem processOperation_pageTable (s : State R) (t p : Page) (o : Operation) :
    (processOperation s t o).pageTable p =
      { s.pageTable p with dirty := (s.pageTable p).dirty || (decide (p = t) && o.writes) } := by
  by_cases hp : p = t
  · subst hp
    cases o <;> simp [processOperation, Operation.writes]
  · cases o <;> simp [processOperation, Operation.writes, hp]

/-- On a page that is resident, `processOperation` keeps the invariant. -/
theorem PageTable.WellFormed.processOperation {s : State R} {t : Page} {o : Operation} {k : ℕ}
    (h : s.pageTable.WellFormed k) (ht : (s.pageTable t).valid = true) :
    (processOperation s t o).pageTable.WellFormed k := by
  refine h.congr (fun p => by rw [processOperation_pageTable])
    (fun p => by rw [processOperation_pageTable]) ?_
  intro p hp
  have hpt : p ≠ t := fun heq => by rw [heq, ht] at hp; cases hp
  rw [processOperation_pageTable]
  simp [hpt]

theorem processOperation_resident (s : State R) (t : Page) (o : Operation) :
    (processOperation s t o).pageTable.resident = s.pageTable.resident := by
  ext p
  simp [processOperation_pageTable]

/-! ## One turn of the loop -/

namespace Lawful

variable {alg : Algorithm R} {numFrames : ℕ} {ok : List Page → Finset Page → Page → Prop}
  {Link : List Reference → R → PageTable → ℕ → Prop}

/-- The branches of the loop body, before the operation is processed. The page
referenced is resident afterwards, and no dirty bit of a resident page has
changed. -/
theorem access (h : Lawful alg numFrames ok Link) {r : Reference} {σ : List Reference}
    {s : State R} (hs : Sound numFrames Link (r :: σ) s) :
    ∃ s' e, alg.access numFrames s r.tableIndex = some (s', e) ∧
      s'.pageTable.WellFormed s'.pageSoFar ∧ s'.pageSoFar ≤ numFrames ∧
      Link σ (alg.tick s'.store) s'.pageTable s'.pageSoFar ∧
      (s'.pageTable r.tableIndex).valid = true ∧
      Outcome numFrames s r.tableIndex s' e ∧
      (∀ p, (s'.pageTable p).valid = true →
        (s'.pageTable p).dirty = (s.pageTable p).dirty) ∧
      (∀ v d, e = .evict v d →
        ok (σ.map Reference.tableIndex) s.pageTable.resident v) := by
  generalize ht : r.tableIndex = t
  have hlink := hs.link
  by_cases hvalid : (s.pageTable t).valid = true
  · -- hit
    have href := PageTable.SameButRef.update hvalid (alg.hit (s.pageTable t)).ref
    rw [← h.hit_ref] at href
    refine ⟨_, _, if_pos hvalid, href.wellFormed hs.table, hs.bound, ?_, ?_,
      .hit hvalid ?_ rfl rfl rfl, fun p _ => href.dirty p, fun v d he => nomatch he⟩
    · exact h.congr (h.hit hlink (ht ▸ hvalid)) href.valid href.frame
    · rw [href.valid, hvalid]
    · ext p
      simp [href.valid]
  have hnot : (s.pageTable t).valid = false := by simpa using hvalid
  rcases Nat.lt_or_ge s.pageSoFar numFrames with hlt | hge
  · -- a free frame
    obtain ⟨d, hfill, hlink'⟩ := h.fill hlink hs.table (ht ▸ hnot) hlt
    rw [ht] at hfill hlink'
    refine ⟨{ s with
        pageTable := s.pageTable.load t s.pageSoFar, store := d,
        pageSoFar := s.pageSoFar + 1, pageFault := s.pageFault + 1 }, .noEviction,
      by simp [Algorithm.access, hnot, Nat.not_le.mpr hlt, hfill], hs.table.load hnot, hlt,
      hlink', by simp, .noEviction hnot hlt (PageTable.resident_load _ _ _) rfl rfl rfl, ?_,
      fun v d he => nomatch he⟩
    intro p _
    by_cases hp : p = t
    · subst hp
      simp
    · simp [PageTable.load_of_ne hp]
  · -- a full memory
    have hfull : s.pageSoFar = numFrames := Nat.le_antisymm hs.bound hge
    have htable := hs.table
    rw [hfull] at hlink htable
    obtain ⟨v, pt, d, d', hchoose, hv, hsame, hreplace, hlink', hok⟩ :=
      h.evict hlink htable (ht ▸ hnot)
    rw [ht] at hreplace hlink'
    have htv : t ≠ v := fun heq => by rw [heq, hv] at hnot; cases hnot
    have hnot' : (pt t).valid = false := by rw [hsame.valid, hnot]
    have hv' : (pt v).valid = true := by rw [hsame.valid, hv]
    have hframe : (pt.swap t v t).frame = (s.pageTable v).frame := by
      rw [PageTable.swap_target htv, hsame.frame]
    have hdirty : (pt.load t (pt v).frame v).dirty = (s.pageTable v).dirty := by
      rw [PageTable.load_of_ne htv.symm, hsame.dirty]
    have hres : pt.resident = s.pageTable.resident := by ext p; simp [hsame.valid]
    -- the scan's reference bits do not matter to residency and frames
    have hswap : ∀ p, (pt.swap t v p).valid = (s.pageTable.swap t v p).valid ∧
        (pt.swap t v p).frame = (s.pageTable.swap t v p).frame := by
      intro p
      by_cases hpt : p = t
      · subst hpt
        simp [PageTable.swap_target htv, hsame.frame]
      · by_cases hpv : p = v
        · subst hpv
          simp
        · simp [PageTable.swap_of_ne hpt hpv, hsame.valid, hsame.frame]
    refine ⟨{ s with
        pageTable := pt.swap t v, store := d',
        writeToDisk := s.writeToDisk + (s.pageTable v).dirty.toNat,
        pageFault := s.pageFault + 1 }, .evict v (s.pageTable v).dirty,
      ?_, ?_, hs.bound, ?_, by simp [PageTable.swap_target htv],
      .evict hnot hfull hv ?_ rfl rfl rfl, ?_, ?_⟩
    · simp [Algorithm.access, hnot, hge, hchoose, hframe, hreplace, hdirty]
    · exact (hsame.wellFormed hs.table).swap hnot' hv'
    · change Link σ (alg.tick d') (pt.swap t v) s.pageSoFar
      rw [hfull]
      exact h.congr hlink' (fun p => (hswap p).1) (fun p => (hswap p).2)
    · change (pt.swap t v).resident = _
      rw [PageTable.resident_swap htv, hres]
    · intro p hp
      change (pt.swap t v p).dirty = _
      by_cases hpt : p = t
      · subst hpt
        simp [PageTable.swap_target htv, hsame.dirty]
      · by_cases hpv : p = v
        · subst hpv
          simp [PageTableEntry.new] at hp
        · rw [PageTable.swap_of_ne hpt hpv, hsame.dirty]
    · intro v' d he
      cases he
      exact hok

/-- **One turn.** From a sound state the loop body succeeds, keeps soundness,
leaves the page referenced resident, and does one of the three things
`Outcome` lists; its victims are the ones the algorithm may choose. -/
theorem body (h : Lawful alg numFrames ok Link) {r : Reference} {σ : List Reference}
    {s : State R} (hs : Sound numFrames Link (r :: σ) s) :
    ∃ s' e, alg.body numFrames s r = some (s', e) ∧ Sound numFrames Link σ s' ∧
      (s'.pageTable r.tableIndex).valid = true ∧
      Outcome numFrames s r.tableIndex s' e ∧ DirtyBits s r s' ∧
      (∀ v d, e = .evict v d →
        ok (σ.map Reference.tableIndex) s.pageTable.resident v) := by
  obtain ⟨s₁, e, haccess, htable, hbound, hlink, hvalid, hout, hdirty, hok⟩ := h.access hs
  let s₂ := processOperation s₁ r.tableIndex r.operation
  refine ⟨{ s₂ with store := alg.tick s₂.store }, e, by simp [Algorithm.body, haccess, s₂],
    ⟨?_, ?_, ?_⟩, ?_, ?_, ?_, hok⟩
  · simpa [s₂] using htable.processOperation hvalid
  · simpa [s₂] using hbound
  · have hlink₂ : Link σ (alg.tick s₁.store) s₂.pageTable s₁.pageSoFar := h.congr hlink
      (fun p => by simp [s₂, processOperation_pageTable])
      (fun p => by simp [s₂, processOperation_pageTable])
    simpa [s₂] using hlink₂
  · simpa [s₂, processOperation_pageTable] using hvalid
  · have hres : s₂.pageTable.resident = s₁.pageTable.resident :=
      processOperation_resident _ _ _
    cases hout with
    | hit hv hr hk hf hw =>
      exact .hit hv (hres.trans hr) (by simp [s₂, hk]) (by simp [s₂, hf]) (by simp [s₂, hw])
    | noEviction hv hlt hr hk hf hw =>
      exact .noEviction hv hlt (hres.trans hr) (by simp [s₂, hk]) (by simp [s₂, hf])
        (by simp [s₂, hw])
    | evict hv hfull hvv hr hk hf hw =>
      exact .evict hv hfull hvv (hres.trans hr) (by simp [s₂, hk]) (by simp [s₂, hf])
        (by simp [s₂, hw])
  · intro p hp
    have hp₁ : (s₁.pageTable p).valid = true := by
      simpa [s₂, processOperation_pageTable] using hp
    simp [s₂, processOperation_pageTable, hdirty p hp₁]

end Lawful

/-! ## Runs -/

/-- The turns of a run from `s` to `s'`: the references served, with the event
of each, and `σ` still to come after them. -/
inductive Run (numFrames : ℕ) (ok : List Page → Finset Page → Page → Prop)
    (σ : List Reference) : State R → List Reference → List Event → State R → Prop where
  /-- no turn -/
  | nil (s : State R) : Run numFrames ok σ s [] [] s
  /-- a turn and the turns after it -/
  | cons {s s' s'' : State R} {r : Reference} {e : Event} {trace : List Reference}
      {es : List Event} :
      (s'.pageTable r.tableIndex).valid = true → Outcome numFrames s r.tableIndex s' e →
      DirtyBits s r s' →
      (∀ v d, e = .evict v d →
        ok ((trace ++ σ).map Reference.tableIndex) s.pageTable.resident v) →
      Run numFrames ok σ s' trace es s'' → Run numFrames ok σ s (r :: trace) (e :: es) s''

/-- **A whole run.** From a sound state the loop serves every reference, and
the state it ends in is sound for what is still to come. -/
theorem Lawful.loop {alg : Algorithm R} {numFrames : ℕ}
    {ok : List Page → Finset Page → Page → Prop}
    {Link : List Reference → R → PageTable → ℕ → Prop} (h : Lawful alg numFrames ok Link)
    {σ : List Reference} : ∀ {trace : List Reference} {s : State R},
      Sound numFrames Link (trace ++ σ) s →
        ∃ s' es, alg.loop numFrames s trace = some (s', es) ∧ Sound numFrames Link σ s' ∧
          Run numFrames ok σ s trace es s' := by
  intro trace
  induction trace with
  | nil =>
    intro s hs
    exact ⟨s, [], rfl, hs, .nil s⟩
  | cons r trace ih =>
    intro s hs
    obtain ⟨s', e, hbody, hs', hvalid, hout, hdirty, hok⟩ := h.body hs
    obtain ⟨s'', es, hloop, hs'', hrun⟩ := ih hs'
    exact ⟨s'', e :: es, by simp [Algorithm.loop, hbody, hloop], hs'',
      .cons hvalid hout hdirty hok hrun⟩

namespace Run

variable {numFrames : ℕ} {ok : List Page → Finset Page → Page → Prop} {σ : List Reference}
  {s s' : State R} {trace : List Reference} {es : List Event}

theorem length_eq (h : Run numFrames ok σ s trace es s') : es.length = trace.length := by
  induction h with
  | nil s => rfl
  | cons _ _ _ _ _ ih => rw [List.length_cons, List.length_cons, ih]

/-- A run of a trace to its end is a demand manager serving its pages. -/
theorem serves (h : Run numFrames ok [] s trace es s')
    (hcard : s.pageTable.resident.card = s.pageSoFar) :
    DemandPaging.Serves ok numFrames s.pageTable.resident (trace.map Reference.tableIndex)
      (s'.pageFault - s.pageFault) ∧ s.pageFault ≤ s'.pageFault := by
  induction h with
  | nil s =>
    rw [Nat.sub_self]
    exact ⟨.nil _, le_refl _⟩
  | @cons s s₁ s' r e trace es _ hout _ hok _ ih =>
    rw [List.append_nil] at hok
    cases hout with
    | hit hv hr hk hf _ =>
      obtain ⟨hserves, hle⟩ := ih (by rw [hr, hk, hcard])
      rw [hf, hr] at hserves
      exact ⟨.hit (by simpa using hv) hserves, hf ▸ hle⟩
    | noEviction hv hlt hr hk hf _ =>
      have hnot : r.tableIndex ∉ s.pageTable.resident := by simp [hv]
      obtain ⟨hserves, hle⟩ :=
        ih (by rw [hr, hk, Finset.card_insert_of_notMem hnot, hcard])
      rw [hr] at hserves
      refine ⟨?_, by omega⟩
      obtain ⟨k, hk⟩ : ∃ k, s'.pageFault - s.pageFault = k + 1 ∧ s'.pageFault - s₁.pageFault = k :=
        ⟨s'.pageFault - s₁.pageFault, by omega, rfl⟩
      rw [hk.1]
      exact .fill hnot (by omega) (hk.2 ▸ hserves)
    | @evict v hv hfull hvv hr hk hf _ =>
      have hnot : r.tableIndex ∉ s.pageTable.resident := by simp [hv]
      have hmem : v ∈ s.pageTable.resident := by simpa using hvv
      obtain ⟨hserves, hle⟩ := ih (by
        rw [hr, hk, Finset.card_insert_of_notMem fun h => hnot (Finset.mem_of_mem_erase h),
          Finset.card_erase_add_one hmem, hcard])
      rw [hr] at hserves
      refine ⟨?_, by omega⟩
      obtain ⟨k, hk⟩ : ∃ k, s'.pageFault - s.pageFault = k + 1 ∧ s'.pageFault - s₁.pageFault = k :=
        ⟨s'.pageFault - s₁.pageFault, by omega, rfl⟩
      rw [hk.1]
      exact .evict hnot (by omega) hmem (hok v _ rfl) (hk.2 ▸ hserves)

end Run

end Csc452.Vmsim
