import Csc452.Farthest

/-!
# Residency, write-back and optimality

The results about `vmsim.java`. Each is proved once for a `Lawful` algorithm, by
induction along a `Run`, and then stated for the four:

* `residency_invariant` — page table and `ram` agree after every reference, and
  the counters add up;
* `write_back_accounting` — the dirty bit is the history of the page since its
  latest load, so `writeToDisk` counts the evictions of modified pages;
* `opt_optimal` — `opt` faults no more often than the others on the same trace;
* `opt_more_frames` — nor more often with one frame more.
-/

namespace Csc452.Vmsim

open DemandPaging (anyVictim Farthest)

variable {R : Type} {alg : Algorithm R} {numFrames : ℕ}
  {ok : List Page → Finset Page → Page → Prop}
  {Link : List Reference → R → PageTable → ℕ → Prop} {σ trace : List Reference}
  {s s' : State R} {es : List Event}

/-- The state in which every run starts is sound once the algorithm's own data
are. -/
theorem Sound.init {store : R} (h : Link σ store PageTable.init 0) :
    Sound numFrames Link σ (State.init store) :=
  ⟨.init, Nat.zero_le _, h⟩

theorem fifoStart_sound : Sound numFrames (fun _ ram pt _ => Queued ram pt) trace fifoStart :=
  .init ⟨List.nodup_nil, fun p => by simp [PageTable.init, PageTableEntry.new]⟩

theorem clockStart_sound (hn : 1 ≤ numFrames) :
    Sound numFrames (fun _ c pt k => Indexed numFrames c.ram pt k ∧ c.oldestIndex < numFrames)
      trace (clockStart numFrames) :=
  .init ⟨.init numFrames, hn⟩

theorem randStart_sound (random : ℕ → ℕ) :
    Sound numFrames (fun _ g pt k => Indexed numFrames g.ram pt k) trace
      (randStart numFrames random) :=
  .init (.init numFrames)

theorem optStart_sound : Sound numFrames (OptLink numFrames) trace (optStart numFrames trace) :=
  .init (optStart_link numFrames trace)

/-! ## Residency -/

/-- The pages referenced in a trace. -/
def pagesOf (trace : List Reference) : Finset Page := (trace.map Reference.tableIndex).toFinset

/-- Does the event evict a page? -/
def Event.isEvict : Event → Bool
  | .evict _ _ => true
  | _ => false

/-- The number of evictions. -/
def evictions (es : List Event) : ℕ := es.countP Event.isEvict

/-- What holds after the references `trace` were processed with the events `es`.
`held` lists the pages in `ram`. -/
structure Residency (numFrames : ℕ) (trace : List Reference) (es : List Event)
    (s : State R) (held : List Page) : Prop where
  /-- the valid entries are counted by `pageSoFar` -/
  valid_card : s.pageTable.resident.card = s.pageSoFar
  /-- which is the number of pages seen, as far as there are frames for them -/
  pageSoFar_eq : s.pageSoFar = min numFrames (pagesOf trace).card
  /-- no page is in `ram` twice -/
  held_nodup : held.Nodup
  /-- the pages in `ram` are the valid ones -/
  mem_held : ∀ p, p ∈ held ↔ (s.pageTable p).valid = true
  /-- the frames of valid pages exist -/
  frame_range : ∀ p, (s.pageTable p).valid = true →
    0 ≤ (s.pageTable p).frame ∧ (s.pageTable p).frame < numFrames
  /-- and are pairwise distinct -/
  frame_inj : ∀ p q, (s.pageTable p).valid = true → (s.pageTable q).valid = true →
    (s.pageTable p).frame = (s.pageTable q).frame → p = q
  /-- the page just referenced is valid -/
  last_valid : ∀ r, trace.getLast? = some r → (s.pageTable r.tableIndex).valid = true
  /-- an invalid entry is clean, without a frame, and has its reference bit set -/
  clean : ∀ p, (s.pageTable p).valid = false → (s.pageTable p).dirty = false ∧
    (s.pageTable p).frame = -1 ∧ (s.pageTable p).ref = true
  /-- every fault either took a free frame or evicted a page -/
  faults : s.pageFault = evictions es + s.pageSoFar

/-- After each of the first references of the trace the run has not thrown,
`Residency` and `extra` hold, and if the next reference evicts a page, that page
is resident. -/
def KeepsResidency (alg : Algorithm R) (numFrames : ℕ) (start : State R)
    (held : State R → List Page) (extra : State R → Prop) (trace : List Reference) : Prop :=
  ∀ n ≤ trace.length, ∃ s es, alg.loop numFrames start (trace.take n) = some (s, es) ∧
    Residency numFrames (trace.take n) es s (held s) ∧ extra s ∧
    ∀ r s' v d, (trace)[n]? = some r → alg.body numFrames s r = some (s', .evict v d) →
      (s.pageTable v).valid = true

/-- Every valid page is in the slot of `ram` that its frame names. -/
def InSlots (ram : List Page) (pt : PageTable) : Prop :=
  ∀ p, (pt p).valid = true → ∃ i : ℕ, (pt p).frame = i ∧ ram[i]? = some p

namespace Run

/-- Pages seen and pages resident: the same until every frame is taken. -/
theorem seen {D : Finset Page} (h : Run numFrames ok σ s trace es s')
    (hsub : s.pageTable.resident ⊆ D)
    (heq : s.pageSoFar = numFrames ∨ s.pageTable.resident = D) :
    s'.pageTable.resident ⊆ D ∪ pagesOf trace ∧
      (s'.pageSoFar = numFrames ∨ s'.pageTable.resident = D ∪ pagesOf trace) := by
  induction h generalizing D with
  | nil s =>
    rw [pagesOf, List.map_nil, List.toFinset_nil, Finset.union_empty]
    exact ⟨hsub, heq⟩
  | @cons s s₁ s' r e trace es _ hout _ _ _ ih =>
    have hunion : D ∪ pagesOf (r :: trace) = insert r.tableIndex D ∪ pagesOf trace := by
      simp [pagesOf]
    rw [hunion]
    cases hout with
    | hit hv hr hk _ _ =>
      have hmem : r.tableIndex ∈ D := hsub (by simpa using hv)
      rw [Finset.insert_eq_of_mem hmem]
      exact ih (by rw [hr]; exact hsub) (by rw [hr, hk]; exact heq)
    | noEviction _ hlt hr _ _ _ =>
      have hD : s.pageTable.resident = D := heq.resolve_left (by omega)
      rw [hD] at hr
      exact ih (by rw [hr]) (Or.inr hr)
    | evict _ hfull _ hr hk _ _ =>
      refine ih ?_ (Or.inl (hk.trans hfull))
      rw [hr]
      exact Finset.insert_subset_insert _ ((Finset.erase_subset _ _).trans hsub)

/-- Every fault takes a free frame or evicts a page. -/
theorem faults (h : Run numFrames ok σ s trace es s') :
    s'.pageFault + s.pageSoFar = s.pageFault + evictions es + s'.pageSoFar := by
  induction h with
  | nil s => simp [evictions]
  | cons _ hout _ _ _ ih =>
    cases hout with
    | hit _ _ hk hf _ =>
      simp only [evictions, List.countP_cons, Event.isEvict] at ih ⊢
      simp
      omega
    | noEviction _ _ _ hk hf _ =>
      simp only [evictions, List.countP_cons, Event.isEvict] at ih ⊢
      simp
      omega
    | evict _ _ _ _ hk hf _ =>
      simp only [evictions, List.countP_cons, Event.isEvict] at ih ⊢
      simp
      omega

/-- The page referenced last is resident. -/
theorem last_valid (h : Run numFrames ok σ s trace es s') {r : Reference}
    (hlast : trace.getLast? = some r) : (s'.pageTable r.tableIndex).valid = true := by
  induction h with
  | nil s => cases hlast
  | cons hvalid _ _ _ hrun ih =>
    cases hrun with
    | nil =>
      obtain rfl := Option.some.inj hlast
      exact hvalid
    | cons _ _ _ _ _ => exact ih (by rwa [List.getLast?_cons_cons] at hlast)

end Run

/-- A lawful algorithm keeps residency, whatever its data are. -/
theorem Lawful.keepsResidency (h : Lawful alg numFrames ok Link) {store : R}
    {held : State R → List Page} {extra : State R → Prop}
    (hstart : Sound numFrames Link trace (State.init store))
    (hheld : ∀ σ s, Sound numFrames Link σ s →
      (held s).Nodup ∧ (∀ p, p ∈ held s ↔ (s.pageTable p).valid = true) ∧ extra s) :
    KeepsResidency alg numFrames (State.init store) held extra trace := by
  intro n hn
  rw [← List.take_append_drop n trace] at hstart
  obtain ⟨s, es, hloop, hs, hrun⟩ := h.loop hstart
  obtain ⟨hnodup, hmem, hextra⟩ := hheld _ s hs
  refine ⟨s, es, hloop, ?_, hextra, ?_⟩
  · have hres : (State.init store).pageTable.resident = ∅ := PageTable.resident_init
    obtain ⟨hsub, heq⟩ := hrun.seen (D := ∅) (by rw [hres]) (Or.inr hres)
    rw [Finset.empty_union] at hsub heq
    have hle := Finset.card_le_card hsub
    have hfaults := hrun.faults
    refine ⟨hs.table.card, ?_, hnodup, hmem, ?_, hs.table.frame_inj, fun r => hrun.last_valid,
      ?_, ?_⟩
    · rw [hs.table.card] at hle
      rcases heq with hfull | heq
      · omega
      · have hcard := hs.table.card
        have := hs.bound
        rw [heq] at hcard
        omega
    · intro p hp
      have hrange := hs.table.frame_range p hp
      have := hs.bound
      omega
    · intro p hp
      rw [hs.table.clean p hp]
      exact ⟨rfl, rfl, rfl⟩
    · simpa [State.init] using hfaults
  · intro r s' v d hget hbody
    obtain ⟨hlt, hget⟩ := List.getElem?_eq_some_iff.mp hget
    rw [List.drop_eq_getElem_cons hlt, hget] at hs
    obtain ⟨s'', e, hbody', -, -, hout, -, -⟩ := h.body hs
    obtain ⟨rfl, rfl⟩ : s' = s'' ∧ Event.evict v d = e := by
      simpa using hbody.symm.trans hbody'
    cases hout with
    | evict _ _ hv _ _ _ _ => exact hv

/-- The array of frames, as `Residency` wants it. -/
theorem Indexed.held {ram : List Page} {pt : PageTable} {k : ℕ}
    (h : Indexed numFrames ram pt k) :
    (ram.take k).Nodup ∧ (∀ p, p ∈ ram.take k ↔ (pt p).valid = true) ∧ InSlots ram pt := by
  refine ⟨h.nodup_take, fun p => h.mem_take_iff, fun p hp => ?_⟩
  obtain ⟨i, -, hf, hget⟩ := h.page p hp
  exact ⟨i, hf, hget⟩

/-- **Residency invariant of all four algorithms**, after every reference of
every trace and for every sequence of draws. `fifo` holds its pages in the
queue; the others hold them in the first `pageSoFar` slots of `ram`, where the
frame of a page is its slot. -/
theorem residency_invariant (numFrames : ℕ) (hn : 1 ≤ numFrames) (trace : List Reference)
    (random : ℕ → ℕ) :
    KeepsResidency fifo numFrames fifoStart (fun s => s.store) (fun _ => True) trace ∧
    KeepsResidency opt numFrames (optStart numFrames trace)
      (fun s => s.store.ram.take s.pageSoFar) (fun s => InSlots s.store.ram s.pageTable) trace ∧
    KeepsResidency clock numFrames (clockStart numFrames)
      (fun s => s.store.ram.take s.pageSoFar) (fun s => InSlots s.store.ram s.pageTable) trace ∧
    KeepsResidency rand numFrames (randStart numFrames random)
      (fun s => s.store.ram.take s.pageSoFar) (fun s => InSlots s.store.ram s.pageTable)
      trace := by
  refine ⟨?_, ?_, ?_, ?_⟩
  · exact (fifo_lawful hn).keepsResidency fifoStart_sound
      fun _ _ hs => ⟨hs.link.nodup, hs.link.mem_iff, trivial⟩
  · exact (opt_lawful hn).keepsResidency optStart_sound fun _ _ hs => hs.link.indexed.held
  · exact clock_lawful.keepsResidency (clockStart_sound hn) fun _ _ hs => hs.link.1.held
  · exact (rand_lawful hn).keepsResidency (randStart_sound random) fun _ _ hs => hs.link.held

/-- Three loads through one frame. -/
theorem residency_invariant_one_frame :
    KeepsResidency fifo 1 fifoStart (fun s => s.store) (fun _ => True)
      [⟨.L, 0⟩, ⟨.S, 2048⟩, ⟨.L, 0⟩] :=
  (residency_invariant 1 (by decide) [⟨.L, 0⟩, ⟨.S, 2048⟩, ⟨.L, 0⟩] fun _ => 0).1

/-! ## Write-back -/

/-- Has `p` been the target of a store or a modify since it was loaded most
recently? The history is most recent first; an event on `p` that is not a hit is
its load. -/
def modifiedSinceLoad (p : Page) : List (Reference × Event) → Bool
  | [] => false
  | (r, e) :: past =>
    if r.tableIndex = p then
      r.operation.writes || (decide (e = .hit) && modifiedSinceLoad p past)
    else modifiedSinceLoad p past

/-- The evictions of pages that were modified since they were loaded. -/
def modifiedEvictions : List (Reference × Event) → ℕ
  | [] => 0
  | (_, .evict v _) :: past => (modifiedSinceLoad v past).toNat + modifiedEvictions past
  | _ :: past => modifiedEvictions past

/-- After each of the first references of the trace, `writeToDisk` has counted
the evictions of modified pages, and the dirty bit of a resident page says
whether it was modified since its latest load. -/
def KeepsAccounts (alg : Algorithm R) (numFrames : ℕ) (start : State R)
    (trace : List Reference) : Prop :=
  ∀ n ≤ trace.length, ∃ s es, alg.loop numFrames start (trace.take n) = some (s, es) ∧
    es.length = (trace.take n).length ∧
    s.writeToDisk = modifiedEvictions ((trace.take n).zip es).reverse ∧
    ∀ p, (s.pageTable p).valid = true →
      (s.pageTable p).dirty = modifiedSinceLoad p ((trace.take n).zip es).reverse

/-- What the history says about the dirty bits and about `writeToDisk`. -/
structure Accounts (s : State R) (past : List (Reference × Event)) : Prop where
  /-- `writeToDisk` counts the evictions of modified pages -/
  written : s.writeToDisk = modifiedEvictions past
  /-- a resident page is dirty when it was modified since its load -/
  dirty : ∀ p, (s.pageTable p).valid = true →
    (s.pageTable p).dirty = modifiedSinceLoad p past
  /-- a page that is not resident is not dirty, so that a load starts afresh -/
  clean : ∀ p, (s.pageTable p).valid = false → (s.pageTable p).dirty = false

/-- A turn extends the history. -/
theorem Accounts.turn {past : List (Reference × Event)} {r : Reference} {e : Event}
    (h : Accounts s past)
    (hout : Outcome numFrames s r.tableIndex s' e) (hdirty : DirtyBits s r s')
    (hclean : ∀ p, (s'.pageTable p).valid = false → (s'.pageTable p).dirty = false) :
    Accounts s' ((r, e) :: past) := by
  refine ⟨?_, ?_, hclean⟩
  · cases hout with
    | hit _ _ _ _ hw => rw [hw, modifiedEvictions, h.written]; simp
    | noEviction _ _ _ _ _ hw => rw [hw, modifiedEvictions, h.written]; simp
    | evict _ _ hv _ _ _ hw => rw [hw, modifiedEvictions, h.written, h.dirty _ hv, Nat.add_comm]
  · intro p hp
    rw [hdirty p hp, modifiedSinceLoad]
    by_cases hpt : p = r.tableIndex
    · subst hpt
      rw [if_pos rfl]
      cases hout with
      | hit hv _ _ _ _ => simp [h.dirty _ hv, Bool.or_comm]
      | noEviction hv _ _ _ _ _ => simp [h.clean _ hv]
      | evict hv _ _ _ _ _ _ => simp [h.clean _ hv]
    · -- another page that is resident now was resident before
      have hold : (s.pageTable p).valid = true := by
        have hmem : p ∈ s'.pageTable.resident := PageTable.mem_resident.mpr hp
        cases hout with
        | hit _ hr _ _ _ =>
          rw [hr] at hmem
          exact PageTable.mem_resident.mp hmem
        | noEviction _ _ hr _ _ _ =>
          rw [hr, Finset.mem_insert] at hmem
          exact PageTable.mem_resident.mp (hmem.resolve_left hpt)
        | evict _ _ _ hr _ _ _ =>
          rw [hr, Finset.mem_insert] at hmem
          exact PageTable.mem_resident.mp (Finset.mem_of_mem_erase (hmem.resolve_left hpt))
      rw [if_neg (Ne.symm hpt), h.dirty p hold]
      simp [hpt]

/-- The accounts along the loop, started with the history `past`. -/
theorem Lawful.accounts (h : Lawful alg numFrames ok Link) :
    ∀ {trace : List Reference} {s : State R} {past : List (Reference × Event)},
      Sound numFrames Link (trace ++ σ) s → Accounts s past →
        ∃ s' es, alg.loop numFrames s trace = some (s', es) ∧ es.length = trace.length ∧
          Accounts s' ((trace.zip es).reverse ++ past) := by
  intro trace
  induction trace with
  | nil => exact fun _ hacc => ⟨_, [], rfl, rfl, hacc⟩
  | cons r trace ih =>
    intro s past hs hacc
    obtain ⟨s₁, e, hbody, hs₁, -, hout, hdirty, -⟩ := h.body hs
    have hclean : ∀ p, (s₁.pageTable p).valid = false → (s₁.pageTable p).dirty = false :=
      fun p hp => by rw [hs₁.table.clean p hp]; rfl
    obtain ⟨s', es, hloop, hlen, hacc'⟩ := ih hs₁ (hacc.turn hout hdirty hclean)
    exact ⟨s', e :: es, by simp [Algorithm.loop, hbody, hloop], by simp [hlen], by simpa using hacc'⟩

/-- A lawful algorithm keeps the accounts. -/
theorem Lawful.keepsAccounts (h : Lawful alg numFrames ok Link) {store : R}
    (hstart : Sound numFrames Link trace (State.init store)) :
    KeepsAccounts alg numFrames (State.init store) trace := by
  intro n hn
  rw [← List.take_append_drop n trace] at hstart
  have hacc : Accounts (State.init store) [] :=
    ⟨rfl, fun p hp => by simp [State.init, PageTable.init, PageTableEntry.new] at hp, fun p _ => rfl⟩
  obtain ⟨s, es, hloop, hlen, hacc'⟩ := h.accounts hstart hacc
  rw [List.append_nil] at hacc'
  exact ⟨s, es, hloop, hlen, hacc'.written, hacc'.dirty⟩

/-- **Write-back accounting**: at every point of every run of the four
algorithms, for every sequence of draws, a resident page is dirty exactly when
it was stored to or modified since its latest load, and `writeToDisk` is the
number of evictions of such pages. -/
theorem write_back_accounting (numFrames : ℕ) (hn : 1 ≤ numFrames) (trace : List Reference)
    (random : ℕ → ℕ) :
    KeepsAccounts fifo numFrames fifoStart trace ∧
    KeepsAccounts opt numFrames (optStart numFrames trace) trace ∧
    KeepsAccounts clock numFrames (clockStart numFrames) trace ∧
    KeepsAccounts rand numFrames (randStart numFrames random) trace :=
  ⟨(fifo_lawful hn).keepsAccounts fifoStart_sound, (opt_lawful hn).keepsAccounts optStart_sound,
    clock_lawful.keepsAccounts (clockStart_sound hn),
    (rand_lawful hn).keepsAccounts (randStart_sound random)⟩

/-- A page stored to and one only loaded, through one frame. -/
theorem write_back_accounting_one_frame :
    KeepsAccounts clock 1 (clockStart 1) [⟨.S, 0⟩, ⟨.L, 2048⟩, ⟨.L, 0⟩] :=
  (write_back_accounting 1 (by decide) [⟨.S, 0⟩, ⟨.L, 2048⟩, ⟨.L, 0⟩] fun _ => 0).2.2.1

/-! ## Optimality -/

/-- A run from the start is a demand manager serving the pages of the trace from
an empty memory, with `pageFault` faults. -/
theorem Lawful.serves (h : Lawful alg numFrames ok Link) (trace : List Reference) {store : R}
    (hstart : Sound numFrames Link trace (State.init store)) :
    ∃ s es, alg.loop numFrames (State.init store) trace = some (s, es) ∧
      DemandPaging.Serves ok numFrames ∅ (trace.map Reference.tableIndex) s.pageFault := by
  rw [← List.append_nil trace] at hstart
  obtain ⟨s, es, hloop, -, hrun⟩ := h.loop hstart
  have hres : (State.init store).pageTable.resident = ∅ := PageTable.resident_init
  have hserves := (hrun.serves (by rw [hres]; rfl)).1
  rw [hres] at hserves
  exact ⟨s, es, hloop, hserves⟩

/-- **Optimality of `opt`**: on every trace, with every number of frames and
whatever `rand` draws, `opt` has at most as many page faults as `fifo`, `clock`
and `rand`. -/
theorem opt_optimal (numFrames : ℕ) (hn : 1 ≤ numFrames) (trace : List Reference)
    (random : ℕ → ℕ) :
    ∃ sOpt sFifo sClock sRand eOpt eFifo eClock eRand,
      opt.loop numFrames (optStart numFrames trace) trace = some (sOpt, eOpt) ∧
      fifo.loop numFrames fifoStart trace = some (sFifo, eFifo) ∧
      clock.loop numFrames (clockStart numFrames) trace = some (sClock, eClock) ∧
      rand.loop numFrames (randStart numFrames random) trace = some (sRand, eRand) ∧
      sOpt.pageFault ≤ sFifo.pageFault ∧ sOpt.pageFault ≤ sClock.pageFault ∧
      sOpt.pageFault ≤ sRand.pageFault := by
  obtain ⟨sOpt, eOpt, hopt, hserves⟩ := (opt_lawful hn).serves trace optStart_sound
  obtain ⟨sFifo, eFifo, hfifo, hf⟩ := (fifo_lawful hn).serves trace fifoStart_sound
  obtain ⟨sClock, eClock, hclock, hc⟩ := clock_lawful.serves trace (clockStart_sound hn)
  obtain ⟨sRand, eRand, hrand, hr⟩ := (rand_lawful hn).serves trace (randStart_sound random)
  exact ⟨sOpt, sFifo, sClock, sRand, eOpt, eFifo, eClock, eRand, hopt, hfifo, hclock, hrand,
    hserves.farthest_le hf, hserves.farthest_le hc, hserves.farthest_le hr⟩

/-- Two frames and a trace on which the algorithms part. -/
theorem opt_optimal_two_frames :
    ∃ sOpt sFifo eOpt eFifo,
      opt.loop 2 (optStart 2 [⟨.L, 0⟩, ⟨.L, 2048⟩, ⟨.L, 4096⟩, ⟨.L, 0⟩])
        [⟨.L, 0⟩, ⟨.L, 2048⟩, ⟨.L, 4096⟩, ⟨.L, 0⟩] = some (sOpt, eOpt) ∧
      fifo.loop 2 fifoStart [⟨.L, 0⟩, ⟨.L, 2048⟩, ⟨.L, 4096⟩, ⟨.L, 0⟩] = some (sFifo, eFifo) ∧
      sOpt.pageFault ≤ sFifo.pageFault := by
  obtain ⟨sOpt, sFifo, _, _, eOpt, eFifo, _, _, hopt, hfifo, _, _, hle, _⟩ :=
    opt_optimal 2 (by decide) [⟨.L, 0⟩, ⟨.L, 2048⟩, ⟨.L, 4096⟩, ⟨.L, 0⟩] fun _ => 0
  exact ⟨sOpt, sFifo, eOpt, eFifo, hopt, hfifo, hle⟩

/-- **More frames never hurt `opt`**: on every trace, with a frame more it has at most as many
page faults. For with more frames the same references can be served by holding what `opt`
holds with fewer (`Serves.more_frames`), and `opt` is no worse than that. -/
theorem opt_more_frames (numFrames : ℕ) (hn : 1 ≤ numFrames) (trace : List Reference) :
    ∃ s s' es es', opt.loop numFrames (optStart numFrames trace) trace = some (s, es) ∧
      opt.loop (numFrames + 1) (optStart (numFrames + 1) trace) trace = some (s', es') ∧
      s'.pageFault ≤ s.pageFault := by
  obtain ⟨s, es, hopt, hserves⟩ := (opt_lawful hn).serves trace optStart_sound
  obtain ⟨s', es', hopt', hserves'⟩ := (opt_lawful (Nat.succ_pos numFrames)).serves trace
    optStart_sound
  obtain ⟨k, hk, hmore⟩ := hserves.more_frames (Nat.le_succ numFrames) (Nat.zero_le _)
    (subset_refl _) (Nat.zero_le _)
  exact ⟨s, s', es, es', hopt, hopt', (hserves'.farthest_le hmore).trans hk⟩

/-- One frame and two. -/
theorem opt_more_frames_two :
    ∃ s s' es es', opt.loop 1 (optStart 1 [⟨.L, 0⟩, ⟨.L, 2048⟩, ⟨.L, 0⟩])
        [⟨.L, 0⟩, ⟨.L, 2048⟩, ⟨.L, 0⟩] = some (s, es) ∧
      opt.loop 2 (optStart 2 [⟨.L, 0⟩, ⟨.L, 2048⟩, ⟨.L, 0⟩])
        [⟨.L, 0⟩, ⟨.L, 2048⟩, ⟨.L, 0⟩] = some (s', es') ∧
      s'.pageFault ≤ s.pageFault :=
  opt_more_frames 1 (by decide) _

end Csc452.Vmsim
