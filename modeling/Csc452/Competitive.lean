import Csc452.Phases
import Csc452.Evictions

/-!
# fifo and clock against every other algorithm

`opt` knows the references to come; `fifo` and `clock` do not, and yet they never
fault more than `numFrames` times as often. Both are conservative in the sense of
`DemandPaging.Conserves`. For `fifo` this is its queue. For `clock` the pages are
read around `ram` from the hand on: the scan moves pages from the front of that
ring to its end, and the page it evicts comes to the front with its bit clear.

`Conservative` is what the branches of the loop have to keep for this,
`fifo_conservative` and `clock_conservative` are the two proofs, and the results
compare the faults with those of `opt`, which may have fewer frames.
-/

namespace Csc452.Vmsim

open DemandPaging (Conserves Ring remember restart)

variable {R : Type} {alg : Algorithm R} {numFrames : ℕ}
  {ok : List Page → Finset Page → Page → Prop}
  {Link : List Reference → R → PageTable → ℕ → Prop}
  {Inv : (Page → Finset Page) → (Page → Bool) → R → ℕ → Prop} {σ trace : List Reference}

/-! ## Turns -/

/-- The reference bits. -/
def PageTable.refs (pt : PageTable) : Page → Bool := fun p => (pt p).ref

/-- A page that is not resident has its bit set, and keeps it when it is loaded. -/
theorem Sound.ref_of_not_valid {s : State R} {t : Page} (hs : Sound numFrames Link σ s)
    (hnot : (s.pageTable t).valid = false) : (s.pageTable t).ref = true := by
  rw [hs.table.clean t hnot]
  rfl

/-- The turn of a hit. -/
theorem Algorithm.body_of_hit (alg : Algorithm R) (numFrames : ℕ) {s : State R} {r : Reference}
    (hvalid : (s.pageTable r.tableIndex).valid = true) :
    ∃ s', alg.body numFrames s r = some (s', .hit) ∧
      s'.pageTable.refs = Function.update s.pageTable.refs r.tableIndex
        (alg.hit (s.pageTable r.tableIndex)).ref ∧
      s'.store = alg.tick s.store ∧ s'.pageSoFar = s.pageSoFar := by
  let s₁ : State R :=
    { s with
      pageTable :=
        Function.update s.pageTable r.tableIndex (alg.hit (s.pageTable r.tableIndex)) }
  have haccess : alg.access numFrames s r.tableIndex = some (s₁, .hit) := if_pos hvalid
  refine ⟨_, by rw [body, haccess]; rfl, ?_, by simp [s₁], by simp [s₁]⟩
  funext p
  have hpt := processOperation_pageTable s₁ r.tableIndex p r.operation
  by_cases hp : p = r.tableIndex
  · subst hp
    simp [PageTable.refs, hpt, s₁]
  · simp [PageTable.refs, hpt, s₁, hp]

/-- What the branches of the loop have to keep for an algorithm to be conservative.
`Inv seen refs d k` relates the data `d` of the algorithm and the reference bits,
with `k` frames in use, to what was referenced since each page was loaded. -/
structure Conservative (alg : Algorithm R) (numFrames : ℕ)
    (Link : List Reference → R → PageTable → ℕ → Prop)
    (Inv : (Page → Finset Page) → (Page → Bool) → R → ℕ → Prop) : Prop where
  /-- a hit -/
  hit : ∀ {r σ s seen}, Sound numFrames Link (r :: σ) s →
    Inv seen s.pageTable.refs s.store s.pageSoFar → (s.pageTable r.tableIndex).valid = true →
      Inv (remember seen r.tableIndex)
        (Function.update s.pageTable.refs r.tableIndex (alg.hit (s.pageTable r.tableIndex)).ref)
        (alg.tick s.store) s.pageSoFar
  /-- a fault in a memory that is not full -/
  fill : ∀ {r σ s d seen}, Sound numFrames Link (r :: σ) s →
    Inv seen s.pageTable.refs s.store s.pageSoFar → (s.pageTable r.tableIndex).valid = false →
      s.pageSoFar < numFrames → alg.fill r.tableIndex s.pageSoFar s.store = some d →
        Inv (restart seen r.tableIndex) s.pageTable.refs (alg.tick d) (s.pageSoFar + 1)
  /-- a fault in a full memory: the page evicted has seen all of it -/
  evict : ∀ {r σ s v pt d d' seen}, Sound numFrames Link (r :: σ) s →
    Inv seen s.pageTable.refs s.store s.pageSoFar → (s.pageTable r.tableIndex).valid = false →
      s.pageSoFar = numFrames → alg.choose s.pageTable s.store = some (v, pt, d) →
      s.pageTable.SameButRef pt → alg.replace r.tableIndex (pt v).frame d = some d' →
        s.pageTable.resident ⊆ seen v ∧
        Inv (restart seen r.tableIndex) (Function.update pt.refs v true) (alg.tick d')
          s.pageSoFar

/-- The bits after a swap: the page evicted has its bit set back. -/
theorem PageTable.refs_swap (pt : PageTable) {t v : Page} (h : t ≠ v) :
    (pt.swap t v).refs = Function.update pt.refs v true := by
  funext p
  by_cases hpv : p = v
  · subst hpv
    simp [refs, PageTableEntry.new]
  · by_cases hpt : p = t
    · subst hpt
      simp [refs, swap_target h, hpv]
    · simp [refs, swap_of_ne hpt hpv, hpv]

/-- One turn of a conservative algorithm, as a turn of a conservative manager. -/
theorem Conservative.turn (hcons : Conservative alg numFrames Link Inv)
    (h : Lawful alg numFrames ok Link) {r : Reference} {s : State R}
    {seen : Page → Finset Page} (hs : Sound numFrames Link (r :: σ) s)
    (hinv : Inv seen s.pageTable.refs s.store s.pageSoFar) :
    ∃ s' e seen', alg.body numFrames s r = some (s', e) ∧ Sound numFrames Link σ s' ∧
      Inv seen' s'.pageTable.refs s'.store s'.pageSoFar ∧
      ∀ {ps : List Page} {k : ℕ}, Conserves numFrames seen' s'.pageTable.resident ps k →
        Conserves numFrames seen s.pageTable.resident (r.tableIndex :: ps)
          (k + (s'.pageFault - s.pageFault)) ∧ s.pageFault ≤ s'.pageFault := by
  obtain ⟨s', e, hbody, hs', -, hout, -, -⟩ := h.body hs
  have hcard := hs.table.card
  cases hout with
  | hit hvalid hr hk hf _ =>
    obtain ⟨s₁, hbody₁, hrefs, hstore, -⟩ :=
      Algorithm.body_of_hit alg numFrames hvalid
    obtain rfl : s₁ = s' := by simpa using hbody₁.symm.trans hbody
    refine ⟨s₁, .hit, remember seen r.tableIndex, hbody, hs', ?_, fun hserves => ?_⟩
    · rw [hrefs, hstore, hk]
      exact hcons.hit hs hinv hvalid
    · rw [hr] at hserves
      rw [hf, Nat.sub_self]
      exact ⟨.hit (by simpa using hvalid) hserves, le_rfl⟩
  | noEviction hnot hlt hr _ hf _ =>
    obtain ⟨d, hfill, -⟩ := h.fill hs.link hs.table hnot hlt
    obtain ⟨s₁, hbody₁, hpt, hstore, hk, -⟩ := Algorithm.body_of_fill hnot hlt hfill
    obtain rfl : s₁ = s' := by simpa using hbody₁.symm.trans hbody
    refine ⟨s₁, .noEviction, restart seen r.tableIndex, hbody, hs', ?_, fun hserves => ?_⟩
    · have hrefs : s₁.pageTable.refs = s.pageTable.refs := by
        funext p
        by_cases hp : p = r.tableIndex
        · simp [PageTable.refs, hpt, hp]
        · simp [PageTable.refs, hpt, PageTable.load_of_ne hp]
      rw [hrefs, hstore, hk]
      exact hcons.fill hs hinv hnot hlt hfill
    · rw [hr] at hserves
      rw [hf, Nat.add_sub_cancel_left]
      exact ⟨.fill (by simp [hnot]) (hcard ▸ hlt) hserves, Nat.le_succ _⟩
  | @evict v hnot hfull hvalid hr _ hf _ =>
    have hlink := hs.link
    have htable := hs.table
    rw [hfull] at hlink htable
    obtain ⟨u, pt, d, d', hchoose, hu, hsame, hreplace, -⟩ := h.evict hlink htable hnot
    rw [← hsame.frame] at hreplace
    have htu : r.tableIndex ≠ u := fun heq => by rw [heq, hu] at hnot; cases hnot
    obtain ⟨s₁, hbody₁, hpt, hstore, hk, -⟩ :=
      Algorithm.body_of_choose hnot hfull.ge htu hchoose hreplace
    obtain ⟨rfl, rfl, -⟩ : s₁ = s' ∧ u = v ∧ _ := by simpa using hbody₁.symm.trans hbody
    obtain ⟨hseen, hinv'⟩ := hcons.evict hs hinv hnot hfull hchoose hsame hreplace
    refine ⟨s₁, _, restart seen r.tableIndex, hbody, hs', ?_, fun hserves => ?_⟩
    · have hrefs : s₁.pageTable.refs = (pt.swap r.tableIndex u).refs := by
        funext p
        simp [PageTable.refs, hpt]
      rw [hrefs, PageTable.refs_swap pt htu, hstore, hk]
      exact hinv'
    · rw [hr] at hserves
      rw [hf, Nat.add_sub_cancel_left]
      exact ⟨.evict (by simp [hnot]) (hcard.trans hfull) (by simpa using hu) hseen hserves,
        Nat.le_succ _⟩

/-- A run of a conservative algorithm is one of a conservative manager. -/
theorem Conservative.loop (hcons : Conservative alg numFrames Link Inv)
    (h : Lawful alg numFrames ok Link) : ∀ {trace : List Reference} {s : State R}
      {seen : Page → Finset Page}, Sound numFrames Link trace s →
        Inv seen s.pageTable.refs s.store s.pageSoFar →
          ∃ s' es, alg.loop numFrames s trace = some (s', es) ∧ s.pageFault ≤ s'.pageFault ∧
            Conserves numFrames seen s.pageTable.resident (trace.map Reference.tableIndex)
              (s'.pageFault - s.pageFault) := by
  intro trace
  induction trace with
  | nil =>
    intro s seen _ _
    refine ⟨s, [], rfl, le_rfl, ?_⟩
    rw [Nat.sub_self]
    exact .nil seen _
  | cons r trace ih =>
    intro s seen hs hinv
    obtain ⟨s₁, e, seen', hbody, hs₁, hinv₁, hturn⟩ := hcons.turn h hs hinv
    obtain ⟨s', es, hloop, hle, hserves⟩ := ih hs₁ hinv₁
    obtain ⟨hserves', hle'⟩ := hturn hserves
    refine ⟨s', e :: es, by simp [Algorithm.loop, hbody, hloop], hle'.trans hle, ?_⟩
    rwa [Nat.sub_add_sub_cancel hle hle'] at hserves'

/-- The faults of a conservative algorithm against those of `opt` with at most as
many frames. -/
theorem Conservative.competitive (hcons : Conservative alg numFrames Link Inv)
    (hlaw : Lawful alg numFrames ok Link) {store : R} {h : ℕ}
    (hstart : Sound numFrames Link trace (State.init store))
    (hinv : Inv (fun _ => ∅) PageTable.init.refs store 0) (hh : 1 ≤ h) (hle : h ≤ numFrames) :
    ∃ s es sOpt eOpt, alg.loop numFrames (State.init store) trace = some (s, es) ∧
      opt.loop h (optStart h trace) trace = some (sOpt, eOpt) ∧
      (numFrames + 1 - h) * s.pageFault ≤ numFrames * (sOpt.pageFault + (numFrames - h)) := by
  obtain ⟨s, es, hloop, -, hserves⟩ := hcons.loop hlaw hstart hinv
  obtain ⟨sOpt, eOpt, hopt, hservesOpt⟩ := (opt_lawful hh).serves trace optStart_sound
  have hres : (State.init store).pageTable.resident = ∅ := PageTable.resident_init
  rw [hres] at hserves
  exact ⟨s, es, sOpt, eOpt, hloop, hopt, hserves.competitive hle hservesOpt⟩

/-! ## fifo -/

/-- The queue of `fifo` is a ring without bits. -/
theorem fifo_conservative : Conservative fifo numFrames (fun _ ram pt _ => Queued ram pt)
    fun seen _ ram _ => Ring (fun _ => false) seen ram where
  hit _ hinv _ := hinv.mono fun x _ => DemandPaging.subset_remember _ _ x
  fill {r σ s d seen} hs hinv hnot _ hfill := by
    obtain rfl : s.store ++ [r.tableIndex] = d := by simpa [fifo] using hfill
    have hnew : r.tableIndex ∉ s.store := fun hmem => by
      rw [(hs.link.mem_iff _).mp hmem] at hnot
      cases hnot
    rw [← Function.update_eq_self r.tableIndex fun _ : Page => false]
    exact hinv.load hnew fun _ _ _ => rfl
  evict {r σ s v pt d d' seen} hs hinv hnot _ hchoose _ hreplace := by
    rcases hram : s.store with _ | ⟨u, rest⟩
    · simp [fifo, hram] at hchoose
    obtain ⟨rfl, rfl, rfl⟩ : u = v ∧ s.pageTable = pt ∧ rest = d := by
      simpa [fifo, hram] using hchoose
    obtain rfl : rest ++ [r.tableIndex] = d' := by simpa [fifo] using hreplace
    have hmem := hs.link.mem_iff
    rw [hram] at hinv hmem
    have hnew : r.tableIndex ∉ rest := fun h => by
      rw [(hmem _).mp (List.mem_cons_of_mem u h)] at hnot
      cases hnot
    refine ⟨fun p hp => ?_, ?_⟩
    · exact hinv.oldest rfl p ((hmem p).mpr (PageTable.mem_resident.mp hp))
    · rw [← Function.update_eq_self r.tableIndex fun _ : Page => false]
      exact hinv.tail.load hnew fun _ _ _ => rfl

/-! ## clock -/

section ring

variable {ram : List Page} {i : ℕ} {u t : Page}

/-- The ring read from a slot on: its page, the slots behind it and those in front. -/
theorem rotate_eq_cons (hu : ram[i]? = some u) :
    ram.rotate i = u :: (ram.drop (i + 1) ++ ram.take i) := by
  obtain ⟨hi, rfl⟩ := List.getElem?_eq_some_iff.mp hu
  rw [List.rotate_eq_drop_append_take hi.le, List.drop_eq_getElem_cons hi, List.cons_append]

/-- The ring read from the next slot on. -/
theorem rotate_advance (hu : ram[i]? = some u) :
    ram.rotate (advance ram i) = (ram.drop (i + 1) ++ ram.take i) ++ [u] := by
  obtain ⟨hi, rfl⟩ := List.getElem?_eq_some_iff.mp hu
  have hnext : ram.rotate (advance ram i) = ram.rotate (i + 1) := by
    unfold advance
    split
    · rw [List.rotate_zero, show i + 1 = ram.length by omega, List.rotate_length]
    · rfl
  rw [hnext, List.rotate_eq_drop_append_take hi, List.take_succ_eq_append_getElem hi,
    List.append_assoc]

/-- The same with the page in the slot replaced. -/
theorem rotate_advance_set (hi : i < ram.length) :
    (ram.set i t).rotate (advance ram i) = (ram.drop (i + 1) ++ ram.take i) ++ [t] := by
  have hadvance : advance ram i = advance (ram.set i t) i := by
    unfold advance
    rw [List.length_set]
  rw [hadvance, rotate_advance (List.getElem?_set_self hi), List.drop_set_of_lt (Nat.lt_succ_self i),
    List.take_set_of_le le_rfl]

/-- **The scan moves pages to the end of the ring**, until one with its bit clear is
at the front. -/
theorem secondChance_ring {seen : Page → Finset Page} (hnodup : ram.Nodup) :
    ∀ {fuel : ℕ} {pt pt' : PageTable} {i j : ℕ} {v : Page},
      Ring pt.refs seen (ram.rotate i) → secondChance ram fuel pt i = some (v, pt', j) →
        Ring pt'.refs seen (ram.rotate j) ∧ ram[j]? = some v ∧ pt'.refs v = false := by
  intro fuel
  induction fuel with
  | zero =>
    intro pt pt' i j v _ h
    cases h
  | succ fuel ih =>
    intro pt pt' i j v hring h
    rw [secondChance] at h
    rcases hget : ram[i]? with _ | u
    · simp [hget] at h
    simp only [hget, Option.bind_eq_bind, Option.bind_some] at h
    split at h
    · rename_i href
      have hrefs : PageTable.refs (Function.update pt u { pt u with ref := false }) =
          Function.update pt.refs u false := by
        funext p
        by_cases hp : p = u
        · subst hp
          simp [PageTable.refs]
        · simp [PageTable.refs, hp]
      refine ih ?_ h
      rw [rotate_eq_cons hget] at hring
      have hnew : u ∉ ram.drop (i + 1) ++ ram.take i := by
        have hrot : (ram.rotate i).Nodup := List.nodup_rotate.mpr hnodup
        rw [rotate_eq_cons hget] at hrot
        exact (List.nodup_cons.mp hrot).1
      rw [hrefs, rotate_advance hget]
      exact hring.pass hnew href
    · rename_i href
      obtain ⟨rfl, rfl, rfl⟩ : u = v ∧ pt = pt' ∧ i = j := by simpa using h
      exact ⟨hring, hget, by simpa [PageTable.refs] using href⟩

end ring

/-- The pages of `clock`, from the hand on, are a ring. -/
theorem clock_conservative : Conservative clock numFrames
    (fun _ c pt k => Indexed numFrames c.ram pt k ∧ c.oldestIndex < numFrames)
    fun seen refs c k => Ring refs seen ((c.ram.take k).rotate c.oldestIndex) ∧
      (k < numFrames → c.oldestIndex = 0) where
  hit {r σ s seen} hs hinv hvalid := by
    refine ⟨?_, hinv.2⟩
    have hmono : Ring s.pageTable.refs (remember seen r.tableIndex) _ :=
      hinv.1.mono fun x _ => DemandPaging.subset_remember seen r.tableIndex x
    exact hmono.mark fun x _ => DemandPaging.mem_remember seen r.tableIndex x
  fill {r σ s d seen} hs hinv hnot hlt hfill := by
    obtain ⟨hring, hhand⟩ := hinv
    have hslot : s.pageSoFar < s.store.ram.length := hs.link.1.length ▸ hlt
    obtain rfl : { s.store with ram := s.store.ram.set s.pageSoFar r.tableIndex } = d := by
      simpa [clock, store?_eq_some hslot] using hfill
    have hnew : r.tableIndex ∉ s.store.ram.take s.pageSoFar := fun hmem => by
      rw [hs.link.1.mem_take_iff.mp hmem] at hnot
      cases hnot
    have htake : (s.store.ram.set s.pageSoFar r.tableIndex).take (s.pageSoFar + 1) =
        s.store.ram.take s.pageSoFar ++ [r.tableIndex] := by
      rw [List.take_add_one, List.take_set_of_le le_rfl, List.getElem?_set_self hslot]
      rfl
    have hbit : Function.update s.pageTable.refs r.tableIndex true = s.pageTable.refs :=
      Function.update_eq_self_iff.mpr (hs.ref_of_not_valid hnot).symm
    rw [hhand hlt, List.rotate_zero] at hring
    refine ⟨?_, fun _ => hhand hlt⟩
    change Ring _ _ (List.rotate (List.take _ (List.set _ _ _)) s.store.oldestIndex)
    rw [hhand hlt, List.rotate_zero, htake, ← hbit]
    exact hring.load hnew fun h => Bool.noConfusion h
  evict {r σ s v pt d d' seen} hs hinv hnot hfull hchoose hsame hreplace := by
    obtain ⟨hram, -⟩ := hs.link
    obtain ⟨hring, -⟩ := hinv
    have hlen : s.store.ram.length = s.pageSoFar := hram.length.trans hfull.symm
    have hwhole : s.store.ram.take s.pageSoFar = s.store.ram := by
      rw [← hlen, List.take_length]
    have hnodup := hram.nodup_take
    have hmem : ∀ {p}, p ∈ s.store.ram ↔ (s.pageTable p).valid = true := fun {p} => by
      rw [← hram.mem_take_iff, hwhole]
    rw [hwhole] at hring hnodup
    rcases hscan : secondChance s.store.ram (s.store.ram.length + 1) s.pageTable
        s.store.oldestIndex with _ | ⟨u, pt₁, j⟩
    · simp [clock, hscan] at hchoose
    obtain ⟨rfl, rfl, rfl⟩ : u = v ∧ pt₁ = pt ∧ { s.store with oldestIndex := j } = d := by
      simpa [clock, hscan] using hchoose
    obtain ⟨hring', hget, hclear⟩ := secondChance_ring hnodup hring hscan
    have hj : j < s.store.ram.length := (List.getElem?_eq_some_iff.mp hget).1
    obtain rfl : { ram := s.store.ram.set j r.tableIndex
                   oldestIndex := advance s.store.ram j } = d' := by
      simpa [clock, store?_eq_some hj] using hreplace
    have hrot : ∀ {p}, p ∈ s.store.ram.rotate j ↔ (s.pageTable p).valid = true := fun {p} => by
      rw [List.mem_rotate, hmem]
    rw [rotate_eq_cons hget] at hring' hrot
    have hnew : r.tableIndex ∉ s.store.ram.drop (j + 1) ++ s.store.ram.take j := fun h => by
      rw [hrot.mp (List.mem_cons_of_mem u h)] at hnot
      cases hnot
    refine ⟨fun p hp => ?_, ?_, fun hlt => absurd hfull hlt.ne⟩
    · exact hring'.oldest hclear p (hrot.mpr (PageTable.mem_resident.mp hp))
    · change Ring _ _ (List.rotate (List.take _ (List.set _ _ _)) (advance _ _))
      rw [← hlen, ← List.length_set (i := j) (a := r.tableIndex), List.take_length,
        rotate_advance_set hj]
      have hbehind : u ∉ s.store.ram.drop (j + 1) ++ s.store.ram.take j := by
        have hrot' : (s.store.ram.rotate j).Nodup := List.nodup_rotate.mpr hnodup
        rw [rotate_eq_cons hget] at hrot'
        exact (List.nodup_cons.mp hrot').1
      have htu : r.tableIndex ≠ u := fun heq => by
        rw [heq, hrot.mp List.mem_cons_self] at hnot
        cases hnot
      -- the page evicted is no longer in the ring, and the page loaded has its bit set
      refine (hring'.tail.load (b := true) hnew fun h => Bool.noConfusion h).congr fun x hx => ?_
      rcases List.mem_append.mp hx with hx | hx
      · have hxu : x ≠ u := fun heq => hbehind (heq ▸ hx)
        have hxt : x ≠ r.tableIndex := fun heq => hnew (heq ▸ hx)
        rw [Function.update_of_ne hxu, Function.update_of_ne hxt]
      · obtain rfl := List.mem_singleton.mp hx
        rw [Function.update_of_ne htu, Function.update_self, PageTable.refs, hsame.clean _ hnot,
          hs.ref_of_not_valid hnot]

/-! ## Results -/

/-- **`fifo` is competitive**: on every trace it has at most
`numFrames / (numFrames + 1 - h)` times the faults of `opt` with `h ≤ numFrames`
frames, up to a constant; with as many frames, at most `numFrames` times as many. A page is
evicted only after every other page in memory was loaded, so referenced, since it was. So
the trace falls into phases of `numFrames` faults, and in each of them `opt` has its share. -/
theorem fifo_competitive (numFrames h : ℕ) (hh : 1 ≤ h) (hle : h ≤ numFrames)
    (trace : List Reference) :
    ∃ s es sOpt eOpt, fifo.loop numFrames fifoStart trace = some (s, es) ∧
      opt.loop h (optStart h trace) trace = some (sOpt, eOpt) ∧
      (numFrames + 1 - h) * s.pageFault ≤ numFrames * (sOpt.pageFault + (numFrames - h)) :=
  fifo_conservative.competitive (fifo_lawful (hh.trans hle)) fifoStart_sound
    (.nil _ _) hh hle

/-- Three frames against two. -/
theorem fifo_competitive_three_two :
    ∃ s es sOpt eOpt, fifo.loop 3 fifoStart [⟨.L, 0⟩, ⟨.S, 2048⟩] = some (s, es) ∧
      opt.loop 2 (optStart 2 [⟨.L, 0⟩, ⟨.S, 2048⟩]) [⟨.L, 0⟩, ⟨.S, 2048⟩] = some (sOpt, eOpt) ∧
      (3 + 1 - 2) * s.pageFault ≤ 3 * (sOpt.pageFault + (3 - 2)) :=
  fifo_competitive 3 2 (by decide) (by decide) [⟨.L, 0⟩, ⟨.S, 2048⟩]

/-- **`clock` is competitive**, with the same bound: a page is evicted only after
every other page in memory was referenced since it was loaded, because the hand
passes each of them with its bit set in between, or finds a page loaded since. -/
theorem clock_competitive (numFrames h : ℕ) (hh : 1 ≤ h) (hle : h ≤ numFrames)
    (trace : List Reference) :
    ∃ s es sOpt eOpt, clock.loop numFrames (clockStart numFrames) trace = some (s, es) ∧
      opt.loop h (optStart h trace) trace = some (sOpt, eOpt) ∧
      (numFrames + 1 - h) * s.pageFault ≤ numFrames * (sOpt.pageFault + (numFrames - h)) := by
  have hstart : Ring PageTable.init.refs (fun _ => ∅) (((newRam numFrames).take 0).rotate 0) := by
    rw [List.take_zero, List.rotate_nil]
    exact .nil _ _
  exact clock_conservative.competitive clock_lawful (clockStart_sound (hh.trans hle))
    ⟨hstart, fun _ => rfl⟩ hh hle

/-- As many frames on both sides. -/
theorem clock_competitive_two :
    ∃ s es sOpt eOpt, clock.loop 2 (clockStart 2) [⟨.L, 0⟩, ⟨.S, 2048⟩] = some (s, es) ∧
      opt.loop 2 (optStart 2 [⟨.L, 0⟩, ⟨.S, 2048⟩]) [⟨.L, 0⟩, ⟨.S, 2048⟩] = some (sOpt, eOpt) ∧
      (2 + 1 - 2) * s.pageFault ≤ 2 * (sOpt.pageFault + (2 - 2)) :=
  clock_competitive 2 2 (by decide) (by decide) [⟨.L, 0⟩, ⟨.S, 2048⟩]

end Csc452.Vmsim
