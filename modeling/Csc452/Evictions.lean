import Csc452.ReplacementResults
import Mathlib.Data.Nat.ModEq

/-!
# Which page is evicted

`Residency` leaves open which resident page a fault in a full memory evicts.
Here that page is named, for three of the algorithms:

* `opt_evicts_farthest` — `opt` evicts a page that comes back no earlier than
  any other, and neither of the two ways its scan could end without a choice is
  ever taken;
* `second_chance` — `clock` evicts the page of the first slot from the hand on
  whose bit is clear, after clearing exactly the bits it passed;
* `clock_matches_fifo` — where no page is referenced again while it is resident,
  `clock` is `fifo`: its hand is at the page loaded first (`Sweeps`).
-/

namespace Csc452.Vmsim

variable {R : Type} {alg : Algorithm R} {numFrames : ℕ}

/-! ## Turns of the loop -/

/-- A run that is not empty is one turn, and a run of the other references. -/
theorem Algorithm.loop_cons {r : Reference} {trace : List Reference} {s s' : State R}
    {es : List Event} (h : alg.loop numFrames s (r :: trace) = some (s', es)) :
    ∃ s₁ e es', es = e :: es' ∧ alg.body numFrames s r = some (s₁, e) ∧
      alg.loop numFrames s₁ trace = some (s', es') := by
  rw [loop] at h
  rcases hbody : alg.body numFrames s r with _ | ⟨s₁, e⟩
  · simp [hbody] at h
  · simp only [hbody, Option.bind_eq_bind, Option.bind_some] at h
    rcases hrest : alg.loop numFrames s₁ trace with _ | ⟨s₂, es'⟩
    · simp [hrest] at h
    · simp only [hrest, Option.bind_some, Option.some.injEq, Prod.mk.injEq] at h
      obtain ⟨rfl, rfl⟩ := h
      exact ⟨s₁, e, es', rfl, rfl, hrest⟩

/-- A run is a run of its first references followed by one of the others. -/
theorem Algorithm.loop_split {trace : List Reference} : ∀ {s s' : State R} {es : List Event},
    alg.loop numFrames s trace = some (s', es) → ∀ k,
      ∃ sk, alg.loop numFrames s (trace.take k) = some (sk, es.take k) ∧
        alg.loop numFrames sk (trace.drop k) = some (s', es.drop k) := by
  induction trace with
  | nil =>
    intro s s' es h k
    obtain ⟨rfl, rfl⟩ : s = s' ∧ [] = es := by simpa [loop] using h
    exact ⟨s, by simp [loop], by simp [loop]⟩
  | cons r trace ih =>
    intro s s' es h k
    cases k with
    | zero => exact ⟨s, rfl, h⟩
    | succ k =>
      obtain ⟨s₁, e, es', rfl, hbody, hrest⟩ := loop_cons h
      obtain ⟨sk, hfirst, hlater⟩ := ih hrest k
      exact ⟨sk, by simp [loop, hbody, hfirst], by simpa using hlater⟩

/-- The event of a reference comes from the turn that served it. -/
theorem Algorithm.loop_event {trace : List Reference} {s s' : State R} {es : List Event} {k : ℕ}
    {e : Event} (h : alg.loop numFrames s trace = some (s', es)) (hk : es[k]? = some e) :
    ∃ sk r s'', alg.loop numFrames s (trace.take k) = some (sk, es.take k) ∧
      trace.drop k = r :: trace.drop (k + 1) ∧ alg.body numFrames sk r = some (s'', e) := by
  obtain ⟨sk, hfirst, hlater⟩ := loop_split h k
  obtain ⟨later, hevents⟩ : ∃ later, es.drop k = e :: later := by
    obtain ⟨hlt, rfl⟩ := List.getElem?_eq_some_iff.mp hk
    exact ⟨_, List.drop_eq_getElem_cons hlt⟩
  rcases hdrop : trace.drop k with _ | ⟨r, rest⟩
  · simp [hdrop, loop, hevents] at hlater
  · rw [hdrop, hevents] at hlater
    obtain ⟨s₁, e₁, es', hcons, hbody, -⟩ := loop_cons hlater
    obtain ⟨rfl, -⟩ := List.cons_eq_cons.mp hcons
    refine ⟨sk, r, s₁, hfirst, ?_, hbody⟩
    rw [← List.drop_drop, hdrop, List.drop_one, List.tail_cons]

/-- A turn that evicts is one in which the page chosen is evicted. -/
theorem Algorithm.choose_of_evict {s s' : State R} {r : Reference} {v : Page} {d : Bool}
    (h : alg.body numFrames s r = some (s', .evict v d)) :
    (s.pageTable r.tableIndex).valid = false ∧ numFrames ≤ s.pageSoFar ∧
      ∃ pt store, alg.choose s.pageTable s.store = some (v, pt, store) := by
  rw [body] at h
  rcases haccess : alg.access numFrames s r.tableIndex with _ | ⟨s₁, e⟩
  · simp [haccess] at h
  obtain ⟨-, rfl⟩ : _ ∧ e = Event.evict v d := by simpa [haccess] using h
  rw [access] at haccess
  split at haccess
  · simp at haccess
  · rename_i hnot
    refine ⟨by simpa using hnot, ?_⟩
    split at haccess
    · rename_i hfull
      refine ⟨hfull, ?_⟩
      rcases hchoose : alg.choose s.pageTable s.store with _ | ⟨u, pt, store⟩
      · simp [hchoose] at haccess
      · simp only [hchoose, Option.bind_eq_bind, Option.bind_some, Option.bind_eq_some_iff]
          at haccess
        obtain ⟨_, -, h⟩ := haccess
        obtain ⟨-, rfl, -⟩ : _ ∧ u = v ∧ _ := by simpa using h
        exact ⟨pt, store, rfl⟩
    · simp only [Option.bind_eq_bind, Option.bind_eq_some_iff] at haccess
      obtain ⟨_, -, h⟩ := haccess
      simp at h

/-- The turn of a fault in a full memory, in its effects. -/
theorem Algorithm.body_of_choose {s : State R} {r : Reference} {v : Page} {pt : PageTable}
    {store store' : R} (hnot : (s.pageTable r.tableIndex).valid = false)
    (hfull : numFrames ≤ s.pageSoFar) (hne : r.tableIndex ≠ v)
    (hchoose : alg.choose s.pageTable s.store = some (v, pt, store))
    (hreplace : alg.replace r.tableIndex (pt v).frame store = some store') :
    ∃ s', alg.body numFrames s r = some (s', .evict v (pt v).dirty) ∧
      (∀ p, s'.pageTable p = { pt.swap r.tableIndex v p with
        dirty := (pt.swap r.tableIndex v p).dirty ||
          (decide (p = r.tableIndex) && r.operation.writes) }) ∧
      s'.store = alg.tick store' ∧ s'.pageSoFar = s.pageSoFar ∧
      s'.pageFault = s.pageFault + 1 ∧ s'.writeToDisk = s.writeToDisk + (pt v).dirty.toNat := by
  have hframe : (pt.swap r.tableIndex v r.tableIndex).frame = (pt v).frame := by
    rw [PageTable.swap_target hne]
  have hdirty : (pt.load r.tableIndex (pt v).frame v).dirty = (pt v).dirty := by
    rw [PageTable.load_of_ne hne.symm]
  let s₁ : State R :=
    { s with
      pageTable := pt.swap r.tableIndex v
      store := store'
      writeToDisk := s.writeToDisk + (pt v).dirty.toNat
      pageFault := s.pageFault + 1 }
  have haccess : alg.access numFrames s r.tableIndex = some (s₁, .evict v (pt v).dirty) := by
    simp [access, hnot, hfull, hchoose, hframe, hreplace, hdirty, s₁]
  refine ⟨_, by rw [body, haccess]; rfl, fun p => ?_, ?_, ?_, ?_, ?_⟩
  · exact processOperation_pageTable s₁ r.tableIndex p r.operation
  · simp [s₁]
  · simp [s₁]
  · simp [s₁]
  · simp [s₁]

/-- The turn of a fault in a memory that is not full. -/
theorem Algorithm.body_of_fill {s : State R} {r : Reference} {store : R}
    (hnot : (s.pageTable r.tableIndex).valid = false) (hfree : s.pageSoFar < numFrames)
    (hfill : alg.fill r.tableIndex s.pageSoFar s.store = some store) :
    ∃ s', alg.body numFrames s r = some (s', .noEviction) ∧
      (∀ p, s'.pageTable p = { s.pageTable.load r.tableIndex s.pageSoFar p with
        dirty := (s.pageTable.load r.tableIndex s.pageSoFar p).dirty ||
          (decide (p = r.tableIndex) && r.operation.writes) }) ∧
      s'.store = alg.tick store ∧ s'.pageSoFar = s.pageSoFar + 1 ∧
      s'.pageFault = s.pageFault + 1 ∧ s'.writeToDisk = s.writeToDisk := by
  let s₁ : State R :=
    { s with
      pageTable := s.pageTable.load r.tableIndex s.pageSoFar
      store := store
      pageSoFar := s.pageSoFar + 1
      pageFault := s.pageFault + 1 }
  have haccess : alg.access numFrames s r.tableIndex = some (s₁, .noEviction) := by
    simp [access, hnot, Nat.not_le.mpr hfree, hfill, s₁]
  refine ⟨_, by rw [body, haccess]; rfl, fun p => ?_, ?_, ?_, ?_, ?_⟩
  · exact processOperation_pageTable s₁ r.tableIndex p r.operation
  · simp [s₁]
  · simp [s₁]
  · simp [s₁]
  · simp [s₁]

/-! ## opt -/

/-- When `page` is referenced next after reference `k`; never is `⊤`. -/
def nextReference (trace : List Reference) (k : ℕ) (page : Page) : WithTop ℕ :=
  let later := (trace.drop (k + 1)).map Reference.tableIndex
  if page ∈ later then WithTop.some (k + 1 + later.idxOf page) else ⊤

/-- Does the scan of `opt` break on an occurrence set that is already empty? The
scan is that of `findFarthest`: if it does, `findFarthest` passes the pages before that
set and stops there (`findFarthest_of_breaksOnEmpty`), and if not, it goes on to the end
or to a set that it empties itself (`findFarthest_of_not_breaksOnEmpty`). -/
def breaksOnEmpty (commandNum : ℕ) : List Page → PageMap → Bool
  | [], _ => false
  | page :: rest, m =>
    match m page with
    | none => false
    | some occ =>
      if occ.elems.isEmpty then true
      else
        let occ := occ.prune commandNum
        match occ.elems with
        | [] => false
        | _ :: _ => breaksOnEmpty commandNum rest (Function.update m page (some occ))

/-- What is to be said of `opt` evicting `v` at reference `k`, from the state `s`. -/
structure EvictsFarthest (trace : List Reference) (k : ℕ) (s : State Opt) (v : Page) : Prop where
  /-- the page is resident -/
  resident : (s.pageTable v).valid = true
  /-- no resident page is referenced later -/
  farthest : ∀ p, (s.pageTable p).valid = true →
    nextReference trace k p ≤ nextReference trace k v
  /-- the scan does not break on an empty set -/
  unbroken : breaksOnEmpty s.store.commandNum s.store.ram s.store.pageMap = false
  /-- the scan chose the page, so that the fallback to `ram[0]` is not taken -/
  chosen : ∃ m, findFarthest s.store.commandNum s.store.ram s.store.pageMap none (-1) =
    some (m, some v)

/-- A scan over sets that are not empty meets none that is. -/
theorem breaksOnEmpty_eq_false {c : ℕ} {pages : List Page} : ∀ {m : PageMap},
    (∀ p ∈ pages, ∃ occ, m p = some occ ∧ occ.elems ≠ []) → breaksOnEmpty c pages m = false := by
  induction pages with
  | nil => exact fun _ => rfl
  | cons page rest ih =>
    intro m hne
    obtain ⟨occ, hocc, hocc0⟩ := hne page List.mem_cons_self
    have hempty : occ.elems.isEmpty = false := List.isEmpty_eq_false_iff.mpr hocc0
    simp only [breaksOnEmpty, hocc, hempty, Bool.false_eq_true, if_false]
    rcases hpr : (occ.prune c).elems with _ | ⟨o, os⟩
    · rfl
    · -- the set of a page that occurs twice was pruned, and something is left of it
      refine ih fun p hp => ?_
      by_cases hpage : p = page
      · subst hpage
        exact ⟨occ.prune c, by simp, by simp [hpr]⟩
      · simpa [hpage] using hne p (List.mem_cons_of_mem _ hp)

/-- How the scan ends when it breaks on an empty set: it passes the pages of `pre`, whatever
follows them, and the set of the next page is empty by then. -/
theorem findFarthest_of_breaksOnEmpty {c : ℕ} {pages : List Page} : ∀ {m : PageMap}
    (far : Option Page) (maximum : ℤ), breaksOnEmpty c pages m = true →
      ∃ pre page rest m' far' maximum' occ, pages = pre ++ page :: rest ∧
        (∀ later, findFarthest c (pre ++ later) m far maximum =
          findFarthest c later m' far' maximum') ∧ m' page = some occ ∧ occ.elems = [] := by
  induction pages with
  | nil => exact fun _ _ h => absurd h Bool.false_ne_true
  | cons page rest ih =>
    intro m far maximum h
    rw [breaksOnEmpty] at h
    rcases hocc : m page with _ | occ
    · simp [hocc] at h
    rcases hempty : occ.elems.isEmpty with _ | _
    · rcases hprune : (occ.prune c).elems with _ | ⟨o, os⟩
      · simp [hocc, hempty, hprune] at h
      have hrest : breaksOnEmpty c rest (Function.update m page (some (occ.prune c))) = true := by
        simpa [hocc, hempty, hprune] using h
      obtain ⟨pre, last, later, m', far', maximum', occ', rfl, hpass, hlast⟩ := ih _ _ hrest
      refine ⟨page :: pre, last, later, m', far', maximum', occ', rfl, fun later => ?_, hlast⟩
      rw [List.cons_append, findFarthest_cons hocc hempty hprune]
      exact hpass later
    · exact ⟨[], page, rest, m, far, maximum, occ, rfl, fun _ => rfl, hocc, List.isEmpty_iff.mp hempty⟩

/-- How it ends otherwise: behind the last page, or at one whose set it has just emptied,
which it chooses. -/
theorem findFarthest_of_not_breaksOnEmpty {c : ℕ} {pages : List Page} : ∀ {m m' : PageMap}
    {far f : Option Page} {maximum : ℤ}, breaksOnEmpty c pages m = false →
      findFarthest c pages m far maximum = some (m', f) →
        (∃ maximum', ∀ later, findFarthest c (pages ++ later) m far maximum =
          findFarthest c later m' f maximum') ∨
        ∃ page ∈ pages, f = some page ∧ ∃ occ, m' page = some occ ∧ occ.elems = [] := by
  induction pages with
  | nil =>
    intro m m' far f maximum _ hscan
    obtain ⟨rfl, rfl⟩ := Prod.mk.inj (Option.some.inj hscan)
    exact .inl ⟨maximum, fun _ => rfl⟩
  | cons page rest ih =>
    intro m m' far f maximum h hscan
    rw [breaksOnEmpty] at h
    rcases hocc : m page with _ | occ
    · simp [findFarthest, hocc] at hscan
    rcases hempty : occ.elems.isEmpty with _ | _
    · rcases hprune : (occ.prune c).elems with _ | ⟨o, os⟩
      · rw [findFarthest_last hocc hempty hprune] at hscan
        obtain ⟨rfl, rfl⟩ := Prod.mk.inj (Option.some.inj hscan)
        exact .inr ⟨page, List.mem_cons_self, rfl, _, Function.update_self .., hprune⟩
      have hrest : breaksOnEmpty c rest (Function.update m page (some (occ.prune c))) = false := by
        simpa [hocc, hempty, hprune] using h
      rw [findFarthest_cons hocc hempty hprune] at hscan
      rcases ih hrest hscan with ⟨maximum', hpass⟩ | ⟨last, hmem, hlast⟩
      · refine .inl ⟨maximum', fun later => ?_⟩
        rw [List.cons_append, findFarthest_cons hocc hempty hprune]
        exact hpass later
      · exact .inr ⟨last, List.mem_cons_of_mem _ hmem, hlast⟩
    · simp [hocc, hempty] at h

/-- A page found later in what remains is referenced later. -/
theorem nextReference_le {trace : List Reference} {k : ℕ} {p v : Page}
    (h : ((trace.drop (k + 1)).map Reference.tableIndex).idxOf p ≤
      ((trace.drop (k + 1)).map Reference.tableIndex).idxOf v) :
    nextReference trace k p ≤ nextReference trace k v := by
  unfold nextReference
  generalize (trace.drop (k + 1)).map Reference.tableIndex = later at h ⊢
  by_cases hv : v ∈ later
  · have hlt := List.idxOf_lt_length_iff.mpr hv
    have hp : p ∈ later := List.idxOf_lt_length_iff.mp (by omega)
    simp only [hv, hp, if_true]
    exact WithTop.coe_le_coe.mpr (Nat.add_le_add_left h (k + 1))
  · simp [hv]

/-- **`opt` evicts the farthest page**: in every run, for every number of frames,
each eviction is of a resident page whose next reference is at least as late as
that of every other, and the scan neither breaks on an empty set nor ends without
a page. -/
theorem opt_evicts_farthest (numFrames : ℕ) (hn : 1 ≤ numFrames) (trace : List Reference) :
    ∃ s es, opt.loop numFrames (optStart numFrames trace) trace = some (s, es) ∧
      ∀ k v d, es[k]? = some (.evict v d) →
        ∃ sk, opt.loop numFrames (optStart numFrames trace) (trace.take k) =
            some (sk, es.take k) ∧
          EvictsFarthest trace k sk v := by
  have hstart : Sound numFrames (OptLink numFrames) (trace ++ []) (optStart numFrames trace) := by
    rw [List.append_nil]
    exact optStart_sound
  obtain ⟨s, es, hloop, -, -⟩ := (opt_lawful hn).loop hstart
  refine ⟨s, es, hloop, fun k v d hk => ?_⟩
  obtain ⟨sk, r, s', hfirst, hdrop, hbody⟩ := Algorithm.loop_event hloop hk
  refine ⟨sk, hfirst, ?_⟩
  -- the state before the eviction is sound for the references from `k` on
  have hsk : Sound numFrames (OptLink numFrames) (r :: trace.drop (k + 1)) sk := by
    have hsplit : Sound numFrames (OptLink numFrames) (trace.take k ++ trace.drop k)
        (optStart numFrames trace) := by
      rw [List.take_append_drop]
      exact optStart_sound
    obtain ⟨sk', _, hfirst', hsk', -⟩ := (opt_lawful hn).loop hsplit
    obtain ⟨rfl, -⟩ : sk = sk' ∧ _ := by simpa using hfirst.symm.trans hfirst'
    exact hdrop ▸ hsk'
  obtain ⟨hnot, hfull, pt, store, hchoose⟩ := Algorithm.choose_of_evict hbody
  have hlink := hsk.link
  rw [Nat.le_antisymm hsk.bound hfull] at hlink
  obtain ⟨m, f, hscan, hvalid, hfar, -⟩ := hlink.scan hn
  obtain rfl : f = v := by simpa [opt, hscan] using congrArg (Option.map Prod.fst) hchoose
  exact ⟨hvalid, fun p hp => nextReference_le (hfar p hp),
    breaksOnEmpty_eq_false fun p hp => hlink.nonempty p (hlink.mem_ram.mp hp), m, hscan⟩

/-- Two frames: the third reference evicts the second page, for the first is
still to come. -/
theorem opt_evicts_farthest_two_frames :
    ∃ sk es, opt.loop 2 (optStart 2 [⟨.L, 0⟩, ⟨.L, 2048⟩, ⟨.L, 4096⟩, ⟨.L, 0⟩])
        [⟨.L, 0⟩, ⟨.L, 2048⟩] = some (sk, es) ∧
      EvictsFarthest [⟨.L, 0⟩, ⟨.L, 2048⟩, ⟨.L, 4096⟩, ⟨.L, 0⟩] 2 sk
        (Reference.tableIndex ⟨.L, 2048⟩) := by
  obtain ⟨s, es, hloop, hevict⟩ :=
    opt_evicts_farthest 2 (by decide) [⟨.L, 0⟩, ⟨.L, 2048⟩, ⟨.L, 4096⟩, ⟨.L, 0⟩]
  have hes : es = [.noEviction, .noEviction,
      .evict (Reference.tableIndex ⟨.L, 2048⟩) false, .hit] := by
    have hrun : (opt.loop 2 (optStart 2 [⟨.L, 0⟩, ⟨.L, 2048⟩, ⟨.L, 4096⟩, ⟨.L, 0⟩])
        [⟨.L, 0⟩, ⟨.L, 2048⟩, ⟨.L, 4096⟩, ⟨.L, 0⟩]).map Prod.snd = some [.noEviction, .noEviction,
      .evict (Reference.tableIndex ⟨.L, 2048⟩) false, .hit] := by decide +kernel
    rw [hloop] at hrun
    exact Option.some.inj hrun
  obtain ⟨sk, hfirst, hfar⟩ := hevict 2 _ false (by rw [hes]; rfl)
  exact ⟨sk, _, hfirst, hfar⟩

/-! ## The second-chance scan -/

/-- The table after the reference bits of `pages` were cleared. -/
def PageTable.clearRefs (pt : PageTable) (pages : List Page) : PageTable := fun p =>
  if p ∈ pages then { pt p with ref := false } else pt p

/-- The pages in the `k` slots from `hand` on, around the end of `ram`. -/
def passed (ram : List Page) (hand k : ℕ) : List Page :=
  (List.range k).filterMap fun i => ram[(hand + i) % ram.length]?

section scan

variable {ram : List Page} {pt : PageTable} {hand k : ℕ}

theorem passed_zero : passed ram hand 0 = [] := rfl

theorem passed_succ {u : Page} (hu : ram[(hand + k) % ram.length]? = some u) :
    passed ram hand (k + 1) = passed ram hand k ++ [u] := by
  simp [passed, List.range_succ, hu]

theorem PageTable.clearRefs_nil : pt.clearRefs [] = pt := by
  funext p
  simp [clearRefs]

theorem PageTable.clearRefs_of_notMem {pages : List Page} {p : Page} (h : p ∉ pages) :
    pt.clearRefs pages p = pt p :=
  if_neg h

theorem PageTable.clearRefs_append {pages : List Page} {u : Page} (h : u ∉ pages) :
    pt.clearRefs (pages ++ [u]) =
      Function.update (pt.clearRefs pages) u { pt.clearRefs pages u with ref := false } := by
  funext p
  by_cases hp : p = u
  · subst hp
    simp [clearRefs, h]
  · simp [clearRefs, hp]

/-- Fewer than a round of slots hold fewer pages than there are: the next one is
not among them. -/
theorem notMem_passed {u : Page} (hnodup : ram.Nodup) (hk : k < ram.length)
    (hu : ram[(hand + k) % ram.length]? = some u) : u ∉ passed ram hand k := by
  intro hmem
  obtain ⟨i, hi, hget⟩ := List.mem_filterMap.mp hmem
  have hik : i < k := List.mem_range.mp hi
  have hlt : (hand + i) % ram.length < ram.length := Nat.mod_lt _ (by omega)
  have hslot : (hand + i) % ram.length = (hand + k) % ram.length :=
    (List.getElem?_inj hlt hnodup).mp (hget.trans hu.symm)
  have hmod : i % ram.length = k % ram.length := Nat.ModEq.add_left_cancel' hand hslot
  rw [Nat.mod_eq_of_lt (by omega), Nat.mod_eq_of_lt hk] at hmod
  omega

/-- The slot under the hand after one more turn. -/
theorem advance_mod (hpos : 0 < ram.length) (i : ℕ) :
    advance ram (i % ram.length) = (i + 1) % ram.length := by
  have hlt : i % ram.length < ram.length := Nat.mod_lt _ hpos
  have h := advance_iterate hlt 1
  rw [Function.iterate_one, Nat.mod_add_mod] at h
  exact h

/-- The turns over pages whose bit is set: each costs one unit of fuel and clears
the bit. -/
theorem secondChance_passed (hnodup : ram.Nodup) (hhand : hand < ram.length) :
    ∀ {k : ℕ}, k ≤ ram.length →
      (∀ i < k, ∃ p, ram[(hand + i) % ram.length]? = some p ∧ (pt p).ref = true) → ∀ fuel,
        secondChance ram (fuel + k) pt hand =
          secondChance ram fuel (pt.clearRefs (passed ram hand k)) ((hand + k) % ram.length) := by
  intro k
  induction k with
  | zero =>
    intro _ _ fuel
    rw [passed_zero, PageTable.clearRefs_nil, Nat.add_zero, Nat.add_zero, Nat.mod_eq_of_lt hhand]
  | succ k ih =>
    intro hk hset fuel
    obtain ⟨u, hu, href⟩ := hset k (Nat.lt_succ_self k)
    have hnew : u ∉ passed ram hand k := notMem_passed hnodup (by omega) hu
    rw [show fuel + (k + 1) = fuel + 1 + k by omega,
      ih (by omega) fun i hi => hset i (by omega), secondChance]
    simp only [hu, Option.bind_eq_bind, Option.bind_some]
    rw [if_pos (by rw [PageTable.clearRefs_of_notMem hnew, href]), advance_mod (by omega),
      passed_succ hu, PageTable.clearRefs_append hnew, Nat.add_assoc]

/-- **The scan, turn by turn**: over slots whose bits are set, up to one whose
bit is clear, or all the way round. It needs as many turns as it clears bits, and
one to stop. -/
theorem secondChance_eq {v : Page} (hnodup : ram.Nodup) (hhand : hand < ram.length)
    (hk : k ≤ ram.length)
    (hset : ∀ i < k, ∃ p, ram[(hand + i) % ram.length]? = some p ∧ (pt p).ref = true)
    (hv : ram[(hand + k) % ram.length]? = some v) (hstop : k < ram.length → (pt v).ref = false)
    (fuel : ℕ) :
    secondChance ram fuel pt hand =
      if k < fuel then
        some (v, pt.clearRefs (passed ram hand k), (hand + k) % ram.length)
      else none := by
  split
  · rename_i hlt
    obtain ⟨more, rfl⟩ : ∃ more, fuel = more + 1 + k := ⟨fuel - k - 1, by omega⟩
    rw [secondChance_passed hnodup hhand hk hset, secondChance]
    simp only [hv, Option.bind_eq_bind, Option.bind_some]
    -- the bit is clear, or it was cleared when the scan began
    rw [if_neg]
    rcases Nat.lt_or_ge k ram.length with hlt | hge
    · rw [PageTable.clearRefs_of_notMem (notMem_passed hnodup hlt hv), hstop hlt]
      exact Bool.false_ne_true
    · obtain rfl : k = ram.length := Nat.le_antisymm hk hge
      have hmem : v ∈ passed ram hand ram.length := by
        refine List.mem_filterMap.mpr ⟨0, List.mem_range.mpr (by omega), ?_⟩
        rwa [Nat.add_zero, ← Nat.add_mod_right]
      simp [PageTable.clearRefs, hmem]
  · rename_i hge
    -- out of fuel on the way
    have hout := secondChance_passed hnodup hhand (show fuel ≤ ram.length by omega)
      (fun i hi => hset i (by omega)) 0
    rw [Nat.zero_add] at hout
    rw [hout, secondChance]

/-- Where the scan stops: after fewer than all slots at one whose bit is clear,
or after a full round. -/
theorem exists_turns (ram : List Page) (pt : PageTable) (hand : ℕ) (hpos : 0 < ram.length) :
    ∃ k v, k ≤ ram.length ∧
      (∀ i < k, ∃ p, ram[(hand + i) % ram.length]? = some p ∧ (pt p).ref = true) ∧
      ram[(hand + k) % ram.length]? = some v ∧ (k < ram.length → (pt v).ref = false) := by
  have hslot : ∀ i, ∃ p, ram[(hand + i) % ram.length]? = some p := fun i =>
    ⟨_, List.getElem?_eq_getElem (Nat.mod_lt _ hpos)⟩
  have hex : ∃ k, ram.length ≤ k ∨
      ∃ p, ram[(hand + k) % ram.length]? = some p ∧ (pt p).ref = false :=
    ⟨ram.length, Or.inl le_rfl⟩
  classical
  refine ⟨Nat.find hex, (hslot (Nat.find hex)).choose, Nat.find_min' hex (Or.inl le_rfl), ?_,
    (hslot (Nat.find hex)).choose_spec, ?_⟩
  · intro i hi
    obtain ⟨p, hp⟩ := hslot i
    refine ⟨p, hp, ?_⟩
    by_contra href
    exact Nat.find_min hex hi (Or.inr ⟨p, hp, by simpa using href⟩)
  · intro hlt
    rcases Nat.find_spec hex with hge | ⟨p, hp, href⟩
    · omega
    · rw [Option.some.inj ((hslot (Nat.find hex)).choose_spec.symm.trans hp), href]

end scan

/-- The state with the hand at `hand` and the reference bits of the resident pages
replaced by `ref`. -/
def State.withHand (s : State Clock) (hand : ℕ) (ref : Page → Bool) : State Clock :=
  { s with
    pageTable := fun p =>
      if (s.pageTable p).valid then { s.pageTable p with ref := ref p } else s.pageTable p
    store := { s.store with oldestIndex := hand } }

/-- What a fault of `clock` on `r` does in a full memory of `n` frames: from `s`,
the scan passes `k` slots and `v` is evicted. -/
structure SecondChance (n : ℕ) (s : State Clock) (r : Reference) (k : ℕ) (v : Page)
    (s' : State Clock) : Prop where
  /-- it clears at most one bit for each slot -/
  turns : k ≤ n
  /-- the slots passed had their bits set -/
  set : ∀ i < k, ∃ p, s.store.ram[(s.store.oldestIndex + i) % n]? = some p ∧
    (s.pageTable p).ref = true
  /-- the victim is in the slot where the scan stops -/
  victim : s.store.ram[(s.store.oldestIndex + k) % n]? = some v
  /-- whose bit was clear, unless all were set -/
  stops : k < n → (s.pageTable v).ref = false
  /-- the scan takes a turn for each slot passed, and one more -/
  scan : ∀ fuel, secondChance s.store.ram fuel s.pageTable s.store.oldestIndex =
    if k < fuel then
      some (v, s.pageTable.clearRefs (passed s.store.ram s.store.oldestIndex k),
        (s.store.oldestIndex + k) % n)
    else none
  /-- of the other pages, those passed lose their bit and nothing else changes -/
  others : ∀ p, p ≠ r.tableIndex → p ≠ v → s'.pageTable p =
    s.pageTable.clearRefs (passed s.store.ram s.store.oldestIndex k) p
  /-- the entry of the victim is as new -/
  evicted : s'.pageTable v = .new
  /-- the new page has the slot of the victim as its frame, and its bit set -/
  loaded : s'.pageTable r.tableIndex =
    { dirty := r.operation.writes, valid := true, ref := true,
      frame := ((s.store.oldestIndex + k) % n : ℕ) }
  /-- and sits in that slot -/
  ram : s'.store.ram = s.store.ram.set ((s.store.oldestIndex + k) % n) r.tableIndex
  /-- the hand is at the next slot -/
  hand : s'.store.oldestIndex = ((s.store.oldestIndex + k) % n + 1) % n

/-- A fault of `clock` in a full memory. -/
theorem clock_evict {n : ℕ} {s : State Clock} {r : Reference} (hn : 1 ≤ n)
    (htable : s.pageTable.WellFormed n) (hram : Indexed n s.store.ram s.pageTable n)
    (hhand : s.store.oldestIndex < n) (hfull : n ≤ s.pageSoFar)
    (hnot : (s.pageTable r.tableIndex).valid = false) :
    ∃ k v s', clock.body n s r = some (s', .evict v (s.pageTable v).dirty) ∧
      SecondChance n s r k v s' ∧ s'.pageSoFar = s.pageSoFar ∧
      s'.pageFault = s.pageFault + 1 ∧
      s'.writeToDisk = s.writeToDisk + (s.pageTable v).dirty.toNat := by
  have hlen : s.store.ram.length = n := hram.length
  have hnodup : s.store.ram.Nodup := by
    have hnodup := hram.nodup_take
    rwa [List.take_of_length_le (le_of_eq hlen)] at hnodup
  obtain ⟨k, v, hk, hset, hv, hstop⟩ :=
    exists_turns s.store.ram s.pageTable s.store.oldestIndex (by omega)
  have hscan := secondChance_eq hnodup (by omega) hk hset hv hstop
  rw [hlen] at hk hset hv hstop hscan
  have hslot : (s.store.oldestIndex + k) % n < n := Nat.mod_lt _ (by omega)
  generalize hpassed : passed s.store.ram s.store.oldestIndex k = pages at hscan
  obtain ⟨hvalid, hframe, -⟩ := hram.swap hslot hv hnot
  have htv : r.tableIndex ≠ v := fun heq => by rw [heq, hvalid] at hnot; cases hnot
  -- clearing bits touches nothing else
  have hfields : ∀ p, s.pageTable.clearRefs pages p =
      { s.pageTable p with ref := (s.pageTable.clearRefs pages p).ref } := by
    intro p
    unfold PageTable.clearRefs
    split <;> rfl
  have hnew : s.pageTable.clearRefs pages r.tableIndex = .new := by
    rw [PageTable.clearRefs_of_notMem, htable.clean _ hnot]
    rw [← hpassed]
    intro hmem
    obtain ⟨i, -, hget⟩ := List.mem_filterMap.mp hmem
    rw [hlen] at hget
    obtain ⟨p, hp, hpv, -⟩ := hram.slot _ (Nat.mod_lt (s.store.oldestIndex + i) (by omega))
    rw [Option.some.inj (hp.symm.trans hget), hnot] at hpv
    cases hpv
  have hlt : (s.store.oldestIndex + k) % n < s.store.ram.length := by omega
  have hchoose : clock.choose s.pageTable s.store = some (v, s.pageTable.clearRefs pages,
      { s.store with oldestIndex := (s.store.oldestIndex + k) % n }) := by
    simp [clock, hscan, hlen, Nat.lt_succ_of_le hk]
  have hreplace : clock.replace r.tableIndex (s.pageTable.clearRefs pages v).frame
      { s.store with oldestIndex := (s.store.oldestIndex + k) % n } =
        some { ram := s.store.ram.set ((s.store.oldestIndex + k) % n) r.tableIndex
               oldestIndex := advance s.store.ram ((s.store.oldestIndex + k) % n) } := by
    simp [clock, store?_eq_some hlt]
  obtain ⟨s', hbody, hpt, hstore, hk', hf', hw'⟩ :=
    Algorithm.body_of_choose hnot hfull htv hchoose hreplace
  have hdirty : (s.pageTable.clearRefs pages v).dirty = (s.pageTable v).dirty := by
    rw [hfields v]
  rw [hdirty] at hbody hw'
  refine ⟨k, v, s', hbody, ⟨hk, hset, hv, hstop, hpassed ▸ hscan, ?_, ?_, ?_, ?_, ?_⟩,
    hk', hf', hw'⟩
  · intro p hp hpv
    rw [hpt, PageTable.swap_of_ne hp hpv, hpassed]
    simp [hp]
  · rw [hpt, PageTable.swap_victim]
    simp [htv.symm, PageTableEntry.new]
  · rw [hpt, PageTable.swap_target htv, hnew, hfields v, hframe]
    simp [PageTableEntry.new]
  · rw [hstore]
    rfl
  · rw [hstore]
    have hpos : 0 < s.store.ram.length := by omega
    have hadvance := advance_mod hpos ((s.store.oldestIndex + k) % n)
    rw [hlen, Nat.mod_mod] at hadvance
    exact hadvance

/-- The bits of the resident pages and the place of the hand can be anything. -/
theorem State.withHand_sound {n : ℕ} {s : State Clock} (hand : ℕ) (ref : Page → Bool)
    (htable : s.pageTable.WellFormed n) (hram : Indexed n s.store.ram s.pageTable n) :
    (s.withHand hand ref).pageTable.WellFormed n ∧
      Indexed n (s.withHand hand ref).store.ram (s.withHand hand ref).pageTable n ∧
      ∀ p, ((s.withHand hand ref).pageTable p).valid = (s.pageTable p).valid := by
  have hvalid : ∀ p, ((s.withHand hand ref).pageTable p).valid = (s.pageTable p).valid := by
    intro p
    unfold withHand
    dsimp only
    split <;> rfl
  have hframe : ∀ p, ((s.withHand hand ref).pageTable p).frame = (s.pageTable p).frame := by
    intro p
    unfold withHand
    dsimp only
    split <;> rfl
  refine ⟨htable.congr hvalid hframe fun p hp => ?_, hram.congr hvalid hframe, hvalid⟩
  simp [withHand, hp]

/-- **The second-chance scan**: in every state of `clock` with a full memory that a
run reaches, with the hand wherever and the bits of the resident pages however they
are, a fault ends the scan, and does what `SecondChance` says. -/
theorem second_chance (n : ℕ) (hn : 1 ≤ n) (trace : List Reference) (s : State Clock)
    (es : List Event) (hreach : clock.loop n (clockStart n) trace = some (s, es))
    (hfull : s.pageSoFar = n) (hand : ℕ) (hhand : hand < n) (ref : Page → Bool) (r : Reference)
    (hfault : (s.pageTable r.tableIndex).valid = false) :
    ∃ k v d s', clock.body n (s.withHand hand ref) r = some (s', .evict v d) ∧
      SecondChance n (s.withHand hand ref) r k v s' := by
  have hstart : Sound n _ (trace ++ []) (clockStart n) := clockStart_sound hn
  obtain ⟨s₁, es₁, hloop, hs, -⟩ := clock_lawful.loop hstart
  obtain ⟨rfl, -⟩ : s = s₁ ∧ es = es₁ := by simpa using hreach.symm.trans hloop
  have htable := hs.table
  have hram := hs.link.1
  rw [hfull] at htable hram
  obtain ⟨htable', hram', hvalid⟩ := State.withHand_sound hand ref htable hram
  obtain ⟨k, v, s', hbody, hchance, -⟩ := clock_evict hn htable' hram' hhand (le_of_eq hfull.symm)
    (by rw [hvalid, hfault])
  exact ⟨k, v, _, s', hbody, hchance⟩

/-- Three frames, with the hand at the last one. Its bit and that of the first are set, the
bit of the second is clear: the scan clears two bits, around the end of the array. -/
theorem second_chance_three_frames :
    let ref : Page → Bool := fun p => p ≠ Reference.tableIndex ⟨.L, 2048⟩
    ∃ s es, clock.loop 3 (clockStart 3) [⟨.L, 0⟩, ⟨.L, 2048⟩, ⟨.S, 4096⟩] = some (s, es) ∧
      ∃ k v d s', clock.body 3 (s.withHand 2 ref) ⟨.L, 6144⟩ = some (s', .evict v d) ∧
        SecondChance 3 (s.withHand 2 ref) ⟨.L, 6144⟩ k v s' :=
  ⟨_, _, rfl, second_chance 3 (by decide) [⟨.L, 0⟩, ⟨.L, 2048⟩, ⟨.S, 4096⟩] _ _ rfl rfl 2 (by decide)
    _ _ (by decide)⟩

/-! ## clock without hits -/

/-- The two runs agree on everything but the reference bits and their own data. -/
structure Agree (s : State (List Page)) (c : State Clock) : Prop where
  /-- the same pages are resident -/
  valid : ∀ p, (c.pageTable p).valid = (s.pageTable p).valid
  /-- in the same frames -/
  frame : ∀ p, (c.pageTable p).frame = (s.pageTable p).frame
  /-- and the same ones are dirty -/
  dirty : ∀ p, (c.pageTable p).dirty = (s.pageTable p).dirty
  /-- as many page faults -/
  pageFault : c.pageFault = s.pageFault
  /-- as many pages written back -/
  writeToDisk : c.writeToDisk = s.writeToDisk

/-- `clock` holds the queue of `fifo` in its array, with the hand at the head. The
hand sweeps the array: it clears all bits when it is at slot `0`, and leaves pages
with the bit set behind it. -/
structure Sweeps (n : ℕ) (s : State (List Page)) (c : State Clock) : Prop where
  /-- the tables and the counters agree -/
  agree : Agree s c
  /-- as many frames in use -/
  pageSoFar : c.pageSoFar = s.pageSoFar
  /-- the array is indexed by frame and the hand is on a slot -/
  sound : ∀ σ, Sound n (fun _ d pt k => Indexed n d.ram pt k ∧ d.oldestIndex < n) σ c
  /-- the first one, until the memory is full -/
  rest : c.pageSoFar < n → c.store.oldestIndex = 0
  /-- the queue begins under the hand -/
  queue : s.store = (c.store.ram.take c.pageSoFar).drop c.store.oldestIndex ++
    (c.store.ram.take c.pageSoFar).take c.store.oldestIndex
  /-- the bits behind the hand are set; all of them are when it is at slot `0` -/
  ref : ∀ i < c.pageSoFar, ∀ p, c.store.ram[i]? = some p →
    (c.pageTable p).ref = decide (c.store.oldestIndex = 0 ∨ i < c.store.oldestIndex)

/-- The two algorithms start alike. -/
theorem Sweeps.start {n : ℕ} (hn : 1 ≤ n) : Sweeps n fifoStart (clockStart n) where
  agree := ⟨fun _ => rfl, fun _ => rfl, fun _ => rfl, rfl, rfl⟩
  pageSoFar := rfl
  sound _ := clockStart_sound hn
  rest _ := rfl
  queue := rfl
  ref i hi := absurd hi (Nat.not_lt_zero i)

namespace Sweeps

variable {n : ℕ} {s : State (List Page)} {c : State Clock} {r : Reference}

theorem table (h : Sweeps n s c) : c.pageTable.WellFormed c.pageSoFar := (h.sound []).table

theorem indexed (h : Sweeps n s c) : Indexed n c.store.ram c.pageTable c.pageSoFar :=
  (h.sound []).link.1

theorem hand (h : Sweeps n s c) : c.store.oldestIndex < n := (h.sound []).link.2

/-- A turn of `clock` keeps what every run of it keeps. -/
theorem sound_body {c' : State Clock} {e : Event} (h : Sweeps n s c)
    (hbody : clock.body n c r = some (c', e)) (σ : List Reference) :
    Sound n (fun _ d pt k => Indexed n d.ram pt k ∧ d.oldestIndex < n) σ c' := by
  obtain ⟨c'', e', hbody', hs, -⟩ := clock_lawful.body (h.sound (r :: σ))
  obtain ⟨rfl, -⟩ : c' = c'' ∧ e = e' := by simpa using hbody.symm.trans hbody'
  exact hs

/-- A fault in a memory that is not full: both take the next frame. -/
theorem fill (h : Sweeps n s c) (hnot : (s.pageTable r.tableIndex).valid = false)
    (hfree : s.pageSoFar < n) :
    ∃ s' c', fifo.body n s r = some (s', .noEviction) ∧
      clock.body n c r = some (c', .noEviction) ∧ Sweeps n s' c' := by
  have hfree' : c.pageSoFar < n := h.pageSoFar ▸ hfree
  have hnot' : (c.pageTable r.tableIndex).valid = false := by rw [h.agree.valid, hnot]
  have hlt : c.pageSoFar < c.store.ram.length := h.indexed.length ▸ hfree'
  have hhand := h.rest hfree'
  have hfill : clock.fill r.tableIndex c.pageSoFar c.store =
      some { c.store with ram := c.store.ram.set c.pageSoFar r.tableIndex } := by
    simp [clock, store?_eq_some hlt]
  obtain ⟨s', hbody, hpt, hstore, hk, hf, hw⟩ := Algorithm.body_of_fill hnot hfree
    (show fifo.fill r.tableIndex s.pageSoFar s.store = some (s.store ++ [r.tableIndex]) from rfl)
  obtain ⟨c', hbody', hpt', hstore', hk', hf', hw'⟩ :=
    Algorithm.body_of_fill hnot' hfree' hfill
  have hram : c'.store.ram = c.store.ram.set c.pageSoFar r.tableIndex := by rw [hstore']; rfl
  have hhand' : c'.store.oldestIndex = 0 := by rw [hstore', ← hhand]; rfl
  have hentry : ∀ p, (c'.pageTable p).valid = (s'.pageTable p).valid ∧
      (c'.pageTable p).frame = (s'.pageTable p).frame ∧
      (c'.pageTable p).dirty = (s'.pageTable p).dirty := by
    intro p
    rw [hpt, hpt', h.pageSoFar]
    by_cases hp : p = r.tableIndex
    · simp [hp, h.agree.dirty]
    · simp [PageTable.load_of_ne hp, h.agree.valid, h.agree.frame, h.agree.dirty]
  refine ⟨s', c', hbody, hbody', ⟨fun p => (hentry p).1, fun p => (hentry p).2.1,
    fun p => (hentry p).2.2, ?_, ?_⟩, ?_, h.sound_body hbody', fun _ => hhand', ?_, ?_⟩
  · rw [hf, hf', h.agree.pageFault]
  · rw [hw, hw', h.agree.writeToDisk]
  · rw [hk, hk', h.pageSoFar]
  · rw [hstore, hram, hhand', hk', h.queue, hhand, List.take_zero, List.take_zero, List.drop_zero,
      List.drop_zero, List.append_nil, List.append_nil, List.take_add_one, List.take_set_of_le le_rfl,
      List.getElem?_set_self hlt]
    rfl
  · intro i hi p hp
    rw [hram] at hp
    rw [hhand', hpt']
    by_cases hik : i = c.pageSoFar
    · subst hik
      rw [List.getElem?_set_self hlt] at hp
      obtain rfl := Option.some.inj hp
      simp [h.table.clean _ hnot', PageTableEntry.new]
    · rw [List.getElem?_set_ne (Ne.symm hik)] at hp
      obtain ⟨q, hq, hqv, -⟩ := h.indexed.slot i (by omega)
      obtain rfl : p = q := Option.some.inj (hp.symm.trans hq)
      have hpr : p ≠ r.tableIndex := fun heq => by rw [← heq, hqv] at hnot'; cases hnot'
      have href := h.ref i (by omega) p hp
      rw [hhand] at href
      simp [PageTable.load_of_ne hpr, href]

/-- The page under the hand is the one evicted: its bit is clear, or all bits are
set and the scan comes back to it. -/
theorem victim {k : ℕ} {v : Page} {c' : State Clock} (h : Sweeps n s c) (hfull : c.pageSoFar = n)
    (hchance : SecondChance n c r k v c') :
    (c.store.oldestIndex + k) % n = c.store.oldestIndex ∧
      (c.store.oldestIndex = 0 ∧ k = n ∨ 0 < c.store.oldestIndex ∧ k = 0) := by
  have hhand := h.hand
  have href := h.ref
  have hvictim := hchance.victim
  rcases Nat.eq_zero_or_pos c.store.oldestIndex with hzero | hpos
  · rw [hzero, Nat.zero_add] at hvictim ⊢
    have hk : k = n := by
      refine Nat.le_antisymm hchance.turns (Nat.le_of_not_lt fun hlt => ?_)
      rw [Nat.mod_eq_of_lt hlt] at hvictim
      have hset := href k (by omega) v hvictim
      rw [hchance.stops hlt, hzero] at hset
      simp at hset
    exact ⟨hk ▸ Nat.mod_self n, Or.inl ⟨rfl, hk⟩⟩
  · have hk : k = 0 := by
      refine Nat.eq_zero_of_not_pos fun hlt => ?_
      obtain ⟨p, hp, hset⟩ := hchance.set 0 hlt
      rw [Nat.add_zero, Nat.mod_eq_of_lt hhand] at hp
      have hclear := href c.store.oldestIndex (by omega) p hp
      rw [hset] at hclear
      simp at hclear
      omega
    exact ⟨by rw [hk, Nat.add_zero, Nat.mod_eq_of_lt hhand], Or.inr ⟨hpos, hk⟩⟩

/-- The slot behind `hand`, around the end. -/
theorem next_slot {hand : ℕ} (h : hand < n) :
    hand + 1 < n ∧ (hand + 1) % n = hand + 1 ∨ hand + 1 = n ∧ (hand + 1) % n = 0 := by
  rcases Nat.lt_or_ge (hand + 1) n with hlt | hge
  · exact Or.inl ⟨hlt, Nat.mod_eq_of_lt hlt⟩
  · have heq : hand + 1 = n := by omega
    exact Or.inr ⟨heq, by rw [heq, Nat.mod_self]⟩

/-- Read from the slot behind `hand` on, an array ends with what was stored at `hand`. -/
theorem read_from_next {ram : List Page} {hand : ℕ} (hlen : ram.length = n) (hhand : hand < n)
    (t : Page) :
    (ram.set hand t).drop ((hand + 1) % n) ++ (ram.set hand t).take ((hand + 1) % n) =
      ram.drop (hand + 1) ++ ram.take hand ++ [t] := by
  have hlt : hand < ram.length := by omega
  rcases next_slot hhand with ⟨-, hnext⟩ | ⟨heq, hnext⟩
  · rw [hnext, List.drop_set_of_lt (Nat.lt_succ_self _), List.take_add_one,
      List.take_set_of_le le_rfl, List.getElem?_set_self hlt, ← List.append_assoc]
    rfl
  · rw [hnext, List.drop_zero, List.take_zero, List.append_nil,
      List.set_eq_take_append_cons_drop, if_pos hlt, heq, ← hlen, List.drop_length]
    rfl

/-- The bits after an eviction: all of them were cleared, or none was. -/
theorem ref_evict {k : ℕ} {v : Page} {c' : State Clock} (h : Sweeps n s c)
    (hfull : c.pageSoFar = n) (hnot : (c.pageTable r.tableIndex).valid = false)
    (hchance : SecondChance n c r k v c') :
    ∀ i < n, ∀ p, c'.store.ram[i]? = some p →
      (c'.pageTable p).ref = decide (c'.store.oldestIndex = 0 ∨ i < c'.store.oldestIndex) := by
  have hindexed := h.indexed
  have hlen : c.store.ram.length = n := h.indexed.length
  rw [hfull] at hindexed
  have hhand := h.hand
  obtain ⟨hslot, hturns⟩ := h.victim hfull hchance
  have hvictim := hchance.victim
  have hram := hchance.ram
  have hhand' := hchance.hand
  rw [hslot] at hvictim hram hhand'
  obtain ⟨-, hvframe, -⟩ := hindexed.swap hhand hvictim hnot
  have hnext := next_slot hhand
  rw [← hhand'] at hnext
  intro i hi p hp
  rw [hram] at hp
  by_cases hih : i = c.store.oldestIndex
  · subst hih
    rw [List.getElem?_set_self (by omega), Option.some.injEq] at hp
    rw [← hp, hchance.loaded]
    symm
    rw [decide_eq_true_iff]
    omega
  · rw [List.getElem?_set_ne (Ne.symm hih)] at hp
    obtain ⟨q, hq, hqv, hqf⟩ := hindexed.slot i hi
    obtain rfl : p = q := Option.some.inj (hp.symm.trans hq)
    have hpr : p ≠ r.tableIndex := fun heq => by rw [← heq, hqv] at hnot; cases hnot
    have hpv : p ≠ v := fun heq => by rw [heq, hvframe] at hqf; omega
    rw [hchance.others p hpr hpv]
    rcases hturns with ⟨hzero, hk⟩ | ⟨hpos, hk⟩
    · -- every bit was cleared
      have hmem : p ∈ passed c.store.ram c.store.oldestIndex k := by
        refine List.mem_filterMap.mpr ⟨i, List.mem_range.mpr (by omega), ?_⟩
        rw [hzero, Nat.zero_add, hlen, Nat.mod_eq_of_lt hi, hp]
      rw [PageTable.clearRefs, if_pos hmem]
      symm
      rw [decide_eq_false_iff_not]
      omega
    · -- no bit was
      rw [hk, passed_zero, PageTable.clearRefs_nil, h.ref i (by omega) p hp, decide_eq_decide]
      omega

/-- A fault in a full memory: both evict the page loaded first. -/
theorem evict (h : Sweeps n s c) (hn : 1 ≤ n) (hnot : (s.pageTable r.tableIndex).valid = false)
    (hfull : n ≤ s.pageSoFar) :
    ∃ s' c' v d, fifo.body n s r = some (s', .evict v d) ∧
      clock.body n c r = some (c', .evict v d) ∧ Sweeps n s' c' := by
  have hnot' : (c.pageTable r.tableIndex).valid = false := by rw [h.agree.valid, hnot]
  have hfull' : c.pageSoFar = n := Nat.le_antisymm (h.sound []).bound (h.pageSoFar ▸ hfull)
  have htable := h.table
  have hindexed := h.indexed
  have hqueue := h.queue
  have hlen : c.store.ram.length = n := h.indexed.length
  rw [hfull'] at htable hindexed hqueue
  rw [List.take_of_length_le (le_of_eq hlen)] at hqueue
  have hhand := h.hand
  obtain ⟨k, v, c', hbody', hchance, hk', hf', hw'⟩ :=
    clock_evict hn htable hindexed hhand (le_of_eq hfull'.symm) hnot'
  obtain ⟨hslot, -⟩ := h.victim hfull' hchance
  have hvictim := hchance.victim
  have hram := hchance.ram
  have hhand' := hchance.hand
  have hloaded := hchance.loaded
  rw [hslot] at hvictim hram hhand' hloaded
  have hlt : c.store.oldestIndex < c.store.ram.length := by omega
  obtain ⟨hv, hvframe, -⟩ := hindexed.swap hhand hvictim hnot'
  have htv : r.tableIndex ≠ v := fun heq => by rw [heq, hv] at hnot'; cases hnot'
  -- the head of the queue
  have hhead : c.store.ram[c.store.oldestIndex] = v := by
    rwa [List.getElem?_eq_getElem hlt, Option.some.injEq] at hvictim
  rw [List.drop_eq_getElem_cons hlt, hhead, List.cons_append] at hqueue
  have hchoose : fifo.choose s.pageTable s.store = some (v, s.pageTable,
      c.store.ram.drop (c.store.oldestIndex + 1) ++ c.store.ram.take c.store.oldestIndex) := by
    rw [hqueue]
    rfl
  obtain ⟨s', hbody, hpt, hstore, hk, hf, hw⟩ :=
    Algorithm.body_of_choose hnot hfull htv hchoose rfl
  rw [← h.agree.dirty v] at hbody hw
  -- what the scan leaves of the other entries
  have hothers : ∀ p, p ≠ r.tableIndex → p ≠ v → (c'.pageTable p).valid = (c.pageTable p).valid ∧
      (c'.pageTable p).frame = (c.pageTable p).frame ∧
      (c'.pageTable p).dirty = (c.pageTable p).dirty := by
    intro p hp hpv
    rw [hchance.others p hp hpv, PageTable.clearRefs]
    split <;> exact ⟨rfl, rfl, rfl⟩
  have hentry : ∀ p, (c'.pageTable p).valid = (s'.pageTable p).valid ∧
      (c'.pageTable p).frame = (s'.pageTable p).frame ∧
      (c'.pageTable p).dirty = (s'.pageTable p).dirty := by
    intro p
    rw [hpt]
    by_cases hp : p = r.tableIndex
    · subst hp
      rw [hloaded]
      simp [PageTable.swap_target htv, ← h.agree.frame, hvframe, ← h.agree.dirty,
        htable.clean _ hnot', PageTableEntry.new]
    by_cases hpv : p = v
    · subst hpv
      rw [hchance.evicted]
      simp [PageTableEntry.new, hp]
    · obtain ⟨hvalid, hframe, hdirty⟩ := hothers p hp hpv
      rw [hvalid, hframe, hdirty]
      simp [PageTable.swap_of_ne hp hpv, h.agree.valid, h.agree.frame, h.agree.dirty, hp]
  have hagree : Agree s' c' := ⟨fun p => (hentry p).1, fun p => (hentry p).2.1,
    fun p => (hentry p).2.2, by rw [hf, hf', h.agree.pageFault],
    by rw [hw, hw', h.agree.writeToDisk]⟩
  refine ⟨s', c', v, _, hbody, hbody', hagree, by rw [hk, hk', h.pageSoFar], h.sound_body hbody',
    fun hlt => ?_, ?_, ?_⟩
  · rw [hk', hfull'] at hlt
    exact absurd hlt (Nat.lt_irrefl n)
  · -- the page evicted was in the slot that the new page has
    have hlen' : (c.store.ram.set c.store.oldestIndex r.tableIndex).length = n := by simp [hlen]
    rw [hstore, hk', hfull', hram, List.take_of_length_le (le_of_eq hlen'), hhand',
      read_from_next hlen hhand]
    rfl
  · rw [hk', hfull']
    exact h.ref_evict hfull' hnot' hchance

end Sweeps

/-- A turn in which `fifo` does not report a hit. -/
theorem Sweeps.body {n : ℕ} {s s' : State (List Page)} {c : State Clock} {r : Reference}
    {e : Event} (h : Sweeps n s c) (hn : 1 ≤ n) (hbody : fifo.body n s r = some (s', e))
    (hhit : e ≠ .hit) : ∃ c', clock.body n c r = some (c', e) ∧ Sweeps n s' c' := by
  by_cases hvalid : (s.pageTable r.tableIndex).valid = true
  · obtain ⟨-, rfl⟩ : _ ∧ Event.hit = e := by
      simpa [Algorithm.body, Algorithm.access, hvalid] using hbody
    exact absurd rfl hhit
  have hnot : (s.pageTable r.tableIndex).valid = false := by simpa using hvalid
  rcases Nat.lt_or_ge s.pageSoFar n with hfree | hfull
  · obtain ⟨s₁, c', hbody₁, hclock, hs⟩ := h.fill hnot hfree
    obtain ⟨rfl, rfl⟩ : s' = s₁ ∧ e = _ := by simpa using hbody.symm.trans hbody₁
    exact ⟨c', hclock, hs⟩
  · obtain ⟨s₁, c', v, d, hbody₁, hclock, hs⟩ := h.evict hn hnot hfull
    obtain ⟨rfl, rfl⟩ : s' = s₁ ∧ e = _ := by simpa using hbody.symm.trans hbody₁
    exact ⟨c', hclock, hs⟩

/-- A run of `fifo` without hits is one of `clock`. -/
theorem Sweeps.loop {n : ℕ} (hn : 1 ≤ n) {trace : List Reference} :
    ∀ {s s' : State (List Page)} {c : State Clock} {es : List Event}, Sweeps n s c →
      fifo.loop n s trace = some (s', es) → Event.hit ∉ es →
        ∃ c', clock.loop n c trace = some (c', es) ∧ Sweeps n s' c' := by
  induction trace with
  | nil =>
    intro s s' c es h hloop _
    obtain ⟨rfl, rfl⟩ : s = s' ∧ [] = es := by simpa [Algorithm.loop] using hloop
    exact ⟨c, rfl, h⟩
  | cons r trace ih =>
    intro s s' c es h hloop hhit
    obtain ⟨s₁, e, es', rfl, hbody, hrest⟩ := Algorithm.loop_cons hloop
    rw [List.mem_cons, not_or] at hhit
    obtain ⟨c₁, hclock, hs⟩ := h.body hn hbody (Ne.symm hhit.1)
    obtain ⟨c', hclocks, hs'⟩ := ih hs hrest hhit.2
    exact ⟨c', by simp [Algorithm.loop, hclock, hclocks], hs'⟩

/-- **Without hits `clock` is `fifo`**: for every number of frames and every trace
on which `fifo` reports no hit, `clock` reports the same events, the evicted pages
among them, and after every reference the same pages are in the same frames and the
counters are the same. -/
theorem clock_matches_fifo (numFrames : ℕ) (hn : 1 ≤ numFrames) (trace : List Reference) :
    ∃ sFifo es, fifo.loop numFrames fifoStart trace = some (sFifo, es) ∧
      (Event.hit ∉ es →
        ∃ sClock, clock.loop numFrames (clockStart numFrames) trace = some (sClock, es) ∧
          Agree sFifo sClock ∧
          ∀ k, ∃ s c, fifo.loop numFrames fifoStart (trace.take k) = some (s, es.take k) ∧
            clock.loop numFrames (clockStart numFrames) (trace.take k) = some (c, es.take k) ∧
            Agree s c) := by
  have hstart : Sound numFrames _ (trace ++ []) fifoStart := fifoStart_sound
  obtain ⟨sFifo, es, hloop, -, -⟩ := (fifo_lawful hn).loop hstart
  refine ⟨sFifo, es, hloop, fun hhit => ?_⟩
  obtain ⟨sClock, hclock, hs⟩ := Sweeps.loop hn (.start hn) hloop hhit
  refine ⟨sClock, hclock, hs.agree, fun k => ?_⟩
  obtain ⟨s, hfirst, -⟩ := Algorithm.loop_split hloop k
  obtain ⟨c, hclock', hs'⟩ := Sweeps.loop hn (.start hn) hfirst
    fun hmem => hhit (List.mem_of_mem_take hmem)
  exact ⟨s, c, hfirst, hclock', hs'.agree⟩

/-- Three pages through two frames, with a store that is written back. -/
theorem clock_matches_fifo_two_frames :
    ∃ es sClock, clock.loop 2 (clockStart 2) [⟨.S, 0⟩, ⟨.L, 2048⟩, ⟨.L, 4096⟩, ⟨.L, 0⟩] =
        some (sClock, es) ∧
      es = [.noEviction, .noEviction, .evict (Reference.tableIndex ⟨.L, 0⟩) true,
        .evict (Reference.tableIndex ⟨.L, 2048⟩) false] := by
  obtain ⟨sFifo, es, hloop, hmatch⟩ :=
    clock_matches_fifo 2 (by decide) [⟨.S, 0⟩, ⟨.L, 2048⟩, ⟨.L, 4096⟩, ⟨.L, 0⟩]
  have hes : es = [.noEviction, .noEviction, .evict (Reference.tableIndex ⟨.L, 0⟩) true,
      .evict (Reference.tableIndex ⟨.L, 2048⟩) false] := by
    have hrun : (fifo.loop 2 fifoStart [⟨.S, 0⟩, ⟨.L, 2048⟩, ⟨.L, 4096⟩, ⟨.L, 0⟩]).map Prod.snd =
        some [.noEviction, .noEviction, .evict (Reference.tableIndex ⟨.L, 0⟩) true,
          .evict (Reference.tableIndex ⟨.L, 2048⟩) false] := by decide +kernel
    rw [hloop] at hrun
    exact Option.some.inj hrun
  obtain ⟨sClock, hclock, -⟩ := hmatch (by rw [hes]; simp)
  exact ⟨es, sClock, hclock, hes⟩

end Csc452.Vmsim
