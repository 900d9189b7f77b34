import Csc452.FrameArray
import Mathlib.Data.List.TakeWhile

/-!
# opt evicts a farthest page

`opt` keeps, for every page, the set of the commands that reference it, and
prunes a set only when its scan comes across it. What makes the pruned sets
good enough is `Upcoming`: from the current command on, the sets say exactly
which page each command references. So the first element left after pruning is
the next reference, and an empty set means there is none (`Upcoming.idxOf_cons`,
`Upcoming.idxOf_nil`).

The scan can break on a set that is empty before it prunes anything, without
choosing a page. That never happens: a set becomes empty only in a scan, which
then evicts its page, and a page with nothing left to come is not loaded again
(`OptLink.nonempty`).
-/

namespace Csc452.Vmsim

open DemandPaging (Farthest)

/-! ## Occurrence sets -/

/-- Command `i` is recorded as a reference to page `p`. -/
def Occurs (m : PageMap) (p : Page) (i : ℕ) : Prop := ∃ occ, m p = some occ ∧ i ∈ occ.elems

/-- From command `c` on, the recorded references are the pages `ps`. -/
def Upcoming (c : ℕ) (ps : List Page) (m : PageMap) : Prop :=
  ∀ p i, c ≤ i → (Occurs m p i ↔ ps[i - c]? = some p)

theorem TreeSet.mem_prune {c i : ℕ} {occ : TreeSet} (h : c < i) :
    i ∈ (occ.prune c).elems ↔ i ∈ occ.elems := by
  constructor
  · exact fun hi => (List.dropWhile_sublist _).subset hi
  · intro hi
    rw [← List.takeWhile_append_dropWhile (p := fun o => decide (o ≤ c)) (l := occ.elems),
      List.mem_append] at hi
    rcases hi with hi | hi
    · have := List.mem_takeWhile_imp hi
      simp at this
      omega
    · exact hi

/-- The first element that pruning leaves is the least one after `c`. -/
theorem TreeSet.prune_head {c o : ℕ} {rest : List ℕ} {occ : TreeSet}
    (h : (occ.prune c).elems = o :: rest) :
    c < o ∧ o ∈ occ.elems ∧ ∀ i ∈ occ.elems, c < i → o ≤ i := by
  have hc : c < o := by
    have hne : occ.elems.dropWhile (fun o => decide (o ≤ c)) ≠ [] := by
      change (occ.prune c).elems ≠ []
      rw [h]
      exact List.cons_ne_nil _ _
    have hhead := List.head_dropWhile_not (fun o => decide (o ≤ c)) hne
    have ho : (occ.elems.dropWhile fun o => decide (o ≤ c)).head hne = o := by
      change (occ.prune c).elems.head _ = o
      simp [h]
    rw [ho] at hhead
    simpa using hhead
  refine ⟨hc, (mem_prune hc).mp (h ▸ List.mem_cons_self), ?_⟩
  intro i hi hci
  have hsorted := (occ.prune c).sorted
  rw [h, List.pairwise_cons] at hsorted
  have hmem := (mem_prune hci).mpr hi
  rw [h] at hmem
  rcases List.mem_cons.mp hmem with hio | hio
  · omega
  · have := hsorted.1 i hio
    omega

namespace Upcoming

variable {c : ℕ} {ps : List Page} {m : PageMap} {p t : Page} {occ : TreeSet}

theorem tail (h : Upcoming c (t :: ps) m) : Upcoming (c + 1) ps m := by
  intro p i hi
  rw [h p i (by omega), show i - c = i - (c + 1) + 1 by omega, List.getElem?_cons_succ]

/-- The page of the current command has a set that is not empty. -/
theorem head (h : Upcoming c (t :: ps) m) : ∃ occ, m t = some occ ∧ occ.elems ≠ [] := by
  obtain ⟨occ, hocc, hmem⟩ := (h t c (le_refl c)).mpr (by simp)
  exact ⟨occ, hocc, List.ne_nil_of_mem hmem⟩

/-- Pruning does not lose what is still to come. -/
theorem prune (h : Upcoming (c + 1) ps m) (hocc : m p = some occ) :
    Upcoming (c + 1) ps (Function.update m p (some (occ.prune c))) := by
  intro q i hi
  rw [← h q i hi]
  by_cases hq : q = p
  · subst hq
    simp [Occurs, hocc, TreeSet.mem_prune (show c < i by omega)]
  · simp [Occurs, hq]

/-- A set that pruning empties: the page is not referenced again. -/
theorem idxOf_nil (h : Upcoming (c + 1) ps m) (hocc : m p = some occ)
    (hnil : (occ.prune c).elems = []) : ps.idxOf p = ps.length := by
  refine List.idxOf_eq_length fun hmem => ?_
  obtain ⟨j, hj⟩ := List.mem_iff_getElem?.mp hmem
  obtain ⟨occ', hocc', hi⟩ := (h p (c + 1 + j) (by omega)).mpr (by simpa using hj)
  obtain rfl : occ = occ' := Option.some.inj (hocc.symm.trans hocc')
  rw [← TreeSet.mem_prune (show c < c + 1 + j by omega), hnil] at hi
  cases hi

/-- The first element that pruning leaves: the next reference to the page. -/
theorem idxOf_cons (h : Upcoming (c + 1) ps m) (hocc : m p = some occ) {o : ℕ} {rest : List ℕ}
    (hcons : (occ.prune c).elems = o :: rest) : o = c + 1 + ps.idxOf p := by
  obtain ⟨hc, hmem, hleast⟩ := TreeSet.prune_head hcons
  have hget : ps[o - (c + 1)]? = some p := (h p o (by omega)).mp ⟨occ, hocc, hmem⟩
  obtain ⟨hlt, hget⟩ := List.getElem?_eq_some_iff.mp hget
  have hle : ps.idxOf p ≤ o - (c + 1) := by
    by_contra hgt
    have hne := List.not_of_lt_findIdx (Nat.lt_of_not_le hgt)
    simp [hget] at hne
  have hidx : ps.idxOf p < ps.length := by omega
  -- the first occurrence is recorded as well, so it is not before `o`
  obtain ⟨occ', hocc', hi⟩ := (h p (c + 1 + ps.idxOf p) (by omega)).mpr (by
    rw [show c + 1 + ps.idxOf p - (c + 1) = ps.idxOf p by omega,
      List.getElem?_eq_getElem hidx, List.getElem_idxOf hidx])
  obtain rfl : occ = occ' := Option.some.inj (hocc.symm.trans hocc')
  have := hleast _ hi (by omega)
  omega

end Upcoming

/-- What the first pass records. -/
theorem occurs_readTrace {trace : List Reference} : ∀ {c : ℕ} {m : PageMap} {p : Page} {i : ℕ},
    Occurs (readTrace c m trace) p i ↔
      Occurs m p i ∨ (c ≤ i ∧ (trace.map Reference.tableIndex)[i - c]? = some p) := by
  induction trace with
  | nil => simp [readTrace]
  | cons r trace ih =>
    intro c m p i
    rw [readTrace, ih]
    have hadd : Occurs (Function.update m r.tableIndex
        (some (((m r.tableIndex).getD .empty).add c))) p i ↔
          Occurs m p i ∨ (p = r.tableIndex ∧ i = c) := by
      by_cases hp : p = r.tableIndex
      · subst hp
        rcases hm : m r.tableIndex with _ | occ
        · simp [Occurs, hm, TreeSet.add, TreeSet.mem_addTo, TreeSet.empty]
        · simp [Occurs, hm, TreeSet.add, TreeSet.mem_addTo, or_comm]
      · simp [Occurs, hp]
    rw [hadd, List.map_cons]
    rcases Nat.lt_trichotomy i c with hi | hi | hi
    · simp [Nat.ne_of_lt hi, Nat.not_le.mpr hi, show ¬ c + 1 ≤ i by omega]
    · subst hi
      simp [eq_comm]
    · rw [show i - c = i - (c + 1) + 1 by omega, List.getElem?_cons_succ]
      simp [Nat.ne_of_gt hi, show c + 1 ≤ i by omega, show c ≤ i by omega]

/-- The first pass records the trace. -/
theorem upcoming_readTrace (trace : List Reference) :
    Upcoming 1 (trace.map Reference.tableIndex) (readTrace 1 (fun _ => none) trace) := by
  intro p i hi
  rw [occurs_readTrace]
  simp [Occurs, hi]

/-! ## The scan -/

variable {c o : ℕ} {page : Page} {m : PageMap} {occ : TreeSet} {os : List ℕ} {far : Option Page}
  {maximum : ℤ}

/-- The scan stops at a page that does not occur again. -/
theorem findFarthest_last (hocc : m page = some occ) (hempty : occ.elems.isEmpty = false)
    (hprune : (occ.prune c).elems = []) (rest : List Page) (far : Option Page) (maximum : ℤ) :
    findFarthest c (page :: rest) m far maximum =
      some (Function.update m page (some (occ.prune c)), some page) := by
  rw [findFarthest]
  simp only [hocc, Option.bind_eq_bind, Option.bind_some, hempty, Bool.false_eq_true, if_false,
    hprune]

/-- It passes a page that does. -/
theorem findFarthest_cons (hocc : m page = some occ) (hempty : occ.elems.isEmpty = false)
    (hprune : (occ.prune c).elems = o :: os) (rest : List Page) (far : Option Page) (maximum : ℤ) :
    findFarthest c (page :: rest) m far maximum =
      findFarthest c rest (Function.update m page (some (occ.prune c)))
        (if maximum < o then some page else far) (if maximum < o then (o : ℤ) else maximum) := by
  rw [findFarthest]
  simp only [hocc, Option.bind_eq_bind, Option.bind_some, hempty, Bool.false_eq_true, if_false,
    hprune]
  split <;> rfl

/-- The accumulators after a page that occurs again: the better one of it and the best page
so far, and its next command. -/
theorem farther_of_cons {ps : List Page} (ho : o = c + 1 + ps.idxOf page)
    (hacc : (far = none ∧ maximum = -1) ∨
      ∃ g, far = some g ∧ maximum = ((c + 1 + ps.idxOf g : ℕ) : ℤ)) :
    ∃ g, (if maximum < o then some page else far) = some g ∧
      (if maximum < o then (o : ℤ) else maximum) = ((c + 1 + ps.idxOf g : ℕ) : ℤ) ∧
      (g = page ∨ far = some g) ∧ ps.idxOf page ≤ ps.idxOf g ∧
      ∀ g', far = some g' → ps.idxOf g' ≤ ps.idxOf g := by
  by_cases hmax : maximum < o
  · refine ⟨page, if_pos hmax, by rw [if_pos hmax, ho], .inl rfl, le_rfl, fun g' hg' => ?_⟩
    rcases hacc with ⟨hnone, -⟩ | ⟨g, hg, hmaximum⟩
    · rw [hnone] at hg'
      cases hg'
    · obtain rfl : g = g' := Option.some.inj (hg.symm.trans hg')
      omega
  · obtain ⟨g, rfl, hmaximum⟩ : ∃ g, far = some g ∧ maximum = ((c + 1 + ps.idxOf g : ℕ) : ℤ) := by
      rcases hacc with ⟨-, rfl⟩ | hacc
      · exact absurd (Int.negSucc_lt_zero 0 |>.trans_le (Int.natCast_nonneg o)) hmax
      · exact hacc
    refine ⟨g, if_neg hmax, by rw [if_neg hmax, hmaximum], .inr rfl, by omega, fun g' hg' => ?_⟩
    rw [Option.some.inj hg']

/-- **The scan finds a farthest page.** `f` is scanned and no scanned page comes
back later. The sets that changed were pruned, none but that of `f` became
empty, and those of pages not scanned are as before. The accumulators hold the
best page so far and its next command. -/
theorem findFarthest_spec {ps : List Page} :
    ∀ {pages : List Page} {m : PageMap} (far : Option Page) (maximum : ℤ),
      Upcoming (c + 1) ps m →
      (∀ p ∈ pages, ∃ occ, m p = some occ ∧ occ.elems ≠ []) →
      ((far = none ∧ maximum = -1 ∧ pages ≠ []) ∨
        ∃ g, far = some g ∧ maximum = ((c + 1 + ps.idxOf g : ℕ) : ℤ)) →
      ∃ m' f, findFarthest c pages m far maximum = some (m', some f) ∧
        (f ∈ pages ∨ far = some f) ∧ (∀ p ∈ pages, ps.idxOf p ≤ ps.idxOf f) ∧
        (∀ g, far = some g → ps.idxOf g ≤ ps.idxOf f) ∧ Upcoming (c + 1) ps m' ∧
        (∀ p, p ≠ f → (∃ occ, m p = some occ ∧ occ.elems ≠ []) →
          ∃ occ, m' p = some occ ∧ occ.elems ≠ []) ∧
        (∀ p, p ∉ pages → m' p = m p) := by
  intro pages
  induction pages with
  | nil =>
    intro m far maximum hup _ hacc
    rcases hacc with ⟨-, -, hne⟩ | ⟨g, rfl, -⟩
    · exact absurd rfl hne
    · refine ⟨m, g, rfl, Or.inr rfl, by simp, ?_, hup, fun _ _ h => h, fun _ _ => rfl⟩
      intro g' hg'
      rw [Option.some.inj hg']
  | cons page rest ih =>
    intro m far maximum hup hne hacc
    obtain ⟨occ, hocc, hocc0⟩ := hne page List.mem_cons_self
    have hup' := hup.prune hocc
    have hempty : occ.elems.isEmpty = false := List.isEmpty_eq_false_iff.mpr hocc0
    rcases hpr : (occ.prune c).elems with _ | ⟨o, os⟩
    · -- never referenced again: evict this page
      have hlast := hup.idxOf_nil hocc hpr
      refine ⟨_, page, findFarthest_last hocc hempty hpr rest far maximum,
        Or.inl List.mem_cons_self, ?_, ?_, hup', ?_, ?_⟩
      · exact fun p _ => hlast ▸ List.idxOf_le_length
      · exact fun g _ => hlast ▸ List.idxOf_le_length
      · intro p hp h
        simpa [hp] using h
      · intro p hp
        simp [List.ne_of_not_mem_cons hp]
    · -- after pruning, the set of every page still to scan is not empty either
      have hkeep : ∀ p, (∃ occ, m p = some occ ∧ occ.elems ≠ []) →
          ∃ occ', Function.update m page (some (occ.prune c)) p = some occ' ∧
            occ'.elems ≠ [] := by
        intro p h
        by_cases hp : p = page
        · subst hp
          exact ⟨occ.prune c, by simp, by simp [hpr]⟩
        · simpa [hp] using h
      obtain ⟨g, hfar, hmaximum, hg, hpage, hold⟩ := farther_of_cons
        (hup.idxOf_cons hocc hpr) (hacc.imp_left fun h => ⟨h.1, h.2.1⟩)
      rw [findFarthest_cons hocc hempty hpr, hfar, hmaximum]
      obtain ⟨m', f, hrun, hf, hall, hbest, hup'', hnonempty, hsame⟩ := ih (some g) _ hup'
        (fun p hp => hkeep p (hne p (List.mem_cons_of_mem _ hp))) (Or.inr ⟨g, rfl, rfl⟩)
      have hgf : ps.idxOf g ≤ ps.idxOf f := hbest g rfl
      refine ⟨m', f, hrun, ?_, ?_, fun g' hg' => (hold g' hg').trans hgf, hup'',
        fun p hp h => hnonempty p hp (hkeep p h), ?_⟩
      · rcases hf with hf | hf
        · exact Or.inl (List.mem_cons_of_mem _ hf)
        · obtain rfl := Option.some.inj hf
          exact hg.imp_left fun heq => List.mem_cons.mpr (.inl heq)
      · intro p hp
        rcases List.mem_cons.mp hp with rfl | hp
        · exact hpage.trans hgf
        · exact hall p hp
      · intro p hp
        rw [hsame p (List.not_mem_of_not_mem_cons hp)]
        simp [List.ne_of_not_mem_cons hp]

/-! ## opt is lawful -/

/-- The data of `opt` agree with the page table and with the references still to
come. -/
structure OptLink (numFrames : ℕ) (σ : List Reference) (o : Opt) (pt : PageTable) (k : ℕ) :
    Prop where
  /-- `ram` is indexed by frame -/
  indexed : Indexed numFrames o.ram pt k
  /-- the occurrence sets know what is to come -/
  upcoming : Upcoming o.commandNum (σ.map Reference.tableIndex) o.pageMap
  /-- no resident page has an empty set -/
  nonempty : ∀ p, (pt p).valid = true → ∃ occ, o.pageMap p = some occ ∧ occ.elems ≠ []

/-- The loop is sound when `opt` starts. -/
theorem optStart_link (numFrames : ℕ) (trace : List Reference) :
    OptLink numFrames trace (optStart numFrames trace).store PageTable.init 0 where
  indexed := .init numFrames
  upcoming := upcoming_readTrace trace
  nonempty p hp := by simp [PageTable.init, PageTableEntry.new] at hp

theorem storeFrame?_natCast {ram : List Page} {i : ℕ} {t : Page} (h : i < ram.length) :
    storeFrame? ram (i : ℤ) t = some (ram.set i t) :=
  store?_eq_some h

section scan

variable {numFrames : ℕ} {r : Reference} {σ : List Reference} {o : Opt} {pt : PageTable}

/-- In a full memory the scan goes over the resident pages. -/
theorem OptLink.mem_ram (h : OptLink numFrames σ o pt numFrames) {p : Page} :
    p ∈ o.ram ↔ (pt p).valid = true := by
  have hmem := h.indexed.mem_take_iff (p := p)
  rwa [List.take_of_length_le (le_of_eq h.indexed.length)] at hmem

/-- The scan finds a resident page that comes back no earlier than the others. -/
theorem OptLink.scan (h : OptLink numFrames (r :: σ) o pt numFrames) (hn : 1 ≤ numFrames) :
    ∃ m f, findFarthest o.commandNum o.ram o.pageMap none (-1) = some (m, some f) ∧
      (pt f).valid = true ∧
      (∀ p, (pt p).valid = true →
        (σ.map Reference.tableIndex).idxOf p ≤ (σ.map Reference.tableIndex).idxOf f) ∧
      Upcoming (o.commandNum + 1) (σ.map Reference.tableIndex) m ∧
      (∀ p, p ≠ f → (∃ occ, o.pageMap p = some occ ∧ occ.elems ≠ []) →
        ∃ occ, m p = some occ ∧ occ.elems ≠ []) ∧
      ∀ p, (pt p).valid = false → m p = o.pageMap p := by
  have hne : o.ram ≠ [] := fun hnil => by
    have := h.indexed.length
    rw [hnil] at this
    simp at this
    omega
  obtain ⟨m, f, hscan, hf, hfar, -, hup, hnonempty, hsame⟩ :=
    findFarthest_spec none (-1) h.upcoming.tail
      (fun p hp => h.nonempty p (h.mem_ram.mp hp)) (Or.inl ⟨rfl, rfl, hne⟩)
  have hfram : f ∈ o.ram := hf.resolve_right fun hnone => by cases hnone
  refine ⟨m, f, hscan, h.mem_ram.mp hfram, fun p hp => hfar p (h.mem_ram.mpr hp), hup, hnonempty,
    fun p hp => hsame p fun hmem => ?_⟩
  rw [h.mem_ram.mp hmem] at hp
  cases hp

end scan

/-- **`opt` evicts a farthest page.** -/
theorem opt_lawful {numFrames : ℕ} (hn : 1 ≤ numFrames) :
    Lawful opt numFrames Farthest (OptLink numFrames) where
  hit_ref _ := rfl
  congr h hvalid hframe :=
    ⟨h.indexed.congr hvalid hframe, h.upcoming, fun p hp => h.nonempty p (hvalid p ▸ hp)⟩
  hit h _ := ⟨h.indexed, h.upcoming.tail, h.nonempty⟩
  fill {r σ o pt k} h _ hnot hk := by
    have hlt : k < o.ram.length := h.indexed.length ▸ hk
    refine ⟨{ o with ram := o.ram.set k r.tableIndex }, by simp [opt, store?_eq_some hlt],
      h.indexed.load hk hnot, h.upcoming.tail, ?_⟩
    intro p hp
    by_cases hpt : p = r.tableIndex
    · subst hpt
      exact h.upcoming.head
    · rw [PageTable.load_of_ne hpt] at hp
      exact h.nonempty p hp
  evict {r σ o pt} h hwf hnot := by
    obtain ⟨m, f, hscan, hfv, hfar, hup, hnonempty, hsame⟩ := h.scan hn
    obtain ⟨i, hi, hframe, hget⟩ := h.indexed.page f hfv
    obtain ⟨-, -, hswap⟩ := h.indexed.swap hi hget hnot
    have hlt : i < o.ram.length := h.indexed.length ▸ hi
    refine ⟨f, pt, { o with pageMap := m }, { o with pageMap := m, ram := o.ram.set i r.tableIndex },
      by simp [opt, hscan], hfv, .refl pt, by simp [opt, hframe, storeFrame?_natCast hlt],
      ⟨hswap, hup, ?_⟩, fun p hp => hfar p (PageTable.mem_resident.mp hp)⟩
    intro p hp
    by_cases hpt : p = r.tableIndex
    · -- the page just loaded: the scan did not touch its set
      subst hpt
      change ∃ occ, m r.tableIndex = some occ ∧ occ.elems ≠ []
      rw [hsame _ hnot]
      exact h.upcoming.head
    · by_cases hpf : p = f
      · subst hpf
        simp [PageTableEntry.new] at hp
      · rw [PageTable.swap_of_ne hpt hpf] at hp
        exact hnonempty p hpf (h.nonempty p hp)

end Csc452.Vmsim
