import Csc452.Residency

/-!
# fifo, clock and rand are lawful

`fifo` keeps its resident pages in a queue (`Queued`); the other algorithms keep
them in an array indexed by frame (`Indexed`), and the array lemmas here serve
`opt` as well. The second-chance scan of `clock` needs one thing more: it has to
end. It does, because its turns clear the bits of slot after slot and so come
back to a cleared one after at most `ram.length` of them.
-/

namespace Csc452.Vmsim

open DemandPaging (anyVictim)

/-! ## The queue -/

/-- The queue holds exactly the resident pages, each once. -/
structure Queued (ram : List Page) (pt : PageTable) : Prop where
  /-- each once -/
  nodup : ram.Nodup
  /-- exactly the resident pages -/
  mem_iff : ∀ p, p ∈ ram ↔ (pt p).valid = true

/-- `fifo` evicts the head of its queue. -/
theorem fifo_lawful {numFrames : ℕ} (hn : 1 ≤ numFrames) :
    Lawful fifo numFrames anyVictim fun _ ram pt _ => Queued ram pt where
  hit_ref _ := rfl
  congr h hvalid _ := ⟨h.nodup, fun p => by rw [h.mem_iff, hvalid]⟩
  hit h _ := h
  fill {r σ ram pt k} h _ hnot _ := by
    have hnew : r.tableIndex ∉ ram := fun hmem => by
      rw [(h.mem_iff _).mp hmem] at hnot
      cases hnot
    refine ⟨ram ++ [r.tableIndex], rfl, ?_, ?_⟩
    · exact List.nodup_append.mpr ⟨h.nodup, List.nodup_singleton _,
        fun a ha b hb heq => hnew (List.mem_singleton.mp hb ▸ heq ▸ ha)⟩
    · intro p
      by_cases hp : p = r.tableIndex
      · subst hp
        simp [fifo]
      · simp [fifo, hp, PageTable.load_of_ne hp, h.mem_iff]
  evict {r σ ram pt} h hwf hnot := by
    obtain ⟨v, rest, rfl⟩ : ∃ v rest, ram = v :: rest := by
      obtain ⟨p, hp⟩ := Finset.card_pos.mp (Nat.lt_of_lt_of_eq hn hwf.card.symm)
      have hmem := (h.mem_iff p).mpr (PageTable.mem_resident.mp hp)
      cases ram with
      | nil => cases hmem
      | cons v rest => exact ⟨v, rest, rfl⟩
    have hv : (pt v).valid = true := (h.mem_iff v).mp List.mem_cons_self
    have htv : r.tableIndex ≠ v := fun heq => by rw [heq, hv] at hnot; cases hnot
    have hnodup := List.nodup_cons.mp h.nodup
    have hnew : r.tableIndex ∉ rest := fun hmem => by
      rw [(h.mem_iff _).mp (List.mem_cons_of_mem _ hmem)] at hnot
      cases hnot
    refine ⟨v, pt, rest, rest ++ [r.tableIndex], rfl, hv, .refl pt, rfl, ⟨?_, ?_⟩, trivial⟩
    · exact List.nodup_append.mpr ⟨hnodup.2, List.nodup_singleton _,
        fun a ha b hb heq => hnew (List.mem_singleton.mp hb ▸ heq ▸ ha)⟩
    · intro p
      by_cases hpt : p = r.tableIndex
      · subst hpt
        simp [fifo, PageTable.swap_target htv]
      · by_cases hpv : p = v
        · subst hpv
          simp [fifo, hnodup.1, hpt, PageTableEntry.new]
        · have hiff := h.mem_iff p
          rw [List.mem_cons, or_iff_right hpv] at hiff
          simp [fifo, hpt, PageTable.swap_of_ne hpt hpv, hiff]

/-! ## The array of frames -/

/-- The first `k` slots of `ram` hold the resident pages, each in the slot of
its frame. -/
structure Indexed (numFrames : ℕ) (ram : List Page) (pt : PageTable) (k : ℕ) : Prop where
  /-- one slot for each frame -/
  length : ram.length = numFrames
  /-- a slot in use holds a resident page, whose frame it is -/
  slot : ∀ i, i < k → ∃ p, ram[i]? = some p ∧ (pt p).valid = true ∧ (pt p).frame = i
  /-- a resident page is in the slot of its frame -/
  page : ∀ p, (pt p).valid = true → ∃ i, i < k ∧ (pt p).frame = i ∧ ram[i]? = some p

theorem store?_eq_some {ram : List Page} {i : ℕ} {t : Page} (h : i < ram.length) :
    store? ram i t = some (ram.set i t) :=
  if_pos h

namespace Indexed

variable {numFrames k : ℕ} {ram : List Page} {pt : PageTable}

theorem init (numFrames : ℕ) : Indexed numFrames (newRam numFrames) PageTable.init 0 where
  length := by simp [newRam]
  slot i hi := absurd hi (Nat.not_lt_zero i)
  page p hp := by simp [PageTable.init, PageTableEntry.new] at hp

theorem congr {pt' : PageTable} (h : Indexed numFrames ram pt k)
    (hvalid : ∀ p, (pt' p).valid = (pt p).valid) (hframe : ∀ p, (pt' p).frame = (pt p).frame) :
    Indexed numFrames ram pt' k where
  length := h.length
  slot i hi := by
    obtain ⟨p, hp, hv, hf⟩ := h.slot i hi
    exact ⟨p, hp, by rw [hvalid, hv], by rw [hframe, hf]⟩
  page p hp := by
    rw [hframe]
    exact h.page p (hvalid p ▸ hp)

/-- `ram[pageSoFar] = tableIndex`. -/
theorem load {t : Page} (h : Indexed numFrames ram pt k) (hk : k < numFrames)
    (ht : (pt t).valid = false) : Indexed numFrames (ram.set k t) (pt.load t k) (k + 1) where
  length := by rw [List.length_set, h.length]
  slot i hi := by
    by_cases hik : i = k
    · subst hik
      exact ⟨t, List.getElem?_set_self (h.length ▸ hk), by simp, by simp⟩
    · obtain ⟨p, hp, hv, hf⟩ := h.slot i (by omega)
      have hpt : p ≠ t := fun heq => by rw [← heq, hv] at ht; cases ht
      refine ⟨p, ?_, ?_, ?_⟩
      · rw [List.getElem?_set_ne (Ne.symm hik), hp]
      · rw [PageTable.load_of_ne hpt, hv]
      · rw [PageTable.load_of_ne hpt, hf]
  page p hp := by
    by_cases hpt : p = t
    · subst hpt
      exact ⟨k, Nat.lt_succ_self k, by simp, List.getElem?_set_self (h.length ▸ hk)⟩
    · rw [PageTable.load_of_ne hpt] at hp ⊢
      obtain ⟨i, hi, hf, hget⟩ := h.page p hp
      exact ⟨i, by omega, hf, by rw [List.getElem?_set_ne (by omega), hget]⟩

/-- The page in slot `i` is replaced, and its frame is the slot. -/
theorem swap {t v : Page} {i : ℕ} (h : Indexed numFrames ram pt k) (hik : i < k)
    (hget : ram[i]? = some v) (ht : (pt t).valid = false) :
    (pt v).valid = true ∧ (pt v).frame = i ∧
      Indexed numFrames (ram.set i t) (pt.swap t v) k := by
  obtain ⟨v', hget', hv, hf⟩ := h.slot i hik
  obtain rfl : v = v' := Option.some.inj (hget.symm.trans hget')
  have hilt : i < ram.length := (List.getElem?_eq_some_iff.mp hget).1
  have htv : t ≠ v := fun heq => by rw [heq, hv] at ht; cases ht
  refine ⟨hv, hf, ?_, ?_, ?_⟩
  · rw [List.length_set, h.length]
  · intro j hj
    by_cases hji : j = i
    · subst hji
      exact ⟨t, List.getElem?_set_self hilt, by simp [PageTable.swap_target htv],
        by simp [PageTable.swap_target htv, hf]⟩
    · obtain ⟨p, hp, hpv, hpf⟩ := h.slot j hj
      have hpt : p ≠ t := fun heq => by rw [← heq, hpv] at ht; cases ht
      have hne : p ≠ v := fun heq => by rw [heq, hf] at hpf; omega
      refine ⟨p, ?_, ?_, ?_⟩
      · rw [List.getElem?_set_ne (Ne.symm hji), hp]
      · rw [PageTable.swap_of_ne hpt hne, hpv]
      · rw [PageTable.swap_of_ne hpt hne, hpf]
  · intro p hp
    by_cases hpt : p = t
    · subst hpt
      exact ⟨i, hik, by simp [PageTable.swap_target htv, hf], List.getElem?_set_self hilt⟩
    · by_cases hpv : p = v
      · subst hpv
        simp [PageTableEntry.new] at hp
      · rw [PageTable.swap_of_ne hpt hpv] at hp ⊢
        obtain ⟨j, hj, hpf, hpget⟩ := h.page p hp
        have hji : j ≠ i := fun heq => by
          subst heq
          rw [hget] at hpget
          exact hpv (Option.some.inj hpget).symm
        exact ⟨j, hj, hpf, by rw [List.getElem?_set_ne (Ne.symm hji), hpget]⟩

/-- The slots in use hold the resident pages, each once. -/
theorem mem_take_iff (h : Indexed numFrames ram pt k) {p : Page} :
    p ∈ ram.take k ↔ (pt p).valid = true := by
  rw [List.mem_iff_getElem?]
  constructor
  · rintro ⟨i, hi⟩
    rw [List.getElem?_take] at hi
    split at hi
    · rename_i hik
      obtain ⟨q, hq, hv, -⟩ := h.slot i hik
      obtain rfl : p = q := Option.some.inj (hi.symm.trans hq)
      exact hv
    · cases hi
  · intro hp
    obtain ⟨i, hik, -, hget⟩ := h.page p hp
    exact ⟨i, by rw [List.getElem?_take, if_pos hik, hget]⟩

theorem nodup_take (h : Indexed numFrames ram pt k) : (ram.take k).Nodup := by
  rw [List.nodup_iff_getElem?_ne_getElem?]
  intro i j hij hj heq
  have hjk : j < k := by
    rw [List.length_take] at hj
    omega
  rw [List.getElem?_take, if_pos (by omega), List.getElem?_take, if_pos hjk] at heq
  obtain ⟨p, hp, -, hpf⟩ := h.slot i (by omega)
  obtain ⟨q, hq, -, hqf⟩ := h.slot j hjk
  obtain rfl : p = q := Option.some.inj (hp.symm.trans (heq.trans hq))
  omega

/-- A slot in use, read in a full memory. -/
theorem getElem?_full (h : Indexed numFrames ram pt numFrames) {i : ℕ} (hi : i < numFrames) :
    ∃ v, ram[i]? = some v ∧ (pt v).valid = true := by
  obtain ⟨v, hget, hv, -⟩ := h.slot i hi
  exact ⟨v, hget, hv⟩

end Indexed

/-! ## rand -/

/-- `rand` evicts the page in the slot drawn. -/
theorem rand_lawful {numFrames : ℕ} (hn : 1 ≤ numFrames) :
    Lawful rand numFrames anyVictim fun _ g pt k => Indexed numFrames g.ram pt k where
  hit_ref _ := rfl
  congr h := h.congr
  hit h _ := h
  fill {r σ g pt k} h _ hnot hk := by
    have hlt : k < g.ram.length := h.length ▸ hk
    exact ⟨{ g with ram := g.ram.set k r.tableIndex }, by simp [rand, store?_eq_some hlt],
      h.load hk hnot⟩
  evict {r σ g pt} h _ hnot := by
    have hslot : g.random 0 % g.ram.length < numFrames := by
      rw [h.length]
      exact Nat.mod_lt _ hn
    obtain ⟨v, hget, -⟩ := h.getElem?_full hslot
    obtain ⟨hv, -, hswap⟩ := h.swap hslot hget hnot
    have hlt : g.random 0 % g.ram.length < g.ram.length := (List.getElem?_eq_some_iff.mp hget).1
    refine ⟨v, pt,
      { g with
        random := fun i => g.random (i + 1), memoryToEvict := g.random 0 % g.ram.length },
      { ram := g.ram.set (g.random 0 % g.ram.length) r.tableIndex,
        random := fun i => g.random (i + 1), memoryToEvict := g.random 0 % g.ram.length },
      by simp [rand, hget], hv, .refl pt, ?_, hswap, trivial⟩
    simp only [rand, store?_eq_some hlt, Option.bind_eq_bind, Option.bind_some]

/-! ## clock -/

theorem advance_lt {ram : List Page} (hpos : 0 < ram.length) (i : ℕ) :
    advance ram i < ram.length := by
  unfold advance
  split <;> omega

/-- The slots the scan reaches from the hand `i` in `j` turns. -/
theorem advance_iterate {ram : List Page} {i : ℕ} (hi : i < ram.length) (j : ℕ) :
    (advance ram)^[j] i = (i + j) % ram.length := by
  induction j with
  | zero => exact (Nat.mod_eq_of_lt hi).symm
  | succ j ih =>
    have hlt : (i + j) % ram.length < ram.length := Nat.mod_lt _ (by omega)
    rw [Function.iterate_succ_apply', ih, advance, ← Nat.add_assoc,
      ← Nat.mod_add_mod (i + j) ram.length 1]
    split
    · rw [show (i + j) % ram.length + 1 = ram.length by omega, Nat.mod_self]
    · exact (Nat.mod_eq_of_lt (by omega)).symm

/-- The scan of `clock` in a full memory: when it succeeds, with the hand on the
page it evicts, only reference bits of resident pages have changed. -/
theorem secondChance_spec {numFrames : ℕ} {ram : List Page} :
    ∀ {fuel : ℕ} {pt pt' : PageTable} {i j : ℕ} {v : Page},
      Indexed numFrames ram pt numFrames →
      secondChance ram fuel pt i = some (v, pt', j) →
        pt.SameButRef pt' ∧ j < numFrames ∧ ram[j]? = some v ∧ (pt v).valid = true := by
  intro fuel
  induction fuel with
  | zero =>
    intro pt pt' i j v _ h
    cases h
  | succ fuel ih =>
    intro pt pt' i j v hram h
    rw [secondChance] at h
    rcases hget : ram[i]? with _ | u
    · rw [hget] at h
      cases h
    · have hi : i < numFrames := hram.length ▸ (List.getElem?_eq_some_iff.mp hget).1
      obtain ⟨u', hget', hu⟩ := hram.getElem?_full hi
      obtain rfl : u = u' := Option.some.inj (hget.symm.trans hget')
      simp only [hget, Option.bind_eq_bind, Option.bind_some] at h
      split at h
      · -- the page gets its second chance
        have hsame := PageTable.SameButRef.update hu false
        obtain ⟨hsame', hj, hgetj, hvalid⟩ := ih (hram.congr hsame.valid hsame.frame) h
        exact ⟨hsame.trans hsame', hj, hgetj, by rw [← hsame.valid, hvalid]⟩
      · obtain ⟨rfl, rfl, rfl⟩ : u = v ∧ pt = pt' ∧ i = j := by simpa using h
        exact ⟨.refl pt, hi, hget, hu⟩

/-- The scan ends: a slot whose page has its bit clear is met within the fuel. -/
theorem secondChance_isSome {ram : List Page} :
    ∀ {fuel : ℕ} {pt : PageTable} {i : ℕ}, i < ram.length →
      (∃ j < fuel, ∃ p, ram[(advance ram)^[j] i]? = some p ∧ (pt p).ref = false) →
        (secondChance ram fuel pt i).isSome := by
  intro fuel
  induction fuel with
  | zero =>
    rintro pt i _ ⟨j, hj, _⟩
    exact absurd hj (Nat.not_lt_zero j)
  | succ fuel ih =>
    rintro pt i hi ⟨j, hj, p, hget, href⟩
    obtain ⟨u, hu⟩ : ∃ u, ram[i]? = some u := ⟨ram[i], List.getElem?_eq_getElem hi⟩
    rw [secondChance]
    simp only [hu, Option.bind_eq_bind, Option.bind_some]
    split
    · rename_i hset
      refine ih (advance_lt (by omega) i) ?_
      cases j with
      | zero =>
        obtain rfl : u = p := Option.some.inj (hu.symm.trans hget)
        rw [hset] at href
        cases href
      | succ j =>
        rw [Function.iterate_succ_apply] at hget
        refine ⟨j, Nat.lt_of_succ_lt_succ hj, p, hget, ?_⟩
        by_cases hpu : p = u
        · subst hpu
          simp
        · simp [hpu, href]
    · rfl

/-- Clearing the bit of the page under the hand makes the slot one the scan
stops at, a full round later: one turn more than there are slots suffices. -/
theorem secondChance_succeeds {ram : List Page} {i : ℕ} (hi : i < ram.length) (pt : PageTable) :
    (secondChance ram (ram.length + 1) pt i).isSome := by
  obtain ⟨u, hu⟩ : ∃ u, ram[i]? = some u := ⟨ram[i], List.getElem?_eq_getElem hi⟩
  rw [secondChance]
  simp only [hu, Option.bind_eq_bind, Option.bind_some]
  split
  · refine secondChance_isSome (advance_lt (by omega) i) ⟨ram.length - 1, by omega, u, ?_, ?_⟩
    · rw [← Function.iterate_succ_apply, advance_iterate hi,
        show i + (ram.length - 1).succ = i + ram.length by omega, Nat.add_mod_right,
        Nat.mod_eq_of_lt hi, hu]
    · simp
  · rfl

/-- `clock` evicts the page its scan stops at. -/
theorem clock_lawful {numFrames : ℕ} :
    Lawful clock numFrames anyVictim fun _ c pt k =>
      Indexed numFrames c.ram pt k ∧ c.oldestIndex < numFrames where
  hit_ref _ := rfl
  congr h hvalid hframe := ⟨h.1.congr hvalid hframe, h.2⟩
  hit h _ := h
  fill {r σ c pt k} h _ hnot hk := by
    have hlt : k < c.ram.length := h.1.length ▸ hk
    exact ⟨{ c with ram := c.ram.set k r.tableIndex }, by simp [clock, store?_eq_some hlt],
      h.1.load hk hnot, h.2⟩
  evict {r σ c pt} h _ hnot := by
    obtain ⟨hram, hhand⟩ := h
    rw [← hram.length] at hhand
    obtain ⟨⟨v, pt', j⟩, hscan⟩ := Option.isSome_iff_exists.mp (secondChance_succeeds hhand pt)
    obtain ⟨hsame, hj, hget, hv⟩ := secondChance_spec hram hscan
    obtain ⟨-, -, hswap⟩ := hram.swap hj hget hnot
    have hlt : j < c.ram.length := hram.length ▸ hj
    refine ⟨v, pt', { c with oldestIndex := j },
      { ram := c.ram.set j r.tableIndex, oldestIndex := advance c.ram j }, by simp [clock, hscan],
      hv, hsame, by simp [clock, store?_eq_some hlt], ⟨hswap, ?_⟩, trivial⟩
    exact hram.length ▸ advance_lt (by omega) j

end Csc452.Vmsim
