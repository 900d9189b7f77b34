import Mathlib.Data.Finset.Card
import Mathlib.Data.List.Basic
import Mathlib.Tactic.Tauto

/-!
# Demand paging over arbitrary pages

The general theory the page replacement results rest on; nothing here knows a
page table or a trace file. Three layers:

* `Serves ok n C σ k` — a manager of `n` frames, holding the set `C`, can serve
  the references `σ` with exactly `k` faults. A demand manager only loads the
  page it was asked for, loads it into a free frame while there is one, and
  otherwise drops one page that `ok` allows it to drop.
* `Farthest` — the choice rule of the clairvoyant manager: drop a page whose
  next reference is at least as late as that of every page held. A page that is
  never referenced again has `List.idxOf` equal to the length of what remains,
  so "never" is late without a case of its own.
* `Serves.exchange` — two full memories that differ in one page cost about the
  same, and the debt is only owed when the page one of them misses comes first.
  `Serves.farthest_le` (optimality) is an induction that uses nothing else.

A manager with more frames can go on holding what one with fewer frames holds
(`Serves.more_frames`).
-/

namespace DemandPaging

universe u

variable {α : Type u} [DecidableEq α]

/-- `Serves ok n C σ k`: from the memory `C`, a demand manager of `n` frames
serves the references `σ` with `k` faults. The victim of a fault in a full
memory has to satisfy `ok`, which sees the references still to come. -/
inductive Serves (ok : List α → Finset α → α → Prop) (n : ℕ) :
    Finset α → List α → ℕ → Prop where
  /-- nothing left to serve -/
  | nil (C : Finset α) : Serves ok n C [] 0
  /-- the page is resident -/
  | hit {C : Finset α} {p : α} {σ : List α} {k : ℕ} :
      p ∈ C → Serves ok n C σ k → Serves ok n C (p :: σ) k
  /-- the page is not resident and a frame is free -/
  | fill {C : Finset α} {p : α} {σ : List α} {k : ℕ} :
      p ∉ C → C.card < n → Serves ok n (insert p C) σ k → Serves ok n C (p :: σ) (k + 1)
  /-- the page is not resident and every frame is taken -/
  | evict {C : Finset α} {p v : α} {σ : List α} {k : ℕ} :
      p ∉ C → C.card = n → v ∈ C → ok σ C v →
        Serves ok n (insert p (C.erase v)) σ k → Serves ok n C (p :: σ) (k + 1)

/-- Any resident page may be dropped. -/
def anyVictim (_ : List α) (_ : Finset α) (_ : α) : Prop := True

/-- The clairvoyant choice: no resident page is referenced later than `v`. -/
def Farthest (σ : List α) (C : Finset α) (v : α) : Prop :=
  ∀ u ∈ C, σ.idxOf u ≤ σ.idxOf v

variable {ok : List α → Finset α → α → Prop} {n k : ℕ} {C : Finset α} {σ : List α}

/-! ## The exchange argument -/

/-- What a memory holding `z` in place of `y` may save: one fault, and only
when `z` is referenced before `y`. -/
def debt (σ : List α) (z y : α) : ℕ := if σ.idxOf z < σ.idxOf y then 1 else 0

theorem debt_le_one (σ : List α) (z y : α) : debt σ z y ≤ 1 := by
  unfold debt
  split <;> omega

theorem debt_cons_self {z y : α} (hzy : z ≠ y) : debt (z :: σ) z y = 1 := by
  simp [debt, List.idxOf_cons_ne σ hzy]

theorem debt_cons_of_ne {p z y : α} (hz : p ≠ z) (hy : p ≠ y) :
    debt (p :: σ) z y = debt σ z y := by
  simp [debt, List.idxOf_cons_ne σ hz, List.idxOf_cons_ne σ hy]

/-- A farthest page owes nothing to any other resident page. -/
theorem Farthest.debt_eq_zero {v u : α} (h : Farthest σ C v) (hu : u ∈ C) : debt σ v u = 0 :=
  if_neg (Nat.not_lt.mpr (h u hu))

omit [DecidableEq α] in
private theorem ne_of_mem_of_notMem {C : Finset α} {p z : α} (hp : p ∈ C) (hz : z ∉ C) : p ≠ z :=
  fun h => hz (h ▸ hp)

private theorem erase_insert_comm {C : Finset α} {v z : α} (hz : z ∉ C) (hv : v ∈ C) :
    (insert z C).erase v = insert z (C.erase v) :=
  Finset.erase_insert_of_ne (ne_of_mem_of_notMem hv hz).symm

private theorem card_swap {C : Finset α} {p v : α} (hp : p ∉ C) (hv : v ∈ C) :
    (insert p (C.erase v)).card = C.card := by
  rw [Finset.card_insert_of_notMem fun h => hp (Finset.mem_of_mem_erase h),
    Finset.card_erase_add_one hv]

/-- **Exchange.** Let two full memories share `C` and differ in one page, `z`
against `y`. Whatever the first can do with `k` faults, the second can do with
`k` faults plus the debt for missing `z`. Induction on the references: the
memories become equal when `z` is asked for or dropped, and differ in another
page when `y` is asked for. -/
theorem Serves.exchange (σ : List α) : ∀ {C : Finset α} {z y : α} {k : ℕ},
    z ∉ C → y ∉ C → z ≠ y → (insert z C).card = n →
      Serves anyVictim n (insert z C) σ k →
        ∃ k', Serves anyVictim n (insert y C) σ k' ∧ k' ≤ k + debt σ z y := by
  induction σ with
  | nil =>
    intro C z y k _ _ _ _ h
    cases h
    exact ⟨0, .nil _, Nat.zero_le _⟩
  | cons p σ ih =>
    intro C z y k hz hy hzy hfull h
    have hfull' : (insert y C).card = n := by
      rw [Finset.card_insert_of_notMem hy, ← hfull, Finset.card_insert_of_notMem hz]
    by_cases hpz : p = z
    · -- the second memory pays its debt here and becomes the first
      subst hpz
      have hmiss : p ∉ insert y C := by simp [hzy, hz]
      cases h with
      | hit _ h =>
        refine ⟨k + 1, .evict hmiss hfull' (Finset.mem_insert_self y C) trivial ?_, ?_⟩
        · rwa [Finset.erase_insert hy]
        · rw [debt_cons_self hzy]
      | fill hp _ _ => exact absurd (Finset.mem_insert_self p C) hp
      | evict hp _ _ _ _ => exact absurd (Finset.mem_insert_self p C) hp
    by_cases hpC : p ∈ C
    · -- both memories hold the page
      have hpy : p ≠ y := ne_of_mem_of_notMem hpC hy
      have hmem : p ∈ insert z C := Finset.mem_insert_of_mem hpC
      rw [debt_cons_of_ne hpz hpy]
      cases h with
      | hit _ h =>
        obtain ⟨k', h', hle⟩ := ih hz hy hzy hfull h
        exact ⟨k', .hit (Finset.mem_insert_of_mem hpC) h', hle⟩
      | fill hp _ _ => exact absurd hmem hp
      | evict hp _ _ _ _ => exact absurd hmem hp
    have hmiss : p ∉ insert z C := by simp [hpz, hpC]
    cases h with
    | hit hp _ => exact absurd hp hmiss
    | fill _ hlt _ => omega
    | @evict _ _ v _ k _ _ hv _ h =>
      by_cases hpy : p = y
      · -- only the second memory holds the page: it is one fault ahead
        subst hpy
        rcases Finset.mem_insert.mp hv with hvz | hvC
        · subst hvz
          rw [Finset.erase_insert hz] at h
          exact ⟨k, .hit (Finset.mem_insert_self p C) h, by omega⟩
        · rw [erase_insert_comm hz hvC, Finset.insert_comm] at h
          have hpe : p ∉ C.erase v := fun hmem => hpC (Finset.mem_of_mem_erase hmem)
          have hzv : z ≠ v := (ne_of_mem_of_notMem hvC hz).symm
          have hze : z ∉ insert p (C.erase v) := by simp [hzy, hz]
          have hve : v ∉ insert p (C.erase v) := by simp [ne_of_mem_of_notMem hvC hpC]
          have hcard : (insert z (insert p (C.erase v))).card = n := by
            rw [Finset.card_insert_of_notMem hze, card_swap hpC hvC, ← hfull,
              Finset.card_insert_of_notMem hz]
          obtain ⟨k', h', hle⟩ := ih hze hve hzv hcard h
          rw [Finset.insert_comm, Finset.insert_erase hvC] at h'
          have := debt_le_one σ z v
          exact ⟨k', .hit (Finset.mem_insert_self p C) h', by omega⟩
      · -- neither memory holds the page
        have hmiss' : p ∉ insert y C := by simp [hpy, hpC]
        rw [debt_cons_of_ne hpz hpy]
        rcases Finset.mem_insert.mp hv with hvz | hvC
        · subst hvz
          rw [Finset.erase_insert hz] at h
          refine ⟨k + 1, .evict hmiss' hfull' (Finset.mem_insert_self y C) trivial ?_, by omega⟩
          rwa [Finset.erase_insert hy]
        · rw [erase_insert_comm hz hvC, Finset.insert_comm] at h
          have hze : z ∉ insert p (C.erase v) := by simp [Ne.symm hpz, hz]
          have hye : y ∉ insert p (C.erase v) := by simp [Ne.symm hpy, hy]
          have hcard : (insert z (insert p (C.erase v))).card = n := by
            rw [Finset.card_insert_of_notMem hze, card_swap hpC hvC, ← hfull,
              Finset.card_insert_of_notMem hz]
          obtain ⟨k', h', hle⟩ := ih hze hye hzy hcard h
          refine ⟨k' + 1, .evict hmiss' hfull' (Finset.mem_insert_of_mem hvC) trivial ?_,
            by omega⟩
          rwa [erase_insert_comm hy hvC, Finset.insert_comm]

/-- After a fault in a full memory, having dropped a farthest page is no worse
than having dropped any other. -/
theorem Serves.replace_farthest {p v f : α} (hp : p ∉ C) (hfull : C.card = n) (hv : v ∈ C)
    (hf : f ∈ C) (hfar : Farthest σ C f)
    (h : Serves anyVictim n (insert p (C.erase v)) σ k) :
    ∃ k', Serves anyVictim n (insert p (C.erase f)) σ k' ∧ k' ≤ k := by
  by_cases hvf : v = f
  · subst hvf
    exact ⟨k, h, le_refl k⟩
  have hfe : f ∈ C.erase v := Finset.mem_erase.mpr ⟨Ne.symm hvf, hf⟩
  have hve : v ∈ C.erase f := Finset.mem_erase.mpr ⟨hvf, hv⟩
  have hpf : f ≠ p := ne_of_mem_of_notMem hf hp
  have hpv : v ≠ p := ne_of_mem_of_notMem hv hp
  -- the part both memories share
  have hD : insert f (insert p ((C.erase v).erase f)) = insert p (C.erase v) := by
    rw [Finset.insert_comm, Finset.insert_erase hfe]
  have hD' : insert v (insert p ((C.erase v).erase f)) = insert p (C.erase f) := by
    rw [Finset.insert_comm, Finset.erase_right_comm, Finset.insert_erase hve]
  have hfD : f ∉ insert p ((C.erase v).erase f) := by simp [hpf]
  have hvD : v ∉ insert p ((C.erase v).erase f) := by simp [hpv]
  rw [← hD] at h
  have hcard : (insert f (insert p ((C.erase v).erase f))).card = n := by
    rw [hD, card_swap hp hv, hfull]
  obtain ⟨k', h', hle⟩ := Serves.exchange σ hfD hvD (Ne.symm hvf) hcard h
  rw [hD'] at h'
  rw [hfar.debt_eq_zero hv] at hle
  exact ⟨k', h', hle⟩

/-- **Optimality of the clairvoyant choice.** Whatever a demand manager does, a
manager that always drops a farthest page serves the same references from the
same memory with no more faults. -/
theorem Serves.farthest_le {k k' : ℕ} (hopt : Serves Farthest n C σ k)
    (h : Serves anyVictim n C σ k') : k ≤ k' := by
  induction hopt generalizing k' with
  | nil C => exact Nat.zero_le _
  | hit hp _ ih =>
    cases h with
    | hit _ h => exact ih h
    | fill hp' _ _ => exact absurd hp hp'
    | evict hp' _ _ _ _ => exact absurd hp hp'
  | fill hp hlt _ ih =>
    cases h with
    | hit hp' _ => exact absurd hp' hp
    | fill _ _ h => exact Nat.succ_le_succ (ih h)
    | evict _ hfull _ _ _ => omega
  | evict hp hfull hf hfar _ ih =>
    cases h with
    | hit hp' _ => exact absurd hp' hp
    | fill _ hlt _ => omega
    | evict _ _ hv _ h =>
      obtain ⟨k'', h', hle⟩ := h.replace_farthest hp hfull hv hf hfar
      have := ih h'
      omega

/-! ## More frames -/

/-- A reference to a page, by a manager that is to hold `D` and the page
afterwards: it has the page, or a free frame, or a page to drop that is not in
`D`. -/
theorem Serves.refer {p : α} {C D : Finset α} (hD : D ⊆ C) (hcard : D.card < n)
    (hle : C.card ≤ n)
    (h : ∀ C', insert p D ⊆ C' → C'.card ≤ n → ∃ k' ≤ k, Serves anyVictim n C' σ k') :
    ∃ k' ≤ k + 1, Serves anyVictim n C (p :: σ) k' := by
  by_cases hp : p ∈ C
  · obtain ⟨k', hk', h⟩ := h C (Finset.insert_subset hp hD) hle
    exact ⟨k', Nat.le_succ_of_le hk', .hit hp h⟩
  rcases lt_or_eq_of_le hle with hlt | hfull
  · obtain ⟨k', hk', h⟩ := h (insert p C) (Finset.insert_subset_insert p hD)
      ((Finset.card_insert_of_notMem hp).trans_le hlt)
    exact ⟨k' + 1, Nat.succ_le_succ hk', .fill hp hlt h⟩
  · obtain ⟨w, hw, hwD⟩ := Finset.exists_mem_notMem_of_card_lt_card (hfull ▸ hcard)
    have hsub : insert p D ⊆ insert p (C.erase w) :=
      Finset.insert_subset_insert p fun x hx =>
        Finset.mem_erase.mpr ⟨ne_of_mem_of_notMem hx hwD, hD hx⟩
    obtain ⟨k', hk', h⟩ := h _ hsub ((card_swap hp hw).trans_le hle)
    exact ⟨k' + 1, Nat.succ_le_succ hk', .evict hp hfull hw trivial h⟩

/-- **More frames.** Whatever a demand manager does, one with more frames that
holds what the first one holds can serve the same references with no more faults,
and hold that all the time. -/
theorem Serves.more_frames {n' : ℕ} {C' : Finset α} (hn : n ≤ n') (h : Serves ok n C σ k)
    (hcard : C.card ≤ n) (hsub : C ⊆ C') (hle : C'.card ≤ n') :
    ∃ k' ≤ k, Serves anyVictim n' C' σ k' := by
  induction h generalizing C' with
  | nil C => exact ⟨0, le_refl 0, .nil C'⟩
  | hit hp _ ih =>
    obtain ⟨k', hk', h⟩ := ih hcard hsub hle
    exact ⟨k', hk', .hit (hsub hp) h⟩
  | fill hp hlt _ ih =>
    have hcard' := (Finset.card_insert_of_notMem hp).trans_le hlt
    exact Serves.refer hsub (hlt.trans_le hn) hle fun C'' hsub' hle' => ih hcard' hsub' hle'
  | @evict C p v σ k hp hfull hv _ _ ih =>
    have hcard' := ((card_swap hp hv).trans hfull).le
    have hlt : (C.erase v).card < n' := by
      rw [Finset.card_erase_of_mem hv]
      have := Finset.card_pos.mpr ⟨v, hv⟩
      omega
    exact Serves.refer ((Finset.erase_subset v C).trans hsub) hlt hle
      fun C'' hsub' hle' => ih hcard' hsub' hle'

end DemandPaging
