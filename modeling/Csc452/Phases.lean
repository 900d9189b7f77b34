import Csc452.DemandPaging
import Mathlib.Tactic.Linarith
import Mathlib.Tactic.Ring

/-!
# Conservative managers and phases

How far an online manager can fall behind any other, over arbitrary pages; this
continues `DemandPaging`.

* `Conserves n seen C σ k` — a manager of `n` frames serves `σ` with `k` faults
  and drops a page only when every page in memory has been referenced since that
  page was loaded. `seen` keeps, for each page, what was referenced since its
  latest load.
* `Conserves.segment` — while at most `n` distinct pages are referenced, such a
  manager loads each of them at most once: a page loaded in the segment could be
  dropped only after `n` others, and then the page it is dropped for is one too
  many.
* `Serves.window` — whoever holds a page pays for all pages of a window it does
  not hold.
* `Conserves.competitive` — cut the references into phases of `n` distinct pages.
  The conservative manager pays at most `n` in each. Any manager of `h ≤ n`
  frames holds the first page of a phase and at most `h - 1` others, so that the
  `n` further pages up to the start of the next phase cost it `n + 1 - h`.
-/

namespace DemandPaging

universe u

variable {α : Type u} [DecidableEq α]

/-! ## Conservative managers -/

/-- What was referenced since each page was loaded, after a reference to `p`. -/
def remember (seen : α → Finset α) (p : α) : α → Finset α := fun x => insert p (seen x)

/-- The same after a reference that loads `p`. -/
def restart (seen : α → Finset α) (p : α) : α → Finset α :=
  Function.update (remember seen p) p {p}

theorem subset_remember (seen : α → Finset α) (p x : α) : seen x ⊆ remember seen p x :=
  Finset.subset_insert p (seen x)

theorem mem_remember (seen : α → Finset α) (p x : α) : p ∈ remember seen p x :=
  Finset.mem_insert_self p (seen x)

theorem restart_self (seen : α → Finset α) (p : α) : restart seen p p = {p} :=
  Function.update_self ..

theorem restart_of_ne {seen : α → Finset α} {p x : α} (h : x ≠ p) :
    restart seen p x = remember seen p x :=
  Function.update_of_ne h ..

theorem mem_restart (seen : α → Finset α) (p x : α) : p ∈ restart seen p x := by
  by_cases h : x = p
  · subst h
    rw [restart_self]
    exact Finset.mem_singleton_self x
  · rw [restart_of_ne h]
    exact mem_remember seen p x

/-- `Conserves n seen C σ k`: from the memory `C`, a demand manager of `n` frames
serves `σ` with `k` faults, and every page it drops has seen the whole memory
referenced since it was loaded. -/
inductive Conserves (n : ℕ) : (α → Finset α) → Finset α → List α → ℕ → Prop where
  /-- nothing left to serve -/
  | nil (seen : α → Finset α) (C : Finset α) : Conserves n seen C [] 0
  /-- the page is resident -/
  | hit {seen : α → Finset α} {C : Finset α} {p : α} {σ : List α} {k : ℕ} :
      p ∈ C → Conserves n (remember seen p) C σ k → Conserves n seen C (p :: σ) k
  /-- the page is not resident and a frame is free -/
  | fill {seen : α → Finset α} {C : Finset α} {p : α} {σ : List α} {k : ℕ} :
      p ∉ C → C.card < n → Conserves n (restart seen p) (insert p C) σ k →
        Conserves n seen C (p :: σ) (k + 1)
  /-- the page is not resident and every frame is taken -/
  | evict {seen : α → Finset α} {C : Finset α} {p v : α} {σ : List α} {k : ℕ} :
      p ∉ C → C.card = n → v ∈ C → C ⊆ seen v →
        Conserves n (restart seen p) (insert p (C.erase v)) σ k →
          Conserves n seen C (p :: σ) (k + 1)

variable {ok : List α → Finset α → α → Prop} {seen : α → Finset α} {n h k m : ℕ}
  {C F W : Finset α} {σ : List α} {p : α}

/-- The pages `F` loaded since a segment began, in which `W` was referenced. -/
structure Loaded (seen : α → Finset α) (C W F : Finset α) : Prop where
  /-- none of them has been dropped -/
  resident : F ⊆ C
  /-- each was referenced in the segment -/
  referenced : F ⊆ W
  /-- and saw nothing from before it -/
  seen : ∀ x ∈ F, seen x ⊆ W

omit [DecidableEq α] in
/-- A segment begins. -/
theorem Loaded.start (seen : α → Finset α) (C : Finset α) : Loaded seen C ∅ ∅ where
  resident := Finset.empty_subset C
  referenced := Finset.empty_subset ∅
  seen x hx := absurd hx (Finset.notMem_empty x)

theorem Loaded.hit (hF : Loaded seen C W F) (p : α) :
    Loaded (remember seen p) C (insert p W) F where
  resident := hF.resident
  referenced := hF.referenced.trans (Finset.subset_insert p W)
  seen x hx := Finset.insert_subset_insert p (hF.seen x hx)

/-- A load into a memory `C'` that has lost none of the pages of the segment. -/
theorem Loaded.load {C' : Finset α} (hF : Loaded seen C W F) (hp : p ∉ C) (hsub : F ⊆ C') :
    Loaded (restart seen p) (insert p C') (insert p W) (insert p F) where
  resident := Finset.insert_subset_insert p hsub
  referenced := Finset.insert_subset_insert p hF.referenced
  seen x hx := by
    rcases Finset.mem_insert.mp hx with rfl | hx
    · rw [restart_self]
      exact Finset.singleton_subset_iff.mpr (Finset.mem_insert_self x W)
    · have hne : x ≠ p := fun heq => hp (heq ▸ hF.resident hx)
      rw [restart_of_ne hne]
      exact Finset.insert_subset_insert p (hF.seen x hx)

/-- A page of the segment is not dropped while at most `n` pages are referenced
in it: it has seen the `n` pages in memory, and the page it would be dropped for
is another one. -/
theorem Loaded.not_dropped {v : α} (hF : Loaded seen C W F) (hp : p ∉ C) (hfull : C.card = n)
    (hseen : C ⊆ seen v) (hfew : (insert p W).card ≤ n) : v ∉ F := by
  intro hv
  have hsub : insert p C ⊆ insert p W :=
    Finset.insert_subset_insert p (hseen.trans (hF.seen v hv))
  have hle := (Finset.card_le_card hsub).trans hfew
  rw [Finset.card_insert_of_notMem hp, hfull] at hle
  exact absurd hle (Nat.not_succ_le_self n)

/-- **One load for each page.** Serving a segment in which at most `n` distinct
pages are referenced, those referenced in it before included, loads no page that
was loaded in it before. -/
theorem Conserves.segment_from {τ ρ : List α} (halg : Conserves n seen C (τ ++ ρ) k)
    (hF : Loaded seen C W F) (hfew : (W ∪ τ.toFinset).card ≤ n) :
    ∃ seen' C' k', Conserves n seen' C' ρ k' ∧ k + F.card ≤ k' + (W ∪ τ.toFinset).card := by
  induction τ generalizing seen C W F k with
  | nil =>
    have hle := Finset.card_le_card hF.referenced
    rw [List.toFinset_nil, Finset.union_empty]
    exact ⟨seen, C, k, halg, Nat.add_le_add_left hle k⟩
  | cons p τ ih =>
    have hunion : W ∪ (p :: τ).toFinset = insert p W ∪ τ.toFinset := by
      rw [List.toFinset_cons, Finset.union_insert, Finset.insert_union]
    rw [hunion] at hfew ⊢
    cases halg with
    | hit hp halg => exact ih halg (hF.hit p) hfew
    | fill hp _ halg =>
      have hnew : p ∉ F := fun hmem => hp (hF.resident hmem)
      obtain ⟨seen', C', k', halg', hle⟩ := ih halg (hF.load hp hF.resident) hfew
      rw [Finset.card_insert_of_notMem hnew] at hle
      exact ⟨seen', C', k', halg', by linarith⟩
    | @evict _ _ _ v _ _ hp hfull hv hseen halg =>
      have hnew : p ∉ F := fun hmem => hp (hF.resident hmem)
      have hfew' : (insert p W).card ≤ n :=
        (Finset.card_le_card Finset.subset_union_left).trans hfew
      have hkept : F ⊆ C.erase v := fun x hx =>
        Finset.mem_erase.mpr ⟨fun heq => hF.not_dropped hp hfull hseen hfew' (heq ▸ hx),
          hF.resident hx⟩
      obtain ⟨seen', C', k', halg', hle⟩ := ih halg (hF.load hp hkept) hfew
      rw [Finset.card_insert_of_notMem hnew] at hle
      exact ⟨seen', C', k', halg', by linarith⟩

/-- A segment of at most `n` distinct pages costs a conservative manager of `n`
frames at most one fault for each of them. -/
theorem Conserves.segment {τ ρ : List α} (halg : Conserves n seen C (τ ++ ρ) k)
    (hfew : τ.toFinset.card ≤ n) :
    ∃ seen' C' k', Conserves n seen' C' ρ k' ∧ k ≤ k' + τ.toFinset.card := by
  have hfew' : (∅ ∪ τ.toFinset).card ≤ n := by rwa [Finset.empty_union]
  obtain ⟨seen', C', k', halg', hle⟩ := halg.segment_from (.start seen C) hfew'
  rw [Finset.card_empty, Finset.empty_union] at hle
  exact ⟨seen', C', k', halg', hle⟩

/-! ## Queues and rings

Two ways to be conservative. A queue drops the page loaded first. A ring gives a
page with its bit set a second chance: the bit is cleared, and the page goes to
the end. With no bit ever set a ring is a queue, so the invariant is stated for
rings. -/

/-- Of a page `v` in front of `u` in a ring with the bits `ref`: `v` has seen `u`
if the bit of `v` is clear or that of `u` is set, and the other way round `u` has
seen `v` if it is `v` alone whose bit is set. -/
structure Chance (ref : α → Bool) (seen : α → Finset α) (v u : α) : Prop where
  /-- what the page in front has seen -/
  front : ref v = false ∨ ref u = true → u ∈ seen v
  /-- what the page behind has seen -/
  behind : ref u = false → ref v = true → v ∈ seen u

/-- The pages of a memory in the order in which they come up for being dropped. -/
structure Ring (ref : α → Bool) (seen : α → Finset α) (l : List α) : Prop where
  /-- any two of them -/
  pairs : l.Pairwise (Chance ref seen)
  /-- a page has seen itself -/
  self : ∀ v ∈ l, v ∈ seen v

namespace Ring

variable {ref ref' : α → Bool} {seen' : α → Finset α} {l : List α} {v : α}

omit [DecidableEq α] in
theorem nil (ref : α → Bool) (seen : α → Finset α) : Ring ref seen [] where
  pairs := .nil
  self _ hv := absurd hv List.not_mem_nil

omit [DecidableEq α] in
theorem tail (h : Ring ref seen (v :: l)) : Ring ref seen l where
  pairs := (List.pairwise_cons.mp h.pairs).2
  self u hu := h.self u (List.mem_cons_of_mem v hu)

omit [DecidableEq α] in
theorem congr (h : Ring ref seen l) (href : ∀ x ∈ l, ref' x = ref x) : Ring ref' seen l where
  pairs := h.pairs.imp_of_mem fun {v u} hv hu hvu => by
    refine ⟨fun hor => hvu.front ?_, fun hu' hv' => hvu.behind ?_ ?_⟩
    · rwa [href v hv, href u hu] at hor
    · rw [← href u hu, hu']
    · rw [← href v hv, hv']
  self := h.self

omit [DecidableEq α] in
/-- Pages see more and more. -/
theorem mono (h : Ring ref seen l) (hsub : ∀ x ∈ l, seen x ⊆ seen' x) : Ring ref seen' l where
  pairs := h.pairs.imp_of_mem fun hv hu hvu =>
    ⟨fun hor => hsub _ hv (hvu.front hor), fun hu' hv' => hsub _ hu (hvu.behind hu' hv')⟩
  self v hv := hsub v hv (h.self v hv)

omit [DecidableEq α] in
/-- A page at the front with its bit clear has seen all the others. -/
theorem oldest (h : Ring ref seen (v :: l)) (hv : ref v = false) : ∀ u ∈ v :: l, u ∈ seen v := by
  intro u hu
  rcases List.mem_cons.mp hu with rfl | hu
  · exact h.self u List.mem_cons_self
  · exact ((List.pairwise_cons.mp h.pairs).1 u hu).front (Or.inl hv)

/-- A page that everyone has just seen gets its bit set. -/
theorem mark (h : Ring ref seen l) (hv : ∀ x ∈ l, v ∈ seen x) :
    Ring (Function.update ref v true) seen l where
  pairs := h.pairs.imp_of_mem fun {a b} ha hb hab => by
    constructor
    · intro hor
      by_cases hbv : b = v
      · exact hbv ▸ hv a ha
      · rw [Function.update_of_ne hbv] at hor
        by_cases hav : a = v
        · rw [hav, Function.update_self] at hor
          exact hab.front (Or.inr (hor.resolve_left Bool.noConfusion))
        · rw [Function.update_of_ne hav] at hor
          exact hab.front hor
    · intro hb' ha'
      by_cases hav : a = v
      · exact hav ▸ hv b hb
      · by_cases hbv : b = v
        · rw [hbv, Function.update_self] at hb'
          cases hb'
        · rw [Function.update_of_ne hbv] at hb'
          rw [Function.update_of_ne hav] at ha'
          exact hab.behind hb' ha'
  self := h.self

omit [DecidableEq α] in
/-- Appending a page: what it and the pages in front of it have seen. -/
theorem append (h : Ring ref seen l) (hpair : ∀ x ∈ l, Chance ref seen x v) (hv : v ∈ seen v) :
    Ring ref seen (l ++ [v]) where
  pairs := List.pairwise_append.mpr ⟨h.pairs, List.pairwise_singleton _ v, fun x hx u hu =>
    List.mem_singleton.mp hu ▸ hpair x hx⟩
  self u hu := by
    rcases List.mem_append.mp hu with hu | hu
    · exact h.self u hu
    · rwa [List.mem_singleton.mp hu]

/-- A page at the front with its bit set goes to the end, with its bit cleared:
of any two pages, what was required before is required now. -/
theorem pass (h : Ring ref seen (v :: l)) (hnew : v ∉ l) (hv : ref v = true) :
    Ring (Function.update ref v false) seen (l ++ [v]) := by
  have hne : ∀ x ∈ l, x ≠ v := fun x hx heq => hnew (heq ▸ hx)
  have hl : Ring (Function.update ref v false) seen l :=
    h.tail.congr fun x hx => Function.update_of_ne (hne x hx) false ref
  refine hl.append (fun x hx => ?_) (h.self v List.mem_cons_self)
  have hpair := (List.pairwise_cons.mp h.pairs).1 x hx
  constructor
  · intro hor
    rw [Function.update_of_ne (hne x hx), Function.update_self] at hor
    exact hpair.behind (hor.resolve_right Bool.noConfusion) hv
  · intro _ hx'
    rw [Function.update_of_ne (hne x hx)] at hx'
    exact hpair.front (Or.inr hx')

/-- A page is loaded, and goes to the end. Its bit is set, unless there are no bits
at all. -/
theorem load {b : Bool} (h : Ring ref seen l) (hnew : p ∉ l)
    (hbit : b = false → ∀ x ∈ l, ref x = false) :
    Ring (Function.update ref p b) (restart seen p) (l ++ [p]) := by
  have hne : ∀ x ∈ l, x ≠ p := fun x hx heq => hnew (heq ▸ hx)
  have hl : Ring (Function.update ref p b) (restart seen p) l :=
    (h.congr fun x hx => Function.update_of_ne (hne x hx) b ref).mono fun x hx => by
      rw [restart_of_ne (hne x hx)]
      exact subset_remember seen p x
  refine hl.append (fun x hx => ?_) (mem_restart seen p p)
  constructor
  · exact fun _ => mem_restart seen p x
  · intro hp hx'
    rw [Function.update_self] at hp
    rw [Function.update_of_ne (hne x hx), hbit hp x hx] at hx'
    cases hx'

end Ring

/-! ## What a window costs anybody -/

/-- A page loaded is one page less to load. -/
private theorem card_sdiff_le_succ {w : Finset α} {C' : Finset α} (hsub : C' ⊆ insert p C) :
    (insert p w \ C).card ≤ (w \ C').card + 1 := by
  have hcover : insert p w \ C ⊆ insert p (w \ C') := by
    intro x hx
    obtain ⟨hxw, hxC⟩ := Finset.mem_sdiff.mp hx
    by_cases hxp : x = p
    · exact Finset.mem_insert.mpr (Or.inl hxp)
    · have hxw' : x ∈ w := (Finset.mem_insert.mp hxw).resolve_left hxp
      have hxC' : x ∉ C' := fun hmem =>
        hxC ((Finset.mem_insert.mp (hsub hmem)).resolve_left hxp)
      exact Finset.mem_insert_of_mem (Finset.mem_sdiff.mpr ⟨hxw', hxC'⟩)
  exact (Finset.card_le_card hcover).trans (Finset.card_insert_le p (w \ C'))

/-- **A window.** The pages of a window that are not in memory when it begins cost
a fault each, whatever is dropped; afterwards the memory holds the page referenced
last. -/
theorem Serves.window {w ρ : List α} (hserves : Serves ok h C (w ++ ρ) k) (hcard : C.card ≤ h) :
    ∃ C' k', Serves ok h C' ρ k' ∧ C'.card ≤ h ∧ (w.toFinset \ C).card + k' ≤ k ∧
      ∀ q ∈ w.getLast?, q ∈ C' := by
  induction w generalizing C k with
  | nil => exact ⟨C, k, hserves, hcard, by simp, by simp⟩
  | cons p w ih =>
    rw [List.toFinset_cons]
    -- the page referenced is in memory after its turn, and stays when nothing follows
    have hnext : ∀ {C₁ : Finset α} {k₁ : ℕ}, p ∈ C₁ → C₁.card ≤ h →
        Serves ok h C₁ (w ++ ρ) k₁ → ∃ C' k', Serves ok h C' ρ k' ∧ C'.card ≤ h ∧
          (w.toFinset \ C₁).card + k' ≤ k₁ ∧ ∀ q ∈ (p :: w).getLast?, q ∈ C' := by
      intro C₁ k₁ hp hcard₁ hserves₁
      cases w with
      | nil =>
        refine ⟨C₁, k₁, hserves₁, hcard₁, by simp, fun q hq => ?_⟩
        obtain rfl : p = q := by simpa using hq
        exact hp
      | cons q w =>
        obtain ⟨C', k', hserves', hcard', hle, hlast⟩ := ih hserves₁ hcard₁
        exact ⟨C', k', hserves', hcard', hle, by rwa [List.getLast?_cons_cons]⟩
    cases hserves with
    | hit hp hserves =>
      rw [Finset.insert_sdiff_of_mem _ hp]
      exact hnext hp hcard hserves
    | fill hp hlt hserves =>
      have hcard₁ := (Finset.card_insert_of_notMem hp).trans_le hlt
      obtain ⟨C', k', hserves', hcard', hle, hlast⟩ :=
        hnext (Finset.mem_insert_self p C) hcard₁ hserves
      have hcost := card_sdiff_le_succ (w := w.toFinset) (subset_refl (insert p C))
      exact ⟨C', k', hserves', hcard', by linarith, hlast⟩
    | @evict _ _ v _ _ hp hfull hv _ hserves =>
      have hcard₁ : (insert p (C.erase v)).card ≤ h := by
        rw [Finset.card_insert_of_notMem fun hmem => hp (Finset.mem_of_mem_erase hmem),
          Finset.card_erase_add_one hv, hfull]
      obtain ⟨C', k', hserves', hcard', hle, hlast⟩ :=
        hnext (Finset.mem_insert_self p _) hcard₁ hserves
      have hsub : insert p (C.erase v) ⊆ insert p C :=
        Finset.insert_subset_insert p (Finset.erase_subset v C)
      have hcost := card_sdiff_le_succ (w := w.toFinset) hsub
      exact ⟨C', k', hserves', hcard', by linarith, hlast⟩

/-! ## Phases -/

/-- The rest of a phase in which the pages `W` were referenced already: it goes on
until another page would be one too many. -/
theorem exists_phase (σ : List α) {W : Finset α} (hW : W.card ≤ n) :
    ∃ τ ρ, σ = τ ++ ρ ∧ (W ∪ τ.toFinset).card ≤ n ∧
      ∀ q ∈ ρ.head?, (W ∪ τ.toFinset).card = n ∧ q ∉ W ∪ τ.toFinset := by
  induction σ generalizing W with
  | nil => exact ⟨[], [], rfl, by simpa using hW, by simp⟩
  | cons p σ ih =>
    rcases Nat.lt_or_ge n (insert p W).card with hlt | hle
    · -- the page is one too many
      have hp : p ∉ W := fun hmem => by
        rw [Finset.insert_eq_of_mem hmem] at hlt
        exact absurd hW (Nat.not_le.mpr hlt)
      rw [Finset.card_insert_of_notMem hp] at hlt
      refine ⟨[], p :: σ, rfl, by simpa using hW, fun q hq => ?_⟩
      obtain rfl : p = q := by simpa using hq
      simpa using ⟨Nat.le_antisymm hW (Nat.le_of_lt_succ hlt), hp⟩
    · obtain ⟨τ, ρ, rfl, hfew, hnext⟩ := ih hle
      have hunion : W ∪ (p :: τ).toFinset = insert p W ∪ τ.toFinset := by
        rw [List.toFinset_cons, Finset.union_insert, Finset.insert_union]
      exact ⟨p :: τ, ρ, rfl, hunion ▸ hfew, fun q hq => hunion ▸ hnext q hq⟩

/-- The window between the first references of two phases holds `n` pages beside
the first, of which a memory of `h` frames that holds the first lacks `n + 1 - h`. -/
private theorem window_cost {D : Finset α} {q q' : α} {τ : List α} (hq : q ∈ D)
    (hD : D.card ≤ h) (hphase : ({q} ∪ τ.toFinset).card = n) (hq' : q' ∉ {q} ∪ τ.toFinset) :
    n + 1 - h ≤ ((τ ++ [q']).toFinset \ D).card := by
  have hall : (insert q' ({q} ∪ τ.toFinset)) \ D = (τ ++ [q']).toFinset \ D := by
    ext x
    simp only [Finset.mem_sdiff, Finset.mem_insert, Finset.mem_union, Finset.mem_singleton,
      List.mem_toFinset, List.mem_append, List.mem_singleton]
    constructor
    · rintro ⟨rfl | rfl | hx, hxD⟩
      · exact ⟨Or.inr rfl, hxD⟩
      · exact absurd hq hxD
      · exact ⟨Or.inl hx, hxD⟩
    · rintro ⟨hx | rfl, hxD⟩
      · exact ⟨Or.inr (Or.inr hx), hxD⟩
      · exact ⟨Or.inl rfl, hxD⟩
  have hdiff := Finset.le_card_sdiff D (insert q' ({q} ∪ τ.toFinset))
  rw [Finset.card_insert_of_notMem hq', hphase, hall] at hdiff
  exact (Nat.sub_le_sub_left hD (n + 1)).trans hdiff

/-- From the first reference `q` of a phase on, with the other manager holding `q`:
induction on the number of references, a phase at a time. -/
private theorem Conserves.phases (hn : 1 ≤ n) : ∀ (len : ℕ) {q : α} {rest : List α}
    {seen : α → Finset α} {C D : Finset α} {k m : ℕ}, rest.length ≤ len →
      Conserves n seen C (q :: rest) k → Serves ok h D rest m → q ∈ D → D.card ≤ h →
        (n + 1 - h) * k ≤ n * (m + (n + 1 - h)) := by
  intro len
  induction len with
  | zero =>
    intro q rest seen C D k m hlen halg _ _ _
    obtain rfl : rest = [] := List.length_eq_zero_iff.mp (Nat.le_zero.mp hlen)
    obtain ⟨_, _, k', halg', hle⟩ :=
      Conserves.segment (τ := [q]) (ρ := []) (by simpa using halg) (by simpa using hn)
    cases halg'
    have hk : k ≤ n := hle.trans (by simpa using hn)
    calc (n + 1 - h) * k ≤ (n + 1 - h) * n := Nat.mul_le_mul_left _ hk
      _ ≤ n * (m + (n + 1 - h)) := by rw [Nat.mul_comm]; exact Nat.mul_le_mul_left n (by simp)
  | succ len ih =>
    intro q rest seen C D k m hlen halg hserves hq hD
    obtain ⟨τ, ρ, rfl, hfew, hnext⟩ := exists_phase rest (W := {q}) (by simpa using hn)
    have hphase : (q :: τ).toFinset = {q} ∪ τ.toFinset := by
      rw [List.toFinset_cons, Finset.insert_eq]
    obtain ⟨seen', C', k', halg', hle⟩ :=
      Conserves.segment (τ := q :: τ) (ρ := ρ) halg (by rwa [hphase])
    have hk : k ≤ k' + n := hle.trans (Nat.add_le_add_left (hphase ▸ hfew) k')
    cases ρ with
    | nil =>
      cases halg'
      calc (n + 1 - h) * k ≤ (n + 1 - h) * n := Nat.mul_le_mul_left _ (by simpa using hk)
        _ ≤ n * (m + (n + 1 - h)) := by rw [Nat.mul_comm]; exact Nat.mul_le_mul_left n (by simp)
    | cons q' ρ =>
      obtain ⟨hcard, hq'⟩ := hnext q' rfl
      have happend : τ ++ q' :: ρ = (τ ++ [q']) ++ ρ := by simp
      rw [happend] at hserves
      obtain ⟨D', m', hserves', hD', hcost, hlast⟩ := hserves.window hD
      have hlen' : ρ.length ≤ len := by
        rw [List.length_append, List.length_cons] at hlen
        linarith
      have hrest := ih hlen' halg' hserves' (hlast q' (by simp)) hD'
      have hpay := window_cost hq hD hcard hq'
      have hm : m' + (n + 1 - h) ≤ m := by linarith
      calc (n + 1 - h) * k ≤ (n + 1 - h) * (k' + n) := Nat.mul_le_mul_left _ hk
        _ = (n + 1 - h) * k' + n * (n + 1 - h) := by ring
        _ ≤ n * (m' + (n + 1 - h)) + n * (n + 1 - h) := Nat.add_le_add_right hrest _
        _ ≤ n * m + n * (n + 1 - h) := Nat.add_le_add_right (Nat.mul_le_mul_left n hm) _
        _ = n * (m + (n + 1 - h)) := by ring

/-- **Competitiveness.** A conservative manager of `n` frames, started on an empty
memory, has at most `n / (n + 1 - h)` times the faults of any demand manager of
`h ≤ n` frames on the same references, up to a constant that is `0` when the two
have the same number of frames. -/
theorem Conserves.competitive (hh : h ≤ n) (halg : Conserves n seen C σ k)
    (hserves : Serves ok h ∅ σ m) : (n + 1 - h) * k ≤ n * (m + (n - h)) := by
  cases σ with
  | nil =>
    cases halg
    exact Nat.zero_le _
  | cons q rest =>
    cases hserves with
    | hit hq _ => exact absurd hq (Finset.notMem_empty q)
    | @fill _ _ _ m hq hlt hrest =>
      have hpos : 0 < h := by simpa using hlt
      have hcard : (insert q (∅ : Finset α)).card ≤ h :=
        (Finset.card_insert_of_notMem hq).trans_le hlt
      have hle := halg.phases (hpos.trans_le hh) rest.length le_rfl hrest
        (Finset.mem_insert_self q ∅) hcard
      rwa [show m + (n + 1 - h) = m + 1 + (n - h) by rw [Nat.sub_add_comm hh]; ring] at hle
    | evict _ _ hv _ _ => exact absurd hv (Finset.notMem_empty _)

end DemandPaging
