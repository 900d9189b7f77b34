import Mathlib.Data.List.AList
import Mathlib.Data.List.Basic
import Mathlib.Data.List.Nodup
import Mathlib.Data.List.Perm.Subperm
import Mathlib.Logic.Function.Basic

/-!
# Pointer-linked lists

Singly linked lists over arbitrary addresses, as a relation between a `next`
function and the list of addresses it visits. `next a = none` means that `a` is
not a live node. `Path next p as q` says that following `next` from `p` visits
exactly `as` and arrives at `q`; `Chain` is a path that arrives at `null`
without meeting it before. A chain never visits a node twice (`Chain.nodup`):
from a node visited twice, `null` would be out of reach.

Nodes are added and removed by changing one link. Every update lemma says which
path the changed function has, given one of the old function.

When the links are fields of the records of a heap, writing or freeing one record
leaves the links of the others, and a chain is no longer than the heap is large.
-/

namespace LinkedList

universe u v

variable {A : Type u} {next next' : A → Option A} {p q r : A} {as bs : List A}

/-- Following `next` from the first address visits the listed addresses and
arrives at the last one. -/
def Path (next : A → Option A) : A → List A → A → Prop
  | p, [], r => p = r
  | p, a :: as, r => p = a ∧ ∃ q, next a = some q ∧ Path next q as r

/-- A path that ends at `null` and does not meet it before. -/
def Chain (next : A → Option A) (null : A) (p : A) (as : List A) : Prop :=
  Path next p as null ∧ null ∉ as

theorem Path.append : Path next p (as ++ bs) r ↔ ∃ q, Path next p as q ∧ Path next q bs r := by
  induction as generalizing p with
  | nil => simp [Path]
  | cons a as ih =>
    simp only [List.cons_append, Path, ih]
    constructor
    · rintro ⟨hp, q, hq, s, hs, ht⟩
      exact ⟨s, ⟨hp, q, hq, hs⟩, ht⟩
    · rintro ⟨s, ⟨hp, q, hq, hs⟩, ht⟩
      exact ⟨hp, q, hq, s, hs, ht⟩

/-- A path only depends on the links it follows. -/
theorem Path.congr (h : Path next p as r) (heq : ∀ a ∈ as, next' a = next a) :
    Path next' p as r := by
  induction as generalizing p with
  | nil => exact h
  | cons a as ih =>
    obtain ⟨hp, q, hq, hrest⟩ := h
    exact ⟨hp, q, by rw [heq a List.mem_cons_self, hq],
      ih hrest fun b hb => heq b (List.mem_cons_of_mem _ hb)⟩

/-- A path says where its links lead. -/
theorem Path.next_eq (h : Path next p as r) (h' : Path next' p as r) :
    ∀ a ∈ as, next a = next' a := by
  induction as generalizing p with
  | nil => exact fun a ha => absurd ha List.not_mem_nil
  | cons a as ih =>
    obtain ⟨-, q, hq, hrest⟩ := h
    obtain ⟨-, q', hq', hrest'⟩ := h'
    obtain rfl : q = q' := by
      cases as with
      | nil => exact Eq.trans hrest (Eq.symm hrest')
      | cons b as => exact hrest.1.trans hrest'.1.symm
    rintro b hb
    rcases List.mem_cons.mp hb with rfl | hb
    · rw [hq, hq']
    · exact ih hrest hrest' b hb

/-- The first address of a path that visits something. -/
theorem Path.head_eq {a : A} (h : Path next p (a :: as) r) : p = a := h.1

/-- The last link of a path. -/
theorem Path.snoc {a : A} :
    Path next p (as ++ [a]) r ↔ Path next p as a ∧ next a = some r := by
  rw [Path.append]
  constructor
  · rintro ⟨q, hq, rfl, s, hs, rfl⟩
    exact ⟨hq, hs⟩
  · rintro ⟨hp, hr⟩
    exact ⟨a, hp, rfl, r, hr, rfl⟩

namespace Chain

variable {null : A}

theorem nil : Chain next null null [] := ⟨rfl, List.not_mem_nil⟩

/-- At `null` the chain is empty. -/
theorem eq_nil_of_null (h : Chain next null null as) : as = [] := by
  cases as with
  | nil => rfl
  | cons a as => exact absurd (h.1.head_eq ▸ List.mem_cons_self) h.2

/-- Away from `null` the chain visits the address it starts at. -/
theorem eq_cons_of_ne (h : Chain next null p as) (hp : p ≠ null) :
    ∃ q bs, as = p :: bs ∧ next p = some q ∧ Chain next null q bs := by
  cases as with
  | nil => exact absurd h.1 hp
  | cons a as =>
    obtain ⟨⟨rfl, q, hq, hrest⟩, hnot⟩ := h
    exact ⟨q, as, rfl, hq, hrest, fun hmem => hnot (List.mem_cons_of_mem _ hmem)⟩

theorem cons {q : A} (hp : p ≠ null) (hq : next p = some q) (h : Chain next null q as) :
    Chain next null p (p :: as) :=
  ⟨⟨rfl, q, hq, h.1⟩, List.not_mem_cons_of_ne_of_not_mem (Ne.symm hp) h.2⟩

/-- The chain from an address is unique. -/
theorem unique (h : Chain next null p as) (h' : Chain next null p bs) : as = bs := by
  induction as generalizing p bs with
  | nil =>
    obtain rfl : p = null := h.1
    exact h'.eq_nil_of_null.symm
  | cons a as ih =>
    have hp : p ≠ null := fun heq => h.2 (heq ▸ h.1.head_eq ▸ List.mem_cons_self)
    obtain ⟨q, as', hcons, hq, hrest⟩ := h.eq_cons_of_ne hp
    obtain ⟨q', bs', rfl, hq', hrest'⟩ := h'.eq_cons_of_ne hp
    obtain rfl : q = q' := Option.some.inj (hq.symm.trans hq')
    obtain ⟨rfl, rfl⟩ := List.cons.inj hcons
    rw [ih hrest hrest']

/-- A chain visits every node once. -/
theorem nodup (h : Chain next null p as) : as.Nodup := by
  induction as generalizing p with
  | nil => exact List.nodup_nil
  | cons a as ih =>
    have hp : p ≠ null := fun heq => h.2 (heq ▸ h.1.head_eq ▸ List.mem_cons_self)
    obtain ⟨q, as', hcons, hq, hrest⟩ := h.eq_cons_of_ne hp
    obtain ⟨rfl, rfl⟩ := List.cons.inj hcons
    refine List.nodup_cons.mpr ⟨fun hmem => ?_, ih hrest⟩
    -- a second visit would have to go on like the first one, for ever
    obtain ⟨bs, cs, rfl⟩ := List.append_of_mem hmem
    obtain ⟨s, -, hs⟩ := Path.append.mp hrest.1
    obtain rfl := hs.head_eq
    have hagain : Chain next null s (s :: cs) :=
      ⟨hs, fun hmem => hrest.2 (List.mem_append_right _ hmem)⟩
    have := congrArg List.length (h.unique hagain)
    simp at this
    omega

/-- Every node of a chain is live. -/
theorem live (h : Chain next null p as) {a : A} (ha : a ∈ as) : (next a).isSome := by
  obtain ⟨bs, cs, rfl⟩ := List.append_of_mem ha
  obtain ⟨q, -, hq⟩ := Path.append.mp h.1
  obtain ⟨-, s, hs, -⟩ := hq
  rw [hs]
  rfl

/-- Appending a node: the last link is set to it, and its own link to `null`. -/
theorem snoc {a b : A} (h : Chain next null p as) (hlast : as.getLast? = some a) (hb : b ≠ null)
    (hnew : next' b = some null) (hset : next' a = some b)
    (hsame : ∀ c ∈ as, c ≠ a → next' c = next c) : Chain next' null p (as ++ [b]) := by
  refine ⟨?_, by simpa using ⟨h.2, Ne.symm hb⟩⟩
  obtain ⟨as, rfl⟩ := List.getLast?_eq_some_iff.mp hlast
  obtain ⟨hpath, -⟩ := Path.snoc.mp h.1
  refine Path.snoc.mpr ⟨Path.snoc.mpr ⟨hpath.congr ?_, hset⟩, hnew⟩
  intro c hc
  refine hsame c (by simp [hc]) ?_
  rintro rfl
  exact (List.nodup_append.mp h.nodup).2.2 c hc c (by simp) rfl

/-- The link of a node leads to the one behind it. -/
theorem next_eq {a : A} (h : Chain next null p (as ++ a :: bs)) :
    next a = some (bs.headD null) := by
  obtain ⟨s, -, rfl, q, hq, hrest⟩ := Path.append.mp h.1
  rw [hq]
  cases bs with
  | nil => exact congrArg some hrest
  | cons b bs => exact congrArg some hrest.head_eq

/-- Removing the first node. -/
theorem tail {a : A} (h : Chain next null p (a :: as)) :
    ∃ q, next a = some q ∧ Chain next null q as := by
  obtain ⟨-, q, hq, hrest⟩ := h.1
  exact ⟨q, hq, hrest, fun hmem => h.2 (List.mem_cons_of_mem _ hmem)⟩

/-- Removing a node that is not the first: the link before it is set to the one
after it. -/
theorem remove {b a : A} {q : A} (h : Chain next null p (as ++ b :: a :: bs))
    (hq : next a = some q) (hb : next' b = some q)
    (hsame : ∀ c ∈ as ++ bs, next' c = next c) : Chain next' null p (as ++ b :: bs) := by
  obtain ⟨s, hs, rfl, t, ht, rfl, t', ht', hrest⟩ := Path.append.mp h.1
  obtain rfl : q = t' := Option.some.inj (hq.symm.trans ht')
  refine ⟨Path.append.mpr ⟨s, hs.congr fun c hc => hsame c (by simp [hc]), rfl, q, hb,
    hrest.congr fun c hc => hsame c (by simp [hc])⟩, ?_⟩
  intro hmem
  refine h.2 ?_
  simp only [List.mem_append, List.mem_cons] at hmem ⊢
  tauto

/-- A chain through untouched nodes is still there. -/
theorem congr (h : Chain next null p as) (heq : ∀ a ∈ as, next' a = next a) :
    Chain next' null p as :=
  ⟨h.1.congr heq, h.2⟩

end Chain

/-! ## Walking to the end -/

/-- `while (temp->next != NULL) temp = temp->next;`, bounded by a number of
nodes. It fails on a node that is not live and when the bound runs out. -/
def findLast [DecidableEq A] (next : A → Option A) (null : A) : ℕ → A → Option A
  | 0, _ => none
  | n + 1, temp => do
    let q ← next temp
    if q = null then some temp else findLast next null n q

/-- The walk along a chain ends at its last node. -/
theorem findLast_eq [DecidableEq A] {null a : A} {n : ℕ} (h : Chain next null p as)
    (hlast : as.getLast? = some a) (hn : as.length ≤ n) : findLast next null n p = some a := by
  induction as generalizing p n with
  | nil => cases hlast
  | cons b as ih =>
    obtain rfl := h.1.head_eq
    obtain ⟨q, hq, hrest⟩ := h.tail
    obtain ⟨n, rfl⟩ : ∃ m, n = m + 1 := ⟨n - 1, by simp at hn; omega⟩
    rw [findLast]
    simp only [hq, Option.bind_eq_bind, Option.bind_some]
    cases as with
    | nil =>
      obtain rfl : q = null := hrest.1
      rw [if_pos rfl]
      exact hlast
    | cons c as =>
      have hqn : q ≠ null := fun heq => hrest.2 (heq ▸ hrest.1.head_eq ▸ List.mem_cons_self)
      rw [if_neg hqn]
      refine ih hrest ?_ (by simpa using hn)
      rwa [List.getLast?_cons_cons] at hlast

/-! ## Listing the nodes -/

/-- The addresses visited from an address on, bounded by a number of nodes. -/
def visit [DecidableEq A] (next : A → Option A) (null : A) : ℕ → A → List A
  | 0, _ => []
  | n + 1, p => if p = null then [] else p :: ((next p).elim [] fun q => visit next null n q)

/-- Along a chain they are the nodes of the chain. -/
theorem Chain.visit_eq [DecidableEq A] {null : A} {n : ℕ} (h : Chain next null p as)
    (hn : as.length ≤ n) : visit next null n p = as := by
  induction as generalizing p n with
  | nil =>
    obtain rfl : p = null := h.1
    cases n with
    | zero => rfl
    | succ n => exact if_pos rfl
  | cons a as ih =>
    obtain ⟨n, rfl⟩ : ∃ m, n = m + 1 := ⟨n - 1, by simp at hn; omega⟩
    obtain rfl := h.1.head_eq
    obtain ⟨q, hq, hrest⟩ := h.tail
    have hp : p ≠ null := fun heq => h.2 (heq ▸ List.mem_cons_self)
    rw [visit, if_neg hp, hq, Option.elim_some, ih hrest (by simpa using hn)]

/-! ## Heaps of records -/

section heap

variable {N : Type v} [DecidableEq A] {link : N → A} {heap : AList fun _ : A => N} {null a b : A}
variable {node : N}

/-- The link of a record, when there is such a record. -/
def linkOf (link : N → A) (heap : AList fun _ : A => N) (a : A) : Option A :=
  (heap.lookup a).map link

theorem linkOf_insert_self : linkOf link (heap.insert a node) a = some (link node) := by
  rw [linkOf, AList.lookup_insert, Option.map_some]

theorem linkOf_insert_ne (h : b ≠ a) : linkOf link (heap.insert a node) b = linkOf link heap b := by
  rw [linkOf, linkOf, AList.lookup_insert_ne h]

theorem linkOf_erase_ne (h : b ≠ a) : linkOf link (heap.erase a) b = linkOf link heap b := by
  rw [linkOf, linkOf, AList.lookup_erase_ne h]

/-- A chain visits records of the heap. -/
theorem Chain.mem_heap (h : Chain (linkOf link heap) null p as) (ha : a ∈ as) : a ∈ heap := by
  have hlive := h.live ha
  rw [linkOf, Option.isSome_map] at hlive
  exact AList.lookup_isSome.mp hlive

/-- And no more of them than there are. -/
theorem Chain.length_le_keys (h : Chain (linkOf link heap) null p as) :
    as.length ≤ heap.keys.length :=
  (h.nodup.subperm fun _ ha => h.mem_heap ha).length_le

end heap

end LinkedList
