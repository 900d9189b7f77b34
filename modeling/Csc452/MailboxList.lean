import Csc452.Mailbox
import Csc452.Runs

/-!
# The message list

What the two calls do to the one list of all messages, whatever the bytes in its
nodes stand for: a send appends a node (`Lists.send`), and a get takes out the
first node that it finds its user in, whether that is the first of the list, the
last or one in between (`Lists.get_found`), or leaves the list as it is
(`Lists.get_none`).

In a run the list stays well formed exactly as long as every message that is
sent to an empty mailbox gets a node whose link reads `NULL` (`wellFormed_iff`):
the code writes the link of every node but that one.
-/

namespace Csc452.Mail

open LinkedList (Chain Path linkOf_insert_self linkOf_insert_ne linkOf_erase_ne)
open Bytes (Memory)

universe u

variable {β : Type u} {R : Memory → β → Prop}

/-! ## Nodes -/

/-- The node at an address holds bytes that stand for something. -/
def Heap.HoldsAs (R : Memory → β → Prop) (heap : Heap) (p : Addr × β) : Prop :=
  ∃ node, heap.lookup p.1 = some node ∧ R node.bytes p.2

/-- The list visits the given addresses, and their nodes hold what is given. -/
structure Lists (R : Memory → β → Prop) (mb : Mailbox) (ps : List (Addr × β)) : Prop where
  /-- the list -/
  chain : Chain (Heap.next mb.heap) NULL mb.head (ps.map Prod.fst)
  /-- the contents -/
  holds : ∀ p ∈ ps, Heap.HoldsAs R mb.heap p

theorem Lists.init : Lists R Mailbox.init [] :=
  ⟨Chain.nil, fun _ hp => absurd hp List.not_mem_nil⟩

section heap

variable {heap : Heap} {a b : Addr} {node : Node} {p : Addr × β}

@[simp] theorem Heap.next_insert_self : Heap.next (heap.insert a node) a = some node.next :=
  linkOf_insert_self

theorem Heap.next_insert_ne (h : b ≠ a) : Heap.next (heap.insert a node) b = Heap.next heap b :=
  linkOf_insert_ne h

theorem Heap.next_erase_ne (h : b ≠ a) : Heap.next (heap.erase a) b = Heap.next heap b :=
  linkOf_erase_ne h

theorem Heap.next_eq_some (h : heap.lookup a = some node) : Heap.next heap a = some node.next := by
  rw [Heap.next, h]
  rfl

/-- A node of the heap other than the one written. -/
theorem Heap.HoldsAs.insert_ne (h : Heap.HoldsAs R heap p) (hne : p.1 ≠ a) :
    Heap.HoldsAs R (heap.insert a node) p := by
  obtain ⟨node', hnode', hm⟩ := h
  exact ⟨node', by rw [AList.lookup_insert_ne hne, hnode'], hm⟩

theorem Heap.HoldsAs.erase_ne (h : Heap.HoldsAs R heap p) (hne : p.1 ≠ a) :
    Heap.HoldsAs R (heap.erase a) p := by
  obtain ⟨node', hnode', hm⟩ := h
  exact ⟨node', by rw [AList.lookup_erase_ne hne, hnode'], hm⟩

/-- Setting a link leaves the contents where they are. -/
theorem Heap.HoldsAs.setNext (h : Heap.HoldsAs R heap p) (hnode : heap.lookup a = some node)
    (q : Addr) : Heap.HoldsAs R (heap.insert a { node with next := q }) p := by
  rcases eq_or_ne p.1 a with rfl | hne
  · obtain ⟨node', hnode', hm⟩ := h
    obtain rfl : node' = node := Option.some.inj (hnode'.symm.trans hnode)
    exact ⟨_, AList.lookup_insert _, hm⟩
  · exact h.insert_ne hne

end heap

variable {mb : Mailbox} {ps : List (Addr × β)} {x : β} {to_ : List UInt8}

/-- A walk visits no more nodes than there are. -/
theorem Lists.length_le (h : Lists R mb ps) : ps.length ≤ mb.heap.keys.length := by
  have hle := Chain.length_le_keys h.chain
  rwa [List.length_map] at hle

/-! ## Sending -/

/-- A send without memory changes nothing. -/
theorem send_failed (mb : Mailbox) (to_ msg from_ : UserString) :
    csc452SendMsg mb to_ msg from_ none = some (mb, -1) := by
  rw [csc452SendMsg]
  split
  · next hhead =>
    rw [← hhead]
  · rfl

/-- Appending a node at the end of a list that is not empty. -/
theorem Lists.snoc {a z : Addr} {xz : β} {filled last : Node}
    (h : Lists R mb (ps ++ [(z, xz)])) (ha : a ≠ NULL) (hne : ∀ p ∈ ps ++ [(z, xz)], p.1 ≠ a)
    (hlast : mb.heap.lookup z = some last) (hfilled : R filled.bytes x) :
    Lists R
      { mb with
        heap := ((mb.heap.insert a filled).insert z { last with next := a }).insert a
          { filled with next := NULL } }
      (ps ++ [(z, xz)] ++ [(a, x)]) := by
  have hza : z ≠ a := hne (z, xz) (by simp)
  refine ⟨?_, ?_⟩
  · rw [List.map_append]
    refine h.chain.snoc (a := z) (by simp) ha Heap.next_insert_self ?_ ?_
    · rw [Heap.next_insert_ne hza, Heap.next_insert_self]
    · intro b hb hbz
      obtain ⟨p, hp, rfl⟩ := List.mem_map.mp hb
      rw [Heap.next_insert_ne (hne p hp), Heap.next_insert_ne hbz, Heap.next_insert_ne (hne p hp)]
  · intro p hp
    rcases List.mem_append.mp hp with hp | hp
    · have hlast' : (mb.heap.insert a filled).lookup z = some last := by
        rw [AList.lookup_insert_ne hza, hlast]
      exact (((h.holds p hp).insert_ne (hne p hp)).setNext hlast' a).insert_ne (hne p hp)
    · obtain rfl : p = (a, x) := by simpa using hp
      exact ⟨_, AList.lookup_insert _, hfilled⟩

/-- A send with memory appends a node to the list. Into an empty list, the link of
the node has to read `NULL` before. -/
theorem Lists.send {a : Addr} (node : Node) (to_ msg from_ : UserString) (h : Lists R mb ps)
    (ha : a ≠ NULL) (hfresh : a ∉ mb.heap) (hnext : mb.head = NULL → node.next = NULL)
    (hfilled : R (node.fill to_ msg from_).bytes x) :
    ∃ mb', csc452SendMsg mb to_ msg from_ (some (a, node)) = some (mb', 0) ∧
      Lists R mb' (ps ++ [(a, x)]) := by
  have hnext' : (node.fill to_ msg from_).next = node.next := rfl
  rw [csc452SendMsg]
  generalize node.fill to_ msg from_ = filled at *
  -- the addresses of the list are live, so the new node is not one of them
  have hne : ∀ p ∈ ps, p.1 ≠ a := by
    rintro p hp rfl
    obtain ⟨node', hnode', -⟩ := h.holds p hp
    exact hfresh (AList.lookup_isSome.mp (by rw [hnode']; rfl))
  rcases List.eq_nil_or_concat ps with rfl | ⟨ps', ⟨z, xz⟩, hps⟩
  · have hhead : mb.head = NULL := h.chain.1
    rw [if_pos hhead]
    refine ⟨_, rfl, Chain.nil.cons ha ?_, ?_⟩
    · rw [Heap.next_insert_self, hnext', hnext hhead]
    · intro p hp
      obtain rfl : p = (a, x) := by simpa using hp
      exact ⟨filled, AList.lookup_insert _, hfilled⟩
  · rw [List.concat_eq_append] at hps
    subst hps
    have hhead : mb.head ≠ NULL := by
      intro heq
      have := heq ▸ h.chain
      simpa using this.eq_nil_of_null
    rw [if_neg hhead]
    obtain ⟨last, hlast, -⟩ := h.holds (z, xz) (by simp)
    have hza : z ≠ a := hne (z, xz) (by simp)
    -- the walk only meets links that the new node leaves alone
    have hchain : Chain (Heap.next (mb.heap.insert a filled)) NULL mb.head
        ((ps' ++ [(z, xz)]).map Prod.fst) := by
      refine h.chain.congr fun b hb => Heap.next_insert_ne ?_
      obtain ⟨p, hp, rfl⟩ := List.mem_map.mp hb
      exact hne p hp
    have hwalk : LinkedList.findLast (Heap.next (mb.heap.insert a filled)) NULL
        (mb.heap.insert a filled).keys.length mb.head = some z := by
      refine LinkedList.findLast_eq hchain (by simp) ?_
      have hlen := h.length_le
      rw [AList.keys_insert, List.erase_of_not_mem (by rwa [AList.mem_keys] at hfresh)]
      rw [List.length_map, List.length_cons]
      omega
    have hlook : (mb.heap.insert a filled).lookup z = some last := by
      rw [AList.lookup_insert_ne hza, hlast]
    have hlookNew : ((mb.heap.insert a filled).insert z { last with next := a }).lookup a =
        some filled := by
      rw [AList.lookup_insert_ne hza.symm, AList.lookup_insert]
    refine ⟨_, ?_, h.snoc ha hne hlast hfilled⟩
    simp only [hwalk, hlook, hlookNew, Option.bind_eq_bind, Option.bind_some]

/-! ## Getting -/

/-- What `csc452_get_msg` copies out of a node. -/
def deliver (bytes : Memory) : Delivery where
  msg := Bytes.strncpy bytes msgOffset msgSize
  from_ := Bytes.strncpy bytes fromOffset nameSize

section get

/-- The loop passes over nodes for other users. -/
theorem getLoop_skip {qs : List (Addr × β)} {temp before q : Addr} {n : ℕ}
    (hpath : Path (Heap.next mb.heap) temp (qs.map Prod.fst) q) (hnull : NULL ∉ qs.map Prod.fst)
    (hholds : ∀ p ∈ qs, Heap.HoldsAs R mb.heap p)
    (hother : ∀ p ∈ qs, ∀ bytes, R bytes p.2 → ¬ Bytes.strcmpEq bytes toOffset to_) :
    getLoop mb to_ (qs.length + n) temp before =
      getLoop mb to_ n q (((qs.map Prod.fst).getLast?).getD before) := by
  induction qs generalizing temp before with
  | nil =>
    obtain rfl : temp = q := hpath
    simp
  | cons p qs ih =>
    obtain ⟨rfl, r, hr, hrest⟩ := hpath
    have hp : p.1 ≠ NULL := fun heq => hnull (by simp [heq])
    obtain ⟨node, hnode, hm⟩ := hholds p List.mem_cons_self
    obtain rfl : node.next = r := by
      rw [Heap.next_eq_some hnode] at hr
      exact Option.some.inj hr
    have hcmp := hother p List.mem_cons_self node.bytes hm
    rw [List.length_cons, Nat.add_right_comm, getLoop, if_neg hp]
    simp only [hnode, Option.bind_eq_bind, Option.bind_some, if_neg hcmp]
    rw [ih hrest (fun hmem => hnull (List.mem_cons_of_mem _ hmem))
      (fun p' hp' => hholds p' (List.mem_cons_of_mem _ hp'))
      (fun p' hp' => hother p' (List.mem_cons_of_mem _ hp'))]
    rw [List.map_cons, List.getLast?_cons]
    simp

/-- A get for a user without messages. -/
theorem Lists.get_none (h : Lists R mb ps)
    (hnone : ∀ p ∈ ps, ∀ bytes, R bytes p.2 → ¬ Bytes.strcmpEq bytes toOffset to_) :
    csc452GetMsg mb to_ = some (mb, 0, none) := by
  rw [csc452GetMsg]
  split
  · rfl
  · have hlen := h.length_le
    obtain ⟨n, hn⟩ : ∃ n, mb.heap.keys.length + 1 = ps.length + (n + 1) :=
      ⟨mb.heap.keys.length - ps.length, by omega⟩
    rw [hn, getLoop_skip h.chain.1 h.chain.2 h.holds hnone, getLoop, if_pos rfl]

/-- The nodes of the list other than one of them. -/
theorem Lists.others {pre post : List (Addr × β)} {p : Addr × β}
    (h : Lists R mb (pre ++ p :: post)) :
    ∀ p' ∈ pre ++ post, p'.1 ≠ p.1 ∧ Heap.HoldsAs R mb.heap p' := by
  have hnodup := h.chain.nodup
  simp only [List.map_append, List.map_cons, List.nodup_append, List.nodup_cons] at hnodup
  intro p' hp'
  refine ⟨?_, h.holds p' ?_⟩
  · intro heq
    rcases List.mem_append.mp hp' with hmem | hmem
    · exact hnodup.2.2 p'.1 (List.mem_map_of_mem hmem) p.1 List.mem_cons_self heq
    · exact hnodup.2.1.1 (heq ▸ List.mem_map_of_mem hmem)
  · simp only [List.mem_append, List.mem_cons] at hp' ⊢
    tauto

/-- Taking the first node out of the list. -/
theorem Lists.removeHead {post : List (Addr × β)} {a : Addr} {node : Node}
    (h : Lists R mb ((a, x) :: post)) (hnode : mb.heap.lookup a = some node) :
    Lists R { head := node.next, heap := mb.heap.erase a } post := by
  have h' : Lists R mb ([] ++ (a, x) :: post) := h
  have hothers := h'.others
  obtain ⟨q, hq, hrest⟩ := h.chain.tail
  obtain rfl : node.next = q := by
    rw [Heap.next_eq_some hnode] at hq
    exact Option.some.inj hq
  refine ⟨hrest.congr fun c hc => Heap.next_erase_ne ?_, fun p' hp' => ?_⟩
  · obtain ⟨p', hp', rfl⟩ := List.mem_map.mp hc
    exact (hothers p' hp').1
  · exact (hothers p' hp').2.erase_ne (hothers p' hp').1

/-- Taking a later node out of the list. -/
theorem Lists.remove {pre post : List (Addr × β)} {a b : Addr} {x' : β}
    {node prev : Node} (h : Lists R mb (pre ++ (b, x') :: (a, x) :: post))
    (hnode : mb.heap.lookup a = some node) (hprev : mb.heap.lookup b = some prev) :
    Lists R
      { mb with heap := (mb.heap.insert b { prev with next := node.next }).erase a }
      (pre ++ (b, x') :: post) := by
  have hcons : pre ++ (b, x') :: post = (pre ++ [(b, x')]) ++ post := by simp
  have hothers : ∀ p' ∈ pre ++ (b, x') :: post, p'.1 ≠ a ∧ Heap.HoldsAs R mb.heap p' := by
    rw [hcons]
    exact Lists.others (p := (a, x)) (by simpa using h)
  have hba : b ≠ a := (hothers (b, x') (by simp)).1
  have hnotb := h.others
  refine ⟨?_, fun p' hp' => ?_⟩
  · have hchain := h.chain
    simp only [List.map_append, List.map_cons] at hchain ⊢
    refine hchain.remove (Heap.next_eq_some hnode) ?_ ?_
    · rw [Heap.next_erase_ne hba, Heap.next_insert_self]
    · intro c hc
      rw [← List.map_append] at hc
      obtain ⟨p', hp', rfl⟩ := List.mem_map.mp hc
      have hmem : p' ∈ pre ++ (b, x') :: post ∧ p' ∈ pre ++ (a, x) :: post := by
        simp only [List.mem_append, List.mem_cons] at hp' ⊢
        tauto
      rw [Heap.next_erase_ne (hothers p' hmem.1).1, Heap.next_insert_ne (hnotb p' hmem.2).1]
  · exact ((hothers p' hp').2.setNext hprev _).erase_ne (hothers p' hp').1

/-- A get for a user takes the first node for the user out of the list. -/
theorem Lists.get_found {pre post : List (Addr × β)} {p : Addr × β} {d : Delivery}
    (h : Lists R mb (pre ++ p :: post))
    (hp : ∀ bytes, R bytes p.2 → Bytes.strcmpEq bytes toOffset to_ ∧ deliver bytes = d)
    (hpre : ∀ p' ∈ pre, ∀ bytes, R bytes p'.2 → ¬ Bytes.strcmpEq bytes toOffset to_) :
    ∃ mb', csc452GetMsg mb to_ = some (mb', 1, some d) ∧ Lists R mb' (pre ++ post) := by
  obtain ⟨a, x⟩ := p
  obtain ⟨node, hnode, hm⟩ := h.holds (a, x) (by simp)
  obtain ⟨hcmp, hdeliver⟩ := hp node.bytes hm
  rw [deliver] at hdeliver
  have hchain : Chain (Heap.next mb.heap) NULL mb.head
      (pre.map Prod.fst ++ a :: post.map Prod.fst) := by
    simpa using h.chain
  have hnull : NULL ∉ pre.map Prod.fst ∧ a ≠ NULL := by
    have hnot := hchain.2
    simp only [List.mem_append, List.mem_cons, not_or] at hnot
    exact ⟨hnot.1, Ne.symm hnot.2.1⟩
  have hhead : mb.head ≠ NULL := by
    intro heq
    have hnil := (heq ▸ hchain).eq_nil_of_null
    simp at hnil
  obtain ⟨t, ht, rfl, -⟩ := Path.append.mp hchain.1
  have hlen := h.length_le
  obtain ⟨n, hn⟩ : ∃ n, mb.heap.keys.length + 1 = pre.length + (n + 1) :=
    ⟨mb.heap.keys.length - pre.length, by simp at hlen; omega⟩
  rw [csc452GetMsg, if_neg hhead, hn,
    getLoop_skip ht hnull.1 (fun p' hp' => h.holds p' (by simp [hp'])) hpre, getLoop,
    if_neg hnull.2]
  simp only [hnode, Option.bind_eq_bind, Option.bind_some, if_pos hcmp, hdeliver]
  rcases List.eq_nil_or_concat pre with rfl | ⟨pre', ⟨b, x'⟩, hpre'⟩
  · -- the node is the first of the list
    obtain rfl : mb.head = t := ht
    rw [if_pos rfl]
    exact ⟨_, rfl, h.removeHead hnode⟩
  · rw [List.concat_eq_append] at hpre'
    subst hpre'
    have hfirst : t ≠ mb.head := by
      obtain ⟨c, cs, hcs⟩ := List.exists_cons_of_ne_nil (List.concat_ne_nil (b, x') pre')
      rw [hcs] at ht h
      have hne := (h.others c (by simp)).1
      rw [← ht.head_eq] at hne
      exact hne.symm
    obtain ⟨prev, hprev, -⟩ := h.holds (b, x') (by simp)
    rw [if_neg hfirst]
    have hremoved := Lists.remove (by simpa using h) hnode hprev
    have hlast : (((pre' ++ [(b, x')]).map Prod.fst).getLast?).getD mb.head = b := by simp
    rw [hlast, hprev]
    simp only [Option.bind_some]
    refine ⟨_, ?_, by simpa using hremoved⟩
    -- the last node has `NULL` as its link, which is what its predecessor gets
    split
    · next hlastNode => rw [hlastNode]
    · rfl

end get

/-! ## Runs -/

/-- A call of one of the two system calls. -/
inductive Action : Type where
  /-- `csc452_send_msg`, with the outcome of `kmalloc` -/
  | send (to_ msg from_ : UserString) (alloc : Option (Addr × Node))
  /-- `csc452_get_msg` for a user -/
  | get (to_ : List UInt8)

/-- The mailbox, next to what it is there for. -/
structure System : Type where
  /-- the list -/
  mailbox : Mailbox
  /-- the messages sent and not yet delivered, earliest first: the address and the
  contents of the node of each -/
  pending : List (Addr × Memory)

/-- Nothing has been sent. -/
def System.init : System := { mailbox := Mailbox.init, pending := [] }

/-- `kmalloc` fails, or returns memory that is not in use. Nothing is said about
what the memory holds. -/
def Fresh (heap : Heap) (alloc : Option (Addr × Node)) : Prop :=
  ∀ p ∈ alloc, p.1 ≠ NULL ∧ p.1 ∉ heap

instance (heap : Heap) (alloc : Option (Addr × Node)) : Decidable (Fresh heap alloc) :=
  inferInstanceAs (Decidable (∀ p ∈ alloc, _))

/-- Run one call. A send that returns 0 makes its message pending; a get that
returns 1 delivers the first pending message for its user. A call that faults
leads nowhere. -/
def System.step (s : System) : Action → Option System
  | .send to_ msg from_ alloc =>
    if Fresh s.mailbox.heap alloc then do
      let (mb, ret) ← csc452SendMsg s.mailbox to_ msg from_ alloc
      let sent := alloc.toList.map fun p => (p.1, (p.2.fill to_ msg from_).bytes)
      some { mailbox := mb, pending := if ret = 0 then s.pending ++ sent else s.pending }
    else none
  | .get to_ => do
    let (mb, ret, _) ← csc452GetMsg s.mailbox to_
    let rest := s.pending.eraseP fun p => Bytes.strcmpEq p.2 toOffset to_
    some { mailbox := mb, pending := if ret = 1 then rest else s.pending }

/-- The list is well formed. -/
structure WellFormed (s : System) : Prop where
  /-- it visits exactly the nodes of the pending messages, in the order in which they
  were sent, and ends in `NULL` -/
  visits : Chain (Heap.next s.mailbox.heap) NULL s.mailbox.head (s.pending.map Prod.fst)
  /-- each once -/
  once : (s.pending.map Prod.fst).Nodup
  /-- the nodes hold what was sent -/
  holds : ∀ p ∈ s.pending, Heap.HoldsAs Eq s.mailbox.heap p
  /-- a send stops, and touches nothing but live nodes -/
  send : ∀ to_ msg from_ alloc, Fresh s.mailbox.heap alloc →
    (csc452SendMsg s.mailbox to_ msg from_ alloc).isSome
  /-- and so does a get -/
  get : ∀ to_, (csc452GetMsg s.mailbox to_).isSome

/-- A node for an empty mailbox has a link that reads `NULL`. -/
def NullNext (s : System) : Action → Prop
  | .send _ _ _ alloc => s.mailbox.head = NULL → ∀ p ∈ alloc, p.2.next = NULL
  | .get _ => True

/-- A list that represents the pending messages is well formed after a call that
meets the condition, and the call does not fault. -/
theorem Lists.step {s : System} {a : Action} (h : Lists Eq s.mailbox s.pending)
    (ha : NullNext s a) (hfresh : ∀ to_ msg from_ alloc, a = .send to_ msg from_ alloc →
      Fresh s.mailbox.heap alloc) :
    ∃ t, s.step a = some t ∧ Lists Eq t.mailbox t.pending := by
  cases a with
  | send to_ msg from_ alloc =>
    have hfresh := hfresh to_ msg from_ alloc rfl
    rw [System.step, if_pos hfresh]
    cases alloc with
    | none =>
      rw [send_failed]
      exact ⟨_, rfl, by simpa using h⟩
    | some p =>
      obtain ⟨a, node⟩ := p
      obtain ⟨hnull, hnew⟩ := hfresh (a, node) rfl
      obtain ⟨mb, hsend, hmb⟩ :=
        h.send node to_ msg from_ hnull hnew (fun hhead => ha hhead _ rfl) rfl
      rw [hsend]
      exact ⟨_, rfl, by simpa using hmb⟩
  | get to_ =>
    rw [System.step]
    by_cases hsome : ∃ p ∈ s.pending, Bytes.strcmpEq p.2 toOffset to_ = true
    · obtain ⟨p, hp, hcmp⟩ := hsome
      obtain ⟨q, pre, post, hpre, hq, hsplit, herase⟩ :=
        List.exists_of_eraseP (p := fun p => Bytes.strcmpEq p.2 toOffset to_) hp hcmp
      obtain ⟨mb, hget, hmb⟩ := Lists.get_found (d := deliver q.2) (hsplit ▸ h)
        (by rintro bytes rfl; exact ⟨hq, rfl⟩) (by rintro p' hp' bytes rfl; exact hpre p' hp')
      rw [hget]
      exact ⟨_, rfl, by simpa [herase] using hmb⟩
    · push Not at hsome
      rw [h.get_none (by rintro p hp bytes rfl; exact hsome p hp)]
      exact ⟨_, rfl, by simpa using h⟩

/-- Such a list is well formed. -/
theorem Lists.wellFormed {s : System} (h : Lists Eq s.mailbox s.pending) : WellFormed s where
  visits := h.chain
  once := h.chain.nodup
  holds := h.holds
  send to_ msg from_ alloc hfresh := by
    cases alloc with
    | none =>
      rw [send_failed]
      rfl
    | some p =>
      rcases eq_or_ne s.mailbox.head NULL with hhead | hhead
      · rw [csc452SendMsg, if_pos hhead]
        rfl
      · obtain ⟨hnull, hnew⟩ := hfresh p rfl
        obtain ⟨mb, hsend, -⟩ := h.send p.2 to_ msg from_ hnull hnew
          (fun heq => absurd heq hhead) rfl
        rw [hsend]
        rfl
  get to_ := by
    obtain ⟨t, ht, -⟩ := h.step (a := .get to_) trivial (by simp)
    obtain ⟨r, hget, -⟩ := Option.bind_eq_some_iff.mp ht
    rw [hget]
    rfl

/-- Whatever comes of it, a call does not leave a well-formed list behind when it
puts a node with another link into an empty mailbox. -/
theorem WellFormed.nullNext {s t : System} {a : Action} (hs : Lists Eq s.mailbox s.pending)
    (ht : WellFormed t) (hstep : s.step a = some t) : NullNext s a := by
  cases a with
  | get to_ => trivial
  | send to_ msg from_ alloc =>
    intro hhead p hp
    obtain rfl : alloc = some p := hp
    have hnil : s.pending = [] := by
      have hchain := hs.chain
      rw [hhead] at hchain
      simpa using hchain.eq_nil_of_null
    rw [System.step] at hstep
    split at hstep
    · rw [csc452SendMsg, if_pos hhead, hnil] at hstep
      obtain rfl := Option.some.inj hstep
      obtain ⟨q, hq, hrest⟩ := ht.visits.tail
      obtain rfl : q = NULL := hrest.1
      rw [Heap.next_insert_self] at hq
      exact Option.some.inj hq
    · cases hstep

/-- The memory of a send that leads somewhere was not in use. -/
theorem System.step_fresh {s t : System} {a : Action} (hstep : s.step a = some t) :
    ∀ to_ msg from_ alloc, a = .send to_ msg from_ alloc → Fresh s.mailbox.heap alloc := by
  rintro to_ msg from_ alloc rfl
  by_contra hno
  rw [System.step, if_neg hno] at hstep
  cases hstep

/-- **The list is well formed** in every state of a run, exactly when every message
that is sent to an empty mailbox gets a node whose link reads `NULL`. -/
theorem wellFormed_iff (as : List Action) :
    Runs.Always System.step WellFormed System.init as ↔
      Runs.Guarded System.step NullNext System.init as := by
  have hinit : Lists Eq System.init.mailbox System.init.pending := .init
  have hkeeps : ∀ {s a t}, Lists Eq s.mailbox s.pending → NullNext s a → s.step a = some t →
      Lists Eq t.mailbox t.pending := by
    intro s a t hs ha hstep
    obtain ⟨t', ht', hrest⟩ := hs.step ha (System.step_fresh hstep)
    obtain rfl := Option.some.inj (hstep.symm.trans ht')
    exact hrest
  constructor
  · intro h
    refine h.guarded (I := fun s => Lists Eq s.mailbox s.pending) hinit
      fun s a t _ hs hstep ht => ?_
    have ha := ht.nullNext hs hstep
    exact ⟨ha, hkeeps hs ha hstep⟩
  · intro h
    have hlists : Runs.Always System.step (fun s => Lists Eq s.mailbox s.pending) System.init as :=
      h.always hinit fun s a t => hkeeps
    exact hlists.mono fun s hs => hs.wellFormed

/-- The first message gets a node whose link reads 16. -/
theorem first_message_dangles :
    ¬ ∀ as, Runs.Always System.step WellFormed System.init as := by
  intro h
  let a : Action :=
    .send (.str []) (.str []) (.str []) (some (8, { bytes := fun _ => 0, next := 16 }))
  have hrun := (h [a]).2 _ rfl
  have hnext : NullNext System.init a := hrun.head.nullNext .init rfl
  exact absurd (hnext rfl _ rfl) (by decide)

end Csc452.Mail
