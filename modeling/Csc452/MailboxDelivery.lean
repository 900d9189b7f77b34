import Csc452.MailboxList
import Mathlib.Algebra.Order.BigOperators.Group.List

/-!
# Mailbox delivery

The message list behaves as one FIFO queue per recipient.

The abstract model is `Queues`, a queue for every name, and the steps a call may
take over it (`Queues.Step`): a send that returns 0 puts its message at the end
of the recipient's queue, one that returns -1 changes nothing, and a get takes
the first message of its own user, or returns 0 when there is none.

The list is related to it in two moves. `Represents` says which messages the
nodes hold, in the order of the list; a send appends to that list (`send_spec`)
and a get removes the first message for its user (`get_found`). The queue of a user is then what
`pending` filters out of the list, so that removing one user's first message
cannot disturb the others.
-/

namespace Csc452.Mail

open LinkedList (Chain)
open Bytes (HoldsString)

/-- Text that fits a buffer of `n` bytes together with its terminator. -/
structure CText (n : ℕ) : Type where
  /-- the characters -/
  bytes : List UInt8
  /-- the terminator is not one of them -/
  noNul : 0 ∉ bytes
  /-- they leave room for it -/
  fits : bytes.length < n
  deriving DecidableEq

/-- A user name, of at most 32 characters. -/
abbrev Name : Type := CText nameSize

/-- The text of a message, of at most 1023 characters. -/
abbrev Text : Type := CText msgSize

/-- A message under way. -/
structure Message : Type where
  /-- the recipient, `to` -/
  to_ : Name
  /-- the text, `msg` -/
  msg : Text
  /-- the sender, `from` -/
  from_ : Name

/-- A text in a zero-padded buffer. -/
def CText.padded {n : ℕ} (s : CText n) : List UInt8 :=
  s.bytes ++ List.replicate (n - s.bytes.length) 0

/-- What the recipient of a message gets. -/
def Message.delivery (m : Message) : Delivery :=
  { msg := m.msg.padded, from_ := m.from_.padded }

/-- What `osmsg -r` prints for a message. -/
def Message.line (m : Message) : List UInt8 :=
  m.from_.bytes ++ " said: ".toUTF8.toList ++ m.msg.bytes ++ [10]

/-! ## Runs -/

/-- A call of one of the two system calls. -/
inductive Call : Type where
  /-- `csc452_send_msg` -/
  | send (m : Message)
  /-- `csc452_get_msg` for a user -/
  | get (user : Name)

/-- What a call returns. -/
inductive Reply : Type where
  /-- the value `csc452_send_msg` returns -/
  | sent (ret : ℤ)
  /-- the value `csc452_get_msg` returns, and what it delivered -/
  | got (ret : ℤ) (d : Option Delivery)

/-- Run one call. -/
def Call.exec (alloc : Option (Addr × Node)) (mb : Mailbox) : Call → Option (Mailbox × Reply)
  | .send m => do
    let (mb, ret) ←
      csc452SendMsg mb (.str m.to_.bytes) (.str m.msg.bytes) (.str m.from_.bytes) alloc
    some (mb, .sent ret)
  | .get user => do
    let (mb, ret, d) ← csc452GetMsg mb user.bytes
    some (mb, .got ret d)

/-- The allocator: what it returns may depend on how many calls there were and
on what is allocated. -/
abbrev Kmalloc : Type := ℕ → Heap → Option (Addr × Node)

/-- `kmalloc` fails or returns memory that is not in use and whose `next` field
reads `NULL`. -/
def Kmalloc.Spec (kmalloc : Kmalloc) : Prop :=
  ∀ n heap a node, kmalloc n heap = some (a, node) → a ≠ NULL ∧ a ∉ heap ∧ node.next = NULL

/-- Run the calls one at a time, the first of them as the `n`-th of the run. -/
def runCalls (kmalloc : Kmalloc) : ℕ → Mailbox → List Call → Option (Mailbox × List Reply)
  | _, mb, [] => some (mb, [])
  | n, mb, c :: calls => do
    let (mb, r) ← c.exec (kmalloc n mb.heap) mb
    let (mb, rs) ← runCalls kmalloc (n + 1) mb calls
    some (mb, r :: rs)

/-! ## The abstract model -/

/-- The messages sent to each user and not yet delivered, earliest first. -/
abbrev Queues : Type := Name → List Message

/-- What a call may do to the queues. -/
inductive Queues.Step : Queues → Call → Reply → Queues → Prop where
  /-- a message is sent -/
  | sent {q : Queues} {m : Message} :
    Step q (.send m) (.sent 0) (Function.update q m.to_ (q m.to_ ++ [m]))
  /-- a send fails -/
  | failed {q : Queues} {m : Message} : Step q (.send m) (.sent (-1)) q
  /-- the earliest message of a user is delivered -/
  | got {q : Queues} {user : Name} {m : Message} {ms : List Message} (h : q user = m :: ms) :
    Step q (.get user) (.got 1 (some m.delivery)) (Function.update q user ms)
  /-- there is nothing to deliver -/
  | empty {q : Queues} {user : Name} (h : q user = []) : Step q (.get user) (.got 0 none) q

/-- What a run of calls may do to the queues. -/
inductive Queues.Steps : Queues → List Call → List Reply → Queues → Prop where
  /-- no call -/
  | nil {q : Queues} : Steps q [] [] q
  /-- a call and the ones after it -/
  | cons {q q' q'' : Queues} {c : Call} {r : Reply} {calls : List Call} {rs : List Reply}
    (h : Step q c r q') (hs : Steps q' calls rs q'') : Steps q (c :: calls) (r :: rs) q''

/-- The queue of a user, as a part of the one list for all users. -/
def pending (ps : List (Addr × Message)) : Queues :=
  fun user => (ps.map Prod.snd).filter (·.to_ = user)

theorem pending_snoc (ps : List (Addr × Message)) (a : Addr) (m : Message) :
    pending (ps ++ [(a, m)]) = Function.update (pending ps) m.to_ (pending ps m.to_ ++ [m]) := by
  funext user
  rcases eq_or_ne user m.to_ with rfl | hne
  · simp [pending]
  · simp [pending, Function.update_of_ne hne, Ne.symm hne]

/-- Removing the first message of a user takes it off the user's queue, and off
no other. -/
theorem pending_remove {pre : List (Addr × Message)} {p : Addr × Message}
    (h : ∀ p' ∈ pre, p'.2.to_ ≠ p.2.to_) (post : List (Addr × Message)) :
    pending (pre ++ p :: post) p.2.to_ = p.2 :: pending (pre ++ post) p.2.to_ ∧
      pending (pre ++ post) =
        Function.update (pending (pre ++ p :: post)) p.2.to_ (pending (pre ++ post) p.2.to_) := by
  have hpre : (pre.map Prod.snd).filter (·.to_ = p.2.to_) = [] := by
    rw [List.filter_map, List.map_eq_nil_iff, List.filter_eq_nil_iff]
    simpa using h
  refine ⟨by simp [pending, hpre], ?_⟩
  funext user
  rcases eq_or_ne user p.2.to_ with rfl | hne
  · simp
  · simp [pending, Function.update_of_ne hne, Ne.symm hne]

theorem pending_eq_nil {ps : List (Addr × Message)} {user : Name} (h : ∀ p ∈ ps, p.2.to_ ≠ user) :
    pending ps user = [] := by
  rw [pending, List.filter_map, List.map_eq_nil_iff, List.filter_eq_nil_iff]
  simpa using h

/-- Either no message is for a user, or there is a first one. -/
theorem first_cases (ps : List (Addr × Message)) (user : Name) :
    (∀ p ∈ ps, p.2.to_ ≠ user) ∨
      ∃ pre p post, ps = pre ++ p :: post ∧ p.2.to_ = user ∧ ∀ p' ∈ pre, p'.2.to_ ≠ user := by
  induction ps with
  | nil => exact .inl fun p hp => absurd hp List.not_mem_nil
  | cons p ps ih =>
    rcases eq_or_ne p.2.to_ user with heq | hne
    · exact .inr ⟨[], p, ps, rfl, heq, fun p' hp' => absurd hp' List.not_mem_nil⟩
    · rcases ih with hnone | ⟨pre, p', post, rfl, heq, hpre⟩
      · exact .inl (List.forall_mem_cons.mpr ⟨hne, hnone⟩)
      · exact .inr ⟨p :: pre, p', post, rfl, heq, List.forall_mem_cons.mpr ⟨hne, hpre⟩⟩

/-! ## What the list holds -/

/-- The three strings of a node. -/
structure Node.HoldsMessage (node : Node) (m : Message) : Prop where
  /-- the sender -/
  from_ : HoldsString node.bytes fromOffset m.from_.bytes
  /-- the recipient -/
  to_ : HoldsString node.bytes toOffset m.to_.bytes
  /-- the text -/
  msg : HoldsString node.bytes msgOffset m.msg.bytes

/-- The node at an address holds a message. -/
def Heap.Holds (heap : Heap) (p : Addr × Message) : Prop :=
  ∃ node, heap.lookup p.1 = some node ∧ node.HoldsMessage p.2

/-- The list visits the given addresses, and their nodes hold the given
messages. -/
structure Represents (mb : Mailbox) (ps : List (Addr × Message)) : Prop where
  /-- the list -/
  chain : Chain (Heap.next mb.heap) NULL mb.head (ps.map Prod.fst)
  /-- the messages -/
  holds : ∀ p ∈ ps, Heap.Holds mb.heap p

/-- The list of messages is the list of nodes, read as messages. -/
theorem represents_iff_lists {mb : Mailbox} {ps : List (Addr × Message)} :
    Represents mb ps ↔
      Lists (fun bytes m => Node.HoldsMessage { bytes := bytes, next := NULL } m) mb ps := by
  have hiff : ∀ p, Heap.Holds mb.heap p ↔ Heap.HoldsAs
      (fun bytes m => Node.HoldsMessage { bytes := bytes, next := NULL } m) mb.heap p := by
    intro p
    constructor
    · rintro ⟨node, hnode, hm⟩
      exact ⟨node, hnode, hm.from_, hm.to_, hm.msg⟩
    · rintro ⟨node, hnode, hm⟩
      exact ⟨node, hnode, hm.from_, hm.to_, hm.msg⟩
  constructor
  · exact fun h => ⟨h.chain, fun p hp => (hiff p).mp (h.holds p hp)⟩
  · exact fun h => ⟨h.chain, fun p hp => (hiff p).mpr (h.holds p hp)⟩

theorem Represents.init : Represents Mailbox.init [] :=
  represents_iff_lists.mpr .init

variable {mb : Mailbox} {ps : List (Addr × Message)} {m : Message} {user : Name}

/-- A walk visits no more nodes than there are. -/
theorem Represents.length_le (h : Represents mb ps) : ps.length ≤ mb.heap.keys.length :=
  (represents_iff_lists.mp h).length_le

/-! ## Sending -/

/-- A text that fits is copied with its terminator. -/
theorem strncpyFromUser_str {n : ℕ} (s : CText n) (m : Bytes.Memory) (dst : ℕ) :
    (strncpyFromUser m dst (.str s.bytes) n).1 = Bytes.write m dst (s.bytes ++ [0]) := by
  have hlen : (s.bytes ++ [0]).length ≤ n := by simpa using Nat.succ_le_of_lt s.fits
  rw [strncpyFromUser, List.take_of_length_le hlen]

/-- The three copies do not overlap, so a filled node holds its message. -/
theorem Node.fill_holdsMessage (node : Node) (m : Message) :
    (node.fill (.str m.to_.bytes) (.str m.msg.bytes) (.str m.from_.bytes)).HoldsMessage m := by
  have hfrom := m.from_.fits
  have hto := m.to_.fits
  simp only [nameSize] at hfrom hto
  simp only [Node.fill, strncpyFromUser_str]
  refine ⟨?_, ?_, HoldsString.write_self _ _ _⟩
  · refine ((HoldsString.write_self _ _ _).congr (.write (.inr ?_))).congr (.write (.inr ?_))
    all_goals simp only [fromOffset, toOffset, msgOffset]; omega
  · refine (HoldsString.write_self _ _ _).congr (.write (.inr ?_))
    simp only [toOffset, msgOffset]; omega


/-- Only the branches without memory return -1. -/
theorem send_eq_neg_one {mb' : Mailbox} {to_ msg from_ : UserString} {alloc : Option (Addr × Node)}
    (h : csc452SendMsg mb to_ msg from_ alloc = some (mb', -1)) : mb' = mb ∧ alloc = none := by
  cases alloc with
  | none =>
    rw [csc452SendMsg] at h
    split at h
    · next hhead =>
      rw [← hhead] at h
      simpa using h.symm
    · simpa using h.symm
  | some p =>
    obtain ⟨a, node⟩ := p
    rw [csc452SendMsg] at h
    split at h
    · simp at h
    · simp [Option.bind_eq_some_iff] at h

/-- A send with memory appends its message to the list. -/
theorem send_spec {a : Addr} {node : Node} (h : Represents mb ps) (ha : a ≠ NULL)
    (hfresh : a ∉ mb.heap) (hnext : node.next = NULL) :
    ∃ mb', csc452SendMsg mb (.str m.to_.bytes) (.str m.msg.bytes) (.str m.from_.bytes)
        (some (a, node)) = some (mb', 0) ∧ Represents mb' (ps ++ [(a, m)]) := by
  have hfilled := node.fill_holdsMessage m
  obtain ⟨mb', hsend, hmb'⟩ := (represents_iff_lists.mp h).send node (.str m.to_.bytes)
    (.str m.msg.bytes) (.str m.from_.bytes) ha hfresh (fun _ => hnext)
    ⟨hfilled.from_, hfilled.to_, hfilled.msg⟩
  exact ⟨mb', hsend, represents_iff_lists.mpr hmb'⟩

/-! ## Getting -/

/-- Comparing with a node's recipient compares the names. -/
theorem Node.HoldsMessage.strcmpEq {node : Node} (h : node.HoldsMessage m) :
    Bytes.strcmpEq node.bytes toOffset user.bytes = true ↔ m.to_ = user := by
  rw [Bytes.strcmpEq_eq h.to_ user.noNul m.to_.noNul]
  constructor
  · intro heq
    cases hu : user
    cases hm : m.to_
    simp_all
  · rintro rfl
    rfl
/-- The copies of the two buffers of a node. -/
theorem Node.HoldsMessage.delivery {node : Node} (h : node.HoldsMessage m) :
    deliver node.bytes = m.delivery := by
  rw [deliver, Bytes.strncpy_of_holdsString h.msg m.msg.noNul m.msg.fits,
    Bytes.strncpy_of_holdsString h.from_ m.from_.noNul m.from_.fits]
  rfl

/-- A get for a user without messages. -/
theorem get_none (h : Represents mb ps) (hnone : ∀ p ∈ ps, p.2.to_ ≠ user) :
    csc452GetMsg mb user.bytes = some (mb, 0, none) := by
  refine (represents_iff_lists.mp h).get_none fun p hp bytes hm => ?_
  exact mt hm.strcmpEq.mp (hnone p hp)

/-- A get for a user takes the first message for the user out of the list. -/
theorem get_found {pre post : List (Addr × Message)} {p : Addr × Message}
    (h : Represents mb (pre ++ p :: post)) (hp : p.2.to_ = user)
    (hpre : ∀ p' ∈ pre, p'.2.to_ ≠ user) :
    ∃ mb', csc452GetMsg mb user.bytes = some (mb', 1, some p.2.delivery) ∧
      Represents mb' (pre ++ post) := by
  obtain ⟨mb', hget, hmb'⟩ := (represents_iff_lists.mp h).get_found
    (fun bytes hm => ⟨hm.strcmpEq.mpr hp, hm.delivery⟩)
    (fun p' hp' bytes hm => mt hm.strcmpEq.mp (hpre p' hp'))
  exact ⟨mb', hget, represents_iff_lists.mpr hmb'⟩

/-! ## Runs of calls -/

/-- One call does not fault, and does to the queues what it may do. -/
theorem Call.exec_spec {alloc : Option (Addr × Node)} (h : Represents mb ps)
    (halloc : ∀ a node, alloc = some (a, node) → a ≠ NULL ∧ a ∉ mb.heap ∧ node.next = NULL)
    (c : Call) :
    ∃ mb' r ps', c.exec alloc mb = some (mb', r) ∧ Represents mb' ps' ∧
      Queues.Step (pending ps) c r (pending ps') := by
  cases c with
  | send m =>
    cases alloc with
    | none =>
      refine ⟨mb, .sent (-1), ps, ?_, h, .failed⟩
      rw [Call.exec, send_failed]
      rfl
    | some p =>
      obtain ⟨a, node⟩ := p
      obtain ⟨ha, hfresh, hnext⟩ := halloc a node rfl
      obtain ⟨mb', hsend, hmb'⟩ := send_spec (m := m) h ha hfresh hnext
      refine ⟨mb', .sent 0, ps ++ [(a, m)], ?_, hmb', ?_⟩
      · rw [Call.exec, hsend]
        rfl
      · rw [pending_snoc]
        exact .sent
  | get user =>
    rcases first_cases ps user with hnone | ⟨pre, p, post, rfl, rfl, hpre⟩
    · refine ⟨mb, .got 0 none, ps, ?_, h, .empty (pending_eq_nil hnone)⟩
      rw [Call.exec, get_none h hnone]
      rfl
    · obtain ⟨mb', hget, hmb'⟩ := get_found h rfl hpre
      obtain ⟨hfirst, hrest⟩ := pending_remove hpre post
      refine ⟨mb', .got 1 (some p.2.delivery), pre ++ post, ?_, hmb', ?_⟩
      · rw [Call.exec, hget]
        rfl
      · rw [hrest]
        exact .got hfirst

/-- A run of calls does not fault, and every call does to the queues what it may
do. -/
theorem runCalls_spec {kmalloc : Kmalloc} (hk : kmalloc.Spec) (h : Represents mb ps) (n : ℕ)
    (calls : List Call) :
    ∃ mb' rs ps', runCalls kmalloc n mb calls = some (mb', rs) ∧ Represents mb' ps' ∧
      Queues.Steps (pending ps) calls rs (pending ps') := by
  induction calls generalizing n mb ps with
  | nil => exact ⟨mb, [], ps, rfl, h, .nil⟩
  | cons c calls ih =>
    obtain ⟨mb₁, r, ps₁, hexec, h₁, hstep⟩ := c.exec_spec h (hk n mb.heap)
    obtain ⟨mb₂, rs, ps₂, hrun, h₂, hsteps⟩ := ih h₁ (n + 1)
    refine ⟨mb₂, r :: rs, ps₂, ?_, h₂, .cons hstep hsteps⟩
    simp only [runCalls, hexec, hrun, Option.bind_eq_bind, Option.bind_some]

/-! ## The receive loop -/

/-- What the recipient of a message prints. -/
theorem Message.print?_delivery (m : Message) : m.delivery.print? = some m.line := by
  have hfrom := m.from_.fits
  have hmsg := m.msg.fits
  rw [Delivery.print?, Message.delivery, CText.padded, CText.padded,
    Bytes.cstr?_append_replicate m.from_.noNul (by omega),
    Bytes.cstr?_append_replicate m.msg.noNul (by omega)]
  rfl

/-- The loop prints the queue of the user and empties it. -/
theorem receiveLoop_spec {n : ℕ} (h : Represents mb ps) (hn : (pending ps user).length < n) :
    ∃ mb' ps', receiveLoop user.bytes n mb = some (mb', (pending ps user).map Message.line) ∧
      Represents mb' ps' ∧ pending ps' = Function.update (pending ps) user [] := by
  induction n generalizing mb ps with
  | zero => exact absurd hn (Nat.not_lt_zero _)
  | succ n ih =>
    rcases first_cases ps user with hnone | ⟨pre, p, post, rfl, rfl, hpre⟩
    · have hnil := pending_eq_nil hnone
      refine ⟨mb, ps, ?_, h, ?_⟩
      · rw [receiveLoop, get_none h hnone, hnil]
        rfl
      · rw [← hnil, Function.update_eq_self]
    · obtain ⟨mb₁, hget, h₁⟩ := get_found h rfl hpre
      obtain ⟨hfirst, hrest⟩ := pending_remove hpre post
      rw [hfirst] at hn ⊢
      obtain ⟨mb₂, ps₂, hloop, h₂, hempty⟩ := ih h₁ (by simpa using hn)
      refine ⟨mb₂, ps₂, ?_, h₂, ?_⟩
      · rw [receiveLoop, hget]
        simp only [Option.bind_eq_bind, Option.bind_some, if_pos, p.2.print?_delivery, hloop,
          List.map_cons]
      · rw [hempty, hrest, Function.update_idem]

/-- **Mailbox delivery.** Whatever `kmalloc` does within its specification, a run
of calls from the empty mailbox never faults and behaves as one FIFO queue per
recipient. In the state it reaches, a send that returns -1 is one without memory
and changes nothing, and `osmsg -r` prints exactly the pending messages of its
user in the order they were sent, and stops. -/
theorem mailbox_delivery {kmalloc : Kmalloc} (hk : kmalloc.Spec) (calls : List Call) :
    ∃ mb rs q, runCalls kmalloc 0 Mailbox.init calls = some (mb, rs) ∧
      Queues.Steps (fun _ => []) calls rs q ∧
      (∀ m n mb', (Call.send m).exec (kmalloc n mb.heap) mb = some (mb', .sent (-1)) →
        mb' = mb ∧ kmalloc n mb.heap = none) ∧
      ∀ user : Name, ∃ mb', osmsgReceive user.bytes mb = some (mb', (q user).map Message.line) := by
  obtain ⟨mb, rs, ps, hrun, h, hsteps⟩ := runCalls_spec hk Represents.init 0 calls
  refine ⟨mb, rs, pending ps, hrun, hsteps, ?_, ?_⟩
  · intro m n mb' hexec
    rw [Call.exec] at hexec
    obtain ⟨⟨mb₁, ret⟩, hsend, hret⟩ := Option.bind_eq_some_iff.mp hexec
    obtain ⟨rfl, rfl⟩ : mb₁ = mb' ∧ ret = -1 := by simpa using hret
    exact send_eq_neg_one hsend
  · intro user
    have hlen : (pending ps user).length < mb.heap.keys.length + 1 := by
      have hle := List.length_filter_le (·.to_ = user) (ps.map Prod.snd)
      rw [List.length_map] at hle
      exact Nat.lt_succ_of_le (hle.trans h.length_le)
    obtain ⟨mb', ps', hloop, -, -⟩ := receiveLoop_spec h hlen
    exact ⟨mb', hloop⟩

/-- An allocator that never fails: zeroed memory above everything in use. -/
def freshKmalloc : Kmalloc := fun _ heap =>
  some (heap.keys.sum + 1, { bytes := fun _ => 0, next := NULL })

theorem freshKmalloc_spec : freshKmalloc.Spec := by
  rintro n heap a node heq
  obtain ⟨rfl, rfl⟩ : heap.keys.sum + 1 = a ∧ { bytes := fun _ => 0, next := NULL } = node := by
    simpa [freshKmalloc] using heq
  refine ⟨Nat.succ_ne_zero _, fun hmem => ?_, rfl⟩
  exact absurd (List.le_sum_of_mem (AList.mem_keys.mp hmem)) (Nat.not_succ_le_self _)

/-- The run of a message from `a` to `b` and its receipt by `b`. -/
theorem mailbox_delivery_fresh :
    let a : Name := ⟨[97], by decide, by decide⟩
    let b : Name := ⟨[98], by decide, by decide⟩
    let m : Message := { to_ := b, msg := ⟨[104, 105], by decide, by decide⟩, from_ := a }
    ∃ mb rs q, runCalls freshKmalloc 0 Mailbox.init [.send m, .get b] = some (mb, rs) ∧
      Queues.Steps (fun _ => []) [.send m, .get b] rs q ∧
      (∀ m n mb', (Call.send m).exec (freshKmalloc n mb.heap) mb = some (mb', .sent (-1)) →
        mb' = mb ∧ freshKmalloc n mb.heap = none) ∧
      ∀ user : Name, ∃ mb', osmsgReceive user.bytes mb = some (mb', (q user).map Message.line) :=
  mailbox_delivery freshKmalloc_spec _

end Csc452.Mail
