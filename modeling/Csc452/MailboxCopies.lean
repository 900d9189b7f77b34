import Csc452.MailboxDelivery

/-!
# Copies into the kernel and out of it

A message goes through two copies, from the sender's strings into a node and from
the node into the receiver's buffers, and both are cut off at the size of a field.
A string that does not fit is stored without a terminator, so what is read back
runs on into the next field; and none of the copies is checked for a fault.

* `survives_iff` — a message comes out of the kernel as it went in, cut to 32 and
  1023 characters, exactly when sender and text did not have to be cut and the
  recipient is found in its node;
* `stored_or_unchanged_iff` — a send that could not read its strings reports that
  exactly when it got no memory either.
-/

namespace Csc452.Mail

open LinkedList (Path)
open Bytes (Memory HoldsCopy)

/-! ## What a send leaves in a node -/

/-- The bytes a copy of at most `count` bytes stores, when it does not fault. -/
def UserString.stored? (src : UserString) (count : ℕ) : Option (List UInt8) :=
  match src with
  | .str s => some ((s ++ [0]).take count)
  | .fault s => if count ≤ s.length then some (s.take count) else none

/-- A copy writes no further than `count` bytes. -/
theorem strncpyFromUser_agreeOn {b k : ℕ} (m : Memory) (dst : ℕ) (src : UserString) (count : ℕ)
    (h : dst + count ≤ b ∨ b + k ≤ dst) :
    Bytes.AgreeOn m (strncpyFromUser m dst src count).1 b k := by
  cases src with
  | str s =>
    refine .write (h.imp_left fun h => ?_)
    have := List.length_take_le count (s ++ [0])
    omega
  | fault s =>
    refine .write (h.imp_left fun h => ?_)
    have := List.length_take_le count s
    omega

/-- A copy returns a count exactly when it stores what it was to store. -/
theorem strncpyFromUser_nonneg (m : Memory) (dst : ℕ) (src : UserString) (count : ℕ) :
    0 ≤ (strncpyFromUser m dst src count).2 ↔ (src.stored? count).isSome := by
  cases src with
  | str s => simp [strncpyFromUser, UserString.stored?]
  | fault s =>
    simp only [strncpyFromUser, UserString.stored?]
    split <;> simp

theorem strncpyFromUser_read {src : UserString} {count : ℕ} {bs : List UInt8}
    (h : src.stored? count = some bs) (m : Memory) (dst : ℕ) :
    Bytes.read (strncpyFromUser m dst src count).1 dst bs.length = bs ∧ bs.length ≤ count := by
  cases src with
  | str s =>
    obtain rfl := Option.some.inj h
    exact ⟨Bytes.read_write_self, List.length_take_le _ _⟩
  | fault s =>
    rw [UserString.stored?] at h
    split at h
    · obtain rfl := Option.some.inj h
      exact ⟨Bytes.read_write_self, List.length_take_le _ _⟩
    · cases h

/-- What the three `strncpy_from_user` calls return. -/
def Node.fillReturns (node : Node) (to_ msg from_ : UserString) : List ℤ :=
  let copyFrom := strncpyFromUser node.bytes fromOffset from_ nameSize
  let copyTo := strncpyFromUser copyFrom.1 toOffset to_ nameSize
  let copyMsg := strncpyFromUser copyTo.1 msgOffset msg msgSize
  [copyFrom.2, copyTo.2, copyMsg.2]

/-- The three strings are in the bytes of a node. -/
structure HoldsStored (bytes : Memory) (to_ msg from_ : UserString) : Prop where
  /-- the sender -/
  from_ : ∃ bs, from_.stored? nameSize = some bs ∧ Bytes.read bytes fromOffset bs.length = bs
  /-- the recipient -/
  to_ : ∃ bs, to_.stored? nameSize = some bs ∧ Bytes.read bytes toOffset bs.length = bs
  /-- the text -/
  msg : ∃ bs, msg.stored? msgSize = some bs ∧ Bytes.read bytes msgOffset bs.length = bs

/-- The later copies leave the fields filled before alone. -/
theorem Node.fill_agreeOn (node : Node) (to_ msg from_ : UserString) :
    let copyFrom := (strncpyFromUser node.bytes fromOffset from_ nameSize).1
    let copyTo := (strncpyFromUser copyFrom toOffset to_ nameSize).1
    Bytes.AgreeOn copyFrom (node.fill to_ msg from_).bytes fromOffset nameSize ∧
      Bytes.AgreeOn copyTo (node.fill to_ msg from_).bytes toOffset nameSize := by
  refine ⟨?_, ?_⟩
  · exact (strncpyFromUser_agreeOn _ _ _ _ (.inr (by decide))).trans
      (strncpyFromUser_agreeOn _ _ _ _ (.inr (by decide)))
  · exact strncpyFromUser_agreeOn _ _ _ _ (.inr (by decide))

/-- The strings are stored exactly when no copy faults. -/
theorem Node.fill_holdsStored (node : Node) (to_ msg from_ : UserString) :
    HoldsStored (node.fill to_ msg from_).bytes to_ msg from_ ↔
      ∀ ret ∈ node.fillReturns to_ msg from_, 0 ≤ ret := by
  simp only [fillReturns, List.forall_mem_cons, strncpyFromUser_nonneg, Option.isSome_iff_exists,
    List.not_mem_nil, false_implies, implies_true, and_true]
  obtain ⟨hagreeFrom, hagreeTo⟩ := node.fill_agreeOn to_ msg from_
  constructor
  · rintro ⟨⟨bs, hfrom, -⟩, ⟨bs', hto, -⟩, ⟨bs'', hmsg, -⟩⟩
    exact ⟨⟨bs, hfrom⟩, ⟨bs', hto⟩, ⟨bs'', hmsg⟩⟩
  · rintro ⟨⟨bs, hfrom⟩, ⟨bs', hto⟩, ⟨bs'', hmsg⟩⟩
    refine ⟨⟨bs, hfrom, ?_⟩, ⟨bs', hto, ?_⟩, ⟨bs'', hmsg, (strncpyFromUser_read hmsg _ _).1⟩⟩
    · obtain ⟨hread, hle⟩ := strncpyFromUser_read hfrom node.bytes fromOffset
      rw [← Bytes.read_congr (hagreeFrom.mono le_rfl (by omega)), hread]
    · obtain ⟨hread, hle⟩ := strncpyFromUser_read hto
        (strncpyFromUser node.bytes fromOffset from_ nameSize).1 toOffset
      rw [← Bytes.read_congr (hagreeTo.mono le_rfl (by omega)), hread]

/-- Strings that can be read leave their copies. -/
theorem Node.fill_holdsCopy (node : Node) (to_ msg from_ : List UInt8) :
    HoldsCopy (node.fill (.str to_) (.str msg) (.str from_)).bytes fromOffset nameSize from_ ∧
      HoldsCopy (node.fill (.str to_) (.str msg) (.str from_)).bytes toOffset nameSize to_ ∧
      HoldsCopy (node.fill (.str to_) (.str msg) (.str from_)).bytes msgOffset msgSize msg := by
  obtain ⟨hagreeFrom, hagreeTo⟩ := node.fill_agreeOn (.str to_) (.str msg) (.str from_)
  exact ⟨(HoldsCopy.write _ _ _ _).congr hagreeFrom, (HoldsCopy.write _ _ _ _).congr hagreeTo,
    HoldsCopy.write _ _ _ _⟩

/-- A send with memory returns 0, and the node at its address holds the bytes that
were filled in. -/
theorem send_some {mb mb' : Mailbox} {to_ msg from_ : UserString} {a : Addr} {node : Node} {ret : ℤ}
    (h : csc452SendMsg mb to_ msg from_ (some (a, node)) = some (mb', ret)) :
    ret = 0 ∧ ∃ node', mb'.heap.lookup a = some node' ∧
      node'.bytes = (node.fill to_ msg from_).bytes := by
  rw [csc452SendMsg] at h
  generalize node.fill to_ msg from_ = filled at h ⊢
  split at h
  · obtain ⟨rfl, rfl⟩ : _ = mb' ∧ 0 = ret := by simpa using h
    exact ⟨rfl, filled, AList.lookup_insert _, rfl⟩
  · simp only [Option.bind_eq_bind, Option.bind_eq_some_iff] at h
    obtain ⟨z, -, last, hlast, newNode, hnew, h⟩ := h
    obtain ⟨rfl, rfl⟩ : _ = mb' ∧ 0 = ret := by simpa using h
    refine ⟨rfl, _, AList.lookup_insert _, ?_⟩
    -- the node is the last of the list itself, or not touched by the link to it
    rcases eq_or_ne a z with rfl | hne
    · rw [AList.lookup_insert] at hnew hlast
      obtain rfl := Option.some.inj hnew
      obtain rfl := Option.some.inj hlast
      rfl
    · rw [AList.lookup_insert_ne hne, AList.lookup_insert] at hnew
      obtain rfl := Option.some.inj hnew
      rfl

/-! ## Sends that fault -/

/-- What is asked of a send: it returns 0 with the three strings in the node it got, or
a negative value and nothing has changed. -/
def StoredOrUnchanged (mb : Mailbox) (to_ msg from_ : UserString) (alloc : Option (Addr × Node))
    (mb' : Mailbox) (ret : ℤ) : Prop :=
  (ret = 0 ∧ ∃ a node node', alloc = some (a, node) ∧ mb'.heap.lookup a = some node' ∧
    HoldsStored node'.bytes to_ msg from_) ∨
  (ret < 0 ∧ mb' = mb)

/-- **A send that cannot store its message** leaves the list alone exactly when it got
no memory: with memory, it returns 0 and links the node, whatever the copies return. A
send into a list that ends, with memory not in use, does return. -/
theorem stored_or_unchanged_iff (mb : Mailbox) (to_ msg from_ : UserString)
    (alloc : Option (Addr × Node)) :
    (∀ ps, Lists Eq mb ps → Fresh mb.heap alloc →
      (csc452SendMsg mb to_ msg from_ alloc).isSome) ∧
    ∀ mb' ret, csc452SendMsg mb to_ msg from_ alloc = some (mb', ret) →
      (StoredOrUnchanged mb to_ msg from_ alloc mb' ret ↔
        ∀ a node, alloc = some (a, node) → ∀ r ∈ node.fillReturns to_ msg from_, 0 ≤ r) := by
  refine ⟨fun ps hlist hfresh => ?_, fun mb' ret h => ?_⟩
  · have hwf := Lists.wellFormed (s := { mailbox := mb, pending := ps }) hlist
    exact hwf.send to_ msg from_ alloc hfresh
  cases alloc with
  | none =>
    rw [send_failed] at h
    obtain ⟨rfl, rfl⟩ : mb = mb' ∧ -1 = ret := by simpa using h
    exact iff_of_true (.inr ⟨by decide, rfl⟩) fun a node hnone => nomatch hnone
  | some p =>
    obtain ⟨a, node⟩ := p
    obtain ⟨rfl, node', hnode', hbytes⟩ := send_some h
    constructor
    · rintro (⟨-, a', _, node'', hp, hnode'', hstored⟩ | ⟨hneg, -⟩) a node hp'
      · obtain ⟨rfl, rfl⟩ : a' = a ∧ _ = node := by simpa [hp] using hp'
        obtain ⟨rfl, rfl⟩ := Prod.mk.inj (Option.some.inj hp)
        rw [hnode'] at hnode''
        rw [← Option.some.inj hnode'', hbytes] at hstored
        exact (node.fill_holdsStored to_ msg from_).mp hstored
      · exact absurd hneg (by decide)
    · intro hret
      refine .inl ⟨rfl, a, node, node', rfl, hnode', ?_⟩
      rw [hbytes]
      exact (node.fill_holdsStored to_ msg from_).mpr (hret a node rfl)

/-- A send into an empty mailbox whose strings can be read. -/
theorem stored_or_unchanged_iff_empty :
    let node : Node := { bytes := fun _ => 0, next := NULL }
    (csc452SendMsg .init (.str [98]) (.str [104, 105]) (.str [97]) (some (8, node))).isSome ∧
      ∃ mb', csc452SendMsg .init (.str [98]) (.str [104, 105]) (.str [97]) (some (8, node)) =
          some (mb', 0) ∧
        StoredOrUnchanged .init (.str [98]) (.str [104, 105]) (.str [97]) (some (8, node)) mb' 0 := by
  intro node
  obtain ⟨hsome, hiff⟩ := stored_or_unchanged_iff .init (.str [98]) (.str [104, 105]) (.str [97])
    (some (8, node))
  refine ⟨hsome [] .init (by decide), _, rfl, (hiff _ _ rfl).mpr ?_⟩
  intro a node' heq ret hret
  simp only [Node.fillReturns, strncpyFromUser, List.mem_cons, List.not_mem_nil, or_false] at hret
  rcases hret with rfl | rfl | rfl <;> decide

/-- The recipient cannot be read. The send returns 0 and the message is linked. -/
theorem faulted_send_is_linked :
    let node : Node := { bytes := fun _ => 0, next := NULL }
    ∃ mb', csc452SendMsg .init (.fault []) (.str [104, 105]) (.str [97]) (some (8, node)) =
        some (mb', 0) ∧
      mb'.head = 8 ∧
      ¬ StoredOrUnchanged .init (.fault []) (.str [104, 105]) (.str [97]) (some (8, node)) mb' 0 := by
  refine ⟨_, rfl, rfl, ?_⟩
  rintro (⟨-, a, node', node'', -, -, hstored⟩ | ⟨hneg, -⟩)
  · obtain ⟨bs, hbs, -⟩ := hstored.to_
    cases hbs
  · exact absurd hneg (by decide)

/-! ## Messages that are cut off -/

/-- Calls after which the node at an address is still allocated. -/
inductive Later (a : Addr) : Mailbox → Mailbox → Prop where
  /-- no call -/
  | refl (mb : Mailbox) : Later a mb mb
  /-- a send, with memory not in use -/
  | send {mb mb₁ mb₂ : Mailbox} {to_ msg from_ : UserString} {alloc : Option (Addr × Node)}
    {ret : ℤ} : Later a mb mb₁ → Fresh mb₁.heap alloc →
      csc452SendMsg mb₁ to_ msg from_ alloc = some (mb₂, ret) → Later a mb mb₂
  /-- a get that does not take the node -/
  | get {mb mb₁ mb₂ : Mailbox} {to_ : List UInt8} {ret : ℤ} {d : Option Delivery} :
      Later a mb mb₁ → csc452GetMsg mb₁ to_ = some (mb₂, ret, d) → a ∈ mb₂.heap → Later a mb mb₂

/-- A get for `to_` comes to the node at an address: the nodes before it in the list
are for others. -/
def Reaches (mb : Mailbox) (to_ : List UInt8) (a : Addr) : Prop :=
  ∃ as, Path (Heap.next mb.heap) mb.head as a ∧ as.Nodup ∧ a ≠ NULL ∧ ∀ b ∈ as, b ≠ NULL ∧
    ∃ node, mb.heap.lookup b = some node ∧ Bytes.strcmpEq node.bytes toOffset to_ = false

/-- A get for `to_` takes the node at an address, and delivers and lets `osmsg` print
the sender and the text, cut off at 32 and at 1023 characters. -/
def Survives (mb : Mailbox) (to_ msg from_ : List UInt8) (a : Addr) : Prop :=
  ∃ mb' d, csc452GetMsg mb to_ = some (mb', 1, some d) ∧ a ∉ mb'.heap ∧
    Bytes.cstr? d.from_ = some (from_.take 32) ∧ Bytes.cstr? d.msg = some (msg.take 1023) ∧
    d.print? = some (from_.take 32 ++ " said: ".toUTF8.toList ++ msg.take 1023 ++ [10])

/-- The node at an address holds given bytes. -/
def HasBytes (heap : Heap) (a : Addr) (bytes : Memory) : Prop :=
  ∃ node, heap.lookup a = some node ∧ node.bytes = bytes

namespace HasBytes

variable {heap : Heap} {a b : Addr} {bytes : Memory} {node : Node}

theorem mem (h : HasBytes heap a bytes) : a ∈ heap := by
  obtain ⟨node, hnode, -⟩ := h
  exact AList.lookup_isSome.mp (by rw [hnode]; rfl)

theorem insert_ne (h : HasBytes heap a bytes) (hne : a ≠ b) :
    HasBytes (heap.insert b node) a bytes := by
  obtain ⟨node', hnode', hbytes⟩ := h
  exact ⟨node', by rw [AList.lookup_insert_ne hne, hnode'], hbytes⟩

theorem erase_ne (h : HasBytes heap a bytes) (hne : a ≠ b) : HasBytes (heap.erase b) a bytes := by
  obtain ⟨node', hnode', hbytes⟩ := h
  exact ⟨node', by rw [AList.lookup_erase_ne hne, hnode'], hbytes⟩

/-- Setting a link leaves the bytes of every node. -/
theorem setNext (h : HasBytes heap a bytes) (hb : heap.lookup b = some node) (q : Addr) :
    HasBytes (heap.insert b { node with next := q }) a bytes := by
  rcases eq_or_ne a b with rfl | hne
  · obtain ⟨node', hnode', hbytes⟩ := h
    obtain rfl : node' = node := Option.some.inj (hnode'.symm.trans hb)
    exact ⟨_, AList.lookup_insert _, hbytes⟩
  · exact h.insert_ne hne

/-- A send leaves the bytes of the nodes there are. -/
theorem send {mb mb' : Mailbox} {to_ msg from_ : UserString} {alloc : Option (Addr × Node)}
    {ret : ℤ} (h : HasBytes mb.heap a bytes) (hfresh : Fresh mb.heap alloc)
    (hsend : csc452SendMsg mb to_ msg from_ alloc = some (mb', ret)) :
    HasBytes mb'.heap a bytes := by
  cases alloc with
  | none =>
    rw [send_failed] at hsend
    obtain ⟨rfl, -⟩ : mb = mb' ∧ -1 = ret := by simpa using hsend
    exact h
  | some p =>
    obtain ⟨c, new⟩ := p
    have hne : a ≠ c := fun heq => (hfresh (c, new) rfl).2 (heq ▸ h.mem)
    rw [csc452SendMsg] at hsend
    split at hsend
    · obtain ⟨rfl, -⟩ : _ = mb' ∧ 0 = ret := by simpa using hsend
      exact h.insert_ne hne
    · simp only [Option.bind_eq_bind, Option.bind_eq_some_iff] at hsend
      obtain ⟨z, -, last, hlast, newNode, hnew, hsend⟩ := hsend
      obtain ⟨rfl, -⟩ : _ = mb' ∧ 0 = ret := by simpa using hsend
      exact ((h.insert_ne hne).setNext hlast c).setNext hnew NULL

/-- The loop of a get takes no node but one for its user. -/
theorem getLoop {mb mb' : Mailbox} {to_ : List UInt8} {ret : ℤ} {d : Option Delivery} {n : ℕ}
    {temp before : Addr} (h : HasBytes mb.heap a bytes)
    (hget : getLoop mb to_ n temp before = some (mb', ret, d)) :
    HasBytes mb'.heap a bytes ∨
      Bytes.strcmpEq bytes toOffset to_ = true ∧ d = some (deliver bytes) ∧ a ∉ mb'.heap := by
  induction n generalizing temp before with
  | zero => cases hget
  | succ n ih =>
    rw [Mail.getLoop] at hget
    split at hget
    · obtain ⟨rfl, -⟩ : mb = mb' ∧ _ := by simpa using hget
      exact .inl h
    simp only [Option.bind_eq_bind, Option.bind_eq_some_iff] at hget
    obtain ⟨node, hnode, hget⟩ := hget
    split at hget
    · rename_i hcmp
      rcases eq_or_ne a temp with rfl | hne
      · -- the node itself is taken
        obtain ⟨node', hnode', rfl⟩ := h
        obtain rfl : node' = node := Option.some.inj (hnode'.symm.trans hnode)
        refine .inr ⟨hcmp, ?_⟩
        split at hget
        · obtain ⟨rfl, -, rfl⟩ : _ = mb' ∧ 1 = ret ∧ _ = d := by simpa using hget
          exact ⟨rfl, by simp [AList.mem_erase]⟩
        · split at hget <;>
          · simp only [Option.bind_eq_some_iff] at hget
            obtain ⟨_, -, hget⟩ := hget
            obtain ⟨rfl, -, rfl⟩ : _ = mb' ∧ 1 = ret ∧ _ = d := by simpa using hget
            exact ⟨rfl, by simp [AList.mem_erase]⟩
      · refine .inl ?_
        split at hget
        · obtain ⟨rfl, -⟩ : _ = mb' ∧ _ := by simpa using hget
          exact h.erase_ne hne
        · split at hget <;>
          · simp only [Option.bind_eq_some_iff] at hget
            obtain ⟨prev, hprev, hget⟩ := hget
            obtain ⟨rfl, -⟩ : _ = mb' ∧ _ := by simpa using hget
            exact (h.setNext hprev _).erase_ne hne
    · exact ih hget

/-- And so does the get. -/
theorem getMsg {mb mb' : Mailbox} {to_ : List UInt8} {ret : ℤ} {d : Option Delivery}
    (h : HasBytes mb.heap a bytes) (hget : csc452GetMsg mb to_ = some (mb', ret, d)) :
    HasBytes mb'.heap a bytes ∨
      Bytes.strcmpEq bytes toOffset to_ = true ∧ d = some (deliver bytes) ∧ a ∉ mb'.heap := by
  rw [csc452GetMsg] at hget
  split at hget
  · obtain ⟨rfl, -⟩ : mb = mb' ∧ _ := by simpa using hget
    exact .inl h
  · exact h.getLoop hget

/-- A node still there has its bytes. -/
theorem later {mb mb' : Mailbox} (h : HasBytes mb.heap a bytes) (hlater : Later a mb mb') :
    HasBytes mb'.heap a bytes := by
  induction hlater with
  | refl => exact h
  | send _ hfresh hsend ih => exact ih.send hfresh hsend
  | get _ hget hmem ih => exact (ih.getMsg hget).resolve_right fun htaken => htaken.2.2 hmem

end HasBytes

/-- A get that comes to a node whose recipient matches takes it. -/
theorem Reaches.get {mb : Mailbox} {to_ : List UInt8} {a : Addr} {bytes : Memory}
    (h : Reaches mb to_ a) (hbytes : HasBytes mb.heap a bytes)
    (hcmp : Bytes.strcmpEq bytes toOffset to_ = true) :
    ∃ mb', csc452GetMsg mb to_ = some (mb', 1, some (deliver bytes)) ∧ a ∉ mb'.heap := by
  obtain ⟨as, hpath, hnodup, ha, has⟩ := h
  obtain ⟨node, hnode, rfl⟩ := hbytes
  let qs : List (Addr × Unit) := as.map fun b => (b, ())
  have hqs : qs.map Prod.fst = as := by simp [qs, Function.comp_def]
  have hholds : ∀ p ∈ qs, Heap.HoldsAs
      (fun bytes _ => Bytes.strcmpEq bytes toOffset to_ = false) mb.heap p := by
    intro p hp
    obtain ⟨b, hb, rfl⟩ := List.mem_map.mp hp
    exact (has b hb).2
  have hnull : NULL ∉ qs.map Prod.fst := by
    rw [hqs]
    exact fun hmem => (has NULL hmem).1 rfl
  -- the nodes on the way are distinct, so that the bound of the walk suffices
  have hlen : as.length ≤ mb.heap.keys.length := by
    refine (hnodup.subperm fun b hb => ?_).length_le
    obtain ⟨-, node', hnode', -⟩ := has b hb
    exact AList.lookup_isSome.mp (by rw [hnode']; rfl)
  obtain ⟨n, hn⟩ : ∃ n, mb.heap.keys.length + 1 = qs.length + (n + 1) :=
    ⟨mb.heap.keys.length - as.length, by simp [qs]; omega⟩
  have hhead : mb.head ≠ NULL := by
    cases as with
    | nil =>
      obtain rfl : mb.head = a := hpath
      exact ha
    | cons b as =>
      rw [hpath.head_eq]
      exact (has b List.mem_cons_self).1
  have hwalk : getLoop mb to_ (qs.length + (n + 1)) mb.head mb.head =
      getLoop mb to_ (n + 1) a (((qs.map Prod.fst).getLast?).getD mb.head) :=
    getLoop_skip (by rw [hqs]; exact hpath) hnull hholds fun p _ bytes hb => by simpa using hb
  rw [csc452GetMsg, if_neg hhead, hn, hwalk, hqs, getLoop, if_neg ha]
  simp only [hnode, Option.bind_eq_bind, Option.bind_some, if_pos hcmp]
  split
  · exact ⟨_, rfl, by simp [AList.mem_erase]⟩
  · rename_i hfirst
    -- the node is not the first one, so there is one before it
    obtain ⟨prev, hprev⟩ : ∃ prev, mb.heap.lookup ((as.getLast?).getD mb.head) = some prev := by
      rcases List.eq_nil_or_concat as with rfl | ⟨as', b, rfl⟩
      · exact absurd hpath.symm hfirst
      · obtain ⟨-, prev, hprev, -⟩ := has b (by simp)
        exact ⟨prev, by rwa [List.concat_eq_append, List.getLast?_concat, Option.getD_some]⟩
    simp only [hprev, Option.bind_some]
    split <;> exact ⟨_, rfl, by simp [AList.mem_erase]⟩

/-- A string in a field of 33 bytes is found there when it fits, and otherwise when
the text that follows is the rest of it. -/
theorem strcmpEq_iff_of_holdsCopy {bytes : Memory} {to_ msg : List UInt8}
    (hto : HoldsCopy bytes toOffset nameSize to_) (hmsg : Bytes.HoldsString bytes msgOffset msg)
    (hto0 : 0 ∉ to_) (hmsg0 : 0 ∉ msg) :
    Bytes.strcmpEq bytes toOffset to_ = true ↔ to_.length ≤ 32 ∨ to_.drop 33 = msg := by
  rw [Bytes.strcmpEq_iff]
  rcases Nat.lt_or_ge to_.length nameSize with hlt | hge
  · exact iff_of_true (hto.holdsString hlt) (.inl (Nat.le_of_lt_succ hlt))
  · have hlong : ¬ to_.length ≤ 32 := Nat.not_le_of_gt hge
    rw [or_iff_right hlong, hto.holdsString_iff hge]
    constructor
    · intro hrest
      exact hrest.unique hmsg (fun hmem => hto0 (List.mem_of_mem_drop hmem)) hmsg0
    · rintro rfl
      exact hmsg

/-- A text cut off at the last byte of its field is one with a terminator in it exactly
when nothing had to be cut off. -/
theorem cut_iff {s : List UInt8} {n : ℕ} :
    (if s.length < n + 1 then some s else none) = some (s.take n) ↔ s.length ≤ n := by
  split
  · rename_i h
    exact iff_of_true (by rw [List.take_of_length_le (by omega)]) (by omega)
  · rename_i h
    exact iff_of_false (by simp) (by omega)

/-- **Message content survives the kernel buffers** exactly when the sender has at most
32 characters and the text at most 1023, and the recipient has at most 32, or goes on
after 33 with the very text of the message. Between the send and the get that comes to
the message there may be any calls that leave it in the list. -/
theorem survives_iff {mb mb₁ mb₂ : Mailbox} {to_ msg from_ : List UInt8} {a : Addr} {node : Node}
    (hto : 0 ∉ to_) (hmsg : 0 ∉ msg) (hfrom : 0 ∉ from_)
    (hsend : csc452SendMsg mb (.str to_) (.str msg) (.str from_) (some (a, node)) = some (mb₁, 0))
    (hlater : Later a mb₁ mb₂) (hreach : Reaches mb₂ to_ a) :
    Survives mb₂ to_ msg from_ a ↔
      from_.length ≤ 32 ∧ msg.length ≤ 1023 ∧ (to_.length ≤ 32 ∨ to_.drop 33 = msg) := by
  obtain ⟨-, hbytes⟩ := send_some hsend
  have hbytes₂ := HasBytes.later hbytes hlater
  obtain ⟨hcopyFrom, hcopyTo, hcopyMsg⟩ := node.fill_holdsCopy to_ msg from_
  generalize (node.fill (.str to_) (.str msg) (.str from_)).bytes = bytes at *
  have hsender := hcopyFrom.cstr?_strncpy hfrom
  have htext := hcopyMsg.cstr?_strncpy hmsg
  constructor
  · rintro ⟨mb', d, hget, hgone, hd, hd', -⟩
    obtain ⟨hcmp, hdeliver, -⟩ := (hbytes₂.getMsg hget).resolve_left fun h => hgone h.mem
    obtain rfl := Option.some.inj hdeliver
    have hlen : msg.length ≤ 1023 := cut_iff.mp (htext.symm.trans hd')
    refine ⟨cut_iff.mp (hsender.symm.trans hd), hlen, ?_⟩
    exact (strcmpEq_iff_of_holdsCopy hcopyTo (hcopyMsg.holdsString (Nat.lt_succ_of_le hlen))
      hto hmsg).mp hcmp
  · rintro ⟨hlenFrom, hlen, hmatch⟩
    have hcmp := (strcmpEq_iff_of_holdsCopy hcopyTo (hcopyMsg.holdsString (Nat.lt_succ_of_le hlen))
      hto hmsg).mpr hmatch
    obtain ⟨mb', hget, hgone⟩ := hreach.get hbytes₂ hcmp
    have hd : Bytes.cstr? (deliver bytes).from_ = some (from_.take 32) :=
      hsender.trans (cut_iff.mpr hlenFrom)
    have hd' : Bytes.cstr? (deliver bytes).msg = some (msg.take 1023) :=
      htext.trans (cut_iff.mpr hlen)
    refine ⟨mb', deliver bytes, hget, hgone, hd, hd', ?_⟩
    rw [Delivery.print?, hd, hd']
    rfl

/-- A message to `b` from `a` that lies behind one to `c`. Before `b` gets it, there is
another one for him. -/
theorem survives_iff_between :
    let node : Node := { bytes := fun _ => 0, next := NULL }
    ∃ mb mb₁ mb₂,
      csc452SendMsg .init (.str [99]) (.str [120]) (.str [97]) (some (4, node)) = some (mb, 0) ∧
      csc452SendMsg mb (.str [98]) (.str [104, 105]) (.str [97]) (some (8, node)) = some (mb₁, 0) ∧
      csc452SendMsg mb₁ (.str [98]) (.str [121]) (.str [100]) (some (12, node)) = some (mb₂, 0) ∧
      Survives mb₂ [98] [104, 105] [97] 8 := by
  intro node
  let first : Node := node.fill (.str [99]) (.str [120]) (.str [97])
  let ours : Node := node.fill (.str [98]) (.str [104, 105]) (.str [97])
  let last : Node := node.fill (.str [98]) (.str [121]) (.str [100])
  let heap : Heap := (∅ : Heap).insert 4 first
  let heap₁ : Heap := ((heap.insert 8 ours).insert 4 { first with next := 8 }).insert 8
    { ours with next := NULL }
  let heap₂ : Heap := ((heap₁.insert 12 last).insert 8 { ours with next := 12 }).insert 12
    { last with next := NULL }
  have hsend : csc452SendMsg ⟨4, heap⟩ (.str [98]) (.str [104, 105]) (.str [97]) (some (8, node)) =
    some (⟨4, heap₁⟩, 0) := rfl
  have hafter : csc452SendMsg ⟨4, heap₁⟩ (.str [98]) (.str [121]) (.str [100]) (some (12, node)) =
    some (⟨4, heap₂⟩, 0) := rfl
  have hfresh : Fresh heap₁ (some (12, node)) := by decide
  -- the list starts with the message to `c`
  have hreach : Reaches ⟨4, heap₂⟩ [98] 8 := by
    refine ⟨[4], ⟨rfl, 8, rfl, rfl⟩, List.nodup_singleton 4, by decide, fun b hb => ?_⟩
    obtain rfl := List.mem_singleton.mp hb
    exact ⟨by decide, { first with next := 8 }, rfl, by decide⟩
  refine ⟨_, _, _, rfl, hsend, hafter, (survives_iff (by decide) (by decide) (by decide) hsend
    (.send (.refl _) hfresh hafter) hreach).mpr ?_⟩
  decide

/-- A sender of 33 characters: what the receiver gets as `from` has no terminator. -/
theorem long_sender_is_unterminated :
    let node : Node := { bytes := fun _ => 0, next := NULL }
    let from_ : List UInt8 := List.replicate 33 97
    ∃ mb, csc452SendMsg .init (.str [98]) (.str [104, 105]) (.str from_) (some (8, node)) =
        some (mb, 0) ∧
      Later 8 mb mb ∧ Reaches mb [98] 8 ∧ ¬ Survives mb [98] [104, 105] from_ 8 := by
  intro node from_
  refine ⟨_, rfl, .refl _, ?_, ?_⟩
  · exact ⟨[], rfl, List.nodup_nil, by decide, fun b hb => absurd hb List.not_mem_nil⟩
  · rintro ⟨mb', d, hget, hgone, hd, -⟩
    obtain ⟨hcopy, -⟩ := node.fill_holdsCopy [98] [104, 105] from_
    have hbytes : HasBytes ((∅ : Heap).insert 8
        (node.fill (.str [98]) (.str [104, 105]) (.str from_))) 8 _ :=
      ⟨_, AList.lookup_insert _, rfl⟩
    obtain ⟨-, hdeliver, -⟩ := (hbytes.getMsg hget).resolve_left fun h => hgone h.mem
    obtain rfl := Option.some.inj hdeliver
    -- the copy of the sender ends without a terminator
    have hnone := (hcopy.cstr?_strncpy (by decide)).symm.trans hd
    cases hnone

end Csc452.Mail
