import Csc452.Bytes
import Csc452.LinkedList
import Mathlib.Data.List.AList

/-!
# The message system calls

`csc452_send_msg` and `csc452_get_msg` as `sys.c` has them: one singly linked
list of nodes, headed by a global, for the messages of all users. A node is 1104
bytes of kernel memory: the three character arrays `from`, `to` and `msg` at
their offsets, and the link `next`. What `kmalloc` returns is not initialised,
so the contents of a fresh node are part of its outcome.

A kernel call returns `none` when it would touch a node that is not allocated
or walk for ever; the walks are bounded by the number of nodes allocated, which
a walk that ends never exceeds.

`osmsg.c` is here as well: the strings it passes and its receive loop.
-/

namespace Csc452.Mail

open Bytes (Memory)
open LinkedList (findLast)

/-- A kernel address; `0` is `NULL`. -/
abbrev Addr : Type := ℕ

/-- `NULL`. -/
def NULL : Addr := 0

/-- The size of `from` and of `to`: 32 characters and the NUL. -/
def nameSize : ℕ := 33

/-- The size of `msg`. -/
def msgSize : ℕ := 1024

/-- The offset of `from` in a node. -/
def fromOffset : ℕ := 0

/-- The offset of `to` in a node. -/
def toOffset : ℕ := 33

/-- The offset of `msg` in a node. -/
def msgOffset : ℕ := 66

/-- `struct Node`. -/
structure Node : Type where
  /-- the bytes of `from`, `to` and `msg` -/
  bytes : Memory
  /-- the link -/
  next : Addr

/-- The allocated nodes. -/
abbrev Heap : Type := AList fun _ : Addr => Node

/-- The state the two calls share. -/
structure Mailbox : Type where
  /-- the global `head` -/
  head : Addr
  /-- the nodes allocated and not freed -/
  heap : Heap

/-- `Node *head = NULL;` -/
def Mailbox.init : Mailbox := { head := NULL, heap := ∅ }

/-- The link of a node, when there is such a node. -/
def Heap.next (heap : Heap) (a : Addr) : Option Addr := (heap.lookup a).map Node.next

/-- What a user pointer points to: a string, or readable bytes without a NUL
that end at memory the kernel may not read. -/
inductive UserString : Type where
  /-- a string, without its terminator -/
  | str (s : List UInt8)
  /-- readable bytes before a fault -/
  | fault (s : List UInt8)

/-- `strncpy_from_user(dst, src, count)`: the destination afterwards and the
value returned, which none of the calls looks at. At most `count` bytes are
copied, the terminator included when there is room for it. -/
def strncpyFromUser (m : Memory) (dst : ℕ) (src : UserString) (count : ℕ) : Memory × ℤ :=
  match src with
  | .str s => (Bytes.write m dst ((s ++ [0]).take count), min s.length count)
  | .fault s =>
    (Bytes.write m dst (s.take count), if count ≤ s.length then count else -14)

/-- The three `strncpy_from_user` calls of `csc452_send_msg`, on a fresh node. -/
def Node.fill (node : Node) (to_ msg from_ : UserString) : Node :=
  let m := (strncpyFromUser node.bytes fromOffset from_ nameSize).1
  let m := (strncpyFromUser m toOffset to_ nameSize).1
  let m := (strncpyFromUser m msgOffset msg msgSize).1
  { node with bytes := m }

/-- `csc452_send_msg`. `alloc` is the outcome of `kmalloc`: the address and the
contents of the node, or `NULL`. -/
def csc452SendMsg (mb : Mailbox) (to_ msg from_ : UserString) (alloc : Option (Addr × Node)) :
    Option (Mailbox × ℤ) :=
  if mb.head = NULL then
    match alloc with
    | none => some ({ mb with head := NULL }, -1)
    | some (a, node) =>
      some ({ head := a, heap := mb.heap.insert a (node.fill to_ msg from_) }, 0)
  else
    match alloc with
    | none => some (mb, -1)
    | some (a, node) => do
      let heap := mb.heap.insert a (node.fill to_ msg from_)
      -- go to the last node
      let temp ← findLast (Heap.next heap) NULL heap.keys.length mb.head
      let last ← heap.lookup temp
      let heap := heap.insert temp { last with next := a }
      let newNode ← heap.lookup a
      let heap := heap.insert a { newNode with next := NULL }
      some ({ mb with heap := heap }, 0)

/-- What `csc452_get_msg` leaves in the user's buffers `msg` and `from`. -/
structure Delivery : Type where
  /-- the 1024 bytes of `msg` -/
  msg : List UInt8
  /-- the 33 bytes of `from` -/
  from_ : List UInt8
  deriving DecidableEq

/-- The loop of `csc452_get_msg`, with the number of turns left. -/
def getLoop (mb : Mailbox) (to_ : List UInt8) :
    ℕ → Addr → Addr → Option (Mailbox × ℤ × Option Delivery)
  | 0, _, _ => none
  | n + 1, temp, before =>
    if temp = NULL then some (mb, 0, none)
    else do
      let node ← mb.heap.lookup temp
      if Bytes.strcmpEq node.bytes toOffset to_ then
        let d : Delivery :=
          { msg := Bytes.strncpy node.bytes msgOffset msgSize
            from_ := Bytes.strncpy node.bytes fromOffset nameSize }
        if temp = mb.head then
          some ({ head := node.next, heap := mb.heap.erase temp }, 1, some d)
        else if node.next = NULL then do
          let prev ← mb.heap.lookup before
          let heap := mb.heap.insert before { prev with next := NULL }
          some ({ mb with heap := heap.erase temp }, 1, some d)
        else do
          let prev ← mb.heap.lookup before
          let heap := mb.heap.insert before { prev with next := node.next }
          some ({ mb with heap := heap.erase temp }, 1, some d)
      else getLoop mb to_ n node.next temp

/-- `csc452_get_msg`, for the user string `to_`: the value returned and what was
delivered. -/
def csc452GetMsg (mb : Mailbox) (to_ : List UInt8) : Option (Mailbox × ℤ × Option Delivery) :=
  if mb.head = NULL then some (mb, 0, none)
  else getLoop mb to_ (mb.heap.keys.length + 1) mb.head mb.head

/-- `printf("%s said: %s\n", from, msg)`; without a terminator in a buffer,
`printf` would read past it. -/
def Delivery.print? (d : Delivery) : Option (List UInt8) := do
  let sender ← Bytes.cstr? d.from_
  let text ← Bytes.cstr? d.msg
  some (sender ++ " said: ".toUTF8.toList ++ text ++ [10])

/-- The receive loop of `osmsg -r`: print messages until there is none. The
bound counts the calls. -/
def receiveLoop (user : List UInt8) : ℕ → Mailbox → Option (Mailbox × List (List UInt8))
  | 0, _ => none
  | n + 1, mb => do
    let (mb, ret, d) ← csc452GetMsg mb user
    if ret = 1 then do
      let d ← d
      let line ← d.print?
      let (mb, lines) ← receiveLoop user n mb
      some (mb, line :: lines)
    else some (mb, [])

/-- `osmsg -r` for a user: every turn of the loop frees a node. -/
def osmsgReceive (user : List UInt8) (mb : Mailbox) : Option (Mailbox × List (List UInt8)) :=
  receiveLoop user (mb.heap.keys.length + 1) mb

end Csc452.Mail
