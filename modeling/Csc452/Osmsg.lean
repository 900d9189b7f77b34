import Csc452.MailboxDelivery
import Csc452.Services

/-!
# Users and their processes

`main` of `osmsg.c`, as a process among others. What a process does between two system
calls concerns nobody else, so processes take turns: a turn is one system call, or the
line that is printed after it. Any number of processes may be under way, and anybody may
have started them.

A process finds its system calls in a `Kernel`. There is the one of `sys.c` (`csc452`) and
the one it stands for (`post`): a bag of letters, from which a user is handed the first one
that is addressed to him.
-/

namespace Csc452.Mail

/-! ## Letters -/

/-- A string that a process is started with: an argument, or a variable of its
environment. -/
structure Arg : Type where
  /-- the characters -/
  bytes : List UInt8
  /-- the terminator is not one of them -/
  noNul : 0 ∉ bytes

theorem Arg.bytes_inj {a b : Arg} : a.bytes = b.bytes ↔ a = b := by
  cases a
  cases b
  rw [Arg.mk.injEq]

instance : DecidableEq Arg := fun _ _ => decidable_of_iff _ Arg.bytes_inj

/-- What a send is given. -/
structure Letter : Type where
  /-- the recipient, `to` -/
  to_ : Arg
  /-- the text, `msg` -/
  msg : Arg
  /-- the sender, `from` -/
  from_ : Arg
  deriving DecidableEq

/-- A string in a zero-padded buffer of `n` bytes. -/
def Arg.padded (n : ℕ) (s : Arg) : List UInt8 :=
  s.bytes ++ List.replicate (n - s.bytes.length) 0

/-- What the recipient of a letter gets. -/
def Letter.delivery (l : Letter) : Delivery :=
  { msg := l.msg.padded msgSize, from_ := l.from_.padded nameSize }

/-- The strings of a letter fit their buffers. -/
structure Letter.Fits (l : Letter) : Prop where
  /-- the recipient -/
  to_ : l.to_.bytes.length < nameSize
  /-- the text -/
  msg : l.msg.bytes.length < msgSize
  /-- the sender -/
  from_ : l.from_.bytes.length < nameSize

/-! ## Kernels -/

/-- The outcome of `kmalloc`: no memory, or where there is some and what it holds, by what
is in use. -/
abbrev Alloc : Type := Option (Heap → Addr × Node)

/-- The two system calls, on a state of the kernel. -/
structure Kernel (M : Type) : Type where
  /-- `send_msg` -/
  sendMsg : M → Letter → Alloc → Option (M × ℤ)
  /-- `get_msg` -/
  getMsg : M → Arg → Option (M × ℤ × Option Delivery)

/-- The kernel of `sys.c`. -/
def csc452 : Kernel Mailbox where
  sendMsg mb l alloc :=
    csc452SendMsg mb (.str l.to_.bytes) (.str l.msg.bytes) (.str l.from_.bytes)
      (alloc.map fun new => new mb.heap)
  getMsg mb user := csc452GetMsg mb user.bytes

/-- A bag of letters, in the order in which they were sent. -/
def post : Kernel (List Letter) where
  sendMsg bag l alloc := if alloc.isSome then some (bag ++ [l], 0) else some (bag, -1)
  getMsg bag user :=
    match bag.find? (·.to_ = user) with
    | none => some (bag, 0, none)
    | some l => some (bag.eraseP (·.to_ = user), 1, some l.delivery)

section post

variable {bag : List Letter} {l : Letter} {user : Arg}

theorem post_getMsg_none (h : bag.find? (·.to_ = user) = none) :
    post.getMsg bag user = some (bag, 0, none) := by
  simp only [post, h]

theorem post_getMsg_some (h : bag.find? (·.to_ = user) = some l) :
    post.getMsg bag user = some (bag.eraseP (·.to_ = user), 1, some l.delivery) := by
  simp only [post, h]

end post

/-! ## Processes -/

/-- Where a process is. -/
inductive Process : Type where
  /-- before `send_msg` -/
  | sending (l : Letter)
  /-- behind it -/
  | sent (ret : ℤ)
  /-- before `get_msg`, in the condition of the loop -/
  | receiving (user : Arg)
  /-- in the body of the loop, with what is in `msg` and `from` -/
  | received (user : Arg) (d : Delivery)
  /-- `main` has returned -/
  | exited (status : ℤ)
  deriving DecidableEq

/-- The characters of a literal. -/
def text (s : String) : List UInt8 := s.toUTF8.toList

/-- `"-r"` -/
def receiveFlag : List UInt8 := [45, 114]

/-- `"-s"` -/
def sendFlag : List UInt8 := [45, 115]

/-- `main`, up to its first system call: what it prints and how it goes on. There is no
such thing when `USER` is not set, or does not fit the local that it is copied to. -/
def main (argv : List Arg) (env : Option Arg) : Option (List UInt8 × Process) :=
  let invalid := some (text "Invalid commands\n", Process.exited (-1))
  match argv with
  | [_, flag] =>
    if flag.bytes ≠ receiveFlag then invalid
    else do
      let user ← env
      if user.bytes.length < nameSize then some ([], .receiving user) else none
  | [_, flag, to_, msg] =>
    if flag.bytes ≠ sendFlag then invalid
    else do
      let user ← env
      if user.bytes.length < nameSize then some ([], .sending ⟨to_, msg, user⟩) else none
  | _ =>
    some (text ("Please have correct number of argument(s), the current count is " ++
      toString argv.length ++ "\n"), .exited (-1))

/-- What a sender prints about the value returned. -/
def report (ret : ℤ) : List UInt8 :=
  if ret = 0 then text "Send successful\n" else text "Send failed\n"

/-- What there is to see of a turn. -/
inductive Event : Type where
  /-- nothing: there is no such process, or it cannot go on -/
  | idle
  /-- the program or the kernel does something that has no meaning -/
  | undefined
  /-- a process is started, and prints something before its first system call -/
  | started (text : List UInt8)
  /-- `send_msg` returns -/
  | sent (l : Letter) (ret : ℤ)
  /-- a sender prints what came of it -/
  | reported (text : List UInt8)
  /-- `get_msg` returns, and may have delivered something -/
  | got (user : Arg) (d : Option Delivery)
  /-- a receiver prints a line -/
  | printed (line : List UInt8)
  deriving DecidableEq

variable {M : Type}

/-- A turn of a process that can go on. -/
def Process.turn (K : Kernel M) (mail : M) (alloc : Alloc) :
    Process → Option (Event × Process × M)
  | .sending l => do
    let (mail, ret) ← K.sendMsg mail l alloc
    some (.sent l ret, .sent ret, mail)
  | .sent ret => some (.reported (report ret), .exited (if ret = 0 then 0 else -1), mail)
  | .receiving user => do
    let (mail, ret, d) ← K.getMsg mail user
    if ret = 1 then do
      let d ← d
      some (.got user (some d), .received user d, mail)
    else some (.got user none, .exited 0, mail)
  | .received user d => do
    let line ← d.print?
    some (.printed line, .receiving user, mail)
  | .exited status => some (.idle, .exited status, mail)

/-! ## The system -/

/-- All processes, and the kernel they share. -/
structure Users (M : Type) : Type where
  /-- the state of the kernel -/
  mail : M
  /-- the processes started so far -/
  process : ℕ → Option Process

/-- Nobody has started anything. -/
def Users.init (mail : M) : Users M := { mail := mail, process := fun _ => none }

/-- A process goes on, and leaves the kernel in a state. -/
def Users.set (s : Users M) (mail : M) (i : ℕ) (p : Process) : Users M where
  mail := mail
  process := Function.update s.process i (some p)

@[simp] theorem Users.process_set_self (s : Users M) (mail : M) (i : ℕ) (p : Process) :
    (s.set mail i p).process i = some p := by
  simp [Users.set]

theorem Users.process_set_of_ne (s : Users M) (mail : M) {i j : ℕ} (p : Process) (h : j ≠ i) :
    (s.set mail i p).process j = s.process j := by
  simp [Users.set, h]

/-- What a process can do next. -/
inductive Move : Type where
  /-- it is started -/
  | start (argv : List Arg) (env : Option Arg)
  /-- it takes a turn; `alloc` is what `kmalloc` would return -/
  | turn (alloc : Alloc)

/-- A process does something, and is seen to do it. -/
def Users.serve (K : Kernel M) (s : Users M) (a : ℕ × Move) : (ℕ × Event) × Users M :=
  match a.2, s.process a.1 with
  | .start argv env, none =>
    match main argv env with
    | none => ((a.1, .undefined), s)
    | some (out, p) => ((a.1, .started out), s.set s.mail a.1 p)
  | .turn alloc, some p =>
    match p.turn K s.mail alloc with
    | none => ((a.1, .undefined), s)
    | some (e, p, mail) => ((a.1, e), s.set mail a.1 p)
  | _, _ => ((a.1, .idle), s)

variable {K : Kernel M} {s : Users M} {i : ℕ} {p p' : Process} {e : Event} {mail : M}

/-- What a turn can be, whatever the kernel does. -/
inductive Process.Turn : Process → Event → Process → Prop where
  /-- a letter is sent -/
  | sends (l : Letter) (ret : ℤ) : Turn (.sending l) (.sent l ret) (.sent ret)
  /-- a sender reports what came of it -/
  | reports (ret : ℤ) :
    Turn (.sent ret) (.reported (report ret)) (.exited (if ret = 0 then 0 else -1))
  /-- a receiver is handed something -/
  | takes (user : Arg) (d : Delivery) : Turn (.receiving user) (.got user (some d)) (.received user d)
  /-- there is nothing for it -/
  | stops (user : Arg) : Turn (.receiving user) (.got user none) (.exited 0)
  /-- it prints what it was handed -/
  | prints {user : Arg} {d : Delivery} {line : List UInt8} (h : d.print? = some line) :
    Turn (.received user d) (.printed line) (.receiving user)
  /-- `main` has returned -/
  | gone (status : ℤ) : Turn (.exited status) .idle (.exited status)

theorem Process.turn_cases {alloc : Alloc} {m : M} (h : p.turn K m alloc = some (e, p', mail)) :
    p.Turn e p' := by
  cases p with
  | sending l =>
    obtain ⟨⟨m', ret⟩, -, h⟩ := Option.bind_eq_some_iff.mp h
    obtain ⟨rfl, rfl, -⟩ : .sent l ret = e ∧ .sent ret = p' ∧ m' = mail := by simpa using h
    exact .sends l ret
  | sent ret =>
    obtain ⟨rfl, rfl, -⟩ : .reported (report ret) = e ∧ .exited _ = p' ∧ m = mail := by
      simpa [turn] using h
    exact .reports ret
  | receiving user =>
    obtain ⟨⟨m', ret, d⟩, -, h⟩ := Option.bind_eq_some_iff.mp h
    dsimp only at h
    by_cases hret : ret = 1
    · rw [if_pos hret] at h
      obtain ⟨d', -, h⟩ := Option.bind_eq_some_iff.mp h
      obtain ⟨rfl, rfl, -⟩ : .got user (some d') = e ∧ .received user d' = p' ∧ m' = mail := by
        simpa using h
      exact .takes user d'
    · rw [if_neg hret] at h
      obtain ⟨rfl, rfl, -⟩ : .got user none = e ∧ .exited 0 = p' ∧ m' = mail := by simpa using h
      exact .stops user
  | received user d =>
    obtain ⟨line, hline, h⟩ := Option.bind_eq_some_iff.mp h
    obtain ⟨rfl, rfl, -⟩ : .printed line = e ∧ .receiving user = p' ∧ m = mail := by simpa using h
    exact .prints hline
  | exited status =>
    obtain ⟨rfl, rfl, -⟩ : .idle = e ∧ .exited status = p' ∧ m = mail := by simpa [turn] using h
    exact .gone status

/-- `main` goes on to its first system call, or returns. -/
theorem main_cases {argv : List Arg} {env : Option Arg} {out : List UInt8}
    (h : main argv env = some (out, p)) :
    (∃ l, p = .sending l) ∨ (∃ user, p = .receiving user) ∨ p = .exited (-1) := by
  unfold main at h
  split at h
  · split at h
    · exact .inr (.inr (Prod.ext_iff.mp (Option.some.inj h)).2.symm)
    · obtain ⟨user, -, h⟩ := Option.bind_eq_some_iff.mp h
      obtain ⟨-, h⟩ := Option.ite_none_right_eq_some.mp h
      exact .inr (.inl ⟨user, (Prod.ext_iff.mp (Option.some.inj h)).2.symm⟩)
  · split at h
    · exact .inr (.inr (Prod.ext_iff.mp (Option.some.inj h)).2.symm)
    · obtain ⟨user, -, h⟩ := Option.bind_eq_some_iff.mp h
      obtain ⟨-, h⟩ := Option.ite_none_right_eq_some.mp h
      exact .inl ⟨_, (Prod.ext_iff.mp (Option.some.inj h)).2.symm⟩
  · exact .inr (.inr (Prod.ext_iff.mp (Option.some.inj h)).2.symm)

/-- What becomes of a process that does something. -/
inductive Users.Step (K : Kernel M) (s : Users M) : ℕ × Event → Users M → Prop where
  /-- nothing -/
  | quiet (i : ℕ) (e : Event) (he : e = .idle ∨ e = .undefined) : Step K s (i, e) s
  /-- it is started -/
  | started {i : ℕ} {argv : List Arg} {env : Option Arg} {out : List UInt8} {p : Process}
    (hi : s.process i = none) (hmain : main argv env = some (out, p)) :
    Step K s (i, .started out) (s.set s.mail i p)
  /-- it takes a turn -/
  | turned {i : ℕ} {alloc : Alloc} {p p' : Process} {e : Event} {mail : M}
    (hi : s.process i = some p) (hturn : p.turn K s.mail alloc = some (e, p', mail)) :
    Step K s (i, e) (s.set mail i p')

theorem Users.serve_started {argv : List Arg} {env : Option Arg} {out : List UInt8}
    (hi : s.process i = none) (hmain : main argv env = some (out, p)) :
    s.serve K (i, .start argv env) = ((i, .started out), s.set s.mail i p) := by
  simp only [serve, hi, hmain]

theorem Users.serve_turned {alloc : Alloc} (hi : s.process i = some p)
    (hturn : p.turn K s.mail alloc = some (e, p', mail)) :
    s.serve K (i, .turn alloc) = ((i, e), s.set mail i p') := by
  simp only [serve, hi, hturn]

/-- A process is started once. -/
theorem Users.serve_start_again {argv : List Arg} {env : Option Arg} (hi : s.process i = some p) :
    s.serve K (i, .start argv env) = ((i, .idle), s) := by
  simp only [serve, hi]

/-- And takes no turn before. -/
theorem Users.serve_turn_early {alloc : Alloc} (hi : s.process i = none) :
    s.serve K (i, .turn alloc) = ((i, .idle), s) := by
  simp only [serve, hi]

theorem Users.serve_step (K : Kernel M) (s : Users M) (a : ℕ × Move) :
    s.Step K (s.serve K a).1 (s.serve K a).2 := by
  obtain ⟨i, move⟩ := a
  cases hi : s.process i with
  | none =>
    cases move with
    | start argv env =>
      cases hmain : main argv env with
      | none =>
        simp only [serve, hi, hmain]
        exact .quiet i _ (.inr rfl)
      | some r =>
        rw [serve_started hi hmain]
        exact .started hi hmain
    | turn alloc =>
      rw [serve_turn_early hi]
      exact .quiet i _ (.inl rfl)
  | some p =>
    cases move with
    | start argv env =>
      rw [serve_start_again hi]
      exact .quiet i _ (.inl rfl)
    | turn alloc =>
      cases hturn : p.turn K s.mail alloc with
      | none =>
        simp only [serve, hi, hturn]
        exact .quiet i _ (.inr rfl)
      | some r =>
        obtain ⟨e, p', mail⟩ := r
        rw [serve_turned hi hturn]
        exact .turned hi hturn

/-! ## A receiver that is alone -/

/-- A process that takes turn after turn. -/
def turns (i n : ℕ) : List (ℕ × Move) := List.replicate n (i, .turn none)

/-- The loop in one piece is what is left of its turns when nobody else takes one. -/
theorem receiveLoop_turns {s : Users Mailbox} {mb : Mailbox} {user : Arg}
    {lines : List (List UInt8)} {n : ℕ} (hi : s.process i = some (.receiving user))
    (h : receiveLoop user.bytes n s.mail = some (mb, lines)) :
    Services.after (Users.serve csc452) s (turns i (2 * lines.length + 1)) =
      s.set mb i (.exited 0) := by
  induction n generalizing s lines with
  | zero => cases h
  | succ n ih =>
    obtain ⟨⟨mb₁, ret, d⟩, hget, h⟩ := Option.bind_eq_some_iff.mp h
    dsimp only at h
    by_cases hret : ret = 1
    · rw [if_pos hret] at h
      obtain ⟨d', hd, h⟩ := Option.bind_eq_some_iff.mp h
      obtain ⟨line, hline, h⟩ := Option.bind_eq_some_iff.mp h
      obtain ⟨⟨mb₂, rest⟩, hloop, h⟩ := Option.bind_eq_some_iff.mp h
      obtain ⟨rfl, rfl⟩ : mb₂ = mb ∧ line :: rest = lines := by simpa using h
      -- the call and the line it prints, then the loop again
      have htake : Process.turn csc452 s.mail none (.receiving user) =
          some (.got user (some d'), .received user d', mb₁) := by
        have hget' : csc452.getMsg s.mail user = some (mb₁, ret, d) := hget
        simp [Process.turn, hget', hret, hd]
      have hprint : Process.turn csc452 mb₁ none (.received user d') =
          some (.printed line, .receiving user, mb₁) := by
        simp [Process.turn, hline]
      have hrest := ih (Users.process_set_self (s.set mb₁ i (.received user d')) mb₁ i
        (.receiving user)) hloop
      have hlength : 2 * (line :: rest).length + 1 = (2 * rest.length + 1) + 1 + 1 := by
        rw [List.length_cons]
        ring
      rw [hlength, turns, List.replicate_succ, List.replicate_succ, Services.after, Services.after,
        Users.serve_turned hi htake,
        Users.serve_turned (Users.process_set_self s mb₁ i (.received user d')) hprint]
      refine hrest.trans ?_
      simp only [Users.set, Function.update_idem]
    · rw [if_neg hret] at h
      obtain ⟨rfl, rfl⟩ : mb₁ = mb ∧ [] = lines := by simpa using h
      have hturn : Process.turn csc452 s.mail none (.receiving user) =
          some (.got user none, .exited 0, mb₁) := by
        have hget' : csc452.getMsg s.mail user = some (mb₁, ret, d) := hget
        simp [Process.turn, hget', hret]
      show (s.serve csc452 (i, .turn none)).2 = _
      rw [Users.serve_turned hi hturn]

end Csc452.Mail
