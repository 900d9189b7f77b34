import Csc452.Osmsg
import Mathlib.Algebra.BigOperators.Ring.List

/-!
# Letters arrive

Processes of `osmsg` that share the kernel of `sys.c` are seen to do what they would do if
there was a bag of letters in its place (`serves_post`): the linked list of nodes holds the
letters of the bag, in their order. With the bag it is plain what becomes of a letter, in
whatever order the processes take their turns.

* `delivers` — what users are handed are the letters sent to them, each once and in the
  order in which they were sent, and a receiver prints all that it was handed; when it
  stops, nothing is left for its user, and it took no more than two turns for each letter.
-/

namespace Csc452.Mail

open Services (answers after Admits)

/-! ## The list and the bag -/

/-- A message, as it was given to `send_msg`. -/
def Message.letter (m : Message) : Letter where
  to_ := ⟨m.to_.bytes, m.to_.noNul⟩
  msg := ⟨m.msg.bytes, m.msg.noNul⟩
  from_ := ⟨m.from_.bytes, m.from_.noNul⟩

/-- A letter whose strings fit. -/
def Letter.Fits.message {l : Letter} (h : l.Fits) : Message where
  to_ := ⟨l.to_.bytes, l.to_.noNul, h.to_⟩
  msg := ⟨l.msg.bytes, l.msg.noNul, h.msg⟩
  from_ := ⟨l.from_.bytes, l.from_.noNul, h.from_⟩

/-- The list of nodes holds the letters of a bag. -/
def HoldsBag (mb : Mailbox) (bag : List Letter) : Prop :=
  ∃ ps, Represents mb ps ∧ bag = ps.map fun p => p.2.letter

/-- What the list needs of `kmalloc`: memory that is not in use and, for an empty bag, whose
`next` field reads `NULL`. The latter is no part of what `kmalloc` promises. But
`csc452_send_msg` does not set the link of the first node, and takes what is there. -/
def Alloc.Suits (alloc : Alloc) (bag : List Letter) : Prop :=
  ∀ new ∈ alloc, ∀ heap, (new heap).1 ≠ NULL ∧ (new heap).1 ∉ heap ∧
    (bag = [] → (new heap).2.next = NULL)

variable {mb : Mailbox} {bag : List Letter} {l : Letter} {alloc : Alloc} {user : Arg}

/-- Both kernels take a letter that fits, or have no memory for it. -/
theorem HoldsBag.sendMsg (h : HoldsBag mb bag) (hl : l.Fits) (halloc : alloc.Suits bag) :
    ∃ mb' ret bag', csc452.sendMsg mb l alloc = some (mb', ret) ∧
      post.sendMsg bag l alloc = some (bag', ret) ∧ HoldsBag mb' bag' := by
  obtain ⟨ps, hps, rfl⟩ := h
  cases alloc with
  | none =>
    have hsend : csc452.sendMsg mb l none = some (mb, -1) :=
      send_failed mb (.str l.to_.bytes) (.str l.msg.bytes) (.str l.from_.bytes)
    exact ⟨mb, -1, _, hsend, rfl, ps, hps, rfl⟩
  | some new =>
    obtain ⟨hnull, hfresh, hnext⟩ := halloc new rfl mb.heap
    have hempty : mb.head = NULL → (new mb.heap).2.next = NULL := by
      intro hhead
      have hchain := hps.chain
      rw [hhead] at hchain
      exact hnext (by simpa using hchain.eq_nil_of_null)
    have hfilled := (new mb.heap).2.fill_holdsMessage hl.message
    obtain ⟨mb', hsend, hmb'⟩ := (represents_iff_lists.mp hps).send (new mb.heap).2
      (.str l.to_.bytes) (.str l.msg.bytes) (.str l.from_.bytes) hnull hfresh hempty
      ⟨hfilled.from_, hfilled.to_, hfilled.msg⟩
    refine ⟨mb', 0, _, hsend, rfl, _, represents_iff_lists.mpr hmb', ?_⟩
    rw [List.map_append]
    rfl

/-- Both hand the user the same letter, or have none for him. -/
theorem HoldsBag.getMsg (h : HoldsBag mb bag) (huser : user.bytes.length < nameSize) :
    ∃ mb' ret d bag', csc452.getMsg mb user = some (mb', ret, d) ∧
      post.getMsg bag user = some (bag', ret, d) ∧ HoldsBag mb' bag' ∧
      (d.isSome ↔ ret = 1) ∧ ∀ d' ∈ d, d'.print?.isSome := by
  obtain ⟨ps, hps, rfl⟩ := h
  let name : Name := ⟨user.bytes, user.noNul, huser⟩
  have hname : ∀ m : Message, m.letter.to_ = user ↔ m.to_ = name := by
    rintro ⟨⟨to_, _, _⟩, _, _⟩
    obtain ⟨bytes, _⟩ := user
    simp [Message.letter, name]
  rcases first_cases ps name with hnone | ⟨pre, p, rest, rfl, hp, hpre⟩
  · have hfind : (ps.map fun p => p.2.letter).find? (·.to_ = user) = none := by
      simpa [hname] using hnone
    exact ⟨mb, 0, none, _, get_none hps hnone, post_getMsg_none hfind, ⟨ps, hps, rfl⟩, by simp,
      by simp⟩
  · obtain ⟨mb', hget, hmb'⟩ := get_found hps hp hpre
    have hskip : ∀ l ∈ pre.map fun p => p.2.letter, ¬ l.to_ = user := by
      intro l hl
      obtain ⟨p', hp', rfl⟩ := List.mem_map.mp hl
      exact mt (hname p'.2).mp (hpre p' hp')
    have hfound : p.2.letter.to_ = user := (hname _).mpr hp
    have hfind : ((pre ++ p :: rest).map fun p => p.2.letter).find? (·.to_ = user) =
        some p.2.letter := by
      rw [List.map_append, List.map_cons, List.find?_append,
        List.find?_eq_none.mpr (by simpa using hskip), Option.none_or,
        List.find?_cons_of_pos (by simpa using hfound)]
    have herase : ((pre ++ p :: rest).map fun p => p.2.letter).eraseP (·.to_ = user) =
        (pre ++ rest).map fun p => p.2.letter := by
      rw [List.map_append, List.map_cons, List.eraseP_append_right _ (by simpa using hskip),
        List.eraseP_cons_of_pos (by simpa using hfound), List.map_append]
    refine ⟨mb', 1, some p.2.delivery, _, hget, post_getMsg_some hfind, ⟨_, hmb', herase⟩,
      by simp, ?_⟩
    rintro d hd
    obtain rfl := Option.mem_some.mp hd
    rw [p.2.print?_delivery]
    rfl

/-! ## Turns -/

/-- What a process is about to pass to the kernel, or to print, is as it should be. -/
def Process.Fits : Process → Prop
  | .sending l => l.Fits
  | .receiving user => user.bytes.length < nameSize
  | .received user d => user.bytes.length < nameSize ∧ d.print?.isSome
  | .sent _ | .exited _ => True

/-- What is seen has a meaning, and only letters that fit are sent. -/
def Event.Proper : Event → Prop
  | .undefined => False
  | .sent l _ => l.Fits
  | .idle | .started _ | .reported _ | .got _ _ | .printed _ => True

/-- A turn, next to either kernel. -/
theorem Process.turn_spec {p : Process} (h : HoldsBag mb bag) (hp : p.Fits)
    (halloc : alloc.Suits bag) :
    ∃ e p' mb' bag', p.turn csc452 mb alloc = some (e, p', mb') ∧
      p.turn post bag alloc = some (e, p', bag') ∧ HoldsBag mb' bag' ∧ p'.Fits ∧ e.Proper := by
  cases p with
  | sending l =>
    obtain ⟨mb', ret, bag', hsend, hsend', hmb'⟩ := h.sendMsg hp halloc
    exact ⟨.sent l ret, .sent ret, mb', bag', by rw [turn, hsend]; rfl, by rw [turn, hsend']; rfl,
      hmb', trivial, hp⟩
  | sent ret => exact ⟨_, _, mb, bag, rfl, rfl, h, trivial, trivial⟩
  | receiving user =>
    obtain ⟨mb', ret, d, bag', hget, hget', hmb', hret, hprint⟩ := h.getMsg hp
    by_cases hone : ret = 1
    · obtain ⟨d', rfl⟩ := Option.isSome_iff_exists.mp (hret.mpr hone)
      refine ⟨.got user (some d'), .received user d', mb', bag', ?_, ?_, hmb',
        ⟨hp, hprint d' rfl⟩, trivial⟩
      · simp only [turn, hget, Option.bind_eq_bind, Option.bind_some, if_pos hone]
      · simp only [turn, hget', Option.bind_eq_bind, Option.bind_some, if_pos hone]
    · refine ⟨.got user none, .exited 0, mb', bag', ?_, ?_, hmb', trivial, trivial⟩
      · simp only [turn, hget, Option.bind_eq_bind, Option.bind_some, if_neg hone]
      · simp only [turn, hget', Option.bind_eq_bind, Option.bind_some, if_neg hone]
  | received user d =>
    obtain ⟨line, hline⟩ := Option.isSome_iff_exists.mp hp.2
    refine ⟨.printed line, .receiving user, mb, bag, ?_, ?_, h, hp.1, trivial⟩
    · simp only [turn, hline, Option.bind_eq_bind, Option.bind_some]
    · simp only [turn, hline, Option.bind_eq_bind, Option.bind_some]
  | exited status => exact ⟨.idle, .exited status, mb, bag, rfl, rfl, h, trivial, trivial⟩

/-! ## The refinement -/

/-- What users may do, by what is in the bag. `USER` is set, a name is shorter than 33 bytes
and a message shorter than 1024, so that each fits its buffer; and memory for the first node
of a list happens to read `NULL` where its link is (`Alloc.Suits`). -/
def Admitted (t : Users (List Letter)) (a : ℕ × Move) : Prop :=
  match a.2 with
  | .start argv env => ∃ r ∈ main argv env, r.2.Fits
  | .turn alloc => alloc.Suits t.mail

/-- The same processes are under way, and the list holds the letters of the bag. -/
structure Carries (s : Users Mailbox) (t : Users (List Letter)) : Prop where
  /-- the letters -/
  mail : HoldsBag s.mail t.mail
  /-- the processes -/
  process : s.process = t.process
  /-- what they carry -/
  fits : ∀ i p, t.process i = some p → p.Fits

theorem Carries.init : Carries (Users.init Mailbox.init) (Users.init []) where
  mail := ⟨[], .init, rfl⟩
  process := rfl
  fits i p hp := by cases hp

/-- A process goes on. -/
theorem Carries.update {s : Users Mailbox} {t : Users (List Letter)} (h : Carries s t) (i : ℕ)
    {p : Process} (hp : p.Fits) (hmail : HoldsBag mb bag) :
    Carries (s.set mb i p) (t.set bag i p) where
  mail := hmail
  process := by rw [Users.set, Users.set, h.process]
  fits j q hq := by
    rcases eq_or_ne j i with rfl | hne
    · rw [Users.process_set_self] at hq
      exact Option.some.inj hq ▸ hp
    · rw [Users.process_set_of_ne _ _ _ hne] at hq
      exact h.fits j q hq

/-- Whatever a user does, the same is to be seen. -/
theorem Carries.serve {s : Users Mailbox} {t : Users (List Letter)} (h : Carries s t)
    {a : ℕ × Move} (ha : Admitted t a) :
    ((s.serve csc452 a).1 = (t.serve post a).1 ∧
      Carries (s.serve csc452 a).2 (t.serve post a).2) ∧
      (s.serve csc452 a).1.2.Proper := by
  obtain ⟨i, move⟩ := a
  cases hi : t.process i with
  | none =>
    have hi' : s.process i = none := by rw [h.process, hi]
    cases move with
    | start argv env =>
      obtain ⟨⟨out, p⟩, hmain, hp⟩ := ha
      rw [Users.serve_started hi hmain, Users.serve_started hi' hmain]
      exact ⟨⟨rfl, h.update i hp h.mail⟩, trivial⟩
    | turn alloc =>
      rw [Users.serve_turn_early hi, Users.serve_turn_early hi']
      exact ⟨⟨rfl, h⟩, trivial⟩
  | some p =>
    have hi' : s.process i = some p := by rw [h.process, hi]
    cases move with
    | start argv env =>
      rw [Users.serve_start_again hi, Users.serve_start_again hi']
      exact ⟨⟨rfl, h⟩, trivial⟩
    | turn alloc =>
      obtain ⟨e, p', mb', bag', hturn, hturn', hmail, hp', he⟩ :=
        Process.turn_spec h.mail (h.fits i p hi) ha
      rw [Users.serve_turned hi hturn', Users.serve_turned hi' hturn]
      exact ⟨⟨rfl, h.update i hp' hmail⟩, he⟩

/-- The kernel of `sys.c` does what a bag of letters does. -/
theorem csc452_refines :
    Services.Refines (Users.serve csc452) (Users.serve post) id Admitted Carries :=
  ⟨fun _ h ha => (h.serve ha).1⟩

/-! ## What is seen -/

/-- The letters that `send_msg` takes. -/
def Event.accepted : Event → List Letter
  | .sent l ret => if ret = 0 then [l] else []
  | _ => []

/-- What `get_msg` delivers, and to whom. -/
def Event.delivered : Event → List (Arg × Delivery)
  | .got user (some d) => [(user, d)]
  | _ => []

/-- What can be printed of that. -/
def Event.legible : Event → List (List UInt8)
  | .got _ (some d) => d.print?.toList
  | _ => []

/-- The lines that are printed. -/
def Event.lines : Event → List (List UInt8)
  | .printed line => [line]
  | _ => []

/-- What a sender should report. -/
def Event.outcome : Event → List (List UInt8)
  | .sent _ ret => [report ret]
  | _ => []

/-- What it does report. -/
def Event.reports : Event → List (List UInt8)
  | .reported text => [text]
  | _ => []

/-- A turn of a receiver. -/
def Event.turns : Event → ℕ
  | .got _ _ | .printed _ => 1
  | _ => 0

variable {α : Type}

/-- What there is to see of one process. -/
def seen (i : ℕ) (f : Event → List α) (tr : List (ℕ × Event)) : List α :=
  tr.flatMap fun e => if e.1 = i then f e.2 else []

/-- The letters sent to a user. -/
def sentTo (user : Arg) (tr : List (ℕ × Event)) : List Letter :=
  tr.flatMap fun e => e.2.accepted.filter (·.to_ = user)

/-- What a user is handed, by whichever of his processes. -/
def handedTo (user : Arg) (tr : List (ℕ × Event)) : List Delivery :=
  tr.flatMap fun e => (e.2.delivered.filter (·.1 = user)).map Prod.snd

/-- The turns that a receiver takes. -/
def turnsOf (i : ℕ) (tr : List (ℕ × Event)) : ℕ :=
  (tr.map fun e => if e.1 = i then e.2.turns else 0).sum

/-- The line that is printed for a letter. -/
def Letter.line (l : Letter) : List UInt8 :=
  l.from_.bytes ++ text " said: " ++ l.msg.bytes ++ [10]

/-- **Letters arrive.** What there is to see of users who write letters to each other. -/
structure Delivers (tr : List (ℕ × Event)) : Prop where
  /-- whatever happens has a meaning -/
  defined : ∀ e ∈ tr, e.2 ≠ .undefined
  /-- a user is handed the letters sent to him, each once and in the order in which they
  were sent -/
  handed : ∀ user, handedTo user tr <+: (sentTo user tr).map Letter.delivery
  /-- and they can be printed -/
  legible : ∀ user, ∀ l ∈ sentTo user tr, l.delivery.print? = some l.line
  /-- a receiver prints what it was handed, in that order -/
  printed : ∀ i, seen i Event.lines tr <+: seen i Event.legible tr
  /-- when it stops, all of that is printed, and nothing is left for its user -/
  stopped : ∀ n i user, tr[n]? = some (i, .got user none) →
    seen i Event.lines (tr.take n) = seen i Event.legible (tr.take n) ∧
      handedTo user (tr.take n) = (sentTo user (tr.take n)).map Letter.delivery
  /-- it takes two turns for each letter, and one to stop -/
  turns : ∀ i, turnsOf i tr ≤ 2 * (seen i Event.delivered tr).length + 1
  /-- a sender reports the value that `send_msg` returned to it -/
  reported : ∀ i, seen i Event.reports tr <+: seen i Event.outcome tr

/-! ## The bag -/

/-- Taking the first letter of a user leaves the letters of the others. -/
theorem filter_eraseP (h : bag.find? (·.to_ = user) = some l) (user' : Arg) :
    bag.filter (·.to_ = user') =
      [l].filter (·.to_ = user') ++ (bag.eraseP (·.to_ = user)).filter (·.to_ = user') := by
  obtain ⟨hl, pre, rest, rfl, hpre⟩ := List.find?_eq_some_iff_append.mp h
  have hskip : ∀ x ∈ pre, ¬ decide (x.to_ = user) = true := by simpa using hpre
  have herase : (l :: rest).eraseP (·.to_ = user) = rest := List.eraseP_cons_of_pos hl
  rw [List.eraseP_append_right _ hskip, herase]
  by_cases huser : l.to_ = user'
  · have hnone : pre.filter (·.to_ = user') = [] := by
      rw [List.filter_eq_nil_iff, ← huser, of_decide_eq_true hl]
      exact hskip
    rw [List.filter_append, List.filter_append, hnone, List.nil_append, List.nil_append,
      List.filter_cons_of_pos (by simpa using huser), List.filter_cons_of_pos (by simpa using huser)]
    rfl
  · rw [List.filter_append, List.filter_append, List.filter_cons_of_neg (by simpa using huser),
      List.filter_cons_of_neg (by simpa using huser)]
    rfl

/-- The letters of a user, over a turn. -/
theorem Process.turn_bag {p p' : Process} {e : Event} {bag' : List Letter}
    (h : p.turn post bag alloc = some (e, p', bag')) (user : Arg) :
    (bag.filter (·.to_ = user)).map Letter.delivery ++
        (e.accepted.filter (·.to_ = user)).map Letter.delivery =
      (e.delivered.filter (·.1 = user)).map Prod.snd ++
        (bag'.filter (·.to_ = user)).map Letter.delivery := by
  cases p with
  | sending l =>
    cases alloc with
    | none =>
      obtain ⟨rfl, -, rfl⟩ : .sent l (-1) = e ∧ _ = p' ∧ bag = bag' := by simpa [turn, post] using h
      exact List.append_nil _
    | some new =>
      obtain ⟨rfl, -, rfl⟩ : .sent l 0 = e ∧ _ = p' ∧ bag ++ [l] = bag' := by
        simpa [turn, post] using h
      rw [List.filter_append, List.map_append]
      rfl
  | sent ret =>
    obtain ⟨rfl, -, rfl⟩ : .reported _ = e ∧ _ = p' ∧ bag = bag' := by simpa [turn] using h
    exact List.append_nil _
  | receiving user' =>
    cases hfind : bag.find? (·.to_ = user') with
    | none =>
      obtain ⟨rfl, -, rfl⟩ : .got user' none = e ∧ _ = p' ∧ bag = bag' := by
        simpa [turn, post_getMsg_none hfind] using h
      exact List.append_nil _
    | some l =>
      obtain ⟨rfl, -, rfl⟩ : .got user' (some l.delivery) = e ∧ _ = p' ∧
          bag.eraseP (·.to_ = user') = bag' := by
        simpa [turn, post_getMsg_some hfind] using h
      have hl : l.to_ = user' := by simpa using List.find?_some hfind
      rw [filter_eraseP hfind user, List.map_append, List.append_assoc, ← hl]
      simp only [Event.accepted, Event.delivered, List.filter_nil, List.map_nil, List.append_nil]
      congr 1
      by_cases huser : l.to_ = user <;> simp [huser]
  | received user' d =>
    obtain ⟨line, -, h⟩ := Option.bind_eq_some_iff.mp h
    obtain ⟨rfl, -, rfl⟩ : .printed line = e ∧ _ = p' ∧ bag = bag' := by simpa using h
    exact List.append_nil _
  | exited status =>
    obtain ⟨rfl, -, rfl⟩ : .idle = e ∧ _ = p' ∧ bag = bag' := by simpa [turn] using h
    exact List.append_nil _

/-- And over whatever a process does. -/
theorem Users.Step.turn_bag {t t' : Users (List Letter)} {e : ℕ × Event} (h : t.Step post e t')
    (user : Arg) :
    (t.mail.filter (·.to_ = user)).map Letter.delivery ++
        (e.2.accepted.filter (·.to_ = user)).map Letter.delivery =
      (e.2.delivered.filter (·.1 = user)).map Prod.snd ++
        (t'.mail.filter (·.to_ = user)).map Letter.delivery := by
  cases h with
  | quiet i e he => rcases he with rfl | rfl <;> exact List.append_nil _
  | started => exact List.append_nil _
  | turned _ hturn => exact Process.turn_bag hturn user

/-- Of the letters of a user, none is lost and none is handed out twice. -/
theorem bag_in_order (user : Arg) (t : Users (List Letter)) (as : List (ℕ × Move)) :
    (t.mail.filter (·.to_ = user)).map Letter.delivery ++
        (sentTo user (answers (Users.serve post) t as)).map Letter.delivery =
      handedTo user (answers (Users.serve post) t as) ++
        ((after (Users.serve post) t as).mail.filter (·.to_ = user)).map Letter.delivery := by
  rw [sentTo, List.map_flatMap, handedTo]
  exact Services.in_order
    (fun t : Users (List Letter) => (t.mail.filter (·.to_ = user)).map Letter.delivery)
    (fun e : ℕ × Event => (e.2.accepted.filter (·.to_ = user)).map Letter.delivery)
    (fun e : ℕ × Event => (e.2.delivered.filter (·.1 = user)).map Prod.snd)
    fun t a => (t.serve_step post a).turn_bag user

/-! ## One process -/

variable {M : Type} {K : Kernel M}

/-- What a process carries, and is seen to take up and to give away in its turns. -/
structure Carried (K : Kernel M) (carried : Process → List α) (put take : Event → List α) :
    Prop where
  /-- nothing, when it is started -/
  start : ∀ argv env, ∀ r ∈ main argv env, carried r.2 = []
  /-- a turn -/
  turn : ∀ {p : Process} {mail : M} {alloc : Alloc} {e p' mail'},
    p.turn K mail alloc = some (e, p', mail') → carried p ++ put e = take e ++ carried p'
  /-- no turn -/
  quiet : ∀ out, ∀ e ∈ [.idle, .undefined, .started out], put e = [] ∧ take e = []

/-- What one process carries, over whatever any of them does. -/
theorem Carried.step {carried : Process → List α} {put take : Event → List α}
    (h : Carried K carried put take) {s s' : Users M} {e : ℕ × Event} (hstep : s.Step K e s')
    (i : ℕ) :
    (s.process i).elim [] carried ++ (if e.1 = i then put e.2 else []) =
      (if e.1 = i then take e.2 else []) ++ (s'.process i).elim [] carried := by
  by_cases hi : e.1 = i
  · rw [if_pos hi, if_pos hi]
    subst hi
    cases hstep with
    | quiet i e he =>
      obtain ⟨hput, htake⟩ := h.quiet [] e (by rcases he with rfl | rfl <;> simp)
      rw [hput, htake, List.append_nil, List.nil_append]
    | @started i argv env out p hnone hmain =>
      obtain ⟨hput, htake⟩ := h.quiet out (.started out) (by simp)
      have hcarried : carried p = [] := h.start argv env (out, p) hmain
      rw [hput, htake, hnone, Users.process_set_self, Option.elim_some, hcarried]
      rfl
    | turned hsome hturn =>
      rw [hsome, Users.process_set_self]
      exact h.turn hturn
  · rw [if_neg hi, if_neg hi, List.append_nil, List.nil_append]
    cases hstep with
    | quiet => rfl
    | started => rw [Users.process_set_of_ne _ _ _ (Ne.symm hi)]
    | turned => rw [Users.process_set_of_ne _ _ _ (Ne.symm hi)]

theorem Carried.in_order {carried : Process → List α} {put take : Event → List α}
    (h : Carried K carried put take) (i : ℕ) (s : Users M) (as : List (ℕ × Move)) :
    (s.process i).elim [] carried ++ seen i put (answers (Users.serve K) s as) =
      seen i take (answers (Users.serve K) s as) ++
        ((after (Users.serve K) s as).process i).elim [] carried :=
  Services.in_order (fun s : Users M => (s.process i).elim [] carried) _ _
    fun s a => h.step (s.serve_step K a) i

/-- What a receiver is about to print. -/
def Process.unprinted : Process → List (List UInt8)
  | .received _ d => d.print?.toList
  | _ => []

/-- What a sender is about to print. -/
def Process.unreported : Process → List (List UInt8)
  | .sent ret => [report ret]
  | _ => []

/-- The turns that a receiver is sure to have left. -/
def Process.left : Process → ℕ
  | .receiving _ => 1
  | .received _ _ => 2
  | _ => 0

theorem receiver_carries : Carried K Process.unprinted Event.legible Event.lines where
  start argv env r hr := by
    rcases main_cases hr with ⟨l, hl⟩ | ⟨user, huser⟩ | hexit
    · rw [hl, Process.unprinted]
      exact fun user d => Process.noConfusion
    · rw [huser]
      rfl
    · rw [hexit]
      rfl
  turn h := by
    cases Process.turn_cases h with
    | prints hline => simp [Process.unprinted, Event.legible, Event.lines, hline]
    | takes user d => simp [Process.unprinted, Event.legible, Event.lines]
    | sends | reports | stops | gone => rfl
  quiet out e he := by
    simp only [List.mem_cons, List.not_mem_nil, or_false] at he
    rcases he with rfl | rfl | rfl <;> exact ⟨rfl, rfl⟩

theorem sender_carries : Carried K Process.unreported Event.outcome Event.reports where
  start argv env r hr := by
    rcases main_cases hr with ⟨l, hl⟩ | ⟨user, huser⟩ | hexit
    · rw [hl]
      rfl
    · rw [huser]
      rfl
    · rw [hexit]
      rfl
  turn h := by
    cases Process.turn_cases h <;> rfl
  quiet out e he := by
    simp only [List.mem_cons, List.not_mem_nil, or_false] at he
    rcases he with rfl | rfl | rfl <;> exact ⟨rfl, rfl⟩

/-- A turn is paid for by what is delivered, but for one. -/
theorem Process.Turn.left {p p' : Process} {e : Event} (h : p.Turn e p') :
    e.turns + p'.left ≤ p.left + 2 * e.delivered.length := by
  cases h <;> exact le_rfl

theorem Users.Step.left {s s' : Users M} {e : ℕ × Event} (h : s.Step K e s') (i : ℕ) :
    (if e.1 = i then e.2.turns else 0) + (s'.process i).elim 1 Process.left ≤
      (s.process i).elim 1 Process.left + if e.1 = i then 2 * e.2.delivered.length else 0 := by
  by_cases hi : e.1 = i
  · rw [if_pos hi, if_pos hi]
    subst hi
    cases h with
    | quiet i e he => rcases he with rfl | rfl <;> simp [Event.turns]
    | started hnone hmain =>
      rw [hnone, Users.process_set_self, Option.elim_some, Option.elim_none]
      rcases main_cases hmain with ⟨l, rfl⟩ | ⟨user, rfl⟩ | rfl <;> simp [Event.turns, Process.left]
    | turned hsome hturn =>
      rw [hsome, Users.process_set_self]
      exact (Process.turn_cases hturn).left
  · rw [if_neg hi, if_neg hi, Nat.zero_add, Nat.add_zero]
    cases h with
    | quiet => exact le_rfl
    | started => rw [Users.process_set_of_ne _ _ _ (Ne.symm hi)]
    | turned => rw [Users.process_set_of_ne _ _ _ (Ne.symm hi)]

/-- A receiver that has been handed `k` letters has taken at most `2 * k + 1` turns. -/
theorem turnsOf_le (i : ℕ) (mail : M) (as : List (ℕ × Move)) :
    turnsOf i (answers (Users.serve K) (Users.init mail) as) ≤
      2 * (seen i Event.delivered (answers (Users.serve K) (Users.init mail) as)).length + 1 := by
  have hpaid := Services.amortised
    (fun s : Users M => (s.process i).elim 1 Process.left)
    (fun e : ℕ × Event => if e.1 = i then e.2.turns else 0)
    (fun e : ℕ × Event => if e.1 = i then 2 * e.2.delivered.length else 0)
    (fun s a => (s.serve_step K a).left i) (Users.init mail) as
  have hcredit : ∀ tr : List (ℕ × Event),
      (tr.map fun e => if e.1 = i then 2 * e.2.delivered.length else 0).sum =
        2 * (seen i Event.delivered tr).length := by
    intro tr
    rw [seen, List.length_flatMap, ← List.sum_map_mul_left]
    refine congrArg List.sum (List.map_congr_left fun e _ => ?_)
    split <;> rfl
  rw [hcredit] at hpaid
  rw [Nat.add_comm _ 1]
  exact (Nat.le_add_right _ _).trans hpaid

/-- A receiver stops when there is nothing in the bag for its user. -/
theorem Users.Step.stopped {t t' : Users (List Letter)} {i : ℕ} {user : Arg}
    (h : t.Step post (i, .got user none) t') :
    t.process i = some (.receiving user) ∧ t.mail.filter (·.to_ = user) = [] := by
  cases h with
  | quiet _ _ he => rcases he with he | he <;> cases he
  | turned hi hturn =>
    cases Process.turn_cases hturn
    refine ⟨hi, ?_⟩
    cases hfind : t.mail.find? (·.to_ = user) with
    | none => simpa using List.find?_eq_none.mp hfind
    | some l => simp [Process.turn, post_getMsg_some hfind] at hturn

/-! ## Results -/

/-- A letter that fits can be printed. -/
theorem Letter.Fits.print?_delivery {l : Letter} (h : l.Fits) :
    l.delivery.print? = some l.line := h.message.print?_delivery

/-- A letter that is sent fits. -/
theorem Event.Proper.fits {e : Event} {l : Letter} (h : e.Proper) (hl : l ∈ e.accepted) :
    l.Fits := by
  cases e with
  | sent l' ret =>
    have hsame : ret = 0 ∧ l = l' := by simpa [Event.accepted] using hl
    exact hsame.2 ▸ h
  | idle | undefined | started | reported | got | printed => exact absurd hl List.not_mem_nil

/-- What is seen is what is seen with a bag of letters, and it is as it should be. -/
theorem answers_post {as : List (ℕ × Move)}
    (h : Admits (Users.serve post) Admitted (Users.init []) as) :
    answers (Users.serve csc452) (Users.init Mailbox.init) as =
        answers (Users.serve post) (Users.init []) as ∧
      ∀ e ∈ answers (Users.serve post) (Users.init []) as, e.2.Proper := by
  have hadmits : Admits (Users.serve post) Admitted (Users.init []) (as.map id) := by
    rwa [List.map_id]
  have hanswers := csc452_refines.answers_eq .init hadmits
  have hproper := csc452_refines.forall_answers (P := fun e => e.2.Proper)
    (fun a hc ha => (hc.serve ha).2) .init hadmits
  rw [List.map_id] at hanswers
  exact ⟨hanswers, hanswers ▸ hproper⟩

/-- Memory above everything in use. -/
def zeroed : Alloc := some fun heap => (heap.keys.sum + 1, { bytes := fun _ => 0, next := NULL })

theorem zeroed_suits (bag : List Letter) : zeroed.Suits bag := by
  intro new hnew heap
  obtain rfl := Option.mem_some.mp hnew
  refine ⟨Nat.succ_ne_zero _, fun hmem => ?_, fun _ => rfl⟩
  exact absurd (List.le_sum_of_mem (AList.mem_keys.mp hmem)) (Nat.not_succ_le_self _)

/-- `a` writes to `b`, who looks for messages. -/
def aWritesToB : List (ℕ × Move) :=
  let a : Arg := ⟨[97], by decide⟩
  let b : Arg := ⟨[98], by decide⟩
  let osmsg : Arg := ⟨[111], by decide⟩
  [(0, .start [osmsg, ⟨[45, 115], by decide⟩, b, ⟨[104, 105], by decide⟩] (some a)),
    (1, .start [osmsg, ⟨[45, 114], by decide⟩] (some b)),
    (0, .turn zeroed), (1, .turn zeroed), (1, .turn zeroed), (0, .turn zeroed), (1, .turn zeroed)]

theorem aWritesToB_admitted :
    Admits (Users.serve post) Admitted (Users.init []) aWritesToB := by
  have hsend : ([], Process.sending ⟨⟨[98], by decide⟩, ⟨[104, 105], by decide⟩, ⟨[97], by decide⟩⟩) ∈
      main [⟨[111], by decide⟩, ⟨[45, 115], by decide⟩, ⟨[98], by decide⟩, ⟨[104, 105], by decide⟩]
        (some ⟨[97], by decide⟩) := rfl
  have hreceive : ([], Process.receiving ⟨[98], by decide⟩) ∈
      main [⟨[111], by decide⟩, ⟨[45, 114], by decide⟩] (some ⟨[98], by decide⟩) := rfl
  refine ⟨⟨_, hsend, ⟨by decide, by decide, by decide⟩⟩, ⟨_, hreceive, Nat.one_lt_ofNat⟩, ?_⟩
  exact ⟨zeroed_suits _, zeroed_suits _, zeroed_suits _, zeroed_suits _, zeroed_suits _, trivial⟩

/-- **The list is a bag of letters.** Whatever users do, and in whatever order their
processes take turns, there is to be seen what is seen with a bag of letters, as long as
strings fit their buffers and memory suits the list (`Admitted`). Without the latter the
first node may be linked to anything. -/
theorem serves_post {as : List (ℕ × Move)}
    (h : Admits (Users.serve post) Admitted (Users.init []) as) :
    answers (Users.serve csc452) (Users.init Mailbox.init) as =
      answers (Users.serve post) (Users.init []) as :=
  (answers_post h).1

theorem serves_post_one_letter :
    answers (Users.serve csc452) (Users.init Mailbox.init) aWritesToB =
      answers (Users.serve post) (Users.init []) aWritesToB :=
  serves_post aWritesToB_admitted

/-- **Letters arrive**, whatever users do, and in whatever order their processes take turns,
as long as strings fit their buffers and memory suits the list (`Admitted`). What this means
is in `Delivers`: nothing undefined happens, each user is handed the letters to him in the
order in which they were sent, and a receiver that stops has left none. -/
theorem delivers {as : List (ℕ × Move)}
    (h : Admits (Users.serve post) Admitted (Users.init []) as) :
    Delivers (answers (Users.serve csc452) (Users.init Mailbox.init) as) := by
  obtain ⟨heq, hproper⟩ := answers_post h
  rw [heq]
  have hhanded := fun user as => bag_in_order user (Users.init []) as
  have hprinted := fun i as => (receiver_carries (K := post)).in_order i (Users.init []) as
  have hreported := fun i as => (sender_carries (K := post)).in_order i (Users.init []) as
  refine ⟨?_, ?_, ?_, ?_, ?_, ?_, ?_⟩
  · rintro e he hundefined
    have hp := hproper e he
    rw [hundefined] at hp
    exact hp
  · exact fun user => ⟨_, (hhanded user as).symm⟩
  · intro user l hl
    obtain ⟨e, he, hle⟩ := List.mem_flatMap.mp hl
    exact ((hproper e he).fits (List.mem_of_mem_filter hle)).print?_delivery
  · exact fun i => ⟨_, (hprinted i as).symm⟩
  · intro n i user hn
    rw [Services.getElem?_answers] at hn
    obtain ⟨a, -, ha⟩ := Option.map_eq_some_iff.mp hn
    have hstep := (after (Users.serve post) (Users.init []) (as.take n)).serve_step post a
    rw [ha] at hstep
    obtain ⟨hi, hbag⟩ := hstep.stopped
    have hlines := hprinted i (as.take n)
    have hletters := hhanded user (as.take n)
    have hnone : Process.unprinted (.receiving user) = [] := rfl
    rw [hi, Option.elim_some, hnone, List.append_nil] at hlines
    rw [hbag, List.map_nil, List.append_nil] at hletters
    rw [← Services.answers_take]
    exact ⟨hlines.symm, hletters.symm⟩
  · exact fun i => turnsOf_le i _ as
  · exact fun i => ⟨_, (hreported i as).symm⟩

theorem delivers_one_letter :
    Delivers (answers (Users.serve csc452) (Users.init Mailbox.init) aWritesToB) :=
  delivers aWritesToB_admitted

end Csc452.Mail
