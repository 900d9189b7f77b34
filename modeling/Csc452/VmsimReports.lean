import Csc452.Evictions
import Csc452.ReplacementResults
import Csc452.Vmsim
import Mathlib.Tactic.Linarith
import Mathlib.Tactic.Ring

/-!
# What `vmsim` prints

The program on a trace file is the loop of an algorithm on the references of the file, as
long as every line that is looked at can be read (`Policy.run_eq_some`). So what is known
of the loop holds of what is printed.

* `main_returned_iff` — which arguments and files get as far as the report;
* `main_reports` — what is printed then: every line with what became of it, in order, and
  a report whose numbers are those of the lines;
* `main_stops` — what has been printed when a line cannot be read.
-/

namespace Csc452.Vmsim

variable {R : Type} {alg : Algorithm R} {numFrames : ℕ} {s s' : State R}
  {commands : List Command} {trace : List Reference} {es : List Event} {printed : List String}

/-! ## The loop and the lines -/

/-- The references of commands. -/
def Refers (commands : List Command) (trace : List Reference) : Prop :=
  commands.map Command.reference = trace.map some

theorem refers_cons {c : Command} {r : Reference} :
    Refers (c :: commands) (r :: trace) ↔ c.reference = some r ∧ Refers commands trace := by
  rw [Refers, List.map_cons, List.map_cons, List.cons_eq_cons]
  rfl

theorem Refers.length_eq (h : Refers commands trace) : commands.length = trace.length := by
  simpa using congrArg List.length h

theorem Algorithm.turn_eq_some {command : Option Command} {line : String} :
    alg.turn numFrames s command = some (s', line) ↔
      ∃ c r e, command = some c ∧ c.reference = some r ∧
        alg.body numFrames s r = some (s', e) ∧ c.printed e = line := by
  simp only [turn, Option.bind_eq_bind, Option.bind_eq_some_iff, Option.some.injEq,
    Prod.mk.injEq, Prod.exists]
  constructor
  · rintro ⟨c, hc, r, hr, _, e, hbody, rfl, rfl⟩
    exact ⟨c, r, e, hc, hr, hbody, rfl⟩
  · rintro ⟨c, r, e, hc, hr, hbody, rfl⟩
    exact ⟨c, hc, r, hr, s', e, hbody, rfl, rfl⟩

theorem Algorithm.serve_nil : alg.serve numFrames s [] = ([], some s) := rfl

theorem Algorithm.serve_cons_of_some {command : Option Command} {line : String}
    (h : alg.turn numFrames s command = some (s', line)) (rest : List (Option Command)) :
    alg.serve numFrames s (command :: rest) =
      (line :: (alg.serve numFrames s' rest).1, (alg.serve numFrames s' rest).2) := by
  rw [serve, h]

theorem Algorithm.serve_cons_of_none {command : Option Command}
    (h : alg.turn numFrames s command = none) (rest : List (Option Command)) :
    alg.serve numFrames s (command :: rest) = ([], none) := by
  rw [serve, h]

/-- A line and its event, in the order of the references. -/
def printedOf (commands : List Command) (es : List Event) : List String :=
  List.zipWith Command.printed commands es

/-- Commands that can be read are served as their references are, and something is printed
about each. -/
theorem Algorithm.serve_commands (hrefers : Refers commands trace)
    (hloop : alg.loop numFrames s trace = some (s', es)) (rest : List (Option Command)) :
    alg.serve numFrames s (commands.map some ++ rest) =
      (printedOf commands es ++ (alg.serve numFrames s' rest).1,
        (alg.serve numFrames s' rest).2) := by
  induction commands generalizing s trace es with
  | nil =>
    obtain rfl : trace = [] := List.map_eq_nil_iff.mp hrefers.symm
    obtain ⟨rfl, rfl⟩ := Prod.mk.inj (Option.some.inj hloop)
    rfl
  | cons c commands ih =>
    obtain ⟨r, trace, rfl⟩ := List.exists_cons_of_length_eq_add_one hrefers.length_eq.symm
    obtain ⟨hr, hrefers⟩ := refers_cons.mp hrefers
    obtain ⟨s₁, e, es, rfl, hbody, hrest⟩ := loop_cons hloop
    have hturn : alg.turn numFrames s (some c) = some (s₁, c.printed e) :=
      turn_eq_some.mpr ⟨c, r, e, rfl, hr, hbody, rfl⟩
    rw [List.map_cons, List.cons_append, serve_cons_of_some hturn, ih hrefers hrest]
    rfl

/-- If the loop gets to the end, all lines were commands. -/
theorem Algorithm.serve_eq_some {lines : List (Option Command)} :
    alg.serve numFrames s lines = (printed, some s') ↔
      ∃ commands trace es, lines = commands.map some ∧ Refers commands trace ∧
        alg.loop numFrames s trace = some (s', es) ∧ printed = printedOf commands es := by
  constructor
  · intro h
    induction lines generalizing s printed with
    | nil =>
      obtain ⟨rfl, hs⟩ := Prod.mk.inj h
      exact ⟨[], [], [], rfl, rfl, by rw [loop, Option.some.inj hs], rfl⟩
    | cons command rest ih =>
      rcases hturn : alg.turn numFrames s command with _ | ⟨s₁, line⟩
      · rw [serve_cons_of_none hturn] at h
        cases (Prod.mk.inj h).2
      · rw [serve_cons_of_some hturn] at h
        obtain ⟨rfl, hs⟩ := Prod.mk.inj h
        obtain ⟨commands, trace, es, rfl, hrefers, hloop, hprinted⟩ := ih (Prod.ext rfl hs)
        obtain ⟨c, r, e, rfl, hr, hbody, rfl⟩ := turn_eq_some.mp hturn
        refine ⟨c :: commands, r :: trace, e :: es, rfl, refers_cons.mpr ⟨hr, hrefers⟩, ?_,
          congrArg (c.printed e :: ·) hprinted⟩
        simp [loop, hbody, hloop]
  · rintro ⟨commands, trace, es, rfl, hrefers, hloop, rfl⟩
    have hserve := serve_commands hrefers hloop []
    rwa [List.append_nil, serve_nil, List.append_nil] at hserve

/-! ## The four algorithms -/

/-- The counters at the end of the loop, and its events. -/
def Algorithm.result (alg : Algorithm R) (numFrames : ℕ) (start : State R)
    (trace : List Reference) : Option (Counters × List Event) :=
  (alg.loop numFrames start trace).map fun last => (last.1.counters, last.2)

/-- An algorithm on the references of a trace. -/
def Policy.result (numFrames : ℕ) (random : ℕ → ℕ) (trace : List Reference) :
    Policy → Option (Counters × List Event)
  | .opt => Vmsim.opt.result numFrames (optStart numFrames trace) trace
  | .clock => Vmsim.clock.result numFrames (clockStart numFrames) trace
  | .rand => Vmsim.rand.result numFrames (randStart numFrames random) trace
  | .fifo => Vmsim.fifo.result numFrames fifoStart trace

variable {counters : Counters}

theorem Algorithm.result_eq_some {start : State R} :
    alg.result numFrames start trace = some (counters, es) ↔
      ∃ s', alg.loop numFrames start trace = some (s', es) ∧ s'.counters = counters := by
  simp only [result, Option.map_eq_some_iff, Prod.exists, Prod.mk.injEq]
  constructor
  · rintro ⟨s', _, hloop, rfl, rfl⟩
    exact ⟨s', hloop, rfl⟩
  · rintro ⟨s', hloop, rfl⟩
    exact ⟨s', es, hloop, rfl, rfl⟩

theorem Algorithm.run_eq_some {start : State R} {lines : List (Option Command)} :
    alg.run numFrames start lines = (printed, some counters) ↔
      ∃ commands trace es, lines = commands.map some ∧ Refers commands trace ∧
        alg.result numFrames start trace = some (counters, es) ∧
        printed = printedOf commands es := by
  simp only [result_eq_some]
  constructor
  · intro h
    obtain ⟨hprinted, hlast⟩ := Prod.mk.inj h
    obtain ⟨s', hs', hcounters⟩ := Option.map_eq_some_iff.mp hlast
    obtain ⟨commands, trace, es, hlines, hrefers, hloop, hout⟩ :=
      serve_eq_some.mp (Prod.ext hprinted hs')
    exact ⟨commands, trace, es, hlines, hrefers, ⟨s', hloop, hcounters⟩, hout⟩
  · rintro ⟨commands, trace, es, hlines, hrefers, ⟨s', hloop, rfl⟩, rfl⟩
    rw [run, serve_eq_some.mpr ⟨commands, trace, es, hlines, hrefers, hloop, rfl⟩]
    rfl

/-- The first pass of `opt` sees the references. -/
theorem readCommands_eq (hrefers : Refers commands trace) (commandNum : ℕ) (m : PageMap) :
    readCommands commandNum m commands = readTrace commandNum m trace := by
  induction commands generalizing trace commandNum m with
  | nil =>
    obtain rfl : trace = [] := List.map_eq_nil_iff.mp hrefers.symm
    rfl
  | cons c commands ih =>
    obtain ⟨r, trace, rfl⟩ := List.exists_cons_of_length_eq_add_one hrefers.length_eq.symm
    obtain ⟨hr, hrefers⟩ := refers_cons.mp hrefers
    rw [readCommands, readTrace, (Command.reference_eq_some hr).1]
    exact ih hrefers _ _

theorem mapM_eq_some {α β : Type} {f : α → Option β} {l : List α} {l' : List β} :
    l.mapM f = some l' ↔ l.map f = l'.map some := by
  induction l generalizing l' with
  | nil => cases l' <;> simp
  | cons a l ih =>
    rw [List.mapM_cons]
    cases l' with
    | nil => simp [Option.bind_eq_some_iff]
    | cons b l' => simp [Option.bind_eq_some_iff, ← ih]

/-- **An algorithm on the lines of a file**: it gets to the end if it can read all of them,
and then it is the loop on their references. -/
theorem Policy.run_eq_some {policy : Policy} {random : ℕ → ℕ} {lines : List Text} :
    policy.run numFrames random lines = (printed, some counters) ↔
      ∃ commands trace es, lines.map parseLine = commands.map some ∧ Refers commands trace ∧
        policy.result numFrames random trace = some (counters, es) ∧
        printed = printedOf commands es := by
  cases policy with
  | opt =>
    rw [run]
    constructor
    · intro h
      rcases hread : lines.mapM parseLine with _ | commands
      · rw [hread] at h
        cases (Prod.mk.inj h).2
      · rw [hread] at h
        obtain ⟨commands', trace, es, hsame, hrefers, hresult, hprinted⟩ :=
          Algorithm.run_eq_some.mp h
        obtain rfl := List.map_injective_iff.mpr (Option.some_injective _) hsame
        rw [optStartOn, readCommands_eq hrefers] at hresult
        exact ⟨commands, trace, es, mapM_eq_some.mp hread, hrefers, hresult, hprinted⟩
    · rintro ⟨commands, trace, es, hread, hrefers, hresult, rfl⟩
      rw [mapM_eq_some.mpr hread]
      refine Algorithm.run_eq_some.mpr ⟨commands, trace, es, rfl, hrefers, ?_, rfl⟩
      rw [optStartOn, readCommands_eq hrefers]
      exact hresult
  | clock => exact Algorithm.run_eq_some
  | rand => exact Algorithm.run_eq_some
  | fifo => exact Algorithm.run_eq_some

/-! ## The numbers of the report -/

theorem Algorithm.access_memoryAccess {t : Page} {e : Event}
    (h : alg.access numFrames s t = some (s', e)) : s'.memoryAccess = s.memoryAccess := by
  rw [access] at h
  split at h
  · obtain ⟨rfl, rfl⟩ := Prod.mk.inj (Option.some.inj h)
    rfl
  split at h
  · simp only [Option.bind_eq_bind, Option.bind_eq_some_iff, Option.some.injEq,
      Prod.mk.injEq] at h
    obtain ⟨_, -, _, -, rfl, -⟩ := h
    rfl
  · simp only [Option.bind_eq_bind, Option.bind_eq_some_iff, Option.some.injEq,
      Prod.mk.injEq] at h
    obtain ⟨_, -, rfl, -⟩ := h
    rfl

/-- A modification is two accesses, anything else is one. -/
theorem Algorithm.loop_memoryAccess (h : alg.loop numFrames s trace = some (s', es)) :
    s'.memoryAccess = s.memoryAccess + trace.length + trace.countP fun r => r.operation = .M := by
  induction trace generalizing s es with
  | nil =>
    obtain ⟨rfl, -⟩ := Prod.mk.inj (Option.some.inj h)
    rfl
  | cons r trace ih =>
    obtain ⟨s₁, e, es, rfl, hbody, hrest⟩ := loop_cons h
    have hturn : s₁.memoryAccess =
        s.memoryAccess + 1 + if r.operation = .M then 1 else 0 := by
      simp only [body, Option.bind_eq_bind, Option.bind_eq_some_iff, Option.some.injEq,
        Prod.mk.injEq, Prod.exists] at hbody
      obtain ⟨s₂, e₂, haccess, rfl, -⟩ := hbody
      rw [← access_memoryAccess haccess]
      cases r.operation <;> rfl
    rw [ih hrest, hturn, List.length_cons, List.countP_cons]
    simp only [decide_eq_true_eq]
    ring

/-- Does the event write a page back to disk? -/
def Event.isWrite : Event → Bool
  | .evict _ dirty => dirty
  | _ => false

namespace Run

variable {ok : List Page → Finset Page → Page → Prop} {σ : List Reference} {D : Finset Page}

/-- The counters count events. -/
theorem counts (h : Run numFrames ok σ s trace es s') :
    s'.pageFault = s.pageFault + es.countP (· ≠ .hit) ∧
      s'.writeToDisk = s.writeToDisk + es.countP Event.isWrite ∧
      s'.pageSoFar = s.pageSoFar + es.countP (· = .noEviction) := by
  induction h with
  | nil s => exact ⟨rfl, rfl, rfl⟩
  | cons _ hout _ _ _ ih =>
    obtain ⟨hfault, hwrite, hsofar⟩ := ih
    cases hout with
    | hit _ _ hk hf hw =>
      rw [hfault, hwrite, hsofar, hk, hf, hw]
      exact ⟨rfl, rfl, rfl⟩
    | noEviction _ _ _ hk hf hw =>
      rw [hfault, hwrite, hsofar, hk, hf, hw]
      refine ⟨?_, rfl, ?_⟩ <;> rw [List.countP_cons_of_pos (by simp)] <;> ring
    | @evict v _ _ _ _ hk hf hw =>
      rw [hfault, hwrite, hsofar, hk, hf, hw, List.countP_cons_of_pos (by simp), List.countP_cons,
        List.countP_cons_of_neg (by simp)]
      refine ⟨by ring, ?_, rfl⟩
      rw [add_assoc, add_comm (Bool.toNat _)]
      cases PageTableEntry.dirty _ <;> rfl

theorem union_pagesOf_cons (D : Finset Page) (r : Reference) (trace : List Reference) :
    D ∪ pagesOf (r :: trace) = insert r.tableIndex D ∪ pagesOf trace := by
  simp [pagesOf]

/-- The first reference to a page is a fault. -/
theorem card_le (h : Run numFrames ok σ s trace es s') (hsub : s.pageTable.resident ⊆ D) :
    (D ∪ pagesOf trace).card + s.pageFault ≤ D.card + s'.pageFault := by
  induction h generalizing D with
  | nil s => simp [pagesOf]
  | @cons s s₁ s' r e trace es _ hout _ _ _ ih =>
    have hcard := Finset.card_insert_le r.tableIndex D
    rw [union_pagesOf_cons]
    cases hout with
    | hit hv hr _ hf _ =>
      have hmem : r.tableIndex ∈ D := hsub (by simpa using hv)
      rw [Finset.insert_eq_of_mem hmem, ← hf]
      exact ih (by rwa [hr])
    | noEviction _ _ hr _ hf _ =>
      have hle := ih (D := insert r.tableIndex D)
        (by rw [hr]; exact Finset.insert_subset_insert _ hsub)
      linarith
    | evict _ _ _ hr _ hf _ =>
      have hle := ih (D := insert r.tableIndex D) (by
        rw [hr]
        exact Finset.insert_subset_insert _ ((Finset.erase_subset _ _).trans hsub))
      linarith

/-- As long as there are frames for all pages none is evicted. -/
theorem evictions_eq_zero (h : Run numFrames ok σ s trace es s')
    (hcard : s.pageTable.resident.card = s.pageSoFar) (hsub : s.pageTable.resident ⊆ D)
    (hfits : (D ∪ pagesOf trace).card ≤ numFrames) : evictions es = 0 := by
  induction h generalizing D with
  | nil s => rfl
  | @cons s s₁ s' r e trace es _ hout _ _ _ ih =>
    rw [union_pagesOf_cons] at hfits
    cases hout with
    | hit _ hr hk _ _ =>
      exact ih (by rw [hr, hk, hcard]) (by rw [hr]; exact hsub.trans (Finset.subset_insert _ _)) hfits
    | noEviction hv _ hr hk _ _ =>
      have hnot : r.tableIndex ∉ s.pageTable.resident := by simp [hv]
      exact ih (by rw [hr, hk, Finset.card_insert_of_notMem hnot, hcard])
        (by rw [hr]; exact Finset.insert_subset_insert _ hsub) hfits
    | evict hv hfull _ _ _ _ _ =>
      -- the resident pages take all frames, and the page referenced is not among them
      have hnot : r.tableIndex ∉ s.pageTable.resident := by simp [hv]
      have hunion : insert r.tableIndex D ⊆ insert r.tableIndex D ∪ pagesOf trace :=
        Finset.subset_union_left
      have hle := Finset.card_le_card
        ((Finset.insert_subset_insert r.tableIndex hsub).trans hunion)
      rw [Finset.card_insert_of_notMem hnot, hcard, hfull] at hle
      exact absurd (hle.trans hfits) (Nat.not_succ_le_self _)

end Run

/-- What the counters say about a trace and its events. -/
structure Tally (numFrames : ℕ) (trace : List Reference) (es : List Event) (c : Counters) :
    Prop where
  /-- every reference has an event -/
  length : es.length = trace.length
  /-- a modification is two accesses, anything else is one -/
  accesses : c.memoryAccess = trace.length + trace.countP fun r => r.operation = .M
  /-- the faults are the references that are not hits -/
  faults : c.pageFault = es.countP (· ≠ .hit)
  /-- the writes are the evictions of pages that had been written to -/
  writes : c.writeToDisk = es.countP Event.isWrite
  /-- a page is loaded into a free frame as long as there is one -/
  free : es.countP (· = .noEviction) = min numFrames (pagesOf trace).card
  /-- every page has been loaded -/
  loaded : (pagesOf trace).card ≤ c.pageFault
  /-- once, if there are frames for all of them, and then nothing is written -/
  fits : (pagesOf trace).card ≤ numFrames → c.pageFault = (pagesOf trace).card ∧ c.writeToDisk = 0

theorem evictions_eq_zero_iff : evictions es = 0 ↔ ∀ e ∈ es, e.isEvict = false := by
  rw [evictions, List.countP_eq_zero]
  simp only [Bool.not_eq_true]

/-- The report of a lawful algorithm. -/
theorem Lawful.tally {ok : List Page → Finset Page → Page → Prop}
    {Link : List Reference → R → PageTable → ℕ → Prop} (h : Lawful alg numFrames ok Link)
    {store : R} (hstart : Sound numFrames Link trace (State.init store)) :
    ∃ counters es, alg.result numFrames (State.init store) trace = some (counters, es) ∧
      Tally numFrames trace es counters := by
  have hkeeps : KeepsResidency alg numFrames (State.init store)
      (fun s => s.pageTable.resident.toList) (fun _ => True) trace :=
    h.keepsResidency hstart
      fun _ s _ => ⟨s.pageTable.resident.nodup_toList, fun p => by simp, trivial⟩
  obtain ⟨s, es, hloop, hres, -⟩ := hkeeps trace.length le_rfl
  rw [List.take_length] at hloop hres
  obtain ⟨s', es', hloop', -, hrun⟩ := h.loop (σ := []) (by rwa [List.append_nil])
  obtain ⟨rfl, rfl⟩ := Prod.mk.inj (Option.some.inj (hloop.symm.trans hloop'))
  have hempty : (State.init store).pageTable.resident = ∅ := PageTable.resident_init
  obtain ⟨hfaults, hwrites, hfree⟩ := hrun.counts
  refine ⟨s.counters, es, Algorithm.result_eq_some.mpr ⟨s, hloop, rfl⟩, hrun.length_eq, ?_, ?_, ?_,
    ?_, ?_, fun hfits => ?_⟩
  · rw [State.counters, Algorithm.loop_memoryAccess hloop]
    exact congrArg (· + _) (Nat.zero_add _)
  · exact hfaults.trans (Nat.zero_add _)
  · exact hwrites.trans (Nat.zero_add _)
  · rw [← hres.pageSoFar_eq]
    exact (hfree.trans (Nat.zero_add _)).symm
  · have hle := hrun.card_le (D := ∅) hempty.le
    rw [Finset.empty_union, Finset.card_empty, Nat.zero_add] at hle
    exact hle
  · have hnone : evictions es = 0 := by
      refine hrun.evictions_eq_zero (D := ∅) ?_ hempty.le ?_
      · rw [hempty]
        rfl
      · rwa [Finset.empty_union]
    refine ⟨?_, ?_⟩
    · rw [State.counters, hres.faults, hnone, Nat.zero_add, hres.pageSoFar_eq, min_eq_right hfits]
    · refine (hwrites.trans (Nat.zero_add _)).trans (List.countP_eq_zero.mpr fun e he => ?_)
      have hevict := evictions_eq_zero_iff.mp hnone e he
      cases e with
      | evict v d => cases hevict
      | _ => exact Bool.false_ne_true

/-- **The four algorithms** get to the end of every trace, and their counters count what
was printed. -/
theorem Policy.tally (policy : Policy) (hn : 1 ≤ numFrames) (random : ℕ → ℕ)
    (trace : List Reference) :
    ∃ counters es, policy.result numFrames random trace = some (counters, es) ∧
      Tally numFrames trace es counters := by
  cases policy with
  | opt => exact (opt_lawful hn).tally optStart_sound
  | clock => exact clock_lawful.tally (clockStart_sound hn)
  | rand => exact (rand_lawful hn).tally (randStart_sound random)
  | fifo => exact (fifo_lawful hn).tally fifoStart_sound

/-- Without frames the first reference is an exception. -/
theorem Policy.result_no_frames (policy : Policy) (random : ℕ → ℕ) (r : Reference) :
    policy.result 0 random (r :: trace) = none := by
  have hthrows : ∀ {R : Type} (alg : Algorithm R) (store : R),
      alg.choose PageTable.init store = none →
        alg.result 0 (State.init store) (r :: trace) = none := by
    intro R alg store hchoose
    have haccess : alg.access 0 (State.init store) r.tableIndex = none := by
      rw [Algorithm.access, if_neg (by simp [State.init, PageTable.init, PageTableEntry.new]),
        if_pos (Nat.zero_le _), State.init, hchoose]
      rfl
    rw [Algorithm.result, Algorithm.loop, Algorithm.body, haccess]
    rfl
  cases policy <;> exact hthrows _ _ rfl

/-! ## The program -/

variable {args : Arguments} {files : String → Option TraceFile} {random : ℕ → ℕ}
  {policy : Policy} {file : TraceFile} {lines : List Text}

/-- The arguments name an algorithm, a number of frames and a file that is there. -/
def Asks (args : Arguments) (files : String → Option TraceFile) (policy : Policy)
    (numFrames : ℕ) (file : TraceFile) : Prop :=
  ∃ n path, args.args = ["-n", n, "-a", policy.name, path] ∧
    parseNumber 10 (2 ^ 31) n.toList = some (numFrames : ℤ) ∧ files path = some file

/-- The lines are those of commands, which have references. -/
def Readable (lines : List Text) (commands : List Command) (trace : List Reference) : Prop :=
  lines.map parseLine = commands.map some ∧ Refers commands trace

theorem policy?_eq_some {algorithm : String} :
    policy? algorithm = some policy ↔ algorithm = policy.name := by
  constructor
  · intro h
    rw [policy?] at h
    split_ifs at h with h₁ h₂ h₃ h₄ <;> obtain rfl := Option.some.inj h <;> assumption
  · rintro rfl
    cases policy <;> decide

theorem Asks.main (h : Asks args files policy numFrames file) :
    main args files random = simulate policy.name policy numFrames random file := by
  obtain ⟨n, path, hargs, hn, hfile⟩ := h
  have hnonneg : ¬ (numFrames : ℤ) < 0 := (Int.natCast_nonneg _).not_gt
  rw [Vmsim.main, hargs]
  simp only [and_self, if_true, hn, if_neg hnonneg, policy?_eq_some.mpr rfl, hfile,
    Int.toNat_natCast]

/-- Otherwise there is no report. -/
theorem exists_asks (h : (main args files random).ending = .returned) :
    ∃ policy numFrames file, Asks args files policy numFrames file := by
  rw [Vmsim.main] at h
  split at h
  case h_2 => cases h
  case h_1 flag n flag' algorithm path hargs =>
    split_ifs at h with hflags
    · obtain ⟨rfl, rfl⟩ := hflags
      split at h
      case h_1 => cases h
      case h_2 numFrames hn =>
        split_ifs at h with hneg
        split at h
        case h_1 => cases h
        case h_2 => cases h
        case h_3 policy file hpolicy hfile =>
          obtain rfl := policy?_eq_some.mp hpolicy
          refine ⟨policy, numFrames.toNat, file, n, path, hargs, ?_, hfile⟩
          rw [hn, Int.toNat_of_nonneg (not_lt.mp hneg)]
    · cases h

theorem exists_readable : (∃ commands trace, Readable lines commands trace) ↔
    ∀ line ∈ lines, ∃ c r, parseLine line = some c ∧ c.reference = some r := by
  induction lines with
  | nil => exact iff_of_true ⟨[], [], rfl, rfl⟩ fun _ h => absurd h List.not_mem_nil
  | cons line lines ih =>
    rw [List.forall_mem_cons, ← ih]
    constructor
    · rintro ⟨commands, trace, hread, hrefers⟩
      obtain ⟨c, commands, rfl⟩ :=
        List.exists_cons_of_length_eq_add_one (by simpa using (congrArg List.length hread).symm)
      obtain ⟨r, trace, rfl⟩ := List.exists_cons_of_length_eq_add_one hrefers.length_eq.symm
      obtain ⟨hr, hrefers⟩ := refers_cons.mp hrefers
      obtain ⟨hc, hread⟩ := List.cons_eq_cons.mp hread
      exact ⟨⟨c, r, hc, hr⟩, commands, trace, hread, hrefers⟩
    · rintro ⟨⟨c, r, hc, hr⟩, commands, trace, hread, hrefers⟩
      exact ⟨c :: commands, r :: trace, by rw [List.map_cons, hc, hread, List.map_cons],
        refers_cons.mpr ⟨hr, hrefers⟩⟩

/-- The run of a file that can be read, with frames, or without references. -/
theorem Readable.reports (h : Readable (commandLines file.text) commands trace)
    (hn : 1 ≤ numFrames ∨ trace = []) (policy : Policy) (random : ℕ → ℕ) :
    ∃ es counters, policy.result numFrames random trace = some (counters, es) ∧
      Tally numFrames trace es counters ∧
      simulate policy.name policy numFrames random file =
        { printed := printedOf commands es ++ report policy.name numFrames counters
          ending := .returned } := by
  obtain ⟨counters, es, hresult, htally⟩ : ∃ counters es,
      policy.result numFrames random trace = some (counters, es) ∧
        Tally numFrames trace es counters := by
    rcases hn with hn | rfl
    · exact policy.tally hn random trace
    · refine ⟨⟨0, 0, 0⟩, [], by cases policy <;> rfl, ?_⟩
      exact ⟨rfl, rfl, rfl, rfl, (Nat.min_zero _).symm, le_rfl, fun _ => ⟨rfl, rfl⟩⟩
  refine ⟨es, counters, hresult, htally, ?_⟩
  rw [simulate, Policy.run_eq_some.mpr ⟨commands, trace, es, h.1, h.2, hresult, rfl⟩]

/-- A run that returns has read all lines. -/
theorem simulate_returned {algorithm : String}
    (h : (simulate algorithm policy numFrames random file).ending = .returned) :
    ∃ commands trace, Readable (commandLines file.text) commands trace ∧
      (1 ≤ numFrames ∨ trace = []) := by
  rw [simulate] at h
  rcases hrun : policy.run numFrames random (commandLines file.text) with ⟨printed, _ | counters⟩
  · rw [hrun] at h
    cases h
  · obtain ⟨commands, trace, es, hread, hrefers, hresult, -⟩ := Policy.run_eq_some.mp hrun
    refine ⟨commands, trace, ⟨hread, hrefers⟩, ?_⟩
    rcases Nat.eq_zero_or_pos numFrames with rfl | hpos
    · cases trace with
      | nil => exact .inr rfl
      | cons r trace =>
        rw [policy.result_no_frames] at hresult
        cases hresult
    · exact .inl hpos

/-- **What is accepted**: the report is printed for a known algorithm, a number of frames
that is not negative and a file that is there, if every line that starts with one of the
four letters has an address in the table, and there is no such line where there are no
frames. -/
theorem main_returned_iff (args : Arguments) (files : String → Option TraceFile)
    (random : ℕ → ℕ) :
    (main args files random).ending = .returned ↔
      ∃ policy numFrames file, Asks args files policy numFrames file ∧
        (∀ line ∈ commandLines file.text, ∃ c r, parseLine line = some c ∧ c.reference = some r) ∧
        (numFrames = 0 → commandLines file.text = []) := by
  constructor
  · intro h
    obtain ⟨policy, numFrames, file, hasks⟩ := exists_asks h
    rw [hasks.main] at h
    obtain ⟨commands, trace, hread, hn⟩ := simulate_returned h
    refine ⟨policy, numFrames, file, hasks, exists_readable.mp ⟨commands, trace, hread⟩, ?_⟩
    rintro rfl
    obtain rfl := hn.resolve_left (Nat.not_succ_le_zero 0)
    obtain rfl : commands = [] := List.length_eq_zero_iff.mp hread.2.length_eq
    exact List.map_eq_nil_iff.mp hread.1
  · rintro ⟨policy, numFrames, file, hasks, hlines, hn⟩
    obtain ⟨commands, trace, hread⟩ := exists_readable.mpr hlines
    have hframes : 1 ≤ numFrames ∨ trace = [] := by
      rcases Nat.eq_zero_or_pos numFrames with hzero | hpos
      · have hcommands := hread.1
        rw [hn hzero, List.map_nil, eq_comm, List.map_eq_nil_iff] at hcommands
        exact .inr (List.length_eq_zero_iff.mp (hread.2.length_eq ▸ hcommands ▸ rfl))
      · exact .inl hpos
    obtain ⟨es, counters, -, -, hsimulate⟩ := hread.reports hframes policy random
    rw [hasks.main, hsimulate]

/-- **What is printed**: when `main` returns, every line that it looked at, with what became
of it, in the order of the file, and a report whose numbers are those of the lines. What
became of them are the events of the chosen algorithm on the trace of their references, and
the numbers are the sums and bounds of `Tally`. -/
theorem main_reports (args : Arguments) (files : String → Option TraceFile) (random : ℕ → ℕ)
    (h : (main args files random).ending = .returned) :
    ∃ policy numFrames file commands trace es counters,
      Asks args files policy numFrames file ∧
      Readable (commandLines file.text) commands trace ∧
      policy.result numFrames random trace = some (counters, es) ∧
      Tally numFrames trace es counters ∧
      (main args files random).printed =
        printedOf commands es ++ report policy.name numFrames counters := by
  obtain ⟨policy, numFrames, file, hasks⟩ := exists_asks h
  rw [hasks.main] at h ⊢
  obtain ⟨commands, trace, hread, hn⟩ := simulate_returned h
  obtain ⟨es, counters, hresult, htally, hsimulate⟩ := hread.reports hn policy random
  exact ⟨policy, numFrames, file, commands, trace, es, counters, hasks, hread, hresult, htally,
    by rw [hsimulate]⟩

/-- A trace of one store. -/
def oneStore : TraceFile where
  text := ['S', ' ', '8', '0', '0']
  ascii := by simp

/-- Arguments that ask for `clock` on it. -/
def oneFrame : Arguments where
  args := ["-n", "1", "-a", "clock", "ls.trace"]
  ascii := by simp

theorem oneFrame_asks (file : TraceFile) : Asks oneFrame (fun _ => some file) .clock 1 file :=
  ⟨"1", "ls.trace", rfl, by decide +kernel, rfl⟩

theorem main_reports_one_store :
    ∃ policy numFrames file commands trace es counters,
      Asks oneFrame (fun _ => some oneStore) policy numFrames file ∧
      Readable (commandLines file.text) commands trace ∧
      policy.result numFrames id trace = some (counters, es) ∧
      Tally numFrames trace es counters ∧
      (main oneFrame (fun _ => some oneStore) id).printed =
        printedOf commands es ++ report policy.name numFrames counters :=
  main_reports oneFrame (fun _ => some oneStore) id (by decide +kernel)

/-! ## Lines that cannot be read -/

/-- What an algorithm that reads line by line has printed when it comes to such a line. -/
theorem Algorithm.run_stops {start : State R} (hrefers : Refers commands trace)
    (hresult : alg.result numFrames start trace = some (counters, es)) {bad : Option Command}
    (hbad : ∀ c, bad = some c → c.reference = none) (post : List (Option Command)) :
    alg.run numFrames start (commands.map some ++ bad :: post) = (printedOf commands es, none) := by
  obtain ⟨s', hloop, -⟩ := result_eq_some.mp hresult
  have hturn : alg.turn numFrames s' bad = none := by
    rw [Option.eq_none_iff_forall_not_mem]
    rintro ⟨s'', line⟩ hmem
    obtain ⟨c, r, e, hc, hr, -, -⟩ := turn_eq_some.mp hmem
    rw [hbad c hc] at hr
    cases hr
  rw [run, serve_commands hrefers hloop, serve_cons_of_none hturn, List.append_nil]
  rfl

theorem simulate_ending (algorithm : String) (policy : Policy) (numFrames : ℕ) (random : ℕ → ℕ)
    (file : TraceFile) : (simulate algorithm policy numFrames random file).ending = .returned ∨
      (simulate algorithm policy numFrames random file).ending = .threw := by
  rw [simulate]
  rcases policy.run numFrames random (commandLines file.text) with ⟨printed, _ | counters⟩
  · exact .inr rfl
  · exact .inl rfl

/-- **A line that cannot be read** ends the program with an exception, on arguments that are
accepted and with a frame at least. It is the first line with one of the four letters in front
that has no address in the table; those before it can be read. By then `fifo`, `clock` and
`rand` have printed what became of every line before it; `opt`, which reads all lines first,
has printed nothing if it is the number that cannot be read. -/
theorem main_stops (hasks : Asks args files policy numFrames file) (hn : 1 ≤ numFrames)
    {pre post : List Text} {bad : Text} (hlines : commandLines file.text = pre ++ bad :: post)
    (hpre : Readable pre commands trace)
    (hbad : ∀ c, parseLine bad = some c → c.reference = none) (random : ℕ → ℕ) :
    (main args files random).ending = .threw ∧
      (policy ≠ .opt → ∃ es counters, policy.result numFrames random trace = some (counters, es) ∧
        (main args files random).printed = printedOf commands es) ∧
      (policy = .opt → parseLine bad = none → (main args files random).printed = []) := by
  rw [hasks.main]
  refine ⟨(simulate_ending _ _ _ _ _).resolve_left fun h => ?_, fun hpolicy => ?_,
    fun hpolicy hnone => ?_⟩
  · obtain ⟨commands', trace', hread, -⟩ := simulate_returned h
    obtain ⟨c, r, hc, hr⟩ := exists_readable.mp ⟨commands', trace', hread⟩ bad
      (by rw [hlines]; exact List.mem_append_right _ List.mem_cons_self)
    rw [hbad c hc] at hr
    cases hr
  · obtain ⟨counters, es, hresult, -⟩ := policy.tally hn random trace
    refine ⟨es, counters, hresult, ?_⟩
    have hread : (commandLines file.text).map parseLine =
        commands.map some ++ parseLine bad :: post.map parseLine := by
      rw [hlines, List.map_append, hpre.1, List.map_cons]
    have hrun : policy.run numFrames random (commandLines file.text) =
        (printedOf commands es, none) := by
      cases policy with
      | opt => exact absurd rfl hpolicy
      | clock | rand | fifo =>
        rw [Policy.run, hread]
        exact Algorithm.run_stops hpre.2 hresult hbad _
    rw [simulate, hrun]
  · subst hpolicy
    have hread : (commandLines file.text).mapM parseLine = none := by
      rw [Option.eq_none_iff_forall_not_mem]
      intro commands' hmem
      have hmap := mapM_eq_some.mp hmem
      rw [hlines, List.map_append, List.map_cons, hnone] at hmap
      have hin : none ∈ commands'.map some :=
        hmap ▸ List.mem_append_right _ List.mem_cons_self
      obtain ⟨c, -, hc⟩ := List.mem_map.mp hin
      cases hc
    rw [simulate, Policy.run, hread]

/-- The store, and a line without an address. -/
def cutShort : TraceFile where
  text := ['S', ' ', '8', '0', '0', '\n', 'I']
  ascii := by simp

theorem readable_store :
    Readable [['S', ' ', '8', '0', '0']] [⟨['S', ' ', '8', '0', '0'], ['S'], 0x800⟩]
      [⟨.S, 0x800⟩] := by
  refine ⟨by decide +kernel, ?_⟩
  exact refers_cons.mpr ⟨Command.reference_of_address rfl rfl, rfl⟩

theorem noAddress : parseLine ['I'] = none := by decide +kernel

theorem main_stops_cut_short :
    (main oneFrame (fun _ => some cutShort) id).ending = .threw ∧
      (Policy.clock ≠ .opt → ∃ es counters,
        Policy.clock.result 1 id [⟨.S, 0x800⟩] = some (counters, es) ∧
        (main oneFrame (fun _ => some cutShort) id).printed =
          printedOf [⟨['S', ' ', '8', '0', '0'], ['S'], 0x800⟩] es) ∧
      (Policy.clock = .opt → parseLine ['I'] = none →
        (main oneFrame (fun _ => some cutShort) id).printed = []) :=
  main_stops (oneFrame_asks cutShort) le_rfl
    (show commandLines cutShort.text = [['S', ' ', '8', '0', '0']] ++ ['I'] :: [] by decide +kernel)
    readable_store (fun _ h => absurd (h.symm.trans noAddress) (Option.some_ne_none _)) id

end Csc452.Vmsim
