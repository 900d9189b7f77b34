import Csc452.Fields
import Csc452.Replacement
import Mathlib.Tactic.IntervalCases
import Mathlib.Tactic.Linarith

/-!
# Trace files

What `vmsim.java` makes of the lines of a trace. A line that does not start with one of
four letters is passed over. In the others the second field is a hexadecimal number, the
address, from which the index of the page is computed; the first field is looked at only to
see whether it is `M` or `S`. A line without a second field, a field that is not a number
and an index outside of the table end the program with an exception.

A `long` has more pages than the table. The cast to `int` keeps the low bits of the page
number, so that an address of 43 bits and more can be that of a page in the table, and the
division rounds toward zero, so that the 2047 addresses below zero belong to page zero.
-/

namespace Csc452.Vmsim

/-- What a `String` holds. -/
abbrev Text : Type := List Char

/-! ## Lines -/

/-- What ends a line, in ASCII. -/
def isTerminator (c : Char) : Bool := c = '\n' || c = '\r'

/-- The lines of a text. `cr` says that the character before was a `\r`: a `\n` after it
belongs to the same line terminator. -/
def nextLines : Bool → Text → List Text
  | _, [] => []
  | cr, c :: cs =>
    if cr && c = '\n' then nextLines false cs
    else if isTerminator c then [] :: nextLines (c = '\r') cs
    else
      let rest := nextLines false cs
      (c :: rest.headD []) :: rest.tail

/-- `trim()` -/
def trim (s : Text) : Text :=
  (s.dropWhile fun c => c.toNat ≤ 32).rdropWhile fun c => c.toNat ≤ 32

/-- `basicDataCommand.contains(line.charAt(0))`, for a line that is not empty. -/
def isCommand (line : Text) : Bool := line.head?.any fun c => ['I', 'M', 'S', 'L'].contains c

/-- The lines that are looked at, trimmed. -/
def commandLines (s : Text) : List Text := ((nextLines false s).map trim).filter isCommand

/-! ## Numbers -/

/-- `Character.digit`, in ASCII. -/
def digit (radix : ℕ) (c : Char) : Option ℕ :=
  let value :=
    if '0' ≤ c ∧ c ≤ '9' then some (c.toNat - 48)
    else if 'a' ≤ c ∧ c ≤ 'z' then some (c.toNat - 87)
    else if 'A' ≤ c ∧ c ≤ 'Z' then some (c.toNat - 55)
    else none
  value.filter (· < radix)

/-- The number that digits stand for; there is at least one. -/
def magnitude (radix : ℕ) (s : Text) : Option ℕ :=
  if s = [] then none
  else (s.mapM (digit radix)).map fun ds => ds.foldl (fun n d => n * radix + d) 0

/-- `Long.parseLong` and `Integer.parseInt`: a number from `-bound` up to `bound`. -/
def parseNumber (radix bound : ℕ) (s : Text) : Option ℤ :=
  let number : Option ℤ :=
    if s.head? = some '-' then (magnitude radix s.tail).map fun (n : ℕ) => -(n : ℤ)
    else if s.head? = some '+' then (magnitude radix s.tail).map fun (n : ℕ) => (n : ℤ)
    else (magnitude radix s).map fun (n : ℕ) => (n : ℤ)
  number.filter fun n => -(bound : ℤ) ≤ n && n < bound

/-! ## Commands -/

/-- `\s` -/
def isSpace (c : Char) : Bool := c = ' ' || 9 ≤ c.toNat && c.toNat ≤ 13

/-- A line of the trace. -/
structure Command : Type where
  /-- the line, trimmed -/
  line : Text
  /-- the first field -/
  operation : Text
  /-- the second -/
  address : ℤ
  deriving DecidableEq

/-- `line.split("\\s+|,")`, and the number in the second field. -/
def parseLine (line : Text) : Option Command := do
  let command := Fields.fields isSpace (fun c => c = ',') line
  let operation ← command[0]?
  let address ← parseNumber 16 (2 ^ 63) (← command[1]?)
  some { line, operation, address }

/-- `(int) (address / PAGE_SIZE)` -/
def Command.tableIndex (c : Command) : ℤ := (c.address.tdiv pageSize).bmod (2 ^ 32)

/-- `pageTable[tableIndex]`, if there is one. -/
def Command.page? (c : Command) : Option Page :=
  if h : 0 ≤ c.tableIndex ∧ c.tableIndex < tableSize then
    some ⟨c.tableIndex.toNat, by omega⟩
  else none

/-- What `processOperation` makes of the first field: everything but `M` and `S` counts as
one access. -/
def operationOf (s : Text) : Operation :=
  if s = ['M'] then .M else if s = ['S'] then .S else if s = ['I'] then .I else .L

/-- The address in the page of a command, at the place that the command says. -/
def Command.reference (c : Command) : Option Reference :=
  c.page?.map fun (page : Page) =>
    { operation := operationOf c.operation
      address := BitVec.ofNat 32 (page * pageSize + (c.address % pageSize).toNat) }

/-- A trace, in ASCII. -/
structure TraceFile : Type where
  /-- what the file holds -/
  text : Text
  /-- there are no other characters -/
  ascii : ∀ c ∈ text, c.toNat < 128

/-! ## What is a command -/

variable {s : Text} {c : Char}

section command

variable {line : Text} {command : Command}

/-- A page of the table has the index that was computed. -/
theorem Command.page?_eq_some {page : Page} :
    command.page? = some page ↔ command.tableIndex = page := by
  rw [page?]
  split
  case isTrue h =>
    rw [Option.some.injEq, Fin.ext_iff]
    show command.tableIndex.toNat = page ↔ _
    rw [← Int.toNat_of_nonneg h.1, Int.toNat_natCast, Int.ofNat_inj]
  case isFalse h =>
    refine iff_of_false (fun heq => nomatch heq) fun heq => h ?_
    rw [heq]
    exact ⟨Int.natCast_nonneg _, Int.ofNat_lt.mpr page.isLt⟩

/-- A reference is to the page of the command. -/
theorem Command.reference_eq_some {r : Reference} (h : command.reference = some r) :
    command.page? = some r.tableIndex ∧ r.operation = operationOf command.operation := by
  obtain ⟨page, hpage, rfl⟩ := Option.map_eq_some_iff.mp h
  refine ⟨?_, rfl⟩
  rw [hpage, Option.some.injEq, Fin.ext_iff]
  have hoffset : (command.address % pageSize).toNat < pageSize := by
    have hpos : (0 : ℤ) < pageSize := by decide
    exact (Int.toNat_lt (Int.emod_nonneg _ hpos.ne')).mpr (Int.emod_lt_of_pos _ hpos)
  have hlt : page * pageSize + (command.address % pageSize).toNat < 2 ^ 32 := by
    have hpage := page.isLt
    unfold pageSize at hoffset ⊢
    unfold tableSize at hpage
    omega
  show (page : ℕ) = (BitVec.ofNat 32 _).toNat / pageSize
  rw [BitVec.toNat_ofNat, Nat.mod_eq_of_lt hlt, mul_comm, Nat.mul_add_div (by decide), Nat.div_eq_of_lt hoffset, add_zero]

/-- A 32-bit address is the one of its reference. -/
theorem Command.reference_of_address {r : Reference} (haddress : command.address = r.address.toNat)
    (hoperation : operationOf command.operation = r.operation) : command.reference = some r := by
  have hindex : command.tableIndex = r.tableIndex := by
    have hlt : ((r.address.toNat / pageSize : ℕ) : ℤ) < 2 ^ 31 :=
      Int.ofNat_lt.mpr (r.tableIndex.isLt.trans (by decide))
    rw [tableIndex, haddress, Int.tdiv_eq_ediv_of_nonneg (Int.natCast_nonneg _), ← Int.natCast_div]
    refine Int.bmod_eq_of_le ?_ (by simpa using hlt)
    exact le_trans (by decide) (Int.natCast_nonneg _)
  rw [reference, page?_eq_some.mpr hindex, Option.map_some, hoperation, haddress,
    ← Int.natCast_mod, Int.toNat_natCast]
  have hdiv : (r.tableIndex : ℕ) * pageSize + r.address.toNat % pageSize = r.address.toNat :=
    Nat.div_add_mod' _ _
  rw [hdiv, BitVec.ofNat_toNat, BitVec.setWidth_eq]

end command

/-! ## Numbers as they are written -/

/-- What a digit is. -/
theorem digitChar_spec {d : ℕ} (hd : d < 16) :
    digit 16 (Nat.digitChar d) = some d ∧ Fields.Inner isSpace (fun c => c = ',') (Nat.digitChar d) ∧
      32 < (Nat.digitChar d).toNat ∧ (Nat.digitChar d).toNat < 128 ∧
      Nat.digitChar d ≠ '-' ∧ Nat.digitChar d ≠ '+' := by
  interval_cases d <;> decide

/-- Digits that stand for a number. -/
def Reads (s : Text) (n : ℕ) : Prop :=
  ∃ ds, s.mapM (digit 16) = some ds ∧ ds.foldl (fun n d => n * 16 + d) 0 = n

theorem Reads.append {n d : ℕ} (h : Reads s n) (hd : d < 16) :
    Reads (s ++ [Nat.digitChar d]) (n * 16 + d) := by
  obtain ⟨ds, hds, rfl⟩ := h
  refine ⟨ds ++ [d], ?_, List.foldl_concat _ _ _ _⟩
  rw [List.mapM_append, hds]
  simp [(digitChar_spec hd).1]

/-- No sign. -/
theorem Reads.parseNumber {n bound : ℕ} (h : Reads s n) (hbound : n < bound) (hne : s ≠ [])
    (hsign : ∀ c ∈ s, c ≠ '-' ∧ c ≠ '+') : parseNumber 16 bound s = some (n : ℤ) := by
  obtain ⟨c, s, rfl⟩ := List.exists_cons_of_ne_nil hne
  obtain ⟨hminus, hplus⟩ := hsign c List.mem_cons_self
  obtain ⟨ds, hds, rfl⟩ := h
  rw [Vmsim.parseNumber, List.head?_cons, if_neg (by simpa using hminus),
    if_neg (by simpa using hplus), magnitude, if_neg hne, hds]
  simp only [Option.map_some, Option.filter_some]
  rw [if_pos]
  simp only [Bool.and_eq_true, decide_eq_true_eq]
  exact ⟨by linarith [Int.natCast_nonneg (ds.foldl (fun n d => n * 16 + d) 0),
    Int.natCast_nonneg bound], Int.ofNat_lt.mpr hbound⟩

/-! ## Files -/

/-- The first letter of a line. -/
def Operation.letter : Operation → Char
  | .I => 'I'
  | .M => 'M'
  | .S => 'S'
  | .L => 'L'

/-- The address of a reference, in hexadecimal. -/
def Reference.number (r : Reference) : Text := (Nat.toDigits 16 r.address.toNat).leftpad 8 '0'

/-- A reference as it is in the traces, from its letter on. -/
def Reference.command (r : Reference) (size : ℕ) : Text :=
  r.operation.letter :: ((if r.operation = .I then [' ', ' '] else [' ']) ++
    (r.number ++ ',' :: Nat.toDigits 10 size))

/-- A line of a trace. -/
inductive Item : Type where
  /-- a reference: ` S be8ad5e8,4`, or `I  04001000,2` -/
  | reference (r : Reference) (size : ℕ)
  /-- what else a tool prints -/
  | remark (line : Text)

/-- The line. -/
def Item.line : Item → Text
  | .reference r size => (if r.operation = .I then [] else [' ']) ++ r.command size
  | .remark line => line

/-- What is needed of it: a remark is one line, and does not look like a reference. -/
def Item.WellFormed : Item → Prop
  | .reference _ _ => True
  | .remark line => (∀ c ∈ line, isTerminator c = false) ∧ isCommand (trim line) = false

variable {r : Reference} {size : ℕ}

end Csc452.Vmsim
