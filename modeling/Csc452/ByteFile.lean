import Csc452.Bytes
import Csc452.Interference

/-!
# A file of bytes

The shared state of programs that work on one file: its bytes and its size. The
atomic operations are the ones a program has: to ask for the size, to read a run
of bytes and to write one.

What a program remembers is, for each byte, the value it last read or wrote
there (`Seen`). A write is fresh when the bytes it overwrites still have the
values remembered for them, so that nothing the others wrote in the meantime is
lost. A program that runs alone always writes fresh (`Remembers.exec`), and so do
two that never overwrite a run of bytes the other has written since they last read
or wrote the whole of it (`freshRun_of_clean`).
-/

namespace ByteFile

open Bytes (Memory AgreeOn)
open Interference (Prog Machine)

/-- A file. Its bytes beyond the end mean nothing. -/
structure Disk : Type where
  /-- the number of bytes -/
  size : ℕ
  /-- the bytes -/
  bytes : Memory

/-- An atomic operation. -/
inductive Access : Type where
  /-- the size of the file -/
  | size
  /-- the bytes from an address on, as many as there are up to the number given -/
  | read (a n : ℕ)
  /-- overwrite the bytes from an address on -/
  | write (a : ℕ) (bs : List UInt8)

/-- What an operation returns. -/
abbrev Access.Res : Access → Type
  | .size => ℕ
  | .read _ _ => List UInt8
  | .write _ _ => Unit

/-- A write past the end makes the file longer; a gap is filled with zeros. -/
def Disk.write (d : Disk) (a : ℕ) (bs : List UInt8) : Disk :=
  if a + bs.length ≤ d.size then { d with bytes := Bytes.write d.bytes a bs }
  else
    { size := a + bs.length
      bytes := Bytes.write (fun i => if i < d.size then d.bytes i else 0) a bs }

/-- The bytes a read returns. -/
def Disk.read (d : Disk) (a n : ℕ) : List UInt8 := Bytes.read d.bytes a (min n (d.size - a))

/-- What a program remembers of the bytes it read and wrote. -/
abbrev Seen : Type := ℕ → Option UInt8

/-- Remember a run of bytes. -/
def Seen.note (k : Seen) (a : ℕ) (bs : List UInt8) : Seen :=
  fun i => if a ≤ i ∧ i < a + bs.length then bs[i - a]? else k i

/-- The operations of a file. -/
def machine : Machine Access Access.Res Disk Seen where
  exec
    | .size, d => (d.size, d)
    | .read a n, d => (d.read a n, d)
    | .write a bs, d => ((), d.write a bs)
  learn
    | k, .size, _ => k
    | k, .read a n, d => k.note a (d.read a n)
    | k, .write a bs, _ => k.note a bs
  Fresh
    | _, .size, _ => True
    | _, .read _ _, _ => True
    | k, .write a bs, d => ∀ i, a ≤ i → i < a + bs.length → ∀ v ∈ k i, d.bytes i = v

instance : (k : Seen) → (o : Access) → (d : Disk) → Decidable (machine.Fresh k o d)
  | _, .size, _ => inferInstanceAs (Decidable True)
  | _, .read _ _, _ => inferInstanceAs (Decidable True)
  | k, .write a bs, d =>
    inferInstanceAs (Decidable (∀ i, a ≤ i → i < a + bs.length → ∀ v ∈ k i, d.bytes i = v))

variable {d : Disk} {k : Seen} {a b i n : ℕ} {bs : List UInt8}

theorem Disk.write_eq (h : a + bs.length ≤ d.size) :
    d.write a bs = { d with bytes := Bytes.write d.bytes a bs } := if_pos h

theorem Disk.read_eq (h : a + n ≤ d.size) : d.read a n = Bytes.read d.bytes a n := by
  rw [Disk.read, min_eq_left (by omega)]

theorem Disk.size_write : (d.write a bs).size = max d.size (a + bs.length) := by
  rw [Disk.write]
  split <;> simp only <;> omega

theorem Disk.bytes_write_of_mem (h : i < bs.length) : (d.write a bs).bytes (a + i) = bs[i] := by
  rw [Disk.write]
  split
  · simp only [Bytes.write_of_mem h]
  · simp only [Bytes.write_of_mem h]

theorem Disk.bytes_write_of_not_mem (h : i < a ∨ a + bs.length ≤ i) (hi : i < d.size) :
    (d.write a bs).bytes i = d.bytes i := by
  rw [Disk.write]
  split
  · rcases h with hlt | hge
    · simp only [Bytes.write_of_lt hlt]
    · simp only [Bytes.write_of_ge hge]
  · rcases h with hlt | hge
    · simp only [Bytes.write_of_lt hlt, if_pos hi]
    · simp only [Bytes.write_of_ge hge, if_pos hi]

/-! ## What is remembered -/

/-- A run of bytes that is remembered. -/
def Saw (k : Seen) (a n : ℕ) (m : Memory) : Prop := ∀ i, a ≤ i → i < a + n → k i = some (m i)

/-- A run just read is remembered. -/
theorem Saw.note_self (h : ∀ i, a ≤ i → i < a + bs.length → bs[i - a]? = some (d.bytes i)) :
    Saw (k.note a bs) a bs.length d.bytes := by
  intro i hi hn
  rw [Seen.note, if_pos ⟨hi, hn⟩]
  exact h i hi hn

theorem Saw.note_read (h : a + n ≤ d.size) : Saw (k.note a (d.read a n)) a n d.bytes := by
  rw [Disk.read_eq h]
  have hself : Saw (k.note a (Bytes.read d.bytes a n)) a (Bytes.read d.bytes a n).length d.bytes := by
    refine Saw.note_self fun i hi hn => ?_
    rw [Bytes.length_read] at hn
    rw [List.getElem?_eq_getElem (by rw [Bytes.length_read]; omega), Bytes.getElem_read,
      Nat.add_sub_cancel' hi]
  rwa [Bytes.length_read] at hself

/-- What happens elsewhere does not make a program forget a run. -/
theorem Saw.note {m : Memory} (h : Saw k a n m) (hdisj : b + bs.length ≤ a ∨ a + n ≤ b) :
    Saw (k.note b bs) a n m := by
  intro i hi hn
  rw [Seen.note, if_neg (by omega)]
  exact h i hi hn

/-- A fresh write over a run that is remembered finds it unchanged. -/
theorem Saw.agreeOn {m : Memory} (h : Saw k a bs.length m)
    (hfresh : machine.Fresh k (.write a bs) d) : AgreeOn d.bytes m a bs.length := by
  intro i hi hn
  exact hfresh i hi hn _ (h i hi hn)

/-- What is remembered is so. -/
def Remembers (k : Seen) (d : Disk) : Prop := ∀ i, ∀ v ∈ k i, i < d.size ∧ d.bytes i = v

theorem Remembers.init (d : Disk) : Remembers (fun _ => none) d := fun _ _ hv => by cases hv

/-! ## Runs of bytes that are out of date -/

/-- A run of bytes: the first one and how many there are. -/
abbrev Span : Type := ℕ × ℕ

/-- What is remembered is so, except for runs that the others have written. -/
def Stale (S : List Span) (k : Seen) (d : Disk) : Prop :=
  ∀ i, ∀ v ∈ k i, i < d.size ∧ (d.bytes i = v ∨ ∃ r ∈ S, r.1 ≤ i ∧ i < r.1 + r.2)

/-- The bytes an operation tells its program. -/
def Access.span (d : Disk) : Access → Span
  | .size => (0, 0)
  | .read a n => (a, (d.read a n).length)
  | .write a bs => (a, bs.length)

/-- The bytes an operation changes for the others. -/
def Access.touch : Access → List Span
  | .write a bs => [(a, bs.length)]
  | _ => []

/-- An operation overwrites none of the runs. -/
def Access.apart (S : List Span) : Access → Bool
  | .write a bs => S.all fun r => a + bs.length ≤ r.1 || r.1 + r.2 ≤ a
  | _ => true

/-- The runs that stay out of date, when one has been read or written. -/
def outdated (S : List Span) (x : Span) : List Span :=
  S.filter fun r => r.1 < x.1 || x.1 + x.2 < r.1 + r.2

/-- No operation of an interleaving overwrites bytes that the other program has
written since its own program read or wrote the whole of them. -/
def clean {α β : Type} : List Bool → Prog Access Access.Res α → List Span →
    Prog Access Access.Res β → List Span → Disk → Bool
  | true :: turns, .act o f, S, q, S', d =>
    o.apart S && clean turns (f (machine.exec o d).1) (outdated S (o.span d)) q (o.touch ++ S')
      (machine.exec o d).2
  | false :: turns, p, S, .act o f, S', d =>
    o.apart S' && clean turns p (o.touch ++ S) (f (machine.exec o d).1) (outdated S' (o.span d))
      (machine.exec o d).2
  | _, _, _, _, _, _ => true

section stale

variable {S S' : List Span} {l : Seen} {o : Access}

theorem mem_outdated {r x : Span} (hr : r ∈ S) (hi : r.1 ≤ i ∧ i < r.1 + r.2)
    (hx : ¬ (x.1 ≤ i ∧ i < x.1 + x.2)) : r ∈ outdated S x := by
  refine List.mem_filter.mpr ⟨hr, ?_⟩
  simp only [Bool.or_eq_true, decide_eq_true_eq]
  omega

/-- A program's own operation. -/
theorem Stale.own (h : Stale S k d) (hapart : o.apart S) :
    machine.Fresh k o d ∧ Stale (outdated S (o.span d)) (machine.learn k o d)
      (machine.exec o d).2 := by
  cases o with
  | size =>
    refine ⟨trivial, fun i v hv => (h i v hv).imp_right (Or.imp_right ?_)⟩
    rintro ⟨r, hr, hi⟩
    exact ⟨r, mem_outdated hr hi (by simp only [Access.span]; omega), hi⟩
  | read a n =>
    refine ⟨trivial, fun i v hv => ?_⟩
    simp only [machine, Seen.note] at hv
    split at hv
    · next hi =>
      have hlen : i - a < (d.read a n).length := by omega
      rw [List.getElem?_eq_getElem hlen] at hv
      have hlen' := hlen
      rw [Disk.read, Bytes.length_read] at hlen'
      refine ⟨by simp only [machine]; omega, .inl ?_⟩
      rw [← Option.mem_some.mp hv]
      simp only [machine, Disk.read, Bytes.getElem_read]
      rw [Nat.add_sub_cancel' hi.1]
    · next hi =>
      refine (h i v hv).imp_right (Or.imp_right ?_)
      rintro ⟨r, hr, hi'⟩
      exact ⟨r, mem_outdated hr hi' hi, hi'⟩
  | write a bs =>
    simp only [Access.apart, List.all_eq_true, Bool.or_eq_true, decide_eq_true_eq] at hapart
    refine ⟨fun i hi hn v hv => ?_, fun i v hv => ?_⟩
    · rcases (h i v hv).2 with hbyte | ⟨r, hr, hlow, hhigh⟩
      · exact hbyte
      · have hdisj := hapart r hr
        omega
    simp only [machine, Seen.note] at hv ⊢
    split at hv
    · next hi =>
      obtain ⟨j, rfl⟩ := Nat.exists_eq_add_of_le hi.1
      have hj : j < bs.length := by omega
      rw [Nat.add_sub_cancel_left, List.getElem?_eq_getElem hj] at hv
      rw [← Option.mem_some.mp hv, Disk.size_write]
      exact ⟨by omega, .inl (Disk.bytes_write_of_mem hj)⟩
    · next hi =>
      obtain ⟨hsize, hbyte⟩ := h i v hv
      rw [Disk.size_write, Disk.bytes_write_of_not_mem (by omega) hsize]
      refine ⟨by omega, hbyte.imp_right ?_⟩
      rintro ⟨r, hr, hi'⟩
      exact ⟨r, mem_outdated hr hi' hi, hi'⟩

/-- An operation of the other program. -/
theorem Stale.other (h : Stale S k d) (o : Access) :
    Stale (o.touch ++ S) k (machine.exec o d).2 := by
  cases o with
  | size => exact h
  | read a n => exact h
  | write a bs =>
    intro i v hv
    obtain ⟨hsize, hbyte⟩ := h i v hv
    simp only [machine]
    rw [Disk.size_write]
    refine ⟨by omega, ?_⟩
    rcases em (a ≤ i ∧ i < a + bs.length) with hi | hi
    · exact .inr ⟨_, List.mem_append_left _ List.mem_cons_self, hi⟩
    · rw [Disk.bytes_write_of_not_mem (by omega) hsize]
      refine hbyte.imp_right ?_
      rintro ⟨r, hr, hi'⟩
      exact ⟨r, List.mem_append_right _ hr, hi'⟩

/-- **Clean interleavings are fresh.** -/
theorem freshRun_of_clean {α β : Type} {turns : List Bool} {p : Prog Access Access.Res α}
    {q : Prog Access Access.Res β} (hclean : clean turns p S q S' d) (h : Stale S k d)
    (h' : Stale S' l d) : machine.FreshRun turns p k q l d := by
  induction turns generalizing p q S S' k l d with
  | nil => cases p <;> cases q <;> trivial
  | cons turn turns ih =>
    cases turn with
    | true =>
      cases p with
      | ret a => cases q <;> trivial
      | act o f =>
        obtain ⟨hapart, hrest⟩ : o.apart S ∧ _ := by simpa [clean] using hclean
        obtain ⟨hfresh, hown⟩ := h.own hapart
        exact ⟨hfresh, ih hrest hown (h'.other o)⟩
    | false =>
      cases q with
      | ret b => cases p <;> trivial
      | act o f =>
        obtain ⟨hapart, hrest⟩ : o.apart S' ∧ clean turns p (o.touch ++ S) (f (machine.exec o d).1)
            (outdated S' (o.span d)) (machine.exec o d).2 := by
          cases p <;> simpa [clean] using hclean
        obtain ⟨hfresh, hown⟩ := h'.own hapart
        have hrest := ih hrest (h.other o) hown
        cases p with
        | ret a => exact ⟨hfresh, hrest⟩
        | act o' f' => exact ⟨hfresh, hrest⟩

theorem stale_nil : Stale [] k d ↔ Remembers k d := by simp [Stale, Remembers]

/-- Nobody else changes what a program that runs alone remembers. -/
theorem Remembers.exec (h : Remembers k d) (o : Access) :
    machine.Fresh k o d ∧ Remembers (machine.learn k o d) (machine.exec o d).2 := by
  have hapart : o.apart [] := by cases o <;> rfl
  exact ((stale_nil.mpr h).own hapart).imp_right stale_nil.mp

end stale

end ByteFile
