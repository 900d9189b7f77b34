import Mathlib.Data.List.Basic
import Mathlib.Data.List.TakeWhile
import Mathlib.Algebra.Order.Ring.Nat
import Mathlib.Tactic.Ring

/-!
# Byte memory

What C code does with memory, without the code: a memory is a function from
addresses to bytes, `write` overwrites a run of them, and everything a program
reads is one of three views of it — a run of bytes (`read`), a little-endian
number (`readLE`) or a NUL-terminated string (`HoldsString`).

For each view there are the same two lemmas: reading what was just written gives
it back, and reading where nothing was written gives what was there before
(`AgreeOn`).
-/

namespace Bytes

/-- A byte-addressed memory. -/
abbrev Memory : Type := ℕ → UInt8

/-- Overwrite the bytes from `a` on by `bs`. -/
def write (m : Memory) (a : ℕ) (bs : List UInt8) : Memory :=
  fun i => if i < a then m i else (bs[i - a]?).getD (m i)

/-- The `n` bytes from `a` on. -/
def read (m : Memory) (a n : ℕ) : List UInt8 := (List.range n).map fun i => m (a + i)

/-- The two memories hold the same `n` bytes from `a` on. -/
def AgreeOn (m m' : Memory) (a n : ℕ) : Prop := ∀ i, a ≤ i → i < a + n → m i = m' i

variable {m m' : Memory} {a b i k n : ℕ} {bs : List UInt8}

theorem write_of_lt (h : i < a) : write m a bs i = m i := if_pos h

theorem write_of_ge (h : a + bs.length ≤ i) : write m a bs i = m i := by
  rw [write, if_neg (by omega), List.getElem?_eq_none (by omega), Option.getD_none]

theorem write_of_mem (h : i < bs.length) : write m a bs (a + i) = bs[i] := by
  rw [write, if_neg (by omega), Nat.add_sub_cancel_left, List.getElem?_eq_getElem h,
    Option.getD_some]

@[simp] theorem length_read : (read m a n).length = n := by simp [read]

theorem getElem_read (h : i < (read m a n).length) : (read m a n)[i] = m (a + i) := by
  simp [read]

namespace AgreeOn

theorem refl (m : Memory) (a n : ℕ) : AgreeOn m m a n := fun _ _ _ => rfl

theorem symm (h : AgreeOn m m' a n) : AgreeOn m' m a n := fun i hi hn => (h i hi hn).symm

theorem trans {m'' : Memory} (h : AgreeOn m m' a n) (h' : AgreeOn m' m'' a n) :
    AgreeOn m m'' a n :=
  fun i hi hn => (h i hi hn).trans (h' i hi hn)

/-- A smaller run. -/
theorem mono (h : AgreeOn m m' a n) (hab : a ≤ b) (hk : b + k ≤ a + n) : AgreeOn m m' b k :=
  fun i hi hk' => h i (by omega) (by omega)

/-- A write elsewhere. -/
theorem write (h : b + bs.length ≤ a ∨ a + n ≤ b) : AgreeOn m (Bytes.write m b bs) a n := by
  intro i hi hn
  rcases h with h | h
  · exact (write_of_ge (by omega)).symm
  · exact (write_of_lt (by omega)).symm

end AgreeOn

theorem read_congr (h : AgreeOn m m' a n) : read m a n = read m' a n := by
  unfold read
  refine List.map_congr_left fun i hi => ?_
  rw [List.mem_range] at hi
  exact h _ (by omega) (by omega)

@[simp] theorem read_write_self : read (write m a bs) a bs.length = bs := by
  refine List.ext_getElem (by simp) fun i hi hi' => ?_
  rw [getElem_read, write_of_mem hi']

/-- A run that reads the same is the same. -/
theorem AgreeOn.of_read (h : read m a n = read m' a n) : AgreeOn m m' a n := by
  intro i hi hn
  obtain ⟨j, rfl⟩ := Nat.exists_eq_add_of_le hi
  have hj := congrArg (fun bs => bs[j]?) h
  simpa [read, show j < n by omega] using hj

theorem read_succ : read m a (n + 1) = m a :: read m (a + 1) n := by
  rw [read, List.range_succ_eq_map, List.map_cons, List.map_map, Nat.add_zero, read]
  refine congrArg (m a :: ·) (List.map_congr_left fun i _ => ?_)
  rw [Function.comp_apply, Nat.succ_eq_add_one, Nat.add_assoc, Nat.add_comm 1 i]

/-- What a read of `n` bytes into a buffer leaves there. -/
theorem agreeOn_write_read : AgreeOn (write m 0 (read m' a n)) (fun i => m' (a + i)) 0 n := by
  intro i _ hi
  have hlen : i < (read m' a n).length := by simpa using hi
  have hmem := write_of_mem (m := m) (a := 0) hlen
  rw [Nat.zero_add] at hmem
  rw [hmem, getElem_read]

/-- Setting one byte of a run. -/
theorem read_write_one {c : UInt8} (h : i < n) :
    read (write m (a + i) [c]) a n = (read m a n).set i c := by
  refine List.ext_getElem (by simp) fun j hj hj' => ?_
  rw [getElem_read, List.getElem_set, getElem_read]
  rcases lt_trichotomy j i with hlt | rfl | hgt
  · rw [if_neg (by omega), write_of_lt (by omega)]
  · rw [if_pos rfl]
    have hmem : 0 < [c].length := Nat.zero_lt_one
    exact write_of_mem hmem
  · rw [if_neg (by omega), write_of_ge (by simp; omega)]

/-- The memory from an address on, as a memory of its own. -/
def shift (m : Memory) (a : ℕ) : Memory := fun i => m (a + i)

theorem shift_zero : shift m 0 = m := by
  funext i
  rw [shift, Nat.zero_add]

theorem AgreeOn.shift : AgreeOn (shift m a) (shift m' a) b n ↔ AgreeOn m m' (a + b) n := by
  constructor
  · intro h i hi hn
    obtain ⟨j, rfl⟩ := Nat.exists_eq_add_of_le (show a ≤ i by omega)
    exact h j (by omega) (by omega)
  · exact fun h i hi hn => h (a + i) (by omega) (by omega)

@[simp] theorem read_shift : read (shift m a) b n = read m (a + b) n := by
  simp [read, shift, Nat.add_assoc]

/-! ## Little-endian numbers -/

/-- The number in the `k` bytes from `a` on, least significant byte first. -/
def readLE (m : Memory) : ℕ → ℕ → ℕ
  | _, 0 => 0
  | a, k + 1 => (m a).toNat + 256 * readLE m (a + 1) k

/-- The `k` low bytes of a number, least significant byte first. -/
def toLE : ℕ → ℕ → List UInt8
  | 0, _ => []
  | k + 1, v => UInt8.ofNat v :: toLE k (v / 256)

@[simp] theorem length_toLE (k v : ℕ) : (toLE k v).length = k := by
  induction k generalizing v with
  | zero => rfl
  | succ k ih => simp [toLE, ih]

theorem readLE_congr (h : AgreeOn m m' a k) : readLE m a k = readLE m' a k := by
  induction k generalizing a with
  | zero => rfl
  | succ k ih =>
    rw [readLE, readLE, h a (le_refl a) (by omega), ih (h.mono (by omega) (by omega))]

@[simp] theorem readLE_shift : readLE (shift m a) b k = readLE m (a + b) k := by
  induction k generalizing b with
  | zero => rfl
  | succ k ih => rw [readLE, readLE, ih, shift, Nat.add_assoc]

/-- A number has one form. -/
theorem AgreeOn.of_readLE (h : readLE m a k = readLE m' a k) : AgreeOn m m' a k := by
  induction k generalizing a with
  | zero => exact fun i hi hn => absurd hn (by omega)
  | succ k ih =>
    rw [readLE, readLE] at h
    have hbyte : (m a).toNat < 256 := (m a).toNat_lt
    have hbyte' : (m' a).toNat < 256 := (m' a).toNat_lt
    have hhead : m a = m' a := UInt8.toNat_inj.mp (by omega)
    have htail : readLE m (a + 1) k = readLE m' (a + 1) k := by omega
    intro i hi hn
    rcases eq_or_lt_of_le hi with rfl | hlt
    · exact hhead
    · exact ih htail i hlt (by omega)

theorem readLE_zero (h : ∀ i, a ≤ i → i < a + k → m i = 0) : readLE m a k = 0 := by
  induction k generalizing a with
  | zero => rfl
  | succ k ih =>
    rw [readLE, h a (le_refl a) (by omega), ih fun i hi hk => h i (by omega) (by omega)]
    rfl

/-- A memory that starts with the bytes of a number. -/
theorem readLE_of_toLE {v : ℕ} (h : ∀ i (hi : i < (toLE k v).length), m (a + i) = (toLE k v)[i]) :
    readLE m a k = v % 256 ^ k := by
  induction k generalizing a v with
  | zero => simp [readLE, Nat.mod_one]
  | succ k ih =>
    have hhead : m a = UInt8.ofNat v := by simpa [toLE] using h 0 (by simp)
    have htail : readLE m (a + 1) k = v / 256 % 256 ^ k := by
      refine ih fun i hi => ?_
      have := h (i + 1) (by simpa [toLE] using hi)
      simpa [toLE, Nat.add_assoc, Nat.add_comm 1 i] using this
    rw [readLE, hhead, htail, Nat.pow_succ, Nat.mul_comm (256 ^ k), Nat.mod_mul]
    rfl

theorem readLE_write_self (v : ℕ) : readLE (write m a (toLE k v)) a k = v % 256 ^ k :=
  readLE_of_toLE fun _ hi => write_of_mem hi

/-! ## Strings -/

/-- The NUL-terminated string `s` starts at `a`. -/
def HoldsString (m : Memory) : ℕ → List UInt8 → Prop
  | a, [] => m a = 0
  | a, c :: s => m a = c ∧ HoldsString m (a + 1) s

/-- `strcmp(s, m + a) == 0` for a string `s` without its terminator. It reads no
further than the comparison has to go. -/
def strcmpEq (m : Memory) : ℕ → List UInt8 → Bool
  | a, [] => m a = 0
  | a, c :: s => m a = c && strcmpEq m (a + 1) s

theorem strcmpEq_iff {s : List UInt8} : strcmpEq m a s = true ↔ HoldsString m a s := by
  induction s generalizing a with
  | nil => simp [strcmpEq, HoldsString]
  | cons c s ih => simp [strcmpEq, HoldsString, ih]

theorem HoldsString.congr {s : List UInt8} (h : HoldsString m a s)
    (heq : AgreeOn m m' a (s.length + 1)) : HoldsString m' a s := by
  induction s generalizing a with
  | nil =>
    rw [HoldsString, ← heq a (le_refl a) (by simp)]
    exact h
  | cons c s ih =>
    rw [HoldsString, ← heq a (le_refl a) (by omega)]
    exact ⟨h.1, ih h.2 (heq.mono (by omega) (by simp; omega))⟩

theorem HoldsString.shift {s : List UInt8} (h : HoldsString (shift m a) b s) :
    HoldsString m (a + b) s := by
  induction s generalizing b with
  | nil => exact h
  | cons c s ih => exact ⟨h.1, Nat.add_assoc a b 1 ▸ ih h.2⟩

/-- A memory holds one string at an address. -/
theorem HoldsString.unique {s s' : List UInt8} (h : HoldsString m a s) (h' : HoldsString m a s')
    (hs : 0 ∉ s) (hs' : 0 ∉ s') : s = s' := by
  induction s generalizing a s' with
  | nil =>
    cases s' with
    | nil => rfl
    | cons c s' => exact absurd (h.symm.trans h'.1 ▸ List.mem_cons_self) hs'
  | cons c s ih =>
    cases s' with
    | nil => exact absurd (h'.symm.trans h.1 ▸ List.mem_cons_self) hs
    | cons c' s' =>
      rw [← h.1, ← h'.1, ih h.2 h'.2 (List.not_mem_of_not_mem_cons hs)
        (List.not_mem_of_not_mem_cons hs')]

/-- Comparing with a memory that holds a string compares the strings. -/
theorem strcmpEq_eq {s s' : List UInt8} (h : HoldsString m a s') (hs : 0 ∉ s) (hs' : 0 ∉ s') :
    strcmpEq m a s = true ↔ s = s' := by
  rw [strcmpEq_iff]
  constructor
  · exact fun hm => hm.unique h hs hs'
  · rintro rfl
    exact h

/-- A memory that starts with the bytes of a string and its terminator. -/
theorem HoldsString.of_bytes {s : List UInt8}
    (h : ∀ i (hi : i < (s ++ [0]).length), m (a + i) = (s ++ [0])[i]) : HoldsString m a s := by
  induction s generalizing a with
  | nil => simpa [HoldsString] using h 0 (by simp)
  | cons c s ih =>
    refine ⟨by simpa using h 0 (by simp), ih fun i hi => ?_⟩
    have := h (i + 1) (by simpa using hi)
    simpa [Nat.add_assoc, Nat.add_comm 1 i] using this

/-- `strcpy`: the bytes of the string and its terminator. -/
theorem HoldsString.write_self (m : Memory) (a : ℕ) (s : List UInt8) :
    HoldsString (write m a (s ++ [0])) a s :=
  .of_bytes fun _ hi => write_of_mem hi

/-- `strncpy(dst, m + a, n)`: what ends up in the `n` bytes of the destination.
Once the terminator is met, the rest is filled with zeros. -/
def strncpy (m : Memory) : ℕ → ℕ → List UInt8
  | _, 0 => []
  | a, n + 1 => if m a = 0 then List.replicate (n + 1) 0 else m a :: strncpy m (a + 1) n

theorem strncpy_of_holdsString {s : List UInt8} (h : HoldsString m a s) (hs : 0 ∉ s)
    (hn : s.length < n) : strncpy m a n = s ++ List.replicate (n - s.length) 0 := by
  induction s generalizing a n with
  | nil =>
    obtain ⟨n, rfl⟩ : ∃ k, n = k + 1 := ⟨n - 1, by simp at hn; omega⟩
    rw [HoldsString] at h
    rw [strncpy, if_pos h]
    rfl
  | cons c s ih =>
    obtain ⟨n, rfl⟩ : ∃ k, n = k + 1 := ⟨n - 1, by simp at hn; omega⟩
    have hc : m a ≠ 0 := fun heq => hs (h.1.symm.trans heq ▸ List.mem_cons_self)
    rw [strncpy, if_neg hc, h.1, ih h.2 (List.not_mem_of_not_mem_cons hs) (by simpa using hn),
      List.length_cons, Nat.add_sub_add_right, List.cons_append]

/-- The string in a buffer; without a terminator there is none. -/
def cstr? (buf : List UInt8) : Option (List UInt8) :=
  if 0 ∈ buf then some (buf.takeWhile (· ≠ 0)) else none

theorem cstr?_append_replicate {s : List UInt8} (hs : 0 ∉ s) (hn : 0 < n) :
    cstr? (s ++ List.replicate n 0) = some s := by
  have hmem : (0 : UInt8) ∈ s ++ List.replicate n 0 := by simp; omega
  rw [cstr?, if_pos hmem]
  congr 1
  induction s with
  | nil =>
    obtain ⟨n, rfl⟩ : ∃ k, n = k + 1 := ⟨n - 1, by omega⟩
    rfl
  | cons c s ih =>
    have hc : c ≠ 0 := fun heq => hs (heq ▸ List.mem_cons_self)
    rw [List.cons_append, List.takeWhile_cons_of_pos (by simpa using hc),
      ih (List.not_mem_of_not_mem_cons hs) (List.mem_append_right _ (by simp; omega))]

/-- The string that starts at an address, within the `n` bytes from there on. -/
def stringAt (m : Memory) (a n : ℕ) : List UInt8 := (read m a n).takeWhile (· ≠ 0)

theorem stringAt_noNul : 0 ∉ stringAt m a n := fun h => by simpa using List.mem_takeWhile_imp h

theorem HoldsString.stringAt_eq {s : List UInt8} (h : HoldsString m a s) (hs : 0 ∉ s)
    (hn : s.length < n) : stringAt m a n = s := by
  induction s generalizing a n with
  | nil =>
    obtain ⟨n, rfl⟩ : ∃ k, n = k + 1 := ⟨n - 1, by simp at hn; omega⟩
    rw [HoldsString] at h
    rw [stringAt, read_succ, h]
    rfl
  | cons c s ih =>
    obtain ⟨n, rfl⟩ : ∃ k, n = k + 1 := ⟨n - 1, by simp at hn; omega⟩
    have hc : c ≠ 0 := fun heq => hs (heq ▸ List.mem_cons_self)
    have hrest := ih h.2 (List.not_mem_of_not_mem_cons hs) (n := n) (by simpa using hn)
    rw [stringAt] at hrest
    rw [stringAt, read_succ, h.1, List.takeWhile_cons_of_pos (by simpa using hc), hrest]

/-! ## Bounded copies -/

variable {s t : List UInt8}

/-- The memory holds what a copy of `s` into a field of `n` bytes leaves there: the
string and its terminator, as far as they fit. -/
def HoldsCopy (m : Memory) (a n : ℕ) (s : List UInt8) : Prop :=
  read m a ((s ++ [0]).take n).length = (s ++ [0]).take n

theorem HoldsString.of_read (h : read m a (s ++ [0]).length = s ++ [0]) : HoldsString m a s := by
  refine .of_bytes fun i hi => ?_
  have hi' : i < (read m a (s ++ [0]).length).length := by rwa [length_read]
  rw [← getElem_read hi']
  simp only [h]

/-- A string in two parts. -/
theorem holdsString_append :
    HoldsString m a (s ++ t) ↔ read m a s.length = s ∧ HoldsString m (a + s.length) t := by
  induction s generalizing a with
  | nil => simp [read]
  | cons c s ih =>
    rw [List.cons_append, HoldsString, ih, List.length_cons, read_succ, List.cons.injEq,
      Nat.add_assoc, Nat.add_comm 1, and_assoc]

/-- `strncpy` of bytes without a terminator. -/
theorem strncpy_of_read (h : read m a s.length = s) (hs : 0 ∉ s) :
    strncpy m a s.length = s := by
  induction s generalizing a with
  | nil => rfl
  | cons c s ih =>
    rw [List.length_cons, read_succ, List.cons.injEq] at h
    have hc : m a ≠ 0 := fun heq => hs (h.1.symm.trans heq ▸ List.mem_cons_self)
    rw [List.length_cons, strncpy, if_neg hc, h.1, ih h.2 (List.not_mem_of_not_mem_cons hs)]

namespace HoldsCopy

theorem write (m : Memory) (a n : ℕ) (s : List UInt8) :
    HoldsCopy (Bytes.write m a ((s ++ [0]).take n)) a n s :=
  read_write_self

theorem congr {m' : Memory} (h : HoldsCopy m a n s) (heq : AgreeOn m m' a n) :
    HoldsCopy m' a n s := by
  unfold HoldsCopy at h ⊢
  rw [← read_congr (heq.mono le_rfl (by simp)), h]

/-- A string that fits is there. -/
theorem holdsString (h : HoldsCopy m a n s) (hn : s.length < n) : HoldsString m a s := by
  have hlen : (s ++ [0]).length ≤ n := by simpa using Nat.succ_le_of_lt hn
  rw [HoldsCopy, List.take_of_length_le hlen] at h
  exact .of_read h

/-- Of a string that does not fit, the field holds the beginning. -/
theorem read_eq (h : HoldsCopy m a n s) (hn : n ≤ s.length) : read m a n = s.take n := by
  rw [HoldsCopy, List.take_append_of_le_length hn, List.length_take_of_le hn] at h
  exact h

/-- What a copy out of the field contains as a string. -/
theorem cstr?_strncpy (h : HoldsCopy m a n s) (hs : 0 ∉ s) :
    cstr? (strncpy m a n) = if s.length < n then some s else none := by
  split
  · rename_i hn
    rw [strncpy_of_holdsString (h.holdsString hn) hs hn, cstr?_append_replicate hs (by omega)]
  · rename_i hn
    have hlen : (s.take n).length = n := List.length_take_of_le (by omega)
    have hcut : (0 : UInt8) ∉ s.take n := fun hmem => hs (List.mem_of_mem_take hmem)
    have hread : read m a (s.take n).length = s.take n := by rw [hlen, h.read_eq (by omega)]
    have hcopy := strncpy_of_read hread hcut
    rw [hlen] at hcopy
    rw [hcopy, cstr?, if_neg hcut]

/-- A string that does not fit runs on behind the field. -/
theorem holdsString_iff (h : HoldsCopy m a n s) (hn : n ≤ s.length) :
    HoldsString m a s ↔ HoldsString m (a + n) (s.drop n) := by
  have hlen : (s.take n).length = n := List.length_take_of_le hn
  conv_lhs => rw [← List.take_append_drop n s, holdsString_append, hlen]
  exact and_iff_right (h.read_eq hn)

end HoldsCopy

end Bytes
