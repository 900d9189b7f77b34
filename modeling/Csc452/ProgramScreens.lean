import Csc452.Programs
import Csc452.HilbertCurve

/-!
# What the programs show

A page depends on the value of `n` alone: the second buffer is cleared before it is drawn
to, the copy replaces every cell of the frame buffer, and the globals of the program are
reset at the top of the loop. So whatever keys are pressed, the screen shows the page they
lead to, and nothing of the pages before it (`Show.Stands`). When a program stops, the
screen is blank and the terminal as it was.

* `hilbert_shows` — the curve of the order that was asked for. From order nine on it is a
  single pixel: the length of its lines has become zero;
* `hilbert_solid` — the curve of order eight is the solid square that the comment of
  `hilbert.c` promises;
* `driver_shows` — the two lines of `driver.c`; the third is drawn, but the program does not
  wait for a key before it stops.
-/

namespace Csc452.Graphics

open SpaceFilling

/-! ## Buffers -/

variable {g : Screen} {img img' : Image} {cells : ℤ → Color} {i n : ℤ}

/-- What a loop that stores leaves. -/
theorem Image.fill_spec (img : Image) (n : ℤ) (value : ℤ → Color) :
    (∀ i, (img.fill n value).cells i = if 0 ≤ i ∧ i < n then value i else img.cells i) ∧
      ∀ i ∈ (img.fill n value).stores, i ∈ img.stores ∨ 0 ≤ i ∧ i < n := by
  have hloop : ∀ k : ℕ,
      let img' := (List.range k).foldl (fun img (i : ℕ) => img.store i (value i)) img
      (∀ i, img'.cells i = if 0 ≤ i ∧ i < k then value i else img.cells i) ∧
        ∀ i ∈ img'.stores, i ∈ img.stores ∨ 0 ≤ i ∧ i < k := by
    intro k
    induction k with
    | zero =>
      refine ⟨fun i => ?_, fun i hi => .inl hi⟩
      rw [if_neg fun h => absurd (h.1.trans_lt h.2) (lt_irrefl 0)]
      rfl
    | succ k ih =>
      obtain ⟨hcells, hstores⟩ := ih
      simp only [List.range_succ, List.foldl_append, List.foldl_cons, List.foldl_nil]
      refine ⟨fun i => ?_, fun i hi => ?_⟩
      · rw [Image.cells_store, hcells]
        by_cases hik : i = k
        · rw [if_pos hik, if_pos (by rw [hik]; exact ⟨Int.natCast_nonneg k, by simp⟩), hik]
        · rw [if_neg hik]
          refine if_congr ?_ rfl rfl
          push_cast
          omega
      · rcases List.mem_append.mp hi with hi | hi
        · refine (hstores i hi).imp_right fun h => ⟨h.1, ?_⟩
          push_cast
          linarith [h.2]
        · obtain rfl := List.mem_singleton.mp hi
          exact .inr ⟨Int.natCast_nonneg k, by simp⟩
  obtain ⟨hcells, hstores⟩ := hloop n.toNat
  have hlt : ∀ i : ℤ, 0 ≤ i ∧ i < n.toNat ↔ 0 ≤ i ∧ i < n := by omega
  simp only [hlt] at hcells hstores
  exact ⟨hcells, hstores⟩

/-- The number of cells of a buffer. -/
def Screen.cellCount (g : Screen) : ℤ := g.width * g.yLength

/-- The loops of the library go through all of them. -/
theorem Screen.size_tdiv (g : Screen) : (g.yLength * g.bitDepth).tdiv 2 = g.cellCount := by
  rw [← g.two_mul_width, cellCount, mul_left_comm, Int.mul_tdiv_cancel_left _ two_ne_zero, mul_comm]

theorem Screen.toInt_size (hsize : g.yLength * g.bitDepth ≤ intMax) :
    toInt (g.yLength * g.bitDepth) = some (g.yLength * g.bitDepth) := by
  have hpos : 0 ≤ g.yLength * g.bitDepth := mul_nonneg g.yLength_pos.le g.bitDepth_pos.le
  exact toInt_of_mem ((show intMin ≤ 0 by decide).trans hpos) hsize

/-- Different pixels have different cells. -/
theorem Screen.index_injective {p q : ℤ × ℤ} (hp : g.Has p) (hq : g.Has q)
    (h : g.index p = g.index q) : p = q := by
  obtain ⟨⟨hx, hx'⟩, -⟩ := hp
  obtain ⟨⟨hx₁, hx₁'⟩, -⟩ := hq
  have hmod : ∀ r : ℤ × ℤ, 0 ≤ r.1 → r.1 < g.width → g.index r % g.width = r.1 ∧
      g.index r / g.width = r.2 := by
    intro r hr hr'
    have hw : g.width ≠ 0 := g.width_pos.ne'
    rw [index, add_comm, mul_comm]
    refine ⟨?_, ?_⟩
    · rw [Int.add_mul_emod_self_left, Int.emod_eq_of_lt hr hr']
    · rw [Int.add_mul_ediv_left _ _ hw, Int.ediv_eq_zero_of_lt hr hr', zero_add]
  obtain ⟨h₁, h₂⟩ := hmod p hx hx'
  obtain ⟨h₁', h₂'⟩ := hmod q hx₁ hx₁'
  exact Prod.ext (by rw [← h₁, ← h₁', h]) (by rw [← h₂, ← h₂', h])

/-- A picture: a color for every pixel. -/
abbrev Picture : Type := ℤ × ℤ → Color

/-- Nothing. -/
def blank : Picture := fun _ => 0

/-- Pixels of one color. -/
def painted (pixels : List (ℤ × ℤ)) (c : Color) : Picture := fun p => if p ∈ pixels then c else 0

/-- A buffer holds a picture, in memory that is otherwise as it was: no store went past it. -/
structure Holds (g : Screen) (cells : ℤ → Color) (img : Image) (picture : Picture) : Prop where
  /-- the pixels -/
  pixel : ∀ p, g.Has p → img.cells (g.index p) = picture p
  /-- the stores -/
  inside : ∀ i ∈ img.stores, 0 ≤ i ∧ i < g.cellCount
  /-- the rest of the memory -/
  outside : ∀ i, ¬ (0 ≤ i ∧ i < g.cellCount) → img.cells i = cells i

variable {picture picture' : Picture}

/-- Whatever a buffer holds, a loop over all of its cells replaces it. -/
theorem Holds.fill (h : Holds g cells img picture) (value : ℤ → Color)
    (hvalue : ∀ p, g.Has p → value (g.index p) = picture' p) :
    Holds g cells (img.fill g.cellCount value) picture' := by
  obtain ⟨hcells, hstores⟩ := img.fill_spec g.cellCount value
  refine ⟨fun p hp => ?_, fun i hi => ?_, fun i hi => ?_⟩
  · have hp' : 0 ≤ g.index p ∧ g.index p < g.cellCount := hp.index_mem
    rw [hcells, if_pos hp', hvalue p hp]
  · exact (hstores i hi).elim (h.inside i) id
  · rw [hcells, if_neg hi, h.outside i hi]

theorem Holds.clearScreen (h : Holds g cells img picture)
    (hsize : g.yLength * g.bitDepth ≤ intMax) :
    ∃ img', clearScreen g img = some img' ∧ Holds g cells img' blank := by
  refine ⟨_, ?_, h.fill (fun _ => 0) fun _ _ => rfl⟩
  rw [Graphics.clearScreen, g.toInt_size hsize, ← g.size_tdiv]
  rfl

theorem Holds.blit (h : Holds g cells img picture) {src : Image} {cells' : ℤ → Color}
    (hsrc : Holds g cells' src picture') :
    Holds g cells (blit (g.yLength * g.bitDepth) src img) picture' := by
  rw [Graphics.blit, g.size_tdiv]
  exact h.fill src.cells hsrc.pixel

/-- Pixels drawn to a blank buffer. -/
theorem Holds.draw (h : Holds g cells img blank) {pixels : List (ℤ × ℤ)} {c : Color}
    (hclips : ∀ p ∈ pixels, g.Clips p) :
    ∃ img', pixels.foldlM (fun img p => drawPixel g c img p.1 p.2) img = some img' ∧
      Holds g cells img' (painted pixels c) := by
  obtain ⟨img', hrun, hclipped⟩ := clipped_of_clips (c := c) hclips img
  obtain ⟨new, hnew, hinside, -⟩ := hclipped.stores
  refine ⟨img', hrun, fun p hp => ?_, fun i hi => ?_, fun i hi => ?_⟩
  · have hiff : (∃ q ∈ pixels, g.Has q ∧ g.index q = g.index p) ↔ p ∈ pixels := by
      constructor
      · rintro ⟨q, hq, hhas, hindex⟩
        exact Screen.index_injective hhas hp hindex ▸ hq
      · exact fun hmem => ⟨p, hmem, hp, rfl⟩
    rw [hclipped.cells, painted, h.pixel p hp]
    exact if_congr hiff rfl rfl
  · rw [hnew] at hi
    exact (List.mem_append.mp hi).elim (h.inside i) (hinside i)
  · rw [hclipped.cells, if_neg, h.outside i hi]
    rintro ⟨p, -, hp, rfl⟩
    exact hi hp.index_mem

/-- Fresh memory is blank. -/
theorem holds_createBuffer (g : Screen) : Holds g (fun _ => 0) createBuffer blank :=
  ⟨fun _ _ => rfl, fun _ hi => absurd hi List.not_mem_nil, fun _ _ => rfl⟩

/-! ## Pages -/

/-- What a key does to the value of `n`; there is none when the program has stopped. -/
def turnTo (ends : ℕ → Bool) : Option ℕ → UInt8 → Option ℕ
  | some n, key =>
    if key = keyQ then none
    else if key = keyN then if ends (n + 1) then none else some (n + 1)
    else some n
  | none, _ => none

/-- The value of `n` that keys lead to. -/
def page (ends : ℕ → Bool) (n : ℕ) (keys : List UInt8) : Option ℕ :=
  keys.foldl (turnTo ends) (some n)

variable {ends : ℕ → Bool} {keys : List UInt8}

theorem page_append (ends : ℕ → Bool) (n : ℕ) (keys : List UInt8) (key : UInt8) :
    page ends n (keys ++ [key]) = turnTo ends (page ends n keys) key :=
  List.foldl_concat (turnTo ends) (some n) key keys

/-- The program has stopped: at a `q`, or by itself at a value of `n`. -/
def Stopped (ends : ℕ → Bool) (n : ℕ) (keys : List UInt8) : Prop :=
  keyQ ∈ keys ∨ ∃ m ≤ keys.count keyN, ends (n + m) = true

theorem Stopped.append {n : ℕ} (h : Stopped ends n keys) (key : UInt8) :
    Stopped ends n (keys ++ [key]) := by
  rw [Stopped, List.count_append]
  refine h.imp (List.mem_append_left _) ?_
  rintro ⟨m, hm, hends⟩
  exact ⟨m, hm.trans (Nat.le_add_right _ _), hends⟩

/-- The value of `n` counts the `n`s, until the program stops. -/
theorem page_spec {n : ℕ} (hn : ends n = false) (keys : List UInt8) :
    (Stopped ends n keys → page ends n keys = none) ∧
      (¬ Stopped ends n keys → page ends n keys = some (n + keys.count keyN)) := by
  induction keys using List.reverseRecOn with
  | nil =>
    refine ⟨fun h => ?_, fun _ => rfl⟩
    rcases h with hq | ⟨m, hm, hends⟩
    · exact absurd hq List.not_mem_nil
    · obtain rfl := Nat.le_zero.mp hm
      exact absurd (hn.symm.trans hends) Bool.false_ne_true
  | append_singleton keys key ih =>
    obtain ⟨hstop, hgo⟩ := ih
    rw [page_append]
    by_cases hstopped : Stopped ends n keys
    · rw [hstop hstopped]
      exact ⟨fun _ => rfl, fun h => absurd (hstopped.append key) h⟩
    rw [hgo hstopped, turnTo]
    by_cases hq : key = keyQ
    · rw [if_pos hq]
      exact ⟨fun _ => rfl, fun h => absurd (.inl (by simp [hq])) h⟩
    rw [if_neg hq]
    by_cases hkey : key = keyN
    · subst hkey
      rw [if_pos rfl, Stopped, List.count_append, List.count_singleton_self, ← Nat.add_assoc]
      by_cases hends : ends (n + keys.count keyN + 1) = true
      · rw [if_pos hends]
        exact ⟨fun _ => rfl, fun h => absurd (.inr ⟨_, le_rfl, hends⟩) h⟩
      · rw [if_neg hends]
        refine ⟨fun h => absurd h ?_, fun _ => rfl⟩
        rintro (hmem | ⟨m, hm, hm'⟩)
        · exact hstopped (.inl (by simpa [Ne.symm hq] using hmem))
        · rcases Nat.le_succ_iff.mp hm with hle | rfl
          · exact hstopped (.inr ⟨m, hle, hm'⟩)
          · exact hends hm'
    · have hsame : Stopped ends n (keys ++ [key]) ↔ Stopped ends n keys := by
        simp [Stopped, List.count_append, hkey, Ne.symm hq]
      rw [if_neg hkey, hsame, List.count_append, List.count_singleton, if_neg (by simpa using hkey)]
      exact ⟨fun h => absurd h hstopped, fun _ => rfl⟩

/-! ## Pictures -/

variable {σ : Type} {w : Show σ} {t : σ} {ok : ℕ → Prop} {pictures : ℕ → Picture}

/-- With its globals reset, and on a blank buffer, a program draws what belongs to a value
of `n`. -/
structure Show.Draws (w : Show σ) (g : Screen) (t : σ) (ok : ℕ → Prop) (pictures : ℕ → Picture) :
    Prop where
  /-- a page -/
  drawn : ∀ {n}, ok n → ∀ {img}, Holds g (fun _ => 0) img blank →
    ∃ t' img', w.draw n t img = some (t', img') ∧ w.reset t' = t ∧
      Holds g (fun _ => 0) img' (pictures n)
  /-- the globals are reset -/
  reset : w.reset t = t

/-- The flags while a program runs. -/
def rawFlags (flags : Flags) : Flags := flags &&& ~~~(icanon ||| echo)

/-- The display of a program that was started with these flags. -/
structure Display.Runs (g : Screen) (cells : ℤ → Color) (flags : Flags) (d : Display)
    (picture : Picture) : Prop where
  /-- the frame buffer -/
  frameBuffer : Holds g cells d.frameBuffer picture
  /-- its size -/
  size : d.size = g.yLength * g.bitDepth
  /-- the terminal does not wait for the end of a line and does not echo -/
  terminal : d.flags = rawFlags flags
  /-- what it did before is kept -/
  old : d.old = flags

/-- What a program shows is what its keys have led to. -/
inductive Show.Stands (w : Show σ) (g : Screen) (t : σ) (pictures : ℕ → Picture)
    (cells : ℤ → Color) (flags : Flags) : Outcome σ → Option ℕ → Prop where
  /-- it waits for a key -/
  | waiting {s : Waiting σ} {drawn : Picture} (hdisplay : s.display.Runs g cells flags (pictures s.n))
    (hbuf : Holds g (fun _ => 0) s.buf drawn) (hglobals : s.globals = t)
    (hends : w.ends s.n = false) : Stands w g t pictures cells flags (.waiting s) (some s.n)
  /-- it has stopped: the screen is blank and the terminal as it was -/
  | exited {d : Display} (hframe : Holds g cells d.frameBuffer blank) (hflags : d.flags = flags) :
    Stands w g t pictures cells flags (.exited d) none

variable {flags : Flags}

theorem Display.Runs.leave {d : Display} (h : d.Runs g cells flags picture)
    (hsize : g.yLength * g.bitDepth ≤ intMax) :
    w.Stands g t pictures cells flags (Show.leave g d) none := by
  obtain ⟨img', hclear, hblank⟩ := h.frameBuffer.clearScreen hsize
  rw [Show.leave, exitGraphics, hclear]
  exact .exited hblank h.old

/-- A page is copied. -/
theorem Display.Runs.blit {d : Display} (h : d.Runs g cells flags picture) {buf : Image}
    {cells' : ℤ → Color} (hbuf : Holds g cells' buf picture') :
    Runs g cells flags { d with frameBuffer := blit d.size buf d.frameBuffer } picture' where
  frameBuffer := by
    rw [h.size]
    exact h.frameBuffer.blit hbuf
  size := h.size
  terminal := h.terminal
  old := h.old

/-- The screen is as it was, until a page is copied to it. -/
theorem initGraphics_runs (hsize : g.yLength * g.bitDepth ≤ intMax) (cells : ℤ → Color)
    (flags : Flags) : ∃ d, initGraphics g cells flags = some d ∧
      d.Runs g cells flags fun p => cells (g.index p) := by
  rw [initGraphics, g.toInt_size hsize]
  refine ⟨_, rfl, ?_, rfl, rfl, rfl⟩
  exact ⟨fun _ _ => rfl, fun _ hi => absurd hi List.not_mem_nil, fun _ _ => rfl⟩

/-- At the top of the loop. -/
theorem Show.await_stands (hsize : g.yLength * g.bitDepth ≤ intMax) {s : Waiting σ}
    {drawn : Picture} (hdisplay : s.display.Runs g cells flags (pictures s.n))
    (hbuf : Holds g (fun _ => 0) s.buf drawn) (hglobals : w.reset s.globals = t) :
    w.Stands g t pictures cells flags (w.await g s) (if w.ends s.n then none else some s.n) := by
  rw [Show.await]
  cases hends : w.ends s.n with
  | false => exact .waiting (s := { s with globals := w.reset s.globals }) hdisplay hbuf hglobals hends
  | true => exact hdisplay.leave hsize

/-- A key. -/
theorem Show.Draws.press (hw : w.Draws g t ok pictures) (hsize : g.yLength * g.bitDepth ≤ intMax)
    {out : Outcome σ} {n? : Option ℕ} (h : w.Stands g t pictures cells flags out n?) {key : UInt8}
    (hok : ∀ n, n? = some n → key = keyN → ok (n + 1)) :
    w.Stands g t pictures cells flags (w.press g out key) (turnTo w.ends n? key) := by
  cases h with
  | exited hframe hflags => exact .exited hframe hflags
  | @waiting s drawn hdisplay hbuf hglobals hends =>
    rw [Show.press, turnTo]
    by_cases hq : key = keyQ
    · rw [if_pos hq, if_pos hq]
      exact hdisplay.leave hsize
    rw [if_neg hq, if_neg hq]
    by_cases hkey : key = keyN
    · rw [if_pos hkey, if_pos hkey]
      obtain ⟨img, hclear, hblank⟩ := hbuf.clearScreen hsize
      obtain ⟨t', img', hdraw, hreset, hpage⟩ := hw.drawn (hok s.n rfl hkey) hblank
      have hturn : w.turnPage g s = some
          { display :=
              { s.display with frameBuffer := blit s.display.size img' s.display.frameBuffer }
            buf := img', n := s.n + 1, globals := t' } := by
        rw [Show.turnPage, hclear, hglobals]
        simp only [Option.bind_eq_bind, Option.bind_some, hdraw]
      rw [hturn]
      exact await_stands hsize (hdisplay.blit hpage) hpage hreset
    · rw [if_neg hkey, if_neg hkey]
      have hagain := await_stands (w := w) hsize hdisplay hbuf (by rw [hglobals, hw.reset])
      rwa [if_neg (by rw [hends]; exact Bool.false_ne_true)] at hagain

/-- **Keys.** The screen shows the page that the keys have led to. -/
theorem Show.Draws.presses (hw : w.Draws g t ok pictures)
    (hsize : g.yLength * g.bitDepth ≤ intMax) {out : Outcome σ} {n : ℕ}
    (h : w.Stands g t pictures cells flags out (some n)) (keys : List UInt8)
    (hok : ∀ pre m, pre ++ [keyN] <+: keys → page w.ends n pre = some m → ok (m + 1)) :
    w.Stands g t pictures cells flags (keys.foldl (w.press g) out) (page w.ends n keys) := by
  induction keys using List.reverseRecOn with
  | nil => exact h
  | append_singleton keys key ih =>
    rw [List.foldl_concat, page_append]
    refine hw.press hsize (ih fun pre m hpre => hok pre m (hpre.trans (List.prefix_append _ _)))
      fun m hm hkey => hok keys m ?_ hm
    rw [hkey]

/-- What can be seen of a program that waits for a key. -/
def Outcome.Waits (g : Screen) (cells : ℤ → Color) (flags : Flags) (out : Outcome σ)
    (picture : Picture) : Prop :=
  ∃ s, out = .waiting s ∧ Holds g cells s.display.frameBuffer picture ∧
    s.display.flags = rawFlags flags

/-- What can be seen of a program that has stopped. -/
def Outcome.HasStopped (g : Screen) (cells : ℤ → Color) (flags : Flags) (out : Outcome σ) : Prop :=
  ∃ d, out = .exited d ∧ Holds g cells d.frameBuffer blank ∧ d.flags = flags

theorem Show.Stands.waits {out : Outcome σ} {n : ℕ}
    (h : w.Stands g t pictures cells flags out (some n)) :
    out.Waits g cells flags (pictures n) := by
  cases h with
  | waiting hdisplay => exact ⟨_, rfl, hdisplay.frameBuffer, hdisplay.terminal⟩

theorem Show.Stands.hasStopped {out : Outcome σ}
    (h : w.Stands g t pictures cells flags out none) : out.HasStopped g cells flags := by
  cases h with
  | exited hframe hflags => exact ⟨_, rfl, hframe, hflags⟩

/-! ## Lines -/

section lines

variable {p q : ℤ} {d k : ℕ}

/-- A coordinate stays between the two ends. -/
theorem coord_between (hd : |q - p| ≤ d) (hk : k ≤ d) :
    min p q ≤ coord p q d k ∧ coord p q d k ≤ max p q := by
  rcases Nat.eq_zero_or_pos d with rfl | hpos
  · have heq : p = q := by
      have habs : |q - p| = 0 := le_antisymm (by simpa using hd) (abs_nonneg _)
      linarith [abs_eq_zero.mp habs]
    rw [coord, heq, sub_self, abs_zero, EvenSteps.zero_spread, mul_zero, add_zero]
    exact ⟨min_le_left _ _, le_max_left _ _⟩
  · have hpos' : (0 : ℤ) < d := Int.natCast_pos.mpr hpos
    have hlow := EvenSteps.spread_nonneg (k := k) hpos' (abs_nonneg (q - p))
    have hhigh := EvenSteps.spread_le hpos' (abs_nonneg (q - p)) (Int.ofNat_le.mpr hk)
    rw [coord, toward]
    rcases lt_or_ge p q with hlt | hge
    · rw [abs_of_pos (sub_pos.mpr hlt)] at hlow hhigh ⊢
      rw [if_pos hlt, min_eq_left hlt.le, max_eq_right hlt.le]
      constructor <;> linarith
    · rw [abs_of_nonpos (sub_nonpos.mpr hge)] at hlow hhigh ⊢
      rw [if_neg hge.not_gt, min_eq_right hge, max_eq_left hge]
      constructor <;> linarith

end lines

/-- The pixels of a line, by its ends. -/
def segmentPixels (s : (ℤ × ℤ) × (ℤ × ℤ)) : List (ℤ × ℤ) :=
  linePixels s.1.1 s.1.2 s.2.1 s.2.2

/-- The points of a rectangle, from the upper left corner on. -/
def Within (x y : ℤ) (p : ℤ × ℤ) : Prop := (0 ≤ p.1 ∧ p.1 ≤ x) ∧ 0 ≤ p.2 ∧ p.2 ≤ y

variable {x y : ℤ} {s : (ℤ × ℤ) × (ℤ × ℤ)} {p : ℤ × ℤ}

/-- A line stays in a rectangle. -/
theorem Within.of_mem_segmentPixels (h₁ : Within x y s.1) (h₂ : Within x y s.2)
    (hp : p ∈ segmentPixels s) : Within x y p := by
  obtain ⟨k, hk, rfl⟩ := mem_linePixels.mp hp
  rw [linePoint_eq]
  obtain ⟨hx, hx'⟩ := coord_between (abs_x_le_long s.1.1 s.1.2 s.2.1 s.2.2) hk
  obtain ⟨hy, hy'⟩ := coord_between (abs_y_le_long s.1.1 s.1.2 s.2.1 s.2.2) hk
  exact ⟨⟨(le_min h₁.1.1 h₂.1.1).trans hx, hx'.trans (max_le h₁.1.2 h₂.1.2)⟩,
    (le_min h₁.2.1 h₂.2.1).trans hy, hy'.trans (max_le h₁.2.2 h₂.2.2)⟩

/-- On a screen that is large enough nothing is clipped. -/
theorem Within.clips (h : Within x y p) (hwidth : x < g.width) (hheight : y < g.yLength)
    (hsize : g.yLength * g.bitDepth ≤ intMax) : g.Clips p where
  not_borders hborders :=
    hborders.not_has ⟨⟨h.1.1, h.1.2.trans_lt hwidth⟩, h.2.1, h.2.2.trans_lt hheight⟩
  index_le hhas := g.index_le_intMax hsize hhas

/-- A line in a rectangle is drawn, pixel by pixel. -/
theorem drawLine_eq (h₁ : Within x y s.1) (h₂ : Within x y s.2) (hx : x < 2 ^ 28) (hy : y < 2 ^ 28)
    {fuel : ℕ} (hfuel : max x y < fuel) (img : Image) (c : Color) :
    drawLine g fuel img s.1.1 s.1.2 s.2.1 s.2.2 c =
      (segmentPixels s).foldlM (fun img p => drawPixel g c img p.1 p.2) img := by
  have hlt : ∀ {z b : ℤ}, 0 ≤ z → z ≤ b → b < 2 ^ 28 → |z| < 2 ^ 28 := fun hz hzb hb => by
    rw [abs_of_nonneg hz]
    exact hzb.trans_lt hb
  have hrange : InRange s.1.1 s.1.2 s.2.1 s.2.2 :=
    ⟨hlt h₁.1.1 h₁.1.2 hx, hlt h₁.2.1 h₁.2.2 hy, hlt h₂.1.1 h₂.1.2 hx, hlt h₂.2.1 h₂.2.2 hy⟩
  obtain ⟨⟨hx₁, hx₁'⟩, hy₁, hy₁'⟩ := h₁
  obtain ⟨⟨hx₂, hx₂'⟩, hy₂, hy₂'⟩ := h₂
  have hlong : (long s.1.1 s.1.2 s.2.1 s.2.2 : ℤ) ≤ max x y := by
    rw [natCast_long]
    refine max_le_max (abs_le.mpr ⟨?_, ?_⟩) (abs_le.mpr ⟨?_, ?_⟩) <;> linarith
  exact lineWith_eq hrange (Int.ofNat_lt.mp (hlong.trans_lt hfuel)) img

/-- And so are lines. -/
theorem drawLines_eq {segs : List ((ℤ × ℤ) × (ℤ × ℤ))}
    (h : ∀ s ∈ segs, Within x y s.1 ∧ Within x y s.2) (hx : x < 2 ^ 28) (hy : y < 2 ^ 28)
    {fuel : ℕ} (hfuel : max x y < fuel) (img : Image) (c : Color) :
    drawLines (fun img x1 y1 x2 y2 => drawLine g fuel img x1 y1 x2 y2 c) segs img =
      (segs.flatMap segmentPixels).foldlM (fun img p => drawPixel g c img p.1 p.2) img := by
  induction segs generalizing img with
  | nil => rfl
  | cons s segs ih =>
    obtain ⟨⟨h₁, h₂⟩, hrest⟩ := List.forall_mem_cons.mp h
    rw [drawLines_cons, List.flatMap_cons, List.foldlM_append, drawLine_eq h₁ h₂ hx hy hfuel]
    exact congrArg (Option.bind _) (funext fun img => ih hrest img)

/-! ## The curve -/

/-- The length of the lines. -/
def hilbertSide (n : ℕ) : ℤ := (479 : ℤ).tdiv (2 ^ n)

/-- The lines of `hilbert`. -/
def hilbertLines (n : ℕ) : List ((ℤ × ℤ) × (ℤ × ℤ)) :=
  segments (0, 0) (moves n (hilbertSide n, 0) (0, hilbertSide n))

/-- And their pixels. -/
def hilbertPixels (n : ℕ) : List (ℤ × ℤ) := (hilbertLines n).flatMap segmentPixels

theorem hilbertSide_nonneg (n : ℕ) : 0 ≤ hilbertSide n :=
  Int.tdiv_nonneg (by norm_num) (pow_nonneg zero_le_two n)

theorem hilbertSide_mul_le (n : ℕ) : hilbertSide n * 2 ^ n ≤ 479 := by
  rw [hilbertSide, Int.tdiv_eq_ediv_of_nonneg (by norm_num)]
  exact Int.ediv_mul_le 479 (pow_ne_zero n two_ne_zero)

/-- The points of the curve. -/
theorem mem_hilbertWalk {n : ℕ} :
    p ∈ walk (0, 0) (moves n (hilbertSide n, 0) (0, hilbertSide n)) ↔
      ∃ i j : ℤ, (0 ≤ i ∧ i < 2 ^ n) ∧ (0 ≤ j ∧ j < 2 ^ n) ∧
        p = (i * hilbertSide n, j * hilbertSide n) := by
  rw [mem_walk_moves]
  refine exists_congr fun i => exists_congr fun j => and_congr_right fun _ => and_congr_right fun _ => ?_
  simp

/-- They are in a square of 479 by 479. -/
theorem within_of_mem_hilbertWalk {n : ℕ}
    (h : p ∈ walk (0, 0) (moves n (hilbertSide n, 0) (0, hilbertSide n))) : Within 478 478 p := by
  obtain ⟨i, j, ⟨hi, hi'⟩, ⟨hj, hj'⟩, rfl⟩ := mem_hilbertWalk.mp h
  have hside := hilbertSide_nonneg n
  have hbound : ∀ {k : ℤ}, 0 ≤ k → k < 2 ^ n → 0 ≤ k * hilbertSide n ∧ k * hilbertSide n ≤ 478 := by
    intro k hk hk'
    refine ⟨mul_nonneg hk hside, ?_⟩
    have hle : (k + 1) * hilbertSide n ≤ 479 :=
      calc (k + 1) * hilbertSide n ≤ 2 ^ n * hilbertSide n := mul_le_mul_of_nonneg_right hk' hside
        _ = hilbertSide n * 2 ^ n := mul_comm _ _
        _ ≤ 479 := hilbertSide_mul_le n
    rcases hside.eq_or_lt with hzero | hpos
    · rw [← hzero, mul_zero]
      norm_num
    · linarith
  exact ⟨hbound hi hi', hbound hj hj'⟩

theorem within_of_mem_hilbertLines {n : ℕ} :
    ∀ s ∈ hilbertLines n, Within 478 478 s.1 ∧ Within 478 478 s.2 := fun _ hs =>
  ⟨within_of_mem_hilbertWalk (mem_walk_of_mem_segments hs).1,
    within_of_mem_hilbertWalk (mem_walk_of_mem_segments hs).2⟩

/-- The pixels of the curve are on the screen. -/
theorem hilbertPixels_clips {n : ℕ} (hwidth : 478 < g.width) (hheight : 478 < g.yLength)
    (hsize : g.yLength * g.bitDepth ≤ intMax) : ∀ p ∈ hilbertPixels n, g.Clips p := by
  intro p hp
  obtain ⟨s, hs, hmem⟩ := List.mem_flatMap.mp hp
  obtain ⟨h₁, h₂⟩ := within_of_mem_hilbertLines s hs
  exact (h₁.of_mem_segmentPixels h₂ hmem).clips hwidth hheight hsize

/-- `hilbert` draws the lines of the curve, and leaves the turtle as it looked. -/
theorem hilbert_eq {fuel n : ℕ} (hn : n ≤ 30) (hfuel : 478 < fuel) (img : Image) :
    hilbert g fuel n 1 ⟨0, 0, 0⟩ img =
      ((hilbertPixels n).foldlM (fun img p => drawPixel g (rgb 31 0 0) img p.1 p.2) img).map
        fun img => (Turtle.facing 0 ((0, 0) + (moves n (hilbertSide n, 0) (0, hilbertSide n)).sum),
          img) := by
  have hside : toInt (2 ^ n) = some (2 ^ n) := by
    have hle : (2 : ℤ) ^ n ≤ 2 ^ 30 := pow_le_pow_right₀ one_le_two hn
    exact toInt_of_mem ((show intMin ≤ 0 by decide).trans (pow_nonneg zero_le_two n))
      (hle.trans (by decide))
  have hfits : ∀ q ∈ walk (0, 0) (moves n (hilbertSide n, 0) (0, hilbertSide n)), Fits q := by
    intro q hq
    obtain ⟨⟨hx, hx'⟩, hy, hy'⟩ := within_of_mem_hilbertWalk hq
    have hmin : intMin ≤ 0 := by decide
    have hmax : 478 ≤ intMax := by decide
    exact ⟨⟨hmin.trans hx, hx'.trans hmax⟩, hmin.trans hy, hy'.trans hmax⟩
  have hright : hilbertSide n • heading 0 = (hilbertSide n, 0) := by simp [heading]
  have hdown : hilbertSide n • heading (turned 0 1) = (0, hilbertSide n) := by
    simp [heading, turned]
  rw [hilbert, hside, Option.bind_eq_bind, Option.bind_some]
  refine (hilbertRecurse_facing (Or.inl rfl) (Or.inl rfl) hright hdown hfits img).trans ?_
  refine congrArg (Option.map _) ?_
  exact drawLines_eq within_of_mem_hilbertLines (by norm_num) (by norm_num)
    (by exact_mod_cast hfuel) img _

section screen

variable (hwidth : 478 < g.width) (hheight : 478 < g.yLength)
  (hsize : g.yLength * g.bitDepth ≤ intMax) {fuel : ℕ} (hfuel : 478 < fuel)
include hwidth hheight hsize hfuel

theorem hilbert_draws :
    (hilbertShow g fuel).Draws g ⟨0, 0, 0⟩ (· ≤ 30)
      fun n => painted (hilbertPixels n) (rgb 31 0 0) where
  drawn := by
    intro n hn img himg
    obtain ⟨img', hrun, hholds⟩ :=
      himg.draw (c := rgb 31 0 0) (hilbertPixels_clips (n := n) hwidth hheight hsize)
    refine ⟨_, img', (hilbert_eq hn hfuel img).trans (congrArg (Option.map _) hrun), ?_, hholds⟩
    rfl
  reset := rfl

/-- `main` waits for the first key. -/
theorem hilbertStart_stands (cells : ℤ → Color) (flags : Flags) :
    (hilbertShow g fuel).Stands g ⟨0, 0, 0⟩ (fun n => painted (hilbertPixels n) (rgb 31 0 0))
      cells flags ((hilbertStart g fuel cells flags).elim .undefined ((hilbertShow g fuel).await g))
      (some 1) := by
  obtain ⟨d, hinit, hruns⟩ := initGraphics_runs hsize cells flags
  obtain ⟨t, buf, hdraw, hreset, hpage⟩ :=
    (hilbert_draws hwidth hheight hsize hfuel).drawn (n := 1) (by norm_num) (holds_createBuffer g)
  have hstart : hilbertStart g fuel cells flags = some
      { display := { d with frameBuffer := blit d.size buf d.frameBuffer }
        buf := buf, n := 1, globals := t } := by
    have hhilbert : hilbert g fuel 1 1 ⟨0, 0, 0⟩ createBuffer = some (t, buf) := hdraw
    rw [hilbertStart, hinit]
    simp only [Option.bind_eq_bind, Option.bind_some, hhilbert]
  rw [hstart]
  exact Show.await_stands hsize (hruns.blit hpage) hpage hreset

/-- **The curve program**: until a `q` is pressed it waits, and shows the curve whose order
is the number of `n`s and one, and nothing else. The order is at most thirty: the shift that
computes the length of the lines has no value after that.

The screen is one that the curve fits: 479 pixels in either direction, as the 640 by 480 of
two bytes a pixel that the library is written for, and its size in bytes is an `int`. On one
with fewer rows lines may leave the buffer. -/
theorem hilbert_shows {keys : List UInt8}
    (hkeys : (keys.takeWhile (· ≠ keyQ)).count keyN ≤ 29) (cells : ℤ → Color) (flags : Flags) :
    (keyQ ∈ keys → (hilbertMain g fuel cells flags keys).HasStopped g cells flags) ∧
      (keyQ ∉ keys → (hilbertMain g fuel cells flags keys).Waits g cells flags
        (painted (hilbertPixels (1 + keys.count keyN)) (rgb 31 0 0))) := by
  have hstopped : ∀ keys : List UInt8, Stopped (hilbertShow g fuel).ends 1 keys ↔ keyQ ∈ keys := by
    intro keys
    exact or_iff_left fun ⟨_, _, hends⟩ => Bool.false_ne_true hends
  have hpage := fun keys =>
    page_spec (show (hilbertShow g fuel).ends 1 = false from rfl) keys
  simp only [hstopped] at hpage
  have hstands := (hilbert_draws hwidth hheight hsize hfuel).presses hsize
    (hilbertStart_stands hwidth hheight hsize hfuel cells flags) keys
    fun pre m hpre hm => ?_
  · rw [← hilbertMain] at hstands
    refine ⟨fun hq => ?_, fun hq => ?_⟩
    · rw [(hpage keys).1 hq] at hstands
      exact hstands.hasStopped
    · rw [(hpage keys).2 hq] at hstands
      exact hstands.waits
  -- the keys as far as this `n` have no `q`
  have hq : keyQ ∉ pre := fun hq => by simp [(hpage pre).1 hq] at hm
  obtain rfl : 1 + pre.count keyN = m := Option.some.inj (((hpage pre).2 hq).symm.trans hm)
  obtain ⟨rest, rfl⟩ := hpre
  have hne : ∀ key ∈ pre ++ [keyN], decide (key ≠ keyQ) = true := by
    intro key hkey
    rcases List.mem_append.mp hkey with hkey | hkey
    · exact decide_eq_true fun heq => hq (heq ▸ hkey)
    · rw [List.mem_singleton.mp hkey]
      rfl
  rw [List.takeWhile_append_of_pos hne, List.count_append, List.count_append,
    List.count_singleton_self] at hkeys
  show 1 + pre.count keyN + 1 ≤ 30
  linarith [Nat.zero_le ((rest.takeWhile (· ≠ keyQ)).count keyN)]

end screen

/-- A screen of 640 by 480. -/
def vga : Screen :=
  ⟨480, 1280, by norm_num, by norm_num, by norm_num⟩

theorem hilbert_shows_keys :
    (hilbertMain vga 479 (fun _ => 7) 0x803b [keyN, 120, keyN]).Waits vga (fun _ => 7) 0x803b
        (painted (hilbertPixels 3) (rgb 31 0 0)) ∧
      (hilbertMain vga 479 (fun _ => 7) 0x803b [keyN, keyQ, keyN]).HasStopped vga (fun _ => 7)
        0x803b :=
  ⟨(hilbert_shows (by decide) (by decide) (by decide) (by decide) (by decide) _ _).2 (by decide),
    (hilbert_shows (by decide) (by decide) (by decide) (by decide) (by decide) _ _).1 (by decide)⟩

/-! ## How the curve looks -/

/-- Its lines are as long as they should be, and parallel to an axis. -/
theorem straight_of_mem_hilbertLines {n : ℕ} (hs : s ∈ hilbertLines n) :
    (long s.1.1 s.1.2 s.2.1 s.2.2 : ℤ) = hilbertSide n ∧ (s.1.1 = s.2.1 ∨ s.1.2 = s.2.2) := by
  obtain ⟨m, hm, hend⟩ := exists_move_of_mem_segments hs
  have habs : |hilbertSide n| = hilbertSide n := abs_of_nonneg (hilbertSide_nonneg n)
  have hnonneg := hilbertSide_nonneg n
  rw [natCast_long, hend]
  rcases eq_of_mem_moves hm with rfl | rfl | rfl | rfl <;> simp [habs, hnonneg]

/-- A pixel of the curve is on a line of the grid. -/
theorem dvd_of_mem_hilbertPixels {n : ℕ} (hp : p ∈ hilbertPixels n) :
    hilbertSide n ∣ p.1 ∨ hilbertSide n ∣ p.2 := by
  obtain ⟨s, hs, hmem⟩ := List.mem_flatMap.mp hp
  obtain ⟨k, -, rfl⟩ := mem_linePixels.mp hmem
  obtain ⟨i, j, -, -, hstart⟩ := mem_hilbertWalk.mp (mem_walk_of_mem_segments hs).1
  have hsame : ∀ (z : ℤ) (d : ℕ), coord z z d k = z := fun z d => by
    rw [coord, sub_self, abs_zero, EvenSteps.zero_spread, mul_zero, add_zero]
  rw [linePoint_eq]
  rcases (straight_of_mem_hilbertLines hs).2 with hx | hy
  · rw [← hx, hsame, hstart]
    exact .inl (dvd_mul_left _ _)
  · rw [← hy, hsame, hstart]
    exact .inr (dvd_mul_left _ _)

/-- Where the lines are no longer than one pixel, the curve is its points. -/
theorem mem_hilbertPixels_of_side_le {n : ℕ} (hn : n ≠ 0) (hside : hilbertSide n ≤ 1) :
    p ∈ hilbertPixels n ↔ p ∈ walk (0, 0) (moves n (hilbertSide n, 0) (0, hilbertSide n)) := by
  constructor
  · intro hp
    obtain ⟨s, hs, hmem⟩ := List.mem_flatMap.mp hp
    obtain ⟨k, hk, rfl⟩ := mem_linePixels.mp hmem
    have hlong : long s.1.1 s.1.2 s.2.1 s.2.2 ≤ 1 := by
      exact_mod_cast (straight_of_mem_hilbertLines hs).1.trans_le hside
    obtain ⟨h₁, h₂⟩ := mem_walk_of_mem_segments hs
    rcases hk.eq_or_lt with rfl | hlt
    · rwa [linePoint_last]
    · obtain rfl : k = 0 := Nat.lt_one_iff.mp (hlt.trans_le hlong)
      rwa [linePoint_zero]
  · intro hp
    have hne : moves n (hilbertSide n, 0) (0, hilbertSide n) ≠ [] := by
      intro hnil
      have hlen := length_moves n (hilbertSide n, (0 : ℤ)) (0, hilbertSide n)
      rw [hnil, List.length_nil, zero_add] at hlen
      exact (Nat.one_lt_pow hn (by norm_num)).ne hlen
    obtain ⟨s, hs, hend⟩ := exists_segment_of_mem_walk hne hp
    refine List.mem_flatMap.mpr ⟨s, hs, mem_linePixels.mpr ?_⟩
    rcases hend with rfl | rfl
    · exact ⟨0, Nat.zero_le _, linePoint_zero⟩
    · exact ⟨_, le_rfl, linePoint_last⟩

theorem three_le_hilbertSide {n : ℕ} (hn : n ≤ 7) : 3 ≤ hilbertSide n := by
  have hpow : (2 : ℤ) ^ n ≤ 128 := (pow_le_pow_right₀ one_le_two hn).trans (by norm_num)
  rw [hilbertSide, Int.tdiv_eq_ediv_of_nonneg (by norm_num)]
  exact Int.le_ediv_of_mul_le (pow_pos two_pos n) (by linarith)

theorem hilbertSide_eq_zero {n : ℕ} (hn : 9 ≤ n) : hilbertSide n = 0 := by
  have hpow : (512 : ℤ) ≤ 2 ^ n :=
    (show (512 : ℤ) ≤ 2 ^ 9 by norm_num).trans (pow_le_pow_right₀ one_le_two hn)
  exact Int.tdiv_eq_zero_of_lt (by norm_num) (by linarith)

/-- The curve of order eight has every point of its square. -/
theorem mem_hilbertPixels_eight : p ∈ hilbertPixels 8 ↔ Within 255 255 p := by
  have hside : hilbertSide 8 = 1 := rfl
  rw [mem_hilbertPixels_of_side_le (by norm_num) hside.le, mem_hilbertWalk, hside]
  simp only [mul_one, Within, ← Int.lt_add_one_iff (b := 255)]
  constructor
  · rintro ⟨i, j, hi, hj, rfl⟩
    exact ⟨hi, hj⟩
  · exact fun ⟨hi, hj⟩ => ⟨p.1, p.2, hi, hj, rfl⟩

/-- From there on it does not move. -/
theorem mem_hilbertPixels_of_nine_le {n : ℕ} (hn : 9 ≤ n) : p ∈ hilbertPixels n ↔ p = (0, 0) := by
  have hside := hilbertSide_eq_zero hn
  rw [mem_hilbertPixels_of_side_le (by linarith) (hside.trans_le zero_le_one), mem_hilbertWalk, hside]
  simp only [mul_zero]
  have hpos : (0 : ℤ) < 2 ^ n := pow_pos two_pos n
  constructor
  · rintro ⟨i, j, -, -, rfl⟩
    rfl
  · exact fun h => ⟨0, 0, ⟨le_rfl, hpos⟩, ⟨le_rfl, hpos⟩, h⟩

/-- **The solid square**: after seven `n`s the square of 256 by 256 is red, and nothing
else; before that it has gaps, and after that only its corner is left. No `q` has been
pressed, the order is at most thirty, and the screen is one that the curve fits, as in
`hilbert_shows`. -/
theorem hilbert_solid (hwidth : 478 < g.width) (hheight : 478 < g.yLength)
    (hsize : g.yLength * g.bitDepth ≤ intMax) {fuel : ℕ} (hfuel : 478 < fuel)
    {keys : List UInt8} (hq : keyQ ∉ keys) (hkeys : keys.count keyN ≤ 29) (cells : ℤ → Color)
    (flags : Flags) :
    ∃ picture, (hilbertMain g fuel cells flags keys).Waits g cells flags picture ∧
      ((∀ p, Within 255 255 p → picture p = rgb 31 0 0) ↔ keys.count keyN = 7) ∧
      (keys.count keyN = 7 → ∀ p, ¬ Within 255 255 p → picture p = 0) ∧
      (7 < keys.count keyN → ∀ p, picture p = if p = (0, 0) then rgb 31 0 0 else 0) := by
  have hbefore : (keys.takeWhile (· ≠ keyQ)).count keyN ≤ 29 :=
    ((List.takeWhile_prefix _).sublist.count_le _).trans hkeys
  have hshows := (hilbert_shows hwidth hheight hsize hfuel hbefore cells flags).2 hq
  refine ⟨_, hshows, ?_, fun hcount p hp => ?_, fun hcount p => ?_⟩
  · have hred : ∀ p, painted (hilbertPixels (1 + keys.count keyN)) (rgb 31 0 0) p = rgb 31 0 0 ↔
        p ∈ hilbertPixels (1 + keys.count keyN) := by
      intro p
      rw [painted, ite_eq_left_iff, not_imp_comm]
      exact forall_prop_of_true (by decide)
    simp only [hred]
    constructor
    · intro hall
      have hone := hall (1, 1) ⟨⟨by norm_num, by norm_num⟩, by norm_num, by norm_num⟩
      rcases lt_trichotomy (keys.count keyN) 7 with hlt | heq | hgt
      · -- the first point off the axes is on no line
        have hside : 3 ≤ hilbertSide (1 + keys.count keyN) := three_le_hilbertSide (by linarith)
        rcases dvd_of_mem_hilbertPixels hone with hdvd | hdvd <;>
          linarith [Int.le_of_dvd one_pos hdvd]
      · exact heq
      · rw [mem_hilbertPixels_of_nine_le (by linarith)] at hone
        exact absurd (congrArg Prod.fst hone) one_ne_zero
    · intro hcount p hp
      rw [hcount]
      exact mem_hilbertPixels_eight.mpr hp
  · rw [painted, hcount, if_neg fun hmem => hp (mem_hilbertPixels_eight.mp hmem)]
  · rw [painted]
    exact if_congr (mem_hilbertPixels_of_nine_le (by linarith)) rfl rfl

theorem hilbert_solid_vga :
    ∃ picture, (hilbertMain vga 479 (fun _ => 7) 0x803b (List.replicate 7 keyN)).Waits vga
        (fun _ => 7) 0x803b picture ∧
      ((∀ p, Within 255 255 p → picture p = rgb 31 0 0) ↔
        (List.replicate 7 keyN).count keyN = 7) ∧
      ((List.replicate 7 keyN).count keyN = 7 → ∀ p, ¬ Within 255 255 p → picture p = 0) ∧
      (7 < (List.replicate 7 keyN).count keyN →
        ∀ p, picture p = if p = (0, 0) then rgb 31 0 0 else 0) :=
  hilbert_solid (by decide) (by decide) (by decide) (by decide) (by decide) (by decide) _ _

/-! ## The lines of `driver.c` -/

/-- A line on a blank buffer. -/
theorem Holds.drawLine (h : Holds g cells img blank) (h₁ : Within x y s.1) (h₂ : Within x y s.2)
    (hwidth : x < g.width) (hheight : y < g.yLength) (hsize : g.yLength * g.bitDepth ≤ intMax)
    (hx : x < 2 ^ 28) (hy : y < 2 ^ 28) {fuel : ℕ} (hfuel : max x y < fuel) (c : Color) :
    ∃ img', drawLine g fuel img s.1.1 s.1.2 s.2.1 s.2.2 c = some img' ∧
      Holds g cells img' (painted (segmentPixels s) c) := by
  rw [drawLine_eq h₁ h₂ hx hy hfuel]
  exact h.draw fun p hp => (h₁.of_mem_segmentPixels h₂ hp).clips hwidth hheight hsize

/-- What belongs to a value of `n`. -/
def driverPicture : ℕ → Picture
  | 1 => painted (linePixels 0 0 120 120) (rgb 12 58 21)
  | 2 => painted (linePixels 120 67 321 399) (rgb 0 58 21)
  | 3 => painted (linePixels 31 62 520 310) (rgb 12 0 21)
  | _ => blank

section screen

variable (hwidth : 520 < g.width) (hheight : 399 < g.yLength)
  (hsize : g.yLength * g.bitDepth ≤ intMax) {fuel : ℕ} (hfuel : 520 < fuel)
include hwidth hheight hsize hfuel

theorem driver_draws : (driverShow g fuel).Draws g () (fun _ => True) driverPicture where
  drawn := by
    intro n _ img himg
    have hline : ∀ s c, Within 520 399 s.1 → Within 520 399 s.2 →
        ∃ img', Graphics.drawLine g fuel img s.1.1 s.1.2 s.2.1 s.2.2 c = some img' ∧
          Holds g (fun _ => 0) img' (painted (segmentPixels s) c) := fun s c h₁ h₂ =>
      himg.drawLine h₁ h₂ hwidth hheight hsize (by norm_num) (by norm_num)
        (by exact_mod_cast hfuel) c
    have hdraw : ∃ img', driverDraw g fuel n img = some img' ∧
        Holds g (fun _ => 0) img' (driverPicture n) := by
      rcases n with _ | _ | _ | _ | n
      · exact ⟨img, rfl, himg⟩
      · obtain ⟨img', hrun, hholds⟩ := hline ((0, 0), (120, 120)) (rgb 12 58 21)
          (by norm_num [Within]) (by norm_num [Within])
        exact ⟨img', by simp [driverDraw, hrun], hholds⟩
      · obtain ⟨img', hrun, hholds⟩ := hline ((120, 67), (321, 399)) (rgb 0 58 21)
          (by norm_num [Within]) (by norm_num [Within])
        exact ⟨img', by simp [driverDraw, hrun], hholds⟩
      · obtain ⟨img', hrun, hholds⟩ := hline ((31, 62), (520, 310)) (rgb 12 0 21)
          (by norm_num [Within]) (by norm_num [Within])
        exact ⟨img', by simp [driverDraw, hrun], hholds⟩
      · exact ⟨img, by simp [driverDraw], himg⟩
    obtain ⟨img', hrun, hholds⟩ := hdraw
    exact ⟨(), img', congrArg (Option.map _) hrun, rfl, hholds⟩
  reset := rfl

/-- **The line program**: it stops at a `q`, and after three `n`s. Until then it waits, and
shows the line that belongs to the number of `n`s: the first, the second, or before them
nothing. Nobody is asked for a key while the third is on the screen. All three fit the
screen, which has more than 520 columns and more than 399 rows; its size in bytes is an
`int`. -/
theorem driver_shows (keys : List UInt8) (cells : ℤ → Color) (flags : Flags) :
    (keyQ ∈ keys ∨ 3 ≤ keys.count keyN →
      (driverMain g fuel cells flags keys).HasStopped g cells flags) ∧
    (¬ (keyQ ∈ keys ∨ 3 ≤ keys.count keyN) →
      (driverMain g fuel cells flags keys).Waits g cells flags (driverPicture (keys.count keyN))) := by
  have hstopped : Stopped (driverShow g fuel).ends 0 keys ↔ keyQ ∈ keys ∨ 3 ≤ keys.count keyN := by
    refine or_congr_right ⟨?_, fun h => ⟨3, h, rfl⟩⟩
    rintro ⟨m, hm, hends⟩
    have hthree : 0 + m = 3 := beq_iff_eq.mp hends
    rwa [← hthree, zero_add]
  obtain ⟨d, hinit, hruns⟩ := initGraphics_runs hsize cells flags
  have hstart : (driverShow g fuel).Stands g () driverPicture cells flags
      ((driverStart g cells flags).elim .undefined ((driverShow g fuel).await g)) (some 0) := by
    rw [driverStart, hinit]
    exact Show.await_stands hsize (hruns.blit (holds_createBuffer g)) (holds_createBuffer g) rfl
  have hstands := (driver_draws hwidth hheight hsize hfuel).presses hsize hstart keys
    fun _ _ _ _ => trivial
  rw [← driverMain] at hstands
  have hpage := page_spec (show (driverShow g fuel).ends 0 = false from rfl) keys
  rw [hstopped, zero_add] at hpage
  refine ⟨fun h => ?_, fun h => ?_⟩
  · rw [hpage.1 h] at hstands
    exact hstands.hasStopped
  · rw [hpage.2 h] at hstands
    exact hstands.waits

end screen

theorem driver_shows_keys :
    (driverMain vga 521 (fun _ => 7) 0x803b [keyN, 120]).Waits vga (fun _ => 7) 0x803b
        (painted (linePixels 0 0 120 120) (rgb 12 58 21)) ∧
      (driverMain vga 521 (fun _ => 7) 0x803b [keyN, keyN, keyN]).HasStopped vga (fun _ => 7)
        0x803b :=
  ⟨(driver_shows (by decide) (by decide) (by decide) (by decide) _ _ _).2 (by decide),
    (driver_shows (by decide) (by decide) (by decide) (by decide) _ _ _).1 (by decide)⟩

end Csc452.Graphics
