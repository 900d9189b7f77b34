import Csc452.Containment

/-!
# Two requests at once

Nothing keeps two requests apart, so what one of them has read may be out of date
when it writes it back. When that never happens (`FreshRun`), two requests with
different targets that both succeed leave what they leave one after the other
(`serialises`): each of them has had the effects the machine says, in the view
both began with, and the effects of the two commute or come in one of two orders.

When it does happen, a directory is lost, or two files get one block
(`not_serialises`).
-/

namespace Csc452.Fuse

open ByteFile (Disk Seen machine)
open Runs (Always Guarded)

/-! ## The statement -/

/-- The directory of a file is there. -/
def Call.Housed (call : Call) (v : View) : Prop :=
  match call with
  | .mkdir _ => True
  | _ => call.comp.count = 3 → v.dir? call.comp.directory ≠ none

/-- What calls that run alone see to: files are made in directories that are there,
and writes start inside the blocks of their files. -/
structure Careful (m : ℕ) (d : Disk) (e : Uninit × Call) : Prop where
  /-- the directory -/
  parented : e.2.Parented (diskView m d)
  /-- the offset -/
  starts : e.2.StartsInside (diskView m d)

/-- Calls that run at once find the directory of the file they write as well. -/
structure Served (m : ℕ) (d : Disk) (e : Uninit × Call) : Prop where
  /-- the directory -/
  housed : e.2.Housed (diskView m d)
  /-- the offset -/
  starts : e.2.StartsInside (diskView m d)

/-- One call after the other succeeds, and leaves what is there. -/
structure After (m : ℕ) (e e' : Uninit × Call) (d d' : Disk) : Prop where
  /-- the first one succeeds -/
  first : 0 ≤ (e.2.run e.1 d).1
  /-- so does the second one -/
  second : 0 ≤ (e'.2.run e'.1 (e.2.run e.1 d).2).1
  /-- directories and files are the same -/
  view : diskView m d' = diskView m (e'.2.run e'.1 (e.2.run e.1 d).2).2

/-- The calls have run as if one after the other. -/
structure Serialises (m : ℕ) (e e' : Uninit × Call) (d d' : Disk) : Prop where
  /-- in one order or the other -/
  order : After m e e' d d' ∨ After m e' e d d'
  /-- every block that has been handed out belongs to one directory or file -/
  partition : (snapshot m d').owned.Perm (blocksUpTo (snapshot m d').used)

instance (call : Call) (v : View) : Decidable (call.Housed v) :=
  match call with
  | .mkdir _ => inferInstanceAs (Decidable True)
  | .mknod _ => inferInstanceAs (Decidable (_ → _))
  | .write _ _ _ => inferInstanceAs (Decidable (_ → _))

instance (m : ℕ) (d : Disk) (e : Uninit × Call) : Decidable (Careful m d e) :=
  decidable_of_iff (e.2.Parented (diskView m d) ∧ e.2.StartsInside (diskView m d))
    ⟨fun h => ⟨h.1, h.2⟩, fun h => ⟨h.1, h.2⟩⟩

instance (m : ℕ) (d : Disk) (e : Uninit × Call) : Decidable (Served m d e) :=
  decidable_of_iff (e.2.Housed (diskView m d) ∧ e.2.StartsInside (diskView m d))
    ⟨fun h => ⟨h.1, h.2⟩, fun h => ⟨h.1, h.2⟩⟩

/-! ## Effects of two requests -/

section log

variable {v : View} {es : List Effect} {n : List UInt8} {F : FileView} {T : Target} {t : Bool}

/-- The effects of one of two requests in a log. -/
def effectsOf (t : Bool) (log : List (Bool × Effect)) : List Effect :=
  (log.filter fun e => e.1 = t).map Prod.snd

/-- The effects replace a file. -/
def Sets (T : Target) (es : List Effect) : Prop :=
  ∀ e ∈ es, ∃ n F, e = .setFile n F ∧ T = .file n F.key

/-- Replacing a file commutes with effects that are not about it. -/
theorem Effect.setFile_applyAll (h : ∀ e ∈ es, e.target ≠ .file n F.key) :
    (setFile n F).apply (applyAll es v) = applyAll es ((setFile n F).apply v) := by
  induction es generalizing v with
  | nil => rfl
  | cons e es ih =>
    have hrest := ih (v := e.apply v) fun e' he' => h e' (List.mem_cons_of_mem _ he')
    refine hrest.trans ?_
    rw [setFile_comm (h e List.mem_cons_self)]
    rfl

/-- The effects of a request that replaces a file can come last. -/
theorem applyAll_sets {log : List (Bool × Effect)} (hsets : Sets T (effectsOf t log))
    (hother : ∀ e ∈ effectsOf (!t) log, e.target ≠ T) :
    Effect.applyAll (log.map Prod.snd) v =
      Effect.applyAll (effectsOf t log) (Effect.applyAll (effectsOf (!t) log) v) := by
  induction log generalizing v with
  | nil => rfl
  | cons x log ih =>
    obtain ⟨t', e⟩ := x
    rcases eq_or_ne t' t with rfl | hne
    · have hmine : effectsOf t' ((t', e) :: log) = e :: effectsOf t' log := by simp [effectsOf]
      have hnot : effectsOf (!t') ((t', e) :: log) = effectsOf (!t') log := by simp [effectsOf]
      rw [hmine] at hsets
      rw [hnot] at hother
      rw [hmine, hnot]
      obtain ⟨n, F, rfl, rfl⟩ := hsets e List.mem_cons_self
      refine (ih (fun e' he' => hsets e' (List.mem_cons_of_mem _ he')) hother).trans ?_
      rw [← Effect.setFile_applyAll hother]
      rfl
    · obtain rfl : t' = !t := Bool.eq_not_iff.mpr hne
      have hmine : effectsOf t ((!t, e) :: log) = effectsOf t log := by simp [effectsOf]
      have hnot : effectsOf (!t) ((!t, e) :: log) = e :: effectsOf (!t) log := by simp [effectsOf]
      rw [hmine] at hsets
      rw [hnot] at hother
      rw [hmine, hnot]
      exact ih hsets fun e' he' => hother e' (List.mem_cons_of_mem _ he')

/-- Two requests with one effect each have them in some order. -/
theorem applyAll_single {log : List (Bool × Effect)} (h : (effectsOf true log).length ≤ 1)
    (h' : (effectsOf false log).length ≤ 1) :
    Effect.applyAll (log.map Prod.snd) v =
        Effect.applyAll (effectsOf false log) (Effect.applyAll (effectsOf true log) v) ∨
      Effect.applyAll (log.map Prod.snd) v =
        Effect.applyAll (effectsOf true log) (Effect.applyAll (effectsOf false log) v) := by
  rcases log with _ | ⟨⟨t₁, e₁⟩, _ | ⟨⟨t₂, e₂⟩, _ | ⟨⟨t₃, e₃⟩, log⟩⟩⟩
  · exact .inl rfl
  · cases t₁ with
    | true => exact .inl rfl
    | false => exact .inl rfl
  · cases t₁ with
    | true => exact .inl (by cases t₂ <;> rfl)
    | false => exact .inr (by cases t₂ <;> rfl)
  · -- three effects are too many
    cases t₁ <;> cases t₂ <;> cases t₃ <;> simp [effectsOf] at h h'

end log

/-! ## The machine -/

section machine

variable {m : ℕ} {v : View} {call : Call} {es : List Effect} {e : Effect} {n : List UInt8}

/-- A directory that is there stays. -/
theorem Effect.dir?_apply_ne_none (h : v.dir? n ≠ none) : (e.apply v).dir? n ≠ none := by
  cases e with
  | addDir n' =>
    obtain ⟨D, hD⟩ := Option.ne_none_iff_exists'.mp h
    rw [View.dir?] at hD
    simp [apply, View.dir?, hD]
  | addFile n' F => simpa [apply, View.dir?_modifyDir] using h
  | setFile n' F => simpa [apply, View.dir?_modifyDir] using h

theorem Call.Housed.apply (h : call.Housed v) : call.Housed (e.apply v) := by
  cases call with
  | mkdir path => trivial
  | mknod path => exact fun hcount => Effect.dir?_apply_ne_none (h hcount)
  | write path buf offset => exact fun hcount => Effect.dir?_apply_ne_none (h hcount)

/-- What a call does is not changed by effects on other targets. -/
theorem Call.respond_apply (hhoused : call.Housed v) (h : e.target ≠ call.target) :
    call.respond (e.apply v) = call.respond v := by
  cases call with
  | mkdir path =>
    have hdir : (e.apply v).dir? (Call.mkdir path).comp.directory = none ↔
        v.dir? (Call.mkdir path).comp.directory = none := Effect.dir?_apply h
    simp only [respond, hdir]
  | mknod path =>
    have hfile : (e.apply v).file? (Call.mknod path).comp.directory (Call.mknod path).comp.key =
        v.file? (Call.mknod path).comp.directory (Call.mknod path).comp.key := Effect.file?_apply h
    have hdir : (Call.mknod path).comp.count = 3 → ((e.apply v).dir?
        (Call.mknod path).comp.directory ≠ none ↔ v.dir? (Call.mknod path).comp.directory ≠ none) :=
      fun hcount => ⟨fun _ => hhoused hcount, fun hv => Effect.dir?_apply_ne_none hv⟩
    simp only [respond, hfile]
    refine if_congr (and_congr_right fun hcount => ?_) rfl rfl
    rw [hdir hcount]
  | write path buf offset =>
    have hfile : (e.apply v).file? (Call.write path buf offset).comp.directory
        (Call.write path buf offset).comp.key = v.file? (Call.write path buf offset).comp.directory
        (Call.write path buf offset).comp.key := Effect.file?_apply h
    simp only [respond, hfile]

theorem Call.respond_applyAll (hhoused : call.Housed v) (h : ∀ e ∈ es, e.target ≠ call.target) :
    call.respond (Effect.applyAll es v) = call.respond v := by
  induction es generalizing v with
  | nil => rfl
  | cons e es ih =>
    have hrest := ih (hhoused.apply (e := e)) fun e' he' => h e' (List.mem_cons_of_mem _ he')
    exact hrest.trans (Call.respond_apply hhoused (h e List.mem_cons_self))

theorem Call.Housed.applyAll (h : call.Housed v) : call.Housed (Effect.applyAll es v) := by
  induction es generalizing v with
  | nil => exact h
  | cons e es ih => exact ih h.apply

theorem Call.StartsInside.applyAll (h : call.StartsInside v)
    (hes : ∀ e ∈ es, e.target ≠ call.target) : call.StartsInside (Effect.applyAll es v) := by
  cases call with
  | mkdir path => trivial
  | mknod path => trivial
  | write path buf offset =>
    intro F hF
    rw [Effect.file?_applyAll hes] at hF
    exact h F hF

/-- Names stay as they are. -/
theorem View.map_dname_modifyDir {f : List FileView → List FileView} :
    (View.modifyDir n f v).map DirView.dname = v.map DirView.dname := by
  rw [View.modifyDir, List.map_map]
  refine List.map_congr_left fun D _ => ?_
  simp only [Function.comp_apply]
  split <;> rfl

theorem View.map_key_replace {F : FileView} {files : List FileView} :
    (View.replace F files).map FileView.key = files.map FileView.key := by
  rw [View.replace, List.map_map]
  refine List.map_congr_left fun G _ => ?_
  simp only [Function.comp_apply]
  split
  · next hG => exact hG.symm
  · rfl

/-- Names stay known once, and contents in blocks. -/
theorem View.Proper.respond (h : v.Proper) (hcall : call.respond v = some es) :
    (Effect.applyAll es v).Proper := by
  cases call with
  | mkdir path =>
    obtain ⟨⟨-, -, hno⟩, hes⟩ := Option.ite_none_right_eq_some.mp hcall
    obtain rfl := Option.some.inj hes
    rw [Effect.applyAll_singleton]
    refine ⟨?_, fun D hD => ?_, View.All.apply h.data fun F hF => by cases hF⟩
    · rw [Effect.apply, List.map_append, List.map_singleton, List.nodup_append]
      refine ⟨h.dirs_nodup, List.nodup_singleton _, fun a ha b hb => ?_⟩
      obtain ⟨D, hD, rfl⟩ := List.mem_map.mp ha
      rw [List.mem_singleton.mp hb]
      exact View.dir?_eq_none.mp hno D hD
    · rcases List.mem_append.mp hD with hD | hD
      · exact h.files_nodup D hD
      · rw [List.mem_singleton.mp hD]
        exact List.nodup_nil
  | mknod path =>
    obtain ⟨⟨-, -, -, hdir, hno⟩, hes⟩ := Option.ite_none_right_eq_some.mp hcall
    obtain rfl := Option.some.inj hes
    rw [Effect.applyAll_singleton]
    refine ⟨?_, fun D' hD' => ?_, View.All.apply h.data fun F hF => ?_⟩
    · rw [Effect.apply, View.map_dname_modifyDir]
      exact h.dirs_nodup
    · obtain ⟨D, hD, rfl⟩ := List.mem_map.mp hD'
      split
      · next hname =>
        rw [List.map_append, List.map_singleton, List.nodup_append]
        refine ⟨h.files_nodup D hD, List.nodup_singleton _, fun a ha b hb => ?_⟩
        obtain ⟨G, hG, rfl⟩ := List.mem_map.mp ha
        rw [List.mem_singleton.mp hb]
        -- the directory is the one in which the file has been looked for
        obtain ⟨D₀, hD₀⟩ := Option.ne_none_iff_exists'.mp hdir
        obtain ⟨hmem₀, hname₀⟩ := View.dir?_eq_some hD₀
        obtain rfl := List.inj_on_of_nodup_map h.dirs_nodup hmem₀ hD (hname₀.trans hname.symm)
        rw [View.file?, hD₀, Option.bind_some, DirView.file?, List.find?_eq_none] at hno
        have hne : G.key ≠ (Call.mknod path).comp.key := by simpa using hno G hG
        exact hne
      · exact h.files_nodup D hD
    · rw [← Option.mem_some.mp hF, newFile, List.length_replicate]
  | write path buf offset =>
    obtain ⟨-, F, hF, ⟨-, rfl⟩ | ⟨-, -, rfl⟩⟩ := Call.respond_write hcall
    · exact h
    rw [Effect.applyAll_singleton]
    refine ⟨?_, fun D' hD' => ?_, View.All.apply h.data fun G hG => ?_⟩
    · rw [Effect.apply, View.map_dname_modifyDir]
      exact h.dirs_nodup
    · obtain ⟨D, hD, rfl⟩ := List.mem_map.mp hD'
      split
      · rw [View.map_key_replace]
        exact h.files_nodup D hD
      · exact h.files_nodup D hD
    · rw [← Option.mem_some.mp hG, FileView.written]
      obtain ⟨D, hD, hmem, -⟩ := View.file?_eq_some hF
      exact dvd_length_splice _ _ (h.data D (View.dir?_eq_some hD).1 F hmem)

/-- No block is given back. -/
theorem View.Proper.blocks_le (h : v.Proper) (hcall : call.respond v = some es) :
    v.blocks ≤ (Effect.applyAll es v).blocks := by
  cases call with
  | mkdir path =>
    obtain ⟨-, hes⟩ := Option.ite_none_right_eq_some.mp hcall
    obtain rfl := Option.some.inj hes
    rw [Effect.applyAll_singleton, View.blocks_addDir]
    exact Nat.le_succ _
  | mknod path =>
    obtain ⟨⟨-, -, -, hdir, -⟩, hes⟩ := Option.ite_none_right_eq_some.mp hcall
    obtain rfl := Option.some.inj hes
    obtain ⟨D, hD⟩ := Option.ne_none_iff_exists'.mp hdir
    rw [Effect.applyAll_singleton, View.blocks_addFile h hD]
    exact Nat.le_add_right _ _
  | write path buf offset =>
    obtain ⟨-, F, hF, ⟨-, rfl⟩ | ⟨-, -, rfl⟩⟩ := Call.respond_write hcall
    · exact le_refl _
    obtain ⟨-, -, -, hkey⟩ := View.file?_eq_some hF
    rw [← hkey] at hF
    have hcount := View.blocks_setFile (W := F.written offset buf) h hF FileView.written_key
    have hle : F.data.length / dataSize ≤ (F.written offset buf).data.length / dataSize := by
      rw [FileView.written]
      exact Nat.div_le_div_right (length_splice_ge _ _ _)
    rw [Effect.applyAll_singleton]
    omega

/-- Tables only grow. -/
theorem Effect.apply_grows : v.length ≤ (e.apply v).length ∧
    ∀ D ∈ v, ∃ D' ∈ e.apply v, D.files.length ≤ D'.files.length := by
  have hmodify : ∀ n (f : List FileView → List FileView), (∀ files, files.length ≤ (f files).length) →
      ∀ D ∈ v, ∃ D' ∈ View.modifyDir n f v, D.files.length ≤ D'.files.length := by
    intro n f hf D hD
    refine ⟨_, List.mem_map_of_mem hD, ?_⟩
    split
    · exact hf D.files
    · exact le_refl _
  cases e with
  | addDir n =>
    refine ⟨by simp [apply], fun D hD => ⟨D, List.mem_append_left _ hD, le_refl _⟩⟩
  | addFile n F =>
    refine ⟨by simp [apply, View.modifyDir], hmodify n (· ++ [F]) fun files => by simp⟩
  | setFile n F =>
    refine ⟨by simp [apply, View.modifyDir], hmodify n (View.replace F) fun files => ?_⟩
    rw [View.replace, List.length_map]

/-- Where there is room for the effects of a call, there was room without them. -/
theorem Room.before (h : v.Proper) (hcall : call.respond v = some es)
    (hroom : Room m (Effect.applyAll es v)) : Room m v := by
  have hgrows : ∀ (es : List Effect) (v : View), v.length ≤ (Effect.applyAll es v).length ∧
      ∀ D ∈ v, ∃ D' ∈ Effect.applyAll es v, D.files.length ≤ D'.files.length := by
    intro es
    induction es with
    | nil => exact fun v => ⟨le_refl _, fun D hD => ⟨D, hD, le_refl _⟩⟩
    | cons e es ih =>
      intro v
      obtain ⟨hlen, hfiles⟩ := ih (e.apply v)
      obtain ⟨hlen', hfiles'⟩ := Effect.apply_grows (e := e) (v := v)
      refine ⟨hlen'.trans hlen, fun D hD => ?_⟩
      obtain ⟨D', hD', hle'⟩ := hfiles' D hD
      obtain ⟨D'', hD'', hle''⟩ := hfiles D' hD'
      exact ⟨D'', hD'', hle'.trans hle''⟩
  obtain ⟨hlen, hfiles⟩ := hgrows es v
  refine ⟨hlen.trans hroom.dirs, fun D hD => ?_, ?_⟩
  · obtain ⟨D', hD', hle⟩ := hfiles D hD
    exact hle.trans (hroom.files D' hD')
  · have hblocks := h.blocks_le hcall
    have hle := hroom.blocks
    omega

end machine

/-! ## One of two requests -/

/-- A request next to another. -/
def beside (m : ℕ) (v : View) (t : Bool) (T T' : Target) : Context where
  m := m
  v₀ := v
  t := t
  mine := T
  other := T'
  frame := .any m v t

/-- The effects a request has had amount to those the machine says. -/
structure Amounts (T : Target) (es es' : List Effect) : Prop where
  /-- they lead to the same view -/
  same : ∀ v, Effect.applyAll es v = Effect.applyAll es' v
  /-- it is one effect, or a file is replaced -/
  kind : es.length ≤ 1 ∨ Sets T es
  /-- they are about the target -/
  target : ∀ e ∈ es, e.target = T

/-- The request has had the effects of the call. -/
structure Took (call : Call) (v : View) (t : Bool) (w : State) : Prop where
  /-- nothing is pending -/
  pending : w.1.pending t = []
  /-- the effects -/
  effects : ∃ es, call.respond v = some es ∧ Amounts call.target (w.1.effects t) es

section beside

variable {m : ℕ} {d : Disk} {fs : Fs} {call : Call} {t : Bool} {T' : Target} {u : Uninit}
variable {path : CString} {buf : List UInt8} {offset : ℕ} {es : List Effect} {w : State}

/-- A request with at most one effect. -/
theorem Took.ended {v : View} (hcall : call.respond v = some es) (hlen : es.length ≤ 1)
    (hends : Ended t es w) : Took call v t w := by
  refine ⟨hends.pending, es, hcall, ?_⟩
  rw [hends.effects]
  exact ⟨fun _ => rfl, .inl hlen, Call.respond_target hcall⟩

theorem mkdir_beside (h : Layout m d fs []) (hother : T' ≠ (Call.mkdir path).target) :
    (beside m (fs.view d.bytes) t (Call.mkdir path).target T').Runs
      (fun ret _ w => 0 ≤ ret → Took (.mkdir path) (fs.view d.bytes) t w)
      (csc452Mkdir u path) (fun _ => none) (start fs d) := by
  refine (csc452Mkdir_runs (beside m (fs.view d.bytes) t (Call.mkdir path).target T')
    (fun _ => none) u path (start_world h) (start_ended t) rfl hother (fun _ _ => trivial)).mono ?_
  rintro ret k w (⟨-, hpath, hno, hends⟩ | ⟨hret, -, -⟩) hsuccess
  · exact .ended (if_pos ⟨hpath.1, hpath.2, dir?_view_eq_none.mpr hno⟩) (le_refl 1) hends
  · exact absurd hsuccess (not_le.mpr hret)

theorem mknod_beside (h : Layout m d fs []) (hvisible : (fs.view d.bytes).Visible)
    (hhoused : (Call.mknod path).Housed (fs.view d.bytes))
    (hother : T' ≠ (Call.mknod path).target) :
    (beside m (fs.view d.bytes) t (Call.mknod path).target T').Runs
      (fun ret _ w => 0 ≤ ret → Took (.mknod path) (fs.view d.bytes) t w)
      (csc452Mknod u path) (fun _ => none) (start fs d) := by
  rcases eq_or_ne (sscanf path.bytes).count 3 with hcount | hcount
  swap
  · rw [csc452Mknod, if_pos hcount]
    exact .pure fun _ _ hsuccess => absurd hsuccess (by decide)
  rcases hdir : (fs.view d.bytes).dir? (sscanf path.bytes).directory with _ | Dv
  · exact absurd hdir (hhoused hcount)
  obtain ⟨i, D, hi, hname, rfl⟩ := dir?_view hdir
  have hD := List.mem_of_getElem? hi
  have hvisible' : ∀ F ∈ D.files, toInt F.fsize ≠ -1 := fun F hF =>
    hvisible (D.view d.bytes) (List.mem_map_of_mem hD) (F.view d.bytes) (List.mem_map_of_mem hF)
  refine (csc452Mknod_runs (beside m (fs.view d.bytes) t (Call.mknod path).target T')
    (fun _ => none) u path (start_world h) (start_ended t) hi hname hvisible' rfl hother
    (fun _ _ => trivial)).mono ?_
  rintro ret k w (⟨-, hpath, hno, hends⟩ | ⟨hret, -, -⟩) hsuccess
  · refine .ended (if_pos ⟨hpath.1, hpath.2.1, hpath.2.2, hhoused hcount, ?_⟩) (le_refl 1) hends
    exact (file?_view_eq_none h hD hname).mpr hno
  · exact absurd hsuccess (not_le.mpr hret)

theorem write_beside (h : Layout m d fs [])
    (hhoused : (Call.write path buf offset).Housed (fs.view d.bytes))
    (hstarts : (Call.write path buf offset).StartsInside (fs.view d.bytes))
    (hother : T' ≠ (Call.write path buf offset).target) :
    (beside m (fs.view d.bytes) t (Call.write path buf offset).target T').Runs
      (fun ret _ w => 0 ≤ ret → Took (.write path buf offset) (fs.view d.bytes) t w)
      (csc452Write u path buf offset) (fun _ => none) (start fs d) := by
  rcases eq_or_ne (sscanf path.bytes).count 3 with hcount | hcount
  swap
  · refine (csc452Write_runs_path (start_world h) (start_ended t) hcount).mono ?_
    exact fun ret k w hends hsuccess => absurd hsuccess (not_le.mpr hends.1)
  rcases hdir : (fs.view d.bytes).dir? (sscanf path.bytes).directory with _ | Dv
  · exact absurd hdir (hhoused hcount)
  obtain ⟨i, D, hi, hname, rfl⟩ := dir?_view hdir
  have hD := List.mem_of_getElem? hi
  rcases hfile : (fs.view d.bytes).file? (sscanf path.bytes).directory (sscanf path.bytes).key with
    _ | Fv
  · refine (csc452Write_runs_fresh (start_world h) (start_ended t) hcount hi hname rfl
      ((file?_view_eq_none h hD hname).mp hfile)).mono ?_
    exact fun ret k w hends hsuccess => absurd hsuccess (not_le.mpr hends.1)
  have hoffset := fun hle => (hstarts Fv hfile hle).1
  obtain ⟨x, F, hx, hxname, hkey, rfl⟩ := file?_view hfile
  rw [File.view, length_dataOf] at hoffset
  have hmine : (Call.write path buf offset).target = .file x.dname F.key := by
    rw [hxname, hkey]
    rfl
  refine (csc452Write_runs (beside m (fs.view d.bytes) t (Call.write path buf offset).target T')
    (fun _ => none) path u buf (start_world h) (start_ended t) hcount hx hxname hkey hoffset hmine
    hother (fun _ _ _ => trivial)).mono ?_
  rintro ret k w (⟨-, rfl, hvisible, hends⟩ | ⟨hret, -, -⟩ |
    ⟨done, hret, hbuf, hvisible, hinside, hends⟩) hsuccess
  · have hrespond : (Call.write path [] offset).respond (fs.view d.bytes) = some [] := by
      simp only [Call.respond, Call.comp, hfile, if_pos hcount]
      exact (if_neg hvisible).trans (if_pos trivial)
    exact .ended hrespond (Nat.zero_le 1) hends
  · exact absurd hsuccess (not_le.mpr hret)
  have hrespond := Call.respond_write_eq hcount hfile hvisible hbuf hinside
  have hwritten : (F.view d.bytes).written offset buf =
      File.withData { F with fsize := newSize F.fsize offset buf.length }
        (splice (dataOf d.bytes F.blocks) offset buf) := by
    simp only [FileView.written, File.withData, File.view]
  rw [← hxname, hwritten] at hrespond
  cases done with
  | false =>
    rw [hret, if_neg Bool.false_ne_true] at hsuccess
    exact absurd hsuccess (by decide)
  | true =>
    obtain ⟨es, hes, heffects⟩ := hends.effects
    have heffects : w.1.effects t = es ++ [.setFile x.dname (File.withData
        { F with fsize := newSize F.fsize offset buf.length }
        (splice (dataOf d.bytes F.blocks) offset buf))] := heffects
    have hsets : Sets (.file x.dname F.key) (w.1.effects t) := by
      rw [heffects]
      intro e he
      obtain ⟨data, rfl⟩ := hes.append e he
      exact ⟨_, _, rfl, rfl⟩
    rw [← hmine] at hsets
    refine ⟨hends.pending, _, hrespond, fun v => ?_, .inr hsets, fun e he => ?_⟩
    · rw [heffects, Effect.applyAll_append]
      exact hes.apply rfl
    · obtain ⟨n, G, rfl, hT⟩ := hsets e he
      exact hT.symm

/-- **A call next to another** that succeeds has had the effects the machine says. -/
theorem Call.runs_beside (h : Layout m d fs []) (hvisible : (fs.view d.bytes).Visible)
    (hhoused : call.Housed (fs.view d.bytes)) (hstarts : call.StartsInside (fs.view d.bytes))
    (hother : T' ≠ call.target) :
    (beside m (fs.view d.bytes) t call.target T').Runs
      (fun ret _ w => 0 ≤ ret → Took call (fs.view d.bytes) t w)
      (call.request u) (fun _ => none) (start fs d) := by
  cases call with
  | mkdir path => exact mkdir_beside h hother
  | mknod path => exact mknod_beside h hvisible hhoused hother
  | write path buf offset => exact write_beside h hhoused hstarts hother

end beside

/-! ## One after the other -/

section sequential

variable {m : ℕ} {d d' : Disk} {fs : Fs} {call call' : Call} {u u' : Uninit} {es es' : List Effect}
variable {v : View} {e e' : Uninit × Call} {calls : List (Uninit × Call)} {turns : List Bool}
variable {ret ret' : ℤ}

theorem Call.Housed.legal (h : call.Housed v) (hstarts : call.StartsInside v) : call.Legal v := by
  refine hstarts.legal ?_
  cases call with
  | mkdir path => trivial
  | mknod path => exact h
  | write path buf offset => trivial

/-- A call with room for its effects succeeds and has them. -/
theorem Call.run_done (h : Layout m d fs []) (hvisible : (fs.view d.bytes).Visible)
    (hhoused : call.Housed (fs.view d.bytes)) (hstarts : call.StartsInside (fs.view d.bytes))
    (hcall : call.respond (fs.view d.bytes) = some es)
    (hroom : Room m (Effect.applyAll es (fs.view d.bytes))) :
    0 ≤ (call.run u d).1 ∧ ∃ fs', Layout m (call.run u d).2 fs' [] ∧
      fs'.view (call.run u d).2.bytes = Effect.applyAll es (fs.view d.bytes) ∧
      (fs'.view (call.run u d).2.bytes).Visible := by
  obtain ⟨fs', hl, houtcome⟩ := Call.run_spec (u := u) h (hhoused.legal hstarts) hvisible
  have hvisible' := houtcome.visible hvisible h.room hstarts
  rcases houtcome with ⟨hnone, -, -⟩ | ⟨es₁, hes₁, -, hret, hview⟩ | ⟨es₁, hes₁, hfull, -, -, -⟩
  · rw [hcall] at hnone
    cases hnone
  · obtain rfl := Option.some.inj (hcall.symm.trans hes₁)
    exact ⟨hret, fs', hl, hview, hvisible'⟩
  · obtain rfl := Option.some.inj (hcall.symm.trans hes₁)
    exact absurd hroom hfull

/-- Calls with different targets that both have room succeed one after the other. -/
theorem after_of_respond (h : Layout m d fs []) (hvisible : (fs.view d.bytes).Visible)
    (hhoused : e.2.Housed (fs.view d.bytes)) (hstarts : e.2.StartsInside (fs.view d.bytes))
    (hhoused' : e'.2.Housed (fs.view d.bytes)) (hstarts' : e'.2.StartsInside (fs.view d.bytes))
    (hne : e.2.target ≠ e'.2.target) (hcall : e.2.respond (fs.view d.bytes) = some es)
    (hcall' : e'.2.respond (fs.view d.bytes) = some es')
    (hroom : Room m (diskView m d'))
    (hview : diskView m d' = Effect.applyAll es' (Effect.applyAll es (fs.view d.bytes))) :
    After m e e' d d' := by
  have hapart : ∀ x ∈ es, x.target ≠ e'.2.target := by
    intro x hx
    rw [Call.respond_target hcall x hx]
    exact hne
  have hcall₁ : e'.2.respond (Effect.applyAll es (fs.view d.bytes)) = some es' :=
    (Call.respond_applyAll hhoused' hapart).trans hcall'
  rw [hview] at hroom
  have hroom₁ := Room.before (h.proper.respond hcall) hcall₁ hroom
  obtain ⟨hret, fs₁, hl₁, hview₁, hvisible₁⟩ :=
    Call.run_done (u := e.1) h hvisible hhoused hstarts hcall hroom₁
  rw [← hview₁] at hcall₁ hroom hview
  obtain ⟨hret', fs₂, hl₂, hview₂, -⟩ :=
    Call.run_done (u := e'.1) hl₁ hvisible₁ (hview₁ ▸ hhoused'.applyAll)
      (hview₁ ▸ hstarts'.applyAll hapart) hcall₁ hroom
  refine ⟨hret, hret', ?_⟩
  rw [hl₂.diskView_eq, hview₂, hview]

/-- What calls that run alone leave. -/
theorem layout_of_careful (hm : 2 ≤ m) (hlt : blockSize * m < 2 ^ 31)
    (h : Guarded callStep (Careful m) (zeroDisk m) calls)
    (hrun : Runs.run callStep (zeroDisk m) calls = some d) :
    ∃ fs, Layout m d fs [] ∧ (fs.view d.bytes).Visible := by
  refine (h.always (P := fun d => ∃ fs, Layout m d fs [] ∧ (fs.view d.bytes).Visible)
    ⟨_, Layout.zero hm hlt, fun _ hD => absurd hD List.not_mem_nil⟩ ?_).last hrun
  rintro d₁ ⟨u, call⟩ d₂ ⟨fs, hl, hvisible⟩ hcareful hstep
  obtain rfl := Option.some.inj hstep
  have hview := hl.diskView_eq
  have hstarts : call.StartsInside (fs.view d₁.bytes) := hview ▸ hcareful.starts
  have hlegal := hstarts.legal (hview ▸ hcareful.parented)
  obtain ⟨fs', hl', houtcome⟩ := Call.run_spec (u := u) hl hlegal hvisible
  exact ⟨fs', hl', houtcome.visible hvisible hl.room hstarts⟩

/-- The effects in the order of the log are those of one call after those of the other. -/
theorem Amounts.order {log : List (Bool × Effect)} {T T' : Target}
    (h : Amounts T (effectsOf true log) es) (h' : Amounts T' (effectsOf false log) es')
    (hne : T ≠ T') :
    Effect.applyAll (log.map Prod.snd) v = Effect.applyAll es' (Effect.applyAll es v) ∨
      Effect.applyAll (log.map Prod.snd) v = Effect.applyAll es (Effect.applyAll es' v) := by
  simp only [← h.same, ← h'.same]
  rcases h.kind with hone | hsets
  · rcases h'.kind with hone' | hsets'
    · exact applyAll_single hone hone'
    · exact .inl (applyAll_sets hsets' fun x hx heq => hne ((h.target x hx).symm.trans heq))
  · exact .inr (applyAll_sets hsets fun x hx heq => hne (heq.symm.trans (h'.target x hx)))

/-- **Two calls at once.** The disk is one that calls which run alone have led to from a disk
of zeros; they see to what the code leaves to its callers (`Careful`). Two calls with
different targets then take turns, one access to the disk at a time; the directories they
name are there, and a write starts inside the blocks of its file (`Served`). If neither writes
over bytes that the other has changed since it last accessed them (`FreshRun`) and both report
success, they have run as if one after the other, in one order or the other, but for the
choice of blocks. None of the conditions can be left out (`not_serialises`). -/
theorem serialises (hm : 2 ≤ m) (hlt : blockSize * m < 2 ^ 31)
    (h : Guarded callStep (Careful m) (zeroDisk m) calls)
    (hrun : Runs.run callStep (zeroDisk m) calls = some d) (hserved : Served m d e)
    (hserved' : Served m d e') (hne : e.2.target ≠ e'.2.target)
    (hturns : machine.interleave turns (e.2.request e.1) (e'.2.request e'.1) d =
      some (ret, ret', d'))
    (hfresh : machine.FreshRun turns (e.2.request e.1) (fun _ => none)
      (e'.2.request e'.1) (fun _ => none) d)
    (hret : 0 ≤ ret) (hret' : 0 ≤ ret') : Serialises m e e' d d' := by
  obtain ⟨fs, hl, hvisible⟩ := layout_of_careful hm hlt h hrun
  obtain ⟨hhoused, hstarts⟩ := hserved
  obtain ⟨hhoused', hstarts'⟩ := hserved'
  rw [hl.diskView_eq] at hhoused hstarts hhoused' hstarts'
  have hruns := (e.2.runs_beside (u := e.1) (t := true) hl hvisible hhoused hstarts hne.symm).safe
  have hruns' :=
    (e'.2.runs_beside (u := e'.1) (t := false) hl hvisible hhoused' hstarts' hne).safe
  have hsound := hruns.keep (J := World m (fs.view d.bytes)) (fun _ _ hR => hR.world)
    (fun _ _ hG => hG.rely.world) (start_world hl)
  obtain ⟨g, k, k', ⟨htook, hworld⟩, htook'⟩ := Interference.Safe.interleave Rely.refl Rely.refl
    (fun _ _ _ => Rely.trans) (fun _ _ _ => Rely.trans) (fun _ _ hG => hG.rely)
    (fun _ _ hG => hG.rely) hsound hruns' hturns hfresh
  obtain ⟨hpending, es, hcall, hamounts⟩ := htook hret
  obtain ⟨hpending', es', hcall', hamounts'⟩ := htook' hret'
  have hlayout : Layout m d' g.fs [] := by
    have hlayout := hworld.layout
    rwa [hpending, hpending'] at hlayout
  have hroom : Room m (diskView m d') := by
    rw [hlayout.diskView_eq]
    exact hlayout.room
  have hview : diskView m d' = Effect.applyAll (g.log.map Prod.snd) (fs.view d.bytes) := by
    rw [hlayout.diskView_eq]
    exact hworld.view
  refine ⟨?_, ?_⟩
  · refine (hamounts.order (v := fs.view d.bytes) hamounts' hne).imp (fun horder => ?_) fun horder => ?_
    · exact after_of_respond hl hvisible hhoused hstarts hhoused' hstarts' hne hcall hcall' hroom
        (hview.trans horder)
    · exact after_of_respond hl hvisible hhoused' hstarts' hhoused hstarts hne.symm hcall' hcall
        hroom (hview.trans horder)
  · rw [hlayout.snapshot_eq]
    simpa using hlayout.partition

/-- A directory and a file in another directory. The root block is read before it
is rewritten, and not written back. -/
theorem serialises_mkdir_mknod :
    let u : Uninit := ⟨fun _ => 0, fun _ => 0⟩
    let d : CString := ⟨[47, 100], by decide⟩
    let n : CString := ⟨[47, 110], by decide⟩
    let f : CString := ⟨[47, 100, 47, 97, 46, 98], by decide⟩
    let one (k : ℕ) := List.replicate k true
    let other (k : ℕ) := List.replicate k false
    let turns := one 2 ++ other 6 ++ one 5 ++ other 6 ++ one 1 ++ other 1
    let disk := ((Call.mkdir d).run u (zeroDisk 5)).2
    ∃ r ∈ machine.interleave turns ((Call.mkdir n).request u) ((Call.mknod f).request u) disk,
      Serialises 5 (u, .mkdir n) (u, .mknod f) disk r.2.2 := by
  intro u d n f one other turns disk
  have hfacts : ∃ r ∈ machine.interleave turns ((Call.mkdir n).request u)
      ((Call.mknod f).request u) disk, 0 ≤ r.1 ∧ 0 ≤ r.2.1 := by
    decide +kernel
  have hcareful : Guarded callStep (Careful 5) (zeroDisk 5) [(u, .mkdir d)] := by
    decide +kernel
  have hserved : Served 5 disk (u, .mkdir n) := by
    decide +kernel
  have hserved' : Served 5 disk (u, .mknod f) := by
    decide +kernel
  have hfresh : machine.FreshRun turns ((Call.mkdir n).request u) (fun _ => none)
      ((Call.mknod f).request u) (fun _ => none) disk := by
    have hclean : ByteFile.clean turns ((Call.mkdir n).request u) [] ((Call.mknod f).request u) []
        disk := by
      decide +kernel
    exact ByteFile.freshRun_of_clean hclean (ByteFile.stale_nil.mpr (.init disk))
      (ByteFile.stale_nil.mpr (.init disk))
  have hrun : Runs.run callStep (zeroDisk 5) [(u, .mkdir d)] = some disk := rfl
  obtain ⟨⟨ret, ret', d'⟩, hturns, hret, hret'⟩ := hfacts
  exact ⟨_, hturns, serialises (by decide) (by decide) hcareful hrun hserved hserved' (by decide)
    hturns hfresh hret hret'⟩

end sequential

/-! ## Clashes -/

/-- After calls that ran alone, two with different targets both succeed when they
take turns in some way, and have not run as if one after the other. -/
def Clash (m : ℕ) (calls : List (Uninit × Call)) (e e' : Uninit × Call) (turns : List Bool) :
    Prop :=
  e.2.target ≠ e'.2.target ∧ ∃ d ∈ Runs.run callStep (zeroDisk m) calls,
    ∃ r ∈ machine.interleave turns (e.2.request e.1) (e'.2.request e'.1) d,
      0 ≤ r.1 ∧ 0 ≤ r.2.1 ∧ ¬ (After m e e' d r.2.2 ∨ After m e' e d r.2.2)

/-- In the same way, two calls succeed and have been handed one block. -/
def Shares (m : ℕ) (calls : List (Uninit × Call)) (e e' : Uninit × Call) (turns : List Bool) :
    Prop :=
  e.2.target ≠ e'.2.target ∧ ∃ d ∈ Runs.run callStep (zeroDisk m) calls,
    ∃ r ∈ machine.interleave turns (e.2.request e.1) (e'.2.request e'.1) d,
      0 ≤ r.1 ∧ 0 ≤ r.2.1 ∧ ¬ (snapshot m r.2.2).owned.Nodup

/-- It is enough that something to be seen of the view is different from what both
orders leave when they succeed. -/
theorem Clash.of_ne {β : Type} {m : ℕ} {calls : List (Uninit × Call)} {e e' : Uninit × Call}
    {turns : List Bool} (f : View → β) (hne : e.2.target ≠ e'.2.target)
    (h : ∃ d ∈ Runs.run callStep (zeroDisk m) calls,
      ∃ r ∈ machine.interleave turns (e.2.request e.1) (e'.2.request e'.1) d,
        0 ≤ r.1 ∧ 0 ≤ r.2.1 ∧
        (0 ≤ (e'.2.run e'.1 (e.2.run e.1 d).2).1 →
          f (diskView m r.2.2) ≠ f (diskView m (e'.2.run e'.1 (e.2.run e.1 d).2).2)) ∧
        (0 ≤ (e.2.run e.1 (e'.2.run e'.1 d).2).1 →
          f (diskView m r.2.2) ≠ f (diskView m (e.2.run e.1 (e'.2.run e'.1 d).2).2))) :
    Clash m calls e e' turns := by
  obtain ⟨d, hd, r, hr, hret, hret', hfirst, hsecond⟩ := h
  refine ⟨hne, d, hd, r, hr, hret, hret', ?_⟩
  rintro (hafter | hafter)
  · exact hfirst hafter.second (congrArg f hafter.view)
  · exact hsecond hafter.second (congrArg f hafter.view)

/-- A file is written in a directory that is made at the same time, and where there
are eighteen already. The root block, read before the directory was made, is taken
for its block: it has no address yet. -/
theorem mkdir_write_clash :
    let u : Uninit := ⟨fun _ => 0, fun _ => 0⟩
    let n : CString := ⟨[47, 110], by decide⟩
    let x : CString := ⟨[47, 120, 97], by decide⟩
    let g : CString := ⟨[47, 110, 47, 97, 46, 36], by decide⟩
    let dirs : List Call := (List.finRange 17).map fun i =>
      .mkdir ⟨[47, UInt8.ofNat (65 + i.val)], by revert i; decide⟩
    let one (k : ℕ) := List.replicate k true
    let other (k : ℕ) := List.replicate k false
    Clash 21 ((dirs ++ [Call.mkdir x]).map (Prod.mk u)) (u, .mkdir n) (u, .write g [1] 0)
      (other 1 ++ one 8 ++ other 9) :=
  .of_ne List.length (by decide) (by decide +kernel)

/-- Two directories are made, and both requests have read the root block before
either writes it: one directory is lost. Two files are made in different directories,
and both requests have read the mark before either moves it: they have the same block.
The other clashes are between requests that only write back what is still so: a file is
made, or written, in a directory that is made at the same time; a write starts behind the
blocks of its file, which an earlier one that gave up has left too large; and two
directories share a block, after a file was made in a directory that was not there, or
after such a write. -/
theorem not_serialises :
    let u : Uninit := ⟨fun _ => 0, fun _ => 0⟩
    let u' : Uninit := ⟨fun i => if i ∈ [0, 14, 31] then 2 else if i = 4 then 100 else
      if i = 21 then 110 else 0, fun _ => 0⟩
    let d : CString := ⟨[47, 100], by decide⟩
    let n : CString := ⟨[47, 110], by decide⟩
    let x : CString := ⟨[47, 120, 97], by decide⟩
    let f : CString := ⟨[47, 100, 47, 97, 46, 98], by decide⟩
    let f' : CString := ⟨[47, 100, 47, 99, 46, 100], by decide⟩
    let g : CString := ⟨[47, 110, 47, 97, 46, 98], by decide⟩
    let g' : CString := ⟨[47, 110, 47, 97, 46, 36], by decide⟩
    let dirs : List Call := (List.finRange 17).map fun i =>
      .mkdir ⟨[47, UInt8.ofNat (65 + i.val)], by revert i; decide⟩
    let files : List Call := [.mknod f, .mknod f', .write f' (List.replicate 536 0) 0]
    let narrow : List Call := [.mkdir d] ++ files
    let shared : List Call := [.mkdir d, .mkdir n] ++ files ++ [.write f' [2] 535]
    let one (k : ℕ) := List.replicate k true
    let other (k : ℕ) := List.replicate k false
    Clash 5 [] (u, .mkdir d) (u, .mkdir n) (one 2 ++ other 2 ++ one 6 ++ other 6) ∧
      Shares 6 [(u, .mkdir d), (u, .mkdir n)] (u, .mknod f) (u, .mknod g)
        (one 10 ++ other 10 ++ one 3 ++ other 3) ∧
      Clash 5 [] (u, .mkdir n) (u, .mknod g) (other 4 ++ one 8 ++ other 7) ∧
      Clash 21 ((dirs ++ [Call.mkdir x]).map (Prod.mk u)) (u, .mkdir n) (u, .write g' [1] 0)
        (other 1 ++ one 8 ++ other 9) ∧
      Clash 5 (narrow.map (Prod.mk u)) (u, .write f' [101] 508) (u, .write f [1] 0)
        (other 3 ++ one 11 ++ other 6) ∧
      Clash 6 [(u', .mknod g)] (u, .mknod f) (u, .mknod g) (other 3 ++ one 13 ++ other 10) ∧
      Clash 6 (shared.map (Prod.mk u)) (u, .write f [65] 0) (u, .write g [66] 0)
        (one 3 ++ other 10 ++ one 7) := by
  intro u u' d n x f f' g g' dirs files narrow shared one other
  let sizes (v : View) : List (List ℕ) := v.map fun D => D.files.map FileView.fsize
  refine ⟨?_, ⟨by decide, by decide +kernel⟩, ?_, mkdir_write_clash, ?_, ?_, ?_⟩
  · exact .of_ne sizes (by decide) (by decide +kernel)
  · exact .of_ne sizes (by decide) (by decide +kernel)
  · exact .of_ne sizes (by decide) (by decide +kernel)
  · exact .of_ne sizes (by decide) (by decide +kernel)
  · exact .of_ne sizes (by decide) (by decide +kernel)

end Csc452.Fuse
