import Csc452.DiskRuns
import Csc452.ReadRequest

/-!
# Files that are only appended to

A file that is made and from then on only written at its end, among calls about
other files and directories (`AppendsOnly`), reads back as the buffers one after
the other (`reads_back`): `csc452_getattr` reports the length, and `csc452_read`
returns every slice of them.

Files have to be made in directories that are there, which `csc452_mknod` leaves to
its caller. Otherwise it stores an entry where there is no directory, and reports
success (`not_reads_back`).
-/

namespace Csc452.Fuse

open ByteFile (Disk machine)
open Runs (Always Guarded)

/-! ## The statement -/

/-- What has been appended to a file, after a call that returned `ret`: nothing when
the call has made the file, and `none` before that. -/
def Call.history (call : Call) (p : PathComp) (ret : ℤ) (h : Option (List UInt8)) :
    Option (List UInt8) :=
  match call with
  | .mkdir _ => h
  | .mknod path => if sscanf path.bytes = p ∧ ret = 0 then some [] else h
  | .write path buf _ => if sscanf path.bytes = p then h.map (· ++ buf) else h

/-- A call, with what has been appended to a file. -/
def fileStep (p : PathComp) (s : Disk × Option (List UInt8)) (e : Uninit × Call) :
    Option (Disk × Option (List UInt8)) :=
  some ((e.2.run e.1 s.1).2, e.2.history p (e.2.run e.1 s.1).1 s.2)

/-- A write to the file starts at its end. -/
def Call.AtEnd (call : Call) (p : PathComp) (h : Option (List UInt8)) : Prop :=
  match call with
  | .write path _ offset => sscanf path.bytes = p → ∀ data ∈ h, offset = data.length
  | _ => True

/-- The calls there can be: paths fit, no write runs out of space, and the file is
only appended to. -/
structure AppendsOnly (m : ℕ) (p : PathComp) (s : Disk × Option (List UInt8)) (e : Uninit × Call) :
    Prop where
  /-- the path -/
  fits : e.2.Fits
  /-- the disk -/
  space : ¬ e.2.OutOfSpace (diskView m s.1) (e.2.run e.1 s.1).1
  /-- the file -/
  atEnd : e.2.AtEnd p s.2

/-- The file is there, and what it shows is what has been appended. -/
def ReadsBack (p : PathComp) (d : Disk) (data : List UInt8) : Prop :=
  ∀ (u : Uninit) (path : CString), sscanf path.bytes = p →
    (machine.run (csc452Getattr u path) d).1 = (0, some (Stat.file data.length)) ∧
      ∀ size offset, offset + size ≤ data.length →
        (machine.run (csc452Read u path size offset) d).1 = ((size : ℤ), slice data offset size)

instance (call : Call) (p : PathComp) (h : Option (List UInt8)) : Decidable (call.AtEnd p h) :=
  match call with
  | .mkdir _ => inferInstanceAs (Decidable True)
  | .mknod _ => inferInstanceAs (Decidable True)
  | .write _ _ _ => inferInstanceAs (Decidable (_ → _))

instance (m : ℕ) (p : PathComp) (s : Disk × Option (List UInt8)) (e : Uninit × Call) :
    Decidable (AppendsOnly m p s e) :=
  decidable_of_iff (e.2.Fits ∧ ¬ e.2.OutOfSpace (diskView m s.1) (e.2.run e.1 s.1).1 ∧
      e.2.AtEnd p s.2)
    ⟨fun h => ⟨h.1, h.2.1, h.2.2⟩, fun h => ⟨h.1, h.2, h.3⟩⟩

/-! ## Splicing at the end -/

/-- Up to the end of what has been written, the contents are what was there before
and the buffer. -/
theorem take_splice {data : List UInt8} {p : ℕ} (buf : List UInt8) (h : p ≤ data.length) :
    (splice data p buf).take (p + buf.length) = data.take p ++ buf := by
  induction buf generalizing data p with
  | nil => rw [splice, List.length_nil, Nat.add_zero, List.append_nil]
  | cons c buf ih =>
    have hlt := lt_length_grow h
    have hlt' : p + 1 ≤ ((grow data p).set p c).length := by
      rw [List.length_set]
      exact hlt
    have hold : (grow data p).take p = data.take p := by
      rw [grow]
      split
      · exact List.take_append_of_le_length h
      · rfl
    have hnew : ((grow data p).set p c).take (p + 1) = data.take p ++ [c] := by
      rw [List.take_add_one, List.take_set_of_le (le_refl p), hold, List.getElem?_set_self hlt]
      rfl
    have hrest := ih hlt'
    rw [hnew] at hrest
    rw [splice, List.length_cons, Nat.add_comm buf.length 1, ← Nat.add_assoc, hrest,
      List.append_assoc, List.singleton_append]

/-! ## Calls about something else -/

section appending

variable {m : ℕ} {d : Disk} {fs : Fs} {v : View} {call : Call} {u : Uninit} {p : PathComp}
variable {es : List Effect} {n : List UInt8} {key : List UInt8 × List UInt8} {F : FileView}
variable {data : List UInt8} {h : Option (List UInt8)}

/-- A call that is accepted and is not about the path of a file has another target. -/
theorem Call.target_ne (hcall : call.respond v = some es) (hcount : p.count = 3)
    (hcomp : call.comp ≠ p) (hdir : ∀ path, call ≠ .mkdir path) :
    call.target ≠ .file p.directory p.key := by
  have hcount' : call.comp.count = 3 := by
    cases call with
    | mkdir path => exact absurd rfl (hdir path)
    | mknod path => exact (Option.ite_none_right_eq_some.mp hcall).1.1
    | write path buf offset => exact (Call.respond_write hcall).1
  have htarget : call.target = .file call.comp.directory call.comp.key := by
    cases call with
    | mkdir path => exact absurd rfl (hdir path)
    | mknod path => rfl
    | write path buf offset => rfl
  rw [htarget]
  intro heq
  obtain ⟨hdirectory, hkey⟩ := Target.file.inj heq
  obtain ⟨hname, hext⟩ := Prod.mk.inj hkey
  refine hcomp ?_
  generalize call.comp = q at *
  obtain ⟨count, directory, filename, extension⟩ := q
  obtain ⟨count', directory', filename', extension'⟩ := p
  simp only at hcount hcount' hdirectory hname hext
  rw [hcount, hcount', hdirectory, hname, hext]

/-- A file that is added is found. -/
theorem Effect.file?_addFile (hdir : v.dir? n ≠ none) (hno : v.file? n F.key = none) :
    ((Effect.addFile n F).apply v).file? n F.key = some F := by
  obtain ⟨D, hD⟩ := Option.ne_none_iff_exists'.mp hdir
  have hnone : D.file? F.key = none := by
    rw [View.file?, hD, Option.bind_some] at hno
    exact hno
  rw [DirView.file?] at hnone
  rw [Effect.apply, View.file?, View.dir?_modifyDir, hD, Option.map_some, Option.bind_some,
    if_pos (View.dir?_eq_some hD).2, DirView.file?, List.find?_append, hnone]
  simp

/-! ## One call -/

/-- What has been appended to the file is in front of its end. -/
structure Holding (p : PathComp) (v : View) (data : List UInt8) : Prop where
  /-- the path is that of a file -/
  count : p.count = 3
  /-- the file is there -/
  file : ∃ F, v.file? p.directory p.key = some F ∧ F.fsize = data.length ∧
    F.data.take data.length = data

/-- A new file holds nothing. -/
theorem Holding.mknod {path : CString} (hcall : (Call.mknod path).respond v = some es) :
    Holding (sscanf path.bytes) (Effect.applyAll es v) [] := by
  obtain ⟨hpath, hes⟩ := Option.ite_none_right_eq_some.mp hcall
  obtain rfl := Option.some.inj hes
  refine ⟨hpath.1, newFile (sscanf path.bytes), ?_, rfl, rfl⟩
  rw [Effect.applyAll_singleton]
  exact Effect.file?_addFile (F := newFile (sscanf path.bytes)) hpath.2.2.2.1 hpath.2.2.2.2

/-- A file keeps what it holds when a call is about something else. -/
theorem Holding.other (hold : Holding p v data) (hcall : call.respond v = some es)
    (htarget : call.target ≠ .file p.directory p.key) :
    Holding p (Effect.applyAll es v) data := by
  refine ⟨hold.count, ?_⟩
  rw [Effect.file?_applyAll fun e he => by rw [Call.respond_target hcall e he]; exact htarget]
  exact hold.file

/-- A write that is accepted and does not run out of space succeeds. -/
theorem Sound.accepted (hs : Sound m d fs) (hwrite : call.IsWrite)
    (hcall : call.respond (fs.view d.bytes) = some es)
    (hspace : ¬ call.OutOfSpace (fs.view d.bytes) (call.run u d).1) : 0 ≤ (call.run u d).1 := by
  cases call with
  | mkdir path => exact hwrite.elim
  | mknod path => exact hwrite.elim
  | write path buf offset =>
    have hlegal : (Call.write path buf offset).Legal (fs.view d.bytes) :=
      hs.legal (show (Call.write path buf offset).Parented _ from trivial)
    obtain ⟨fs', -, houtcome⟩ := Call.run_spec (u := u) hs.layout hlegal hs.visible
    rcases houtcome with ⟨hrefused, -, -⟩ | ⟨_, -, -, hret, -⟩ | ⟨es', hcall', hroom, -, hbig, -⟩
    · rw [hcall] at hrefused
      cases hrefused
    · exact hret
    · obtain rfl : es = es' := Option.some.inj (hcall.symm.trans hcall')
      obtain ⟨-, F, hF, ⟨-, rfl⟩ | ⟨-, hoffset, -⟩⟩ := Call.respond_write hcall
      · exact absurd hs.layout.room hroom
      · refine absurd ?_ hspace
        simp only [Call.OutOfSpace, Call.comp, hF]
        exact ⟨hoffset, hbig trivial⟩

/-- A write at the end appends. -/
theorem Holding.append {path : CString} {buf : List UInt8} (hs : Sound m d fs)
    (hold : Holding (sscanf path.bytes) (fs.view d.bytes) data)
    (hspace : ¬ (Call.write path buf data.length).OutOfSpace (fs.view d.bytes)
      ((Call.write path buf data.length).run u d).1) :
    ∃ fs', Sound m ((Call.write path buf data.length).run u d).2 fs' ∧
      Holding (sscanf path.bytes) (fs'.view ((Call.write path buf data.length).run u d).2.bytes)
        (data ++ buf) := by
  obtain ⟨hcount, F, hF, hfsize, hdata⟩ := hold
  obtain ⟨D, hD, -, hmem⟩ := View.mem_of_file? hF
  have hlt := hs.fsize_lt hD hmem
  have hle : data.length ≤ F.data.length := hfsize ▸ hs.sized D hD F hmem
  obtain ⟨fs', hs', hview⟩ := hs.step
    (show (Call.write path buf data.length).Parented _ from trivial) hspace
  refine ⟨fs', hs', hcount, ?_⟩
  rcases eq_or_ne buf [] with rfl | hbuf
  · have hcall : (Call.write path [] data.length).respond (fs.view d.bytes) = some [] := by
      simp only [Call.respond, Call.comp, if_pos hcount, hF, if_neg (hs.visible D hD F hmem), if_true]
    rw [List.append_nil]
    rcases hview with ⟨-, es, hcall', hview⟩ | ⟨-, hview⟩
    · obtain rfl := Option.some.inj (hcall.symm.trans hcall')
      rw [hview]
      exact ⟨F, hF, hfsize, hdata⟩
    · rw [hview]
      exact ⟨F, hF, hfsize, hdata⟩
  · have hcall := Call.respond_write_eq hcount hF (hs.visible D hD F hmem) hbuf
      (show data.length ≤ toSize (toInt F.fsize) by rw [hs.toSize_fsize hD hmem, hfsize])
    have hwrite : (Call.write path buf data.length).IsWrite := trivial
    have hret := hs.accepted hwrite hcall hspace
    rcases hview with ⟨-, es, hcall', hview⟩ | ⟨hneg, -⟩
    · obtain rfl := Option.some.inj (hcall.symm.trans hcall')
      obtain ⟨-, -, -, hkey⟩ := View.file?_eq_some hF
      have hnew := Effect.file?_setFile (F := F) (W := F.written data.length buf)
        (n := (sscanf path.bytes).directory) (by rw [FileView.written_key, hkey]; exact hF)
      rw [Effect.applyAll_singleton] at hview
      rw [FileView.written_key, hkey, ← hview] at hnew
      obtain ⟨D', hD', -, hmem'⟩ := View.mem_of_file? hnew
      have hlen := hs'.layout.data_lt hD' hmem'
      have hsize := (FileView.written_sized hlt hlen hle).1
      refine ⟨_, hnew, ?_, ?_⟩
      · rw [hsize, List.length_append]
      · rw [FileView.written, List.length_append, take_splice buf hle, hdata]
    · exact absurd hneg (not_lt.mpr hret)

/-- **One call.** The file keeps what it holds, and a write to it appends. -/
theorem Sound.history (hs : Sound m d fs) (hparented : call.Parented (fs.view d.bytes))
    (hspace : ¬ call.OutOfSpace (fs.view d.bytes) (call.run u d).1) (hend : call.AtEnd p h)
    (hold : ∀ data ∈ h, Holding p (fs.view d.bytes) data) :
    ∃ fs', Sound m (call.run u d).2 fs' ∧ ∀ data ∈ call.history p (call.run u d).1 h,
      Holding p (fs'.view (call.run u d).2.bytes) data := by
  -- calls about something else
  have hother : (∀ es, p.count = 3 → call.respond (fs.view d.bytes) = some es →
      call.target ≠ .file p.directory p.key) →
      ∃ fs', Sound m (call.run u d).2 fs' ∧ ∀ data ∈ h,
        Holding p (fs'.view (call.run u d).2.bytes) data := by
    intro htarget
    obtain ⟨fs', hs', ⟨-, es, hcall, hview⟩ | ⟨-, hview⟩⟩ := hs.step hparented hspace
    · refine ⟨fs', hs', fun data hdata => ?_⟩
      have hfile := hold data hdata
      rw [hview]
      exact hfile.other hcall (htarget es hfile.count hcall)
    · exact ⟨fs', hs', fun data hdata => by rw [hview]; exact hold data hdata⟩
  cases call with
  | mkdir path => exact hother fun _ _ _ => by simp [Call.target]
  | mknod path =>
    rw [Call.history]
    by_cases hcomp : sscanf path.bytes = p
    · subst hcomp
      obtain ⟨fs', hs', ⟨-, es, hcall, hview⟩ | ⟨hneg, hview⟩⟩ := hs.step hparented hspace
      · -- the file has not been there
        have hno : (fs.view d.bytes).file? (sscanf path.bytes).directory (sscanf path.bytes).key =
            none := (Option.ite_none_right_eq_some.mp hcall).1.2.2.2.2
        have hnone : ∀ data, data ∉ h := by
          intro data hdata
          obtain ⟨F, hF, -⟩ := (hold data hdata).file
          rw [hno] at hF
          cases hF
        refine ⟨fs', hs', fun data hdata => ?_⟩
        split at hdata
        · rw [← Option.mem_some.mp hdata, hview]
          exact Holding.mknod hcall
        · exact absurd hdata (hnone data)
      · rw [if_neg fun hboth => hneg.ne hboth.2]
        exact ⟨fs', hs', fun data hdata => by rw [hview]; exact hold data hdata⟩
    · rw [if_neg fun hboth => hcomp hboth.1]
      exact hother fun es hcount hcall => Call.target_ne hcall hcount hcomp (by simp)
  | write path buf offset =>
    rw [Call.history]
    by_cases hcomp : sscanf path.bytes = p
    · subst hcomp
      rw [if_pos rfl]
      cases h with
      | none =>
        obtain ⟨fs', hs', -⟩ := hs.step hparented hspace
        exact ⟨fs', hs', fun data hdata => by cases hdata⟩
      | some data =>
        obtain rfl : offset = data.length := hend rfl data rfl
        obtain ⟨fs', hs', hnew⟩ := (hold data rfl).append hs hspace
        refine ⟨fs', hs', fun data' hdata => ?_⟩
        rw [Option.map_some] at hdata
        rw [← Option.mem_some.mp hdata]
        exact hnew
    · rw [if_neg hcomp]
      exact hother fun es hcount hcall => Call.target_ne hcall hcount hcomp (by simp)

/-- A file that holds something reads back as that. -/
theorem Holding.readsBack (hs : Sound m d fs) (hold : Holding p (fs.view d.bytes) data) :
    ReadsBack p d data := by
  rintro u path rfl
  obtain ⟨hcount, Fv, hF, hfsize, hdata⟩ := hold
  obtain ⟨D, hD, -, hmem⟩ := View.mem_of_file? hF
  have hlt := hs.fsize_lt hD hmem
  have hvisible := hs.visible D hD Fv hmem
  have hsized := hs.sized D hD Fv hmem
  obtain ⟨x, F, hx, hname, hkey, rfl⟩ := file?_view hF
  rw [File.view_fsize] at hfsize hlt hvisible
  rw [File.view, length_dataOf] at hsized
  have hattr := csc452Getattr_runs
    (alone m (fs.view d.bytes) (.file x.dname F.key) (.any m _ true)) (fun _ => none) path u
    (start_world hs.layout) hcount hx hname hkey hvisible rfl
  refine ⟨?_, fun size offset hsize => ?_⟩
  · obtain ⟨g, k, hret, -⟩ := hattr.alone hs.layout
    rw [hret, toInt_natCast hlt, hfsize]
  · have hread := csc452Read_runs
      (alone m (fs.view d.bytes) (.file x.dname F.key) (.any m _ true)) (fun _ => none) path u size
      (start_world hs.layout) hcount hx hname hkey hsized (hfsize ▸ hsize) rfl
    obtain ⟨g, k, hret, -⟩ := hread.alone hs.layout
    have hslice : slice data offset size = slice (dataOf d.bytes F.blocks) offset size := by
      rw [← hdata, slice_take hsize]
      rfl
    rw [hret, hslice]
    rfl

end appending

/-! ## Runs -/

/-- **Reading back.** In every run from a disk of zeros in which paths fit, no write runs out
of space and the file `p`, from when it is made, is only written at its end (`AppendsOnly`),
and in which files are made in directories that are there (`Call.Parented`): after every
call, what has been appended is what `csc452_getattr` and `csc452_read` show, whatever other
calls came in between. -/
theorem reads_back {m : ℕ} (hm : 2 ≤ m) (hlt : blockSize * m < 2 ^ 31) {p : PathComp}
    {calls : List (Uninit × Call)}
    (h : Guarded (fileStep p) (fun s e => AppendsOnly m p s e ∧ e.2.Parented (diskView m s.1))
      (zeroDisk m, none) calls) :
    Always (fileStep p) (fun s => ∀ data ∈ s.2, ReadsBack p s.1 data) (zeroDisk m, none) calls := by
  have hold : Always (fileStep p) (fun s => ∃ fs, Sound m s.1 fs ∧
      ∀ data ∈ s.2, Holding p (fs.view s.1.bytes) data) (zeroDisk m, none) calls := by
    refine h.always ⟨_, Sound.zero hm hlt, fun data hdata => by cases hdata⟩ ?_
    rintro ⟨d, hist⟩ e s' ⟨fs, hs, hold⟩ ⟨hcall, hparented⟩ hstep
    obtain rfl := Option.some.inj hstep
    have hview := hs.layout.diskView_eq
    exact hs.history (hview ▸ hparented) (hview ▸ hcall.space) hcall.atEnd hold
  exact hold.mono fun s ⟨fs, hs, hold⟩ data hdata => (hold data hdata).readsBack hs

/-- Two files that are written in turn. -/
theorem reads_back_turns :
    let u : Uninit := ⟨fun _ => 0, fun _ => 0⟩
    let d : CString := ⟨[47, 100], by decide⟩
    let f : CString := ⟨[47, 100, 47, 97, 46, 98], by decide⟩
    let g : CString := ⟨[47, 100, 47, 112, 46, 113], by decide⟩
    let p := sscanf f.bytes
    Always (fileStep p) (fun s => ∀ data ∈ s.2, ReadsBack p s.1 data) (zeroDisk 6, none)
      [(u, .mkdir d), (u, .mknod f), (u, .mknod g), (u, .write f [88] 0), (u, .write g [89] 0),
        (u, .write f [90, 91] 1)] :=
  reads_back (by decide) (by decide) (by decide +kernel)

/-- Without a directory, `csc452_mknod` reports success, but the file is not there.
And where it stores the entry depends on what its local variables hold: here it is
the block of the next directory, in which another file then has the block of the
one that is appended to. -/
theorem not_reads_back :
    let u : Uninit := ⟨fun _ => 0, fun _ => 0⟩
    let u' : Uninit := ⟨Bytes.write (fun _ => 0) 0 ([1, 0, 0, 0] ++ [112, 0, 0, 0, 0, 0, 0, 0, 0] ++
      [113, 0, 0, 0] ++ longBytes 0 ++ longBytes 1536), Bytes.write (fun _ => 0) 0 [0, 4, 0, 0]⟩
    let d : CString := ⟨[47, 100], by decide⟩
    let f : CString := ⟨[47, 100, 47, 97, 46, 98], by decide⟩
    let g : CString := ⟨[47, 100, 47, 112, 46, 113], by decide⟩
    let h : CString := ⟨[47, 122, 47, 114, 46, 115], by decide⟩
    let p := sscanf f.bytes
    let missing := [(u, Call.mknod f)]
    let shared := [(u', Call.mknod h), (u, .mkdir d), (u, .mknod f), (u, .write f [88] 0),
      (u, .write g [89] 0)]
    (Guarded (fileStep p) (AppendsOnly 5 p) (zeroDisk 5, none) missing ∧
      ¬ Always (fileStep p) (fun s => ∀ data ∈ s.2, ReadsBack p s.1 data) (zeroDisk 5, none)
        missing) ∧
      Guarded (fileStep p) (AppendsOnly 5 p) (zeroDisk 5, none) shared ∧
        ¬ Always (fileStep p) (fun s => ∀ data ∈ s.2, ReadsBack p s.1 data) (zeroDisk 5, none)
          shared := by
  intro u u' d f g h p missing shared
  refine ⟨⟨by decide +kernel, fun halways => ?_⟩, by decide +kernel, fun halways => ?_⟩
  · have hback := halways.last rfl [] (by decide +kernel) u f rfl
    exact absurd hback.1 (by decide +kernel)
  · have hback := halways.last rfl [88] (by decide +kernel) u f rfl
    exact absurd (hback.2 1 0 (by decide)) (by decide +kernel)

end Csc452.Fuse
