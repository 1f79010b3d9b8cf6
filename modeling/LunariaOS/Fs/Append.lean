import LunariaOS.Fs.Writer
import LunariaOS.Fs.Success

/-!
Files opened for appending.

`FS_O_APPEND` puts the handle at the end of the file when it is opened, and does no more: a write goes
where the handle stands. A stream of the C library that is opened with a mode `a` or `a+` is such a
handle, and its functions reach the file by reads, writes and seeks of the handle.
-/

namespace LunariaOS.Fs

open LunariaOS.Lib

/-- The flags that `fopen` opens a file with, by the first character of the mode and whether there is
a `+` in it. -/
def modeFlags (mode : List UInt8) : Option ℕ :=
  let plus := decide ((43 : UInt8) ∈ mode)
  match mode.head? with
  | some 114 => some (if plus then fsORdwr else fsORdonly)
  | some 119 => some ((if plus then fsORdwr else fsOWronly) ||| fsOCreat ||| fsOTrunc)
  | some 97 => some ((if plus then fsORdwr else fsOWronly) ||| fsOCreat ||| fsOAppend)
  | _ => none

/-- The flags open a file for appending, and do not empty it. -/
def Appends (flags : ℕ) : Prop :=
  flagSet flags fsOAppend = true ∧ flagSet flags (fsOWronly ||| fsORdwr) = true ∧
    flagSet flags fsOTrunc = false

/-- The modes `a` and `a+` do. -/
lemma appends_mode {mode : List UInt8} (h : mode.head? = some 97) :
    ∃ flags, modeFlags mode = some flags ∧ Appends flags := by
  unfold modeFlags
  rw [h]
  by_cases hp : (43 : UInt8) ∈ mode
  · refine ⟨_, rfl, ?_⟩
    unfold Appends
    simp only [hp, decide_true, if_true]
    decide
  · refine ⟨_, rfl, ?_⟩
    unfold Appends
    simp only [hp, decide_false, Bool.false_eq_true, if_false]
    decide

/-- The call, in the state `s`, does not write over the first `len` bytes of the file: a write that
is not empty and not refused finds the handle behind them. -/
def Event.Behind (fd : ℤ) (len : ℕ) (s : State) : Event → Prop
  | .write _ n => ∀ i, fdLookup s fd = some i →
      n = 0 ∨ n > fdBufSize ∨ (s.handles i).offset > fdBufSize - n ∨ len ≤ (s.handles i).offset
  | _ => True

/-- A write behind a prefix of the old bytes, or an empty one, keeps the prefix. -/
lemma overwrite_isPrefix {c old data : List UInt8} {p : ℕ} (h : c <+: old)
    (hp : data = [] ∨ c.length ≤ p) : c <+: overwrite old p data := by
  rcases hp with rfl | hp
  · obtain ⟨r, rfl⟩ := h
    unfold overwrite
    by_cases hle : p ≤ (c ++ r).length
    · have e : p - (c ++ r).length = 0 := by omega
      rw [e, List.replicate_zero, List.append_nil, List.append_nil, List.length_nil, Nat.add_zero,
        List.take_append_drop]
      exact List.prefix_append c r
    · have hdrop : (c ++ r).drop (p + ([] : List UInt8).length) = [] :=
        List.drop_eq_nil_of_le (by simp only [List.length_nil]; omega)
      rw [hdrop, List.append_nil, List.append_nil, List.append_assoc, List.take_append]
      have hc : c.take p = c := List.take_of_length_le (by rw [List.length_append] at hle; omega)
      rw [hc]
      exact List.prefix_append c _
  · obtain ⟨r, rfl⟩ := h
    unfold overwrite
    rw [List.append_assoc, List.append_assoc c, List.take_append, List.take_of_length_le hp,
      List.append_assoc]
    exact List.prefix_append c _

/-- One call keeps what the file begins with. -/
lemma Edits.keepsPrefix {s : State} {i : Fin 8} {name : CStr} {a : Editor} (h : Edits s i name a)
    {c : List UInt8} (hc : c <+: a.bytes) {e : Event} (he : e.Behind (fdOf i) c.length s) :
    c <+: (e.spec a).2.bytes := by
  cases e with
  | read n => exact hc
  | other call => exact hc
  | seek off whence =>
    change c <+: (a.seek off whence).2.bytes
    unfold Editor.seek
    cases a.base whence with
    | none => exact hc
    | some base =>
      dsimp only
      split_ifs <;> exact hc
  | write buf n =>
    change c <+: (a.write ((List.range n).map buf)).2.bytes
    have hlook : fdLookup s (fdOf i) = some i := by
      rw [fdLookup_fdOf, if_pos h.used]
    have hb := he i hlook
    rw [h.offset_eq] at hb
    unfold Editor.write
    rw [List.length_map, List.length_range]
    split_ifs with hno
    · exact hc
    · refine overwrite_isPrefix hc ?_
      rcases hb with rfl | hb | hb | hb
      · exact Or.inl rfl
      · exact absurd (Or.inl hb) hno
      · exact absurd (Or.inr hb) hno
      · exact Or.inr hb

/-- A file opened with the flags begins when it is closed with what was in it, if every write of the run is
behind that: whatever is read and written and wherever the handle is moved in between. -/
def Keeps (s : State) (name : CStr) (f : File) (flags : ℕ) : Prop :=
  let fd := (fsOpen s name flags).1
  0 ≤ fd → ∀ es : List Event, (∀ e ∈ es, e.Aside fd) →
    Along (after (Event.exec fd)) (fun t e => e.Behind fd f.bytes.length t) (fsOpen s name flags).2 es →
    let last := (trace (Event.exec fd) (fsOpen s name flags).2 es).2
    (fsClose last fd).1 = 0 → ∃ added : List UInt8, ∀ (buf : Mem) (max : ℕ),
      (f.bytes ++ added).length ≤ max →
        fsRead s.sb name buf max (fsClose last fd).2.disk =
          (((f.bytes ++ added).length : ℤ),
            buf.blit 0 (f.bytes ++ added).length fun j => (f.bytes ++ added).getD j 0,
            (fsClose last fd).2.disk)

lemma keeps_of_appends {s : State} (hs : WellFormed s.sb s.disk) (ha : Addressed s.sb s.disk)
    {name : CStr} {f : File} (hf : view s.sb s.disk name = some f) {flags : ℕ} (hflags : Appends flags) :
    Keeps s name f flags := by
  unfold Keeps
  simp only
  intro hfd es
  obtain ⟨happ, hwrite, htrunc⟩ := hflags
  have hname : name.bytes ≠ [] := by
    intro e
    rw [view_eq_none.mpr (slotOf_empty e)] at hf
    cases hf
  obtain ⟨i, hi, hedit⟩ := fsOpen_edits hs.working hwrite hfd
  obtain ⟨hdisk, hsb⟩ := fsOpen_disk s hs.working name flags
  have hstart : f.bytes <+: (Editor.start (view s.sb s.disk name) flags).bytes := by
    rw [hf]
    simp [Editor.start, htrunc]
  rw [hi]
  intro hes hbehind
  obtain ⟨-, ⟨hlast, hdisk', hsb'⟩, hpre⟩ := trace_sim_along
    (R := fun s' a => (Edits s' i name a ∧ s'.disk = s.disk ∧ s'.sb = s.sb) ∧ f.bytes <+: a.bytes)
    (g := Event.spec)
    (fun s' a e h he => by
      have hw : s'.disk.Working := by rw [h.1.2.1]; exact hs.working
      obtain ⟨h1, h2, h3, h4⟩ := h.1.1.event hw he.1
      exact ⟨h1, ⟨h2, h3.trans h.1.2.1, h4.trans h.1.2.2⟩, h.1.1.keepsPrefix h.2 he.2⟩)
    ⟨⟨hedit, hdisk, hsb⟩, hstart⟩ (along_and (along_of_forall hes) hbehind)
  intro hrc
  obtain ⟨added, hadded⟩ := hpre
  refine ⟨added, fun buf max hmax => ?_⟩
  rw [hadded] at hmax ⊢
  have hread := hlast.close (by rw [hdisk', hsb']; exact hs) (by rw [hdisk', hsb']; exact ha) hname
    hrc buf hmax
  rwa [hsb'] at hread

/-- **An append adds behind what was there**, for a file that is opened with flags for appending, or as a
stream with the mode `a` or `a+`, when every write of the run is behind the bytes of the file. -/
theorem append_keeps {s : State} (hs : WellFormed s.sb s.disk) (ha : Addressed s.sb s.disk)
    {name : CStr} {f : File} (hf : view s.sb s.disk name = some f) :
    (∀ flags, Appends flags → Keeps s name f flags) ∧
      ∀ mode : List UInt8, mode.head? = some 97 → ∃ flags, modeFlags mode = some flags ∧
        Keeps s name f flags := by
  refine ⟨fun flags => keeps_of_appends hs ha hf, fun mode hmode => ?_⟩
  obtain ⟨flags, hflags, happ⟩ := appends_mode hmode
  exact ⟨flags, hflags, keeps_of_appends hs ha hf happ⟩

/-- The flags of the mode `a`. -/
def modeA : ℕ := fsOWronly ||| fsOCreat ||| fsOAppend

lemma withF_file : view withF.sb withF.disk pathF = some (fileAt withF.sb withF.disk 0) := by
  have h : slotOf withF.sb withF.disk pathF = some 0 := by decide +kernel
  simp [view, h]

/-- A write at the end of the file, and a read. -/
def appendEvents : List Event := [.write (fun _ => 9) 1, .read 4]

theorem append_keeps_withF :
    let fd := (fsOpen withF pathF modeA).1
    let last := (trace (Event.exec fd) (fsOpen withF pathF modeA).2 appendEvents).2
    (fsClose last fd).1 = 0 → ∃ added : List UInt8, ∀ (buf : Mem) (max : ℕ),
      ((fileAt withF.sb withF.disk 0).bytes ++ added).length ≤ max →
        fsRead withF.sb pathF buf max (fsClose last fd).2.disk =
          ((((fileAt withF.sb withF.disk 0).bytes ++ added).length : ℤ),
            buf.blit 0 ((fileAt withF.sb withF.disk 0).bytes ++ added).length fun j =>
              ((fileAt withF.sb withF.disk 0).bytes ++ added).getD j 0,
            (fsClose last fd).2.disk) :=
  (append_keeps withF_sound.1 withF_sound.2 withF_file).1 modeA (by unfold Appends; decide)
    (by decide +kernel) appendEvents (by simp [appendEvents, Event.Aside])
    ⟨fun i hi => Or.inr (Or.inr (Or.inr (by
      have h : fdLookup (fsOpen withF pathF modeA).2 (fsOpen withF pathF modeA).1 = some 0 := by
        decide +kernel
      rw [h] at hi
      cases hi
      decide +kernel))), trivial, trivial⟩

/-- Back to the start, and a write. -/
def rewindEvents : List Event := [.seek 0 fsSeekSet, .write (fun _ => 9) 1]

/-- The file of three bytes `1` that is opened for appending has a first byte `9` when it is closed. -/
theorem append_overwrites :
    let fd := (fsOpen withF pathF modeA).1
    let last := (trace (Event.exec fd) (fsOpen withF pathF modeA).2 rewindEvents).2
    WellFormed withF.sb withF.disk ∧ Appends modeA ∧
      (fileAt withF.sb withF.disk 0).bytes = [1, 1, 1] ∧ (fsClose last fd).1 = 0 ∧
      ∀ buf, (fsRead withF.sb pathF buf 3 (fsClose last fd).2.disk).2.1 0 = 9 := by
  have hbytes : (fileAt withF.sb withF.disk 0).bytes = [1, 1, 1] := by decide +kernel
  have hspec : (trace Event.spec (Editor.start (view withF.sb withF.disk pathF) modeA)
      rewindEvents).2.bytes = [9, 1, 1] := by
    rw [withF_file]
    simp only [Editor.start, Option.map_some, Option.getD_some, hbytes]
    decide
  have href := @writer_refines withF withF_sound.1 withF_sound.2 pathF (by decide) modeA
    (by decide) (by decide +kernel) rewindEvents (by simp [rewindEvents, Event.Aside])
  have hrc : (fsClose (trace (Event.exec (fsOpen withF pathF modeA).1)
      (fsOpen withF pathF modeA).2 rewindEvents).2 (fsOpen withF pathF modeA).1).1 = 0 := by
    decide +kernel
  refine ⟨withF_sound.1, by unfold Appends; decide, hbytes, hrc, fun buf => ?_⟩
  have h := href.2 hrc buf 3 (by rw [hspec]; decide)
  rw [h, hspec]
  rfl

end LunariaOS.Fs
