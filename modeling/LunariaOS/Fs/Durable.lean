import LunariaOS.Fs.Streams

/-!
A file that was written is there until its own path is written or deleted.

A call can reach the entry of `name` only through `name` itself or through a path below it. Every
other single write and delete leaves the file in the map, so the rule for calls carries it through a
run, and the two ways of reading a file deliver it.
-/

namespace LunariaOS.Fs

open LunariaOS.Lib

variable {sb : Superblock} {d d' : Disk}

/-- The paths that are neither `name` nor below it. -/
def apart (name : CStr) : Set CStr := {n | n ≠ name ∧ ¬ Ancestor name n}

lemma upward_apart (name : CStr) : Upward (apart name) := by
  rintro n ⟨hn, hanc⟩ p hp
  refine ⟨?_, fun h => hanc (.up hp h)⟩
  rintro rfl
  exact hanc (.parent hp)

/-- The parent of a path is not below it. -/
lemma parent_apart {name p : CStr} (hp : parentDir name = some p) : p ∈ apart name := by
  have hlt := parentDir_length hp
  refine ⟨?_, fun h => absurd (h.length_lt.trans hlt) (lt_irrefl _)⟩
  rintro rfl
  exact absurd hlt (lt_irrefl _)

section Keep

variable {name : CStr} {f : File}

lemma Written.keeps {n : CStr} {type : UInt8} {data : Mem} {size k lba : ℕ}
    (h : Written sb d d' n type data size k lba) (hd : Sound sb d) (hn : n ∈ apart name)
    (hf : view sb d name = some f) : view sb d' name = some f := by
  rw [h.view_eq hd, FileMap.store_ne _ hn.1.symm, hf]

lemma Deleted.keeps {n : CStr} {k : ℕ} (h : Deleted sb d d' k) (hd : Sound sb d)
    (hk : Named sb d n k) (hn : n ∈ apart name) (hf : view sb d name = some f) :
    view sb d' name = some f := by
  rw [h.view_eq hd hk, FileMap.erase_ne hn.1.symm, hf]

/-- A call that aims at no path from `name` on keeps the file. -/
theorem step_keeps {s : State} {c : Call} (hs : WellFormed s.sb s.disk) (hfit : c.Fits s)
    (hc : ∀ n ∈ c.target s, n ∈ apart name) (hf : view s.sb s.disk name = some f) :
    view s.sb (s.step c).disk name = some f :=
  (step_rule hs.layout (upward_apart name) (P := fun d => view s.sb d name = some f)
    (fun hn _ hd hP hwr => hwr.keeps hd hn hP) (fun hn hd hP hk hdel => hdel.keeps hd hk hn hP) rfl
    hc hfit hs.sound hf).2

/-- A run of such calls keeps the file. -/
theorem run_keeps {s : State} {l : List Call} (hs : WellFormed s.sb s.disk)
    (hf : view s.sb s.disk name = some f)
    (hl : Along State.step
      (fun s c => c.Fits s ∧ ∀ n ∈ c.target s, n ∈ apart name) s l) :
    WellFormed (run State.step s l).sb (run State.step s l).disk ∧
      view (run State.step s l).sb (run State.step s l).disk name = some f :=
  run_inv (P := fun s => WellFormed s.sb s.disk ∧ view s.sb s.disk name = some f)
    (fun s c h hc => ⟨step_wellFormed h.1 hc.1, by
      rw [step_sb s h.1.working]
      exact step_keeps h.1 hc.1 hc.2 h.2⟩) ⟨hs, hf⟩ hl

end Keep

/-- **A write that returns 0 puts its data into the file.** -/
theorem fsWrite_view (h : WellFormed sb d) {name : CStr} (hname : name.bytes ≠ []) (type : UInt8)
    (data : Mem) {size : ℕ} (hs : size ≤ 4294966784) (hfit : WriteFits sb name type data size d)
    (hrc : (fsWrite sb name type data size d).1 = 0) :
    view sb (fsWrite sb name type data size d).2 name = some ⟨type, (List.range size).map data⟩ := by
  have hd := h.sound
  rw [fsWrite_working hd.working h.layout.sectors_lt] at hrc ⊢
  by_cases hc : CanWrite sb d name
  · rw [if_pos hc]
    rw [WriteFits] at hfit
    obtain ⟨hend, hup⟩ := hfit hc
    have hwr := writeDisk_written hd.working h.layout hd.dirOk type data hc (by omega) hend
    have hv : view sb (writeDisk sb d name type data size) name =
        some ⟨type, (List.range size).map data⟩ := by
      rw [hwr.view_eq hd, FileMap.store_same hname, storedBytes_eq _ hs]
    cases hp : parentDir name with
    | none => exact hv
    | some p =>
      exact ((write_append_rule h.layout (upward_apart name) (B := dirBufSize) le_rfl (by decide)
        (P := fun d => view sb d name = some ⟨type, (List.range size).map data⟩)
        (fun hn _ hd hP hwr => hwr.keeps hd hn hP)).2 p name _ (parent_apart hp) (hwr.sound hd) hv
        (hup p hp)).2
  · rw [if_neg hc] at hrc
    simp at hrc

/-- A fresh read handle delivers the file of the map. -/
theorem readSeq_view {s : State} (hw : s.disk.Working) {name : CStr} {f : File}
    (h : view s.sb s.disk name = some f) (hs : f.bytes.length < 2147483648) {flags : ℕ}
    (hflags : flagSet flags (fsOWronly ||| fsORdwr) = false) (hfd : 0 ≤ (fsOpen s name flags).1)
    (ns : List ℕ) :
    (readSeq (fsOpen s name flags).2 (fsOpen s name flags).1 ns).1 = f.bytes.take ns.sum := by
  unfold view at h
  cases hk : slotOf s.sb s.disk name with
  | none => rw [hk] at h; cases h
  | some k =>
    rw [hk] at h
    obtain rfl := Option.some.inj h
    simp only [fileAt_length] at hs
    obtain ⟨i, hi, hr⟩ := fsOpen_reads hw hflags hk hfd
    have hdisk := (fsOpen_disk s hw name flags).1
    rw [hi, readSeq_reads (by rw [hdisk]; exact hw) hr hs, hdisk]
    unfold fileAt
    rw [← List.map_take, List.take_range, Nat.sub_zero]
    refine List.map_congr_left fun j hj => ?_
    have hj' : j < (entry s.sb s.disk k).size := by
      have := List.mem_range.mp hj
      omega
    rw [if_pos (by rw [sectorsOf_eq (by omega)]; omega), Nat.zero_add]

/-- **A written file stays.** After a write of `size` bytes that returns 0 and any later calls that
aim neither at `name` nor at a path below it, `fs_read` delivers the size and exactly the data, and
so does a fresh read handle, in pieces of any sizes. -/
theorem write_durable {s : State} (hs : WellFormed s.sb s.disk) {name : CStr}
    (hname : name.bytes ≠ []) {data : Mem} {size : ℕ} (hsize : size < 2147483648)
    (hfit : WriteFits s.sb name fsFile data size s.disk)
    (hrc : (fsWrite s.sb name fsFile data size s.disk).1 = 0) {l : List Call}
    (hl : Along State.step
      (fun s c => c.Fits s ∧ ∀ n ∈ c.target s, n ≠ name ∧ ¬ Ancestor name n)
      (s.step (.write name fsFile data size)) l)
    {s' : State} (hs' : s' = run State.step (s.step (.write name fsFile data size)) l) :
    (∀ buf max, size ≤ max →
      fsRead s'.sb name buf max s'.disk = ((size : ℤ), buf.blit 0 size data, s'.disk)) ∧
    ∀ flags ns, flagSet flags (fsOWronly ||| fsORdwr) = false → 0 ≤ (fsOpen s' name flags).1 →
      size ≤ ns.sum →
      (readSeq (fsOpen s' name flags).2 (fsOpen s' name flags).1 ns).1 =
        (List.range size).map data := by
  have hfits : Call.Fits s (.write name fsFile data size) := by
    refine ⟨fun n t dt sz e => ?_, fun dir path e => by cases e⟩
    simp only [Call.writes, Option.some.injEq, Prod.mk.injEq] at e
    obtain ⟨rfl, rfl, rfl, rfl⟩ := e
    exact ⟨by omega, hfit⟩
  obtain ⟨hw, hv⟩ := run_keeps (step_wellFormed hs hfits)
    (fsWrite_view hs hname fsFile data (by omega) hfit hrc) hl
  rw [← hs'] at hw hv
  refine ⟨fun buf max hmax => ?_, fun flags ns hflags hfd hsum => ?_⟩
  · rw [fsRead_view hw.working hv (by simp; omega) buf max (by simpa using hmax)]
    simp only [List.length_map, List.length_range]
    rw [i32_of_lt hsize]
    congr 2
    exact Mem.blit_congr _ fun i hi => by simp [hi]
  · rw [readSeq_view hw.working hv (by simpa using hsize) hflags hfd]
    exact List.take_of_length_le (by simpa using hsum)

/-- The file `f`, written first. -/
def writeF : Call := .write pathF fsFile (fun _ => 7) 700

/-- Later calls: a directory `d`, a file in it, a handle that rewrites that file, and a delete. -/
def laterCalls : List Call :=
  [.mkdir pathD, .write pathDF fsFile (fun _ => 8) 600, .openFd pathDF fsORdwr,
    .writeFd 3 (fun _ => 9) 1300, .close 3, .delete pathD]

theorem write_durable_blank :
    (∀ buf max, 700 ≤ max →
      fsRead (run State.step (blank.step writeF) laterCalls).sb pathF buf max
          (run State.step (blank.step writeF) laterCalls).disk =
        (((700 : ℕ) : ℤ), buf.blit 0 700 fun _ => 7,
          (run State.step (blank.step writeF) laterCalls).disk)) ∧
    ∀ flags ns, flagSet flags (fsOWronly ||| fsORdwr) = false →
      0 ≤ (fsOpen (run State.step (blank.step writeF) laterCalls) pathF flags).1 →
      700 ≤ ns.sum →
      (readSeq (fsOpen (run State.step (blank.step writeF) laterCalls)
          pathF flags).2
        (fsOpen (run State.step (blank.step writeF) laterCalls) pathF flags).1
        ns).1 = (List.range 700).map fun _ => 7 := by
  have hfit : Along State.step (fun s c => c.Fits s) blank (writeF :: laterCalls) :=
    blank_fits (by decide +kernel) (by decide)
  exact write_durable blank_wellFormed (by decide) (by decide) (hfit.1.1 _ _ _ _ rfl).2
    (by decide +kernel) (along_and hfit.2 (by decide +kernel)) rfl

end LunariaOS.Fs
