import LunariaOS.Fs.Refine

/-!
The directory texts and the entry table.

The text of a directory should list the entries whose parent it is (`Lists`, `Listed`). The code
keeps the two in step only as long as the calls avoid what the update of the parent gets wrong: it
adds a line whether or not the entry is new, it does so for the directories above as well, it looks
at neither the type nor the room of the directory, and a delete leaves the line behind. `WriteOk` and
`EraseOk` say what to avoid, in the map of paths, and `run_listed` that this is enough.
-/

namespace LunariaOS.Fs

open LunariaOS.Lib

namespace FileMap

/-- The text holds one line for each path of the map whose parent is `dir`, and no other line. -/
def Lists (m : FileMap) (dir : CStr) (text : List UInt8) : Prop :=
  ∃ L : List CStr, L.Nodup ∧ (∀ n, n ∈ L ↔ m n ≠ none ∧ parentDir n = some dir) ∧
    text = L.flatMap line

/-- The text of every directory lists its entries. -/
def Listed (m : FileMap) : Prop := ∀ dir f, m dir = some f → f.type = fsDir → m.Lists dir f.bytes

/-- What keeps the listings right when the file of a path is replaced. A directory is replaced by an
empty one that has no entries. If the parent takes the line, the path is new, the parent is a
directory, and the directory above it does not take a line in turn. If the parent does not take the
line, the path is there already, or the parent is not a directory. -/
structure WriteOk (m : FileMap) (name : CStr) (f : File) : Prop where
  empty : f.type = fsDir → f.bytes = [] ∧ ∀ n, parentDir n = some name → m n = none
  takes : ∀ p, parentDir name = some p → m.Takes p name →
    m name = none ∧ (∃ g, m p = some g ∧ g.type = fsDir) ∧
      ∀ q, parentDir p = some q → ¬ m.Takes q p
  full : ∀ p, parentDir name = some p → ¬ m.Takes p name →
    m name ≠ none ∨ ∀ g, m p = some g → g.type ≠ fsDir

/-- What keeps the listings right when a path is taken away: its parent is not a directory. -/
def EraseOk (m : FileMap) (name : CStr) : Prop :=
  m name ≠ none → ∀ p g, parentDir name = some p → m p = some g → g.type ≠ fsDir

variable {m m' : FileMap} {name dir : CStr} {f : File}

/-- A listing depends only on the entries of the directory. -/
lemma Lists.congr {text : List UInt8} (h : m.Lists dir text)
    (hm : ∀ n, parentDir n = some dir → (m' n = none ↔ m n = none)) : m'.Lists dir text := by
  obtain ⟨L, hnd, hL, rfl⟩ := h
  refine ⟨L, hnd, fun n => (hL n).trans (and_congr_left fun hp => ?_), rfl⟩
  exact not_congr (hm n hp).symm

/-- A listing of a directory without entries. -/
lemma lists_nil (h : ∀ n, parentDir n = some dir → m n = none) : m.Lists dir [] := by
  refine ⟨[], List.nodup_nil, fun n => ⟨fun hn => by simp at hn, fun hn => ?_⟩, rfl⟩
  exact absurd (h n hn.2) hn.1

/-- A listing with a line added lists the new entry too. -/
lemma Lists.add {text : List UInt8} (h : m.Lists dir text) (hnew : m name = none)
    (hp : parentDir name = some dir) (hin : m' name ≠ none)
    (hm : ∀ n, n ≠ name → parentDir n = some dir → (m' n = none ↔ m n = none)) :
    m'.Lists dir (text ++ line name) := by
  obtain ⟨L, hnd, hL, rfl⟩ := h
  have hnot : name ∉ L := fun hmem => ((hL name).mp hmem).1 hnew
  refine ⟨L ++ [name], ?_, fun n => ?_, by simp⟩
  · rw [List.nodup_append]
    refine ⟨hnd, by simp, fun a ha b hb => ?_⟩
    obtain rfl := List.mem_singleton.mp hb
    rintro rfl
    exact hnot ha
  · rw [List.mem_append, List.mem_singleton, hL n]
    by_cases hn : n = name
    · subst hn
      simp [hin, hp]
    · simp only [hn, or_false]
      exact and_congr_left fun hp' => not_congr (hm n hn hp').symm

/-- Replacing the file of one path, that was there before unless its parent is no directory, keeps
every other listing. -/
lemma Listed.store (h : m.Listed) (hempty : f.type = fsDir →
      f.bytes = [] ∧ ∀ n, parentDir n = some name → m n = none)
    (hold : ∀ p, parentDir name = some p →
      m name ≠ none ∨ ∀ g, m p = some g → g.type ≠ fsDir) : (m.store name f).Listed := by
  intro dir g hg ht
  have hself : ∀ {n}, parentDir n = some name → n ≠ name := fun hp e => by
    have := parentDir_length hp
    rw [e] at this
    exact lt_irrefl _ this
  by_cases hd : dir = name
  · subst hd
    by_cases he : dir.bytes = []
    · have hs : m.store dir f = m := by simp [FileMap.store, he]
      rw [hs] at hg ⊢
      exact h dir g hg ht
    · rw [store_same he] at hg
      obtain rfl := Option.some.inj hg
      obtain ⟨hb, hno⟩ := hempty ht
      rw [hb]
      exact lists_nil fun n hp => by rw [store_ne f (hself hp)]; exact hno n hp
  · rw [store_ne f hd] at hg
    refine (h dir g hg ht).congr fun n hp => ?_
    by_cases hn : n = name
    · subst hn
      rcases hold dir hp with hthere | hdir
      · simp [hthere, store_ne_none f hthere]
      · exact absurd ht (hdir g hg)
    · rw [store_ne f hn]

/-- **Replacing a file as `WriteOk` says keeps every listing.** -/
theorem Listed.write (h : m.Listed) (hname : name.bytes ≠ []) (hok : m.WriteOk name f) :
    (m.write name f).Listed := by
  cases hp : parentDir name with
  | none =>
    rw [write_top f hp]
    exact h.store hok.empty fun p hp' => by rw [hp] at hp'; cases hp'
  | some p =>
    by_cases ht : m.Takes p name
    · obtain ⟨hnew, ⟨g, hg, hgt⟩, hup⟩ := hok.takes p hp ht
      have hlt := parentDir_length hp
      have hpn : p ≠ name := fun e => by rw [e] at hlt; exact lt_irrefl _ hlt
      rw [write_of_takes f hp hg ht hup]
      -- besides the two entries that change, the map is as before
      have hm : ∀ n, n ≠ name →
          (((m.store name f).store p ⟨fsDir, g.bytes ++ line name⟩) n = none ↔ m n = none) := by
        intro n hn
        by_cases hnp : n = p
        · subst hnp
          rw [store_same (parentDir_ne_nil hp), hg]
          simp
        · rw [store_ne _ hnp, store_ne _ hn]
      intro dir k hk hkt
      by_cases hdp : dir = p
      · subst hdp
        rw [store_same (parentDir_ne_nil hp)] at hk
        obtain rfl := Option.some.inj hk
        refine (h dir g hg hgt).add hnew hp ?_ fun n hn _ => hm n hn
        rw [store_ne _ hpn.symm, store_same hname]
        simp
      · rw [store_ne _ hdp] at hk
        by_cases hdn : dir = name
        · subst hdn
          rw [store_same hname] at hk
          obtain rfl := Option.some.inj hk
          obtain ⟨hb, hno⟩ := hok.empty hkt
          rw [hb]
          refine lists_nil fun n hn => (hm n ?_).mpr (hno n hn)
          rintro rfl
          exact absurd (parentDir_length hn) (lt_irrefl _)
        · rw [store_ne _ hdn] at hk
          refine (h dir k hk hkt).congr fun n hn => hm n ?_
          rintro rfl
          rw [hp] at hn
          exact hdp (Option.some.inj hn).symm
    · rw [write_of_not_takes f hp ht]
      refine h.store hok.empty fun q hq => ?_
      rw [hp] at hq
      obtain rfl := Option.some.inj hq
      exact hok.full p hp ht

/-- **Taking a path away as `EraseOk` says keeps every listing.** -/
theorem Listed.erase (h : m.Listed) (hok : m.EraseOk name) : (m.erase name).Listed := by
  intro dir g hg ht
  by_cases hd : dir = name
  · subst hd
    rw [erase_same] at hg
    cases hg
  · rw [erase_ne hd] at hg
    refine (h dir g hg ht).congr fun n hp => ?_
    by_cases hn : n = name
    · subst hn
      rw [erase_same]
      by_cases hnone : m n = none
      · simp [hnone]
      · exact absurd ht (hok hnone dir g hp hg)
    · rw [erase_ne hn]

end FileMap

/-! ### Runs -/

/-- What keeps the listings right in one call: it is no append of its own, no end sector exceeds
`2^32 - 1`, and the write or the delete it makes is as `WriteOk` or `EraseOk` says. -/
structure Call.ListOk (s : State) (c : Call) : Prop where
  direct : ∀ dir path, c ≠ .append dir path
  fits : ∀ name type data size, c.writes s = some (name, type, data, size) →
    size < 4294967296 ∧ WriteFits s.sb name type data size s.disk
  write : ∀ name type data size, c.writes s = some (name, type, data, size) →
    CanWrite s.sb s.disk name →
      (view s.sb s.disk).WriteOk name ⟨type, storedBytes data size⟩
  delete : ∀ name, c = .delete name → (view s.sb s.disk).EraseOk name

/-- What a run keeps: a sound directory whose texts list its entries. -/
structure ListInv (s : State) : Prop where
  layout : Layout s.sb
  data_le : s.sb.dataLba ≤ 268435456
  sound : Sound s.sb s.disk
  listed : (view s.sb s.disk).Listed

/-- The empty path names no file, so a write under it leaves the map as it is. -/
lemma FileMap.write_empty {m : FileMap} {name : CStr} (f : File) (h : name.bytes = []) :
    m.write name f = m := by
  have hp : parentDir name = none := by
    obtain ⟨bytes, hb⟩ := name
    simp only at h
    subst h
    rfl
  rw [write_top f hp]
  simp [store, h]

theorem ListInv.step {s : State} (h : ListInv s) {c : Call} (hc : c.ListOk s) :
    ListInv (s.step c) := by
  have hw := h.sound.working
  have hsec : s.sb.dirSectors ≤ 2147483648 := by
    have := h.layout.dir_le
    have := h.data_le
    omega
  suffices hs : Sound s.sb (s.step c).disk ∧ (view s.sb (s.step c).disk).Listed by
    have hsb := step_sb s hw c
    exact ⟨by rw [hsb]; exact h.layout, by rw [hsb]; exact h.data_le, by rw [hsb]; exact hs.1,
      by rw [hsb]; exact hs.2⟩
  rw [step_disk s hw]
  split
  · rename_i name
    rw [fsDelete_working hw]
    split
    · exact ⟨h.sound, h.listed⟩
    · rename_i k hk
      obtain ⟨hlt, hn⟩ := slotOf_some hk
      have hdel := clearSlot_deleted hw h.layout hlt
      refine ⟨hdel.sound h.sound, ?_⟩
      rw [hdel.view_eq h.sound hn]
      exact h.listed.erase (hc.delete name rfl)
  · rename_i dir path
    exact absurd rfl (hc.direct dir path)
  · split
    · exact ⟨h.sound, h.listed⟩
    · rename_i name type data size hwr
      obtain ⟨hsize, hfit⟩ := hc.fits name type data size hwr
      refine ⟨((write_append_rule h.layout (S := Set.univ) (fun _ _ _ _ => trivial)
        (B := 4294967295) (by decide) (by decide) (P := fun _ => True)
        (fun _ _ _ _ _ => trivial)).1 name type data size s.disk trivial (by omega) h.sound trivial
        hfit).1, ?_⟩
      rcases fsWrite_refines h.layout hsec h.sound type data hsize hfit with ⟨hcan, -, hv⟩ | ⟨-, hv⟩
      · rw [hv]
        by_cases he : name.bytes = []
        · rw [FileMap.write_empty _ he]
          exact h.listed
        · exact h.listed.write he (hc.write name type data size hwr hcan)
      · rw [hv]
        exact h.listed

/-- **The directory texts list the entries in every run whose calls are as `ListOk` says**, from an
empty file system on. -/
theorem run_listed {s : State} (hL : Layout s.sb) (hdata : s.sb.dataLba ≤ 268435456)
    (hw : s.disk.Working) (hempty : ∀ k < slotCount s.sb, ¬ Live s.sb s.disk k) {l : List Call}
    (hl : Along State.step (fun s c => c.ListOk s) s l) :
    (view (run State.step s l).sb (run State.step s l).disk).Listed := by
  have hs : ListInv s := by
    refine ⟨hL, hdata, ⟨hw, ⟨fun k hk h => absurd h (hempty k hk), fun j hj _ _ h => absurd h (hempty j hj),
      fun k hk h => absurd h (hempty k hk), fun j hj _ _ h => absurd h (hempty j hj)⟩,
      fun k hk h => absurd h (hempty k hk)⟩, fun dir f hf => ?_⟩
    have hnone : view s.sb s.disk dir = none := by
      rw [view_eq_none, slotOf_eq_none_iff]
      exact fun k hk hn => hempty k hk hn.1
    rw [hnone] at hf
    cases hf
  exact (run_inv (P := ListInv) (fun _ _ h hc => h.step hc) hs hl).listed

theorem run_listed_blank :
    (view (run State.step blank [.mkdir pathD, .write pathDF fsFile (fun _ => 1) 1]).sb
      (run State.step blank [.mkdir pathD, .write pathDF fsFile (fun _ => 1) 1]).disk).Listed := by
  have hfit : Along State.step (fun s c => c.Fits s) blank
      [.mkdir pathD, .write pathDF fsFile (fun _ => 1) 1] :=
    blank_fits (by decide +kernel) (by decide)
  refine run_listed blank_wellFormed.layout (by decide) blank_wellFormed.working
    (fun k _ => blank_not_live k) ⟨⟨fun _ _ e => (by cases e), fun n t dt sz e => ?_,
      fun n t dt sz e _ => ?_, fun _ e => (by cases e)⟩, ⟨fun _ _ e => (by cases e),
      fun n t dt sz e => ?_, fun n t dt sz e _ => ?_, fun _ e => (by cases e)⟩, trivial⟩
  · obtain ⟨h1, h2⟩ := hfit.1.1 n t dt sz e
    exact ⟨by omega, h2⟩
  · cases e
    refine ⟨fun _ => ⟨rfl, fun n _ => ?_⟩, fun _ hp => (by cases hp), fun _ hp => (by cases hp)⟩
    rw [view_eq_none, slotOf_eq_none_iff]
    exact fun k _ hk => blank_not_live k hk.1
  · obtain ⟨h1, h2⟩ := hfit.2.1.1 n t dt sz e
    exact ⟨by omega, h2⟩
  · cases e
    have hnew : view blank.sb (blank.step (.mkdir pathD)).disk pathDF = none := by decide +kernel
    have hdir : view blank.sb (blank.step (.mkdir pathD)).disk pathD = some ⟨fsDir, []⟩ := by
      decide +kernel
    have hpar : parentDir pathDF = some pathD := by decide
    refine ⟨fun e => (by cases e), fun p hp _ => ?_, fun p hp hnt => absurd ?_ hnt⟩
    · rw [hpar] at hp
      cases hp
      exact ⟨hnew, ⟨_, hdir, rfl⟩, fun _ hq => (by cases hq)⟩
    · rw [hpar] at hp
      cases hp
      exact ⟨_, hdir, by decide, fun _ hq => (by cases hq)⟩

/-- **Rewriting a file adds a second line to the directory above it.** -/
theorem rewrite_lists_twice :
    ¬ (view blank.sb (run State.step blank
      [.mkdir pathD, .write pathDF fsFile (fun _ => 1) 1,
        .write pathDF fsFile (fun _ => 2) 1]).disk).Listed := by
  set d := (run State.step blank [.mkdir pathD, .write pathDF fsFile (fun _ => 1) 1,
    .write pathDF fsFile (fun _ => 2) 1]).disk with hd
  intro h
  have hdir : view blank.sb d pathD = some ⟨fsDir, line pathDF ++ line pathDF⟩ := by
    rw [hd]
    decide +kernel
  obtain ⟨L, hnd, hL, htext⟩ := h pathD _ hdir rfl
  have hlive : ∀ k < 16, Live blank.sb d k →
      cstr (nameFrom (slotMem blank.sb d k) (k % 16)) ∈ [pathD.bytes, pathDF.bytes] := by
    rw [hd]
    decide +kernel
  -- the only entry below `d` is `d/f`
  have hall : ∀ n ∈ L, n = pathDF := by
    intro n hn
    obtain ⟨hne, hp⟩ := (hL n).mp hn
    cases hk : slotOf blank.sb d n with
    | none => exact absurd (view_eq_none.mpr hk) hne
    | some k =>
      obtain ⟨hlt, hl, hname⟩ := slotOf_some hk
      have hmem := hlive k hlt hl
      rw [hname] at hmem
      rcases List.mem_cons.mp hmem with e | hmem
      · rw [show n = pathD from CStr.ext e] at hp
        exact absurd hp (by decide)
      · exact CStr.ext (List.mem_singleton.mp hmem)
  have hlen : L.length ≤ 1 := by
    rcases L with _ | ⟨a, _ | ⟨b, L⟩⟩
    · simp
    · simp
    · rw [hall a (by simp), hall b (by simp)] at hnd
      simp at hnd
  have htext' := congrArg List.length htext
  rcases L with _ | ⟨a, _ | ⟨b, L⟩⟩
  · simp [line, pathDF] at htext'
  · rw [hall a (by simp)] at htext'
    simp [line, pathDF] at htext'
  · simp at hlen

end LunariaOS.Fs
