import LunariaOS.Fs.Calls

/-!
How much room a call needs.

A write ends at most its own sectors past the end of every file, and the rewrite of a directory
takes at most four sectors. So a call that starts with every file below the sector `t` fits when
there is room above `t` for its data and for four sectors a directory of its path (`write_room`), and
a run of small calls fits as long as the room lasts (`along_fits`).
-/

namespace LunariaOS.Fs

open LunariaOS.Lib

variable {sb : Superblock} {d : Disk}

/-- A directory text takes up at most four sectors. -/
lemma sectorsOf_text {n : ℕ} (h : n < dirBufSize) : sectorsOf n ≤ 4 := by
  unfold dirBufSize at h
  rw [sectorsOf_eq (by omega)]
  omega

section Room

variable (hL : Layout sb) {t : ℕ} (ht : sb.dataLba ≤ t)

include hL ht

/-- A write ends at most its own sectors past every file. -/
lemma endSector_le (he : EndsBy sectorsOf sb d t) (name : CStr) (size : ℕ) :
    endSector sb d name size ≤ t + sectorsOf size := by
  have hok := scan_ok (d := d) hL.sectors_lt name
  have hnext : (scan sb d name).nextFree ≤ t := by
    rcases hok.next_eq with h | ⟨k, hk, hl, h⟩
    · omega
    · have := he k hk hl
      have := u32_le ((entry sb d k).lba + sectorsOf (entry sb d k).size)
      unfold lastOf at h
      omega
  unfold endSector writeLba Scan.writeLba
  split_ifs with hin
  · -- in place: the old sectors of the file end below `t`
    simp only [Bool.and_eq_true, decide_eq_true_eq] at hin
    obtain ⟨k, hk, hn, hlba, hcap, -⟩ := hok.hit hin.1
    have := he k hk hn.1
    omega
  · omega

end Room

/-- **The room that `fs_write` and `fs_append` need**, and where the files end after them. -/
theorem write_append_room (hL : Layout sb) (n : ℕ) :
    (∀ name type data size d t, 2 * name.length = n → sb.dataLba ≤ t → Sound sb d →
      EndsBy sectorsOf sb d t → size < 4294967296 →
      t + sectorsOf size + 4 * name.length ≤ 4294967295 →
      WriteFits sb name type data size d ∧
        EndsBy sectorsOf sb (fsWrite sb name type data size d).2
          (t + sectorsOf size + 4 * name.length)) ∧
    (∀ dir path d t, 2 * dir.length + 1 = n → sb.dataLba ≤ t → Sound sb d →
      EndsBy sectorsOf sb d t → t + 4 * (dir.length + 1) ≤ 4294967295 →
      AppendFits sb dir path d ∧
        EndsBy sectorsOf sb (fsAppend sb dir path d).2 (t + 4 * (dir.length + 1))) := by
  have mono : ∀ {d : Disk} {a b : ℕ}, a ≤ b → EndsBy sectorsOf sb d a → EndsBy sectorsOf sb d b :=
    fun hab h k hk hl => (h k hk hl).trans hab
  induction n using Nat.strong_induction_on with
  | _ n ih =>
    refine ⟨fun name type data size d t hn ht hd he hs hroom => ?_,
      fun dir path d t hn ht hd he hroom => ?_⟩
    · rw [WriteFits, fsWrite_working hd.working hL.sectors_lt]
      by_cases hc : CanWrite sb d name
      · have hend := endSector_le hL ht he name size
        have hwr := writeDisk_written hd.working hL hd.dirOk type data hc hs (by omega)
        have he' : EndsBy sectorsOf sb (writeDisk sb d name type data size) (t + sectorsOf size) :=
          hwr.endsBy (mono (by omega) he) hend
        have hd' := hwr.sound hd
        rw [if_pos hc]
        split
        · rename_i hp
          exact ⟨fun _ => ⟨by omega, fun p hp' => by rw [hp] at hp'; cases hp'⟩,
            mono (by omega) he'⟩
        · rename_i p hp
          have hlt := parentDir_length hp
          obtain ⟨h1, h2⟩ := (ih (2 * p.length + 1) (by omega)).2 p name _ (t + sectorsOf size) rfl
            (by omega) hd' he' (by omega)
          refine ⟨fun _ => ⟨by omega, fun q hq => ?_⟩, mono (by omega) h2⟩
          obtain rfl : p = q := by rw [hp] at hq; exact Option.some.inj hq
          exact h1
      · rw [if_neg hc]
        exact ⟨fun h => absurd h hc, mono (by omega) he⟩
    · rw [AppendFits, fsAppend_working hd.working]
      cases hk : slotOf sb d dir with
      | none => exact ⟨fun _ h => (by cases h), mono (by omega) he⟩
      | some k =>
        by_cases hsmall : (entry sb d k).size + path.length + 1 < dirBufSize
        · have h4 := sectorsOf_text hsmall
          have hlt : (entry sb d k).size + path.length + 1 < 4294967296 := by
            unfold dirBufSize at hsmall
            omega
          obtain ⟨h1, h2⟩ := (ih (2 * dir.length) (by omega)).1 dir fsDir
            (appendText d (entry sb d k) path) ((entry sb d k).size + path.length + 1) d t rfl ht hd
            he hlt (by omega)
          refine ⟨fun j hj _ => ?_, ?_⟩
          · obtain rfl := Option.some.inj hj
            exact h1
          · simp only [if_pos hsmall]
            exact mono (by omega) h2
        · refine ⟨fun j hj h => ?_, ?_⟩
          · obtain rfl := Option.some.inj hj
            exact absurd h hsmall
          · simp only [if_neg hsmall]
            exact mono (by omega) he

/-! ### Small calls -/

/-- A call asks for at most as many bytes as the buffer of a writable handle holds. -/
def Call.Small (s : State) (c : Call) : Prop :=
  ∀ name type data size, c.writes s = some (name, type, data, size) → size ≤ fdBufSize

instance (s : State) (c : Call) : Decidable (c.Small s) :=
  match h : c.writes s with
  | none => isTrue fun _ _ _ _ e => by rw [h] at e; cases e
  | some (_, _, _, size) =>
    if hs : size ≤ fdBufSize then isTrue fun _ _ _ _ e => by rw [h] at e; cases e; exact hs
    else isFalse fun hc => hs (hc _ _ _ _ h)

lemma EndsBy.mono {cnt : ℕ → ℕ} {a b : ℕ} (he : EndsBy cnt sb d a) (hab : a ≤ b) :
    EndsBy cnt sb d b := fun k hk hl => (he k hk hl).trans hab

/-- A name is at most 22 bytes long, so a write has at most 21 directories above it. -/
lemma fsWrite_room (hL : Layout sb) {t : ℕ} (ht : sb.dataLba ≤ t) (hd : Sound sb d)
    (he : EndsBy sectorsOf sb d t) (name : CStr) (type : UInt8) (data : Mem) {size : ℕ}
    (hs : size < 4294967296) (hroom : t + sectorsOf size + 88 ≤ 4294967295) :
    WriteFits sb name type data size d ∧
      EndsBy sectorsOf sb (fsWrite sb name type data size d).2 (t + sectorsOf size + 88) := by
  by_cases hn : name.length < fsMaxName
  · unfold fsMaxName at hn
    obtain ⟨h1, h2⟩ := (write_append_room hL _).1 name type data size d t rfl ht hd he hs (by omega)
    exact ⟨h1, h2.mono (by omega)⟩
  · rw [WriteFits, fsWrite_working hd.working hL.sectors_lt, if_neg fun h => hn h.1]
    exact ⟨fun h => absurd h.1 hn, he.mono (by omega)⟩

lemma fsAppend_room (hL : Layout sb) {t : ℕ} (ht : sb.dataLba ≤ t) (hd : Sound sb d)
    (he : EndsBy sectorsOf sb d t) (dir path : CStr) (hroom : t + 92 ≤ 4294967295) :
    AppendFits sb dir path d ∧ EndsBy sectorsOf sb (fsAppend sb dir path d).2 (t + 92) := by
  rw [AppendFits, fsAppend_working hd.working]
  cases hk : slotOf sb d dir with
  | none => exact ⟨fun _ h => (by cases h), he.mono (by omega)⟩
  | some k =>
    by_cases hsmall : (entry sb d k).size + path.length + 1 < dirBufSize
    · have h4 := sectorsOf_text hsmall
      have hlt : (entry sb d k).size + path.length + 1 < 4294967296 := by
        unfold dirBufSize at hsmall
        omega
      obtain ⟨h1, h2⟩ := fsWrite_room hL ht hd he dir fsDir (appendText d (entry sb d k) path)
        hlt (by omega)
      refine ⟨fun j hj _ => ?_, ?_⟩
      · obtain rfl := Option.some.inj hj
        exact h1
      · simp only [if_pos hsmall]
        exact h2.mono (by omega)
    · refine ⟨fun j hj h => ?_, ?_⟩
      · obtain rfl := Option.some.inj hj
        exact absurd h hsmall
      · simp only [if_neg hsmall]
        exact he.mono (by omega)

lemma Call.Small.fits {s : State} {c : Call} (h : c.Small s) (hL : Layout s.sb) {t : ℕ}
    (ht : s.sb.dataLba ≤ t) (hd : Sound s.sb s.disk) (he : EndsBy sectorsOf s.sb s.disk t)
    (hroom : t + 216 ≤ 4294967295) :
    c.Fits s ∧ EndsBy sectorsOf s.sb (s.step c).disk (t + 216) := by
  refine ⟨⟨fun name type data size hwr => ?_, fun dir path _ => ?_⟩, ?_⟩
  · have hsize := h name type data size hwr
    unfold fdBufSize at hsize
    have hcnt : sectorsOf size = (size + 511) / 512 := sectorsOf_eq (by omega)
    exact ⟨by omega, (fsWrite_room hL ht hd he name type data (by omega) (by omega)).1⟩
  · exact (fsAppend_room hL ht hd he dir path (by omega)).1
  · rw [step_disk s hd.working]
    split
    · rename_i name
      rw [fsDelete_working hd.working]
      split
      · exact he.mono (by omega)
      · rename_i k hk
        have hdel := clearSlot_deleted hd.working hL (slotOf_some hk).1
        intro j hj hl
        obtain ⟨hl', hjk⟩ := (hdel.live hj).mp hl
        rw [hdel.entry_ne j hj hjk]
        exact (he j hj hl').trans (by omega)
    · rename_i dir path
      exact (fsAppend_room hL ht hd he dir path (by omega)).2.mono (by omega)
    · split
      · exact he.mono (by omega)
      · rename_i name type data size hwr
        have hsize := h name type data size hwr
        unfold fdBufSize at hsize
        have hcnt : sectorsOf size = (size + 511) / 512 := sectorsOf_eq (by omega)
        exact (fsWrite_room hL ht hd he name type data (by omega) (by omega)).2.mono (by omega)

/-- **A run of small calls fits as long as there are 216 sectors of room a call.** -/
theorem along_fits {s : State} (hL : Layout s.sb) {t : ℕ} (ht : s.sb.dataLba ≤ t)
    (hd : Sound s.sb s.disk) (he : EndsBy sectorsOf s.sb s.disk t) {l : List Call}
    (hl : Along State.step (fun s c => c.Small s) s l) (hroom : t + 216 * l.length ≤ 4294967295) :
    Along State.step (fun s c => c.Fits s) s l := by
  induction l generalizing s t with
  | nil => trivial
  | cons c l ih =>
    rw [List.length_cons] at hroom
    obtain ⟨hfit, he'⟩ := hl.1.fits hL ht hd he (by omega)
    have hsb := step_sb s hd.working c
    have hd' := (step_rule hL (S := Set.univ) (fun _ _ _ _ => trivial) (P := fun _ => True)
      (fun _ _ _ _ _ => trivial) (fun _ _ _ _ _ => trivial) rfl (fun _ _ => trivial) hfit hd
      trivial).1
    rw [← hsb] at hd' he' hL ht
    exact ⟨hfit, ih hL (by omega) hd' he' hl.2 (by omega)⟩

end LunariaOS.Fs
