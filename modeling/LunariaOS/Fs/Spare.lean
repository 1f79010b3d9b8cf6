import LunariaOS.Fs.Durable
import LunariaOS.Fs.Table

/-!
Calls that spare a file.

A call on another path can still reach the file `name`: a write below it appends a line to it. That
makes the file longer, so a call that does not aim at `name` and leaves the size in its entry as it
was has left the whole file alone, its place on the disk included.
-/

namespace LunariaOS.Fs

open LunariaOS.Lib

variable {sb : Superblock} {d d' : Disk} {name : CStr} {k : ℕ} {e : FileEntry} {f : File}

/-- The file `name` has the slot number `k`, the entry `e` and the contents `f`. -/
structure Holds (sb : Superblock) (d : Disk) (name : CStr) (k : ℕ) (e : FileEntry) (f : File) :
    Prop where
  slot : slotOf sb d name = some k
  entry_eq : entry sb d k = e
  file_eq : fileAt sb d k = f

/-- The file `name` has the slot number `k` and is longer than the entry `e` says. -/
structure Grown (sb : Superblock) (d : Disk) (name : CStr) (k : ℕ) (e : FileEntry) : Prop where
  slot : slotOf sb d name = some k
  longer : e.size < (entry sb d k).size

section Written

variable {n : CStr} {type : UInt8} {data : Mem} {size j lba : ℕ}
  (h : Written sb d d' n type data size j lba) (hd : Sound sb d)

include h hd

/-- A write of another path goes to another slot and leaves this one as it is. -/
lemma Written.slot_ne (hn : n ≠ name) (hk : slotOf sb d name = some k) :
    k ≠ j ∧ slotOf sb d' name = some k := by
  obtain ⟨hlt, hnk⟩ := slotOf_some hk
  have hkj : k ≠ j := by
    rintro rfl
    rcases h.target.slot with hnamed | ⟨hfree, -⟩
    · exact hn (CStr.ext (hnamed.2.symm.trans hnk.2))
    · exact hfree hnk.1
  refine ⟨hkj, ((h.sound hd).dirOk.slotOf_eq hlt).mpr ?_⟩
  obtain ⟨hl, hname⟩ := (hd.dirOk.named_iff hlt).mp hnk
  exact ((h.sound hd).dirOk.named_iff hlt).mpr
    ⟨(h.live_ne hlt hkj).mpr hl, (h.nameOf_ne hlt hkj).trans hname⟩

lemma Written.holds (hn : n ≠ name) (hh : Holds sb d name k e f) : Holds sb d' name k e f := by
  obtain ⟨hkj, hslot⟩ := h.slot_ne hd hn hh.slot
  obtain ⟨hlt, hnk⟩ := slotOf_some hh.slot
  exact ⟨hslot, (h.entry_ne k hlt hkj).trans hh.entry_eq,
    (h.fileAt_ne hd hlt hnk.1 hkj).trans hh.file_eq⟩

lemma Written.grown (hn : n ≠ name) (hg : Grown sb d name k e) : Grown sb d' name k e := by
  obtain ⟨hkj, hslot⟩ := h.slot_ne hd hn hg.slot
  exact ⟨hslot, by rw [h.entry_ne k (slotOf_some hg.slot).1 hkj]; exact hg.longer⟩

/-- A write of the file itself, with more bytes than before. -/
lemma Written.grows (hn : n = name) (hh : Holds sb d name k e f) (hs : e.size < size) :
    Grown sb d' name k e := by
  subst hn
  obtain ⟨hlt, hnk⟩ := slotOf_some hh.slot
  have hkj : k = j := by
    by_contra hne
    exact h.other_name hd.dirOk hlt hnk.1 hne ((hd.dirOk.named_iff hlt).mp hnk).2
  subst hkj
  refine ⟨((h.sound hd).dirOk.slotOf_eq hlt).mpr (((h.sound hd).dirOk.named_iff hlt).mpr
    ⟨h.live_iff.mpr fun he => ?_, h.nameOf_eq⟩), by rw [h.entry_eq]; exact hs⟩
  exact nameOf_ne_nil hnk.1 (((hd.dirOk.named_iff hlt).mp hnk).2.trans he)

end Written

lemma Deleted.holds {n : CStr} {j : ℕ} (h : Deleted sb d d' j) (hd : Sound sb d)
    (hj : Named sb d n j) (hn : n ≠ name) (hh : Holds sb d name k e f) :
    Holds sb d' name k e f := by
  obtain ⟨hlt, hnk⟩ := slotOf_some hh.slot
  have hkj : k ≠ j := by
    rintro rfl
    exact hn (CStr.ext (hj.2.symm.trans hnk.2))
  obtain ⟨hl, hname⟩ := (hd.dirOk.named_iff hlt).mp hnk
  have hent := h.entry_ne k hlt hkj
  refine ⟨((h.sound hd).dirOk.slotOf_eq hlt).mpr (((h.sound hd).dirOk.named_iff hlt).mpr
    ⟨(h.live hlt).mpr ⟨hl, hkj⟩, ?_⟩), hent.trans hh.entry_eq,
    (h.fileAt_ne hd hlt hnk.1 hkj).trans hh.file_eq⟩
  unfold nameOf at hname ⊢
  rw [hent, hname]

/-- **A write or an append reaches the file of another path only by making it longer.** -/
theorem write_append_spares (hL : Layout sb) :
    (∀ n type data size d, n ≠ name → size ≤ 4294966784 → Sound sb d → Holds sb d name k e f →
      WriteFits sb n type data size d →
      Holds sb (fsWrite sb n type data size d).2 name k e f ∨
        Grown sb (fsWrite sb n type data size d).2 name k e) ∧
    (∀ dir path d, Sound sb d → Holds sb d name k e f → AppendFits sb dir path d →
      Holds sb (fsAppend sb dir path d).2 name k e f ∨
        Grown sb (fsAppend sb dir path d).2 name k e) := by
  -- the induction is on the length of the path, a write counting less than the append into it
  have key : ∀ m : ℕ,
      (∀ n type data size d, 2 * n.length = m → n ≠ name → size ≤ 4294966784 → Sound sb d →
        Holds sb d name k e f → WriteFits sb n type data size d →
        Holds sb (fsWrite sb n type data size d).2 name k e f ∨
          Grown sb (fsWrite sb n type data size d).2 name k e) ∧
      (∀ dir path d, 2 * dir.length + 1 = m → Sound sb d → Holds sb d name k e f →
        AppendFits sb dir path d →
        Holds sb (fsAppend sb dir path d).2 name k e f ∨
          Grown sb (fsAppend sb dir path d).2 name k e) := by
    intro m
    induction m using Nat.strong_induction_on with
    | _ m ih =>
      refine ⟨fun n type data size d hm hn hs hd hh hfit => ?_,
        fun dir path d hm hd hh hfit => ?_⟩
      · rw [fsWrite_working hd.working hL.sectors_lt]
        split_ifs with hc
        · rw [WriteFits] at hfit
          obtain ⟨hend, hup⟩ := hfit hc
          have hwr := writeDisk_written hd.working hL hd.dirOk type data hc (by omega) hend
          have hh' := hwr.holds hd hn hh
          split
          · exact Or.inl hh'
          · rename_i p hp
            have hlt := parentDir_length hp
            exact (ih (2 * p.length + 1) (by omega)).2 p n _ rfl (hwr.sound hd) hh' (hup p hp)
        · exact Or.inl hh
      · rw [fsAppend_working hd.working]
        rw [AppendFits] at hfit
        split
        · exact Or.inl hh
        · rename_i j hj
          split_ifs with hroom
          · have hfit' := hfit j hj hroom
            have hsmall : (entry sb d j).size + path.length + 1 ≤ 4294966784 :=
              hroom.le.trans (by decide)
            by_cases hdir : dir = name
            · -- the line goes into the file itself
              obtain rfl : k = j := by
                rw [hdir] at hj
                exact Option.some.inj (hh.slot.symm.trans hj)
              rw [fsWrite_working hd.working hL.sectors_lt]
              split_ifs with hc
              · rw [WriteFits] at hfit'
                obtain ⟨hend, hup⟩ := hfit' hc
                have hwr := writeDisk_written hd.working hL hd.dirOk fsDir
                  (appendText d (entry sb d k) path) hc (by omega) hend
                have hg := hwr.grows hd hdir hh (by rw [← hh.entry_eq]; omega)
                split
                · exact Or.inr hg
                · rename_i p hp
                  exact Or.inr ((write_append_rule hL (upward_apart name) (B := dirBufSize) le_rfl
                    (by decide) (P := fun d => Grown sb d name k e)
                    (fun hn _ hd hP hwr => hwr.grown hd hn.1 hP)).2 p dir _
                    (by rw [hdir] at hp; exact parent_apart hp) (hwr.sound hd) hg (hup p hp)).2
              · exact Or.inl hh
            · exact (ih (2 * dir.length) (by omega)).1 dir _ _ _ d rfl hdir hsmall hd hh hfit'
          · exact Or.inl hh
  exact ⟨fun n type data size d => (key _).1 n type data size d rfl,
    fun dir path d => (key _).2 dir path d rfl⟩

/-- The call leaves the disk as it is; or it does not aim at `name` and leaves the size in the entry
of `name` as it is. -/
def Spares (s : State) (c : Call) (name : CStr) : Prop :=
  (s.step c).disk = s.disk ∨
    (∀ n, c.target s = some n → n ≠ name) ∧
      ∀ k, slotOf s.sb s.disk name = some k →
        (entry s.sb (s.step c).disk k).size = (entry s.sb s.disk k).size

/-- **A call that spares a file leaves it alone.** -/
theorem step_spares {s : State} (hs : WellFormed s.sb s.disk) {c : Call} (hfit : c.Fits s)
    (hc : Spares s c name) (hh : Holds s.sb s.disk name k e f) :
    Holds s.sb (s.step c).disk name k e f := by
  rcases hc with hsame | ⟨htarget, hsize⟩
  · rw [hsame]
    exact hh
  have hd := hs.sound
  have spare : ∀ {d'}, d' = (s.step c).disk → Holds s.sb d' name k e f ∨ Grown s.sb d' name k e →
      Holds s.sb d' name k e f := by
    rintro d' rfl (h | h)
    · exact h
    · have := h.longer
      rw [hsize k hh.slot, hh.entry_eq] at this
      omega
  have hdisk := step_disk s hd.working c
  refine spare rfl ?_
  rw [hdisk]
  split
  · rename_i n
    rw [fsDelete_working hd.working]
    split
    · exact Or.inl hh
    · rename_i j hj
      obtain ⟨hlt, hnj⟩ := slotOf_some hj
      exact Or.inl ((clearSlot_deleted hd.working hs.layout hlt).holds hd hnj (htarget n rfl) hh)
  · rename_i dir path
    exact (write_append_spares hs.layout).2 dir path _ hd hh (hfit.2 dir path rfl)
  · split
    · exact Or.inl hh
    · rename_i n type data size hwr
      obtain ⟨hsz, hfits⟩ := hfit.1 n type data size hwr
      exact (write_append_spares hs.layout).1 n type data size _ (htarget n (writes_target hwr)) hsz
        hd hh hfits

/-! ### The handles -/

/-- A call that is not on the descriptor `fd`. -/
def Call.Elsewhere (fd : ℤ) : Call → Prop
  | .readFd fd' _ => fd' ≠ fd
  | .writeFd fd' _ _ => fd' ≠ fd
  | .seek fd' _ _ => fd' ≠ fd
  | .close fd' => fd' ≠ fd
  | _ => True

/-- A call elsewhere leaves a handle in use as it is. -/
lemma Call.Elsewhere.handle {s : State} {c : Call} {i : Fin 8} (hc : c.Elsewhere (fdOf i))
    (hu : (s.handles i).used = true) : (s.step c).handles i = s.handles i := by
  cases c with
  | write | mkdir | delete | append => rfl
  | openFd n flags => exact fsOpen_handles s n flags hu
  | readFd fd n => exact Op.other_handle s (o := .readFd fd (fun _ => 0) n) rfl hc
  | writeFd fd buf n => exact Op.other_handle s (o := .writeFd fd buf n) rfl hc
  | seek fd off whence => exact Op.other_handle s (o := .seek fd off whence) rfl hc
  | close fd => exact Op.other_handle s (o := .close fd) rfl hc

end LunariaOS.Fs
