import LunariaOS.Fs.Inv

/-!
The rule for whole calls of `fs_write` and `fs_append`.

A call of `fs_write` is a chain of single writes: the entry named in the call, then the directory
above it, and so on up the path. `WriteFits` says that no write of the chain runs past the 32-bit
sector numbers, `Sound` is what every write of the chain needs and keeps, and the rule
`fsWrite_rule` carries a property through the chain: what each single write under a name of the path
keeps, the whole call keeps.
-/

namespace LunariaOS.Fs

open LunariaOS.Lib

/-- The directory text that `fs_append` writes back. -/
def appendText (d : Disk) (e : FileEntry) (path : CStr) : Mem :=
  appendLine (Mem.blit (fun _ => 0) 0 e.size fun i => fileByte d e.lba i) e.size path

mutual

/-- No end sector that the call `fs_write` computes, for its own entry or for the directories above
it, exceeds `2^32 - 1`. -/
def WriteFits (sb : Superblock) (name : CStr) (type : UInt8) (data : Mem) (size : ℕ) (d : Disk) :
    Prop :=
  CanWrite sb d name → endSector sb d name size ≤ 4294967295 ∧
    ∀ p, (_h : parentDir name = some p) →
      AppendFits sb p name (writeDisk sb d name type data size)
termination_by 2 * name.length
decreasing_by
  have := parentDir_length _h
  omega

/-- No end sector that the call `fs_append` computes exceeds `2^32 - 1`. -/
def AppendFits (sb : Superblock) (dir path : CStr) (d : Disk) : Prop :=
  ∀ k, slotOf sb d dir = some k → (entry sb d k).size + path.length + 1 < dirBufSize →
    WriteFits sb dir fsDir (appendText d (entry sb d k) path)
      ((entry sb d k).size + path.length + 1) d
termination_by 2 * dir.length + 1

end

variable {sb : Superblock} {d d' : Disk}

/-- What every write needs and keeps. -/
structure Sound (sb : Superblock) (d : Disk) : Prop where
  working : d.Working
  dirOk : DirOk sectorsOf sb d
  ends : EndsBy sectorsOf sb d 4294967295

lemma Written.sound {name : CStr} {type : UInt8} {data : Mem} {size k lba : ℕ}
    (h : Written sb d d' name type data size k lba) (hd : Sound sb d) : Sound sb d' :=
  ⟨h.working, h.dirOk hd.dirOk hd.ends, h.endsBy hd.ends h.fits⟩

/-! ### The two functions on a working disk -/

theorem fsWrite_working (hw : d.Working) (hN : sb.dirSectors < 4294967296) (name : CStr)
    (type : UInt8) (data : Mem) (size : ℕ) :
    fsWrite sb name type data size d =
      if CanWrite sb d name then
        (0, match parentDir name with
          | none => writeDisk sb d name type data size
          | some p => (fsAppend sb p name (writeDisk sb d name type data size)).2)
      else (-1, d) := by
  rw [fsWrite, writeEntry_working hw hN]
  split_ifs with hc
  · simp only
    split
    · rename_i h
      rw [h]
    · rename_i p h
      rw [h]
  · rfl

theorem fsAppend_working (hw : d.Working) (dir path : CStr) :
    fsAppend sb dir path d =
      match slotOf sb d dir with
      | none => (-1, d)
      | some k =>
        if (entry sb d k).size + path.length + 1 < dirBufSize then
          fsWrite sb dir fsDir (appendText d (entry sb d k) path)
            ((entry sb d k).size + path.length + 1) d
        else (-1, d) := by
  rw [fsAppend, fsFind_working hw]
  cases slotOf sb d dir with
  | none => rfl
  | some k =>
    simp only [Option.map_some]
    rw [readLoop_working hw _ _ _ _ (dvd_zero _)]
    by_cases h1 : (entry sb d k).size ≥ dirBufSize
    · rw [if_pos h1, if_neg (by omega)]
    · rw [if_neg h1]
      simp only [Nat.zero_add]
      by_cases h2 : (entry sb d k).size + path.length + 1 ≥ dirBufSize
      · rw [if_pos h2, if_neg (by omega)]
      · rw [if_neg h2, if_pos (by omega)]
        rfl

/-! ### The rule -/

/-- A set of names that has, with a path, the directories above it. -/
def Upward (S : Set CStr) : Prop := ∀ n ∈ S, ∀ p, parentDir n = some p → p ∈ S

section Rule

variable (hL : Layout sb) {S : Set CStr} (hS : Upward S) {B : ℕ} (hB : dirBufSize ≤ B)
  (hB' : B < 4294967296) {P : Disk → Prop}
  (hstep : ∀ {d d' n type data size k lba}, n ∈ S → size ≤ B → Sound sb d → P d →
    Written sb d d' n type data size k lba → P d')

include hL hS hB hB' hstep

/-- **The rule for `fs_write` and `fs_append`.** What every single write of at most `B` bytes under a
name of an upward set keeps, a call under a name of the set keeps. -/
theorem write_append_rule :
    (∀ name type data size d, name ∈ S → size ≤ B → Sound sb d → P d →
      WriteFits sb name type data size d →
      Sound sb (fsWrite sb name type data size d).2 ∧ P (fsWrite sb name type data size d).2) ∧
    (∀ dir path d, dir ∈ S → Sound sb d → P d → AppendFits sb dir path d →
      Sound sb (fsAppend sb dir path d).2 ∧ P (fsAppend sb dir path d).2) := by
  -- the induction is on the length of the path, a write counting less than the append into it
  have key : ∀ n : ℕ,
      (∀ name type data size d, 2 * name.length = n → name ∈ S → size ≤ B → Sound sb d →
        P d → WriteFits sb name type data size d →
        Sound sb (fsWrite sb name type data size d).2 ∧ P (fsWrite sb name type data size d).2) ∧
      (∀ dir path d, 2 * dir.length + 1 = n → dir ∈ S → Sound sb d → P d →
        AppendFits sb dir path d →
        Sound sb (fsAppend sb dir path d).2 ∧ P (fsAppend sb dir path d).2) := by
    intro n
    induction n using Nat.strong_induction_on with
    | _ n ih =>
      refine ⟨fun name type data size d hn hname hsize hd hP hfit => ?_,
        fun dir path d hn hdir hd hP hfit => ?_⟩
      · rw [fsWrite_working hd.working hL.sectors_lt]
        split_ifs with hc
        · rw [WriteFits] at hfit
          obtain ⟨hend, hup⟩ := hfit hc
          have hwr := writeDisk_written hd.working hL hd.dirOk type data hc
            (lt_of_le_of_lt hsize hB') hend
          have hd' := hwr.sound hd
          have hP' := hstep hname hsize hd hP hwr
          split
          · exact ⟨hd', hP'⟩
          · rename_i p hp
            have hlt := parentDir_length hp
            exact (ih (2 * p.length + 1) (by omega)).2 p name _ rfl (hS name hname p hp) hd' hP'
              (hup p hp)
        · exact ⟨hd, hP⟩
      · rw [fsAppend_working hd.working]
        rw [AppendFits] at hfit
        split
        · exact ⟨hd, hP⟩
        · rename_i k hk
          split_ifs with hroom
          · exact (ih (2 * dir.length) (by omega)).1 dir _ _ _ d rfl hdir
              (by omega) hd hP (hfit k hk hroom)
          · exact ⟨hd, hP⟩
  exact ⟨fun name type data size d => (key _).1 name type data size d rfl,
    fun dir path d => (key _).2 dir path d rfl⟩

end Rule

end LunariaOS.Fs
