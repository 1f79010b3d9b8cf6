import LunariaOS.Edit.Code
import LunariaOS.Fs.Durable
import LunariaOS.Fs.Frame

/-!
A session with the editor loses no text by accident.

`kept` is the text of the last successful load, the last successful save or the last emptied buffer,
whichever came last. A buffer that is not marked dirty holds it, so what replaces only clean buffers
loses nothing. A saved text is in the file because a write that returns 0 puts its data there.
-/

namespace LunariaOS.Edit.State

open LunariaOS.Lib LunariaOS.Fs

/-- The editor, and the text that counts as kept. -/
structure Tracked where
  s : State
  kept : List UInt8

/-- What a key that did `r.1` and led to `r.2` makes of the text that counts as kept. -/
def Tracked.next (t : Tracked) (r : Did × State) : Tracked where
  s := r.2
  kept := if r.1 = .loaded ∨ r.1 = .saved ∨ r.1 = .reset then r.2.text else t.kept

def track (sb : Superblock) (t : Tracked) (k : ℤ) : Tracked := t.next (key sb t.s k)

/-- What the editor promises when a key did `r.1` and led to `r.2`. -/
structure Safe (sb : Superblock) (t : Tracked) (r : Did × State) : Prop where
  /-- A buffer that is not dirty holds the kept text. -/
  clean : r.2.dirty = false → r.2.text = (t.next r).kept
  /-- Another text takes the place of the buffer only where it holds the kept text. -/
  replaced : r.1 = .loaded ∨ r.1 = .reset → t.s.text = t.kept
  /-- The editor is left with the kept text, or by force. -/
  left : t.s.quit = false → r.2.quit = true → r.1 = .forced ∨ r.2.text = (t.next r).kept
  /-- A saved text is in the file. -/
  stored : r.1 = .saved → ∀ buf max, r.2.len ≤ max → fsRead sb r.2.fname buf max r.2.disk =
    ((r.2.len : ℤ), buf.blit 0 r.2.len r.2.buf, r.2.disk)

/-! ### What a key does -/

variable {sb : Superblock} {s : State}

/-- The kinds of keys: what each leaves of the state, and when it can happen. -/
inductive Does (sb : Superblock) (s : State) : Did × State → Prop where
  | idle (p : ℕ) (m : Bool) (c : List UInt8) :
      Does sb s (.nothing, { s with pos := p, cmdMode := m, cmd := c })
  | edit (b : Mem) (n p : ℕ) (hn : n < bufMax) :
      Does sb s (.nothing, { s with buf := b, len := n, pos := p, dirty := true })
  | leave (hd : s.dirty = false) : Does sb s (.nothing, { s with cmdMode := false, quit := true })
  | force : Does sb s (.forced, { s with cmdMode := false, quit := true })
  | save (name : CStr) (q : Bool) (hname : name.bytes ≠ [])
      (h : (fsWrite sb name fsFile s.buf s.len s.disk).1 = 0) :
      Does sb s (.saved, { s with
        cmdMode := false
        fname := name
        dirty := false
        quit := q
        disk := (fsWrite sb name fsFile s.buf s.len s.disk).2 })
  | unsaved (name : CStr) :
      Does sb s (.nothing, { s with
        cmdMode := false
        disk := (fsWrite sb name fsFile s.buf s.len s.disk).2 })
  | load (name : CStr) (hd : s.dirty = false)
      (h : 0 ≤ (fsRead sb name s.buf (bufMax - 1) s.disk).1) :
      Does sb s (.loaded, { s with
        cmdMode := false
        buf := (fsRead sb name s.buf (bufMax - 1) s.disk).2.1
        len := (fsRead sb name s.buf (bufMax - 1) s.disk).1.toNat
        pos := 0
        dirty := false
        fname := name
        disk := (fsRead sb name s.buf (bufMax - 1) s.disk).2.2 })
  | unloaded (name : CStr) (h : (fsRead sb name s.buf (bufMax - 1) s.disk).1 < 0) :
      Does sb s (.nothing, { s with
        cmdMode := false
        buf := (fsRead sb name s.buf (bufMax - 1) s.disk).2.1
        disk := (fsRead sb name s.buf (bufMax - 1) s.disk).2.2 })
  | reset (hd : s.dirty = false) :
      Does sb s (.reset, { s with
        cmdMode := false
        len := 0
        pos := 0
        dirty := false
        fname := CStr.empty })

lemma insert_does (c : UInt8) (n : ℕ) :
    Does sb s (.nothing, s.doInsert c n) := by
  unfold doInsert
  split_ifs with h
  · exact .idle s.pos s.cmdMode s.cmd
  · exact .edit _ (s.len + n) _ (by omega)

lemma backspace_does (hl : s.len < bufMax) : Does sb s (.nothing, s.doBackspace) := by
  unfold doBackspace
  split_ifs with h
  · exact .idle s.pos s.cmdMode s.cmd
  · exact .edit _ (s.len - 1) _ (by omega)

lemma edit_does (k : ℤ) (hl : s.len < bufMax) : Does sb s (.nothing, s.editKey k) := by
  have hmove : ∀ p, Does sb s (.nothing, { s with pos := p }) := fun p => .idle p s.cmdMode s.cmd
  unfold editKey
  dsimp only
  split_ifs
  · exact .idle s.pos true []
  · exact hmove _
  · exact hmove _
  · exact hmove _
  · exact hmove _
  · exact hmove _
  · exact hmove _
  · exact hmove _
  · exact hmove _
  · exact backspace_does hl
  · exact insert_does _ _
  · exact insert_does _ _
  · exact insert_does _ _
  · exact hmove _

lemma saveFile_cases (name : CStr) :
    saveFile sb s name = (false, s) ∨
      saveFile sb s name =
        (false, { s with disk := (fsWrite sb name fsFile s.buf s.len s.disk).2 }) ∨
      name.bytes ≠ [] ∧ (fsWrite sb name fsFile s.buf s.len s.disk).1 = 0 ∧
        saveFile sb s name = (true, { s with
          fname := name
          dirty := false
          disk := (fsWrite sb name fsFile s.buf s.len s.disk).2 }) := by
  unfold saveFile
  by_cases h1 : name.bytes = []
  · rw [if_pos h1]
    exact Or.inl rfl
  rw [if_neg h1]
  by_cases h2 : name.length ≥ fsMaxName
  · rw [if_pos h2]
    exact Or.inl rfl
  rw [if_neg h2]
  generalize fsWrite sb name fsFile s.buf s.len s.disk = r
  obtain ⟨rc, d⟩ := r
  dsimp only
  by_cases h3 : rc = 0
  · rw [if_neg (not_not.mpr h3)]
    exact Or.inr (Or.inr ⟨h1, h3, rfl⟩)
  · rw [if_pos h3]
    exact Or.inr (Or.inl rfl)

/-- A save on the command line. -/
lemma save_does (name : CStr) :
    Does sb s (if (saveFile sb { s with cmdMode := false } name).1 then .saved else .nothing,
      (saveFile sb { s with cmdMode := false } name).2) := by
  rcases @saveFile_cases sb { s with cmdMode := false } name with e | e | ⟨h1, h2, e⟩
  · rw [e]
    exact .idle s.pos false s.cmd
  · rw [e]
    exact .unsaved name
  · rw [e]
    exact .save name s.quit h1 h2

/-- A save after which the editor is left. -/
lemma saveQuit_does (name : CStr) :
    Does sb s (if (saveFile sb { s with cmdMode := false } name).1 then
        (.saved, { (saveFile sb { s with cmdMode := false } name).2 with quit := true })
      else (.nothing, (saveFile sb { s with cmdMode := false } name).2)) := by
  rcases @saveFile_cases sb { s with cmdMode := false } name with e | e | ⟨h1, h2, e⟩
  · rw [e]
    exact .idle s.pos false s.cmd
  · rw [e]
    exact .unsaved name
  · rw [e]
    exact .save name true h1 h2

lemma loadInto_cases (name : CStr) :
    (fsRead sb name s.buf (bufMax - 1) s.disk).1 < 0 ∧ loadInto sb s name = (false, { s with
      buf := (fsRead sb name s.buf (bufMax - 1) s.disk).2.1
      disk := (fsRead sb name s.buf (bufMax - 1) s.disk).2.2 }) ∨
    0 ≤ (fsRead sb name s.buf (bufMax - 1) s.disk).1 ∧ loadInto sb s name = (true, { s with
      buf := (fsRead sb name s.buf (bufMax - 1) s.disk).2.1
      len := (fsRead sb name s.buf (bufMax - 1) s.disk).1.toNat
      pos := 0
      dirty := false
      fname := name
      disk := (fsRead sb name s.buf (bufMax - 1) s.disk).2.2 }) := by
  unfold loadInto
  generalize fsRead sb name s.buf (bufMax - 1) s.disk = r
  obtain ⟨n, buf, d⟩ := r
  dsimp only
  by_cases h : n < 0
  · rw [if_pos h]
    exact Or.inl ⟨h, rfl⟩
  · rw [if_neg h]
    exact Or.inr ⟨not_lt.mp h, rfl⟩

lemma load_does (name : CStr) (hd : s.dirty = false) :
    Does sb s (if (loadInto sb { s with cmdMode := false } name).1 then .loaded else .nothing,
      (loadInto sb { s with cmdMode := false } name).2) := by
  rcases @loadInto_cases sb { s with cmdMode := false } name with ⟨h, e⟩ | ⟨h, e⟩
  · rw [e]
    exact .unloaded name h
  · rw [e]
    exact .load name hd h

lemma command_does : Does sb s (runCommand sb { s with cmdMode := false }) := by
  have hidle : Does sb s (.nothing, { s with cmdMode := false }) := .idle s.pos false s.cmd
  unfold runCommand
  dsimp only
  generalize ((cstr s.cmd).dropWhile (· == 32)).rdropWhile (· == 32) = c
  by_cases h : c = []
  · rw [if_pos h]
    exact hidle
  rw [if_neg h]
  by_cases h : c = [113]
  · rw [if_pos h]
    by_cases hd : s.dirty = true
    · rw [if_pos hd]
      exact hidle
    · rw [if_neg hd]
      exact .leave (Bool.eq_false_iff.mpr hd)
  rw [if_neg h]
  by_cases h : c = [113, 33]
  · rw [if_pos h]
    exact .force
  rw [if_neg h]
  by_cases h : c = [119]
  · rw [if_pos h]
    exact save_does s.fname
  rw [if_neg h]
  by_cases h : c = [119, 113]
  · rw [if_pos h]
    exact saveQuit_does s.fname
  rw [if_neg h]
  by_cases h : c = [110]
  · rw [if_pos h]
    by_cases hd : s.dirty = true
    · rw [if_pos hd]
      exact hidle
    · rw [if_neg hd]
      exact .reset (Bool.eq_false_iff.mpr hd)
  rw [if_neg h]
  by_cases h : c.take 2 = [101, 32]
  · rw [if_pos h]
    by_cases hd : s.dirty = true
    · rw [if_pos hd]
      exact hidle
    rw [if_neg hd]
    by_cases hl : (strOf ((c.drop 1).dropWhile (· == 32))).length ≥ fsMaxName
    · rw [if_pos hl]
      exact hidle
    · rw [if_neg hl]
      exact load_does _ (Bool.eq_false_iff.mpr hd)
  rw [if_neg h]
  by_cases h : c.take 2 = [119, 32]
  · rw [if_pos h]
    exact save_does _
  rw [if_neg h]
  exact hidle

lemma key_does (k : ℤ) (hq : s.quit = false) (hl : s.len < bufMax) : Does sb s (key sb s k) := by
  unfold key
  rw [hq, if_neg (by decide)]
  split_ifs
  · unfold cmdKey
    split_ifs
    · exact .idle s.pos false s.cmd
    · exact command_does
    · exact .idle s.pos s.cmdMode _
    · exact .idle s.pos false s.cmd
    · exact .idle s.pos s.cmdMode _
    · exact .idle s.pos s.cmdMode s.cmd
  · exact edit_does k hl

/-! ### The file system under it -/

section Files

variable {d : Disk}

lemma fsWrite_wellFormed (h : WellFormed sb d) (ha : Addressed sb d) (name : CStr) (data : Mem)
    {size : ℕ} (hs : size < bufMax) : WellFormed sb (fsWrite sb name fsFile data size d).2 := by
  have hs : size < 65536 := hs
  refine step_wellFormed (s := { blank with sb := sb, disk := d })
    (c := .write name fsFile data size) h ⟨fun n t dt sz e => ?_, fun dir path e => by cases e⟩
  simp only [Call.writes, Option.some.injEq, Prod.mk.injEq] at e
  obtain ⟨rfl, rfl, rfl, rfl⟩ := e
  exact ⟨by omega, ha.fits h name fsFile data (by omega)⟩

/-- What was written with success is read back. -/
lemma fsRead_fsWrite (h : WellFormed sb d) (ha : Addressed sb d) {name : CStr}
    (hname : name.bytes ≠ []) (data : Mem) {size : ℕ} (hs : size < bufMax)
    (hrc : (fsWrite sb name fsFile data size d).1 = 0) (buf : Mem) {max : ℕ} (hmax : size ≤ max) :
    fsRead sb name buf max (fsWrite sb name fsFile data size d).2 =
      ((size : ℤ), buf.blit 0 size data, (fsWrite sb name fsFile data size d).2) := by
  have hlt : size < 65536 := hs
  have hv := fsWrite_view h hname fsFile data (by omega)
    (ha.fits h name fsFile data (show size < 4294967296 by omega)) hrc
  rw [fsRead_view (fsWrite_wellFormed h ha name data hs).working hv (by simp; omega) buf max
    (by simpa using hmax)]
  simp only [List.length_map, List.length_range]
  rw [i32_of_lt (by omega)]
  congr 2
  exact Mem.blit_congr _ fun i hi => by simp [hi]

/-- A read that fails leaves the buffer alone, and one that succeeds fits it. -/
lemma fsRead_bounded (hw : d.Working) (name : CStr) (buf : Mem) :
    (fsRead sb name buf (bufMax - 1) d).1 < bufMax ∧
      ((fsRead sb name buf (bufMax - 1) d).1 < 0 →
        (fsRead sb name buf (bufMax - 1) d).2.1 = buf) := by
  have hb : bufMax = 65536 := rfl
  rw [fsRead_working hw]
  cases slotOf sb d name with
  | none => exact ⟨show (-1 : ℤ) < bufMax by omega, fun _ => rfl⟩
  | some k =>
    dsimp only
    generalize (entry sb d k).size = size
    by_cases hs : size ≤ bufMax - 1
    · rw [if_pos hs]
      dsimp only
      rw [i32_of_lt (by omega)]
      exact ⟨by omega, fun h => by omega⟩
    · rw [if_neg hs]
      exact ⟨show (-1 : ℤ) < bufMax by omega, fun _ => rfl⟩

end Files

/-! ### The session -/

/-- The invariant of a session. -/
structure Inv (sb : Superblock) (t : Tracked) : Prop where
  wellFormed : WellFormed sb t.s.disk
  len_lt : t.s.len < bufMax
  clean : t.s.dirty = false → t.s.text = t.kept

/-- A key that touches neither the file nor the kept text. -/
lemma Safe.quiet {t : Tracked} {s' : State} (hclean : s'.dirty = false → s'.text = t.kept)
    (hleft : t.s.quit = false → s'.quit = true → s'.text = t.kept) : Safe sb t (.nothing, s') where
  clean := hclean
  replaced e := absurd e (show ¬ (Did.nothing = .loaded ∨ Did.nothing = .reset) by decide)
  left hq hq' := Or.inr (hleft hq hq')
  stored e := absurd e (show Did.nothing ≠ .saved by decide)

/-- **Every key keeps the invariant and the promises.** -/
theorem Inv.key {t : Tracked} (h : Inv sb t) (ha : Addressed sb t.s.disk) (k : ℤ) :
    Inv sb (track sb t k) ∧ Safe sb t (key sb t.s k) := by
  have hw := h.wellFormed.working
  unfold track
  by_cases hq : t.s.quit = true
  · -- the editor is gone
    have hk : State.key sb t.s k = (.nothing, t.s) := by
      unfold State.key
      rw [if_pos hq]
    rw [hk]
    exact ⟨⟨h.wellFormed, h.len_lt, h.clean⟩, .quiet h.clean fun e => absurd (e ▸ hq) (by decide)⟩
  have hdoes := @key_does sb t.s k (Bool.eq_false_iff.mpr hq) h.len_lt
  generalize State.key sb t.s k = r at hdoes ⊢
  cases hdoes with
  | idle p m c =>
    exact ⟨⟨h.wellFormed, h.len_lt, h.clean⟩, .quiet h.clean fun _ e => absurd e hq⟩
  | edit b n p hn =>
    exact ⟨⟨h.wellFormed, hn, fun e => Bool.noConfusion e⟩,
      .quiet (fun e => Bool.noConfusion e) fun _ e => absurd e hq⟩
  | leave hd =>
    exact ⟨⟨h.wellFormed, h.len_lt, h.clean⟩, .quiet h.clean fun _ _ => h.clean hd⟩
  | force =>
    refine ⟨⟨h.wellFormed, h.len_lt, h.clean⟩, h.clean, fun e => absurd e ?_, fun _ _ => Or.inl rfl,
      fun e => absurd e ?_⟩
    · show ¬ (Did.forced = .loaded ∨ Did.forced = .reset)
      decide
    · show Did.forced ≠ .saved
      decide
  | save name q hname hrc =>
    refine ⟨⟨fsWrite_wellFormed h.wellFormed ha name _ h.len_lt, h.len_lt, fun _ => rfl⟩,
      fun _ => rfl, fun e => absurd e ?_, fun _ _ => Or.inr rfl, fun _ buf max hmax =>
        fsRead_fsWrite h.wellFormed ha hname t.s.buf h.len_lt hrc buf hmax⟩
    show ¬ (Did.saved = .loaded ∨ Did.saved = .reset)
    decide
  | unsaved name =>
    exact ⟨⟨fsWrite_wellFormed h.wellFormed ha name _ h.len_lt, h.len_lt, h.clean⟩,
      .quiet h.clean fun _ e => absurd e hq⟩
  | load name hd hn =>
    obtain ⟨hle, -⟩ := @fsRead_bounded sb t.s.disk hw name t.s.buf
    refine ⟨⟨?_, ?_, fun _ => rfl⟩, fun _ => rfl, fun _ => h.clean hd, fun _ e => absurd e hq,
      fun e => absurd e ?_⟩
    · unfold Tracked.next
      dsimp only
      rw [fsRead_disk hw]
      exact h.wellFormed
    · unfold Tracked.next
      dsimp only
      have hb : bufMax = 65536 := rfl
      omega
    · show Did.loaded ≠ .saved
      decide
  | unloaded name hn =>
    obtain ⟨-, hbuf⟩ := @fsRead_bounded sb t.s.disk hw name t.s.buf
    rw [hbuf hn, fsRead_disk hw]
    exact ⟨⟨h.wellFormed, h.len_lt, h.clean⟩, .quiet h.clean fun _ e => absurd e hq⟩
  | reset hd =>
    refine ⟨⟨h.wellFormed, Nat.zero_lt_succ _, fun _ => rfl⟩, fun _ => rfl, fun _ => h.clean hd,
      fun _ e => absurd e hq, fun e => absurd e ?_⟩
    show Did.reset ≠ .saved
    decide

/-- The editor starts with a kept text, whatever name is typed. -/
lemma startup_inv {d : Disk} (h : WellFormed sb d) (name : CStr) :
    Inv sb ⟨startup sb d name, (startup sb d name).text⟩ := by
  have hw := h.working
  unfold startup
  by_cases hname : name.bytes = []
  · rw [if_pos hname]
    exact ⟨h, Nat.zero_lt_succ _, fun _ => rfl⟩
  rw [if_neg hname]
  obtain ⟨hle, hbuf⟩ := @fsRead_bounded sb d hw name (loaded d).buf
  rcases @loadInto_cases sb (loaded d) name with ⟨hn, e⟩ | ⟨hn, e⟩
  · rw [e]
    refine ⟨?_, Nat.zero_lt_succ _, fun _ => rfl⟩
    exact (@fsRead_disk sb d hw name (loaded d).buf (bufMax - 1)).symm ▸ h
  · rw [e]
    refine ⟨?_, ?_, fun _ => rfl⟩
    · exact (@fsRead_disk sb d hw name (loaded d).buf (bufMax - 1)).symm ▸ h
    · have hb : bufMax = 65536 := rfl
      have : (fsRead sb name (loaded d).buf (bufMax - 1) d).1 < (bufMax : ℤ) := hle
      show (fsRead sb name (loaded d).buf (bufMax - 1) d).1.toNat < bufMax
      omega

/-- **No text is lost in a session**, for any keys after the startup, on a working disk with room:
a buffer that is not dirty holds the kept text, `:q`, `:e` and `:n` give up such a buffer only, and a
save that succeeds is read back. -/
theorem session_safe {d : Disk} (h : WellFormed sb d) (name : CStr) (keys : List ℤ)
    (hroom : Along (track sb) (fun t _ => Addressed sb t.s.disk)
      ⟨startup sb d name, (startup sb d name).text⟩ keys) :
    Along (track sb) (fun t k => Safe sb t (key sb t.s k))
      ⟨startup sb d name, (startup sb d name).text⟩ keys := by
  have hinv := startup_inv h name
  generalize (⟨startup sb d name, (startup sb d name).text⟩ : Tracked) = t at hinv hroom ⊢
  induction keys generalizing t with
  | nil => trivial
  | cons k keys ih =>
    obtain ⟨hi, hs⟩ := hinv.key hroom.1 k
    exact ⟨hs, ih _ hi hroom.2⟩

/-- An `a` is typed into an empty buffer and saved as `f`. -/
theorem session_safe_blank : Along (track blank.sb) (fun t k => Safe blank.sb t (key blank.sb t.s k))
    ⟨startup blank.sb blank.disk CStr.empty, (startup blank.sb blank.disk CStr.empty).text⟩
    [97, 27, 119, 32, 102, 10] :=
  session_safe blank_wellFormed CStr.empty _
    ⟨blank_addressed, blank_addressed, blank_addressed, blank_addressed, blank_addressed,
      blank_addressed, trivial⟩

end LunariaOS.Edit.State
