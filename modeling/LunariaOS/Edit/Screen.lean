import LunariaOS.Edit.Caret
import LunariaOS.Edit.Target

/-!
The screen of the editor in a session.

Between two frames a key moves the cursor, edits behind `top`, or resets the view. What else could
leave `top` inside a line is a load that fails after it has put sectors into the buffer.
-/

namespace LunariaOS.Edit

open LunariaOS.Lib LunariaOS.Fs

variable {sb : Superblock}

namespace View

open State (lineBegin lineEnd lineBegin_spec)

/-- The name in the command line `:e name`, where `run_command` gets to load it. -/
def opened (s : State) : Option CStr :=
  let c := ((cstr s.cmd).dropWhile (· == 32)).rdropWhile (· == 32)
  let arg := strOf ((c.drop 1).dropWhile (· == 32))
  if c.take 2 = [101, 32] ∧ s.dirty = false ∧ arg.length < fsMaxName then some arg else none

/-- A key that loads no file, or whose load leaves the text alone if it fails. -/
def LoadKeeps (sb : Superblock) (s : State) (k : ℤ) : Prop :=
  s.cmdMode = true → k = keyEnter → ∀ name ∈ opened s, Keeps sb s name

/-- The states that the loop of `_start` comes to before it calls `scroll_fix`, through loads that
leave the text alone if they fail. -/
inductive Reached (sb : Superblock) : View → Prop
  | start (d : Disk) (name : CStr) : Reached sb (startup sb d name)
  | key {v v' : View} (k : ℤ) (h : Reached sb v) (hfix : Returns (fun n => v.scrollFix n) v')
      (hquit : v'.s.quit = false) (hload : LoadKeeps sb v'.s k) : Reached sb (v'.key sb k)

/-! ### What a key does to the text above the cursor -/

/-- A text of its own, from its beginning on. -/
def Fresh (s : State) : Prop := s.pos = 0 ∧ s.len < bufMax

/-- The same text and the same cursor. -/
structure Same (s s' : State) : Prop where
  pos : s'.pos = s.pos
  len : s'.len = s.len
  buf : ∀ i < s.len, s'.buf i = s.buf i

lemma Same.refl (s : State) : Same s s := ⟨rfl, rfl, fun _ _ => rfl⟩

/-- What the command line does to the text. -/
def Replaces (s : State) (r : State.Did × State) : Prop :=
  if r.1 = .loaded ∨ r.1 = .reset then Fresh r.2 else Same s r.2

lemma Replaces.same {s s' : State} (did : State.Did) (hl : did ≠ .loaded) (hr : did ≠ .reset)
    (h : Same s s') : Replaces s (did, s') := by
  unfold Replaces
  rw [if_neg (by simp [hl, hr])]
  exact h

lemma saveFile_same (s : State) (name : CStr) : Same s (State.saveFile sb s name).2 := by
  rcases @State.saveFile_cases sb s name with e | e | ⟨-, -, e⟩
  · rw [e]
    exact .refl s
  · rw [e]
    exact ⟨rfl, rfl, fun _ _ => rfl⟩
  · rw [e]
    exact ⟨rfl, rfl, fun _ _ => rfl⟩

lemma save_replaces (s : State) (name : CStr) :
    Replaces s (if (State.saveFile sb s name).1 then .saved else .nothing,
      (State.saveFile sb s name).2) := by
  have h := @saveFile_same sb s name
  cases (State.saveFile sb s name).1
  · exact .same _ (by decide) (by decide) h
  · exact .same _ (by decide) (by decide) h

lemma load_replaces (s : State) (name : CStr) (h : Keeps sb s name) :
    Replaces s (if (State.loadInto sb s name).1 then .loaded else .nothing,
      (State.loadInto sb s name).2) := by
  rcases @State.loadInto_cases sb s name with ⟨hn, e⟩ | ⟨hn, e⟩
  · rw [e]
    exact .same .nothing (by decide) (by decide) ⟨rfl, rfl, (text_keeps hn).mpr h⟩
  · have hlt := @fsRead_lt sb s name
    have hb : bufMax = 65536 := rfl
    rw [e]
    refine ⟨rfl, ?_⟩
    show (fsRead sb name s.buf (bufMax - 1) s.disk).1.toNat < bufMax
    omega

/-- `run_command`. -/
lemma command_replaces (s : State) (h : ∀ name ∈ opened s, Keeps sb s name) :
    Replaces s (State.runCommand sb s) := by
  have hidle : Replaces s (.nothing, s) := .same _ (by decide) (by decide) (.refl s)
  unfold opened at h
  unfold State.runCommand
  dsimp only at h ⊢
  generalize ((cstr s.cmd).dropWhile (· == 32)).rdropWhile (· == 32) = c at h ⊢
  by_cases h1 : c = []
  · rw [if_pos h1]
    exact hidle
  rw [if_neg h1]
  by_cases h2 : c = [113]
  · rw [if_pos h2]
    split_ifs
    · exact hidle
    · exact .same _ (by decide) (by decide) ⟨rfl, rfl, fun _ _ => rfl⟩
  rw [if_neg h2]
  by_cases h3 : c = [113, 33]
  · rw [if_pos h3]
    exact .same _ (by decide) (by decide) ⟨rfl, rfl, fun _ _ => rfl⟩
  rw [if_neg h3]
  by_cases h4 : c = [119]
  · rw [if_pos h4]
    exact save_replaces s s.fname
  rw [if_neg h4]
  by_cases h5 : c = [119, 113]
  · rw [if_pos h5]
    have hsave := @saveFile_same sb s s.fname
    generalize State.saveFile sb s s.fname = r at hsave ⊢
    obtain ⟨ok, s'⟩ := r
    cases ok
    · exact .same _ (by decide) (by decide) hsave
    · exact .same _ (by decide) (by decide) ⟨hsave.pos, hsave.len, hsave.buf⟩
  rw [if_neg h5]
  by_cases h6 : c = [110]
  · rw [if_pos h6]
    split_ifs
    · exact hidle
    · exact ⟨rfl, Nat.zero_lt_succ _⟩
  rw [if_neg h6]
  by_cases h7 : c.take 2 = [101, 32]
  · rw [if_pos h7]
    by_cases hd : s.dirty = true
    · rw [if_pos hd]
      exact hidle
    rw [if_neg hd]
    by_cases hl : (strOf ((c.drop 1).dropWhile (· == 32))).length ≥ fsMaxName
    · rw [if_pos hl]
      exact hidle
    · rw [if_neg hl]
      refine load_replaces s _ (h _ ?_)
      rw [if_pos ⟨h7, Bool.eq_false_iff.mpr hd, not_le.mp hl⟩]
      rfl
  rw [if_neg h7]
  by_cases h8 : c.take 2 = [119, 32]
  · rw [if_pos h8]
    exact save_replaces s _
  rw [if_neg h8]
  exact hidle

/-- The keys of the command line. -/
lemma cmdKey_replaces (s : State) (k : ℤ)
    (h : k = keyEnter → ∀ name ∈ opened s, Keeps sb s name) :
    Replaces s (State.cmdKey sb s k) := by
  have hidle : ∀ (m : Bool) (c : List UInt8),
      Replaces s (.nothing, { s with cmdMode := m, cmd := c }) := fun m c =>
    .same _ (by decide) (by decide) ⟨rfl, rfl, fun _ _ => rfl⟩
  unfold State.cmdKey
  split_ifs with h1 h2
  · exact hidle false s.cmd
  · have := command_replaces { s with cmdMode := false } (h h2)
    unfold Replaces at this ⊢
    split_ifs at this ⊢ with hr
    · exact this
    · exact ⟨this.pos, this.len, this.buf⟩
  · exact hidle s.cmdMode _
  · exact hidle false s.cmd
  · exact hidle s.cmdMode _
  · exact hidle s.cmdMode s.cmd

/-- The text before both the old and the new cursor is as it was, or all of it. -/
def Above (s s' : State) : Prop :=
  s'.buf = s.buf ∨ ∀ i, i < s.pos → i < s'.pos → s'.buf i = s.buf i

lemma doInsert_above (s : State) (c : UInt8) (n : ℕ) : Above s (s.doInsert c n) := by
  unfold State.doInsert
  split_ifs
  · exact Or.inl rfl
  · refine Or.inr fun i hi _ => ?_
    dsimp only
    rw [Mem.blit_of_out _ _ (Or.inl hi), Mem.blit_of_out _ _ (by omega)]

lemma doBackspace_above (s : State) : Above s s.doBackspace := by
  unfold State.doBackspace
  split_ifs
  · exact Or.inl rfl
  · refine Or.inr fun i _ hi => ?_
    dsimp only at hi ⊢
    rw [Mem.blit_of_out _ _ (Or.inl hi)]

/-- A key that moves the cursor, if it does, leaves the text alone. -/
lemma above_move (s : State) (p : ℕ) (c : Prop) [Decidable c] :
    Above s (if c then { s with pos := p } else s) :=
  iteInduction (fun _ => Or.inl rfl) fun _ => Or.inl rfl

lemma editKey_above (s : State) (k : ℤ) : Above s (s.editKey k) := by
  unfold State.editKey
  refine iteInduction (fun _ => Or.inl rfl) fun _ => ?_
  refine iteInduction (fun _ => above_move s _ _) fun _ => ?_
  refine iteInduction (fun _ => above_move s _ _) fun _ => ?_
  refine iteInduction (fun _ => above_move s _ _) fun _ => ?_
  refine iteInduction (fun _ => above_move s _ _) fun _ => ?_
  refine iteInduction (fun _ => doBackspace_above s) fun _ => ?_
  refine iteInduction (fun _ => doInsert_above s _ _) fun _ => ?_
  refine iteInduction (fun _ => doInsert_above s _ _) fun _ => ?_
  exact iteInduction (fun _ => doInsert_above s _ _) fun _ => Or.inl rfl

/-! ### The session -/

/-- A line that starts at `top` still does when nothing before `top` has changed. -/
lemma LineStart.congr {buf buf' : Mem} {top : ℕ} (h : LineStart buf top)
    (heq : ∀ i < top, buf' i = buf i) : LineStart buf' top := by
  rcases Nat.eq_zero_or_pos top with h0 | h0
  · exact Or.inl h0
  · rcases h with h | h
    · exact Or.inl h
    · exact Or.inr ((heq _ (by omega)).trans h)

lemma Fresh.ready {s : State} (h : Fresh s) : Ready ⟨s, 0, 0⟩ :=
  ⟨⟨by rw [h.1]; exact Nat.zero_le _, h.2⟩, Or.inl (Or.inl rfl)⟩

lemma startup_fresh (sb : Superblock) (d : Disk) (name : CStr) : Fresh (State.startup sb d name) := by
  unfold State.startup
  split_ifs
  · exact ⟨rfl, Nat.zero_lt_succ _⟩
  · rcases @State.loadInto_cases sb (State.loaded d) name with ⟨-, e⟩ | ⟨-, e⟩
    · rw [e]
      exact ⟨rfl, Nat.zero_lt_succ _⟩
    · have hlt := @fsRead_lt sb (State.loaded d) name
      have hb : bufMax = 65536 := rfl
      rw [e]
      refine ⟨rfl, ?_⟩
      change (fsRead sb name (State.loaded d).buf (bufMax - 1) (State.loaded d).disk).1.toNat < bufMax
      omega

/-- **A key leaves `top` at the start of a line**, or below the cursor's line. -/
lemma Placed.key {v : View} (h : Placed v) (k : ℤ) (hquit : v.s.quit = false)
    (hload : LoadKeeps sb v.s k) : Ready (v.key sb k) := by
  obtain ⟨hpos, hlen⟩ := h.fits
  have htop : v.top ≤ v.s.pos := h.above.trans (lineBegin_spec v.s.buf v.s.pos).1
  unfold View.key State.key
  rw [hquit, if_neg (by decide)]
  by_cases hcmd : v.s.cmdMode = true
  · rw [if_pos hcmd]
    have hr := cmdKey_replaces v.s k (hload hcmd)
    unfold Replaces at hr
    generalize State.cmdKey sb v.s k = r at hr ⊢
    obtain ⟨did, s'⟩ := r
    dsimp only at hr ⊢
    split_ifs at hr ⊢ with hnew
    · exact hr.ready
    · refine ⟨⟨by rw [hr.pos, hr.len]; exact hpos, by rw [hr.len]; exact hlen⟩, Or.inl ?_⟩
      exact h.line.congr fun i hi => hr.buf i (by omega)
  · rw [if_neg hcmd]
    dsimp only
    rw [if_neg (by decide)]
    refine ⟨(State.key_refines h.fits k).1, ?_⟩
    rcases editKey_above v.s k with hsame | hkeep
    · exact Or.inl (h.line.congr fun i _ => congrFun hsame i)
    · by_cases hle : v.top ≤ (v.s.editKey k).pos
      · exact Or.inl (h.line.congr fun i hi => hkeep i (by omega) (by omega))
      · have := (lineBegin_spec (v.s.editKey k).buf (v.s.editKey k).pos).1
        exact Or.inr (by dsimp only; omega)

lemma Reached.ready {v : View} (h : Reached sb v) : Ready v := by
  induction h with
  | start d name => exact (startup_fresh sb d name).ready
  | key k _ hfix hquit hload ih =>
    obtain ⟨v', hret, -, hplaced⟩ := scrollFix_returns ih
    obtain rfl := hret.unique hfix
    exact hplaced.key k hquit hload

/-- The frame that is drawn from a view: the cursor is on the screen, and outside the command line
the caret is put on the cell that shows its byte. -/
def Shows (v : View) : Prop :=
  Placed v ∧
    ∀ (msg : CStr) (m : Mirror.State), msg.length < 72 → v.s.cmdMode = false → v.s.pos < v.s.len →
      v.s.buf v.s.pos ≠ 10 →
        v.draw msg m = (v.frame msg m).mirrorCursor v.caret.1.toNat v.caret.2.toNat ∧
          (v.frame msg m).back (Mirror.place v.caret.1 v.caret.2) =
            ⟨shown (v.s.buf v.s.pos), attrText⟩

/-- **The cursor stays on the screen.** In every state reached `scroll_fix` ends, and the frame drawn
then shows the byte at the cursor under the caret. -/
theorem reached_shows {v : View} (h : Reached sb v) :
    ∃ v', Returns (fun n => v.scrollFix n) v' ∧ Shows v' := by
  obtain ⟨v', hret, -, hplaced⟩ := scrollFix_returns h.ready
  exact ⟨v', hret, hplaced, fun msg m hmsg hcmd hpos hin => draw_caret hplaced hcmd hpos hin hmsg m⟩

/-- A file `d` of 23 newlines, and a file `f` of two sectors that are newlines but for the first byte.
The transfers are those of a load of `d` and of one of `f`, whose second sector cannot be read. -/
def twoFiles : Disk :=
  { ((longF.step (.write pathD fsFile (fun _ => 10) 23)).step
      (.write pathF fsFile (fun i => if i = 0 then 97 else 10) 600)).disk with
    fault := fun n => n == 4 }

/-- Down to the last line, and then `:e f`. -/
def staleKeys : List ℤ := List.replicate 23 keyDown ++ [keyEsc, 101, 32, 102, keyEnter]

/-- The loop of `_start` over a list of keys, as long as none of them leaves the editor and every file
that is opened is read to its end. -/
def openings (sb : Superblock) (n : ℕ) : View → List ℤ → Option View
  | v, [] => some v
  | v, k :: ks => (v.scrollFix n).bind fun v =>
    if v.s.quit = false ∧ (v.s.cmdMode = true → k = keyEnter →
        ∀ name ∈ opened v.s, 0 ≤ (fsRead sb name v.s.buf (bufMax - 1) v.s.disk).1) then
      openings sb n (v.key sb k) ks
    else none

lemma Reached.openings {n : ℕ} {ks : List ℤ} : ∀ {v v' : View}, Reached sb v →
    View.openings sb n v ks = some v' → Reached sb v' := by
  induction ks with
  | nil =>
    rintro v v' hv ⟨⟩
    exact hv
  | cons k ks ih =>
    intro v v' hv h
    obtain ⟨w, hw, h⟩ := Option.bind_eq_some_iff.mp h
    split_ifs at h with hk
    refine ih (.key k hv ((scrollFix_steady v).returns hw) hk.1 fun hcmd hent name hname => ?_) h
    exact keeps_of_done (hk.2 hcmd hent name hname)

/-- The same keys where every sector can be read: `f` is on the screen. -/
theorem reached_shows_openings :
    ∃ v v', openings longF.sb 1000 (startup longF.sb twoFiles.calm pathD) staleKeys = some v ∧
      v.s.len = 600 ∧ Returns (fun n => v.scrollFix n) v' ∧ Shows v' := by
  have hlen : (openings longF.sb 1000 (startup longF.sb twoFiles.calm pathD) staleKeys).map
      (fun v => v.s.len) = some 600 := by decide +kernel
  obtain ⟨v, hv, hl⟩ := Option.map_eq_some_iff.mp hlen
  obtain ⟨v', hret, hshows⟩ := reached_shows ((Reached.start twoFiles.calm pathD).openings hv)
  exact ⟨v, v', hv, hl, hret, hshows⟩

/-- The loop of `_start` over a list of keys, up to the frame after the last one. -/
def turns (sb : Superblock) (n : ℕ) : View → List ℤ → Option View
  | v, [] => v.scrollFix n
  | v, k :: ks => (v.scrollFix n).bind fun v => turns sb n (v.key sb k) ks

lemma stale_row :
    ((turns longF.sb 1000 (startup longF.sb twoFiles pathD) staleKeys).map fun v =>
      decide (LineStart v.s.buf v.top)) = some false := by
  decide +kernel

/-- The first row begins inside a line. -/
theorem top_stale :
    ∃ v, turns longF.sb 1000 (startup longF.sb twoFiles pathD) staleKeys = some v ∧
      ¬ LineStart v.s.buf v.top := by
  obtain ⟨v, hv, hno⟩ := Option.map_eq_some_iff.mp stale_row
  exact ⟨v, hv, of_decide_eq_false hno⟩

end View

end LunariaOS.Edit
