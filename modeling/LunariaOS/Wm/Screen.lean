import LunariaOS.Wm.Code

/-!
What is on the screen.

`Fresh D` says that every row outside `D` shows what a blit of the whole terminal would show. A blit
of the whole terminal leaves no row stale, and a blit of one row takes this row out of `D`. The shell
blits the whole terminal after everything it does except for the newline of a line that starts a
program, which leaves the row of the caret and the one below stale, or all rows if it scrolls.
-/

namespace LunariaOS.Wm

open LunariaOS.Lib

namespace Terminal

/-- The caret is on the screen. -/
def InScreen (t : Terminal) : Prop := t.cursorX < 80 ∧ t.cursorY < 25

/-- The byte number `i` of the screen, when it shows the terminal. -/
def pic (t : Terminal) (i : ℕ) : UInt8 := if i = t.caret then invert (t.cells i) else t.cells i

/-- The byte number `i` of the screen belongs to the row `y`. -/
def InRow (y i : ℕ) : Prop := y * 160 ≤ i ∧ i < y * 160 + 160

variable {t : Terminal} {y i : ℕ}

lemma caret_row (h : t.InScreen) : InRow t.cursorY t.caret := by
  obtain ⟨h1, h2⟩ := h
  unfold InRow caret
  omega

lemma blit_pic (h : t.InScreen) (vga : Mem) (i : ℕ) :
    wmBlit t vga i = if i < 4000 then t.pic i else vga i := by
  obtain ⟨h1, h2⟩ := id h
  have hc : t.caret < 4000 := by
    have := (caret_row h).2
    omega
  have hcells : ∀ j < 4000, (vga.blit 0 (80 * 25 * 2) t.cells) j = t.cells j := fun j hj =>
    Mem.blit_of_in vga t.cells (Nat.zero_le j) (by omega)
  unfold wmBlit
  rw [if_pos (by omega), Function.update_apply, hcells _ hc]
  unfold pic
  by_cases hi : i < 4000
  · rw [if_pos hi, hcells i hi]
    by_cases hic : i = t.caret
    · rw [if_pos hic, if_pos hic, hic]
    · rw [if_neg hic, if_neg hic]
  · rw [if_neg hi, if_neg (by omega), Mem.blit_of_out _ _ (by omega)]

lemma blitRow_pic (h : t.InScreen) (vga : Mem) (hy : y < 25) (i : ℕ) :
    wmBlitRow t y vga i = if y * 160 ≤ i ∧ i < y * 160 + 160 then t.pic i else vga i := by
  obtain ⟨h1, h2⟩ := id h
  have hrow := caret_row h
  have hcells : ∀ j, y * 160 ≤ j → j < y * 160 + 160 →
      (vga.blit (y * 80 * 2) (80 * 2) fun i => t.cells (y * 80 * 2 + i)) j = t.cells j := by
    intro j hj hj'
    rw [Mem.blit_of_in _ _ (by omega) (by omega)]
    congr 1
    omega
  have hout : ¬ (y * 160 ≤ i ∧ i < y * 160 + 160) →
      (vga.blit (y * 80 * 2) (80 * 2) fun i => t.cells (y * 80 * 2 + i)) i = vga i := fun hi =>
    Mem.blit_of_out _ _ (by omega)
  unfold InRow at hrow
  unfold wmBlitRow pic
  rw [if_neg (by omega)]
  by_cases hcy : t.cursorY = y
  · subst hcy
    simp only [true_and]
    rw [if_pos (by omega), Function.update_apply, hcells _ hrow.1 hrow.2]
    by_cases hi : t.cursorY * 160 ≤ i ∧ i < t.cursorY * 160 + 160
    · rw [if_pos hi, hcells i hi.1 hi.2]
      by_cases hic : i = t.caret
      · rw [if_pos hic, if_pos hic, hic]
      · rw [if_neg hic, if_neg hic]
    · rw [if_neg hi, if_neg (by omega), hout hi]
  · rw [if_neg fun e => hcy e.1]
    by_cases hi : y * 160 ≤ i ∧ i < y * 160 + 160
    · rw [if_pos hi, if_neg (by omega), hcells i hi.1 hi.2]
    · rw [if_neg hi, hout hi]

/-! ### The caret stays on the screen -/

lemma termPutchar_inScreen (h : t.InScreen) (c color : UInt8) : (t.termPutchar c color).InScreen := by
  obtain ⟨h1, h2⟩ := h
  unfold termPutchar termScroll setCell InScreen
  dsimp only
  split_ifs <;> dsimp only at * <;> omega

lemma termPrintColor_inScreen (str : List UInt8) (color : UInt8) (h : t.InScreen) :
    (t.termPrintColor str color).InScreen := by
  unfold termPrintColor
  induction str generalizing t with
  | nil => exact h
  | cons c l ih => exact ih (termPutchar_inScreen h c color)

lemma termClear_inScreen (t : Terminal) : t.termClear.InScreen := by
  unfold termClear InScreen
  dsimp only
  omega

lemma termBackspace_inScreen (h : t.InScreen) : t.termBackspace.InScreen := by
  obtain ⟨h1, h2⟩ := h
  unfold termBackspace
  dsimp only
  split_ifs
  · exact ⟨h1, h2⟩
  · exact ⟨(Nat.sub_le _ _).trans_lt h1, h2⟩
  · exact ⟨Nat.lt_succ_self 79, (Nat.sub_le _ _).trans_lt h2⟩

lemma inScreen_prompt (h : t.InScreen) (p : Bool) : InScreen { t with prompt := p } := h

/-! ### What changes the picture -/

/-- A cell that is written changes its own row only. -/
lemma setCell_pic {x : ℕ} (hx : x < 80) (c color : UInt8) (hi : ¬ InRow y i) :
    (t.setCell (y * 80 + x) c color).pic i = t.pic i := by
  unfold InRow at hi
  have hcells : (t.setCell (y * 80 + x) c color).cells i = t.cells i := by
    unfold setCell
    dsimp only
    rw [Function.update_of_ne (by omega), Function.update_of_ne (by omega)]
  unfold pic
  rw [hcells]
  rfl

/-- A caret that moves changes the row it leaves and the row it comes to. -/
lemma move_pic {t' : Terminal} (h : t.InScreen) (h' : t'.InScreen) (hc : t'.cells i = t.cells i)
    (h1 : ¬ InRow t.cursorY i) (h2 : ¬ InRow t'.cursorY i) : t'.pic i = t.pic i := by
  have e1 : i ≠ t.caret := by
    rintro rfl
    exact h1 (caret_row h)
  have e2 : i ≠ t'.caret := by
    rintro rfl
    exact h2 (caret_row h')
  unfold pic
  rw [if_neg e1, if_neg e2, hc]

end Terminal

open Terminal State

variable {s : State} {D : Finset ℕ}

/-- Every row outside `D` shows what a blit of the current terminal would show. -/
def Fresh (s : State) (D : Finset ℕ) : Prop :=
  ∀ y < 25, y ∉ D → ∀ i, InRow y i → s.vga i = s.cur.pic i

/-- The screen is as a blit of the current terminal would leave it. -/
def Shows (s : State) : Prop := wmBlit s.cur s.vga = s.vga

/-- Every caret is on its screen, and there is a current terminal. -/
structure Sound (s : State) : Prop where
  inScreen : ∀ i < maxTerms, (s.terms i).InScreen
  current_lt : s.current < maxTerms

lemma Sound.cur (h : Sound s) : s.cur.InScreen := h.inScreen _ h.current_lt

@[simp] lemma cur_setCur (s : State) (t : Terminal) : (s.setCur t).cur = t :=
  Function.update_self ..

@[simp] lemma cur_setCur_running (s : State) (t : Terminal) (b : Bool) :
    ({ s.setCur t with running := b } : State).cur = t := cur_setCur s t

@[simp] lemma cur_blit (s : State) : s.blit.cur = s.cur := rfl
@[simp] lemma cur_blitRow (s : State) (y : ℕ) : (s.blitRow y).cur = s.cur := rfl

lemma Sound.setCur (h : Sound s) {t : Terminal} (ht : t.InScreen) : Sound (s.setCur t) := by
  refine ⟨fun i hi => ?_, h.current_lt⟩
  unfold State.setCur
  dsimp only
  rw [Function.update_apply]
  split_ifs
  · exact ht
  · exact h.inScreen i hi

lemma Sound.of_same {s' : State} (h : Sound s) (ht : s'.terms = s.terms)
    (hc : s'.current = s.current) : Sound s' :=
  ⟨fun i hi => by rw [ht]; exact h.inScreen i hi, by rw [hc]; exact h.current_lt⟩

/-- The screen shows the current terminal exactly if no row is stale. -/
lemma shows_iff (h : Sound s) : Shows s ↔ Fresh s ∅ := by
  constructor
  · intro hs y hy _ i hi
    rw [← hs, blit_pic h.cur, if_pos]
    unfold InRow at hi
    omega
  · intro hf
    funext i
    rw [blit_pic h.cur]
    by_cases hi : i < 4000
    · rw [if_pos hi]
      exact (hf (i / 160) (by omega) (Finset.notMem_empty _) i (by unfold InRow; omega)).symm
    · rw [if_neg hi]

lemma Fresh.mono {D' : Finset ℕ} (h : Fresh s D) (hD : D ⊆ D') : Fresh s D' :=
  fun y hy hn => h y hy fun hm => hn (hD hm)

/-- A blit of the terminal leaves no row stale. -/
lemma blit_fresh (h : Sound s) : Sound s.blit ∧ Fresh s.blit ∅ := by
  refine ⟨h.of_same rfl rfl, fun y hy _ i hi => ?_⟩
  unfold InRow at hi
  change wmBlit s.cur s.vga i = s.cur.pic i
  rw [blit_pic h.cur, if_pos (by omega)]

/-- A blit of a row makes this row fresh. -/
lemma blitRow_fresh (h : Sound s) (hf : Fresh s D) {y : ℕ} (hy : y < 25) :
    Sound (s.blitRow y) ∧ Fresh (s.blitRow y) (D.erase y) := by
  refine ⟨h.of_same rfl rfl, fun z hz hn i hi => ?_⟩
  change wmBlitRow s.cur y s.vga i = s.cur.pic i
  rw [blitRow_pic h.cur _ hy]
  by_cases hrow : y * 160 ≤ i ∧ i < y * 160 + 160
  · rw [if_pos hrow]
  · rw [if_neg hrow]
    refine hf z hz (fun hm => hn (Finset.mem_erase.mpr ⟨?_, hm⟩)) i hi
    rintro rfl
    exact hrow hi

/-! ### The shell -/

lemma showPrompt_sound (h : Sound s) : Sound s.showPrompt := by
  unfold State.showPrompt
  split_ifs
  · exact h
  · have hp := termPrintColor_inScreen promptText (vgaColor black cyan) h.cur
    exact h.setCur (inScreen_prompt hp true)

lemma shellTop_fresh (h : Sound s) (hf : Fresh s ∅) : Sound s.shellTop ∧ Fresh s.shellTop ∅ := by
  unfold State.shellTop
  split_ifs
  · exact ⟨h, hf⟩
  · exact blit_fresh (showPrompt_sound h)

lemma switchWorkspace_fresh (h : Sound s) (idx : ℕ) :
    Sound (s.switchWorkspace idx) ∧ Fresh (s.switchWorkspace idx) ∅ := by
  unfold State.switchWorkspace
  refine blit_fresh (showPrompt_sound ?_)
  unfold State.wmSwitch
  split_ifs with hidx
  · exact h
  · exact (Sound.of_same (s := { s with current := idx })
      ⟨h.inScreen, Nat.lt_of_not_ge hidx⟩ rfl rfl)

lemma out_inScreen {t : Terminal} (h : t.InScreen) (o : Out) : (out t o).InScreen := by
  cases o with
  | putchar c color => exact termPutchar_inScreen h c color
  | clear =>
    have hclear := termClear_inScreen t
    unfold out
    exact ⟨hclear.1, hclear.2⟩

lemma outs_inScreen {t : Terminal} (h : t.InScreen) (l : List Out) : (l.foldl out t).InScreen := by
  induction l generalizing t with
  | nil => exact h
  | cons o l ih => exact ih (out_inScreen h o)

/-- The rows that the newline of a line leaves stale when the line starts a program. -/
def startRows (t : Terminal) : Finset ℕ :=
  if t.cursorY < 24 then {t.cursorY, t.cursorY + 1} else Finset.range 25

/-- The newline of a line above the last row. -/
lemma newline_eq {t : Terminal} (h : t.cursorY < 24) (color : UInt8) :
    t.termPutchar 10 color = { t with cursorX := 0, cursorY := t.cursorY + 1 } := by
  unfold termPutchar
  simp only [if_true]
  rw [if_neg (by omega)]

/-- The newline moves the caret to the row below, or scrolls. -/
lemma newline_fresh (h : Sound s) (hf : Fresh s ∅) :
    Fresh { s.setCur { s.cur.termPutchar 10 (vgaColor black white) with prompt := false } with
      running := true } (startRows s.cur) := by
  intro y hy hn i hi
  unfold startRows at hn
  split_ifs at hn with hlast
  · rw [Finset.mem_insert, Finset.mem_singleton, not_or] at hn
    have hput := newline_eq hlast (vgaColor black white)
    have hmoved : InScreen { s.cur with
        cursorX := 0, cursorY := s.cur.cursorY + 1, prompt := false } :=
      ⟨Nat.succ_pos _, Nat.succ_lt_succ hlast⟩
    have hrow : ∀ z, y ≠ z → ¬ InRow z i := by
      intro z hz hi'
      unfold InRow at hi hi'
      omega
    change s.vga i = (s.setCur { s.cur.termPutchar 10 (vgaColor black white) with
      prompt := false }).cur.pic i
    rw [cur_setCur, hput, hf y hy (Finset.notMem_empty _) i hi]
    exact (move_pic h.cur hmoved rfl (hrow _ hn.1) (hrow _ hn.2)).symm
  · exact absurd (Finset.mem_range.mpr hy) hn

lemma newline_sound (h : Sound s) :
    Sound { s.setCur { s.cur.termPutchar 10 (vgaColor black white) with prompt := false } with
      running := true } := by
  have hp := termPutchar_inScreen h.cur 10 (vgaColor black white)
  exact (h.setCur (inScreen_prompt hp false)).of_same rfl rfl

lemma running_showPrompt (s : State) : s.showPrompt.running = s.running := by
  unfold State.showPrompt
  split_ifs <;> rfl

lemma running_shellTop (s : State) : s.shellTop.running = s.running := by
  unfold State.shellTop
  split_ifs
  · rfl
  · exact running_showPrompt s

lemma running_switchWorkspace (s : State) (idx : ℕ) :
    (s.switchWorkspace idx).running = s.running := by
  refine (running_showPrompt _).trans ?_
  unfold State.wmSwitch
  split_ifs <;> rfl

/-- A key at the shell either leaves a screen without stale rows, or its line starts a program. -/
lemma shellKey_cases (h : Sound s) (c : ℤ) (ctrl : Bool) (o : Outcome) :
    (Sound (s.shellKey c ctrl o) ∧ Fresh (s.shellKey c ctrl o) ∅ ∧
      (s.shellKey c ctrl o).running = s.running) ∨
    s.shellKey c ctrl o = { s.setCur { s.cur.termPutchar 10 (vgaColor black white) with
      prompt := false } with running := true } := by
  unfold State.shellKey
  cases (if ctrl then workspaceOf c else none) with
  | some ws =>
    obtain ⟨h1, f1⟩ := switchWorkspace_fresh h ws
    exact Or.inl ⟨h1, f1, running_switchWorkspace s ws⟩
  | none =>
    dsimp only
    by_cases hnl : c = 10
    · rw [if_pos hnl]
      cases o with
      | returns l =>
        have hp := outs_inScreen (termPutchar_inScreen h.cur 10 (vgaColor black white)) l
        have hb := blit_fresh (h.setCur (t := { l.foldl out (s.cur.termPutchar 10
          (vgaColor black white)) with len := 0, prompt := false }) ⟨hp.1, hp.2⟩)
        obtain ⟨h1, f1⟩ := shellTop_fresh hb.1 hb.2
        exact Or.inl ⟨h1, f1, running_shellTop _⟩
      | starts => exact Or.inr rfl
    · rw [if_neg hnl]
      left
      split_ifs with h8 hlen hprint hroom
      · obtain ⟨h1, f1⟩ := blit_fresh (h.setCur (termBackspace_inScreen
          (t := { s.cur with len := s.cur.len - 1 }) h.cur))
        exact ⟨h1, f1, rfl⟩
      · obtain ⟨h1, f1⟩ := blit_fresh h
        exact ⟨h1, f1, rfl⟩
      · obtain ⟨h1, f1⟩ := blit_fresh (h.setCur (termPutchar_inScreen
          (t := { s.cur with len := s.cur.len + 1 }) h.cur (UInt8.ofNat c.toNat)
          (vgaColor black white)))
        exact ⟨h1, f1, rfl⟩
      · obtain ⟨h1, f1⟩ := blit_fresh h
        exact ⟨h1, f1, rfl⟩
      · obtain ⟨h1, f1⟩ := blit_fresh h
        exact ⟨h1, f1, rfl⟩

/-! ### System calls -/

/-- The rows that a call redraws when it does not blit the whole terminal. -/
def redrawn (s : State) : Call → Finset ℕ
  | .write _ | .clear => ∅
  | .putcharAt _ ecx edx _ => if ecx < 80 ∧ edx < 25 then {edx} else ∅
  | .gotoXy ebx ecx => if ebx < 80 ∧ ecx < 25 then {s.cur.cursorY, ecx} else ∅

/-- The rows that are stale after an event, when those of `D` were before. -/
def staleAfter (s : State) (D : Finset ℕ) : Event → Finset ℕ
  | .key c ctrl o =>
    if s.running then D
    else if (s.shellKey c ctrl o).running then startRows s.cur else ∅
  | .call (.write _) | .call .clear => if s.running then ∅ else D
  | .call c => if s.running then D \ redrawn s c else D
  | .exit => if s.running then ∅ else D

/-- Calls 9 and 10 redraw every row that is stale. -/
def Redraws (s : State) (D : Finset ℕ) : Call → Prop
  | .write _ | .clear => True
  | c => D ⊆ redrawn s c

lemma syscall_putcharAt (s : State) (ebx ecx edx esi : ℕ) :
    s.syscall (.putcharAt ebx ecx edx esi) =
      if ecx < 80 ∧ edx < 25 then
        (s.setCur (s.cur.termPutcharAt (UInt8.ofNat ebx) ecx edx (UInt8.ofNat esi))).blitRow edx
      else s := rfl

lemma syscall_gotoXy (s : State) (ebx ecx : ℕ) :
    s.syscall (.gotoXy ebx ecx) =
      if ebx < 80 ∧ ecx < 25 then
        let s' := (s.setCur { s.cur with cursorX := ebx, cursorY := ecx }).blitRow s.cur.cursorY
        if s.cur.cursorY ≠ s'.cur.cursorY then s'.blitRow s'.cur.cursorY else s'
      else s := rfl

/-- A character in a cell makes only its own row differ, which is drawn. -/
lemma putcharAt_fresh (h : Sound s) (hf : Fresh s D) (c : UInt8) {x y : ℕ} (hx : x < 80)
    (hy : y < 25) (color : UInt8) :
    Sound ((s.setCur (s.cur.termPutcharAt c x y color)).blitRow y) ∧
      Fresh ((s.setCur (s.cur.termPutcharAt c x y color)).blitRow y) (D.erase y) := by
  have hscreen : (s.cur.termPutcharAt c x y color).InScreen := by
    unfold termPutcharAt
    split_ifs
    · exact h.cur
    · exact h.cur
  have hstale : Fresh (s.setCur (s.cur.termPutcharAt c x y color)) (insert y D) := by
    intro z hz hn i hi
    rw [Finset.mem_insert, not_or] at hn
    rw [cur_setCur]
    refine (hf z hz hn.2 i hi).trans ?_
    unfold termPutcharAt
    split_ifs
    · rfl
    · refine (setCell_pic hx c color fun hi' => ?_).symm
      unfold InRow at hi hi'
      omega
  refine ⟨(blitRow_fresh (h.setCur hscreen) hstale hy).1,
    (blitRow_fresh (h.setCur hscreen) hstale hy).2.mono fun z hz => ?_⟩
  rw [Finset.mem_erase, Finset.mem_insert] at hz
  rw [Finset.mem_erase]
  exact ⟨hz.1, hz.2.resolve_left hz.1⟩

/-- The caret leaves one row and comes to another, and both are drawn. -/
lemma gotoXy_fresh (h : Sound s) (hf : Fresh s D) {x y : ℕ} (hx : x < 80) (hy : y < 25) :
    Sound (s.syscall (.gotoXy x y)) ∧
      Fresh (s.syscall (.gotoXy x y)) (D \ {s.cur.cursorY, y}) := by
  have hscreen : InScreen { s.cur with cursorX := x, cursorY := y } := ⟨hx, hy⟩
  have hsound := h.setCur hscreen
  have hstale : Fresh (s.setCur { s.cur with cursorX := x, cursorY := y })
      (insert s.cur.cursorY (insert y D)) := by
    intro z hz hn i hi
    rw [Finset.mem_insert, Finset.mem_insert, not_or, not_or] at hn
    have hrow : ∀ w, z ≠ w → ¬ InRow w i := by
      intro w hw hi'
      unfold InRow at hi hi'
      omega
    rw [cur_setCur]
    exact (hf z hz hn.2.2 i hi).trans
      (move_pic h.cur hscreen rfl (hrow _ hn.1) (hrow _ hn.2.1)).symm
  obtain ⟨h1, f1⟩ := blitRow_fresh hsound hstale h.cur.2
  rw [syscall_gotoXy, if_pos ⟨hx, hy⟩]
  have hcur : ((s.setCur { s.cur with cursorX := x, cursorY := y }).blitRow s.cur.cursorY).cur =
      { s.cur with cursorX := x, cursorY := y } := by
    rw [cur_blitRow, cur_setCur]
  simp only [hcur]
  split_ifs with hne
  · obtain ⟨h2, f2⟩ := blitRow_fresh h1 f1 hy
    refine ⟨h2, f2.mono fun z hz => ?_⟩
    simp only [Finset.mem_erase, Finset.mem_insert] at hz
    simp only [Finset.mem_sdiff, Finset.mem_insert, Finset.mem_singleton, not_or]
    exact ⟨(hz.2.2.resolve_left hz.2.1).resolve_left hz.1, hz.2.1, hz.1⟩
  · rw [not_not] at hne
    refine ⟨h1, f1.mono fun z hz => ?_⟩
    simp only [Finset.mem_erase, Finset.mem_insert] at hz
    simp only [Finset.mem_sdiff, Finset.mem_insert, Finset.mem_singleton, not_or]
    rw [← hne]
    exact ⟨((hz.2.resolve_left hz.1).resolve_left (by rw [← hne]; exact hz.1)), hz.1, hz.1⟩

/-- One call. -/
lemma syscall_fresh (h : Sound s) (hf : Fresh s D) (hrun : s.running = true) (c : Call) :
    Sound (s.syscall c) ∧ Fresh (s.syscall c) (staleAfter s D (.call c)) := by
  cases c with
  | write buf =>
    simp only [staleAfter, hrun, if_true]
    exact blit_fresh (h.setCur (termPrintColor_inScreen buf _ h.cur))
  | clear =>
    simp only [staleAfter, hrun, if_true]
    exact blit_fresh (h.setCur (termClear_inScreen s.cur))
  | putcharAt ebx ecx edx esi =>
    simp only [staleAfter, redrawn, hrun, if_true, syscall_putcharAt]
    by_cases hin : ecx < 80 ∧ edx < 25
    · rw [if_pos hin, if_pos hin, Finset.sdiff_singleton_eq_erase]
      exact putcharAt_fresh h hf _ hin.1 hin.2 _
    · rw [if_neg hin, if_neg hin, Finset.sdiff_empty]
      exact ⟨h, hf⟩
  | gotoXy ebx ecx =>
    simp only [staleAfter, redrawn, hrun, if_true]
    by_cases hin : ebx < 80 ∧ ecx < 25
    · rw [if_pos hin]
      exact gotoXy_fresh h hf hin.1 hin.2
    · rw [syscall_gotoXy, if_neg hin, if_neg hin, Finset.sdiff_empty]
      exact ⟨h, hf⟩

/-! ### Whole runs -/

/-- An event, with the rows that are stale. -/
def execStale (p : State × Finset ℕ) (e : Event) : State × Finset ℕ :=
  (p.1.exec e, staleAfter p.1 p.2 e)

/-- The condition on an event: a call of the program redraws every row that is stale. -/
def CallsRedraw (p : State × Finset ℕ) : Event → Prop
  | .call c => p.1.running = true → Redraws p.1 p.2 c
  | _ => True

/-- After a call of the program the screen shows the current terminal. -/
def CallShows (s : State) (e : Event) : Prop :=
  ∀ c, e = .call c → s.running = true → Shows (s.exec e)

/-- **The invariant**: only rows of the set are stale, and at the shell none is. -/
structure Screen (p : State × Finset ℕ) : Prop where
  sound : Sound p.1
  fresh : Fresh p.1 p.2
  shell : p.1.running = false → p.2 = ∅
  prompt : p.1.running = true → p.1.cur.prompt = false

lemma running_syscall (s : State) (c : Call) : (s.syscall c).running = s.running := by
  cases c with
  | write buf => rfl
  | clear => rfl
  | putcharAt ebx ecx edx esi =>
    rw [syscall_putcharAt]
    split_ifs <;> rfl
  | gotoXy ebx ecx =>
    rw [syscall_gotoXy]
    dsimp only
    split_ifs <;> rfl

lemma prompt_termPrintColor (t : Terminal) (str : List UInt8) (color : UInt8) :
    (t.termPrintColor str color).prompt = t.prompt := by
  unfold termPrintColor
  induction str generalizing t with
  | nil => rfl
  | cons c l ih =>
    rw [List.foldl_cons, ih]
    unfold termPutchar termScroll setCell
    dsimp only
    split_ifs <;> rfl

/-- A program does not touch the prompt. -/
lemma prompt_syscall (s : State) (c : Call) : (s.syscall c).cur.prompt = s.cur.prompt := by
  cases c with
  | write buf =>
    change (s.setCur _).cur.prompt = _
    rw [cur_setCur, prompt_termPrintColor]
  | clear =>
    change (s.setCur s.cur.termClear).cur.prompt = _
    rw [cur_setCur]
    rfl
  | putcharAt ebx ecx edx esi =>
    rw [syscall_putcharAt]
    split_ifs
    · rw [cur_blitRow, cur_setCur]
      unfold termPutcharAt
      split_ifs <;> rfl
    · rfl
  | gotoXy ebx ecx =>
    rw [syscall_gotoXy]
    dsimp only
    split_ifs
    · rw [cur_blitRow, cur_blitRow, cur_setCur]
    · rw [cur_blitRow, cur_setCur]
    · rfl

/-- One event keeps the invariant. -/
lemma exec_screen {p : State × Finset ℕ} (h : Screen p) (e : Event) : Screen (execStale p e) := by
  obtain ⟨s, D⟩ := p
  unfold execStale
  cases e with
  | key c ctrl o =>
    by_cases hrun : s.running = true
    · simp only [State.exec, staleAfter, hrun, if_true]
      exact ⟨h.sound, h.fresh, fun h' => absurd (hrun.symm.trans h') (by decide), h.prompt⟩
    · have hD := h.shell (by simpa using hrun)
      simp only at hD
      subst hD
      simp only [State.exec, staleAfter, if_neg hrun]
      rcases shellKey_cases h.sound c ctrl o with ⟨h1, f1, e⟩ | e
      · have hstop : (s.shellKey c ctrl o).running = false := e.trans (by simpa using hrun)
        simp only [hstop, Bool.false_eq_true, if_false]
        refine ⟨h1, f1, fun _ => rfl, fun h' => ?_⟩
        rw [hstop] at h'
        cases h'
      · rw [e]
        simp only [if_true]
        refine ⟨newline_sound h.sound, newline_fresh h.sound h.fresh, (fun h' => by cases h'),
          fun _ => ?_⟩
        exact congrArg Terminal.prompt (cur_setCur s _)
  | call c =>
    by_cases hrun : s.running = true
    · obtain ⟨h1, f1⟩ := syscall_fresh h.sound h.fresh hrun c
      simp only [State.exec, hrun, if_true]
      refine ⟨h1, f1, fun h' => ?_, fun _ => (prompt_syscall s c).trans (h.prompt hrun)⟩
      simp only [running_syscall, hrun] at h'
      cases h'
    · have hsame : staleAfter s D (.call c) = D := by
        cases c <;> simp only [staleAfter, if_neg hrun]
      simp only [State.exec, if_neg hrun, hsame]
      exact h
  | exit =>
    by_cases hrun : s.running = true
    · simp only [State.exec, staleAfter, hrun, if_true]
      have hsound : Sound { s.setCur { s.cur with len := 0 } with running := false } :=
        (h.sound.setCur (t := { s.cur with len := 0 }) h.sound.cur).of_same rfl rfl
      have hprompt : ({ s.setCur { s.cur with len := 0 } with running := false } : State).cur.prompt
          = false := (congrArg Terminal.prompt (cur_setCur s _)).trans (h.prompt hrun)
      have hrun' : (s.exitToShell).running = false := running_shellTop _
      have hexit : s.exitToShell =
          ({ s.setCur { s.cur with len := 0 } with running := false } : State).showPrompt.blit := by
        unfold State.exitToShell State.shellTop
        rw [if_neg (by rw [hprompt]; decide)]
      obtain ⟨h1, f1⟩ := blit_fresh (showPrompt_sound hsound)
      refine ⟨hexit ▸ h1, hexit ▸ f1, fun _ => rfl, fun h' => ?_⟩
      rw [hrun'] at h'
      cases h'
    · simp only [State.exec, staleAfter, if_neg hrun]
      exact h

/-- A call that redraws the stale rows shows the terminal. -/
lemma call_shows {p : State × Finset ℕ} (h : Screen p) {e : Event} (hq : CallsRedraw p e) :
    CallShows p.1 e := by
  intro c he hrun
  subst he
  have h' := exec_screen h (.call c)
  have hempty : staleAfter p.1 p.2 (.call c) = ∅ := by
    have hredraw := hq hrun
    cases c with
    | write buf => simp only [staleAfter, hrun, if_true]
    | clear => simp only [staleAfter, hrun, if_true]
    | putcharAt ebx ecx edx esi =>
      simp only [staleAfter, hrun, if_true]
      exact Finset.sdiff_eq_empty_iff_subset.mpr hredraw
    | gotoXy ebx ecx =>
      simp only [staleAfter, hrun, if_true]
      exact Finset.sdiff_eq_empty_iff_subset.mpr hredraw
  have hfresh := h'.fresh
  change Fresh _ (staleAfter p.1 p.2 (.call c)) at hfresh
  rw [hempty] at hfresh
  exact (shows_iff h'.sound).mpr hfresh

lemma calls_show {p : State × Finset ℕ} (h : Screen p) {l : List Event}
    (hl : Along execStale CallsRedraw p l) : Along State.exec CallShows p.1 l := by
  induction l generalizing p with
  | nil => exact along_nil
  | cons e l ih => exact ⟨call_shows h hl.1, ih (exec_screen h e) hl.2⟩

/-! ### Boot -/

lemma wmInit_sound (s : State) : Sound s.wmInit :=
  ⟨fun _ _ => termClear_inScreen _, Nat.succ_pos _⟩

/-- Texts printed to the current terminal. -/
lemma printed_sound (h : Sound s) (l : List (List UInt8 × UInt8)) (str : List UInt8) :
    Sound { s.setCur ((l.foldl (fun t g => t.termPrintColor g.1 g.2) s.cur).termPrint str) with
      running := false } := by
  have hl : ∀ t : Terminal, t.InScreen →
      (l.foldl (fun t g => t.termPrintColor g.1 g.2) t).InScreen := by
    induction l with
    | nil => exact fun _ h => h
    | cons g l ih => exact fun t h => ih _ (termPrintColor_inScreen g.1 g.2 h)
  exact (h.setCur (termPrintColor_inScreen str _ (hl s.cur h.cur))).of_same rfl rfl

lemma running_boot (s : State) (kb frames : List UInt8) (mounted : Bool) :
    (s.boot kb frames mounted).running = false := by
  unfold State.boot
  rw [running_shellTop]
  rfl

lemma boot_screen (s : State) (kb frames : List UInt8) (mounted : Bool) :
    Screen (s.boot kb frames mounted, ∅) := by
  have hprinted := printed_sound (wmInit_sound s) (greeting kb frames mounted) (text "\n")
  have hstop := running_boot s kb frames mounted
  obtain ⟨h1, f1⟩ := blit_fresh hprinted
  obtain ⟨h2, f2⟩ := shellTop_fresh h1 f1
  refine ⟨h2, f2, fun _ => rfl, fun h' => ?_⟩
  rw [hstop] at h'
  cases h'

/-- **The screen after every display call**, from boot on and whatever is typed, run and drawn: it shows
the current terminal, in every run in which the calls 9 and 10 redraw the rows that the start of the
program has left stale. -/
theorem display_calls (s : State) (kb frames : List UInt8) (mounted : Bool) (l : List Event)
    (hl : Along execStale CallsRedraw (s.boot kb frames mounted, ∅) l) :
    Along State.exec CallShows (s.boot kb frames mounted) l :=
  calls_show (boot_screen s kb frames mounted) hl

/-- A machine before boot. -/
def bareState : State where
  terms := fun _ =>
    { cursorX := 0, cursorY := 0, cells := fun _ => 0, color := 0, len := 0, prompt := false }
  current := 0
  vga := fun _ => 0
  running := false

lemma run_screen {p : State × Finset ℕ} (h : Screen p) (l : List Event) :
    Screen (run execStale p l) :=
  run_inv_all (P := Screen) (fun _ e h => exec_screen h e) l h

/-- The keys of a line. -/
def typed (line : List UInt8) : List Event := line.map fun c => .key c.toNat false (.returns [])

/-- While no row is stale, none is after a call. -/
lemma along_calls {p : State × Finset ℕ} (hD : p.2 = ∅) (l : List Call) :
    Along execStale CallsRedraw p (l.map Event.call) := by
  induction l generalizing p with
  | nil => exact along_nil
  | cons c l ih =>
    refine ⟨fun _ => ?_, ih ?_⟩
    · rw [hD]
      cases c with
      | write buf => trivial
      | clear => trivial
      | putcharAt ebx ecx edx esi => exact Finset.empty_subset _
      | gotoXy ebx ecx => exact Finset.empty_subset _
    · change staleAfter p.1 p.2 (.call c) = ∅
      rw [hD]
      cases c <;> simp [staleAfter]

lemma along_typed (p : State × Finset ℕ) (line : List UInt8) :
    Along execStale CallsRedraw p (typed line) := by
  induction line generalizing p with
  | nil => exact along_nil
  | cons c l ih => exact ⟨trivial, ih _⟩

/-- Whatever was stale, a program that clears the screen first may make any calls. -/
lemma along_clear {p : State × Finset ℕ} (h : Screen p) (l : List Call) :
    Along execStale CallsRedraw p ((.clear :: l).map Event.call) := by
  refine ⟨fun _ => trivial, along_calls ?_ l⟩
  change staleAfter p.1 p.2 (.call .clear) = ∅
  by_cases hrun : p.1.running = true
  · simp only [staleAfter, hrun, if_true]
  · simp only [staleAfter, if_neg hrun]
    exact h.shell (by simpa using hrun)

/-- A program that clears the screen, draws a cell, moves the caret and prints. -/
theorem display_calls_bare : Along State.exec CallShows (bareState.boot (text "3072") (text "500") true)
    ((typed (text "run f") ++ [.key 10 false .starts]) ++
      [Call.clear, .putcharAt 88 3 5 15, .gotoXy 7 12, .write (text "ok")].map .call) :=
  display_calls bareState (text "3072") (text "500") true _ (along_append.mpr
    ⟨along_append.mpr ⟨along_typed _ _, trivial, trivial⟩,
      along_clear (run_screen (boot_screen bareState (text "3072") (text "500") true) _) _⟩)

/-! ### A program that draws a cell first -/

/-- `run f`, where `f` clears the screen and puts a white blank where the caret comes to stand when the
next line is typed. -/
def clearRun : List Event :=
  typed (text "run f") ++
    [.key 10 false .starts, .call .clear, .call (.putcharAt 32 17 0 15), .exit]

lemma exec_starts (hrun : s.running = false) : s.exec (.key 10 false .starts) =
    { s.setCur { s.cur.termPutchar 10 (vgaColor black white) with prompt := false } with
      running := true } := by
  simp only [State.exec, hrun]
  rfl

/-- A key of a line draws its character. -/
lemma exec_printable (hrun : s.running = false) {c : UInt8} (hc : 32 ≤ c.toNat ∧ c.toNat ≤ 126)
    (hlen : s.cur.len < termBufSize - 1) (o : Outcome) : s.exec (.key c.toNat false o) =
      (s.setCur ({ s.cur with len := s.cur.len + 1 }.termPutchar c (vgaColor black white))).blit := by
  simp only [State.exec, hrun, Bool.false_eq_true, if_false]
  unfold State.shellKey
  simp only [Bool.false_eq_true, if_false]
  rw [if_neg (by omega), if_neg (by omega), if_pos (by omega), if_pos hlen, Int.toNat_natCast,
    UInt8.ofNat_toNat]

lemma len_termPutchar (t : Terminal) (n : ℕ) (c color : UInt8) :
    Terminal.termPutchar { t with len := n } c color = { t.termPutchar c color with len := n } := by
  unfold termPutchar termScroll setCell
  dsimp only
  split_ifs <;> rfl

lemma len_termPrintColor (t : Terminal) (n : ℕ) (str : List UInt8) (color : UInt8) :
    Terminal.termPrintColor { t with len := n } str color =
      { t.termPrintColor str color with len := n } := by
  unfold termPrintColor
  induction str generalizing t with
  | nil => rfl
  | cons c l ih => rw [List.foldl_cons, List.foldl_cons, len_termPutchar, ih]

/-- Typing starts no program. -/
lemma running_typed {line : List UInt8} (hline : 10 ∉ line) {s : State} (hrun : s.running = false) :
    (run State.exec s (typed line)).running = false := by
  induction line generalizing s with
  | nil => exact hrun
  | cons c l ih =>
    rw [List.mem_cons, not_or] at hline
    have hc : ¬ (c.toNat : ℤ) = 10 := fun h =>
      hline.1 (UInt8.toNat_inj.mp (Int.ofNat.inj h)).symm
    refine ih hline.2 (s := s.exec (.key c.toNat false (.returns []))) ?_
    simp only [State.exec, hrun, Bool.false_eq_true, if_false]
    unfold State.shellKey
    simp only [Bool.false_eq_true, if_false, if_neg hc]
    split_ifs <;> exact hrun

/-- Typing a line that fits in the buffer prints it. -/
lemma cur_typed {line : List UInt8}
    (hline : line.all fun c => 32 ≤ c.toNat && c.toNat ≤ 126) {s : State}
    (hrun : s.running = false) (hlen : s.cur.len + line.length < termBufSize) :
    (run State.exec s (typed line)).cur =
      { s.cur.termPrintColor line (vgaColor black white) with len := s.cur.len + line.length } := by
  induction line generalizing s with
  | nil => rfl
  | cons c l ih =>
    rw [List.length_cons] at hlen
    rw [List.all_cons, Bool.and_eq_true, Bool.and_eq_true, decide_eq_true_iff, decide_eq_true_iff] at hline
    have hkey := exec_printable hrun hline.1 (by omega) (.returns [])
    rw [len_termPutchar] at hkey
    generalize ht : ({ s.cur.termPutchar c (vgaColor black white) with len := s.cur.len + 1 } : Terminal)
      = t at hkey
    have hcur : (s.setCur t).blit.cur = t := cur_setCur s t
    have hprinted := ih (s := (s.setCur t).blit) hline.2 hrun
      (by rw [hcur, ← ht]; dsimp only; omega)
    change (run State.exec (s.exec (.key c.toNat false (.returns []))) (typed l)).cur = _
    rw [hkey, hprinted, hcur, ← ht, len_termPrintColor, List.length_cons]
    simp only [Nat.add_assoc, Nat.add_comm 1]
    rfl

/-- The current terminal when the shell is back. -/
lemma cur_exitToShell (h : s.cur.prompt = false) : s.exitToShell.cur =
    { Terminal.termPrintColor { s.cur with len := 0 } promptText (vgaColor black cyan) with
      prompt := true } := by
  have hcur : ({ s.setCur { s.cur with len := 0 } with running := false } : State).cur =
      { s.cur with len := 0 } := cur_setCur_running s _ _
  unfold State.exitToShell State.shellTop
  rw [hcur, if_neg (by rw [h]; decide)]
  unfold State.showPrompt
  rw [hcur, if_neg (by rw [h]; decide), cur_blit, cur_setCur]

/-- A text without a newline that fits on its row moves the caret along and leaves the cells behind it
alone. -/
lemma termPrintColor_row {t : Terminal} (str : List UInt8) (color : UInt8) (hnl : 10 ∉ str)
    (hx : t.cursorX + str.length < 80) (hy : t.cursorY < 25) :
    (t.termPrintColor str color).cursorX = t.cursorX + str.length ∧
      (t.termPrintColor str color).cursorY = t.cursorY ∧
      ∀ i, (t.cursorY * 80 + t.cursorX + str.length) * 2 ≤ i →
        (t.termPrintColor str color).cells i = t.cells i := by
  induction str generalizing t with
  | nil => exact ⟨rfl, rfl, fun _ _ => rfl⟩
  | cons c l ih =>
    rw [List.mem_cons, not_or] at hnl
    rw [List.length_cons] at hx ⊢
    have hput : t.termPutchar c color =
        { t.setCell (t.cursorY * 80 + t.cursorX) c color with cursorX := t.cursorX + 1 } := by
      unfold termPutchar
      dsimp only
      rw [if_neg (Ne.symm hnl.1)]
      simp only [if_neg (show ¬ t.cursorX + 1 ≥ 80 by omega)]
      exact if_neg (Nat.not_lt.mpr (Nat.le_of_lt_succ hy))
    have hfold : t.termPrintColor (c :: l) color =
        Terminal.termPrintColor { t.setCell (t.cursorY * 80 + t.cursorX) c color with
          cursorX := t.cursorX + 1 } l color := by
      rw [← hput]
      rfl
    obtain ⟨h1, h2, h3⟩ := ih (t := { t.setCell (t.cursorY * 80 + t.cursorX) c color with
      cursorX := t.cursorX + 1 }) hnl.2 (by dsimp only; omega) hy
    rw [hfold]
    refine ⟨h1.trans (by dsimp only; omega), h2, fun i hi => (h3 i ?_).trans ?_⟩
    · change (t.cursorY * 80 + (t.cursorX + 1) + l.length) * 2 ≤ i
      omega
    · unfold setCell
      dsimp only
      rw [Function.update_of_ne (by omega), Function.update_of_ne (by omega)]

/-- The terminal behind the prompt, with a white blank further on. -/
lemma prompt_terminal (t : Terminal) :
    let t' := { Terminal.termPrintColor { t.termClear.termPutcharAt 32 17 0 15 with len := 0 } promptText
      (vgaColor black cyan) with prompt := true }
    t'.cursorX = 12 ∧ t'.cursorY = 0 ∧ t'.len = 0 ∧ t'.cells 35 = 15 := by
  rw [len_termPrintColor]
  have h0 : (t.termClear.termPutcharAt 32 17 0 15).cursorX = 0 ∧
      (t.termClear.termPutcharAt 32 17 0 15).cursorY = 0 ∧
      (t.termClear.termPutcharAt 32 17 0 15).cells 35 = 15 := ⟨rfl, rfl, rfl⟩
  generalize t.termClear.termPutcharAt 32 17 0 15 = u at h0 ⊢
  obtain ⟨hx, hy, hcell⟩ := h0
  obtain ⟨h1, h2, h3⟩ := termPrintColor_row (t := u) promptText (vgaColor black cyan) (by decide)
    (by rw [hx]; decide) (by omega)
  have h3 := (h3 35 (by rw [hx, hy]; decide)).trans hcell
  have hlen : promptText.length = 12 := rfl
  rw [hx, hlen] at h1
  rw [hy] at h2
  generalize u.termPrintColor promptText (vgaColor black cyan) = w at h1 h2 h3
  exact ⟨h1, h2, rfl, h3⟩

/-- A caret on a white cell stays on the screen when a program starts that draws another row. -/
lemma stale_row (hf : Fresh s ∅) (hx : s.cur.cursorX = 17) (hy : s.cur.cursorY = 0)
    (hcell : s.cur.cells 35 = 15) (hrun : s.running = false) :
    ¬ Shows ((s.exec (.key 10 false .starts)).exec (.call (.putcharAt 88 0 10 15))) := by
  let v : Terminal := { s.cur with cursorX := 0, cursorY := s.cur.cursorY + 1, prompt := false }
  have hstart : s.exec (.key 10 false .starts) = { s.setCur v with running := true } := by
    rw [exec_starts hrun, newline_eq (by omega)]
  have hcur : ({ s.setCur v with running := true } : State).cur = v := cur_setCur_running s v true
  have hcall : ({ s.setCur v with running := true } : State).exec (.call (.putcharAt 88 0 10 15)) =
      (({ s.setCur v with running := true } : State).setCur (v.setCell 800 88 15)).blitRow 10 := by
    simp only [State.exec, if_true, syscall_putcharAt, hcur]
    rfl
  have hscreen : (v.setCell 800 88 15).InScreen :=
    ⟨Nat.succ_pos _, by change s.cur.cursorY + 1 < 25; omega⟩
  have hdrawn : (v.setCell 800 88 15).cells 35 = 15 := by
    unfold setCell
    dsimp only
    rw [Function.update_of_ne (by decide), Function.update_of_ne (by decide)]
    exact hcell
  have hcaret : (v.setCell 800 88 15).caret = 161 := by
    change ((s.cur.cursorY + 1) * 80 + 0) * 2 + 1 = 161
    rw [hy]
  rw [hstart, hcall]
  intro hshows
  have h35 := congrFun hshows 35
  rw [cur_blitRow, cur_setCur, blit_pic hscreen, if_pos (by decide)] at h35
  change _ = wmBlitRow (State.cur _) 10 s.vga 35 at h35
  rw [cur_setCur, blitRow_pic hscreen _ (by decide), if_neg (by decide),
    hf 0 (by decide) (Finset.notMem_empty _) 35 ⟨by decide, by decide⟩] at h35
  unfold pic at h35
  rw [hcaret, if_neg (by decide), hdrawn, if_pos (by unfold caret; rw [hx, hy]), hcell] at h35
  exact absurd h35 (by decide)

lemma fst_run (p : State × Finset ℕ) (l : List Event) :
    (run execStale p l).1 = run State.exec p.1 l := by
  induction l generalizing p with
  | nil => rfl
  | cons e l ih => exact ih _

/-- After `clearRun` the shell is back, its caret five places in front of the white blank. -/
lemma clearRun_cur (hrun : s.running = false) :
    (run State.exec s clearRun).running = false ∧ (run State.exec s clearRun).cur.cursorX = 12 ∧
      (run State.exec s clearRun).cur.cursorY = 0 ∧ (run State.exec s clearRun).cur.len = 0 ∧
      (run State.exec s clearRun).cur.cells 35 = 15 := by
  have hsplit : run State.exec s clearRun = run State.exec (run State.exec s (typed (text "run f")))
      [.key 10 false .starts, .call .clear, .call (.putcharAt 32 17 0 15), .exit] := run_append ..
  have hrun := @running_typed (text "run f") (by decide) _ hrun
  rw [hsplit]
  generalize run State.exec s (typed (text "run f")) = s at hrun ⊢
  generalize ht : ({ s.cur.termPutchar 10 (vgaColor black white) with prompt := false } : Terminal) = t
  have hp : t.prompt = false := by rw [← ht]
  have h1 : s.exec (.key 10 false .starts) = { s.setCur t with running := true } := by
    rw [exec_starts hrun, ht]
  have h2 : ({ s.setCur t with running := true } : State).exec (.call .clear) =
      (({ s.setCur t with running := true } : State).setCur t.termClear).blit := by
    have hcur := cur_setCur_running s t true
    change (({ s.setCur t with running := true } : State).setCur
      ({ s.setCur t with running := true } : State).cur.termClear).blit = _
    rw [hcur]
  generalize hs₂ : (({ s.setCur t with running := true } : State).setCur t.termClear).blit = s₂ at h2
  have hcur₂ : s₂.cur = t.termClear := by
    rw [← hs₂, cur_blit, cur_setCur]
  have hrun₂ : s₂.running = true := by rw [← hs₂]; rfl
  have h3 : s₂.exec (.call (.putcharAt 32 17 0 15)) =
      (s₂.setCur (t.termClear.termPutcharAt 32 17 0 15)).blitRow 0 := by
    simp only [State.exec, hrun₂, if_true, syscall_putcharAt, hcur₂]
    rfl
  generalize hs₃ : (s₂.setCur (t.termClear.termPutcharAt 32 17 0 15)).blitRow 0 = s₃ at h3
  have hcur₃ : s₃.cur = t.termClear.termPutcharAt 32 17 0 15 := by
    rw [← hs₃, cur_blitRow, cur_setCur]
  have hrun₃ : s₃.running = true := by rw [← hs₃]; exact hrun₂
  have h4 : run State.exec s [.key 10 false .starts, .call .clear, .call (.putcharAt 32 17 0 15),
      .exit] = s₃.exitToShell := by
    rw [run_cons, run_cons, run_cons, run_cons, run_nil, h1, h2, h3]
    simp only [State.exec, hrun₃, if_true]
  have hprompt : s₃.cur.prompt = false := by
    rw [hcur₃]
    exact hp
  obtain ⟨e1, e2, e3, e4⟩ := prompt_terminal t
  rw [h4, cur_exitToShell hprompt, hcur₃]
  exact ⟨running_shellTop _, e1, e2, e3, e4⟩

/-- The line behind the prompt brings the caret to the white blank. -/
lemma typed_caret (hrun : s.running = false) (hx : s.cur.cursorX = 12) (hy : s.cur.cursorY = 0)
    (hlen : s.cur.len = 0) (hcell : s.cur.cells 35 = 15) :
    (run State.exec s (typed (text "run g"))).cur.cursorX = 17 ∧
      (run State.exec s (typed (text "run g"))).cur.cursorY = 0 ∧
      (run State.exec s (typed (text "run g"))).cur.cells 35 = 15 := by
  have hfive : (text "run g").length = 5 := by decide
  rw [cur_typed (by decide) hrun (by rw [hlen, hfive]; decide)]
  obtain ⟨h1, h2, h3⟩ := termPrintColor_row (t := s.cur) (text "run g") (vgaColor black white)
    (by decide) (by rw [hx, hfive]; decide) (by omega)
  have h3 := (h3 35 (by rw [hx, hy, hfive]; decide)).trans hcell
  rw [hx, hfive] at h1
  rw [hy] at h2
  generalize s.cur.termPrintColor (text "run g") (vgaColor black white) = t at h1 h2 h3
  exact ⟨h1, h2, h3⟩

/-- **A program whose first call draws one row shows a screen on which the old caret is still seen.** -/
theorem caret_left_behind : ¬ ∀ l, Along State.exec CallShows
    (bareState.boot (text "3072") (text "500") true) l := by
  intro h
  have hboot := boot_screen bareState (text "3072") (text "500") true
  have hrun := running_boot bareState (text "3072") (text "500") true
  generalize bareState.boot (text "3072") (text "500") true = s at h hboot hrun
  obtain ⟨hback, hx, hy, hlen, hcell⟩ := clearRun_cur hrun
  have hcaret := typed_caret hback hx hy hlen hcell
  have hrun' := @running_typed (text "run g") (by decide) _ hback
  rw [← run_append] at hcaret hrun'
  have hscreen := run_screen hboot (clearRun ++ typed (text "run g"))
  have hfst := fst_run (s, ∅) (clearRun ++ typed (text "run g"))
  have hD := hscreen.shell (by rw [hfst]; exact hrun')
  have hsound := hscreen.sound
  have hfresh := hscreen.fresh
  rw [hD] at hfresh
  rw [hfst] at hsound hfresh
  have hall := h ((clearRun ++ typed (text "run g")) ++
    [.key 10 false .starts, .call (.putcharAt 88 0 10 15)])
  obtain ⟨-, hkey, hcall, -⟩ := along_append.mp hall
  refine stale_row hfresh hcaret.1 hcaret.2.1 hcaret.2.2 hrun' (hcall _ rfl ?_)
  rw [exec_starts hrun']

end LunariaOS.Wm
