import LunariaOS.Wm.Code

/-!
The cells of the current terminal, and what the system calls of a program make of them.

`sys_putchar_at` draws nothing for a newline or outside the screen, and `sys_clear` fills the screen
with spaces in the colours of the terminal, which are white on black for every terminal since
`wm_init`.
-/

namespace LunariaOS.Wm

open LunariaOS.Lib

/-- A cell of the screen: its character and its attribute. -/
structure Cell where
  ch : UInt8
  attr : UInt8
  deriving DecidableEq

namespace Cell

/-- The background, as a number of a colour. -/
def back (c : Cell) : UInt8 := c.attr >>> 4

/-- The foreground, as a number of a colour. -/
def fore (c : Cell) : UInt8 := c.attr &&& 15

/-- Two cells that look the same: the foreground of a space is not seen. -/
def Alike (c c' : Cell) : Prop :=
  c.ch = c'.ch ∧ c.back = c'.back ∧ (c.ch ≠ 32 → c.fore = c'.fore)

lemma Alike.refl (c : Cell) : c.Alike c := ⟨rfl, rfl, fun _ => rfl⟩

lemma alike_space {c c' : Cell} (h : c.ch = 32) (h' : c'.ch = 32) (hb : c.back = c'.back) :
    c.Alike c' := ⟨h.trans h'.symm, hb, fun hc => absurd h hc⟩

end Cell

namespace State

variable {s : State} {x y : ℕ}

/-- The cell of a place of the current terminal. -/
def cell (s : State) (x y : ℕ) : Cell :=
  ⟨s.cur.cells ((y * 80 + x) * 2), s.cur.cells ((y * 80 + x) * 2 + 1)⟩

lemma terms_blit (s : State) : s.blit.cur = s.cur := rfl

lemma terms_blitRow (s : State) (y : ℕ) : (s.blitRow y).cur = s.cur := rfl

lemma cur_set (s : State) (t : Terminal) : (s.setCur t).cur = t := Function.update_self ..

/-! ### What a call draws -/

lemma cell_putcharAt {c a : UInt8} {x' y' : ℕ} (hc : c ≠ 10) (hx : x < 80) (hy : y < 25)
    (hx' : x' < 80) :
    (s.syscall (.putcharAt c.toNat x y a.toNat)).cell x' y' =
      if x' = x ∧ y' = y then ⟨c, a⟩ else s.cell x' y' := by
  simp only [syscall, hx, hy, and_self, if_true, cell, terms_blitRow, cur_set, UInt8.ofNat_toNat,
    Terminal.termPutcharAt, if_neg hc, Terminal.setCell, Function.update_apply]
  by_cases h : x' = x ∧ y' = y
  · obtain ⟨rfl, rfl⟩ := h
    rw [if_neg (by omega), if_pos rfl, if_pos rfl, if_pos ⟨rfl, rfl⟩]
  · rw [if_neg (by omega), if_neg (by omega), if_neg (by omega), if_neg (by omega), if_neg h]

/-- A newline is not drawn. -/
lemma cell_putcharAt_newline (s : State) (x y esi x' y' : ℕ) :
    (s.syscall (.putcharAt (UInt8.toNat 10) x y esi)).cell x' y' = s.cell x' y' := by
  have h : (s.syscall (.putcharAt (UInt8.toNat 10) x y esi)).cur = s.cur := by
    unfold syscall
    dsimp only
    split_ifs
    · rw [terms_blitRow, cur_set]
      rfl
    · rfl
  unfold cell
  rw [h]

lemma cell_clear (hx : x < 80) (hy : y < 25) : (s.syscall .clear).cell x y = ⟨32, s.cur.color⟩ := by
  simp only [syscall, cell, terms_blit, cur_set, Terminal.termClear]
  rw [if_pos (by omega), if_pos (by omega), if_pos (by omega), if_neg (by omega)]

lemma cell_gotoXy (s : State) (ebx ecx x y : ℕ) : (s.syscall (.gotoXy ebx ecx)).cell x y = s.cell x y := by
  have h : (s.syscall (.gotoXy ebx ecx)).cur.cells = s.cur.cells := by
    unfold syscall
    dsimp only
    split_ifs <;> simp only [terms_blitRow, cur_set]
  unfold cell
  rw [h]

/-! ### The colours of a terminal -/

/-- Every terminal clears to white on black. -/
def Clears (s : State) : Prop := ∀ i, (s.terms i).color = vgaColor black white

lemma Clears.setCur (h : Clears s) {t : Terminal} (ht : t.color = vgaColor black white) :
    Clears (s.setCur t) := by
  intro i
  simp only [State.setCur, Function.update_apply]
  split_ifs
  · exact ht
  · exact h i

lemma Clears.cur (h : Clears s) : s.cur.color = vgaColor black white := h _

lemma color_termPutchar (t : Terminal) (c color : UInt8) : (t.termPutchar c color).color = t.color := by
  unfold Terminal.termPutchar Terminal.termScroll Terminal.setCell
  dsimp only
  split_ifs <;> rfl

lemma color_termPrintColor (t : Terminal) (str : List UInt8) (color : UInt8) :
    (t.termPrintColor str color).color = t.color := by
  unfold Terminal.termPrintColor
  induction str generalizing t with
  | nil => rfl
  | cons c l ih => exact (ih _).trans (color_termPutchar t c color)

lemma color_termBackspace (t : Terminal) : t.termBackspace.color = t.color := by
  unfold Terminal.termBackspace
  dsimp only
  split_ifs <;> rfl

lemma color_outs (t : Terminal) (l : List Out) : (l.foldl out t).color = t.color := by
  induction l generalizing t with
  | nil => rfl
  | cons o l ih =>
    refine (ih _).trans ?_
    cases o with
    | putchar c color => exact color_termPutchar t c color
    | clear => rfl

lemma Clears.syscall (h : Clears s) (c : Call) : Clears (s.syscall c) := by
  have hc := h.cur
  cases c with
  | write buf => exact h.setCur ((color_termPrintColor _ _ _).trans hc)
  | clear => exact h.setCur hc
  | putcharAt ebx ecx edx esi =>
    unfold State.syscall
    dsimp only
    split_ifs
    · refine h.setCur ?_
      unfold Terminal.termPutcharAt
      split_ifs <;> exact hc
    · exact h
  | gotoXy ebx ecx =>
    unfold State.syscall
    dsimp only
    split_ifs
    · exact h.setCur hc
    · exact h.setCur hc
    · exact h

lemma Clears.showPrompt (h : Clears s) : Clears s.showPrompt := by
  unfold State.showPrompt
  split_ifs
  · exact h
  · refine h.setCur ?_
    dsimp only
    rw [color_termPrintColor, h.cur]

lemma Clears.blit (h : Clears s) : Clears s.blit := h

lemma Clears.shellTop (h : Clears s) : Clears s.shellTop := by
  unfold State.shellTop
  split_ifs
  · exact h
  · exact h.showPrompt.blit

lemma Clears.switchWorkspace (h : Clears s) (idx : ℕ) : Clears (s.switchWorkspace idx) := by
  have hs : Clears (s.wmSwitch idx) := by
    unfold State.wmSwitch
    split_ifs
    · exact h
    · exact Clears.blit h
  exact hs.showPrompt.blit

lemma Clears.shellKey (h : Clears s) (c : ℤ) (ctrl : Bool) (o : Outcome) :
    Clears (s.shellKey c ctrl o) := by
  have hc := h.cur
  have ht : (s.cur.termPutchar 10 (vgaColor black white)).color = vgaColor black white :=
    (color_termPutchar _ _ _).trans hc
  unfold State.shellKey
  generalize (if ctrl then workspaceOf c else none) = ws
  cases ws with
  | some ws => exact h.switchWorkspace ws
  | none =>
    dsimp only
    split_ifs
    · cases o with
      | returns l =>
        refine Clears.shellTop (Clears.blit (h.setCur ?_))
        exact (color_outs _ l).trans ht
      | starts =>
        refine Clears.setCur h ?_
        exact ht
    · exact Clears.blit (h.setCur ((color_termBackspace _).trans hc))
    · exact h.blit
    · exact Clears.blit (h.setCur ((color_termPutchar _ _ _).trans hc))
    · exact h.blit
    · exact h.blit

lemma Clears.exec (h : Clears s) (e : Event) : Clears (s.exec e) := by
  cases e with
  | key c ctrl o =>
    unfold State.exec
    dsimp only
    split_ifs
    · exact h
    · exact h.shellKey c ctrl o
  | call c =>
    unfold State.exec
    dsimp only
    split_ifs
    · exact h.syscall c
    · exact h
  | exit =>
    unfold State.exec
    dsimp only
    split_ifs
    · exact Clears.shellTop (h.setCur h.cur)
    · exact h

lemma clears_boot (s : State) (kb frames : List UInt8) (mounted : Bool) :
    Clears (s.boot kb frames mounted) := by
  have h0 : Clears s.wmInit := fun _ => rfl
  have hp : ∀ (l : List (List UInt8 × UInt8)) (t : Terminal),
      (l.foldl (fun t g => t.termPrintColor g.1 g.2) t).color = t.color := by
    intro l
    induction l with
    | nil => exact fun t => rfl
    | cons g l ih => exact fun t => (ih _).trans (color_termPrintColor t g.1 g.2)
  exact Clears.shellTop (h0.setCur
    ((color_termPrintColor _ _ _).trans ((hp _ _).trans h0.cur)))

/-- **Every terminal clears to white on black**, whatever happens after the boot. -/
theorem clears_run (s : State) (kb frames : List UInt8) (mounted : Bool) (l : List Event) :
    Clears (run exec (s.boot kb frames mounted) l) :=
  run_inv_all (fun _ e h => h.exec e) l (clears_boot s kb frames mounted)

end State

end LunariaOS.Wm
