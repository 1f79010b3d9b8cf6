import LunariaOS.Lib.Sweep
import LunariaOS.Paint.Code

/-!
What the drawing program leaves on the screen.

`Ready` is the invariant at the moment before the cursor is drawn: the memory of the screen is right
and every cell of the canvas but the one of the cursor remembers its pixel. Drawing the cursor makes
it `Inv`, and every key goes through `Ready` on its way from `Inv` to `Inv`.
-/

namespace LunariaOS.Paint.State

open LunariaOS.Lib LunariaOS.Fs LunariaOS.Wm
open LunariaOS.Wm.State (Clears cell_putcharAt cell_clear cell_gotoXy)

variable {s s' : State}

/-- What is remembered of a cell is what is there; a cell that has not been drawn yet counts as a
black space. -/
def Remembers (c : Cell) (seen : Cell) : Prop := c = seen ∨ c = ⟨32, 0⟩ ∧ seen = ⟨32, 15⟩

/-- The memory of the screen is right. -/
structure Sync (s : State) : Prop where
  clears : Clears s.wm
  remembers : ∀ y < 25, ∀ x < 80, Remembers (s.view y x) (s.wm.cell x y)

/-- `s'` is `s` after some drawing. -/
def Draws (s s' : State) : Prop := ∃ v w, s' = { s with view := v, wm := w }

/-- The place of the cursor. -/
def At (s : State) (y x : ℕ) : Prop := y = s.cy.toNat ∧ x = s.cx.toNat

instance (s : State) (y x : ℕ) : Decidable (s.At y x) :=
  inferInstanceAs (Decidable (y = s.cy.toNat ∧ x = s.cx.toNat))

/-- The cursor and the colour are in range, and the status line has no newline. -/
structure Bounds (s : State) : Prop where
  cx_nonneg : 0 ≤ s.cx
  cx_lt : s.cx < 80
  cy_nonneg : 0 ≤ s.cy
  cy_lt : s.cy < 24
  fgcol_nonneg : 0 ≤ s.fgcol
  fgcol_le : s.fgcol ≤ 15
  line : ∀ x < 80, s.stateline x ≠ 10

/-- The invariant before the cursor is drawn. -/
structure Ready (s : State) : Prop extends Sync s, Bounds s where
  canvas : ∀ y < 24, ∀ x < 80, ¬ s.At y x → s.view y x = block (s.pix y x)

/-- The invariant between two keys. -/
structure Inv (s : State) : Prop extends Ready s where
  cursor : s.view s.cy.toNat s.cx.toNat = star

/-! ### What a call draws -/

lemma Draws.refl (s : State) : Draws s s := ⟨s.view, s.wm, rfl⟩

lemma Draws.trans {s'' : State} (h : Draws s s') (h' : Draws s' s'') : Draws s s'' := by
  obtain ⟨v, w, rfl⟩ := h
  obtain ⟨v', w', rfl⟩ := h'
  exact ⟨v', w', rfl⟩

lemma Draws.pix (h : Draws s s') : s'.pix = s.pix := by
  obtain ⟨v, w, rfl⟩ := h
  rfl

lemma Draws.stateline (h : Draws s s') : s'.stateline = s.stateline := by
  obtain ⟨v, w, rfl⟩ := h
  rfl

lemma Draws.bounds (h : Draws s s') (hb : Bounds s) : Bounds s' := by
  obtain ⟨v, w, rfl⟩ := h
  exact ⟨hb.1, hb.2, hb.3, hb.4, hb.5, hb.6, hb.7⟩

lemma Draws.at_iff (h : Draws s s') (y x : ℕ) : s'.At y x ↔ s.At y x := by
  obtain ⟨v, w, rfl⟩ := h
  exact Iff.rfl

lemma put_draws (s : State) (x y : ℤ) (c : Cell) : Draws s (s.put x y c) := ⟨_, _, rfl⟩

lemma unsigned_eq {n : ℤ} (h : 0 ≤ n) (h' : n < 80) : unsigned n = n.toNat := by
  unfold unsigned
  omega

lemma Sync.put (h : Sync s) {x y : ℤ} {c : Cell} (hc : c.ch ≠ 10) (hx : 0 ≤ x) (hx' : x < 80)
    (hy : 0 ≤ y) (hy' : y < 25) : Sync (s.put x y c) := by
  refine ⟨h.clears.syscall _, fun j hj i hi => ?_⟩
  unfold State.put
  rw [unsigned_eq hx hx', unsigned_eq hy (by omega)]
  dsimp only
  rw [cell_putcharAt hc (by omega) (by omega) hi]
  unfold setAt
  by_cases hp : j = y.toNat ∧ i = x.toNat
  · rw [if_pos hp, if_pos hp.symm]
    exact Or.inl rfl
  · rw [if_neg hp, if_neg fun e => hp e.symm]
    exact h.remembers j hj i hi

lemma put_view (s : State) (x y : ℤ) (c : Cell) (j i : ℕ) :
    (s.put x y c).view j i = if j = y.toNat ∧ i = x.toNat then c else s.view j i := rfl

/-! ### A cell of the canvas -/

lemma drawContent_draws (s : State) (x y : ℤ) : Draws s (s.drawContent x y) := by
  unfold drawContent
  dsimp only
  split_ifs
  · exact .refl s
  · exact .refl s
  · exact put_draws s x y _

lemma Sync.drawContent (h : Sync s) (x y : ℤ) : Sync (s.drawContent x y) := by
  unfold State.drawContent
  dsimp only
  split_ifs with hin hv
  · exact h
  · exact h
  · unfold canvH canvW at hin
    exact h.put (show (32 : UInt8) ≠ 10 by decide) (by omega) (by omega) (by omega) (by omega)

/-- A cell that is drawn remembers its pixel, and no other cell changes. -/
lemma drawContent_view (s : State) {x y : ℤ} (hx : 0 ≤ x) (hx' : x < 80) (hy : 0 ≤ y)
    (hy' : y < 24) (j i : ℕ) : (s.drawContent x y).view j i =
      if j = y.toNat ∧ i = x.toNat then block (s.pix j i) else s.view j i := by
  unfold drawContent
  rw [if_neg (by unfold canvH canvW; omega)]
  dsimp only
  by_cases hp : j = y.toNat ∧ i = x.toNat
  · rw [if_pos hp]
    obtain ⟨rfl, rfl⟩ := hp
    split_ifs with hv
    · exact hv
    · rw [put_view, if_pos ⟨rfl, rfl⟩]
  · rw [if_neg hp]
    split_ifs
    · rfl
    · rw [put_view, if_neg hp]

/-! ### The cursor -/

/-- **Drawing the cursor completes the invariant.** -/
lemma Ready.drawCursor (h : Ready s) : Inv s.drawCursor := by
  have hb := h.toBounds
  have hs : Sync (s.put s.cx s.cy star) :=
    h.toSync.put (by decide) hb.cx_nonneg hb.cx_lt hb.cy_nonneg (by have := hb.cy_lt; omega)
  have hview : ∀ j i, s.drawCursor.view j i = if s.At j i then star else s.view j i := fun _ _ => rfl
  exact
    { clears := hs.clears.syscall _
      remembers := fun y hy x hx => by
        have := hs.remembers y hy x hx
        rwa [← cell_gotoXy _ (unsigned s.cx) (unsigned s.cy)] at this
      cx_nonneg := hb.cx_nonneg
      cx_lt := hb.cx_lt
      cy_nonneg := hb.cy_nonneg
      cy_lt := hb.cy_lt
      fgcol_nonneg := hb.fgcol_nonneg
      fgcol_le := hb.fgcol_le
      line := hb.line
      canvas := fun y hy x hx hat => by
        have hat : ¬ s.At y x := hat
        rw [hview, if_neg hat]
        exact h.canvas y hy x hx hat
      cursor := (hview _ _).trans (if_pos ⟨rfl, rfl⟩) }

/-! ### The status line -/

lemma statusPut_ne {str : List UInt8} (hstr : 10 ∉ str) (stop : ℕ) {line : Mem} (i : ℕ)
    (h : ∀ x < 80, line x ≠ 10) : ∀ x < 80, (statusPut line i str stop).1 x ≠ 10 := by
  induction str generalizing line i with
  | nil => exact h
  | cons b str ih =>
    rw [List.mem_cons, not_or] at hstr
    unfold statusPut
    split_ifs
    · refine ih hstr.2 _ fun x hx => ?_
      rw [Function.update_apply]
      split_ifs
      · exact Ne.symm hstr.1
      · exact h x hx
    · exact h

lemma itoaDigits_ne (m : ℕ) : 10 ∉ itoaDigits m := by
  induction m using Nat.strong_induction_on with
  | _ m ih =>
    unfold itoaDigits
    rw [List.mem_cons, not_or]
    refine ⟨fun e => ?_, ?_⟩
    · have := congrArg UInt8.toNat e
      rw [UInt8.toNat_ofNat'] at this
      have e10 : UInt8.toNat 10 = 10 := rfl
      omega
    · split_ifs with hm
      · exact ih _ (by omega)
      · exact List.not_mem_nil

lemma itoa_ne (n : ℤ) : 10 ∉ itoa n := by
  unfold itoa
  dsimp only
  rw [List.mem_reverse]
  split_ifs
  · rw [List.mem_append, not_or]
    exact ⟨itoaDigits_ne _, by decide⟩
  · exact itoaDigits_ne _

lemma cname_ne (n : ℕ) : 10 ∉ cname.getD n [] := by
  have h : ∀ str ∈ cname, 10 ∉ str := by decide
  rw [List.getD_eq_getElem?_getD]
  cases hn : cname[n]? with
  | none => exact List.not_mem_nil
  | some str => exact h str (List.mem_of_getElem? hn)

/-- No text of the status line has a newline. -/
lemma statusBuild_line (s : State) : ∀ x < 80, s.statusBuild.stateline x ≠ 10 := by
  unfold statusBuild
  dsimp only
  refine statusPut_ne (by decide) _ _ (statusPut_ne (by decide) _ _ (statusPut_ne (cname_ne _) _ _
    (statusPut_ne (by decide) _ _ (statusPut_ne (itoa_ne _) _ _ (statusPut_ne (by decide) _ _
      (statusPut_ne ?_ _ _ fun x hx => ?_))))))
  · split_ifs <;> decide
  · rw [Mem.blit_of_in _ _ (Nat.zero_le x) (by unfold statusW; omega)]
    decide

lemma flushCell_draws (s : State) (x : ℕ) : Draws s (s.flushCell x) := by
  unfold flushCell
  split_ifs
  · exact .refl s
  · exact put_draws s x statusRow _

/-- The status line is drawn in the row below the canvas. -/
lemma flushStatus_spec (h : Sync s) (hline : ∀ x < 80, s.stateline x ≠ 10) :
    Sync s.flushStatus ∧ Draws s s.flushStatus ∧
      ∀ y < 24, ∀ x, s.flushStatus.view y x = s.view y x := by
  have hrow : statusRow = 24 := rfl
  have hstep : ∀ t : State, Sync t ∧ Draws s t ∧ (∀ y < 24, ∀ x, t.view y x = s.view y x) →
      ∀ x ∈ List.range statusW, Sync (t.flushCell x) ∧ Draws s (t.flushCell x) ∧
        ∀ y < 24, ∀ i, (t.flushCell x).view y i = s.view y i := by
    rintro t ⟨ht, hd, hv⟩ x hx
    have hx : x < 80 := List.mem_range.mp hx
    refine ⟨?_, hd.trans (flushCell_draws t x), fun y hy i => ?_⟩
    · unfold flushCell
      split_ifs
      · exact ht
      · refine ht.put ?_ (by omega) (by omega) (by omega) (by omega)
        rw [hd.stateline]
        exact hline x hx
    · rw [← hv y hy i]
      unfold flushCell
      split_ifs
      · rfl
      · rw [put_view, if_neg (by omega)]
  unfold flushStatus
  exact (sweep (I := fun t => Sync t ∧ Draws s t ∧ ∀ y < 24, ∀ x, t.view y x = s.view y x)
    (D := fun _ _ => True) (l := List.range statusW) (s := s) hstep (fun _ _ _ _ => trivial)
    (fun _ _ _ _ _ _ => trivial) ⟨h, .refl s, fun _ _ _ => rfl⟩).1

/-! ### The whole canvas -/

/-- **Redrawing needs nothing of the canvas**: every cell is made to show its pixel. -/
lemma redrawAll_inv (h : Sync s) (hb : Bounds s) : Inv s.redrawAll := by
  have hview : ∀ t : State, Sync t ∧ Draws s t → ∀ y ∈ List.range canvH, ∀ x ∈ List.range canvW,
      ∀ j i, (t.drawContent x y).view j i =
        if j = y ∧ i = x then block (s.pix j i) else t.view j i := by
    rintro t ⟨-, hd⟩ y hy x hx j i
    have hy : y < 24 := List.mem_range.mp hy
    have hx : x < 80 := List.mem_range.mp hx
    rw [drawContent_view t (by omega) (by omega) (by omega) (by omega), hd.pix]
    rfl
  obtain ⟨⟨h1, h2⟩, h3⟩ := sweep_rows (f := fun (t : State) (y x : ℕ) => t.drawContent x y) (s := s)
    (I := fun t => Sync t ∧ Draws s t) (D := fun y x t => t.view y x = block (s.pix y x))
    (l := List.range canvH) (k := List.range canvW)
    (fun t ht y _ x _ => ⟨ht.1.drawContent x y, ht.2.trans (drawContent_draws t x y)⟩)
    (fun t ht y hy x hx => (hview t ht y hy x hx y x).trans (if_pos ⟨rfl, rfl⟩))
    (fun t ht y hy x hx j i hd => by
      rw [hview t ht y hy x hx]
      split_ifs
      · rfl
      · exact hd) ⟨h, .refl s⟩
  unfold redrawAll redrawRow
  generalize (List.range canvH).foldl _ s = t at h1 h2 h3 ⊢
  have hbt := h2.bounds hb
  obtain ⟨f1, f2, f3⟩ := flushStatus_spec h1 hbt.line
  refine Ready.drawCursor ⟨f1, f2.bounds hbt, fun y hy x hx _ => ?_⟩
  rw [f3 y hy x, h3 y (List.mem_range.mpr hy) x (List.mem_range.mpr hx), f2.pix, h2.pix]

/-! ### The keys -/

lemma Ready.of_sync {t : State} (h : Ready s) (ht : Sync t) (hd : Draws s t)
    (hc : ∀ y < 24, ∀ x < 80, ¬ s.At y x → t.view y x = block (s.pix y x)) : Ready t where
  toSync := ht
  toBounds := hd.bounds h.toBounds
  canvas y hy x hx hat := by
    rw [hd.pix]
    exact hc y hy x hx fun e => hat ((hd.at_iff y x).mpr e)

/-- A cell of the canvas may be drawn at any time before the cursor. -/
lemma Ready.drawContent (h : Ready s) {x y : ℤ} (hx : 0 ≤ x) (hx' : x < 80) (hy : 0 ≤ y)
    (hy' : y < 24) : Ready (s.drawContent x y) := by
  refine h.of_sync (h.toSync.drawContent x y) (drawContent_draws s x y) fun j hj i hi hat => ?_
  rw [drawContent_view s hx hx' hy hy']
  split_ifs
  · rfl
  · exact h.canvas j hj i hi hat

/-- The pixel that a move in draw mode paints. -/
def paintedBy (s : State) (y x : ℤ) : ℕ → ℕ → UInt8 :=
  if s.drawing then setAt s.pix y.toNat x.toNat (UInt8.ofNat s.fgcol.toNat) else s.pix

lemma step_eq (s : State) (dx dy : ℤ) (h : ¬ (s.cx + dx < 0 ∨ s.cx + dx ≥ canvW ∨
      s.cy + dy < 0 ∨ s.cy + dy ≥ canvH)) :
    s.step dx dy = (State.drawContent { s.drawContent s.cx s.cy with
      cx := s.cx + dx
      cy := s.cy + dy
      pix := s.paintedBy (s.cy + dy) (s.cx + dx) } (s.cx + dx) (s.cy + dy)).drawCursor := by
  have hd := drawContent_draws s s.cx s.cy
  unfold State.step
  rw [if_neg h]
  obtain ⟨v, w, e⟩ := hd
  rw [e]
  unfold paintedBy
  dsimp only
  split_ifs <;> rfl

lemma step_inv (h : Inv s) (dx dy : ℤ) : Inv (s.step dx dy) := by
  by_cases hin : s.cx + dx < 0 ∨ s.cx + dx ≥ canvW ∨ s.cy + dy < 0 ∨ s.cy + dy ≥ canvH
  · unfold State.step
    rw [if_pos hin]
    exact h
  rw [step_eq s dx dy hin]
  unfold canvW canvH at hin
  have hb := h.toBounds
  have hs := h.toSync.drawContent s.cx s.cy
  obtain ⟨-, -, -, -, b5, b6, b7⟩ := (drawContent_draws s s.cx s.cy).bounds hb
  -- the cell that the cursor leaves shows its pixel again, and so do all the others
  have hall : ∀ y < 24, ∀ x < 80, (s.drawContent s.cx s.cy).view y x = block (s.pix y x) := by
    intro y hy x hx
    rw [drawContent_view s hb.cx_nonneg hb.cx_lt hb.cy_nonneg hb.cy_lt]
    split_ifs with hat
    · rfl
    · exact h.canvas y hy x hx hat
  generalize s.drawContent s.cx s.cy = t at hs b5 b6 b7 hall ⊢
  refine Ready.drawCursor (Ready.drawContent ?_ (by omega) (by omega) (by omega) (by omega))
  refine ⟨⟨hs.clears, hs.remembers⟩, ⟨?_, ?_, ?_, ?_, b5, b6, b7⟩, fun y hy x hx hat => ?_⟩
  · dsimp only
    omega
  · dsimp only
    omega
  · dsimp only
    omega
  · dsimp only
    omega
  · have hat : ¬ (y = (s.cy + dy).toNat ∧ x = (s.cx + dx).toNat) := hat
    refine (hall y hy x hx).trans (congrArg block ?_)
    unfold paintedBy
    split_ifs
    · exact (if_neg hat).symm
    · rfl

lemma setMode_inv (h : Sync s) (hb : Bounds s.statusBuild)
    (hc : ∀ y < 24, ∀ x < 80, ¬ s.At y x → s.view y x = block (s.pix y x)) : Inv s.setMode := by
  obtain ⟨f1, f2, f3⟩ := flushStatus_spec (s := s.statusBuild) ⟨h.clears, h.remembers⟩ hb.line
  refine Ready.drawCursor ⟨f1, f2.bounds hb, fun y hy x hx hat => ?_⟩
  rw [f3 y hy x, f2.pix]
  exact hc y hy x hx fun e => hat ((f2.at_iff y x).mpr e)

/-- A change of the colour keeps it in range. -/
lemma tmod_bounds {n : ℤ} (h : 0 ≤ n) : 0 ≤ n.tmod 16 ∧ n.tmod 16 ≤ 15 := by
  have := Int.tmod_lt_of_pos n (show (0 : ℤ) < 16 by decide)
  exact ⟨Int.tmod_nonneg 16 h, by omega⟩

/-- The disk does not matter to the invariant. -/
lemma Inv.withDisk (h : Inv s) (d : Disk) : Inv { s with disk := d } :=
  ⟨⟨⟨h.clears, h.remembers⟩, ⟨h.1.2.1, h.1.2.2, h.1.2.3, h.1.2.4, h.1.2.5, h.1.2.6, h.1.2.7⟩, h.canvas⟩,
    h.cursor⟩

lemma loadBit_inv (h : Inv s) (sb : Superblock) : Inv (loadBit sb s) := by
  unfold loadBit
  obtain ⟨r, d⟩ := readBit sb s.disk
  cases r with
  | none => exact h.withDisk d
  | some buf =>
    exact redrawAll_inv ⟨h.clears, h.remembers⟩
      ⟨le_refl 0, show (0 : ℤ) < 80 by decide, le_refl 0, show (0 : ℤ) < 24 by decide,
        h.fgcol_nonneg, h.fgcol_le, h.line⟩

/-- What a key does. -/
inductive Does (sb : Superblock) (s : State) (k : ℤ) : State → Prop where
  | gone (h : s.exited = true) : Does sb s k s
  | step (dx dy : ℤ) (h : k ∈ [kUp, kDown, kLeft, kRight]) : Does sb s k (s.step dx dy)
  | mode (b : Bool) (c : ℤ) (h : 0 ≤ s.fgcol → s.fgcol ≤ 15 → 0 ≤ c ∧ c ≤ 15) :
      Does sb s k { s with drawing := b, fgcol := c }.setMode
  | save : Does sb s k (saveBit sb s).drawCursor
  | load (h : k = 108 ∨ k = 76) : Does sb s k (loadBit sb s).drawCursor
  | clear (h : k = kEnter) : Does sb s k s.clearCanvas
  | exit : Does sb s k { s with wm := s.wm.syscall .clear, exited := true }
  | other : Does sb s k s.drawCursor

lemma key_does (sb : Superblock) (s : State) (k : ℤ) : Does sb s k (s.key sb k) := by
  unfold key
  by_cases h : s.exited = true
  · rw [if_pos h]
    exact .gone h
  rw [if_neg h]
  by_cases h : k = kUp
  · rw [if_pos h]
    exact .step 0 (-1) (by simp [h])
  rw [if_neg h]
  by_cases h : k = kDown
  · rw [if_pos h]
    exact .step 0 1 (by simp [h])
  rw [if_neg h]
  by_cases h : k = kLeft
  · rw [if_pos h]
    exact .step (-1) 0 (by simp [h])
  rw [if_neg h]
  by_cases h : k = kRight
  · rw [if_pos h]
    exact .step 1 0 (by simp [h])
  rw [if_neg h]
  by_cases h : k = kSpace
  · rw [if_pos h]
    exact .mode (!s.drawing) s.fgcol fun h h' => ⟨h, h'⟩
  rw [if_neg h]
  by_cases h : k = 91
  · rw [if_pos h]
    exact .mode s.drawing _ fun h _ => tmod_bounds (by omega)
  rw [if_neg h]
  by_cases h : k = 93
  · rw [if_pos h]
    exact .mode s.drawing _ fun h _ => tmod_bounds (by omega)
  rw [if_neg h]
  by_cases h : k = 115 ∨ k = 83
  · rw [if_pos h]
    exact .save
  rw [if_neg h]
  by_cases h : k = 108 ∨ k = 76
  · rw [if_pos h]
    exact .load h
  rw [if_neg h]
  by_cases h : k = kEnter
  · rw [if_pos h]
    exact .clear h
  rw [if_neg h]
  by_cases h : k = kEsc
  · rw [if_pos h]
    exact .exit
  rw [if_neg h]
  exact .other

/-- **Every key keeps the invariant**, up to escape, which ends the program. -/
theorem key_inv (sb : Superblock) (k : ℤ) (h : s.exited = false → Inv s) :
    (s.key sb k).exited = false → Inv (s.key sb k) := by
  intro he
  by_cases hs : s.exited = true
  · unfold key at he ⊢
    rw [if_pos hs] at he ⊢
    exact h he
  have h := h (Bool.not_eq_true _ ▸ hs)
  have hdoes := key_does sb s k
  generalize s.key sb k = t at he hdoes ⊢
  cases hdoes with
  | gone hg => exact absurd hg hs
  | step dx dy => exact step_inv h dx dy
  | mode b c hc =>
    obtain ⟨hc0, hc1⟩ := hc h.fgcol_nonneg h.fgcol_le
    exact setMode_inv ⟨h.clears, h.remembers⟩
      ⟨h.cx_nonneg, h.cx_lt, h.cy_nonneg, h.cy_lt, hc0, hc1, statusBuild_line _⟩ h.canvas
  | save => exact (h.withDisk _).toReady.drawCursor
  | load => exact (loadBit_inv h sb).toReady.drawCursor
  | clear =>
    exact redrawAll_inv ⟨h.clears, h.remembers⟩
      ⟨le_refl 0, show (0 : ℤ) < 80 by decide, le_refl 0, show (0 : ℤ) < 24 by decide,
        h.fgcol_nonneg, h.fgcol_le, h.line⟩
  | exit => cases (show true = false from he)
  | other => exact h.toReady.drawCursor

/-- The program starts in the invariant, whatever was on the screen. -/
lemma start_inv (d : Disk) {w : Wm.State} (hw : Clears w) : Inv (start (loaded d w)) := by
  refine redrawAll_inv ⟨hw.syscall .clear, fun y hy x hx => Or.inr ⟨rfl, ?_⟩⟩
    ⟨le_refl 0, show (0 : ℤ) < 80 by decide, le_refl 0, show (0 : ℤ) < 24 by decide,
      show (0 : ℤ) ≤ 7 by decide, show (7 : ℤ) ≤ 15 by decide, statusBuild_line _⟩
  exact (cell_clear hx hy).trans (congrArg (Cell.mk 32) hw.cur)

/-! ### What changes a pixel -/

lemma Draws.foldl {α : Type*} {f : State → α → State} (h : ∀ t a, Draws t (f t a)) (l : List α)
    (s : State) : Draws s (l.foldl f s) := by
  induction l generalizing s with
  | nil => exact .refl s
  | cons a l ih => exact (h s a).trans (ih (f s a))

lemma drawCursor_draws (s : State) : Draws s s.drawCursor := ⟨_, _, rfl⟩

lemma flushStatus_draws (s : State) : Draws s s.flushStatus := Draws.foldl flushCell_draws _ s

lemma redrawAll_draws (s : State) : Draws s s.redrawAll := by
  have hrow : ∀ (t : State) (y : ℕ), Draws t (t.redrawRow y) := fun t y =>
    Draws.foldl (fun t (x : ℕ) => drawContent_draws t x y) _ t
  exact ((Draws.foldl hrow _ s).trans (flushStatus_draws _)).trans (drawCursor_draws _)

lemma redrawAll_pix (s : State) : s.redrawAll.pix = s.pix := (redrawAll_draws s).pix

/-- What a key `k` that leads from `s` to `s'` has done to the pixel of a place, when it changed. -/
inductive Painted (sb : Superblock) (s s' : State) (k : ℤ) (y x : ℕ) : Prop where
  /-- The cursor has come to the place in draw mode. -/
  | stepped (hk : k ∈ [kUp, kDown, kLeft, kRight]) (hd : s.drawing = true) (hat : s'.At y x)
      (hp : s'.pix y x = UInt8.ofNat s.fgcol.toNat)
  | cleared (hk : k = kEnter) (hp : s'.pix y x = 0)
  | loaded (hk : k = 108 ∨ k = 76) (buf : Mem) (hbuf : (readBit sb s.disk).1 = some buf)
      (hp : s'.pix y x = buf (8 + y * canvW + x))

lemma key_pix (sb : Superblock) (s : State) (k : ℤ) (y x : ℕ) :
    (s.key sb k).pix y x = s.pix y x ∨ Painted sb s (s.key sb k) k y x := by
  have hdoes := key_does sb s k
  generalize s.key sb k = t at hdoes ⊢
  cases hdoes with
  | gone => exact Or.inl rfl
  | step dx dy hk =>
    by_cases hin : s.cx + dx < 0 ∨ s.cx + dx ≥ canvW ∨ s.cy + dy < 0 ∨ s.cy + dy ≥ canvH
    · unfold State.step
      rw [if_pos hin]
      exact Or.inl rfl
    rw [step_eq s dx dy hin]
    have hd := drawContent_draws { s.drawContent s.cx s.cy with
      cx := s.cx + dx
      cy := s.cy + dy
      pix := s.paintedBy (s.cy + dy) (s.cx + dx) } (s.cx + dx) (s.cy + dy)
    have hp : ∀ p, p = s.paintedBy (s.cy + dy) (s.cx + dx) y x → p = s.pix y x ∨
        s.drawing = true ∧ (y = (s.cy + dy).toNat ∧ x = (s.cx + dx).toNat) ∧
          p = UInt8.ofNat s.fgcol.toNat := by
      rintro p rfl
      unfold paintedBy
      by_cases h1 : s.drawing = true
      · rw [if_pos h1]
        by_cases h2 : y = (s.cy + dy).toNat ∧ x = (s.cx + dx).toNat
        · exact Or.inr ⟨h1, h2, if_pos h2⟩
        · exact Or.inl (if_neg h2)
      · rw [if_neg h1]
        exact Or.inl rfl
    refine (hp _ (congrFun (congrFun hd.pix y) x)).imp id fun ⟨h1, h2, h3⟩ => ?_
    exact .stepped hk h1 ((hd.at_iff y x).mpr h2) h3
  | mode b c =>
    left
    unfold setMode
    rw [(drawCursor_draws _).pix, (flushStatus_draws _).pix]
    rfl
  | save => exact Or.inl rfl
  | load hk =>
    have hp := (drawCursor_draws (loadBit sb s)).pix
    rw [hp]
    cases hr : readBit sb s.disk with
    | mk r d =>
      cases r with
      | none =>
        left
        unfold loadBit
        rw [hr]
      | some buf =>
        right
        refine .loaded hk buf (by rw [hr]) ?_
        rw [hp]
        unfold loadBit
        rw [hr]
        exact congrFun (congrFun (redrawAll_pix _) y) x
  | clear hk => exact Or.inr (.cleared hk (congrFun (congrFun (redrawAll_pix _) y) x))
  | exit => exact Or.inl rfl
  | other => exact Or.inl rfl

/-! ### The screen of the program -/

/-- What the screen shows, and what the program remembers of it. -/
structure Exact (s : State) : Prop where
  cx_range : 0 ≤ s.cx ∧ s.cx < 80
  cy_range : 0 ≤ s.cy ∧ s.cy < 24
  fgcol_range : 0 ≤ s.fgcol ∧ s.fgcol ≤ 15
  remembers : ∀ y < 25, ∀ x < 80, Remembers (s.view y x) (s.wm.cell x y)
  cursor : (s.wm.cell s.cx.toNat s.cy.toNat).ch = 42
  canvas : ∀ y < 24, ∀ x < 80, ¬ s.At y x → (s.wm.cell x y).ch = 32 ∧
    (s.wm.cell x y).back = (block (s.pix y x)).back

lemma Remembers.alike {c seen : Cell} (h : Remembers c seen) : seen.ch = c.ch ∧ seen.back = c.back := by
  rcases h with rfl | ⟨rfl, rfl⟩
  · exact ⟨rfl, rfl⟩
  · exact ⟨rfl, by decide⟩

lemma Inv.exact (h : Inv s) : Exact s where
  cx_range := ⟨h.cx_nonneg, h.cx_lt⟩
  cy_range := ⟨h.cy_nonneg, h.cy_lt⟩
  fgcol_range := ⟨h.fgcol_nonneg, h.fgcol_le⟩
  remembers := h.remembers
  cursor := by
    have hx := h.cx_lt
    have hy := h.cy_lt
    rw [(h.remembers s.cy.toNat (by omega) s.cx.toNat (by omega)).alike.1, h.cursor]
    rfl
  canvas y hy x hx hat := by
    have hr := (h.remembers y (by omega) x hx).alike
    rw [h.canvas y hy x hx hat] at hr
    exact hr

/-- **The drawing program keeps its screen exact**: started at any moment after the boot, after every
key but escape, which ends it, the screen shows the canvas with the cursor on it and the program
remembers what it shows; and a pixel changes only by a move in draw mode, by a clear or by a load. -/
theorem screen_exact (sb : Superblock) (d : Disk) (m : Wm.State) (kb frames : List UInt8)
    (mounted : Bool) (before : List Wm.State.Event) (keys : List ℤ) :
    let s := run (key sb) (start (loaded d (run Wm.State.exec (m.boot kb frames mounted) before))) keys
    (s.exited = false → Exact s) ∧
      ∀ k, ∀ y < canvH, ∀ x < canvW,
        (s.key sb k).pix y x ≠ s.pix y x → Painted sb s (s.key sb k) k y x := by
  intro s
  refine ⟨fun he => Inv.exact ?_, fun k y _ x _ hne => (key_pix sb s k y x).resolve_left hne⟩
  have hinv := run_inv_all (P := fun t : State => t.exited = false → Inv t)
    (fun t k ht => key_inv sb k ht) keys
    (fun _ => start_inv d (Wm.State.clears_run m kb frames mounted before))
  exact hinv he

end LunariaOS.Paint.State
