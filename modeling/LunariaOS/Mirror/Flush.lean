import LunariaOS.Lib.Sweep
import LunariaOS.Mirror.Code

/-!
When a flush of Mirror leaves the back buffer on the screen.

Two kinds of cells break it. A newline is taken for drawn, but the kernel draws nothing for it. And
after `mirror_init` with a coloured background `front` holds cells with character and attribute 0 that
are not on the screen; such a cell of `back` is never sent. `unsent` follows which cells of `front`
are still those of `mirror_init`. Everything else is sent or was there already.
-/

namespace LunariaOS.Mirror.State

open LunariaOS.Lib LunariaOS.Wm
open LunariaOS.Wm.State (Clears cell_putcharAt cell_putcharAt_newline cell_clear cell_gotoXy)

/-- The screen shows the back buffer. -/
def Shows (m : State) : Prop :=
  ∀ y < rows, ∀ x < cols, (m.wm.cell x y).Alike (m.back (y * cols + x))

/-- A run of Mirror that follows which cells of `front` are still the ones that `mirror_init` put
there without drawing them. -/
structure Tracked where
  m : State
  unsent : ℕ → Bool

/-- The calls, with what they make of the cells that were not drawn. -/
def track (t : Tracked) (c : Call) : Tracked where
  m := t.m.exec c
  unsent :=
    match c with
    | .init attr => fun _ => attr >>> 4 ≠ 0
    | .flush => fun i => t.unsent i && (!decide t.m.Blank) && t.m.back i = ⟨0, 0⟩
    | _ => t.unsent

/-- The cells that a flush can bring to the screen. -/
def Flushable (t : Tracked) : Prop :=
  ∀ i < rows * cols, (t.m.back i).ch ≠ 10 ∧ (t.unsent i = true → t.m.back i ≠ ⟨0, 0⟩)

/-! ### Places -/

section Place

variable {y x y' x' : ℕ}

lemma place_lt (hy : y < rows) (hx : x < cols) : y * cols + x < rows * cols := by
  unfold rows cols at *
  omega

lemma place_ne (hx : x < cols) (hx' : x' < cols) (h : ¬ (x' = x ∧ y' = y)) :
    y' * cols + x' ≠ y * cols + x := by
  unfold cols at *
  omega

lemma place_of_lt {i : ℕ} (hi : i < rows * cols) : ∃ y < rows, ∃ x < cols, i = y * cols + x := by
  unfold rows cols at *
  exact ⟨i / 80, by omega, i % 80, by omega, by omega⟩

end Place

/-! ### Drawing leaves the screen alone -/

/-- What drawing leaves alone. -/
def shown (m : State) : (ℕ → Cell) × Wm.State := (m.front, m.wm)

variable {m : State}

lemma shown_putc (m : State) (x y : ℤ) (ch attr : UInt8) :
    (m.mirrorPutc x y ch attr).shown = m.shown := by
  unfold mirrorPutc
  split_ifs <;> rfl

lemma shown_emit (m : State) (cx cy startx : ℤ) (ch attr : UInt8) :
    (m.emit cx cy startx ch attr).1.shown = m.shown := by
  unfold emit
  split_ifs
  · rfl
  · exact shown_putc m cx cy ch attr

lemma shown_putLoop (m : State) (cx cy startx maxw : ℤ) (s : List UInt8) (attr : UInt8) :
    (m.putLoop cx cy startx maxw s attr).shown = m.shown := by
  induction s generalizing m cx cy with
  | nil => rfl
  | cons ch s ih =>
    unfold putLoop
    split_ifs
    · rfl
    · exact (ih _ _ _).trans (shown_emit m cx cy startx ch attr)

lemma shown_putSn (m : State) (cx cy startx maxw : ℤ) (s : Option CStr) (attr : UInt8) :
    (m.putSn cx cy startx maxw s attr).shown = m.shown := by
  cases s with
  | none => rfl
  | some s => exact shown_putLoop m cx cy startx maxw s.bytes attr

lemma shown_loop {a b : ℤ} {f : State → ℤ → State} (h : ∀ m i, (f m i).shown = m.shown)
    (m : State) : (loop a b f m).shown = m.shown :=
  foldl_keep (g := shown) (fun m _ _ => h m _) m

lemma shown_fill (m : State) (x y w h : ℤ) (ch attr : UInt8) :
    (m.mirrorFill x y w h ch attr).shown = m.shown := by
  unfold mirrorFill
  split_ifs
  · rfl
  all_goals exact shown_loop (fun m yy => shown_loop (fun m xx => shown_putc m xx yy ch attr) m) m

lemma shown_box (m : State) (x y w h : ℤ) (attr : UInt8) (title : Option CStr) :
    (m.mirrorBox x y w h attr title).shown = m.shown := by
  have hrow : ∀ (m : State) (x y x' y' : ℤ) (c : UInt8),
      ((m.mirrorPutc x y c attr).mirrorPutc x' y' c attr).shown = m.shown := fun m x y x' y' c =>
    (shown_putc _ x' y' c attr).trans (shown_putc m x y c attr)
  have hall : ∀ (m : State) (l t r b : ℤ), ((((((loop 1 (h - 1) (fun m i =>
      (m.mirrorPutc x (i32 (y + i)) boxV attr).mirrorPutc r (i32 (y + i)) boxV attr)
      (loop 0 w (fun m i => (m.mirrorPutc (i32 (x + i)) y boxH attr).mirrorPutc (i32 (x + i)) b
        boxH attr) m)).mirrorPutc l t boxTl attr).mirrorPutc r t boxTr attr).mirrorPutc l b
      boxBl attr).mirrorPutc r b boxBr attr)).shown = m.shown := by
    intro m l t r b
    rw [shown_putc, shown_putc, shown_putc, shown_putc, shown_loop fun m i => hrow m _ _ _ _ _,
      shown_loop fun m i => hrow m _ _ _ _ _]
  unfold mirrorBox
  by_cases hw : w < 2 ∨ h < 2
  · rw [if_pos hw]
  rw [if_neg hw]
  dsimp only
  by_cases ht : title.isSome ∧ w > 4
  · rw [if_pos ht]
    exact (shown_putSn _ _ _ _ _ _ _).trans (hall m x y _ _)
  · rw [if_neg ht]
    exact hall m x y _ _

lemma shown_status (m : State) (row : ℤ) (left right : Option CStr) (attr : UInt8) :
    (m.mirrorStatus row left right attr).shown = m.shown := by
  unfold mirrorStatus
  split_ifs
  · rfl
  · cases right with
    | none => exact (shown_putSn _ _ _ _ _ _ _).trans (shown_fill m _ _ _ _ _ _)
    | some r =>
      dsimp only
      split_ifs
      · exact (shown_putSn _ _ _ _ _ _ _).trans (shown_fill m _ _ _ _ _ _)
      all_goals
        exact (shown_putSn _ _ _ _ _ _ _).trans
          ((shown_putSn _ _ _ _ _ _ _).trans (shown_fill m _ _ _ _ _ _))

/-! ### What is known of a cell -/

/-- What is known of a cell in any run: its cell of `front` is on the screen, unless it is a newline
or was not sent since `mirror_init`; and the screen shows no newline. -/
structure Known (unsent : Bool) (front seen : Cell) : Prop where
  seen_ne : seen.ch ≠ 10
  alike : front.ch ≠ 10 → unsent = false → seen.Alike front
  cleared : unsent = true → front = ⟨0, 0⟩ ∧ seen = ⟨32, 15⟩

/-- The invariant of a run. -/
structure Inv (t : Tracked) : Prop where
  clears : Clears t.m.wm
  known : ∀ y < rows, ∀ x < cols,
    Known (t.unsent (y * cols + x)) (t.m.front (y * cols + x)) (t.m.wm.cell x y)

/-- A drawing call keeps the invariant. -/
lemma Inv.of_shown {t t' : Tracked} (h : Inv t) (hm : t'.m.shown = t.m.shown)
    (hu : t'.unsent = t.unsent) : Inv t' := by
  obtain ⟨h1, h2⟩ := Prod.mk.injEq .. ▸ hm
  exact ⟨h2 ▸ h.clears, fun y hy x hx => by
    rw [hu, show t'.m.front = t.m.front from h1, show t'.m.wm = t.m.wm from h2]
    exact h.known y hy x hx⟩

/-! ### A flush -/

/-- What the cell of `back` leaves on the screen where `front` and `seen` were. -/
def sent (back front seen : Cell) : Cell := if back = front ∨ back.ch = 10 then seen else back

/-- **What a flush does to each cell.** -/
lemma flush_cells (h : Clears m.wm) (hb : ¬ m.Blank) :
    m.mirrorFlush.back = m.back ∧ Clears m.mirrorFlush.wm ∧
      ∀ y < rows, ∀ x < cols, m.mirrorFlush.front (y * cols + x) = m.back (y * cols + x) ∧
        m.mirrorFlush.wm.cell x y =
          sent (m.back (y * cols + x)) (m.front (y * cols + x)) (m.wm.cell x y) := by
  -- a place is either as before or done, and a turn makes its own place done
  set Old : ℕ → ℕ → State → Prop := fun y x t =>
    t.front (y * cols + x) = m.front (y * cols + x) ∧ t.wm.cell x y = m.wm.cell x y with hOld
  set Done : ℕ → ℕ → State → Prop := fun y x t =>
    t.front (y * cols + x) = m.back (y * cols + x) ∧ t.wm.cell x y =
      sent (m.back (y * cols + x)) (m.front (y * cols + x)) (m.wm.cell x y) with hDone
  set I : State → Prop := fun t => t.back = m.back ∧ Clears t.wm ∧
    ∀ y < rows, ∀ x < cols, Old y x t ∨ Done y x t with hI
  have hturn : ∀ t, I t → ∀ y < rows, ∀ x < cols,
      (t.flushCell y x).back = m.back ∧ Clears (t.flushCell y x).wm ∧ Done y x (t.flushCell y x) ∧
        ∀ y' x', x' < cols → ¬ (x' = x ∧ y' = y) →
          (t.flushCell y x).front (y' * cols + x') = t.front (y' * cols + x') ∧
            (t.flushCell y x).wm.cell x' y' = t.wm.cell x' y' := by
    rintro t ⟨hback, hcl, hcells⟩ y hy x hx
    unfold flushCell
    dsimp only
    rw [hback]
    by_cases he : m.back (y * cols + x) = t.front (y * cols + x)
    · rw [if_pos he]
      refine ⟨hback, hcl, ⟨he.symm, ?_⟩, fun _ _ _ _ => ⟨rfl, rfl⟩⟩
      rcases hcells y hy x hx with ho | hd
      · rw [ho.2, sent, if_pos (Or.inl (he.trans ho.1))]
      · exact hd.2
    · rw [if_neg he]
      have ho := (hcells y hy x hx).resolve_right fun hd => he hd.1.symm
      refine ⟨rfl, hcl.syscall _, ⟨Function.update_self .., ?_⟩, fun y' x' hx' hne => ⟨?_, ?_⟩⟩
      · unfold sent
        by_cases h10 : (m.back (y * cols + x)).ch = 10
        · rw [if_pos (Or.inr h10), ← ho.2, h10]
          exact cell_putcharAt_newline _ _ _ _ _ _
        · rw [if_neg (not_or.mpr ⟨fun e => he (e.trans ho.1.symm), h10⟩)]
          exact (cell_putcharAt h10 hx hy hx).trans (if_pos ⟨rfl, rfl⟩)
      · exact Function.update_of_ne (place_ne hx hx' hne) ..
      · by_cases h10 : (m.back (y * cols + x)).ch = 10
        · rw [h10]
          exact cell_putcharAt_newline _ _ _ _ _ _
        · exact (cell_putcharAt h10 hx hy hx').trans (if_neg hne)
  have hkeep : ∀ t, I t → ∀ y < rows, ∀ x < cols, I (t.flushCell y x) := by
    intro t ht y hy x hx
    obtain ⟨h1, h2, h3, h4⟩ := hturn t ht y hy x hx
    refine ⟨h1, h2, fun y' hy' x' hx' => ?_⟩
    by_cases hp : x' = x ∧ y' = y
    · obtain ⟨rfl, rfl⟩ := hp
      exact Or.inr h3
    · obtain ⟨e1, e2⟩ := h4 y' x' hx' hp
      simp only [hOld, hDone, e1, e2]
      exact ht.2.2 y' hy' x' hx'
  have hstay : ∀ t, I t → ∀ y < rows, ∀ x < cols, ∀ y' x', (x' < cols → Done y' x' t) →
      x' < cols → Done y' x' (t.flushCell y x) := by
    intro t ht y hy x hx y' x' hd hx'
    obtain ⟨-, -, hd', ho⟩ := hturn t ht y hy x hx
    by_cases hp : x' = x ∧ y' = y
    · obtain ⟨rfl, rfl⟩ := hp
      exact hd'
    · obtain ⟨e1, e2⟩ := ho y' x' hx' hp
      simp only [hDone, e1, e2]
      exact hd hx'
  unfold mirrorFlush
  rw [if_neg hb]
  obtain ⟨⟨h1, h2, -⟩, h3⟩ := sweep_rows (I := I) (f := flushCell)
    (D := fun y x t => x < cols → Done y x t) (l := List.range rows) (k := List.range cols) (s := m)
    (fun t ht y hy x hx => hkeep t ht y (List.mem_range.mp hy) x (List.mem_range.mp hx))
    (fun t ht y hy x hx _ =>
      (hturn t ht y (List.mem_range.mp hy) x (List.mem_range.mp hx)).2.2.1)
    (fun t ht y hy x hx => hstay t ht y (List.mem_range.mp hy) x (List.mem_range.mp hx))
    ⟨rfl, h, fun _ _ _ _ => Or.inl ⟨rfl, rfl⟩⟩
  exact ⟨h1, h2, fun y hy x hx => h3 y (List.mem_range.mpr hy) x (List.mem_range.mpr hx) hx⟩

/-- A flush of a blank screen clears it. -/
lemma flush_blank (h : Clears m.wm) (hb : m.Blank) {y x : ℕ} (hy : y < rows) (hx : x < cols) :
    m.mirrorFlush.front = m.back ∧ m.mirrorFlush.back = m.back ∧
      m.mirrorFlush.wm.cell x y = ⟨32, 15⟩ := by
  unfold mirrorFlush
  rw [if_pos hb]
  exact ⟨rfl, rfl, (cell_clear hx hy).trans (congrArg (Cell.mk 32) h.cur)⟩

section Known

variable {u : Bool} {f seen : Cell}

lemma Known.eq_of_unsent (h : Known u f seen) {b : Cell} (hb : b = f) (hu : u = true) :
    b = ⟨0, 0⟩ := hb.trans (h.cleared hu).1

/-- A flush keeps what is known of a cell. -/
lemma Known.sent (h : Known u f seen) (b : Cell) :
    Known (u && decide (b = ⟨0, 0⟩)) b (sent b f seen) := by
  unfold State.sent
  refine ⟨?_, fun h10 hu => ?_, fun hu => ?_⟩
  · split_ifs with hs
    · exact h.seen_ne
    · exact fun e => hs (Or.inr e)
  · by_cases hb : b = f
    · rw [if_pos (Or.inl hb), hb]
      refine h.alike (hb ▸ h10) ?_
      -- a cell that was not sent would still not be
      by_contra hu'
      have hu' : u = true := Bool.not_eq_false _ ▸ hu'
      rw [hu', h.eq_of_unsent hb hu'] at hu
      exact absurd hu (by decide)
    · rw [if_neg (not_or.mpr ⟨hb, h10⟩)]
      exact .refl b
  · obtain ⟨hu, hb⟩ := Bool.and_eq_true_iff.mp hu
    have hb := of_decide_eq_true hb
    obtain ⟨hf, hs⟩ := h.cleared hu
    exact ⟨hb, by rw [if_pos (Or.inl (hb.trans hf.symm)), hs]⟩

/-- **A cell reaches the screen** just when it is not a newline and not taken for sent. -/
lemma Known.sent_alike (h : Known u f seen) (b : Cell) :
    (State.sent b f seen).Alike b ↔ b.ch ≠ 10 ∧ (u = true → b ≠ ⟨0, 0⟩) := by
  unfold State.sent
  constructor
  · intro ha
    refine ⟨fun h10 => ?_, fun hu hb => ?_⟩
    · rw [if_pos (Or.inr h10)] at ha
      exact h.seen_ne (ha.1.trans h10)
    · obtain ⟨hf, hs⟩ := h.cleared hu
      rw [if_pos (Or.inl (hb.trans hf.symm)), hs, hb] at ha
      exact absurd ha.1 (by decide)
  · rintro ⟨h10, hu⟩
    by_cases hb : b = f
    · rw [if_pos (Or.inl hb), hb]
      refine h.alike (hb ▸ h10) (Bool.eq_false_iff.mpr fun hu' => hu hu' (h.eq_of_unsent hb hu'))
    · rw [if_neg (not_or.mpr ⟨hb, h10⟩)]
      exact .refl b

end Known

/-- Spaces on black are what a cleared screen shows. -/
lemma cleared_alike {c : Cell} (hch : c.ch = 32) (hattr : c.attr >>> 4 = 0) : Cell.Alike ⟨32, 15⟩ c :=
  Cell.alike_space rfl hch (Eq.trans (by decide) hattr.symm)

/-- **The flush shows the back buffer just when it can**, and it keeps the invariant. -/
lemma Inv.flush {t : Tracked} (h : Inv t) :
    Inv (track t .flush) ∧ (t.m.mirrorFlush.Shows ↔ Flushable t) := by
  by_cases hb : t.m.Blank
  · have hcell : ∀ y < rows, ∀ x < cols, (t.m.back (y * cols + x)).ch = 32 ∧
        (t.m.back (y * cols + x)).attr >>> 4 = 0 :=
      fun y hy x hx => hb _ (Nat.mul_comm rows cols ▸ place_lt hy hx)
    refine ⟨⟨?_, fun y hy x hx => ?_⟩, ⟨fun _ i hi => ?_, fun _ y hy x hx => ?_⟩⟩
    · unfold track exec mirrorFlush
      dsimp only
      rw [if_pos hb]
      exact h.clears.syscall .clear
    · obtain ⟨h1, h2⟩ := hcell y hy x hx
      obtain ⟨f1, f2, f3⟩ := flush_blank h.clears hb hy hx
      unfold track exec
      dsimp only
      rw [f1, f3, decide_eq_true hb]
      simp only [Bool.not_true, Bool.and_false, Bool.false_and]
      exact ⟨by decide, fun _ _ => cleared_alike h1 h2, fun e => Bool.noConfusion e⟩
    · obtain ⟨h1, -⟩ := hb i (Nat.mul_comm rows cols ▸ hi)
      exact ⟨by rw [h1]; decide, fun _ e => by rw [e] at h1; exact absurd h1 (by decide)⟩
    · obtain ⟨h1, h2⟩ := hcell y hy x hx
      obtain ⟨f1, f2, f3⟩ := flush_blank h.clears hb hy hx
      rw [f2, f3]
      exact cleared_alike h1 h2
  · obtain ⟨f1, f2, f3⟩ := flush_cells h.clears hb
    refine ⟨⟨f2, fun y hy x hx => ?_⟩, ⟨fun hs i hi => ?_, fun hf y hy x hx => ?_⟩⟩
    · obtain ⟨e1, e2⟩ := f3 y hy x hx
      unfold track exec
      dsimp only
      rw [e1, e2, decide_eq_false hb]
      simp only [Bool.not_false, Bool.and_true]
      exact (h.known y hy x hx).sent _
    · obtain ⟨y, hy, x, hx, rfl⟩ := place_of_lt hi
      have := hs y hy x hx
      rw [f1, (f3 y hy x hx).2] at this
      exact ((h.known y hy x hx).sent_alike _).mp this
    · rw [f1, (f3 y hy x hx).2]
      exact ((h.known y hy x hx).sent_alike _).mpr (hf _ (place_lt hy hx))

/-! ### Runs -/

/-- `mirror_init` establishes the invariant, whatever was there. -/
lemma init_inv {t : Tracked} (h : Clears t.m.wm) (attr : UInt8) : Inv (track t (.init attr)) := by
  refine ⟨(h.syscall .clear).syscall (.gotoXy (cols - 1) (rows - 1)), fun y hy x hx => ?_⟩
  have hcell : (t.m.mirrorInit attr).wm.cell x y = ⟨32, 15⟩ :=
    (cell_gotoXy _ _ _ _ _).trans ((cell_clear hx hy).trans (congrArg (Cell.mk 32) h.cur))
  unfold track exec
  dsimp only
  rw [hcell]
  unfold mirrorInit mirrorCursor
  dsimp only
  by_cases ha : attr >>> 4 = 0
  · rw [if_pos ha, decide_eq_false (not_not.mpr ha)]
    exact ⟨by decide, fun _ _ => cleared_alike rfl ha, fun e => Bool.noConfusion e⟩
  · rw [if_neg ha, decide_eq_true ha]
    exact ⟨by decide, fun _ e => Bool.noConfusion e, fun _ => ⟨rfl, rfl⟩⟩

/-- Every call keeps the invariant. -/
theorem Inv.track {t : Tracked} (h : Inv t) (c : Call) : Inv (track t c) := by
  cases c with
  | init attr => exact init_inv h.clears attr
  | clear attr => exact h.of_shown rfl rfl
  | putc x y ch attr => exact h.of_shown (shown_putc t.m x y ch attr) rfl
  | puts x y s attr => exact h.of_shown (shown_putSn t.m x y x (-1) s attr) rfl
  | fill x y w h' ch attr => exact h.of_shown (shown_fill t.m x y w h' ch attr) rfl
  | box x y w h' attr title => exact h.of_shown (shown_box t.m x y w h' attr title) rfl
  | status row left right attr => exact h.of_shown (shown_status t.m row left right attr) rfl
  | flush => exact h.flush.1

lemma track_run (t : Tracked) (l : List Call) : (run track t l).m = run exec t.m l := by
  induction l generalizing t with
  | nil => rfl
  | cons c l ih => exact ih _

/-- **What the screen shows after a flush**: in every run of Mirror, from its `mirror_init` on, a flush
brings the back buffer to the screen just when no cell of it is a newline, or a NUL with attribute 0
that has not been anything else at a flush since a `mirror_init` with a coloured background. -/
theorem flush_shows (m : State) (w : Wm.State) (kb frames : List UInt8) (mounted : Bool)
    (before : List Wm.State.Event) (attr : UInt8) (calls : List Call) :
    let t := run track ⟨{ m with wm := run Wm.State.exec (w.boot kb frames mounted) before },
      fun _ => false⟩ (.init attr :: calls)
    t.m = run exec { m with wm := run Wm.State.exec (w.boot kb frames mounted) before }
        (.init attr :: calls) ∧
      (t.m.mirrorFlush.Shows ↔ Flushable t) := by
  intro t
  refine ⟨track_run _ _, Inv.flush ?_ |>.2⟩
  exact run_inv_all (fun _ c h => h.track c) calls
    (init_inv (Wm.State.clears_run w kb frames mounted before) attr)

lemma newline_not_shown (h : Clears m.wm) :
    ¬ (run exec m [.init 15, .putc 0 0 10 15]).mirrorFlush.Shows := by
  intro hs
  have hinv := (init_inv (t := ⟨m, fun _ => false⟩) h 15).track (.putc 0 0 10 15)
  exact (hinv.flush.2.mp hs 0 (by decide)).1 rfl

/-- A newline in a cell never comes to the screen, though `front` remembers it. -/
theorem newline_lost : ¬ ∀ (m : State) (w : Wm.State) (kb frames : List UInt8) (mounted : Bool)
    (before : List Wm.State.Event) (attr : UInt8) (calls : List Call),
    (run exec { m with wm := run Wm.State.exec (w.boot kb frames mounted) before }
      (.init attr :: calls)).mirrorFlush.Shows := by
  intro h
  have w : Wm.State := ⟨fun _ => ⟨0, 0, fun _ => 0, 0, 0, false⟩, 0, fun _ => 0, false⟩
  have m : State := ⟨fun _ => ⟨0, 0⟩, fun _ => ⟨0, 0⟩, w⟩
  have hw := Wm.State.clears_run w [] [] true []
  have hs := h m w [] [] true [] 15 [.putc 0 0 10 15]
  generalize run Wm.State.exec (w.boot [] [] true) [] = wm at hw hs
  exact newline_not_shown (m := ⟨m.back, m.front, wm⟩) hw hs

end LunariaOS.Mirror.State
