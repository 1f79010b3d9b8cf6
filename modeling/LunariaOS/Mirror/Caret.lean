import LunariaOS.Mirror.Flush
import LunariaOS.Mirror.Input
import LunariaOS.Wm.Screen

/-!
The caret of the input field of `mirror.c`.

`mirror_input` sets the caret and then flushes. A flush of nothing but spaces on black is a clear, which
takes the caret to the corner, and the kernel takes no place outside the screen. A redraw in which
neither happens is `Steady`, and leaves the caret in the field, on the character at the cursor.
-/

namespace LunariaOS.Mirror

open LunariaOS.Lib LunariaOS.Wm
open LunariaOS.Wm.Terminal (InScreen)

/-! ### Places -/

section Place

variable {f : Field} {s : Input} {m : State} {a b i x y : ℤ} {g : State → ℤ → State} {p : ℕ} {c : Cell}

lemma loop_eq (a b : ℤ) (g : State → ℤ → State) (m : State) :
    State.loop a b g m = (List.range (b - a).toNat).foldl (fun m (i : ℕ) => g m (a + i)) m := by
  unfold State.loop
  rw [List.bind_eq_flatMap, List.foldl_flatMap]
  rfl

lemma loop_other (h : ∀ m i, a ≤ i → i < b → (g m i).back p = m.back p) (m : State) :
    (State.loop a b g m).back p = m.back p := by
  rw [loop_eq]
  refine foldl_keep (g := fun m : State => m.back p) (fun m j hj => ?_) m
  have hlt := List.mem_range.mp hj
  exact h m _ (by omega) (by omega)

/-- A place that one turn of a loop draws at, and no later turn. -/
lemma loop_at (hi : a ≤ i ∧ i < b) (hset : ∀ m, (g m i).back p = c)
    (hkeep : ∀ m j, i < j → j < b → (g m j).back p = m.back p) (m : State) :
    (State.loop a b g m).back p = c := by
  obtain ⟨k, hk⟩ := Int.eq_ofNat_of_zero_le (show 0 ≤ i - a by omega)
  have hsplit : (b - a).toNat = k + 1 + (b - i - 1).toNat := by omega
  rw [loop_eq, hsplit, List.range_add, List.foldl_append, List.range_succ, List.foldl_append, List.foldl_map]
  have hturn : ∀ m : State, ([k].foldl (fun m (j : ℕ) => g m (a + j)) m).back p = c := fun m => by
    show (g m (a + k)).back p = c
    rw [show a + (k : ℤ) = i by omega]
    exact hset m
  rw [foldl_keep (g := fun m : State => m.back p) (fun m j hj => ?_)]
  · exact hturn _
  · have hlt := List.mem_range.mp hj
    exact hkeep m _ (by push_cast; omega) (by push_cast; omega)

/-- The place of the back buffer that is drawn at. -/
def place (x y : ℤ) : ℕ := (y * 80 + x).toNat

lemma putc_place (hx : 0 ≤ x ∧ x < 80) (hy : 0 ≤ y ∧ y < 25) (m : State) (x' y' : ℤ) (ch attr : UInt8) :
    (m.mirrorPutc x' y' ch attr).back (place x y) =
      if x' = x ∧ y' = y then ⟨ch, attr⟩ else m.back (place x y) := by
  unfold State.mirrorPutc place cols rows
  by_cases hout : x' < 0 ∨ y' < 0 ∨ x' ≥ (80 : ℕ) ∨ y' ≥ (25 : ℕ)
  · rw [if_pos hout, if_neg (by omega)]
  · rw [if_neg hout]
    dsimp only
    rw [Function.update_apply]
    by_cases h : x' = x ∧ y' = y
    · rw [if_pos (by omega), if_pos h]
    · rw [if_neg (by omega), if_neg h]

/-- A filled row. A width whose end is no `int` fills nothing. -/
lemma fill_row (hx : 0 ≤ x ∧ x < 80) (hy : 0 ≤ y ∧ y < 25) {l w ry : ℤ} (hw : 0 < w ∧ w ≤ 2147483647)
    (hl : -2147483648 ≤ l ∧ l ≤ 2147483647) (hry : -2147483648 ≤ ry ∧ ry ≤ 2147483647) (m : State)
    (attr : UInt8) : (m.mirrorFill l ry w 1 32 attr).back (place x y) =
      if y = ry ∧ l ≤ x ∧ x < l + w ∧ l + w ≤ 2147483647 then ⟨32, attr⟩ else m.back (place x y) := by
  have hx1 : i32 (l + w) = if l + w ≤ 2147483647 then l + w else l + w - 4294967296 := by
    unfold i32
    split_ifs <;> omega
  have hy1 : i32 (ry + 1) = if ry < 2147483647 then ry + 1 else -2147483648 := by
    unfold i32
    split_ifs <;> omega
  unfold State.mirrorFill cols rows
  rw [if_neg (by omega), hx1, hy1]
  dsimp only
  by_cases h : y = ry ∧ l ≤ x ∧ x < l + w ∧ l + w ≤ 2147483647
  · refine Eq.trans ?_ (if_pos h).symm
    obtain ⟨rfl, h1, h2, h3⟩ := h
    rw [if_pos h3, if_pos (show y < 2147483647 by omega)]
    refine loop_at (i := y) (by split_ifs <;> omega) (fun m => ?_) (fun m j hj hj' => ?_) m
    · refine loop_at (i := x) (by split_ifs <;> omega) (fun m => ?_) (fun m j hj hj' => ?_) m
      · rw [putc_place hx hy, if_pos ⟨rfl, rfl⟩]
      · rw [putc_place hx hy, if_neg (by omega)]
    · exact loop_other (fun m i _ _ => by rw [putc_place hx hy, if_neg (by omega)]) m
  · rw [if_neg h]
    refine loop_other (fun m yy h1 h2 => ?_) m
    refine loop_other (fun m xx h3 h4 => ?_) m
    rw [putc_place hx hy, if_neg]
    split_ifs at h1 h2 h3 h4 <;> omega

/-- The column that the character number `i` is drawn in. -/
lemma column_eq (f : Field) (s : Input) (i : ℤ) :
    i32 (i32 (f.x + i) - f.off s) = i32 (f.x + (i - f.off s)) := by
  unfold i32
  omega

/-- The first character shown is such that the cursor is in the field. -/
lemma off_spec (hw : 0 < f.w ∧ f.w ≤ 2147483647) (hcur : 0 ≤ s.cur ∧ s.cur ≤ 2147483647) :
    0 ≤ f.off s ∧ s.cur - f.off s = min s.cur (f.w - 1) := by
  have hi : i32 (s.cur - f.w + 1) = if s.cur ≥ f.w then s.cur - f.w + 1 else i32 (s.cur - f.w + 1) := by
    split_ifs
    · unfold i32
      omega
    · rfl
  unfold Field.off
  split_ifs at hi ⊢
  · rw [hi]
    omega
  · omega

end Place

/-! ### A redraw -/

/-- A place on the screen. -/
def OnScreen (x y : ℤ) : Prop := (0 ≤ x ∧ x < 80) ∧ 0 ≤ y ∧ y < 25

instance (x y : ℤ) : Decidable (OnScreen x y) :=
  inferInstanceAs (Decidable ((0 ≤ x ∧ x < 80) ∧ 0 ≤ y ∧ y < 25))

namespace Field

variable (f : Field)

/-- The arguments of `mirror_input` that are `int`s. -/
structure Ints : Prop where
  left : -2147483648 ≤ f.x ∧ f.x ≤ 2147483647
  top : -2147483648 ≤ f.y ∧ f.y ≤ 2147483647
  width : 0 < f.w ∧ f.w ≤ 2147483647
  cap : 0 < f.cap ∧ f.cap ≤ 2147483647

/-- The column of the cursor. -/
def column (s : Input) : ℤ := f.x + min s.cur (f.w - 1)

/-- What a redraw puts at a place of the screen: the text that is shown, blanks after it, and what was
there outside the field. A width whose end is no `int` fills nothing. -/
def look (back : ℕ → Cell) (s : Input) (x y : ℤ) : Cell :=
  if y = f.y ∧ f.x ≤ x ∧ x < f.x + f.w then
    if f.off s + (x - f.x) < s.len then ⟨s.buf (f.off s + (x - f.x)), f.attr⟩
    else if f.x + f.w ≤ 2147483647 then ⟨32, f.attr⟩ else back (place x y)
  else back (place x y)

/-- With the field drawn there is nothing but spaces on black. -/
def Dark (m : State) (s : Input) : Prop :=
  ∀ x y, OnScreen x y → (f.look m.back s x y).ch = 32 ∧ (f.look m.back s x y).attr >>> 4 = 0

/-- A redraw that keeps the caret: the cursor is on the screen, and the flush is no clear, or the cursor
is in the corner. -/
structure Steady (m : State) (s : Input) : Prop where
  shown : OnScreen (f.column s) f.y
  flushed : f.Dark m s → f.column s = 0 ∧ f.y = 0

/-- The caret is in the field on the character at the cursor, and on a blank after the last one. -/
structure CaretOn (m : State) (s : Input) : Prop where
  field : f.x ≤ m.wm.cur.cursorX ∧ (m.wm.cur.cursorX : ℤ) < f.x + f.w ∧ (m.wm.cur.cursorY : ℤ) = f.y
  column : (m.wm.cur.cursorX : ℤ) = f.x + (s.cur - f.off s)
  char : s.cur < s.len → m.back (place m.wm.cur.cursorX m.wm.cur.cursorY) = ⟨s.buf s.cur, f.attr⟩
  blank : s.cur = s.len → f.x + f.w ≤ 2147483647 →
    m.back (place m.wm.cur.cursorX m.wm.cur.cursorY) = ⟨32, f.attr⟩

end Field

section Redraw

variable {f : Field} {s : Input} {m : State} {x y : ℤ}

/-- **What a redraw draws.** -/
lemma draw_place (hf : f.Ints) (hcur : 0 ≤ s.cur ∧ s.cur ≤ s.len) (hlen : s.len ≤ 2147483647)
    (hxy : OnScreen x y) (m : State) : (f.draw m s).back (place x y) = f.look m.back s x y := by
  obtain ⟨hx, hy⟩ := hxy
  obtain ⟨hleft, htop, hw, -⟩ := hf
  obtain ⟨hoff, hshift⟩ := off_spec hw (s := s) ⟨hcur.1, hcur.2.trans hlen⟩
  -- a character that is shown is drawn in its own column, if that is on the screen
  have hcol : ∀ j, f.off s ≤ j → j < f.off s + f.w →
      (i32 (i32 (f.x + j) - f.off s) = x ↔ j = f.off s + (x - f.x)) := by
    intro j hj hj'
    rw [column_eq]
    unfold i32
    omega
  by_cases hin : y = f.y ∧ f.x ≤ x ∧ x < f.x + f.w ∧ f.off s + (x - f.x) < s.len
  · obtain ⟨rfl, h1, h2, h3⟩ := hin
    have hlook : f.look m.back s x f.y = ⟨s.buf (f.off s + (x - f.x)), f.attr⟩ := by
      unfold Field.look
      rw [if_pos ⟨rfl, h1, h2⟩, if_pos h3]
    rw [hlook]
    unfold Field.draw
    refine loop_at (i := f.off s + (x - f.x)) (by split_ifs <;> omega) (fun m => ?_)
      (fun m j hj hj' => ?_) _
    · rw [putc_place hx hy]
      exact if_pos ⟨(hcol _ (by omega) (by omega)).mpr rfl, rfl⟩
    · have hj2 : j < f.off s + f.w := by
        split_ifs at hj' <;> omega
      rw [putc_place hx hy, if_neg fun e => hj.ne' ((hcol j (by omega) hj2).mp e.1)]
  · unfold Field.draw Field.look
    rw [loop_other (fun m j hj hj' => ?_), fill_row hx hy hw hleft htop]
    · grind
    · have hj2 : j < f.off s + f.w ∧ j < s.len := by
        split_ifs at hj' <;> omega
      rw [putc_place hx hy, if_neg]
      rintro ⟨e, rfl⟩
      have := (hcol j hj hj2.1).mp e
      omega

/-- The flush of a redraw is a clear just when the drawn screen is dark. -/
lemma draw_blank (hf : f.Ints) (hcur : 0 ≤ s.cur ∧ s.cur ≤ s.len) (hlen : s.len ≤ 2147483647)
    (m : State) : (f.draw m s).Blank ↔ f.Dark m s := by
  constructor
  · intro hb x y hxy
    rw [← draw_place hf hcur hlen hxy]
    obtain ⟨hx, hy⟩ := hxy
    exact hb _ (by unfold place cols rows; omega)
  · intro hd i hi
    unfold cols rows at hi
    have hxy : OnScreen ((i % 80 : ℕ) : ℤ) ((i / 80 : ℕ) : ℤ) := by
      unfold OnScreen
      omega
    have hi' : place ((i % 80 : ℕ) : ℤ) ((i / 80 : ℕ) : ℤ) = i := by
      unfold place
      omega
    rw [← hi', draw_place hf hcur hlen hxy]
    exact hd _ _ hxy

/-! ### Where the caret is -/

/-- The column and the row of the caret of the current terminal. -/
def pen (m : State) : ℕ × ℕ := (m.wm.cur.cursorX, m.wm.cur.cursorY)

lemma pen_draw (f : Field) (m : State) (s : Input) : pen (f.draw m s) = pen m := by
  have hshown : (f.draw m s).shown = m.shown :=
    (State.shown_loop (fun m i => State.shown_putc m _ f.y (s.buf i) f.attr) _).trans
      (State.shown_fill m f.x f.y f.w 1 32 f.attr)
  unfold pen
  rw [show (f.draw m s).wm = m.wm from congrArg Prod.snd hshown]

lemma cur_gotoXy {w : Wm.State} {x y : ℕ} (h : x < 80 ∧ y < 25) :
    (w.syscall (.gotoXy x y)).cur = { w.cur with cursorX := x, cursorY := y } := by
  rw [syscall_gotoXy, if_pos h]
  dsimp only
  split_ifs <;> simp only [cur_blitRow, cur_setCur]

/-- A character in a cell leaves the caret. -/
lemma cursor_putcharAt (w : Wm.State) (c x y a : ℕ) :
    (w.syscall (.putcharAt c x y a)).cur.cursorX = w.cur.cursorX ∧
      (w.syscall (.putcharAt c x y a)).cur.cursorY = w.cur.cursorY := by
  rw [syscall_putcharAt]
  split_ifs
  · rw [cur_blitRow, cur_setCur]
    unfold Terminal.termPutcharAt
    split_ifs <;> exact ⟨rfl, rfl⟩
  · exact ⟨rfl, rfl⟩

/-- `mirror_cursor` sets the caret to a place on the screen, and to no other. -/
lemma pen_cursor (hx : -2147483648 ≤ x ∧ x ≤ 2147483647) (hy : -2147483648 ≤ y ∧ y ≤ 2147483647)
    (m : State) : pen (Field.cursor m x y) = if OnScreen x y then (x.toNat, y.toNat) else pen m := by
  unfold pen Field.cursor
  dsimp only
  by_cases h : OnScreen x y
  · rw [if_pos h]
    obtain ⟨hx', hy'⟩ := h
    rw [Int.emod_eq_of_lt hx'.1 (by omega), Int.emod_eq_of_lt hy'.1 (by omega), cur_gotoXy (by omega)]
  · rw [if_neg h]
    unfold OnScreen at h
    rw [syscall_gotoXy, if_neg (by omega)]

/-- A flush homes the caret when it is a clear, and else leaves it. -/
lemma pen_flush (m : State) : pen m.mirrorFlush = if m.Blank then (0, 0) else pen m := by
  unfold State.mirrorFlush
  by_cases hb : m.Blank
  · rw [if_pos hb, if_pos hb]
    unfold pen Wm.State.syscall
    rw [cur_blit, cur_setCur]
    rfl
  · rw [if_neg hb, if_neg hb]
    have hcell : ∀ (m : State) (y x : ℕ), pen (m.flushCell y x) = pen m := by
      intro m y x
      unfold State.flushCell pen
      dsimp only
      split_ifs
      · rfl
      · exact Prod.ext (cursor_putcharAt ..).1 (cursor_putcharAt ..).2
    exact foldl_keep (fun m y _ => foldl_keep (fun m x _ => hcell m y x) m) m

lemma back_flush (m : State) : m.mirrorFlush.back = m.back := by
  unfold State.mirrorFlush
  split_ifs
  · rfl
  · have hcell : ∀ (m : State) (y x : ℕ), (m.flushCell y x).back = m.back := by
      intro m y x
      unfold State.flushCell
      dsimp only
      split_ifs <;> rfl
    exact foldl_keep (fun m y _ => foldl_keep (fun m x _ => hcell m y x) m) m

lemma back_redraw (f : Field) (m : State) (s : Input) : (f.redraw m s).back = (f.draw m s).back :=
  back_flush (Field.cursor (f.draw m s) (f.caret s) f.y)

/-- **Where a redraw leaves the caret.** -/
lemma pen_redraw (hf : f.Ints) (hcur : 0 ≤ s.cur ∧ s.cur ≤ s.len) (hlen : s.len ≤ 2147483647)
    (m : State) :
    (f.Dark m s → pen (f.redraw m s) = (0, 0)) ∧
      (¬ f.Dark m s → pen (f.redraw m s) =
        if OnScreen (f.column s) f.y then ((f.column s).toNat, f.y.toNat) else pen m) := by
  obtain ⟨hoff, hshift⟩ := off_spec hf.width (s := s) ⟨hcur.1, hcur.2.trans hlen⟩
  obtain ⟨hleft, htop, hw, -⟩ := id hf
  have hblank : (Field.cursor (f.draw m s) (f.caret s) f.y).Blank ↔ f.Dark m s :=
    draw_blank hf hcur hlen m
  -- a sum that is no `int` wraps to the left of the screen
  have hcaret : f.caret s = i32 (f.column s) := by
    unfold Field.caret Field.column
    rw [column_eq, hshift]
  have hint : -2147483648 ≤ f.caret s ∧ f.caret s ≤ 2147483647 := by
    rw [hcaret]
    unfold i32
    omega
  have hon : OnScreen (f.caret s) f.y ↔ OnScreen (f.column s) f.y := by
    rw [hcaret]
    unfold OnScreen Field.column i32
    omega
  unfold Field.redraw
  rw [pen_flush, pen_cursor hint htop, pen_draw]
  refine ⟨fun hd => if_pos (hblank.mpr hd), fun hd => ?_⟩
  rw [if_neg (mt hblank.mp hd)]
  by_cases h : OnScreen (f.column s) f.y
  · rw [if_pos h, if_pos (hon.mpr h)]
    have hcol : f.caret s = f.column s := by
      obtain ⟨hx, -⟩ := h
      rw [hcaret]
      unfold i32
      omega
    rw [hcol]
  · rw [if_neg h, if_neg (mt hon.mp h)]

/-- The caret of a redraw stays on the screen. -/
lemma redraw_inScreen (hf : f.Ints) (hcur : 0 ≤ s.cur ∧ s.cur ≤ s.len) (hlen : s.len ≤ 2147483647)
    (h : m.wm.cur.InScreen) : (f.redraw m s).wm.cur.InScreen := by
  obtain ⟨hdark, hlight⟩ := pen_redraw hf hcur hlen m
  unfold pen at hdark hlight
  unfold Terminal.InScreen at h ⊢
  by_cases hd : f.Dark m s
  · obtain ⟨h1, h2⟩ := Prod.mk.inj (hdark hd)
    omega
  · have hpen := hlight hd
    split_ifs at hpen with hon
    · obtain ⟨h1, h2⟩ := Prod.mk.inj hpen
      obtain ⟨hx, hy⟩ := hon
      omega
    · obtain ⟨h1, h2⟩ := Prod.mk.inj hpen
      omega

/-- **The caret after a redraw** is on the character at the cursor just when the redraw is steady. -/
theorem caretOn_iff (hf : f.Ints) (hcur : 0 ≤ s.cur ∧ s.cur ≤ s.len) (hlen : s.len ≤ 2147483647)
    (h : m.wm.cur.InScreen) : f.CaretOn (f.redraw m s) s ↔ f.Steady m s := by
  obtain ⟨hoff, hshift⟩ := off_spec hf.width (s := s) ⟨hcur.1, hcur.2.trans hlen⟩
  obtain ⟨hdark, hlight⟩ := pen_redraw hf hcur hlen m
  have hw := hf.width
  have hin := redraw_inScreen hf hcur hlen h
  constructor
  · intro hc
    have hx := hc.column
    have hy := hc.field.2.2
    rw [hshift] at hx
    refine ⟨?_, fun hd => ?_⟩
    · have h1 := hin.1
      have h2 := hin.2
      unfold OnScreen Field.column
      omega
    · obtain ⟨h1, h2⟩ := Prod.mk.inj (hdark hd)
      unfold Field.column
      omega
  · rintro ⟨hon, hflush⟩
    have hpen : pen (f.redraw m s) = ((f.column s).toNat, f.y.toNat) := by
      by_cases hd : f.Dark m s
      · rw [hdark hd, (hflush hd).1, (hflush hd).2]
        rfl
      · rw [hlight hd, if_pos hon]
    obtain ⟨e1, e2⟩ := Prod.mk.inj hpen
    have h1 : ((f.redraw m s).wm.cur.cursorX : ℤ) = f.column s := by
      rw [e1, Int.toNat_of_nonneg hon.1.1]
    have h2 : ((f.redraw m s).wm.cur.cursorY : ℤ) = f.y := by
      rw [e2, Int.toNat_of_nonneg hon.2.1]
    have hback : (f.redraw m s).back (place (f.column s) f.y) = f.look m.back s (f.column s) f.y := by
      rw [← draw_place hf hcur hlen hon, back_redraw]
    refine ⟨?_, ?_, fun hlt => ?_, fun hlast hend => ?_⟩
    · rw [h1, h2]
      unfold Field.column
      omega
    · rw [h1, hshift]
      rfl
    · rw [h1, h2, hback]
      unfold Field.look Field.column
      rw [if_pos (by omega), show f.off s + (f.x + min s.cur (f.w - 1) - f.x) = s.cur by omega, if_pos hlt]
    · rw [h1, h2, hback]
      unfold Field.look Field.column
      rw [if_pos (by omega), if_neg (by omega), if_pos hend]

end Redraw

/-! ### The run -/

namespace Field

variable (f : Field)

/-- The loop of `mirror_input` before a redraw, with the line that the buffer stands for. -/
structure Turn where
  m : State
  s : Input
  line : Line

/-- The turns of the loop on the keys to come. -/
def turns (f : Field) (t : Turn) : List ℤ → List Turn
  | [] => [t]
  | k :: ks =>
    t :: if k = keyEnter ∨ k = keyEsc then []
      else turns f ⟨f.redraw t.m t.s, t.s.key f.cap k, t.line.key (f.cap - 1) k⟩ ks

/-- The text of a buffer up to its NUL, with the cursor at its end. -/
def opened (buf : ℤ → UInt8) (n : ℕ) : Line := ⟨(List.range n).map fun (i : ℕ) => buf i, []⟩

/-- What holds of a turn: the buffer is the line with the cursor in it, ended by a NUL, nothing but the
buffer was written, and its redraw leaves the caret on the character at the cursor. -/
structure Edits (t : Turn) : Prop where
  bounds : 0 ≤ t.s.cur ∧ t.s.cur ≤ t.s.len ∧ t.s.len ≤ f.cap - 1
  nul : t.s.buf t.s.len = 0
  writes : ∀ i ∈ t.s.writes, 0 ≤ i ∧ i ≤ f.cap - 1
  text : t.s.len = t.line.text.length ∧ ∀ i < t.line.text.length, t.s.buf i = t.line.text.getD i 0
  cursor : t.s.cur = t.line.before.length
  caret : f.CaretOn (f.redraw t.m t.s) t.s

end Field

section Run

variable {f : Field} {t : Field.Turn} {buf : ℤ → UInt8} {n : ℕ} {m : State}

/-- A turn with the buffer and the caret in order. -/
structure Field.Turn.Sound (f : Field) (t : Field.Turn) : Prop where
  holds : Holds f.cap t.s t.line
  inScreen : t.m.wm.cur.InScreen

lemma Field.Turn.Sound.cur_le (h : t.Sound f) (hf : f.Ints) :
    (0 ≤ t.s.cur ∧ t.s.cur ≤ t.s.len) ∧ t.s.len ≤ 2147483647 := by
  have hlen := h.holds.len
  have hcur := h.holds.cur
  have hroom := h.holds.room
  have hcap := hf.cap
  have htext : t.line.text.length = t.line.before.length + t.line.after.length := List.length_append
  omega

/-- **Every turn is sound.** -/
lemma turns_sound (hf : f.Ints) (h : t.Sound f) (ks : List ℤ) : ∀ u ∈ f.turns t ks, u.Sound f := by
  induction ks generalizing t with
  | nil => exact fun u hu => List.mem_singleton.mp hu ▸ h
  | cons k ks ih =>
    unfold Field.turns
    obtain ⟨hcur, hlen⟩ := h.cur_le hf
    rw [List.forall_mem_cons]
    refine ⟨h, ?_⟩
    split_ifs
    · exact fun u hu => absurd hu List.not_mem_nil
    · have hin := redraw_inScreen hf hcur hlen h.inScreen
      exact ih ⟨h.holds.key k, hin⟩

/-- A turn that is sound is as it should be just when its redraw is steady. -/
lemma edits_iff (hf : f.Ints) (h : t.Sound f) : f.Edits t ↔ f.Steady t.m t.s := by
  obtain ⟨hcur, hlen⟩ := h.cur_le hf
  have hholds := h.holds
  rw [← caretOn_iff hf hcur hlen h.inScreen]
  refine ⟨fun he => he.caret, fun hc => ⟨⟨hcur.1, hcur.2, hholds.room⟩, ?_, hholds.writes,
    ⟨hholds.len, fun i hi => hholds.buf i hi.le⟩, hholds.cur, hc⟩⟩
  have hend := hholds.buf t.line.text.length le_rfl
  rw [hholds.len, hend, List.getD_eq_default _ _ le_rfl]

/-- The last turn is the one that the loop ends with. -/
lemma turns_last (t : Field.Turn) (ks : List ℤ) :
    (f.turns t ks).getLast?.map (fun u => (u.s, u.line)) =
      some ((f.loop t.m t.s ks).2.2, (Line.typed ks).foldl (Line.key (f.cap - 1)) t.line) := by
  induction ks generalizing t with
  | nil => rfl
  | cons k ks ih =>
    unfold Field.turns Field.loop Line.typed
    by_cases hent : k = keyEnter
    · rw [if_pos (.inl hent), if_pos hent, List.takeWhile_cons_of_neg (by simp [hent])]
      rfl
    by_cases hesc : k = keyEsc
    · rw [if_pos (.inr hesc), if_neg hent, if_pos hesc, List.takeWhile_cons_of_neg (by simp [hesc])]
      rfl
    · rw [if_neg (by tauto), if_neg hent, if_neg hesc,
        List.takeWhile_cons_of_pos (by simp [hent, hesc]), List.foldl_cons, List.getLast?_cons]
      generalize f.redraw t.m t.s = m
      obtain ⟨u, hu, hlast⟩ := Option.map_eq_some_iff.mp
        (ih ⟨m, t.s.key f.cap k, t.line.key (f.cap - 1) k⟩)
      rw [hu, Option.getD_some, Option.map_some, hlast]
      rfl

/-- The first turn of `mirror_input`, wherever the program was started from. -/
lemma opened_sound (hf : f.Ints) (hnul : buf n = 0) (hn : n ≤ f.cap - 1) (m : State) (w : Wm.State)
    (kb frames : List UInt8) (mounted : Bool) (before : List Wm.State.Event) :
    Field.Turn.Sound f ⟨{ m with wm := run Wm.State.exec (w.boot kb frames mounted) before },
      f.start buf n, Field.opened buf n⟩ := by
  have hscreen := (run_screen (boot_screen w kb frames mounted) before).sound.cur
  rw [fst_run] at hscreen
  exact ⟨holds_start hf.cap.2 hnul hn, hscreen⟩

end Run

/-- **The input field is the line editor with its caret on the cursor just when every redraw is
steady.** From any state of the machine and for any text and keys the turns of `mirror_input` are those of
the line editor, and the caret is where it should be if the cursor is on the screen and the flush is no
clear. -/
theorem mirrorInput_edits_iff {f : Field} (hf : f.Ints) {buf : ℤ → UInt8} {n : ℕ} (hnul : buf n = 0)
    (hn : n ≤ f.cap - 1) (m : State) (w : Wm.State) (kb frames : List UInt8) (mounted : Bool)
    (before : List Wm.State.Event) (ks : List ℤ) :
    let m := { m with wm := run Wm.State.exec (w.boot kb frames mounted) before }
    let ts := f.turns ⟨m, f.start buf n, Field.opened buf n⟩ ks
    ts.getLast?.map (fun t => (t.s, t.line)) = some ((f.mirrorInput m buf n ks).2.2,
        (Line.typed ks).foldl (Line.key (f.cap - 1)) (Field.opened buf n)) ∧
      ((∀ t ∈ ts, f.Edits t) ↔ ∀ t ∈ ts, f.Steady t.m t.s) := by
  intro m ts
  have hsound := turns_sound hf (opened_sound hf hnul hn m w kb frames mounted before) ks
  refine ⟨?_, forall₂_congr fun t ht => edits_iff hf (hsound t ht)⟩
  have hw := hf.width
  have hcap := hf.cap
  unfold Field.mirrorInput
  rw [if_neg (by omega)]
  exact turns_last _ ks

/-- A field on the screen with a background that is not black is steady at every redraw. -/
lemma turns_steady {f : Field} (hf : f.Ints) {t : Field.Turn} (h : t.Sound f)
    (hx : 0 ≤ f.x ∧ f.x + f.w ≤ 80) (hy : 0 ≤ f.y ∧ f.y < 25) (hattr : f.attr >>> 4 ≠ 0) (ks : List ℤ) :
    ∀ u ∈ f.turns t ks, f.Steady u.m u.s := by
  intro u hu
  obtain ⟨⟨hcur, -⟩, -⟩ := (turns_sound hf h ks u hu).cur_le hf
  have hw := hf.width
  have hon : OnScreen (f.column u.s) f.y := by
    unfold OnScreen Field.column
    omega
  refine ⟨hon, fun hd => absurd (hd _ _ hon).2 ?_⟩
  unfold Field.look Field.column
  rw [if_pos (by omega)]
  split_ifs
  · exact hattr
  · exact hattr
  · omega

/-- A blank screen. -/
def blankScreen : State :=
  ⟨fun _ => ⟨32, 0⟩, fun _ => ⟨32, 0⟩, ⟨fun _ => ⟨0, 0, fun _ => 32, 15, 0, false⟩, 0, fun _ => 0, true⟩⟩

/-- The line `e` typed at the shell, and `mirror_init` of the program that it starts. -/
def drawn : List Wm.State.Event :=
  [.key 101 false (.returns []), .key 10 false .starts, .call .clear, .call (.gotoXy 79 24)]

/-- The text `hi`, the cursor moved back and an `a` typed. -/
theorem mirrorInput_edits_name :
    let f : Field := ⟨26, 11, 44, 64, 31⟩
    let buf : ℤ → UInt8 := fun i => if i = 0 then 104 else if i = 1 then 105 else 0
    let m := { blankScreen with wm := run Wm.State.exec (blankScreen.wm.boot [] [] true) drawn }
    let ts := f.turns ⟨m, f.start buf 2, Field.opened buf 2⟩ [keyLeft, 97]
    (∀ t ∈ ts, f.Edits t) ∧ ts.getLast?.map (fun t => (t.s, t.line)) =
      some ((f.mirrorInput m buf 2 [keyLeft, 97]).2.2, ⟨[104, 97], [105]⟩) := by
  intro f buf m ts
  have hf : f.Ints := ⟨by decide, by decide, by decide, by decide⟩
  have hnul : buf (2 : ℕ) = 0 := by decide
  have hstart := opened_sound hf hnul (by decide) blankScreen blankScreen.wm [] [] true drawn
  obtain ⟨hlast, hiff⟩ := mirrorInput_edits_iff hf hnul (by decide) blankScreen blankScreen.wm [] [] true
    drawn [keyLeft, 97]
  exact ⟨hiff.mpr (turns_steady hf hstart (by decide) (by decide) (by decide) _), hlast⟩

/-- Nothing is typed yet on a dark screen. -/
lemma dark_empty {f : Field} {m : State} {s : Input} (hback : ∀ i, m.back i = ⟨32, 0⟩)
    (hattr : f.attr >>> 4 = 0) (hlen : s.len ≤ f.off s) : f.Dark m s := by
  intro x y _
  unfold Field.look
  rw [hback]
  by_cases hin : y = f.y ∧ f.x ≤ x ∧ x < f.x + f.w
  · rw [if_pos hin, if_neg (by omega)]
    split_ifs
    · exact ⟨rfl, hattr⟩
    · exact ⟨rfl, rfl⟩
  · rw [if_neg hin]
    exact ⟨rfl, rfl⟩

/-- **On a dark screen the caret of an empty field is in the corner.** -/
theorem caret_homed : ¬ ∀ (f : Field), f.Ints → ∀ (buf : ℤ → UInt8) (n : ℕ), buf n = 0 → n ≤ f.cap - 1 →
    ∀ (m : State) (w : Wm.State) (kb frames : List UInt8) (mounted : Bool)
      (before : List Wm.State.Event) (ks : List ℤ),
      ∀ t ∈ f.turns ⟨{ m with wm := run Wm.State.exec (w.boot kb frames mounted) before },
        f.start buf n, Field.opened buf n⟩ ks, f.Edits t := by
  intro h
  have hf : (Field.mk 26 11 44 64 15).Ints := ⟨by decide, by decide, by decide, by decide⟩
  have hnul : (fun _ => 0 : ℤ → UInt8) (0 : ℕ) = 0 := rfl
  have hstart := @opened_sound _ (fun _ => 0) 0 hf hnul (by decide) blankScreen blankScreen.wm [] [] true drawn
  have hall := h _ hf (fun _ => 0) 0 rfl (by decide) blankScreen blankScreen.wm [] [] true drawn []
  have hsteady := (edits_iff hf hstart).mp (hall _ (List.mem_singleton.mpr rfl))
  have hcorner := hsteady.flushed (dark_empty (fun _ => rfl) (by decide) (by decide))
  exact absurd hcorner.1 (by decide)

end LunariaOS.Mirror
