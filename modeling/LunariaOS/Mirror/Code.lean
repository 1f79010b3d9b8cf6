import LunariaOS.Wm.Cells

/-!
The text screens of `mirror.c`: drawing into `back`, and the flush that sends what differs from
`front`.

An `int` of the caller may be anything, so sums of coordinates wrap. A coordinate outside the screen
draws nothing.
-/

namespace LunariaOS.Mirror

open LunariaOS.Lib LunariaOS.Wm

/-- `MIRROR_COLS`. -/
def cols : ℕ := 80

/-- `MIRROR_ROWS`. -/
def rows : ℕ := 25

def boxTl : UInt8 := 0xDA
def boxTr : UInt8 := 0xBF
def boxBl : UInt8 := 0xC0
def boxBr : UInt8 := 0xD9
def boxH : UInt8 := 0xC4
def boxV : UInt8 := 0xB3

/-- `mirror_t`, with the window manager under it. -/
structure State where
  back : ℕ → Cell
  front : ℕ → Cell
  wm : Wm.State

namespace State

/-! ### Drawing into the back buffer -/

def mirrorPutc (m : State) (x y : ℤ) (ch attr : UInt8) : State :=
  if x < 0 ∨ y < 0 ∨ x ≥ cols ∨ y ≥ rows then m
  else { m with back := Function.update m.back (y * cols + x).toNat ⟨ch, attr⟩ }

/-- `emit`: the buffers and the pen `*cx`, `*cy` after it. -/
def emit (m : State) (cx cy startx : ℤ) (ch attr : UInt8) : State × ℤ × ℤ :=
  if ch = 10 then (m, startx, i32 (cy + 1))
  else (m.mirrorPutc cx cy ch attr, i32 (cx + 1), cy)

/-- The loop of `put_sn`. What is left of the pen after it is not looked at. -/
def putLoop (m : State) (cx cy startx maxw : ℤ) (s : List UInt8) (attr : UInt8) : State :=
  match s with
  | [] => m
  | ch :: s =>
    if maxw ≥ 0 ∧ i32 (cx - startx) ≥ maxw then m
    else
      let (m, cx, cy) := m.emit cx cy startx ch attr
      m.putLoop cx cy startx maxw s attr

/-- `put_sn`. -/
def putSn (m : State) (cx cy startx maxw : ℤ) (s : Option CStr) (attr : UInt8) : State :=
  match s with
  | none => m
  | some s => m.putLoop cx cy startx maxw s.bytes attr

def mirrorPuts (m : State) (x y : ℤ) (s : Option CStr) (attr : UInt8) : State :=
  m.putSn x y x (-1) s attr

/-- A loop `for (i = a; i < b; i++)`. -/
def loop (a b : ℤ) (f : State → ℤ → State) (m : State) : State :=
  (List.range (b - a).toNat).foldl (fun m i => f m (a + i)) m

def mirrorFill (m : State) (x y w h : ℤ) (ch attr : UInt8) : State :=
  if w ≤ 0 ∨ h ≤ 0 then m
  else
    let x0 : ℤ := if x < 0 then 0 else x
    let y0 : ℤ := if y < 0 then 0 else y
    let x1 : ℤ := if i32 (x + w) > cols then cols else i32 (x + w)
    let y1 : ℤ := if i32 (y + h) > rows then rows else i32 (y + h)
    loop y0 y1 (fun m yy => loop x0 x1 (fun m xx => m.mirrorPutc xx yy ch attr) m) m

def mirrorBox (m : State) (x y w h : ℤ) (attr : UInt8) (title : Option CStr) : State :=
  if w < 2 ∨ h < 2 then m
  else
    let right := i32 (i32 (x + w) - 1)
    let bottom := i32 (i32 (y + h) - 1)
    let m := loop 0 w (fun m i =>
      (m.mirrorPutc (i32 (x + i)) y boxH attr).mirrorPutc (i32 (x + i)) bottom boxH attr) m
    let m := loop 1 (h - 1) (fun m i =>
      (m.mirrorPutc x (i32 (y + i)) boxV attr).mirrorPutc right (i32 (y + i)) boxV attr) m
    let m := m.mirrorPutc x y boxTl attr
    let m := m.mirrorPutc right y boxTr attr
    let m := m.mirrorPutc x bottom boxBl attr
    let m := m.mirrorPutc right bottom boxBr attr
    if title.isSome ∧ w > 4 then m.putSn (i32 (x + 2)) y (i32 (x + 2)) (w - 4) title attr else m

def mirrorStatus (m : State) (row : ℤ) (left right : Option CStr) (attr : UInt8) : State :=
  if row < 0 ∨ row ≥ rows then m
  else
    let m := m.mirrorFill 0 row cols 1 32 attr
    let m := m.putSn 1 row 1 (-1) left attr
    match right with
    | none => m
    | some r =>
      if r.bytes = [] then m
      else
        let rx := i32 (cols - 1 - r.length)
        let rx := if rx < 1 then 1 else rx
        m.putSn rx row rx (cols - rx - 1) right attr

def mirrorClear (m : State) (attr : UInt8) : State := { m with back := fun _ => ⟨32, attr⟩ }

/-! ### The screen -/

/-- `mirror_cursor`, for a place on the screen. -/
def mirrorCursor (m : State) (x y : ℕ) : State := { m with wm := m.wm.syscall (.gotoXy x y) }

def mirrorInit (m : State) (attr : UInt8) : State :=
  let matchesClear := attr >>> 4 = 0
  let m : State :=
    { back := fun _ => ⟨32, attr⟩
      front := fun _ => if matchesClear then ⟨32, attr⟩ else ⟨0, 0⟩
      wm := m.wm.syscall .clear }
  m.mirrorCursor (cols - 1) (rows - 1)

/-- The test of `mirror_flush`: nothing but spaces on black. -/
def Blank (m : State) : Prop := ∀ i < cols * rows, (m.back i).ch = 32 ∧ (m.back i).attr >>> 4 = 0

instance (m : State) : Decidable m.Blank :=
  inferInstanceAs (Decidable (∀ i < cols * rows, (m.back i).ch = 32 ∧ (m.back i).attr >>> 4 = 0))

/-- One turn of the inner loop of `mirror_flush`. -/
def flushCell (m : State) (y x : ℕ) : State :=
  let i := y * cols + x
  if m.back i = m.front i then m
  else
    { m with
      wm := m.wm.syscall (.putcharAt (m.back i).ch.toNat x y (m.back i).attr.toNat)
      front := Function.update m.front i (m.back i) }

def mirrorFlush (m : State) : State :=
  if m.Blank then { m with wm := m.wm.syscall .clear, front := m.back }
  else
    (List.range rows).foldl (fun m y => (List.range cols).foldl (fun m x => m.flushCell y x) m) m

/-- The calls of a program that draws with Mirror. -/
inductive Call
  | init (attr : UInt8)
  | clear (attr : UInt8)
  | putc (x y : ℤ) (ch attr : UInt8)
  | puts (x y : ℤ) (s : Option CStr) (attr : UInt8)
  | fill (x y w h : ℤ) (ch attr : UInt8)
  | box (x y w h : ℤ) (attr : UInt8) (title : Option CStr)
  | status (row : ℤ) (left right : Option CStr) (attr : UInt8)
  | flush

def exec (m : State) : Call → State
  | .init attr => m.mirrorInit attr
  | .clear attr => m.mirrorClear attr
  | .putc x y ch attr => m.mirrorPutc x y ch attr
  | .puts x y s attr => m.mirrorPuts x y s attr
  | .fill x y w h ch attr => m.mirrorFill x y w h ch attr
  | .box x y w h attr title => m.mirrorBox x y w h attr title
  | .status row left right attr => m.mirrorStatus row left right attr
  | .flush => m.mirrorFlush

end State

end LunariaOS.Mirror
