import LunariaOS.Lib.Run
import LunariaOS.Str

/-!
The terminals and the screen.

Every terminal keeps its own cells, a character and an attribute for each, and its caret. What is
seen is a copy of the cells of the current terminal at `0xB8000`, in which the attribute under the
caret has its halves swapped.
-/

namespace LunariaOS.Wm

open LunariaOS.Lib

/-- `terminal_t`. Of the line buffer only the length counts here: what the line says is the matter of
the command that it starts. -/
structure Terminal where
  cursorX : ℕ
  cursorY : ℕ
  cells : ℕ → UInt8
  color : UInt8
  len : ℕ
  prompt : Bool

/-- `VGA_COLOR`. -/
def vgaColor (bg fg : UInt8) : UInt8 := (bg <<< 4) ||| fg

def black : UInt8 := 0x0
def blue : UInt8 := 0x1
def green : UInt8 := 0x2
def cyan : UInt8 := 0x3
def red : UInt8 := 0x4
def white : UInt8 := 0xF

def maxTerms : ℕ := 10
def termBufSize : ℕ := 128

namespace Terminal

/-- `term_scroll`: every row moves up by one, and the last one becomes blank. -/
def termScroll (t : Terminal) : Terminal :=
  { t with
    cells := fun i =>
      if i < 24 * 80 * 2 then t.cells (i + 80 * 2)
      else if i < 25 * 80 * 2 then (if i % 2 = 0 then 32 else t.color)
      else t.cells i
    cursorY := 24 }

/-- The cell of a place of the screen overwritten. -/
def setCell (t : Terminal) (index : ℕ) (c color : UInt8) : Terminal :=
  { t with cells := Function.update (Function.update t.cells (index * 2) c) (index * 2 + 1) color }

def termPutchar (t : Terminal) (c color : UInt8) : Terminal :=
  let t :=
    if c = 10 then { t with cursorX := 0, cursorY := t.cursorY + 1 }
    else
      let t := { t.setCell (t.cursorY * 80 + t.cursorX) c color with cursorX := t.cursorX + 1 }
      if t.cursorX ≥ 80 then { t with cursorX := 0, cursorY := t.cursorY + 1 } else t
  if t.cursorY > 24 then t.termScroll else t

def termPutcharAt (t : Terminal) (c : UInt8) (x y : ℕ) (color : UInt8) : Terminal :=
  if c = 10 then t else t.setCell (y * 80 + x) c color

def termClear (t : Terminal) : Terminal :=
  { t with
    cells := fun i =>
      if i < 80 * 25 * 2 then (if i % 2 = 0 then 32 else t.color) else t.cells i
    cursorX := 0
    cursorY := 0 }

def termPrintColor (t : Terminal) (str : List UInt8) (color : UInt8) : Terminal :=
  str.foldl (fun t c => t.termPutchar c color) t

def termPrint (t : Terminal) (str : List UInt8) : Terminal := t.termPrintColor str t.color

def termBackspace (t : Terminal) : Terminal :=
  if t.cursorX = 0 ∧ t.cursorY = 0 then t
  else
    let t :=
      if t.cursorX > 0 then { t with cursorX := t.cursorX - 1 }
      else { t with cursorY := t.cursorY - 1, cursorX := 79 }
    { t with cells := Function.update t.cells ((t.cursorY * 80 + t.cursorX) * 2) 32 }

end Terminal

/-- The attribute with its halves swapped. -/
def invert (attr : UInt8) : UInt8 := (attr >>> 4) ||| (attr <<< 4)

/-- Where the attribute under the caret lies. -/
def Terminal.caret (t : Terminal) : ℕ := (t.cursorY * 80 + t.cursorX) * 2 + 1

/-- `wm_blit`: the bytes at `0xB8000` afterwards. -/
def wmBlit (t : Terminal) (vga : Mem) : Mem :=
  let vga := vga.blit 0 (80 * 25 * 2) t.cells
  if t.cursorY ≤ 24 ∧ t.cursorX ≤ 79 then Function.update vga t.caret (invert (vga t.caret)) else vga

/-- `wm_blit_row`. -/
def wmBlitRow (t : Terminal) (y : ℕ) (vga : Mem) : Mem :=
  if y > 24 then vga
  else
    let vga := vga.blit (y * 80 * 2) (80 * 2) fun i => t.cells (y * 80 * 2 + i)
    if t.cursorY = y ∧ t.cursorX ≤ 79 then Function.update vga t.caret (invert (vga t.caret))
    else vga

/-- The terminals, the screen, and whether a program runs instead of the shell. -/
structure State where
  terms : ℕ → Terminal
  current : ℕ
  vga : Mem
  running : Bool

namespace State

/-- `wm_current`. -/
def cur (s : State) : Terminal := s.terms s.current

def setCur (s : State) (t : Terminal) : State :=
  { s with terms := Function.update s.terms s.current t }

/-- `wm_blit(wm_current())`. -/
def blit (s : State) : State := { s with vga := wmBlit s.cur s.vga }

/-- `wm_blit_row(wm_current(), y)`. -/
def blitRow (s : State) (y : ℕ) : State := { s with vga := wmBlitRow s.cur y s.vga }

def wmSwitch (s : State) (idx : ℕ) : State :=
  if idx ≥ maxTerms then s else { s with current := idx }.blit

/-! ### The shell -/

/-- `"sherenity > "`. -/
def promptText : List UInt8 := [115, 104, 101, 114, 101, 110, 105, 116, 121, 32, 62, 32]

/-- Print the prompt if it is not there. -/
def showPrompt (s : State) : State :=
  if s.cur.prompt then s
  else s.setCur { s.cur.termPrintColor promptText (vgaColor black cyan) with prompt := true }

def switchWorkspace (s : State) (idx : ℕ) : State := (s.wmSwitch idx).showPrompt.blit

/-- The top of the outer loop of `shell_run`. -/
def shellTop (s : State) : State := if s.cur.prompt then s else s.showPrompt.blit

/-- What a command does to the current terminal. -/
inductive Out
  | putchar (c color : UInt8)
  | clear

def out (t : Terminal) : Out → Terminal
  | .putchar c color => t.termPutchar c color
  | .clear => { t.termClear with prompt := false }

/-- How the command of a line ends: it returns, after some output, or it starts a program. -/
inductive Outcome
  | returns (l : List Out)
  | starts

/-- The workspace of a key that is pressed with Ctrl. -/
def workspaceOf (c : ℤ) : Option ℕ :=
  if 49 ≤ c ∧ c ≤ 57 then some (c - 49).toNat
  else if c = 48 then some 9
  else if c = 113 then some 0
  else if c = 119 then some 1
  else if c = 101 then some 2
  else if c = 114 then some 3
  else if c = 116 then some 4
  else if c = 121 then some 5
  else if c = 117 then some 6
  else if c = 111 then some 7
  else if c = 112 then some 8
  else if c = 97 then some 9
  else none

/-- One turn of the inner loop of `shell_run` for the key `c`, with or without Ctrl. A line that
starts a program is not blitted: `enter_user` does not return. -/
def shellKey (s : State) (c : ℤ) (ctrl : Bool) (o : Outcome) : State :=
  match (if ctrl then workspaceOf c else none) with
  | some ws => s.switchWorkspace ws
  | none =>
    let t := s.cur
    if c = 10 then
      let t := t.termPutchar 10 (vgaColor black white)
      match o with
      | .returns l =>
        ((s.setCur { l.foldl out t with len := 0, prompt := false }).blit).shellTop
      | .starts => { s.setCur { t with prompt := false } with running := true }
    else if c = 8 then
      (if t.len > 0 then s.setCur { t with len := t.len - 1 }.termBackspace else s).blit
    else if 32 ≤ c ∧ c ≤ 126 then
      (if t.len < termBufSize - 1 then
        s.setCur ({ t with len := t.len + 1 }.termPutchar (UInt8.ofNat c.toNat)
          (vgaColor black white))
      else s).blit
    else s.blit

/-- `exit_to_shell`, as far as the screen goes. -/
def exitToShell (s : State) : State :=
  { s.setCur { s.cur with len := 0 } with running := false }.shellTop

/-! ### System calls -/

/-- The system calls that draw, with the bytes of the buffer or the registers. -/
inductive Call
  | write (buf : List UInt8)
  | clear
  | putcharAt (ebx ecx edx esi : ℕ)
  | gotoXy (ebx ecx : ℕ)

/-- The calls 1, 8, 9 and 10 of `syscall_handler`. -/
def syscall (s : State) : Call → State
  | .write buf => (s.setCur (s.cur.termPrintColor buf (vgaColor black white))).blit
  | .clear => (s.setCur s.cur.termClear).blit
  | .putcharAt ebx ecx edx esi =>
    if ecx < 80 ∧ edx < 25 then
      (s.setCur (s.cur.termPutcharAt (UInt8.ofNat ebx) ecx edx (UInt8.ofNat esi))).blitRow edx
    else s
  | .gotoXy ebx ecx =>
    if ebx < 80 ∧ ecx < 25 then
      let oy := s.cur.cursorY
      let s := s.setCur { s.cur with cursorX := ebx, cursorY := ecx }
      let s := s.blitRow oy
      if oy ≠ s.cur.cursorY then s.blitRow s.cur.cursorY else s
    else s

/-- What happens: a key at the shell, a system call of the program that runs, its end. -/
inductive Event
  | key (c : ℤ) (ctrl : Bool) (o : Outcome)
  | call (c : Call)
  | exit

def exec (s : State) : Event → State
  | .key c ctrl o => if s.running then s else s.shellKey c ctrl o
  | .call c => if s.running then s.syscall c else s
  | .exit => if s.running then s.exitToShell else s

/-! ### Boot -/

def wmInit (s : State) : State :=
  State.blit { s with
    terms := fun i =>
      Terminal.termClear { s.terms i with color := vgaColor black white, len := 0, prompt := false }
    current := 0 }

/-- A text as `term_print` gets it. -/
def text (str : String) : List UInt8 := str.toList.map fun c => UInt8.ofNat c.toNat

/-- The texts that `kmain` prints with their colours, before a last newline; the numbers of KB and of free frames in
decimal. -/
def greeting (kb frames : List UInt8) (mounted : Bool) : List (List UInt8 × UInt8) :=
  [(text "LunariaOS V-0\n", vgaColor black green),
    (text "Booted\n", vgaColor black green),
    (text "   __                      _      ____  ____\n", vgaColor black blue),
    (text "  / /  __ _____  ___ _____(_)__ _/ __ \\/ __/\n", vgaColor black blue),
    (text " / /__/ // / _ \\/ _ `/ __/ / _ `/ /_/ /\\ \\  \n", vgaColor black blue),
    (text "/____/\\_,_/_//_/\\_,_/_/ /_/\\_,_/\\____/___/  \n", vgaColor black blue),
    (text "[MEM]: ", vgaColor black blue),
    (kb, vgaColor black blue),
    (text " KB total, ", vgaColor black blue),
    (frames, vgaColor black blue),
    (text " free frames (paging ON)\n", vgaColor black blue),
    if mounted then (text "[FS]: Mounted\n", vgaColor black blue)
    else (text "[FS]: BAD MAGIC\n", vgaColor black red)]

/-- `kmain` from `wm_init` on, up to the first key. -/
def boot (s : State) (kb frames : List UInt8) (mounted : Bool) : State :=
  let s := s.wmInit
  let t := (greeting kb frames mounted).foldl (fun t g => t.termPrintColor g.1 g.2) s.cur
  (State.blit { s.setCur (t.termPrint (text "\n")) with running := false }).shellTop

end State

end LunariaOS.Wm
