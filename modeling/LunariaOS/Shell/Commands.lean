import LunariaOS.Fs.Ls
import LunariaOS.Shell.Line
import LunariaOS.Tcc.Runtime

/-!
The commands of the shell.

A command is a function of its words and of the files. What it does besides its calls of the file system
is the list of its acts, in their order; programs, the clock and the screen lie behind them. The files
are a parameter: the code has the disk there (`onDisk`), and the language that the shell speaks can be
read over any other store with the same calls.
-/

namespace LunariaOS.Shell

open LunariaOS.Lib LunariaOS.Fs
open LunariaOS.Paint.State (itoa)
open LunariaOS.Wm (vgaColor black cyan green red white)
open LunariaOS.Wm.State (text)

def yellow : UInt8 := 0xE

/-- What a command does to the terminal and to the machine. -/
inductive Act where
  /-- `term_print_color`. -/
  | print (t : List UInt8) (color : UInt8)
  /-- What `fs_cat`, and `fs_ls` of a directory, print in their own colours. -/
  | shown (t : List UInt8)
  /-- What `fs_ls` prints of the root. -/
  | listed (t : List UInt8)
  /-- A sector that is printed. -/
  | sector (t : List UInt8)
  | clear
  | banner
  /-- `pit_sleep`. -/
  | sleep (ms : ℕ)
  /-- `shell_run_program`. -/
  | program (name : CStr) (argv : List CStr)
  | powerOff
  | halt
  deriving DecidableEq

/-- The numbers of the clock and of the memory that commands print. -/
structure Env where
  uptimeSec : ℕ
  totalKb : ℕ
  totalFrames : ℕ
  freeFrames : ℕ
  faults : ℕ

/-- The word number `i` of `argv`. -/
def arg (argv : List CStr) (i : ℕ) : CStr := argv.getD i CStr.empty

/-- `itoa` of a number that has no sign. -/
def itoaUnsigned (n : ℕ) : List UInt8 := itoa (i32 n)

/-- `atoi`. -/
def atoi (s : CStr) : ℤ := (Tcc.Header.atoi (s.bytes ++ [0])).getD 0

/-- The calls that the commands use, on a store `σ`. A call that returns a flag has succeeded when it is
set. -/
structure Files (σ : Type) where
  write : CStr → List UInt8 → σ → Bool × σ
  mkdir : CStr → σ → Bool × σ
  delete : CStr → σ → Bool × σ
  cat : CStr → σ → Bool × List UInt8 × σ
  ls : CStr → σ → Bool × List UInt8 × σ
  lsRoot : σ → List UInt8 × σ
  sector : ℕ → σ → Option (List UInt8) × σ
  program : CStr → List CStr → σ → σ

/-- The calls of `fs.c` and `ata.c`, and what a program does to the disk. -/
def onDisk (sb : Superblock) (program : CStr → List CStr → Disk → Disk) : Files Disk where
  write name text d :=
    let (rc, d) := fsWrite sb name fsFile (fun i => text.getD i 0) text.length d
    (rc = 0, d)
  mkdir name d :=
    let (rc, d) := fsMkdir sb name d
    (rc = 0, d)
  delete name d :=
    let (rc, d) := fsDelete sb name d
    (rc = 0, d)
  cat name d :=
    let r := fsCat sb name d
    (r.rc = 0, r.out, r.disk)
  ls name d :=
    let (rc, t, d) := fsLs sb (some name) d
    (rc = 0, t, d)
  lsRoot d := (fsLs sb (some CStr.empty) d).2
  sector lba d :=
    let (r, d) := ataReadSectors d lba
    (r.map fun sec => bytes sec 0 512, d)
  program := program

section Commands

variable {σ : Type} (F : Files σ)

/-- A function of the table: `argv` and the store. -/
abbrev Command (σ : Type) := Env → List CStr → σ → List Act × σ

def cmdHelp : Command σ := fun _ _ s =>
  ([.print (text "Available Commands:\n  help\n  clear\n  echo\n  read\n  ls\n  cat\n  rm\n  mkdir\n  run\n  uptime\n  sleep\n  halt\n  exit\n")
    (vgaColor black white)], s)

def cmdClear : Command σ := fun _ _ s => ([.clear], s)

/-- The loop of `cmd_echo`, from the word number `i` on. -/
def echoWords (i : ℕ) : List CStr → List Act
  | [] => []
  | w :: ws =>
    (if i > 1 then [.print (text " ") (vgaColor black white)] else []) ++
      .print w.bytes (vgaColor black white) :: echoWords (i + 1) ws

def cmdEcho : Command σ := fun _ argv s =>
  if argv.length ≥ 2 then
    (echoWords 1 (argv.drop 1) ++ [.print (text "\n") (vgaColor black white)], s)
  else ([], s)

/-- What `cmd_mkdir` prints when a directory cannot be made. -/
def mkdirFailed (name : CStr) : List Act :=
  [.print (text "mkdir: failed:") (vgaColor black red), .print name.bytes (vgaColor black red),
    .print (text "\n") (vgaColor black red)]

/-- The loop of `cmd_mkdir`. -/
def mkdirWords : List CStr → σ → List Act × σ
  | [], s => ([], s)
  | name :: names, s =>
    let (ok, s) := F.mkdir name s
    let (acts, s) := mkdirWords names s
    ((if ok then [] else mkdirFailed name) ++ acts, s)

def cmdMkdir : Command σ := fun _ argv s => mkdirWords F (argv.drop 1) s

def cmdRun : Command σ := fun _ argv s =>
  if argv.length < 2 then ([.print (text "usage: run <file> [args...]\n") (vgaColor black red)], s)
  else ([.program (arg argv 1) (argv.drop 1)], F.program (arg argv 1) (argv.drop 1) s)

def cmdUptime : Command σ := fun env _ s =>
  ([.print (text "uptime: ") (vgaColor black white),
    .print (itoaUnsigned env.uptimeSec) (vgaColor black yellow),
    .print (text " seconds\n") (vgaColor black white)], s)

def cmdFree : Command σ := fun env _ s =>
  let k := vgaColor black white
  let v := vgaColor black yellow
  ([.print (text "  total  ") k, .print (itoaUnsigned env.totalKb) v, .print (text " KB\n") k,
    .print (text "  frames ") k, .print (itoaUnsigned env.totalFrames) v, .print (text " total, ") k,
    .print (itoaUnsigned env.freeFrames) v, .print (text " free, ") k,
    .print (itoaUnsigned (u32 (env.totalFrames + 4294967296 - env.freeFrames))) v,
    .print (text " used\n") k, .print (text "  heap   ") k,
    .print (itoaUnsigned (u32 (env.freeFrames * 4) / 1024)) v, .print (text " KB free\n") k,
    .print (text "  ring3  ") k,
    .print (text "0x400000-0x800000 on demand, ") (vgaColor black cyan),
    .print (itoaUnsigned env.faults) v, .print (text " faults served\n") k], s)

def cmdSleep : Command σ := fun _ argv s =>
  if argv.length > 1 then ([.sleep (atoi (arg argv 1) % 4294967296).toNat], s) else ([], s)

def cmdRead : Command σ := fun _ argv s =>
  if argv.length < 2 then ([.print (text "usage: read <lba>\n") (vgaColor black red)], s)
  else
    match F.sector (atoi (arg argv 1) % 4294967296).toNat s with
    | (none, s) => ([.print (text "read failed\n") (vgaColor black red)], s)
    | (some sector, s) =>
      ([.sector (cstr sector), .print (text "\n") (vgaColor black white)], s)

def cmdHalt : Command σ := fun _ _ s => ([.halt], s)

def cmdExit : Command σ := fun _ _ s => ([.powerOff], s)

def cmdLs : Command σ := fun _ argv s =>
  if argv.length ≥ 2 then
    let (ok, t, s) := F.ls (arg argv 1) s
    (.shown t :: (if ok then [] else [.print (text "ls: not found\n") (vgaColor black red)]), s)
  else
    let (t, s) := F.lsRoot s
    ([.listed t], s)

def cmdBanner : Command σ := fun _ argv s => (if argv.length = 1 then [.banner] else [], s)

def cmdCat : Command σ := fun _ argv s =>
  if argv.length < 2 then ([.print (text "usage: cat <file>\n") (vgaColor black red)], s)
  else
    let (ok, t, s) := F.cat (arg argv 1) s
    (.shown t :: (if ok then [] else [.print (text "cat: not found\n") (vgaColor black red)]), s)

def cmdRm : Command σ := fun _ argv s =>
  if argv.length < 2 then ([.print (text "usage: rm <file>\n") (vgaColor black red)], s)
  else
    let (ok, s) := F.delete (arg argv 1) s
    (if ok then [] else [.print (text "rm: not found\n") (vgaColor black red)], s)

/-- `commands`. -/
def commands : List (List UInt8 × Command σ) :=
  [(text "help", cmdHelp), (text "clear", cmdClear), (text "echo", cmdEcho), (text "read", cmdRead F),
    (text "exit", cmdExit), (text "halt", cmdHalt), (text "ls", cmdLs F), (text "cat", cmdCat F),
    (text "rm", cmdRm F), (text "mkdir", cmdMkdir F), (text "run", cmdRun F), (text "uptime", cmdUptime),
    (text "sleep", cmdSleep), (text "banner", cmdBanner), (text "free", cmdFree)]

/-- The end of `execute`: the search in the table. -/
def runCommand : Command σ := fun env argv s =>
  match (commands F).find? fun c => strcmp (arg argv 0).bytes c.1 = 0 with
  | some c => c.2 env argv s
  | none =>
    ([.print (arg argv 0).bytes (vgaColor black white),
      .print (text ": command not found\n") (vgaColor black red)], s)

end Commands

/-- The whole of `execute`: what it does, and the disk. -/
def executeLine (program : CStr → List CStr → Disk → Disk) (env : Env) (sb : Superblock)
    (junk line : Mem) (d : Disk) : Option (List Act × Disk) :=
  (execute sb junk line d).map fun r =>
    match r.command with
    | none => (r.printed.map fun p => .print p.1 p.2, r.disk)
    | some (argv, line) => runCommand (onDisk sb program) env (argv.map (wordAt line)) r.disk

end LunariaOS.Shell
