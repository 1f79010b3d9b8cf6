import Mathlib.Data.List.DropRight
import LunariaOS.Fs.Code
import LunariaOS.Fs.Dir

/-!
The host tool `fs_seeder.c`, which puts a file system on the disk image, and `fs_mount`, which reads
its superblock.

The image is the byte at every offset. The tool computes offsets as an `int`, and where that overflows
it has no defined behaviour and no result here.
-/

namespace LunariaOS.Seeder

open LunariaOS.Lib LunariaOS.Fs

/-- A text of the source. -/
def ascii (str : String) : List UInt8 := str.toList.map fun c => UInt8.ofNat c.toNat

/-- `FS_MAGIC`. -/
def fsMagic : List UInt8 := ascii "LUNFS1"

/-- Bytes written at an offset of the image. -/
def fwriteAt (f : Mem) (off : ℕ) (l : List UInt8) : Mem := f.blit off l.length fun i => l.getD i 0

/-! ### The files that are always there -/

def text1 : List UInt8 := ascii "Welcome to LunariaOS!\n"

def text2 : List UInt8 := ascii "Hello from filesystem!\n"

def text3 : List UInt8 :=
  ascii "/* tcc demo: print fib(10) when a shell argument starts with 'f',\n" ++
  ascii "   otherwise print the argument count main() received. print() and\n" ++
  ascii "   print_dec() exist in both the compile-and-run symbol table and the\n" ++
  ascii "   flat -o image runtime, so the same file works either way. */\n" ++
  ascii "int magic(int n) \x7b return n < 2 ? n : magic(n - 1) + magic(n - 2); \x7d\n" ++
  ascii "int main(int argc, char **argv)\n" ++
  ascii "\x7b\n" ++
  ascii "    if (argc >= 2 && argv[1][0] == 'f')\n" ++
  ascii "    \x7b\n" ++
  ascii "        int r = magic(10);\n" ++
  ascii "        print(\"demo: fib(10)=\");\n" ++
  ascii "        print_dec(r);\n" ++
  ascii "        print(\"\\n\");\n" ++
  ascii "        return r;\n" ++
  ascii "    \x7d\n" ++
  ascii "    print(\"demo: argc=\");\n" ++
  ascii "    print_dec(argc);\n" ++
  ascii "    print(\"\\n\");\n" ++
  ascii "    return argc;\n" ++
  ascii "\x7d\n"

def text4 : List UInt8 :=
  ascii "/* flat-libc demo: printf() links into an -o image because tcc pulls\n" ++
  ascii "   libc.a (seeded on the disk) into the image. print() works\n" ++
  ascii "   everywhere; printf()/malloc()/fopen() are flat-binary extras. */\n" ++
  ascii "int main(int argc, char **argv)\n" ++
  ascii "\x7b\n" ++
  ascii "    printf(\"print.c: argc=%d\\n\", argc);\n" ++
  ascii "    if (argc >= 2)\n" ++
  ascii "        printf(\"print.c: argv[1]=%s\\n\", argv[1]);\n" ++
  ascii "    printf(\"print.c: u64=%llu\\n\", 1234567890123ull);\n" ++
  ascii "    return argc;\n" ++
  ascii "\x7d\n"

/-- The four files with their names. -/
def builtins : List (CStr × List UInt8) :=
  [(⟨ascii "readme.txt", by decide⟩, text1), (⟨ascii "hello.txt", by decide⟩, text2),
    (⟨ascii "demo.c", by decide⟩, text3), (⟨ascii "print.c", by decide⟩, text4)]

/-! ### The names of the programs -/

/-- What follows the last slash of a path, `strrchr(argv[i], '/') + 1`. -/
def baseName (path : List UInt8) : List UInt8 := path.rtakeWhile (· != 47)

/-- A name cut at its last dot. -/
def cutDot (name : List UInt8) : List UInt8 :=
  if 46 ∈ name then (name.rdropWhile (· != 46)).dropLast else name

/-- The buffer `name` of the loop: at most 22 bytes of the base name, without the prefix `prog_` and
then without the extension. -/
def seedName (base : List UInt8) : List UInt8 :=
  let name := base.take (23 - 1)
  if name.take 5 = ascii "prog_" then cutDot (name.drop 5) else name

/-! ### The image -/

/-- What the tool has written so far: the image, `next_lba` and the entries of the directory. -/
structure Seed where
  img : Mem
  nextLba : ℕ
  entries : List FileEntry

/-- A name as a C string. -/
def strOf (l : List UInt8) : CStr := ⟨cstr l, zero_notMem_cstr l⟩

/-- One of the first four files. -/
def addText (s : Seed) (f : CStr × List UInt8) : Seed where
  img := fwriteAt s.img (s.nextLba * 512) f.2
  nextLba := s.nextLba + (f.2.length + 511) / 512
  entries := s.entries ++ [newEntry f.1 fsFile s.nextLba f.2.length]

/-- The loop over the bytes of a program, in pieces of a sector that are filled up with zeros: the
image and `next_lba` after it. -/
def progLoop (img : Mem) (pos nextLba : ℕ) (data : List UInt8) : Mem × ℕ :=
  if data = [] then (img, nextLba)
  else
    progLoop (img.blit pos 512 fun i => (data.take 512).getD i 0) (pos + 512) (nextLba + 1)
      (data.drop 512)
termination_by data.length
decreasing_by
  rename_i h
  have := List.length_pos_of_ne_nil h
  rw [List.length_drop]
  omega

/-- One turn of the loop over the arguments, for a file that can be opened. -/
def addProg (s : Seed) (path : CStr) (data : List UInt8) : Option Seed :=
  -- `next_lba * 512` and `next_lba++` are computed as `int`
  if s.nextLba * 512 ≥ 2147483648 ∨ s.nextLba + (data.length + 511) / 512 ≥ 2147483648 then none
  else
    let (img, nextLba) := progLoop s.img (s.nextLba * 512) s.nextLba data
    some
      { img := img
        nextLba := nextLba
        entries := s.entries ++
          [newEntry (strOf (seedName (baseName path.bytes))) fsFile s.nextLba (u32 data.length)] }

/-- The loop over the arguments. A file that cannot be opened is skipped. -/
def addProgs (s : Seed) : List (CStr × Option (List UInt8)) → Option Seed
  | [] => some s
  | (path, data) :: l =>
    if s.entries.length ≥ fsDirSectors * fsEntriesPerSector then some s
    else
      match data with
      | none => addProgs s l
      | some data =>
        match addProg s path data with
        | none => none
        | some s => addProgs s l

/-- The entries written one after the other, from the slot number `k` on. -/
def putDir (img : Mem) (k : ℕ) : List FileEntry → Mem
  | [] => img
  | e :: l => putDir (putEntry img (16 * fsDirLba + k) e) (k + 1) l

/-- The superblock, as `fwrite` gets it. -/
def superBytes : List UInt8 :=
  fsMagic ++ [0, 0] ++ (List.range 4).map (leByte fsDirLba) ++ (List.range 4).map (leByte fsDirSectors)
    ++ (List.range 4).map (leByte fsDataLba)

/-- The image before the first file: an empty directory and the superblock. -/
def emptyImage (f : Mem) : Mem :=
  fwriteAt (f.blit (fsDirLba * 512) (fsDirSectors * 512) fun _ => 0) (fsSuperLba * 512) superBytes

/-- `main`, for the image that it opens and for the files that it is given. -/
def seederMain (f : Mem) (args : List (CStr × Option (List UInt8))) : Option Mem :=
  let s : Seed := { img := emptyImage f, nextLba := fsDataLba, entries := [] }
  let s := builtins.foldl addText s
  (addProgs s args).map fun s => putDir s.img 0 s.entries

/-! ### The image as a disk -/

/-- The disk that the kernel sees. -/
def diskOf (img : Mem) : Disk where
  sectors := fun lba => Sector.ofMem fun i => img (512 * lba + i)
  fault := fun _ => false

/-- `fs_mount`. -/
def fsMount (d : Disk) : Option Superblock × Disk :=
  match ataReadSectors d fsSuperLba with
  | (none, d) => (none, d)
  | (some sec, d) =>
    if cstr ((List.range 20).map sec) ≠ fsMagic then (none, d)
    else
      (some { dirLba := sec.ld32 8, dirSectors := sec.ld32 12, dataLba := sec.ld32 16 }, d)

end LunariaOS.Seeder
