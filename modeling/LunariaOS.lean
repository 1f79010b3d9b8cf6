import LunariaOS.Lib.Run
import LunariaOS.Str
import LunariaOS.Window
import LunariaOS.Fs.Disk
import LunariaOS.Fs.Map
import LunariaOS.Fs.Code
import LunariaOS.Fs.Handle
import LunariaOS.Fs.Dir
import LunariaOS.Fs.Write
import LunariaOS.Fs.Inv
import LunariaOS.Fs.Rule
import LunariaOS.Fs.Calls
import LunariaOS.Fs.Fits
import LunariaOS.Fs.WellFormed
import LunariaOS.Fs.Refine
import LunariaOS.Fs.Frame
import LunariaOS.Fs.Streams
import LunariaOS.Fs.Durable
import LunariaOS.Fs.Listing
import LunariaOS.Fs.Writer
import LunariaOS.Fs.Table
import LunariaOS.Fs.Exit
import LunariaOS.Fs.Success
import LunariaOS.Fs.Faults
import LunariaOS.Libc.Resize
import LunariaOS.Shell.Loader
import LunariaOS.Shell.Args
import LunariaOS.Mm.Isolation
import LunariaOS.Mm.Flat
import LunariaOS.Wm.Screen
import LunariaOS.Kbd.Ring
import LunariaOS.Kbd.Mods
import LunariaOS.Fs.ReadFaults
import LunariaOS.Fs.OpenFaults
import LunariaOS.Fs.Spare
import LunariaOS.Fs.Reader
import LunariaOS.Fs.Tree
import LunariaOS.Fs.Reuse
import LunariaOS.Paint.Screen
import LunariaOS.Mirror.Flush
import LunariaOS.Edit.Session
import LunariaOS.Seeder.Image
import LunariaOS.Libc.Strto
import LunariaOS.Stdio.Strftime
import LunariaOS.Stdio.Standard
import LunariaOS.Mm.Firmware
import LunariaOS.Fs.Ls
import LunariaOS.Fs.Append
import LunariaOS.Wm.Page
import LunariaOS.Wm.Bounds
import LunariaOS.Tcc.Intrin
import LunariaOS.Libc.Time
import LunariaOS.Libc.Sort
import LunariaOS.Mirror.Caret
import LunariaOS.Stdio.Seek
import LunariaOS.Libc.Strtold
import LunariaOS.Libc.Copy
import LunariaOS.Pit
import LunariaOS.Tcc.Runtime
import LunariaOS.Shell.Block
import LunariaOS.Edit.Target
import LunariaOS.Edit.Screen
import LunariaOS.Paint.File
import LunariaOS.Shell.Line
import LunariaOS.Ata.Refine
import LunariaOS.Trap.Session
import LunariaOS.Libc.Setjmp
import LunariaOS.Shell.RoundTrip
import LunariaOS.Mirror.Menu
import LunariaOS.Trap.Tables
