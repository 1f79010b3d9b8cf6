import LunariaOS.Fs.Disk
import LunariaOS.Lib.Run

/-!
The driver of the hard disk in `ata.c`, down to the ports, and the drive that it talks to.

The drive is the programmed-input-output side of an ATA disk. A command makes it busy for some reads
of its status; while it is busy the other bits of the status say nothing. Then it either asks for the
256 words of the sector, or shows an error, and it goes on showing the error until the next command.
After the last word of a write it is busy again while it stores the sector. How long it is busy and
which commands fail is not known to the driver: `tempo` and `plan` are any sequences.
-/

namespace LunariaOS.Ata

open LunariaOS.Lib LunariaOS.Fs

/-! ### Constants -/

/-- `ATA_DATA`. -/
def ataData : ℕ := 0x1F0
/-- `ATA_SECTOR_CNT`. -/
def ataSectorCnt : ℕ := 0x1F2
/-- `ATA_LBA_LO`. -/
def ataLbaLo : ℕ := 0x1F3
/-- `ATA_LBA_MID`. -/
def ataLbaMid : ℕ := 0x1F4
/-- `ATA_LBA_HI`. -/
def ataLbaHi : ℕ := 0x1F5
/-- `ATA_DRIVE`. -/
def ataDrive : ℕ := 0x1F6
/-- `ATA_STATUS`, which is the command register when it is written. -/
def ataStatus : ℕ := 0x1F7
/-- `ATA_CMD_READ`. -/
def ataCmdRead : UInt8 := 0x20
/-- `ATA_CMD_WRITE`. -/
def ataCmdWrite : UInt8 := 0x30
/-- `ATA_STATUS_BSY`. -/
def ataStatusBsy : UInt8 := 0x80
/-- `ATA_STATUS_DRQ`. -/
def ataStatusDrq : UInt8 := 0x08
/-- `ATA_STATUS_ERR`. -/
def ataStatusErr : UInt8 := 0x01

/-- How many times `ata_wait` and `ata_wait_drq` look at the status. -/
@[irreducible] def polls : ℕ := 100000

lemma polls_pos : 0 < polls := by
  unfold polls
  omega

/-! ### The drive -/

/-- What becomes of a command: it is carried out, it is refused before any word is transferred, or,
for a write, the sector is found to be bad after its words have been sent and keeps something else. -/
inductive Outcome where
  | done
  | refused
  | spoiled (left : Sector)

/-- The words that the drive waits for: none, those of a read, or those of a write, with what it has
of the sector. -/
inductive Phase where
  | idle
  | dataIn (left : ℕ)
  | dataOut (left : ℕ) (got : Mem)

/-- The drive has a word to give or to take. -/
def Phase.waits : Phase → Bool
  | .idle => false
  | _ => true

/-- The drive: its sectors, its registers, and what it does next. -/
structure Drive where
  sectors : ℕ → Sector
  count : UInt8
  lo : UInt8
  mid : UInt8
  hi : UInt8
  sel : UInt8
  err : Bool
  phase : Phase
  /-- What the status shows, apart from the busy bit, in the reads that still find the drive busy. -/
  busy : List UInt8
  /-- The next busy times. -/
  tempo : ℕ → List UInt8
  /-- The outcomes of the next commands. -/
  plan : ℕ → Outcome

namespace Drive

/-- The sector that the registers name: 28 bits. -/
def lba (d : Drive) : ℕ :=
  d.lo.toNat + 256 * d.mid.toNat + 65536 * d.hi.toNat + 16777216 * (d.sel.toNat % 16)

/-- The status of a drive that is not busy. -/
def status (d : Drive) : UInt8 :=
  0x40 ||| (if d.phase.waits then ataStatusDrq else 0) ||| (if d.err then ataStatusErr else 0)

/-- `inb`. Only the status is ever read. -/
def inb (d : Drive) (port : ℕ) : UInt8 × Drive :=
  if port = ataStatus then
    match d.busy with
    | [] => (d.status, d)
    | b :: l => (ataStatusBsy ||| b, { d with busy := l })
  else (0xFF, d)

/-- The drive goes busy. -/
def hold (d : Drive) : Drive :=
  { d with busy := d.tempo 0, tempo := fun n => d.tempo (n + 1) }

/-- A command. It clears the error of the one before. One that asks for other than one sector is
refused, and so is one that is not known. -/
def command (d : Drive) (cmd : UInt8) : Drive :=
  let d := d.hold
  let known := d.count = 1 ∧ (cmd = ataCmdRead ∨ cmd = ataCmdWrite)
  let phase : Phase := if cmd = ataCmdRead then .dataIn 256 else .dataOut 256 fun _ => 0
  if ¬ known then { d with err := true, phase := .idle }
  else
    match d.plan 0 with
    | .done => { d with err := false, phase := phase }
    | .refused => { d with err := true, phase := .idle, plan := fun n => d.plan (n + 1) }
    | .spoiled _ =>
      if cmd = ataCmdRead then { d with err := true, phase := .idle, plan := fun n => d.plan (n + 1) }
      else { d with err := false, phase := phase }

/-- `outb`. -/
def outb (d : Drive) (port : ℕ) (value : UInt8) : Drive :=
  if port = ataSectorCnt then { d with count := value }
  else if port = ataLbaLo then { d with lo := value }
  else if port = ataLbaMid then { d with mid := value }
  else if port = ataLbaHi then { d with hi := value }
  else if port = ataDrive then { d with sel := value }
  else if port = ataStatus then d.command value
  else d

/-- `inw` of the data port: the next word of the sector. -/
def inw (d : Drive) (port : ℕ) : UInt16 × Drive :=
  match d.phase with
  | .dataIn (n + 1) =>
    if port = ataData then
      let i := 2 * (255 - n)
      let s := (d.sectors d.lba).mem
      ((s i).toUInt16 ||| (s (i + 1)).toUInt16 <<< 8,
        if n = 0 then { d with phase := .idle, plan := fun n => d.plan (n + 1) }
        else { d with phase := .dataIn n })
    else (0xFFFF, d)
  | _ => (0xFFFF, d)

/-- The end of a write, when the drive has all words of the sector. -/
def store (d : Drive) (got : Mem) : Drive :=
  let put s := fun l => if l = d.lba then s else d.sectors l
  match d.plan 0 with
  | .done =>
    { d.hold with sectors := put (Sector.ofMem got), phase := .idle, plan := fun n => d.plan (n + 1) }
  | .refused => { d.hold with err := true, phase := .idle, plan := fun n => d.plan (n + 1) }
  | .spoiled s =>
    { d.hold with
      sectors := put s, err := true, phase := .idle, plan := fun n => d.plan (n + 1) }

/-- `outw` of the data port: the next word of the sector. -/
def outw (d : Drive) (port : ℕ) (w : UInt16) : Drive :=
  match d.phase with
  | .dataOut (n + 1) got =>
    if port = ataData then
      let i := 2 * (255 - n)
      let got := Function.update (Function.update got i w.toUInt8) (i + 1) (w >>> 8).toUInt8
      if n = 0 then d.store got else { d with phase := .dataOut n got }
    else d
  | _ => d

end Drive

/-! ### The driver -/

/-- The loop of `ata_wait`. -/
def waitLoop : ℕ → Drive → Bool × Drive
  | 0, d => (false, d)
  | n + 1, d =>
    let (status, d) := d.inb ataStatus
    if status &&& ataStatusBsy = 0 then
      (if status &&& ataStatusErr ≠ 0 then (false, d) else (true, d))
    else waitLoop n d

/-- `ata_wait`. The flag is false where the code returns -1. -/
def ataWait (d : Drive) : Bool × Drive := waitLoop polls d

/-- The loop of `ata_wait_drq`. -/
def waitDrqLoop : ℕ → Drive → Bool × Drive
  | 0, d => (false, d)
  | n + 1, d =>
    let (status, d) := d.inb ataStatus
    if status &&& ataStatusErr ≠ 0 then (false, d)
    else if status &&& ataStatusBsy = 0 ∧ status &&& ataStatusDrq ≠ 0 then (true, d)
    else waitDrqLoop n d

/-- `ata_wait_drq`. -/
def ataWaitDrq (d : Drive) : Bool × Drive := waitDrqLoop polls d

/-- The writes to the registers with which both functions begin a transfer of the sector `lba`. -/
def request (lba : UInt32) (cmd : UInt8) (d : Drive) : Drive :=
  let d := d.outb ataDrive ((0xE0 : UInt8) ||| ((lba >>> 24) &&& 0x0F).toUInt8)
  let d := d.outb ataSectorCnt 1
  let d := d.outb ataLbaLo (lba &&& 0xFF).toUInt8
  let d := d.outb ataLbaMid ((lba >>> 8) &&& 0xFF).toUInt8
  let d := d.outb ataLbaHi ((lba >>> 16) &&& 0xFF).toUInt8
  d.outb ataStatus cmd

/-- The loop of `ata_write_sectors` over the words of a sector, `n` of them from `ptr` on. -/
def sendWords (buf : Mem) : ℕ → ℕ → Drive → Drive
  | 0, _, d => d
  | n + 1, ptr, d =>
    let w := (buf ptr).toUInt16 ||| (buf (ptr + 1)).toUInt16 <<< 8
    sendWords buf n (ptr + 2) (d.outw ataData w)

/-- The loop of `ata_read_sectors` over the words of a sector. -/
def takeWords : ℕ → ℕ → Mem → Drive → Mem × Drive
  | 0, _, buf, d => (buf, d)
  | n + 1, ptr, buf, d =>
    let (w, d) := d.inw ataData
    let buf := Function.update buf ptr (w &&& 0xFF).toUInt8
    takeWords n (ptr + 2) (Function.update buf (ptr + 1) ((w >>> 8) &&& 0xFF).toUInt8) d

/-- The words of one sector, sent. -/
@[irreducible] def sendSector (buf : Mem) (ptr : ℕ) (d : Drive) : Drive := sendWords buf 256 ptr d

/-- The words of one sector, taken. -/
@[irreducible] def takeSector (ptr : ℕ) (buf : Mem) (d : Drive) : Mem × Drive := takeWords 256 ptr buf d

/-- The loop of `ata_write_sectors`, over `count` sectors. -/
def writeSectors (buf : Mem) : ℕ → UInt32 → ℕ → Drive → Bool × Drive
  | 0, _, _, d => (true, d)
  | count + 1, lba, ptr, d =>
    match ataWait d with
    | (false, d) => (false, d)
    | (true, d) =>
      match ataWaitDrq (request lba ataCmdWrite d) with
      | (false, d) => (false, d)
      | (true, d) =>
        match ataWait (sendSector buf ptr d) with
        | (false, d) => (false, d)
        | (true, d) => writeSectors buf count (lba + 1) (ptr + 512) d

/-- `ata_write_sectors`. -/
def ataWriteSectors (lba : UInt32) (count : ℕ) (buf : Mem) (d : Drive) : Bool × Drive :=
  writeSectors buf count lba 0 d

/-- The loop of `ata_read_sectors`, over `count` sectors. -/
def readSectors : ℕ → UInt32 → ℕ → Mem → Drive → (Bool × Mem) × Drive
  | 0, _, _, buf, d => ((true, buf), d)
  | count + 1, lba, ptr, buf, d =>
    match ataWait d with
    | (false, d) => ((false, buf), d)
    | (true, d) =>
      match ataWait (request lba ataCmdRead d) with
      | (false, d) => ((false, buf), d)
      | (true, d) =>
        let (buf, d) := takeSector ptr buf d
        readSectors count (lba + 1) (ptr + 512) buf d

/-- `ata_read_sectors`. -/
def ataReadSectors (lba : UInt32) (count : ℕ) (buf : Mem) (d : Drive) : (Bool × Mem) × Drive :=
  readSectors count lba 0 buf d

end LunariaOS.Ata
