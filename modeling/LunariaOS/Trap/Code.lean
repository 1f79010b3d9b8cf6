import LunariaOS.Lib.Cpu

/-!
The ways into the kernel and out of it: `isr.asm`, `entry.asm`, and what `syscall_handler` does to the
trap frame.

A piece of assembly is a list of instructions. A C function that it calls is a parameter, the state of
the processor when it has returned; `back` is the address of the instruction behind the call.
-/

namespace LunariaOS.Trap

open LunariaOS.Lib

/-! ### The segments and the stack of the kernel -/

/-- `KERNEL_CODE`. -/
def kernelCode : UInt32 := 0x08
/-- `KERNEL_DATA`. -/
def kernelData : UInt32 := 0x10
/-- The code segment that `enter_user` loads: `USER_CODE` with privilege level 3. -/
def userCode : UInt32 := 0x1B
/-- The data segment that `enter_user` loads: `USER_DATA` with privilege level 3. -/
def userData : UInt32 := 0x23

/-- What `gdt_init` puts into the task state segment. -/
def tss : Tss := ⟨0x90000, kernelData⟩

/-- The end of the stack of the kernel, as a number. -/
def stackTop : ℕ := 0x90000

/-! ### The stubs -/

/-- The macro `ISR`, for the vector `v`. -/
def isr (v : UInt32) (back : UInt32) (isrCommonHandler : Cpu → Option Cpu) : List Instr :=
  [.pushad, .pushImm v, .call back isrCommonHandler, .add .esp 4, .popad, .iretd]

/-- `isr_dummy`. -/
def isrDummy : List Instr := [.iretd]

/-- `isr0x80`. -/
def isr0x80 (back : UInt32) (syscallHandler : Cpu → Option Cpu) : List Instr :=
  [.pushad, .mov .eax .esp, .lea .edx .eax 32, .push .edx, .push .eax, .call back syscallHandler,
    .add .esp 8, .popad, .iretd]

/-- `isrfault0x0E`. The jump goes to `.fatal`, which stops the processor. -/
def isrfault0x0E (back : UInt32) (faultHandler : Cpu → Option Cpu) : List Instr :=
  [.cli, .pushad, .load .eax .esp 32, .storeAt 0x6008 .eax, .load .eax .esp 36,
    .storeAt 0x600C .eax, .load .eax .esp 40, .storeAt 0x6010 .eax, .movCr2 .eax,
    .storeImm 0x6000 0x0E, .storeAt 0x6004 .eax, .load .eax .esp 32, .movCr2 .edx, .pushImm 0x0E,
    .push .eax, .push .edx, .lea .eax .esp 12, .push .eax, .call back faultHandler, .add .esp 16,
    .test .eax .eax, .jz 3, .popad, .add .esp 4, .iretd, .cli, .hlt]

/-- The numbers of the system calls after which `syscall_handler` stores a value into `r->eax`. -/
def returning (n : UInt32) : Bool :=
  n == 3 || n == 4 || n == 5 || n == 6 || n == 11 || n == 12 || n == 13 || n == 14 || n == 15 ||
    n == 16 || n == 17

/-- `syscall_handler(r, frame)`. `body` is the rest of it: what it does besides its stores through the
two pointers, and the value of the call. `exitTarget` is what `exit_target` holds. -/
def syscallHandler (exitTarget : UInt32) (body : Cpu → Option (UInt32 × Cpu)) (s : Cpu) :
    Option Cpu :=
  let r := s.ld (s.reg .esp + 4)
  let frame := s.ld (s.reg .esp + 8)
  let n := s.ld (r + 28)
  (body s).map fun (v, t) =>
    if n = 2 then (t.st frame exitTarget).st (frame + 4) kernelCode
    else if returning n then t.st (r + 28) v
    else t

end LunariaOS.Trap
