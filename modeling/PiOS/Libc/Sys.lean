import PiOS.Kernel.Sys.Sysd

namespace PiOS.Libc
open Kernel

def syscallRaw (regs : Fin 8 → Word) (p0 p1 p2 p3 p4 : Word) : Fin 8 → Word := fun r =>
  match r with
  | 0 => p0
  | 1 => p1
  | 2 => p2
  | 3 => p3
  | 6 => p4
  | r => regs r

def sysClockticks (regs : Fin 8 → Word) : Fin 8 → Word := Function.update regs 0 0xf

def clockticksTime (regs : Fin 8 → Word) : BitVec 32 := (regs 0).setWidth 32 ||| (regs 1).setWidth 32 <<< 16

def sysAlarmset (regs : Fin 8 → Word) (ticks : BitVec 32) : Fin 8 → Word :=
  syscallRaw regs Syscall.alarmset.number (ticks.setWidth 16) ((ticks >>> 16).setWidth 16) 0 0

def sysMqrecv (regs : Fin 8 → Word) (mqId buff size nonblock : Word) : Fin 8 → Word :=
  syscallRaw regs Syscall.mqrecv.number mqId (size - 6) buff nonblock

def sys (k : KernelState) (i : Nat) (p : Proc) (answers : Answers) (regs : Fin 8 → Word) : Except Stop KernelState :=
  let withRegs (p : Proc) : Proc := { p with syscallState := { p.syscallState with regs := regs } }
  processSyscall (k.modifyProc i withRegs) i (withRegs p) answers

end PiOS.Libc
