import PiOS.Kernel.Proc.ZeroPage

namespace PiOS.Kernel

structure Window where
  kernel : KernelState
  pageZero : Word

namespace Window

def mapPageZero (w : Window) (page : Word) : Window := ⟨w.kernel.mapPageZero page, page⟩

def loadByte (w : Window) (addr : Word) : Byte :=
  w.kernel.phys (kernelTable w.pageZero (virtPagePart addr)) (virtLocalPart addr)

def storeByte (w : Window) (addr : Word) (b : Byte) : Window :=
  { w with kernel := { w.kernel with phys := Kernel.storeByte (kernelTable w.pageZero) w.kernel.phys addr b } }

def memcpy : Nat → Word → Word → Window → Window
  | 0, _, _, w => w
  | count + 1, dest, src, w => memcpy count (dest + 1) (src + 1) (w.storeByte dest (w.loadByte src))

/-- The loop of `memcpy_to_userspace` and of `memcpy_from_userspace`, which differ in the direction of `memcpy`. -/
def copyLoop (toUser : Bool) (memPages : Fin 16 → Word) : Nat → Word → Word → Word → Window → Option Window
  | 0, _, _, _, _ => none
  | fuel + 1, ubuff, kbuff, size, w =>
    if size = 0 then
      some w
    else
      let w := w.mapPageZero (memPages (virtPagePart ubuff))
      let toCopy := wordMin size (pageBytes - virtLocalPart ubuff)
      let w :=
        if toUser then
          memcpy toCopy.toNat (virtLocalPart ubuff) kbuff w
        else
          memcpy toCopy.toNat kbuff (virtLocalPart ubuff) w
      copyLoop toUser memPages fuel (ubuff + toCopy) (kbuff + toCopy) (size - toCopy) w

def restorePageZero (w : Window) : Window := w.mapPageZero w.kernel.currentPageZero

def memcpyFromUserspace (fuel : Nat) (w : Window) (kbuff : Word) (proc : Proc) (ubuff size : Word) : Option Window :=
  (copyLoop false proc.syscallState.memPages fuel ubuff kbuff size w).map restorePageZero

def memcpyToUserspace (fuel : Nat) (w : Window) (proc : Proc) (ubuff kbuff size : Word) : Option Window :=
  (copyLoop true proc.syscallState.memPages fuel ubuff kbuff size w).map restorePageZero

end Window

end PiOS.Kernel
