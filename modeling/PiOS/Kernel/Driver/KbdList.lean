import PiOS.Kernel.Driver.Reads
import PiOS.Kernel.Libk.List

namespace PiOS.Kernel
open Function

/-- The keyboard with its list in memory: a submitter can be stopped in `list_append` behind the stores to its new node,
the thread in `list_remove` between the two `if`s. The thread finds its requests through `nodes`; `reads.shared.list` only
records which are linked. `used` are the nodes that `kmalloc` has handed out. -/
structure KbdReads (ι : Type) where
  reads : ReadState ι
  nodes : LinkedLists Unit Request
  used : Nat → Bool
  newNode : ι → Option Nat
  removing : Option Nat

/-- In `kmalloc` the heap, which others use as well, has a free node or is out of memory. -/
inductive KbdReadAction (ι : Type)
  | read (a : ReadAction ι)
  | kmalloc (i : ι) (newNode : Option Nat)

namespace KbdReads

variable {ι : Type} (s : KbdReads ι)

def halt (stop : Stop) : KbdReads ι := { s with reads := { s.reads with halted := some stop } }

def withFirst (move : Nat → KbdReads ι) : KbdReads ι := (s.nodes.first ()).elim (s.halt .nullDereference) move

def unlinked (r : Request) (got : List Byte) : ReadState ι :=
  { s.reads with shared := { s.reads.shared with list := s.reads.shared.list.erase r }, server := .finalize r got }

variable [DecidableEq ι]

def linked (i : ι) (r : Request) : ReadState ι :=
  { s.reads with
    shared := { s.reads.shared with list := s.reads.shared.list ++ [r] }
    place := update s.reads.place i (.raise r) }

def read (a : ReadAction ι) : Option (KbdReads ι) :=
  (readStep .kbd s.reads a).map fun reads => { s with reads := reads }

def allocate (i : ι) (newNode : Option Nat) : Option (KbdReads ι) :=
  match s.reads.place i, s.newNode i, newNode with
  | .append _, none, none => some (s.halt (.panic "kmalloc: out of memory"))
  | .append r, none, some node =>
    if s.used node then
      none
    else
      some { s with
        nodes := s.nodes.fillNode () r node
        used := update s.used node true
        newNode := update s.newNode i (some node) }
  | _, _, _ => none

def submitNext (i : ι) : Option (KbdReads ι) :=
  match s.reads.place i with
  | .append r => (s.newNode i).map fun node =>
    match s.nodes.linkNode () node with
    | .error stop => s.halt stop
    | .ok nodes => { s with reads := s.linked i r, nodes := nodes, newNode := update s.newNode i none }
  | _ => s.read (.next i)

def serverNext : Option (KbdReads ι) :=
  match s.reads.server, s.removing with
  | .first, _ => some (s.withFirst fun node =>
    { s with reads := { s.reads with server := .test (s.nodes.val node) } })
  | .remove _ _, none => some (s.withFirst fun node =>
    { s with nodes := s.nodes.unlinkBack () node, removing := some node })
  | .remove r got, some node => some { s with
      reads := s.unlinked r got
      nodes := s.nodes.unlinkFront () node
      used := update s.used node false
      removing := none }
  | _, _ => s.read .server

end KbdReads

def kbdReadStep {ι : Type} [DecidableEq ι] (s : KbdReads ι) (action : KbdReadAction ι) : Option (KbdReads ι) :=
  if s.reads.halted.isSome then
    none
  else
    match action with
    | .kmalloc i newNode => s.allocate i newNode
    | .read (.next i) => s.submitNext i
    | .read .server => s.serverNext
    | .read a => s.read a

/-- After `kbd_vfs_init`; `memory` and `used` are the heap before it. -/
def kbdReadStart (ι : Type) (memory : LinkedLists Unit Request) (used : Nat → Bool) : KbdReads ι :=
  ⟨readStart ι .kbd, memory.listInit (), used, fun _ => none, none⟩

end PiOS.Kernel
