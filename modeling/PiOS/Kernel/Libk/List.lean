import PiOS.Kernel.Basic

namespace PiOS.Kernel
open Function

/-- Lists, with the fields of `struct list` by list and those of `struct list_node` by address. -/
structure LinkedLists (ι : Type) (β : Type := Word) where
  first : ι → Option Nat
  last : ι → Option Nat
  next : Nat → Option Nat
  prev : Nat → Option Nat
  val : Nat → β

namespace LinkedLists

variable {ι β : Type} [DecidableEq ι] (s : LinkedLists ι β) (list : ι)

def listInit : LinkedLists ι β :=
  { s with first := update s.first list none, last := update s.last list none }

/-- The stores of `list_append` to the new node. -/
def fillNode (val : β) (newNode : Nat) : LinkedLists ι β :=
  { s with
    next := update s.next newNode none
    prev := update s.prev newNode (s.last list)
    val := update s.val newNode val }

def linkNode (newNode : Nat) : Except Stop (LinkedLists ι β) :=
  match s.first list, s.last list with
  | none, _ => .ok { s with
      first := update s.first list (some newNode), last := update s.last list (some newNode) }
  | some _, none => .error .nullDereference
  | some _, some last => .ok { s with
      next := update s.next last (some newNode), last := update s.last list (some newNode) }

/-- `list_append`; `newNode` is what `kmalloc` returns. -/
def listAppend (val : β) (newNode : Nat) : Except Stop (LinkedLists ι β) :=
  (s.fillNode list val newNode).linkNode list newNode

def unlinkBack (listNode : Nat) : LinkedLists ι β :=
  match s.next listNode with
  | some next => { s with prev := update s.prev next (s.prev listNode) }
  | none => { s with last := update s.last list (s.prev listNode) }

def unlinkFront (listNode : Nat) : LinkedLists ι β :=
  match s.prev listNode with
  | some prev => { s with next := update s.next prev (s.next listNode) }
  | none => { s with first := update s.first list (s.next listNode) }

def listRemove (listNode : Nat) : LinkedLists ι β := (s.unlinkBack list listNode).unlinkFront list listNode

end LinkedLists

end PiOS.Kernel
