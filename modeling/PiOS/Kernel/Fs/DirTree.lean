import PiOS.Kernel.Fs.FileSystem

namespace PiOS.Kernel

def dirNameSize : Nat := 32
def sizeofDirTNode : Nat := dirNameSize + 2 + 4 + 4 + 2

def dirInodeOffset : Nat := dirNameSize + 2 + 4 + 4

def nul : Char := Char.ofNat 0

structure TreeFile where
  inode : Nat
  name : CString

/-- `name` of a new node, as the comparisons see it. `strncpy` and the store of the zero leave the character
between them as it was. -/
def dirNodeName (stale path : CString) (prefixLen : Nat) : CString :=
  ((path.take prefixLen ++ stale.drop prefixLen).set (prefixLen + 1) nul).takeWhile (· ≠ nul)

/-- The node `dir_tree_add_path` makes for a directory; `bytes` is what the memory had before. Nothing is
stored in `inode`, and a store behind `name` has no meaning in the language. -/
def newDirNode (bytes : HeapBytes) (heap : HeapMemory) (path : CString) (prefixLen : Nat) :
    Except Stop (DirNode × HeapMemory) := do
  let (newNode, heap) ← kmalloc heap (BitVec.ofNat 16 sizeofDirTNode)
  if prefixLen + 1 < dirNameSize then
    let stale := (bytes.read newNode dirNameSize).map byteChar
    let inode := wordAt (bytes.read (newNode + dirInodeOffset) 2) 0
    .ok (.node (dirNodeName stale path prefixLen) [] [] (if inode = 0 then none else some inode.toNat), heap)
  else
    .error .outOfBounds

/-- `list_append`, of which only the node in the heap is not in the lists of the model. -/
def listAppend (heap : HeapMemory) : Except Stop HeapMemory :=
  (kmalloc heap (BitVec.ofNat 16 sizeofListNode)).map Prod.snd

def dirTreeEnter (file : TreeFile) (heap : HeapMemory) : DirNode → Except Stop (HeapMemory × DirNode)
  | .node name subdirs files inode =>
    if file.name.getLast? = some '/' then
      .ok (heap, .node name subdirs files (some file.inode))
    else do
      let heap ← listAppend heap
      .ok (heap, .node name subdirs (files ++ [(file.name, file.inode)]) inode)

/-- The loop of `dir_tree_add_path`. The `subdirs` are gone through up to one whose name begins like the path;
a path has no more slashes than characters. -/
def dirTreeAddLoop (bytes : HeapBytes) (file : TreeFile) :
    Nat → Nat → HeapMemory → DirNode → Except Stop (HeapMemory × DirNode)
  | 0, _, heap, node => .ok (heap, node)
  | fuel + 1, nextSlash, heap, .node name subdirs files inode =>
    match strchr (file.name.drop (nextSlash + 1)) '/' with
    | none => dirTreeEnter file heap (.node name subdirs files inode)
    | some n =>
      let nextSlash := nextSlash + 1 + n
      match subdirs.span fun val => ! strncmpSame val.name file.name (nextSlash + 1) with
      | (before, val :: after) => do
        let (heap, val) ← dirTreeAddLoop bytes file fuel nextSlash heap val
        .ok (heap, .node name (before ++ val :: after) files inode)
      | (before, []) => do
        let (newNode, heap) ← newDirNode bytes heap file.name (nextSlash + 1)
        let heap ← listAppend heap
        let (heap, newNode) ← dirTreeAddLoop bytes file fuel nextSlash heap newNode
        .ok (heap, .node name (before ++ [newNode]) files inode)

def dirTreeAddPath (bytes : HeapBytes) (heap : HeapMemory) (root : DirNode) (file : TreeFile) :
    Except Stop (HeapMemory × DirNode) :=
  dirTreeAddLoop bytes file (file.name.length + 1) 0 heap root

def dirTreeInit (heap : HeapMemory) : Except Stop (HeapMemory × DirNode) := do
  let (inode, heap) ← kmalloc heap (BitVec.ofNat 16 sizeofInode)
  .ok (heap, .node ['/'] [] [] (some inode))

end PiOS.Kernel
