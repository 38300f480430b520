import Mathlib.Data.BitVec

namespace PiOS.Kernel

/-- `int`, `unsigned`, `size_t` and pointers of the target. -/
abbrev Word := BitVec 16

abbrev Byte := BitVec 8

instance neZeroEight : NeZero 8 := ⟨by decide⟩
instance neZeroSixteen : NeZero 16 := ⟨by decide⟩
instance lawfulBEqWord : LawfulBEq Word := inferInstance
instance lawfulBEqByte : LawfulBEq Byte := inferInstance

def ascii (c : Char) : Byte := BitVec.ofNat 8 c.toNat

/-- Why kernel code does not go on: `panic`, a failed `ASSERT`, an access the language gives no
meaning, or a semaphore that is down. -/
inductive Stop
  | panic (message : String)
  | assertion (text : String)
  | nullDereference
  | outOfBounds
  | blocked
  deriving DecidableEq, Repr

def Word.Negative (w : Word) : Prop := w.toInt < 0

instance (w : Word) : Decidable w.Negative := inferInstanceAs (Decidable (w.toInt < 0))

def einval : Word := 1
def enotfound : Word := 5
def etoomanyfiles : Word := 6
def ebadfd : Word := 7
def ewouldblock : Word := 8
def enosup : Word := 9

end PiOS.Kernel
