import PiOS.Kernel.Fs.Vfs
import PiOS.Kernel.Proc.Elf

namespace PiOS.Proof.Seek
open Kernel

variable {file : ProcFile} {off p : Word}

def target (file : ProcFile) (off : Word) : Int := file.offset.toNat + off.toInt

def MovesBy (file : ProcFile) (off : Word) : Prop :=
  (target file off < 0 → vfsSeek file off seekCur = (-einval, file)) ∧
    (0 ≤ target file off → target file off ≤ 0xffff →
      ((vfsSeek file off seekCur).2.offset.toNat : Int) = target file off ∧ ¬ (vfsSeek file off seekCur).1.Negative)

def MovesTo (file : ProcFile) (p : Word) : Prop := (vfsSeek file p seekSet).2.offset = p

instance : Decidable (MovesTo file p) := inferInstanceAs (Decidable (_ = _))

def aroundSegment (file : ProcFile) (p count : Word) : ProcFile :=
  let (nextPh, file) := vfsSeek file 0 seekCur
  let file := (vfsSeek file p seekSet).2
  let file := { file with offset := file.offset + count }
  (vfsSeek file nextPh seekSet).2

def Returns (file : ProcFile) : Prop := ∀ p count, (aroundSegment file p count).offset = file.offset

theorem vfsSeek_cur (opened : file.inode ≠ none) :
    vfsSeek file off seekCur = (file.offset + off, { file with offset := file.offset + off }) := by
  have unsigned : ¬ file.offset + off < 0 := BitVec.not_lt_zero
  rw [vfsSeek, if_neg opened, if_neg (by decide), if_pos rfl, if_neg unsigned]

theorem vfsSeek_set (opened : file.inode ≠ none) :
    (vfsSeek file p seekSet).2 = { file with offset := if p.Negative then file.offset else p } := by
  rw [vfsSeek, if_neg opened, if_pos rfl]
  split
  · rfl
  · rfl

theorem aroundSegment_offset (opened : file.inode ≠ none) (p count : Word) :
    (aroundSegment file p count).offset =
      if file.offset.Negative then (if p.Negative then file.offset else p) + count else file.offset := by
  have here : file.offset + 0 = file.offset := BitVec.add_zero _
  unfold aroundSegment
  rw [vfsSeek_cur opened, here]
  dsimp only
  rw [vfsSeek_set opened]
  exact congrArg ProcFile.offset (vfsSeek_set (by exact opened))

theorem offset_add (file : ProcFile) (off : Word) : ((file.offset + off).toNat : Int) = target file off % 0x10000 := by
  have small := off.isLt
  rw [target, BitVec.toNat_add, BitVec.toInt_eq_toNat_cond]
  push_cast
  split
  · rfl
  · omega

theorem movesBy_iff (opened : file.inode ≠ none) :
    MovesBy file off ↔ 0 ≤ target file off ∧ target file off < 0x8000 ∨ 0xffff < target file off := by
  have sum := offset_add file off
  have low := BitVec.le_toInt off
  have high := BitVec.toInt_lt (x := off)
  have bound := file.offset.isLt
  have same : (-einval, file) = (file.offset + off, { file with offset := file.offset + off }) →
      ((file.offset + off).toNat : Int) = file.offset.toNat := by
    intro equal
    exact congrArg (fun out => (out.2.offset.toNat : Int)) equal.symm
  rw [MovesBy, vfsSeek_cur opened, Word.negative_iff]
  unfold target at *
  constructor
  · rintro ⟨refused, moved⟩
    by_cases negative : (file.offset.toNat : Int) + off.toInt < 0
    · have stays := same (refused negative).symm
      omega
    · have fits : _ → ¬ 0x8000 ≤ (file.offset + off).toNat := fun within => (moved (by omega) within).2
      omega
  · intro within
    refine ⟨fun negative => by omega, fun _ small => ⟨?_, ?_⟩⟩
    · change ((file.offset + off).toNat : Int) = _
      omega
    · change ¬ 0x8000 ≤ (file.offset + off).toNat
      omega

theorem movesTo_iff (opened : file.inode ≠ none) : MovesTo file p ↔ p.toNat < 0x8000 ∨ file.offset = p := by
  rw [MovesTo, vfsSeek_set opened, ← Nat.not_le, ← Word.negative_iff]
  dsimp only
  split
  · rename_i negative
    exact ⟨Or.inr, fun either => either.resolve_left fun fits => fits negative⟩
  · rename_i fits
    exact ⟨fun _ => Or.inl fits, fun _ => rfl⟩

theorem returns_iff (opened : file.inode ≠ none) : Returns file ↔ file.offset.toNat < 0x8000 := by
  unfold Returns
  simp only [aroundSegment_offset opened]
  rw [← Nat.not_le, ← Word.negative_iff]
  constructor
  · intro returns negative
    have back := returns 0 0
    rw [if_pos negative, if_neg (by decide)] at back
    rw [← back] at negative
    exact absurd negative (by decide)
  · intro fits p count
    exact if_neg fits

theorem vfs_seek_iff (file : ProcFile) (opened : file.inode ≠ none) :
    (∀ off, MovesBy file off ↔ 0 ≤ target file off ∧ target file off < 0x8000 ∨ 0xffff < target file off) ∧
      (∀ p, MovesTo file p ↔ p.toNat < 0x8000 ∨ file.offset = p) ∧
      (Returns file ↔ file.offset.toNat < 0x8000) :=
  ⟨fun _ => movesBy_iff opened, fun _ => movesTo_iff opened, returns_iff opened⟩

theorem vfs_seek_iff_forward :
    (⟨some 0, 0x7ff0, 0, none⟩ : ProcFile).inode ≠ none ∧ MovesBy ⟨some 0, 0x7ff0, 0, none⟩ 0xf ∧
      MovesTo ⟨some 0, 0x7ff0, 0, none⟩ 0x34 ∧ Returns ⟨some 0, 0x7ff0, 0, none⟩ := by
  obtain ⟨around, set, returns⟩ := vfs_seek_iff ⟨some 0, 0x7ff0, 0, none⟩ (by decide)
  exact ⟨by decide, (around 0xf).2 (by decide), (set 0x34).2 (by decide), returns.2 (by decide)⟩

theorem vfs_seek_astray :
    vfsSeek ⟨some 0, 5, 0, none⟩ (-7) seekCur = (-2, ⟨some 0, 0xfffe, 0, none⟩) ∧
      ¬ MovesBy ⟨some 0, 5, 0, none⟩ (-7) ∧
      (aroundSegment ⟨some 0, 0x8020, 0, none⟩ 0x40 4).offset = 0x44 ∧
      ¬ MovesTo ⟨some 0, 0x44, 0, none⟩ 0x8020 ∧ ¬ Returns ⟨some 0, 0x8020, 0, none⟩ := by
  refine ⟨by decide, fun moves => ?_, by decide, by decide, fun returns => ?_⟩
  · exact absurd (moves.1 (by decide)) (by decide)
  · exact absurd (returns 0x40 4) (by decide)

end PiOS.Proof.Seek
