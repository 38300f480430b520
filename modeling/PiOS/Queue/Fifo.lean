import Mathlib.Data.List.Basic

namespace PiOS.Queue

variable {α σ : Type*}

namespace Fifo

inductive Call (α : Type*)
  | write (items : List α)
  | read (count : Nat)

inductive Reply (α : Type*)
  | wrote (count : Nat)
  | got (items : List α)

def answer (capacity : Nat) (queue : List α) : Call α → Reply α × List α
  | .write items =>
    (.wrote (min items.length (capacity - queue.length)), queue ++ items.take (capacity - queue.length))
  | .read count => (.got (queue.take count), queue.drop count)

def replies (answer : σ → Call α → Reply α × σ) : σ → List (Call α) → List (Reply α) × σ
  | s, [] => ([], s)
  | s, call :: calls =>
    let (reply, s) := answer s call
    let (later, s) := replies answer s calls
    (reply :: later, s)

theorem replies_eq {serve : σ → Call α → Reply α × σ} {capacity : Nat} {R : σ → List α → Prop}
    (same : ∀ s queue call, R s queue → (serve s call).1 = (answer capacity queue call).1 ∧
      R (serve s call).2 (answer capacity queue call).2) {s : σ} {queue : List α} (holds : R s queue)
    (calls : List (Call α)) : (replies serve s calls).1 = (replies (answer capacity) queue calls).1 ∧
      R (replies serve s calls).2 (replies (answer capacity) queue calls).2 := by
  induction calls generalizing s queue with
  | nil => exact ⟨rfl, holds⟩
  | cons call calls ih =>
    obtain ⟨reply, after⟩ := same s queue call holds
    obtain ⟨later, last⟩ := ih after
    exact ⟨List.cons_eq_cons.mpr ⟨reply, later⟩, last⟩

end Fifo

end PiOS.Queue
