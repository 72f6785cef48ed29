import Ringfire.Ring.Account
import Ringfire.Ring.Slot

/-!
# Skipping on a quiescent ring

`skip_overwritten` and `skip_hole` are written twice in the source, in `spmc.rs` and in `blob.rs`,
and do the same to the cursor and the lapped count of either consumer. Here they are functions of
an `Account` and of the slot words of a ring nobody writes.
-/

namespace Ringfire

variable {τ : Type}

/-- The loop of `skip_hole`: the first sequence from `next` on that is in its slot, among the next
`left`. -/
def nextPresent (cap : Capacity) (word : ℕ → ℕ) : ℕ → ℕ → ℕ
  | 0, next => next
  | left + 1, next =>
    if word (slotIndex cap next) = next then next else nextPresent cap word left (next + 1)

theorem le_nextPresent (cap : Capacity) (word : ℕ → ℕ) :
    ∀ left next : ℕ, next ≤ nextPresent cap word left next := by
  intro left
  induction left with
  | zero => exact fun next => le_refl next
  | succ left ih =>
    intro next
    rw [nextPresent]
    split_ifs
    · exact le_refl next
    · exact (Nat.le_succ next).trans (ih (next + 1))

namespace Account

/-- `skip_overwritten(seen)`, with the number of sequences skipped. -/
def skipOverwritten (cap : Capacity) (writeSeq seen : ℕ) (a : Account τ) : ℕ × Account τ :=
  if a.cursor < oldestRetained (max writeSeq seen) cap.val then
    (oldestRetained (max writeSeq seen) cap.val - a.cursor,
      a.lap (oldestRetained (max writeSeq seen) cap.val))
  else (0, a)

/-- `skip_hole`, with the number of sequences skipped. The scan stops just past `write_seq`. -/
def skipHole (cap : Capacity) (word : ℕ → ℕ) (writeSeq : ℕ) (a : Account τ) : ℕ × Account τ :=
  if writeSeq < a.cursor then (0, a)
  else if word (slotIndex cap a.cursor) = slotWriting ∨
      a.cursor ≤ word (slotIndex cap a.cursor) then (0, a)
  else
    let first := max (oldestRetained writeSeq cap.val) (a.cursor + 1)
    let next := nextPresent cap word (writeSeq + 1 - first) first
    (next - a.cursor, a.lap next)

end Account

end Ringfire
