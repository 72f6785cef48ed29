import Mathlib.Data.List.GetD
import Ringfire.Foundation.LittleEndian

/-!
# Byte memory

A memory maps addresses to bytes. A number of `k` bytes is loaded and stored in one piece, little
end first. What is stored is loaded again, and nothing else changes.
-/

namespace ByteMemory

open LittleEndian

variable {mem mem' : ℕ → UInt8} {a k n i : ℕ}

/-- The number in the `k` bytes from `a` on. -/
def load (mem : ℕ → UInt8) (a k : ℕ) : ℕ := ofLe ((List.range' a k).map mem)

/-- The memory with `n` in the `k` bytes from `a` on. -/
def store (mem : ℕ → UInt8) (a k n : ℕ) : ℕ → UInt8 := fun i =>
  if a ≤ i ∧ i < a + k then (toLe k n).getD (i - a) 0 else mem i

theorem store_of_outside (h : i < a ∨ a + k ≤ i) : store mem a k n i = mem i := by
  unfold store
  rw [if_neg (by omega)]

theorem load_congr (h : ∀ i, a ≤ i → i < a + k → mem i = mem' i) :
    load mem a k = load mem' a k := by
  unfold load
  congr 1
  apply List.map_congr_left
  intro i hi
  obtain ⟨hle, hlt⟩ := List.mem_range'_1.mp hi
  exact h i hle hlt

theorem load_store (h : n < 256 ^ k) : load (store mem a k n) a k = n := by
  have hbytes : (List.range' a k).map (store mem a k n) = toLe k n := by
    apply List.ext_getElem
    · rw [List.length_map, List.length_range', length_toLe]
    · intro i hi hi'
      rw [length_toLe] at hi'
      have hin : a ≤ a + i ∧ a + i < a + k := by omega
      rw [List.getElem_map, List.getElem_range', Nat.one_mul, store, if_pos hin, Nat.add_sub_cancel_left,
        List.getD_eq_getElem]
  rw [load, hbytes, ofLe_toLe h]

end ByteMemory
