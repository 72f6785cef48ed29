import Mathlib.Algebra.BigOperators.Group.Finset.Basic
import Mathlib.Data.Fintype.BigOperators

/-!
# Tallies

A total over a finite family changes with one member by what that member changes.
-/

namespace Tally

variable {ι α : Type*} [Fintype ι] [DecidableEq ι]

theorem sum_update (f : ι → α) (i : ι) (x : α) (g : α → ℕ) :
    ∑ j, g (Function.update f i x j) + g (f i) = ∑ j, g (f j) + g x := by
  rw [← Finset.add_sum_erase _ _ (Finset.mem_univ i),
    ← Finset.add_sum_erase _ (fun j => g (f j)) (Finset.mem_univ i), Function.update_self]
  have hrest : ∑ j ∈ Finset.univ.erase i, g (Function.update f i x j) =
      ∑ j ∈ Finset.univ.erase i, g (f j) := by
    refine Finset.sum_congr rfl fun j hj => ?_
    rw [Function.update_of_ne (Finset.ne_of_mem_erase hj)]
  omega

theorem card_update (f : ι → α) (i : ι) (x : α) (p : α → Bool) :
    (Finset.univ.filter fun j => p (Function.update f i x j)).card + (p (f i)).toNat =
      (Finset.univ.filter fun j => p (f j)).card + (p x).toNat := by
  have hite (b : Bool) : (if b = true then 1 else 0) = b.toNat := by cases b <;> rfl
  simp only [Finset.card_filter, hite]
  exact sum_update f i x fun y => (p y).toNat

end Tally
