import Mathlib.Data.Nat.Bitwise
import Mathlib.Tactic.Common

/-!
# Cyclic positions

Positions `0, 1, 2, …` stored cyclically in `c` places: position `n` lives at place `n % c`.
Two positions closer than `c` share a place only when they are equal, and the next position at
the same place is `c` further on.
-/

namespace Cyclic

theorem eq_of_mod_eq {a b c : ℕ} (h : a % c = b % c) (hab : a ≤ b) (hlt : b < a + c) : a = b := by
  have ha := Nat.div_add_mod a c
  have hb := Nat.div_add_mod b c
  rcases Nat.lt_or_ge (a / c) (b / c) with hq | hq
  · have hmul : c * (a / c + 1) ≤ c * (b / c) := Nat.mul_le_mul_left c hq
    rw [Nat.mul_add, Nat.mul_one] at hmul
    omega
  · have hmul : c * (b / c) ≤ c * (a / c) := Nat.mul_le_mul_left c hq
    omega

theorem add_le_of_mod_eq {a b c : ℕ} (h : a % c = b % c) (hlt : a < b) : a + c ≤ b := by
  by_contra hc
  exact absurd (eq_of_mod_eq h hlt.le (by omega)) hlt.ne

/-- The last position up to `n` at the place of `a`. -/
theorem exists_last {a n c : ℕ} (hc : 0 < c) (h : a ≤ n) :
    ∃ k, k % c = a % c ∧ a ≤ k ∧ k ≤ n ∧ n < k + c := by
  have hdiv := Nat.div_add_mod (n - a) c
  have hmod := Nat.mod_lt (n - a) hc
  refine ⟨a + c * ((n - a) / c), Nat.add_mul_mod_self_left a c _, ?_, ?_, ?_⟩
  · exact Nat.le_add_right a _
  · omega
  · omega

theorem and_mask_eq_mod {c : ℕ} (hc : ∃ k, c = 2 ^ k) (n : ℕ) : n &&& (c - 1) = n % c := by
  obtain ⟨k, rfl⟩ := hc
  exact Nat.and_two_pow_sub_one_eq_mod n k

/-- Filling in the bits of the mask gives the last position before the next multiple. -/
theorem or_mask_add_one {c : ℕ} (hc : ∃ k, c = 2 ^ k) (n : ℕ) :
    (n ||| (c - 1)) + 1 = c * (n / c + 1) := by
  obtain ⟨k, rfl⟩ := hc
  have hpos := Nat.two_pow_pos k
  have hlow : n % 2 ^ k ||| (2 ^ k - 1) = 2 ^ k - 1 := by
    apply Nat.eq_of_testBit_eq
    intro i
    simp only [Nat.testBit_or, Nat.testBit_mod_two_pow, Nat.testBit_two_pow_sub_one]
    cases decide (i < k) <;> simp
  have hor : n ||| (2 ^ k - 1) = 2 ^ k * (n / 2 ^ k) + (2 ^ k - 1) := by
    calc n ||| (2 ^ k - 1) = (2 ^ k * (n / 2 ^ k) + n % 2 ^ k) ||| (2 ^ k - 1) := by
          rw [Nat.div_add_mod]
      _ = (2 ^ k * (n / 2 ^ k) ||| n % 2 ^ k) ||| (2 ^ k - 1) := by
          rw [Nat.two_pow_add_eq_or_of_lt (Nat.mod_lt n hpos)]
      _ = 2 ^ k * (n / 2 ^ k) ||| (2 ^ k - 1) := by rw [Nat.lor_assoc, hlow]
      _ = 2 ^ k * (n / 2 ^ k) + (2 ^ k - 1) := by
          rw [Nat.two_pow_add_eq_or_of_lt (Nat.sub_lt hpos Nat.one_pos)]
  rw [hor, Nat.mul_add, Nat.mul_one]
  omega

/-- Positions of one window of length `c` share a place only when they are equal. -/
theorem mod_ne_of_lt {a b c : ℕ} (hab : a < b) (hlt : b < a + c) : a % c ≠ b % c :=
  fun h => absurd (eq_of_mod_eq h hab.le hlt) hab.ne

/-- A stretch of positions that does not cross a multiple of `c` is stored contiguously. -/
theorem add_mod_of_le {a i c : ℕ} (h : a % c + i < c) : (a + i) % c = a % c + i := by
  rw [← Nat.mod_add_mod, Nat.mod_eq_of_lt h]

end Cyclic
