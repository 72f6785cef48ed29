import Mathlib.Algebra.Group.Nat.Defs
import Mathlib.Data.Nat.Basic
import Mathlib.Tactic.Common

/-!
# Checked arithmetic and checks

Sums and products of 64-bit words that are refused when they overflow, and computations that go on
only while their checks succeed.
-/

namespace Checked

/-- A number, if it is a 64-bit word. -/
def word (n : ℕ) : Option ℕ := if n < 2 ^ 64 then some n else none

/-- The sum of two words, unless it overflows. -/
def add (a b : ℕ) : Option ℕ := word (a + b)

/-- The product of two words, unless it overflows. -/
def mul (a b : ℕ) : Option ℕ := word (a * b)

/-- A bound that a computation must succeed to keep. -/
def AtMost (x : Option ℕ) (bound : ℕ) : Prop := ∃ n, x = some n ∧ n ≤ bound

instance (x : Option ℕ) (bound : ℕ) : Decidable (AtMost x bound) :=
  match x with
  | none => .isFalse fun h => by
    obtain ⟨n, hn, -⟩ := h
    cases hn
  | some n =>
    decidable_of_iff (n ≤ bound) ⟨fun h => ⟨n, rfl, h⟩, fun h => by
      obtain ⟨m, hm, hle⟩ := h
      cases hm
      exact hle⟩

theorem word_eq_some {n m : ℕ} : word n = some m ↔ n < 2 ^ 64 ∧ n = m := by
  unfold word
  split_ifs with h
  · simp only [h, true_and, Option.some.injEq]
  · simp only [h, false_and]

/-- A checked product and a checked sum overflow exactly when the true number does. -/
theorem mul_add_eq_some {a b c m : ℕ} :
    ((mul a b).bind fun n => add n c) = some m ↔ a * b + c < 2 ^ 64 ∧ a * b + c = m := by
  simp only [mul, add, Option.bind_eq_some_iff, word_eq_some]
  constructor
  · rintro ⟨_, ⟨-, rfl⟩, hlt, rfl⟩
    exact ⟨hlt, rfl⟩
  · rintro ⟨hlt, rfl⟩
    exact ⟨_, ⟨by omega, rfl⟩, hlt, rfl⟩

theorem add_add_eq_some {a b c m : ℕ} :
    ((add a b).bind fun n => add n c) = some m ↔ a + b + c < 2 ^ 64 ∧ a + b + c = m := by
  simp only [add, Option.bind_eq_some_iff, word_eq_some]
  constructor
  · rintro ⟨_, ⟨-, rfl⟩, hlt, rfl⟩
    exact ⟨hlt, rfl⟩
  · rintro ⟨hlt, rfl⟩
    exact ⟨_, ⟨by omega, rfl⟩, hlt, rfl⟩

/-- A bound that is itself a word catches the overflow. -/
theorem atMost_mul_add {a b c bound : ℕ} (h : bound < 2 ^ 64) :
    AtMost ((mul a b).bind fun n => add n c) bound ↔ a * b + c ≤ bound := by
  simp only [AtMost, mul_add_eq_some]
  constructor
  · rintro ⟨_, ⟨-, rfl⟩, hle⟩
    exact hle
  · exact fun hle => ⟨_, ⟨Nat.lt_of_le_of_lt hle h, rfl⟩, hle⟩

theorem atMost_add_add {a b c bound : ℕ} (h : bound < 2 ^ 64) :
    AtMost ((add a b).bind fun n => add n c) bound ↔ a + b + c ≤ bound := by
  simp only [AtMost, add_add_eq_some]
  constructor
  · rintro ⟨_, ⟨-, rfl⟩, hle⟩
    exact hle
  · exact fun hle => ⟨_, ⟨Nat.lt_of_le_of_lt hle h, rfl⟩, hle⟩

/-! ## Checks -/

variable {ε α β : Type}

/-- Fails with `e` unless `p` holds. -/
def require (p : Prop) [Decidable p] (e : ε) : Except ε Unit := if p then .ok () else .error e

@[simp] theorem require_eq_ok {p : Prop} [Decidable p] {e : ε} {u : Unit} :
    require p e = .ok u ↔ p := by
  unfold require
  split_ifs with h
  · simp [h]
  · simp [h]

@[simp] theorem bind_eq_ok {x : Except ε α} {f : α → Except ε β} {b : β} :
    (x >>= f) = .ok b ↔ ∃ a, x = .ok a ∧ f a = .ok b := by
  cases x with
  | error e =>
    constructor
    · rintro ⟨⟩
    · rintro ⟨a, ⟨⟩, -⟩
  | ok a =>
    constructor
    · exact fun h => ⟨a, rfl, h⟩
    · rintro ⟨a', ha, h⟩
      cases ha
      exact h

end Checked
