import Mathlib.Algebra.Group.Nat.Defs
import Mathlib.Data.List.Basic
import Mathlib.Tactic.Common

/-!
# Little-endian integers

`toLe k n` is `n` as `k` bytes, least significant first, and `ofLe` reads such bytes back. A number
that does not fit is truncated, as an integer cast truncates it.

## Main results

* `ofLe_toLe`, `ofLe_field`: a number that fits is read back
* `ofLe_lt`: what is read fits
-/

namespace LittleEndian

/-- `n` as `k` bytes. -/
def toLe : ℕ → ℕ → List UInt8
  | 0, _ => []
  | k + 1, n => UInt8.ofNat n :: toLe k (n / 256)

/-- The number `bytes` spells. -/
def ofLe : List UInt8 → ℕ
  | [] => 0
  | b :: bs => b.toNat + 256 * ofLe bs

@[simp] theorem length_toLe (k n : ℕ) : (toLe k n).length = k := by
  induction k generalizing n with
  | zero => rfl
  | succ k ih => rw [toLe, List.length_cons, ih]

theorem ofLe_toLe {k n : ℕ} (h : n < 256 ^ k) : ofLe (toLe k n) = n := by
  induction k generalizing n with
  | zero =>
    rw [Nat.pow_zero, Nat.lt_one_iff] at h
    rw [h]
    rfl
  | succ k ih =>
    have hdiv : n / 256 < 256 ^ k := by
      rw [Nat.div_lt_iff_lt_mul (by decide), ← Nat.pow_succ]
      exact h
    rw [toLe, ofLe, ih hdiv, UInt8.toNat_ofNat']
    omega

/-- A number that does not fit is cut off. -/
theorem toLe_mod (k n : ℕ) : toLe k (n % 256 ^ k) = toLe k n := by
  induction k generalizing n with
  | zero => rfl
  | succ k ih =>
    have hdiv : n % 256 ^ (k + 1) / 256 = n / 256 % 256 ^ k := by
      rw [Nat.pow_succ, Nat.mul_comm, Nat.mod_mul_right_div_self]
    have hlow : n % 256 ^ (k + 1) % 256 = n % 256 :=
      Nat.mod_mod_of_dvd n (Nat.dvd_mul_left 256 (256 ^ k))
    rw [toLe, toLe, hdiv, ih]
    congr 1
    apply UInt8.toNat_inj.mp
    rw [UInt8.toNat_ofNat', UInt8.toNat_ofNat']
    exact hlow

theorem ofLe_append (as bs : List UInt8) :
    ofLe (as ++ bs) = ofLe as + 256 ^ as.length * ofLe bs := by
  induction as with
  | nil => rw [List.nil_append, List.length_nil, Nat.pow_zero, Nat.one_mul, ofLe, Nat.zero_add]
  | cons a as ih =>
    rw [List.cons_append, ofLe, ofLe, ih, List.length_cons, Nat.pow_succ, Nat.mul_add,
      Nat.add_assoc, Nat.mul_comm _ 256, Nat.mul_assoc]

theorem ofLe_zeros (n : ℕ) : ofLe (List.replicate n 0) = 0 := by
  induction n with
  | zero => rfl
  | succ n ih => rw [List.replicate_succ, ofLe, ih]; rfl

/-- A number that stands behind `i` bytes is read back from there. -/
theorem ofLe_field (front rest : List UInt8) {bytes : List UInt8} {i k n : ℕ}
    (hbytes : bytes = front ++ (toLe k n ++ rest)) (hi : front.length = i) (h : n < 256 ^ k) :
    ofLe ((bytes.drop i).take k) = n := by
  subst hbytes hi
  rw [List.drop_left, List.take_left' (length_toLe k n), ofLe_toLe h]

theorem ofLe_lt (bs : List UInt8) : ofLe bs < 256 ^ bs.length := by
  induction bs with
  | nil => exact Nat.one_pos
  | cons b bs ih =>
    have hb := b.toNat_lt
    rw [ofLe, List.length_cons, Nat.pow_succ]
    omega

end LittleEndian
