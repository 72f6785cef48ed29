import Mathlib.Data.List.Nodup
import Mathlib.Data.List.Perm.Basic
import Mathlib.Data.List.Range
import Mathlib.Tactic.Common

/-!
# How a reader's cursor moves

Every reader of a ring moves its cursor in three ways: it returns the message at the cursor, it
counts a range of sequences as lapped, or it jumps over a range because it was told to. An
`Account` is the cursor and the lapped count together with a record of these moves, and
`Advance` is what any number of them amounts to: each sequence passed was returned, lapped or
jumped over, exactly once.

## Main results

* `Advance.trans`: moves compose
* `Advance.count_eq_one`: a sequence the cursor passed was passed in exactly one way
-/

namespace Ringfire

variable {τ : Type}

/-- A reader's cursor, its lapped count, and how the cursor got there: the messages returned with
their sequences, the sequences counted as lapped by receives, and those jumped over on
request. -/
structure Account (τ : Type) where
  cursor : ℕ
  lappedTotal : ℕ
  delivered : List (ℕ × τ)
  lapped : List ℕ
  jumped : List ℕ

theorem range'_split {a b c : ℕ} (hab : a ≤ b) (hbc : b ≤ c) :
    List.range' a (c - a) = List.range' a (b - a) ++ List.range' b (c - b) := by
  have hb : a + (b - a) = b := by omega
  have hc : c - a = b - a + (c - b) := by omega
  rw [hc, ← List.range'_append_1, hb]

namespace Account

/-- Returns the message at the cursor. -/
def deliver (a : Account τ) (item : τ) : Account τ :=
  { a with cursor := a.cursor + 1, delivered := a.delivered ++ [(a.cursor, item)] }

/-- Moves the cursor to `target`, counting what it passes as lapped. -/
def lap (a : Account τ) (target : ℕ) : Account τ :=
  { a with
    cursor := target
    lappedTotal := a.lappedTotal + (target - a.cursor)
    lapped := a.lapped ++ List.range' a.cursor (target - a.cursor) }

/-- Moves the cursor to `target` on request; the sequences passed count as lapped as well. -/
def jump (a : Account τ) (target : ℕ) : Account τ :=
  { a with
    cursor := target
    lappedTotal := a.lappedTotal + (target - a.cursor)
    jumped := a.jumped ++ List.range' a.cursor (target - a.cursor) }

/-- From `a` to `a'` the messages `D` were returned, the sequences `L` counted as lapped, and the
sequences `J` jumped over. -/
structure Advance (a a' : Account τ) (D : List (ℕ × τ)) (L J : List ℕ) : Prop where
  delivered : a'.delivered = a.delivered ++ D
  lapped : a'.lapped = a.lapped ++ L
  jumped : a'.jumped = a.jumped ++ J
  lappedTotal : a'.lappedTotal = a.lappedTotal + (L.length + J.length)
  le : a.cursor ≤ a'.cursor
  passed : (D.map Prod.fst ++ L ++ J).Perm (List.range' a.cursor (a'.cursor - a.cursor))
  increasing : (D.map Prod.fst).Pairwise (· < ·)

namespace Advance

variable {a a' a'' : Account τ} {D D' : List (ℕ × τ)} {L L' J J' : List ℕ}

theorem refl (a : Account τ) : Advance a a [] [] [] := by
  refine ⟨?_, ?_, ?_, rfl, le_refl _, ?_, List.Pairwise.nil⟩ <;> simp

theorem deliver (a : Account τ) (item : τ) :
    Advance a (a.deliver item) [(a.cursor, item)] [] [] := by
  refine ⟨rfl, ?_, ?_, rfl, Nat.le_succ _, ?_, List.pairwise_singleton _ _⟩ <;>
    simp [Account.deliver]

theorem lap (a : Account τ) {target : ℕ} (h : a.cursor ≤ target) :
    Advance a (a.lap target) [] (List.range' a.cursor (target - a.cursor)) [] := by
  refine ⟨?_, rfl, ?_, ?_, h, ?_, List.Pairwise.nil⟩ <;> simp [Account.lap]

theorem jump (a : Account τ) {target : ℕ} (h : a.cursor ≤ target) :
    Advance a (a.jump target) [] [] (List.range' a.cursor (target - a.cursor)) := by
  refine ⟨?_, ?_, rfl, ?_, h, ?_, List.Pairwise.nil⟩ <;> simp [Account.jump]

theorem mem_range (h : Advance a a' D L J) {s : ℕ} (hs : s ∈ D.map Prod.fst ++ L ++ J) :
    a.cursor ≤ s ∧ s < a'.cursor := by
  have hle := h.le
  have hmem := List.mem_range'_1.mp (h.passed.mem_iff.mp hs)
  omega

/-- A sequence the cursor passed was returned, lapped or jumped over, exactly once. -/
theorem count_eq_one (h : Advance a a' D L J) {s : ℕ} (hs : a.cursor ≤ s) (hs' : s < a'.cursor) :
    (D.map Prod.fst).count s + L.count s + J.count s = 1 := by
  have hcount := h.passed.count_eq s
  rw [List.count_append, List.count_append] at hcount
  rw [hcount]
  exact List.count_eq_one_of_mem List.nodup_range' (List.mem_range'_1.mpr ⟨hs, by omega⟩)

/-- The cursor moved by what was returned, lapped and jumped over. -/
theorem cursor_eq (h : Advance a a' D L J) :
    a'.cursor = a.cursor + (D.length + L.length + J.length) := by
  have hlen := h.passed.length_eq
  have hle := h.le
  simp only [List.length_append, List.length_map, List.length_range'] at hlen
  omega

/-- **Moves compose.** -/
theorem trans (h : Advance a a' D L J) (h' : Advance a' a'' D' L' J') :
    Advance a a'' (D ++ D') (L ++ L') (J ++ J') where
  delivered := by rw [h'.delivered, h.delivered, List.append_assoc]
  lapped := by rw [h'.lapped, h.lapped, List.append_assoc]
  jumped := by rw [h'.jumped, h.jumped, List.append_assoc]
  lappedTotal := by
    rw [h'.lappedTotal, h.lappedTotal, List.length_append, List.length_append]
    omega
  le := h.le.trans h'.le
  passed := by
    rw [range'_split h.le h'.le]
    refine List.Perm.trans ?_ (h.passed.append h'.passed)
    simp only [List.perm_iff_count, List.map_append, List.count_append]
    intro s
    omega
  increasing := by
    rw [List.map_append, List.pairwise_append]
    refine ⟨h.increasing, h'.increasing, fun x hx y hy => ?_⟩
    have hx' := h.mem_range (List.mem_append_left _ (List.mem_append_left _ hx))
    have hy' := h'.mem_range (List.mem_append_left _ (List.mem_append_left _ hy))
    omega

end Advance

/-! ## Passing a range -/

/-- Passes the next `n` sequences: what `keep` holds is returned, the rest counts as lapped. -/
def pass (keep : ℕ → Option τ) : ℕ → Account τ → Account τ
  | 0, a => a
  | n + 1, a =>
    match keep a.cursor with
    | some item => pass keep n (a.deliver item)
    | none => pass keep n (a.lap (a.cursor + 1))

variable {keep : ℕ → Option τ}

theorem lap_lap {a : Account τ} {m n : ℕ} (hm : a.cursor ≤ m) (hn : m ≤ n) :
    (a.lap m).lap n = a.lap n := by
  simp only [lap, Account.mk.injEq, List.append_assoc, true_and, and_true]
  exact ⟨by omega, by rw [range'_split hm hn]⟩

theorem lap_self (a : Account τ) : a.lap a.cursor = a := by simp [lap]

/-- A range that holds nothing is passed in one go. -/
theorem pass_none (k : ℕ) :
    ∀ (n : ℕ) (a : Account τ), (∀ s, a.cursor ≤ s → s < a.cursor + n → keep s = none) →
      pass keep (n + k) a = pass keep k (a.lap (a.cursor + n)) := by
  intro n
  induction n with
  | zero =>
    intro a _
    rw [Nat.zero_add, Nat.add_zero, lap_self]
  | succ n ih =>
    intro a h
    rw [Nat.add_right_comm, pass, h a.cursor (le_refl _) (by omega)]
    simp only
    have hcur : (a.lap (a.cursor + 1)).cursor = a.cursor + 1 := rfl
    rw [ih (a.lap (a.cursor + 1)) fun s hs hs' => h s (by omega) (by omega), hcur,
      lap_lap (by omega) (by omega), Nat.add_assoc a.cursor 1 n, Nat.add_comm 1 n]

/-- What is returned, what counts as lapped, and where the cursor ends. -/
theorem pass_spec (keep : ℕ → Option τ) (n : ℕ) :
    ∀ a : Account τ, (pass keep n a).cursor = a.cursor + n ∧
      (pass keep n a).delivered =
        a.delivered ++ (List.range' a.cursor n).filterMap (fun s => (keep s).map (s, ·)) ∧
      (pass keep n a).lapped =
        a.lapped ++ (List.range' a.cursor n).filter (fun s => (keep s).isNone) ∧
      (pass keep n a).lappedTotal =
        a.lappedTotal + ((List.range' a.cursor n).filter (fun s => (keep s).isNone)).length := by
  induction n with
  | zero =>
    intro a
    simp [pass]
  | succ n ih =>
    intro a
    rw [pass]
    cases hk : keep a.cursor with
    | some item =>
      obtain ⟨hcur, hdel, hlap, htot⟩ := ih (a.deliver item)
      refine ⟨by rw [hcur]; simp only [deliver]; omega, ?_, ?_, ?_⟩
      · rw [hdel]
        simp [deliver, List.range'_succ, hk]
      · rw [hlap]
        simp [deliver, List.range'_succ, hk]
      · rw [htot]
        simp [deliver, List.range'_succ, hk]
    | none =>
      obtain ⟨hcur, hdel, hlap, htot⟩ := ih (a.lap (a.cursor + 1))
      refine ⟨by rw [hcur]; simp only [lap]; omega, ?_, ?_, ?_⟩
      · rw [hdel]
        simp [lap, List.range'_succ, hk]
      · rw [hlap]
        simp [lap, List.range'_succ, hk]
      · rw [htot]
        simp [lap, List.range'_succ, hk]
        omega

/-- The messages were returned in the order of their sequences, all of them below the cursor. -/
structure Ordered (a : Account τ) : Prop where
  increasing : (a.delivered.map Prod.fst).Pairwise (· < ·)
  below : ∀ x ∈ a.delivered, x.1 < a.cursor

theorem Ordered.nil {a : Account τ} (h : a.delivered = []) : a.Ordered := by
  constructor
  · rw [h]
    exact .nil
  · rw [h]
    rintro x ⟨⟩

/-- Returning messages on the way keeps the order. -/
theorem Advance.ordered {a a' : Account τ} {D : List (ℕ × τ)} {L J : List ℕ}
    (h : Advance a a' D L J) (ha : a.Ordered) : a'.Ordered := by
  have hpassed : ∀ x ∈ D, a.cursor ≤ x.1 ∧ x.1 < a'.cursor := fun x hx =>
    h.mem_range (List.mem_append_left _ (List.mem_append_left _ (List.mem_map_of_mem hx)))
  constructor
  · rw [h.delivered, List.map_append, List.pairwise_append]
    refine ⟨ha.increasing, h.increasing, fun j hj k hk => ?_⟩
    obtain ⟨x, hx, rfl⟩ := List.mem_map.mp hj
    obtain ⟨y, hy, rfl⟩ := List.mem_map.mp hk
    exact (ha.below x hx).trans_le (hpassed y hy).1
  · intro x hx
    rw [h.delivered] at hx
    rcases List.mem_append.mp hx with hx | hx
    · exact (ha.below x hx).trans_le h.le
    · exact (hpassed x hx).2

end Account

end Ringfire
