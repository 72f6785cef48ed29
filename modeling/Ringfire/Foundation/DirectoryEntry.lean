import Mathlib.Logic.Function.Basic
import Mathlib.Tactic.Common

/-!
# A directory entry

One name and the inodes it has named. An inode has a length and at most one holder of its advisory
lock. Inodes are numbered in the order of their creation: one that is still open is not freed, so
its number is not given to another.

## Main definitions

* `Entry`: the name, the lengths and the locks
* `Entry.openOrCreate`, `Entry.tryLock`, `Entry.release`, `Entry.unlink`, `Entry.setLen`

## Main results

* `Entry.Wf`: a name is that of the newest inode, and only inodes there are have a length or a lock
-/

namespace DirectoryEntry

/-- A name, and the inodes it has named; `η` are those who can hold a lock. -/
structure Entry (η : Type) where
  /-- The inode that the name leads to. -/
  name : Option ℕ
  /-- How many inodes there have been. -/
  count : ℕ
  len : ℕ → ℕ
  holder : ℕ → Option η

namespace Entry

variable {η : Type}

/-- A directory without the name. -/
def empty (η : Type) : Entry η := ⟨none, 0, fun _ => 0, fun _ => none⟩

/-- Opens the name and creates an empty file if it leads nowhere: `O_CREAT` without `O_TRUNC`. -/
def openOrCreate (e : Entry η) : ℕ × Entry η :=
  match e.name with
  | some i => (i, e)
  | none =>
    (e.count, { e with
      name := some e.count
      count := e.count + 1
      len := Function.update e.len e.count 0 })

/-- `flock` with `LOCK_EX | LOCK_NB`: fails when the inode is locked. -/
def tryLock (e : Entry η) (a : η) (i : ℕ) : Option (Entry η) :=
  match e.holder i with
  | none => some { e with holder := Function.update e.holder i (some a) }
  | some _ => none

/-- `flock` with `LOCK_UN`, and `close`: `a` gives up its lock on the inode, if it has it. -/
def release [DecidableEq η] (e : Entry η) (a : η) (i : ℕ) : Entry η :=
  if e.holder i = some a then { e with holder := Function.update e.holder i none } else e

/-- `unlink`: the name leads nowhere; the inode stays for those who have it open. -/
def unlink (e : Entry η) : Entry η := { e with name := none }

/-- `ftruncate`. -/
def setLen (e : Entry η) (i n : ℕ) : Entry η := { e with len := Function.update e.len i n }

/-- The name leads to the newest inode, and only inodes there are can be locked. -/
structure Wf (e : Entry η) : Prop where
  newest : ∀ i, e.name = some i → i + 1 = e.count
  unheld : ∀ i, e.count ≤ i → e.holder i = none

variable {e e' : Entry η} {a b : η} {i j n : ℕ}

theorem empty_wf : (empty η).Wf := ⟨by rintro i ⟨⟩, fun _ _ => rfl⟩

/-- What `openOrCreate` gives: what the name leads to, or a new inode that the name now leads to. -/
theorem openOrCreate_cases (e : Entry η) :
    (∃ i, e.name = some i ∧ e.openOrCreate = (i, e)) ∨
      e.name = none ∧ e.openOrCreate = (e.count, { e with
        name := some e.count
        count := e.count + 1
        len := Function.update e.len e.count 0 }) := by
  unfold openOrCreate
  cases e.name with
  | none => exact .inr ⟨rfl, rfl⟩
  | some i => exact .inl ⟨i, rfl, rfl⟩

theorem tryLock_eq_some :
    e.tryLock a i = some e' ↔
      e.holder i = none ∧ e' = { e with holder := Function.update e.holder i (some a) } := by
  unfold tryLock
  cases e.holder i with
  | none => simp [eq_comm]
  | some b => simp

@[simp] theorem release_name [DecidableEq η] (e : Entry η) (a : η) (i : ℕ) :
    (e.release a i).name = e.name := by
  unfold release
  split_ifs <;> rfl

@[simp] theorem release_count [DecidableEq η] (e : Entry η) (a : η) (i : ℕ) :
    (e.release a i).count = e.count := by
  unfold release
  split_ifs <;> rfl

@[simp] theorem release_len [DecidableEq η] (e : Entry η) (a : η) (i : ℕ) :
    (e.release a i).len = e.len := by
  unfold release
  split_ifs <;> rfl

/-- A lock of another stays. -/
theorem release_holder_of_ne [DecidableEq η] (hne : b ≠ a) (h : e.holder j = some b) (i : ℕ) :
    (e.release a i).holder j = some b := by
  unfold release
  split_ifs with hi
  · rcases eq_or_ne j i with rfl | hj
    · rw [hi] at h
      exact absurd (Option.some.inj h).symm hne
    · simp only [Function.update_of_ne hj]
      exact h
  · exact h

theorem Wf.openOrCreate (h : e.Wf) : e.openOrCreate.2.Wf := by
  rcases e.openOrCreate_cases with ⟨i, -, heq⟩ | ⟨-, heq⟩
  · rw [heq]
    exact h
  · rw [heq]
    refine ⟨?_, fun i hi => h.unheld i (Nat.le_of_succ_le hi)⟩
    rintro i ⟨⟩
    rfl

theorem Wf.tryLock (h : e.Wf) (hi : i < e.count) (hl : e.tryLock a i = some e') : e'.Wf := by
  obtain ⟨-, rfl⟩ := tryLock_eq_some.mp hl
  refine ⟨h.newest, fun j hj => ?_⟩
  have hne : j ≠ i := by
    rintro rfl
    exact absurd hj (Nat.not_le.mpr hi)
  simp only [Function.update_of_ne hne]
  exact h.unheld j hj

theorem Wf.release [DecidableEq η] (h : e.Wf) (a : η) (i : ℕ) : (e.release a i).Wf := by
  unfold Entry.release
  split_ifs with hi
  · refine ⟨h.newest, fun j hj => ?_⟩
    rcases eq_or_ne j i with rfl | hne
    · exact Function.update_self ..
    · simp only [Function.update_of_ne hne]
      exact h.unheld j hj
  · exact h

theorem Wf.unlink (h : e.Wf) : e.unlink.Wf := ⟨by rintro i ⟨⟩, h.unheld⟩

theorem Wf.setLen (h : e.Wf) (i n : ℕ) : (e.setLen i n).Wf := ⟨h.newest, h.unheld⟩

end Entry

end DirectoryEntry
