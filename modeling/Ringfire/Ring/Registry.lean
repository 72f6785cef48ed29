import Mathlib.Logic.Function.Basic
import Mathlib.Tactic.Common

/-!
# The reader registry

The registration slots of `registry.rs` and the memory accesses of `ReaderRegistry::register` and
of dropping a `ReaderRegistration`. A slot is owned while `pid` is not zero, and counts as a live
reader while `active` is one as well. Ownership changes only by compare-and-swap on `pid`.

`is_process_alive` is a parameter: the set of processes alive at the moment of the call. The
heartbeat and the name a slot also carries are written by `register` and read by no flow control,
so they are left out.

## Main definitions

* `RegisterPc.step`: one memory access of `register`
* `DropPc.step`: one memory access of dropping a registration
-/

namespace Ringfire

/-- A slot of the reader registry. -/
structure ReaderSlot where
  pid : ℕ
  active : ℕ
  cursorSeq : ℕ
  deriving DecidableEq

/-- A slot as `ReaderRegistry::init` leaves it. -/
def ReaderSlot.empty : ReaderSlot := ⟨0, 0, 0⟩

/-- Where a thread inside `register` stands. -/
inductive RegisterPc where
  | scan (i : ℕ)
  | claim (i seen : ℕ)
  | hide (i : ℕ)
  | place (i : ℕ)
  | activate (i : ℕ)
  | registered (i : ℕ)
  | full
  deriving DecidableEq

/-- One memory access of `register(name, initial_cursor)` by the process `pid`, over a registry
of `count` slots. -/
def RegisterPc.step (count : ℕ) (alive : ℕ → Bool) (pid initialCursor : ℕ)
    (regs : ℕ → ReaderSlot) : RegisterPc → Option (RegisterPc × (ℕ → ReaderSlot))
  | .scan i =>
    if i < count then
      if (regs i).pid = 0 ∨ alive (regs i).pid = false then some (.claim i (regs i).pid, regs)
      else some (.scan (i + 1), regs)
    else some (.full, regs)
  -- the compare and swap; on failure the scan goes on at the next slot
  | .claim i seen =>
    if (regs i).pid = seen then
      some (.hide i, Function.update regs i { regs i with pid := pid })
    else some (.scan (i + 1), regs)
  -- The slot may still carry the previous owner's flag and cursor: hide it until the new
  -- cursor is in place.
  | .hide i => some (.place i, Function.update regs i { regs i with active := 0 })
  | .place i => some (.activate i, Function.update regs i { regs i with cursorSeq := initialCursor })
  | .activate i => some (.registered i, Function.update regs i { regs i with active := 1 })
  | .registered _ => none
  | .full => none

/-- `ReaderRegistration::update_cursor`. -/
def updateCursor (regs : ℕ → ReaderSlot) (i seq : ℕ) : ℕ → ReaderSlot :=
  Function.update regs i { regs i with cursorSeq := seq }

/-- Where a thread dropping its registration stands. -/
inductive DropPc where
  | deactivate
  | release
  | released
  deriving DecidableEq

/-- One memory access of dropping the registration in slot `i` of the process `pid`. -/
def DropPc.step (pid i : ℕ) (regs : ℕ → ReaderSlot) : DropPc → Option (DropPc × (ℕ → ReaderSlot))
  | .deactivate => some (.release, Function.update regs i { regs i with active := 0 })
  -- the slot may have been taken over by now, then it stays
  | .release =>
    if (regs i).pid = pid then some (.released, Function.update regs i { regs i with pid := 0 })
    else some (.released, regs)
  | .released => none

/-- A process that is alive after the death of `pid` was alive before it. -/
theorem alive_before_die {alive : ℕ → Bool} {pid q : ℕ}
    (h : Function.update alive pid false q = true) : alive q = true := by
  rcases eq_or_ne q pid with rfl | hne
  · rw [Function.update_self] at h
    cases h
  · rwa [Function.update_of_ne hne] at h

/-- The dead stay dead. -/
theorem dead_after_die {alive : ℕ → Bool} {pid q : ℕ} (h : alive q = false) :
    Function.update alive pid false q = false := by
  by_contra hc
  rw [Bool.not_eq_false] at hc
  rw [alive_before_die hc] at h
  cases h

/-- `reclaim`: releases slot `i` if the process `pid` still owns it. -/
def reclaim (regs : ℕ → ReaderSlot) (i pid : ℕ) : Bool × (ℕ → ReaderSlot) :=
  if (regs i).pid = pid then (true, Function.update regs i { regs i with pid := 0 })
  else (false, regs)

end Ringfire
