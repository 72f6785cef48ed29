import Mathlib.Data.Fintype.Basic
import Mathlib.Order.CompletePartialOrder
import Ringfire.Foundation.ByteMemory
import Ringfire.Foundation.Transition
import Ringfire.Layout.Geometry

/-!
# The blackboard

A table of values in shared memory, one slot for each key: a sequence lock of 64 bits and the bytes
of the value. `BlackboardProducer::write` and `ringfire_blackboard_write` make the lock odd, copy
the value and make the lock even; `BlackboardConsumer::read` loads the lock, copies the value and
loads the lock again. The table is one stretch of bytes, so that a slot is where its address says.

There is one writer at a time. It may stop for ever between any two memory accesses, and another
one may take over, which then finds an odd lock. The bytes of a value are copied in any order.

## Main definitions

* `TableLayout`: where the slots are, for a Rust type and for the C API
* `Table.step`: one memory access of the writer or of a reader
-/

namespace Ringfire

namespace Blackboard

open ByteMemory

/-- `size_of::<BlackboardHeader>()`. -/
def blackboardHeaderLen : ℕ := 128

/-- Where the slots of a table are, for values of `n` bytes. -/
structure TableLayout (n : ℕ) where
  slotSize : ℕ
  valueOffset : ℕ
  slotCount : ℕ
  seqlock_fits : 8 ≤ valueOffset
  value_fits : valueOffset + n ≤ slotSize

namespace TableLayout

/-- `BlackboardProducer::create`: slots of the type `BlackboardSlot<V>`, which is aligned to 64
bytes at least. -/
def typed (t : Layout.TypeLayout) (slotCount : ℕ) : TableLayout t.size where
  slotSize := alignUp (alignUp 8 t.align + t.size) (max t.align 64)
  valueOffset := alignUp 8 t.align
  slotCount := slotCount
  seqlock_fits := by
    obtain ⟨k, hk⟩ := t.align_pow
    apply SlotLayout.le_alignUp
    rw [hk]
    exact Nat.two_pow_pos k
  value_fits := SlotLayout.le_alignUp (Nat.lt_of_lt_of_le (by decide) (le_max_right t.align 64)) _

/-- `ringfire_blackboard_create`. -/
def raw (valueSize slotCount : ℕ) : TableLayout valueSize where
  slotSize := alignUp (8 + valueSize) 64
  valueOffset := 8
  slotCount := slotCount
  seqlock_fits := le_refl 8
  value_fits := SlotLayout.le_alignUp (by decide) _

variable {n : ℕ} (t : TableLayout n)

/-- The address of the slot of `key`. -/
def slotAt (key : ℕ) : ℕ := blackboardHeaderLen + key * t.slotSize

/-- The address of byte `i` of the value of `key`. -/
def valueAt (key : ℕ) (i : Fin n) : ℕ := t.slotAt key + t.valueOffset + i

/-- The sequence lock of `key`. -/
def seqlock (mem : ℕ → UInt8) (key : ℕ) : ℕ := load mem (t.slotAt key) 8

/-- The value of `key`. -/
def value (mem : ℕ → UInt8) (key : ℕ) : Fin n → UInt8 := fun i => mem (t.valueAt key i)

/-- Stores the sequence lock of `key`. -/
def storeSeqlock (mem : ℕ → UInt8) (key s : ℕ) : ℕ → UInt8 := store mem (t.slotAt key) 8 s

/-- `create` clears the locks of the first `k` keys, one by one. -/
def clear (mem : ℕ → UInt8) : ℕ → ℕ → UInt8
  | 0 => mem
  | k + 1 => t.storeSeqlock (clear mem k) k 0

end TableLayout

/-- The lock that a write which finds `s` stores first; it is odd, also when `s` is. -/
def writeMark (s : ℕ) : ℕ := if s % 2 = 0 then s + 1 else s + 2

/-- Where the writer stands. -/
inductive WriterPc (n : ℕ) where
  | idle
  | loaded (key : ℕ) (val : Fin n → UInt8) (s : ℕ)
  | copying (key : ℕ) (val : Fin n → UInt8) (writeS : ℕ) (left : Finset (Fin n))

/-- What the writer does next. -/
inductive WriterLabel (n : ℕ) where
  /-- `write` is called and loads the lock. -/
  | write (key : ℕ) (val : Fin n → UInt8)
  /-- The write is marked as in progress. -/
  | mark
  | copy (i : Fin n)
  /-- The write is marked as complete. -/
  | complete
  /-- The writer stops for ever, and another one takes over. -/
  | replace

/-- Where a reader stands. -/
inductive ReaderPc (n : ℕ) where
  | idle
  | looking (key : ℕ)
  | copying (key s₁ : ℕ) (buf : Fin n → UInt8) (left : Finset (Fin n))

/-- What a reader does next. -/
inductive ReaderLabel (n : ℕ) where
  | read (key : ℕ)
  | look
  | copy (i : Fin n)
  | check
  /-- The reader gives up with `WriterStalled`. -/
  | stall

/-- What `read` returned: `Ok`, and the lock it found, which is not part of what it returns. -/
structure Result (n : ℕ) where
  key : ℕ
  seqlock : ℕ
  value : Option (Fin n → UInt8)

/-- `BlackboardConsumer::read`, one memory access at a time. -/
def ReaderPc.step {n : ℕ} (t : TableLayout n) (mem : ℕ → UInt8) :
    ReaderPc n → ReaderLabel n → Option (ReaderPc n × Option (Result n))
  | .idle, .read key =>
    -- `KeyOutOfRange` otherwise
    if key < t.slotCount then some (.looking key, none) else some (.idle, none)
  | .looking key, .look =>
    -- never written, complete, or a write in progress
    if t.seqlock mem key = 0 then some (.idle, some ⟨key, 0, none⟩)
    else if t.seqlock mem key % 2 = 0 then
      some (.copying key (t.seqlock mem key) (fun _ => 0) Finset.univ, none)
    else some (.looking key, none)
  -- the wait for a writer that does not finish is bounded
  | .looking _, .stall => some (.idle, none)
  | .copying key s₁ buf left, .copy i =>
    if i ∈ left then
      some (.copying key s₁ (Function.update buf i (t.value mem key i)) (left.erase i), none)
    else none
  | .copying key s₁ buf left, .check =>
    if left = ∅ then
      -- a write came in between: look again
      if t.seqlock mem key = s₁ then some (.idle, some ⟨key, s₁, some buf⟩)
      else some (.looking key, none)
    else none
  | _, _ => none

/-- A table, its writer and its readers. -/
structure Table (ρ : Type) (n : ℕ) where
  mem : ℕ → UInt8
  writer : WriterPc n
  readers : ρ → ReaderPc n
  /-- What `read` returned to each reader so far. -/
  results : ρ → List (Result n)
  /-- The keys that a write was marked as in progress for. -/
  begun : List ℕ
  /-- The writes to each key that are complete: the lock they left and the value. -/
  completed : ℕ → List (ℕ × (Fin n → UInt8))

/-- Who moves. -/
inductive TableLabel (ρ : Type) (n : ℕ) where
  | writer (a : WriterLabel n)
  | reader (r : ρ) (a : ReaderLabel n)

namespace Table

variable {ρ : Type} {n : ℕ}

/-- A table as `create` leaves it, on memory of any content. -/
def create (ρ : Type) (t : TableLayout n) (mem : ℕ → UInt8) : Table ρ n where
  mem := t.clear mem t.slotCount
  writer := .idle
  readers := fun _ => .idle
  results := fun _ => []
  begun := []
  completed := fun _ => []

/-- `BlackboardProducer::write` and `ringfire_blackboard_write`, one memory access at a time. -/
def stepWriter (t : TableLayout n) (s : Table ρ n) : WriterPc n → WriterLabel n → Option (Table ρ n)
  | .idle, .write key val =>
    -- `KeyOutOfRange` otherwise
    if key < t.slotCount then
      some { s with writer := .loaded key val (t.seqlock s.mem key) }
    else some s
  -- the odd value that says a write is in progress
  | .loaded key val s₀, .mark =>
    some { s with
      mem := t.storeSeqlock s.mem key (writeMark s₀)
      writer := .copying key val (writeMark s₀) Finset.univ
      begun := key :: s.begun }
  | .copying key val writeS left, .copy i =>
    if i ∈ left then
      some { s with
        mem := Function.update s.mem (t.valueAt key i) (val i)
        writer := .copying key val writeS (left.erase i) }
    else none
  | .copying key val writeS left, .complete =>
    if left = ∅ then
      some { s with
        mem := t.storeSeqlock s.mem key (writeS + 1)
        writer := .idle
        completed := Function.update s.completed key (s.completed key ++ [(writeS + 1, val)]) }
    else none
  -- the writer dies anywhere, and another one takes over the table as it is
  | _, .replace => some { s with writer := .idle }
  | _, _ => none

/-- One memory access. -/
def step [DecidableEq ρ] (t : TableLayout n) (s : Table ρ n) :
    TableLabel ρ n → Option (Table ρ n)
  | .writer a => s.stepWriter t s.writer a
  | .reader r a =>
    ((s.readers r).step t s.mem a).map fun (pc, res) =>
      { s with
        readers := Function.update s.readers r pc
        results := Function.update s.results r (s.results r ++ res.toList) }

end Table

end Blackboard

end Ringfire
