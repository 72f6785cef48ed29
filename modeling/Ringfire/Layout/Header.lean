import Ringfire.Arena.Reserve
import Ringfire.Foundation.Checked
import Ringfire.Foundation.LittleEndian

/-!
# The header of a ring

The fields of `RingHeader` that say where the parts of a ring lie, `RingHeader::initialize`, which
writes them, and `validate_ring`, which every reader calls before it trusts them. A header is read
out of a mapping, so a hostile one holds any bytes; 32-bit and 64-bit fields are numbers below
`2 ^ 32` and `2 ^ 64`, and `usize` has 64 bits.

## Main definitions

* `RingHeader`, `ArenaHeader`, `Mapping.header`, `Mapping.arenaHeader`
* `validateRing`
* `RingHeader.Valid`: what a header that passes says

## Main results

* `validateRing_eq_ok`: which headers pass
-/

namespace Ringfire

namespace Layout

open Checked LittleEndian

/-- `size_of::<RingHeader>()`. -/
def ringHeaderLen : ℕ := 128

/-- `size_of::<ReaderSlot>()`. -/
def readerSlotLen : ℕ := 64

/-- `size_of::<ArenaHeader>()`. -/
def arenaHeaderLen : ℕ := 64

/-- `RINGFIRE_MAGIC`. -/
def ringfireMagic : ℕ := 0x52494E4746495245

/-- `RINGFIRE_VERSION`. -/
def ringfireVersion : ℕ := 2

/-- The flags of a header. -/
def flagPolicyLatestWins : ℕ := 0x0001
@[inherit_doc flagPolicyLatestWins] def flagPolicyLosslessBackpressure : ℕ := 0x0002
@[inherit_doc flagPolicyLatestWins] def flagModeSpmc : ℕ := 0x0010
@[inherit_doc flagPolicyLatestWins] def flagModeMpmc : ℕ := 0x0020
@[inherit_doc flagPolicyLatestWins] def flagWithArena : ℕ := 0x0100
@[inherit_doc flagPolicyLatestWins] def flagWithRegistry : ℕ := 0x0200
@[inherit_doc flagPolicyLatestWins] def flagSparse : ℕ := 0x0400

/-- The fields of a header that do not change once the ring is there. -/
structure RingHeader where
  magic : ℕ
  version : ℕ
  elementSize : ℕ
  capacity : ℕ
  mask : ℕ
  flags : ℕ
  schemaSig : ℕ
  arenaOffset : ℕ
  arenaSize : ℕ
  readerRegistryOffset : ℕ
  readerRegistryCount : ℕ
  slotsOffset : ℕ
  deriving DecidableEq

/-- The fields of the header of a `PayloadArena` that do not change. -/
structure ArenaHeader where
  capacity : ℕ
  mask : ℕ
  deriving DecidableEq

/-- Every field fits its width. -/
structure RingHeader.InRange (h : RingHeader) : Prop where
  elementSize : h.elementSize < 2 ^ 32
  capacity : h.capacity < 2 ^ 64
  flags : h.flags < 2 ^ 32
  schemaSig : h.schemaSig < 2 ^ 64
  arenaOffset : h.arenaOffset < 2 ^ 64
  arenaSize : h.arenaSize < 2 ^ 64
  registryOffset : h.readerRegistryOffset < 2 ^ 32
  registryCount : h.readerRegistryCount < 2 ^ 32
  slotsOffset : h.slotsOffset < 2 ^ 64

/-! ## Writing a header -/

/-- `RingLayout`: what a creator says about its ring. -/
structure RingLayout where
  capacity : ℕ
  slotSize : ℕ
  flags : ℕ
  schemaSig : ℕ
  registryOffset : ℕ
  registryCount : ℕ
  slotsOffset : ℕ
  arenaOffset : ℕ
  arenaSize : ℕ

/-- `RingHeader::initialize`. -/
def RingHeader.initializeFields (l : RingLayout) : RingHeader where
  magic := 0
  version := ringfireVersion
  elementSize := l.slotSize % 2 ^ 32
  capacity := l.capacity
  mask := l.capacity - 1
  flags := l.flags
  schemaSig := l.schemaSig
  arenaOffset := l.arenaOffset
  arenaSize := l.arenaSize
  readerRegistryOffset := l.registryOffset % 2 ^ 32
  readerRegistryCount := l.registryCount % 2 ^ 32
  slotsOffset := l.slotsOffset

/-- `RingHeader::publish`. -/
def RingHeader.publish (h : RingHeader) : RingHeader := { h with magic := ringfireMagic }

/-! ## Reading a header -/

/-- `isize::MAX`, the length of the longest mapping. -/
def isizeMax : ℕ := 2 ^ 63 - 1

/-- A file mapped into memory. -/
structure Mapping where
  len : ℕ
  bytes : ℕ → UInt8
  fits : len ≤ isizeMax

namespace Mapping

/-- The number in the `k` bytes from `offset` on. -/
def field (m : Mapping) (offset k : ℕ) : ℕ := ofLe ((List.range' offset k).map m.bytes)

/-- The header at the start of a mapping. -/
def header (m : Mapping) : RingHeader where
  magic := m.field 0 8
  version := m.field 8 4
  elementSize := m.field 12 4
  capacity := m.field 16 8
  mask := m.field 24 8
  flags := m.field 48 4
  schemaSig := m.field 72 8
  arenaOffset := m.field 80 8
  arenaSize := m.field 88 8
  readerRegistryOffset := m.field 96 4
  readerRegistryCount := m.field 100 4
  slotsOffset := m.field 104 8

/-- The header of an arena at `offset`. -/
def arenaHeader (m : Mapping) (offset : ℕ) : ArenaHeader where
  capacity := m.field offset 8
  mask := m.field (offset + 8) 8

theorem field_lt (m : Mapping) (offset k : ℕ) : m.field offset k < 256 ^ k := by
  have h := ofLe_lt ((List.range' offset k).map m.bytes)
  rwa [List.length_map, List.length_range'] at h

/-- A field is its lower half and its upper half. -/
theorem field_add (m : Mapping) (offset j k : ℕ) :
    m.field offset (j + k) = m.field offset j + 256 ^ j * m.field (offset + j) k := by
  unfold field
  rw [← List.range'_append_1, List.map_append, ofLe_append, List.length_map, List.length_range']

/-- Whatever the bytes are, the fields fit. -/
theorem header_inRange (m : Mapping) : m.header.InRange where
  elementSize := m.field_lt 12 4
  capacity := m.field_lt 16 8
  flags := m.field_lt 48 4
  schemaSig := m.field_lt 72 8
  arenaOffset := m.field_lt 80 8
  arenaSize := m.field_lt 88 8
  registryOffset := m.field_lt 96 4
  registryCount := m.field_lt 100 4
  slotsOffset := m.field_lt 104 8

end Mapping

/-! ## Checking a header -/

/-- `is_power_of_two`. -/
def isPowerOfTwo (n : ℕ) : Bool := n ≠ 0 ∧ n &&& (n - 1) = 0

theorem isPowerOfTwo_iff {n : ℕ} : isPowerOfTwo n = true ↔ ∃ k, n = 2 ^ k := by
  rw [isPowerOfTwo, decide_eq_true_eq]
  exact Nat.ne_zero_and_sub_one_eq_zero_iff_isPowerOfTwo

/-- `RingView`: where the slots of a ring are. -/
structure RingView where
  capacity : ℕ
  mask : ℕ
  slotSize : ℕ
  slotsOffset : ℕ
  deriving DecidableEq

/-- The view of a header that passes. -/
def RingHeader.view (h : RingHeader) : RingView :=
  ⟨h.capacity, h.capacity - 1, h.elementSize, h.slotsOffset⟩

/-- `validate_ring`, for a mapping of `len` bytes. -/
def validateRing (h : RingHeader) (len : ℕ) (expectedSlotSize : Option ℕ) (slotAlign : ℕ) :
    Except RingfireError RingView := do
  require (ringHeaderLen ≤ len) (.corruptLayout "mapping smaller than the ring header")
  require (h.magic = ringfireMagic) (.invalidMagic ringfireMagic h.magic)
  require (h.version = ringfireVersion) (.versionMismatch ringfireVersion h.version)
  require (h.elementSize = expectedSlotSize.getD h.elementSize)
    (.elementSizeMismatch h.elementSize (expectedSlotSize.getD h.elementSize))
  require (8 ≤ h.elementSize) (.corruptLayout "slot size smaller than its sequence word")
  require (isPowerOfTwo h.capacity = true ∧ h.mask = h.capacity - 1)
    (.corruptLayout "capacity is not a power of two or mask mismatch")
  require (ringHeaderLen ≤ h.slotsOffset ∧ max slotAlign 8 ∣ h.slotsOffset)
    (.corruptLayout "misplaced or misaligned slots")
  require (AtMost ((mul h.capacity h.elementSize).bind fun b => add b h.slotsOffset) len)
    (.corruptLayout "slots extend past the end of the mapping")
  require (h.readerRegistryOffset ≠ 0 →
      64 ∣ h.readerRegistryOffset ∧
        (h.readerRegistryOffset + h.readerRegistryCount * readerSlotLen) % 2 ^ 64 ≤ len)
    (.corruptLayout "reader registry outside the mapping")
  require (h.arenaOffset ≠ 0 →
      64 ∣ h.arenaOffset ∧
        AtMost ((add h.arenaSize h.arenaOffset).bind fun e => add e 64) len)
    (.corruptLayout "payload arena outside the mapping")
  return h.view

/-- What a header that passes says about a mapping of `len` bytes, whatever slots are expected. -/
structure RingHeader.Valid (h : RingHeader) (len : ℕ) : Prop where
  header : ringHeaderLen ≤ len
  magic : h.magic = ringfireMagic
  version : h.version = ringfireVersion
  slotSize : 8 ≤ h.elementSize
  capacity : ∃ k, h.capacity = 2 ^ k
  mask : h.mask = h.capacity - 1
  slots : ringHeaderLen ≤ h.slotsOffset
  slotsEnd : h.capacity * h.elementSize + h.slotsOffset ≤ len
  registry : h.readerRegistryOffset ≠ 0 → 64 ∣ h.readerRegistryOffset ∧
    h.readerRegistryOffset + h.readerRegistryCount * readerSlotLen ≤ len
  arena : h.arenaOffset ≠ 0 → 64 ∣ h.arenaOffset ∧
    h.arenaSize + h.arenaOffset + arenaHeaderLen ≤ len

/-- The slots of a header are of the size and the alignment a reader expects. -/
structure RingHeader.Expected (h : RingHeader) (expectedSlotSize : Option ℕ) (slotAlign : ℕ) :
    Prop where
  size : ∀ n, expectedSlotSize = some n → h.elementSize = n
  align : max slotAlign 8 ∣ h.slotsOffset

/-- **Which headers pass.** No sum or product overflows on the way. -/
theorem validateRing_eq_ok {h : RingHeader} {len : ℕ} (hh : h.InRange) (hlen : len < 2 ^ 64)
    {expectedSlotSize : Option ℕ} {slotAlign : ℕ} {v : RingView} :
    validateRing h len expectedSlotSize slotAlign = .ok v ↔
      h.Valid len ∧ h.Expected expectedSlotSize slotAlign ∧ v = h.view := by
  have hcount := hh.registryCount
  have hoffset := hh.registryOffset
  have hregistry : (h.readerRegistryOffset + h.readerRegistryCount * readerSlotLen) % 2 ^ 64 =
      h.readerRegistryOffset + h.readerRegistryCount * readerSlotLen := by
    apply Nat.mod_eq_of_lt
    unfold readerSlotLen
    omega
  have hsize : h.elementSize = expectedSlotSize.getD h.elementSize ↔
      ∀ n, expectedSlotSize = some n → h.elementSize = n := by
    cases expectedSlotSize with
    | none => simp
    | some n => simp
  simp only [validateRing, bind_eq_ok, require_eq_ok, hregistry, hsize, isPowerOfTwo_iff,
    atMost_mul_add hlen, atMost_add_add hlen]
  constructor
  · rintro ⟨-, h1, -, h2, -, h3, -, h4, -, h5, -, ⟨h6, h7⟩, -, ⟨h8, h9⟩, -, h10, -, h11, -, h12, h13⟩
    cases h13
    exact ⟨⟨h1, h2, h3, h5, h6, h7, h8, h10, h11, h12⟩, ⟨h4, h9⟩, rfl⟩
  · rintro ⟨hv, he, rfl⟩
    exact ⟨(), hv.header, (), hv.magic, (), hv.version, (), he.size, (), hv.slotSize, (),
      ⟨hv.capacity, hv.mask⟩, (), ⟨hv.slots, he.align⟩, (), hv.slotsEnd, (), hv.registry, (),
      hv.arena, rfl⟩

end Layout

end Ringfire
