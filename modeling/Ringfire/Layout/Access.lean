import Ringfire.Layout.Geometry

/-!
# What a checked header lets its readers touch

Every access to a mapped ring goes through offsets that come out of the mapping itself. Here are
the offsets: of slot `s`, of the reader slots, of the header of the arena and of the bytes of a
blob. `ArenaView::open` is how `SourceRing::open` takes up the arena, and `PayloadArena::from_ptr`
how `BlobConsumer::attach` and `MirrorRing::adopt` do. The sums and differences that the source
does not check are those of a release build: they wrap around.

## Main definitions

* `openSource`, `attachBlob`, `adoptMapping`: the arenas that are taken up
* `ArenaView.inBounds`, `ArenaView.position`: which blobs are read, and where their bytes are
* `Mapping.Sound`: no access leaves the mapping
* `Mapping.EmptyArena`: a ring whose arena has no bytes and is taken up nevertheless

## Main results

* `header_sound_iff`: no access leaves the mapping unless its arena is such a one
-/

namespace Ringfire

namespace Layout

open Checked LittleEndian

/-- An arena as its readers see it: `ArenaView`, and the fields of `PayloadArena`. -/
structure ArenaView where
  /-- The offset of the arena in the mapping. -/
  offset : ℕ
  capacity : ℕ
  mask : ℕ
  deriving DecidableEq

namespace ArenaView

/-- `ArenaView::open`. The difference wraps around when the capacity is zero. -/
def «open» (m : Mapping) (g : Geometry) : Except RingfireError ArenaView := do
  let a := m.arenaHeader g.arenaOffset
  require (a.capacity = g.arenaSize ∧ a.mask = (a.capacity + 2 ^ 64 - 1) % 2 ^ 64)
    (.corruptLayout "arena header disagrees with ring header")
  return ⟨g.arenaOffset, a.capacity, a.mask⟩

/-- `ArenaView::in_bounds` and `PayloadArena::is_in_bounds`. -/
def inBounds (a : ArenaView) (r : BlobRef) : Bool :=
  ((r.offset &&& a.mask) + r.len) % 2 ^ 64 ≤ a.capacity

/-- Where byte `i` of a blob is read, as an offset from the start of the mapping. -/
def position (a : ArenaView) (r : BlobRef) (i : ℕ) : ℕ :=
  (a.offset + arenaHeaderLen + (r.offset &&& a.mask) + i) % 2 ^ 64

end ArenaView

/-- `SourceRing::open` once it has mapped the file: the arena it reads blobs from. -/
def openSource (m : Mapping) : Except RingfireError (Option ArenaView) := do
  let v ← validateRing m.header m.len none 8
  let g := Geometry.fromHeader m.header v
  if m.header.flags &&& flagWithArena ≠ 0 then
    -- the slot has to hold the descriptor that names the blob
    require (blobRefLen ≤ g.payloadLen) (.unsupported "arena ring without a blob descriptor")
    let a ← ArenaView.open m g
    return some a
  else return none

/-- `BlobConsumer::attach_with_name` once it has mapped the file, for slots of the given size and
alignment: the arena it reads blobs from. -/
def attachBlob (m : Mapping) (slotSize slotAlign : ℕ) : Except RingfireError ArenaView := do
  let _ ← validateRing m.header m.len (some slotSize) slotAlign
  require (m.header.arenaOffset ≠ 0)
    (.corruptLayout "shared memory queue does not contain a PayloadArena")
  let a ← fromPtr (m.arenaHeader m.header.arenaOffset)
  require (a.capacity = m.header.arenaSize)
    (.corruptLayout "arena header disagrees with ring header")
  return ⟨m.header.arenaOffset, a.capacity, a.mask⟩

/-- `MirrorRing::adopt` once it has mapped the file: the arena it writes blobs to. -/
def adoptMapping (m : Mapping) : Option ArenaView :=
  match adopt m.header (some (m.arenaHeader m.header.arenaOffset)) m.len with
  | some g =>
    -- `PayloadArena::from_ptr` has read the size and the mask from the arena header
    if g.hasArena then
      some ⟨g.arenaOffset, (m.arenaHeader g.arenaOffset).capacity,
        (m.arenaHeader g.arenaOffset).mask⟩
    else none
  | none => none

/-- A descriptor whose fields fit their widths. -/
structure RefInRange (r : BlobRef) : Prop where
  offset : r.offset < 2 ^ 64
  len : r.len < 2 ^ 32

/-- Every byte of every blob that passes lies in the mapping. -/
def ArenaView.Within (a : ArenaView) (len : ℕ) : Prop :=
  ∀ r, RefInRange r → a.inBounds r = true → ∀ i < r.len, a.position r i < len

/-- **No access leaves the mapping**: whenever the header passes, every slot, every reader slot and
the header of the arena lie in it, and so do the bytes of every blob that passes, whoever takes up
the arena. -/
structure Mapping.Sound (m : Mapping) : Prop where
  slots : ∀ expectedSlotSize slotAlign v,
    validateRing m.header m.len expectedSlotSize slotAlign = .ok v → ∀ s < 2 ^ 64,
      v.slotsOffset + (s &&& v.mask) * v.slotSize + v.slotSize ≤ m.len
  readers : ∀ expectedSlotSize slotAlign v,
    validateRing m.header m.len expectedSlotSize slotAlign = .ok v →
      m.header.readerRegistryOffset ≠ 0 → ∀ i < m.header.readerRegistryCount,
        m.header.readerRegistryOffset + i * readerSlotLen + readerSlotLen ≤ m.len
  arena : ∀ expectedSlotSize slotAlign v,
    validateRing m.header m.len expectedSlotSize slotAlign = .ok v →
      m.header.arenaOffset ≠ 0 → m.header.arenaOffset + arenaHeaderLen ≤ m.len
  source : ∀ a, openSource m = .ok (some a) → a.Within m.len
  blob : ∀ slotSize slotAlign a, attachBlob m slotSize slotAlign = .ok a → a.Within m.len
  mirror : ∀ a, adoptMapping m = some a → a.Within m.len

/-- A ring that passes, with an arena of no bytes whose mask is all ones. `ArenaView::open` takes it
up, where `PayloadArena::from_ptr` asks for a power of two of at least 64 bytes, and the arena lies
so low that a blob can be longer than all that is in front of it. -/
structure Mapping.EmptyArena (m : Mapping) : Prop where
  valid : m.header.Valid m.len
  align : 8 ∣ m.header.slotsOffset
  flag : m.header.flags &&& flagWithArena ≠ 0
  descriptor : blobRefLen ≤ m.header.elementSize - 8
  size : m.header.arenaSize = 0
  header : m.arenaHeader m.header.arenaOffset = ⟨0, 2 ^ 64 - 1⟩
  low : m.header.arenaOffset + arenaHeaderLen < u32Max

/-! ## Blobs -/

variable {m : Mapping} {a : ArenaView} {len : ℕ}

/-- A blob that passes lies in an arena that lies in the mapping and is not empty. -/
theorem ArenaView.within_of_pos (hlen : len ≤ isizeMax) (hpos : 0 < a.capacity)
    (hmask : a.mask = a.capacity - 1) (hend : a.capacity + a.offset + arenaHeaderLen ≤ len) :
    a.Within len := by
  intro r hr hin i hi
  have hand : r.offset &&& a.mask ≤ a.mask := Nat.and_le_right
  have hrlen := hr.len
  unfold isizeMax at hlen
  -- the sum does not wrap around: the arena is shorter than half of the address space
  have hsum : (r.offset &&& a.mask) + r.len ≤ a.capacity := by
    simp only [ArenaView.inBounds, decide_eq_true_eq] at hin
    rwa [Nat.mod_eq_of_lt (by omega)] at hin
  unfold ArenaView.position
  rw [Nat.mod_eq_of_lt (by omega)]
  omega

/-- In an arena without a capacity, what passes ends where the arena starts, and what is read lies
in front of it. -/
theorem ArenaView.within_iff_of_empty (hlen : len ≤ isizeMax) (hzero : a.capacity = 0)
    (hmask : a.mask = 2 ^ 64 - 1) (hend : a.offset + arenaHeaderLen ≤ len) :
    a.Within len ↔ u32Max ≤ a.offset + arenaHeaderLen := by
  have hand {n : ℕ} (hn : n < 2 ^ 64) : n &&& a.mask = n := by
    rw [hmask, Nat.and_two_pow_sub_one_eq_mod, Nat.mod_eq_of_lt hn]
  unfold isizeMax at hlen
  constructor
  · intro hwithin
    by_contra hlt
    -- the longest blob starts in front of the mapping
    have hr : RefInRange ⟨2 ^ 64 - u32Max, u32Max, 0⟩ := ⟨by decide, by decide⟩
    have hstart : 2 ^ 64 - u32Max &&& a.mask = 2 ^ 64 - u32Max := hand hr.offset
    have hin : a.inBounds ⟨2 ^ 64 - u32Max, u32Max, 0⟩ = true := by
      simp only [ArenaView.inBounds, hstart, hzero, decide_eq_true_eq]
      decide
    have hpos := hwithin _ hr hin 0 (by decide)
    simp only [ArenaView.position, hstart] at hpos
    unfold u32Max at hlt hpos
    rw [Nat.mod_eq_of_lt (by omega)] at hpos
    omega
  · intro hle r hr hin i hi
    have hrlen := hr.len
    have hroff := hr.offset
    simp only [ArenaView.inBounds, hand hr.offset, hzero, decide_eq_true_eq] at hin
    unfold u32Max at hle
    have hsum : r.offset + r.len = 2 ^ 64 := by omega
    have hpos : a.offset + arenaHeaderLen + r.offset + i =
        a.offset + arenaHeaderLen + i - r.len + 2 ^ 64 := by omega
    simp only [ArenaView.position, hand hr.offset, hpos]
    rw [Nat.add_mod_right, Nat.mod_eq_of_lt (by omega)]
    omega

/-! ## Taking up an arena -/

theorem Mapping.len_lt (m : Mapping) : m.len < 2 ^ 64 := Nat.lt_of_le_of_lt m.fits (by decide)

/-- A header that passes is a valid one, and its slots are where the view says. -/
theorem Mapping.of_validateRing {expectedSlotSize : Option ℕ} {slotAlign : ℕ} {v : RingView}
    (h : validateRing m.header m.len expectedSlotSize slotAlign = .ok v) :
    m.header.Valid m.len ∧ v = m.header.view := by
  obtain ⟨hvalid, -, hv⟩ := (validateRing_eq_ok m.header_inRange m.len_lt).mp h
  exact ⟨hvalid, hv⟩

theorem ArenaView.open_eq_ok {g : Geometry} :
    ArenaView.open m g = .ok a ↔
      a.offset = g.arenaOffset ∧ a.capacity = g.arenaSize ∧
        a.mask = (a.capacity + 2 ^ 64 - 1) % 2 ^ 64 ∧
        m.arenaHeader g.arenaOffset = ⟨a.capacity, a.mask⟩ := by
  unfold ArenaView.open
  generalize m.arenaHeader g.arenaOffset = x
  obtain ⟨capacity, mask⟩ := x
  obtain ⟨offset, capacity', mask'⟩ := a
  simp only [bind_eq_ok, require_eq_ok, ArenaHeader.mk.injEq]
  constructor
  · rintro ⟨-, ⟨hcapacity, hmask⟩, hview⟩
    obtain ⟨rfl, rfl, rfl⟩ := ArenaView.mk.inj (Except.ok.inj hview)
    exact ⟨rfl, hcapacity, hmask, rfl, rfl⟩
  · rintro ⟨rfl, hcapacity, hmask, rfl, rfl⟩
    exact ⟨(), ⟨hcapacity, hmask⟩, rfl⟩

/-- The cut to 32 bits loses nothing of a slot size that comes out of a header. -/
theorem Mapping.payloadLen_eq (m : Mapping) :
    (Geometry.fromHeader m.header m.header.view).payloadLen = m.header.elementSize - 8 := by
  change m.header.elementSize % 2 ^ 32 - 8 = _
  rw [Nat.mod_eq_of_lt m.header_inRange.elementSize]

/-- Which arenas `SourceRing::open` takes up. -/
theorem openSource_eq_some :
    openSource m = .ok (some a) ↔
      m.header.Valid m.len ∧ 8 ∣ m.header.slotsOffset ∧
        m.header.flags &&& flagWithArena ≠ 0 ∧ blobRefLen ≤ m.header.elementSize - 8 ∧
        a.offset = m.header.arenaOffset ∧ a.capacity = m.header.arenaSize ∧
        a.mask = (a.capacity + 2 ^ 64 - 1) % 2 ^ 64 ∧
        m.arenaHeader m.header.arenaOffset = ⟨a.capacity, a.mask⟩ := by
  unfold openSource
  simp only [bind_eq_ok, validateRing_eq_ok m.header_inRange m.len_lt]
  constructor
  · rintro ⟨_, ⟨hvalid, hexpected, rfl⟩, hopen⟩
    split_ifs at hopen with hflag
    · simp only [bind_eq_ok, require_eq_ok, m.payloadLen_eq] at hopen
      obtain ⟨-, hdescriptor, a', ha, hsome⟩ := hopen
      obtain rfl : a' = a := Option.some.inj (Except.ok.inj hsome)
      have harena := ArenaView.open_eq_ok.mp ha
      exact ⟨hvalid, hexpected.align, hflag, hdescriptor, harena⟩
    · cases Except.ok.inj hopen
  · rintro ⟨hvalid, halign, hflag, hdescriptor, ha⟩
    have hexpected : m.header.Expected none 8 :=
      { size := fun n hn => by cases hn
        align := halign }
    refine ⟨m.header.view, ⟨hvalid, hexpected, rfl⟩, ?_⟩
    rw [if_pos hflag]
    simp only [bind_eq_ok, require_eq_ok, m.payloadLen_eq]
    exact ⟨(), hdescriptor, a, ArenaView.open_eq_ok.mpr ha, rfl⟩

/-- An arena at the start of the mapping would have the header of the ring for its own, and the
version and the slot size are no mask. -/
theorem arenaHeader_zero_ne (hvalid : m.header.Valid m.len)
    (hmask : (m.arenaHeader 0).mask = ((m.arenaHeader 0).capacity + 2 ^ 64 - 1) % 2 ^ 64) :
    False := by
  have hcapacity : (m.arenaHeader 0).capacity = ringfireMagic := hvalid.magic
  have hversion : m.field 8 4 = ringfireVersion := hvalid.version
  have hfield : (m.arenaHeader 0).mask = m.field 8 4 + 256 ^ 4 * m.field 12 4 := m.field_add 8 4 4
  rw [hcapacity, hfield, hversion] at hmask
  unfold ringfireVersion ringfireMagic at hmask
  omega

/-- A header that `PayloadArena::from_ptr` accepts. -/
theorem fromPtr_eq_ok {x y : ArenaHeader} :
    fromPtr x = .ok y ↔ y = x ∧ isPowerOfTwo x.capacity = true ∧ 64 ≤ x.capacity ∧
      x.mask = x.capacity - 1 := by
  simp only [fromPtr, bind_eq_ok, require_eq_ok]
  constructor
  · rintro ⟨-, ⟨hpow, hle⟩, -, hmask, hy⟩
    cases hy
    exact ⟨rfl, hpow, hle, hmask⟩
  · rintro ⟨rfl, hpow, hle, hmask⟩
    exact ⟨(), ⟨hpow, hle⟩, (), hmask, rfl⟩

/-- An arena that `PayloadArena::from_ptr` accepts and whose capacity is that of the ring's header
lies in the mapping. -/
theorem within_of_fromPtr {x y : ArenaHeader} (hvalid : m.header.Valid m.len)
    (hoffset : m.header.arenaOffset ≠ 0) (hptr : fromPtr x = .ok y)
    (hsize : y.capacity = m.header.arenaSize) :
    ArenaView.Within ⟨m.header.arenaOffset, y.capacity, y.mask⟩ m.len := by
  obtain ⟨rfl, -, hle, hmask⟩ := fromPtr_eq_ok.mp hptr
  apply ArenaView.within_of_pos m.fits
  · exact Nat.lt_of_lt_of_le (by decide) hle
  · exact hmask
  · rw [hsize]
    exact (hvalid.arena hoffset).2

/-- `SourceRing::open` takes up an arena that lies in the mapping, unless it has no bytes. -/
theorem openSource_within (hopen : openSource m = .ok (some a)) (h : ¬ m.EmptyArena) :
    a.Within m.len := by
  obtain ⟨hvalid, halign, hflag, hdescriptor, hoffset, hsize, hmask, harena⟩ :=
    openSource_eq_some.mp hopen
  have hne : m.header.arenaOffset ≠ 0 := by
    intro hzero
    rw [hzero] at harena
    apply arenaHeader_zero_ne hvalid
    rw [harena]
    exact hmask
  have hend := (hvalid.arena hne).2
  have hfits := m.fits
  rw [← hsize, ← hoffset] at hend
  rcases Nat.eq_zero_or_pos a.capacity with hzero | hpos
  · have hones : a.mask = 2 ^ 64 - 1 := by
      rw [hmask, hzero]
      rfl
    rw [ArenaView.within_iff_of_empty hfits hzero hones (by omega)]
    by_contra hlow
    apply h
    rw [hzero, hones] at harena
    exact ⟨hvalid, halign, hflag, hdescriptor, by omega, harena, by omega⟩
  · apply ArenaView.within_of_pos hfits hpos ?_ hend
    unfold isizeMax at hfits
    rw [hmask]
    omega

/-- And `SourceRing::open` does take up an arena without bytes. -/
theorem Mapping.EmptyArena.exists_not_within (h : m.EmptyArena) :
    ∃ a, openSource m = .ok (some a) ∧ ¬ a.Within m.len := by
  have hones : 2 ^ 64 - 1 = (0 + 2 ^ 64 - 1) % 2 ^ 64 := by decide
  have hne : m.header.arenaOffset ≠ 0 := by
    intro hzero
    have harena := h.header
    rw [hzero] at harena
    apply arenaHeader_zero_ne h.valid
    rw [harena]
    exact hones
  obtain ⟨a, hoffset, hcapacity, hmask⟩ : ∃ a : ArenaView,
      a.offset = m.header.arenaOffset ∧ a.capacity = 0 ∧ a.mask = 2 ^ 64 - 1 :=
    ⟨⟨_, _, _⟩, rfl, rfl, rfl⟩
  refine ⟨a, ?_, ?_⟩
  · rw [openSource_eq_some, hcapacity, hmask]
    exact ⟨h.valid, h.align, h.flag, h.descriptor, hoffset, h.size.symm, hones, h.header⟩
  · have hend := (h.valid.arena hne).2
    rw [ArenaView.within_iff_of_empty m.fits hcapacity hmask (by omega), hoffset]
    exact Nat.not_le.mpr h.low

/-- `BlobConsumer::attach_with_name` takes up an arena that lies in the mapping. -/
theorem attachBlob_within {slotSize slotAlign : ℕ} (h : attachBlob m slotSize slotAlign = .ok a) :
    a.Within m.len := by
  simp only [attachBlob, bind_eq_ok, require_eq_ok] at h
  obtain ⟨v, hv, -, hne, y, hptr, -, hsize, ha⟩ := h
  obtain rfl := Except.ok.inj ha
  exact within_of_fromPtr (Mapping.of_validateRing hv).1 hne hptr hsize

theorem adoptArena_eq_some {g g' : Geometry} {x : ArenaHeader} :
    g.adoptArena (some x) = some g' ↔
      g' = g ∧ ∃ y, fromPtr x = .ok y ∧ y.capacity = g.arenaSize := by
  unfold Geometry.adoptArena
  rw [Option.map_some]
  cases fromPtr x with
  | error e => simp
  | ok y =>
    simp only [Option.ite_none_right_eq_some, Option.some.injEq, Except.ok.injEq]
    constructor
    · rintro ⟨hsize, rfl⟩
      exact ⟨rfl, y, rfl, hsize⟩
    · rintro ⟨rfl, y', rfl, hsize⟩
      exact ⟨hsize, rfl⟩

/-- And so does `MirrorRing::adopt`. -/
theorem adoptMapping_within (h : adoptMapping m = some a) : a.Within m.len := by
  unfold adoptMapping at h
  split at h
  case h_2 => cases h
  case h_1 g hadopt =>
    split_ifs at h with hhas
    obtain rfl := Option.some.inj h
    unfold adopt at hadopt
    split at hadopt
    case h_1 => cases hadopt
    case h_2 v hv =>
      obtain ⟨hvalid, rfl⟩ := Mapping.of_validateRing hv
      dsimp only at hadopt
      split_ifs at hadopt with hhas'
      · obtain ⟨rfl, y, hptr, hsize⟩ := adoptArena_eq_some.mp hadopt
        have hne := Geometry.hasArena_iff.mp hhas
        have hwithin := within_of_fromPtr hvalid hne hptr hsize
        obtain ⟨rfl, -⟩ := fromPtr_eq_ok.mp hptr
        exact hwithin
      · obtain rfl := Option.some.inj hadopt
        exact absurd hhas hhas'

/-! ## The mapping as a whole -/

/-- Every slot lies in the mapping, whatever sequence number is looked up. -/
theorem slot_within (h : m.header.Valid m.len) (s : ℕ) :
    m.header.slotsOffset + (s &&& (m.header.capacity - 1)) * m.header.elementSize +
      m.header.elementSize ≤ m.len := by
  have hpos : 0 < m.header.capacity := by
    obtain ⟨k, hk⟩ := h.capacity
    rw [hk]
    exact Nat.two_pow_pos k
  have hlt : s &&& (m.header.capacity - 1) < m.header.capacity := by
    rw [Cyclic.and_mask_eq_mod h.capacity]
    exact Nat.mod_lt s hpos
  calc m.header.slotsOffset + (s &&& (m.header.capacity - 1)) * m.header.elementSize +
        m.header.elementSize
      = ((s &&& (m.header.capacity - 1)) + 1) * m.header.elementSize + m.header.slotsOffset := by
        rw [Nat.succ_mul]
        omega
    _ ≤ m.header.capacity * m.header.elementSize + m.header.slotsOffset :=
        Nat.add_le_add_right (Nat.mul_le_mul_right _ hlt) _
    _ ≤ m.len := h.slotsEnd

/-- Every reader slot lies in the mapping. -/
theorem readerSlot_within (h : m.header.Valid m.len) (hne : m.header.readerRegistryOffset ≠ 0)
    {i : ℕ} (hi : i < m.header.readerRegistryCount) :
    m.header.readerRegistryOffset + i * readerSlotLen + readerSlotLen ≤ m.len := by
  have hend := (h.registry hne).2
  unfold readerSlotLen at hend ⊢
  omega

/-- **When the checks of a header are enough.** Whatever the bytes of a mapping are, no access
leaves it once the checks have passed, unless it has an arena of no bytes that `SourceRing::open`
takes up. -/
theorem header_sound_iff (m : Mapping) : m.Sound ↔ ¬ m.EmptyArena := by
  constructor
  · intro hsound hempty
    obtain ⟨a, hopen, hout⟩ := hempty.exists_not_within
    exact hout (hsound.source a hopen)
  · intro h
    refine ⟨?_, ?_, ?_, ?_, ?_, ?_⟩
    · intro expectedSlotSize slotAlign v hv s _
      obtain ⟨hvalid, rfl⟩ := Mapping.of_validateRing hv
      exact slot_within hvalid s
    · intro expectedSlotSize slotAlign v hv hne i hi
      exact readerSlot_within (Mapping.of_validateRing hv).1 hne hi
    · intro expectedSlotSize slotAlign v hv hne
      have hend := ((Mapping.of_validateRing hv).1.arena hne).2
      omega
    · intro a hopen
      exact openSource_within hopen h
    · intro slotSize slotAlign a hopen
      exact attachBlob_within hopen
    · intro a hopen
      exact adoptMapping_within hopen

/-- A ring of two slots of 24 bytes, at 128, with an arena of no bytes at 192. -/
def hollowMapping : Mapping where
  len := 256
  bytes i :=
    match i with
    | 0 => 0x45 | 1 => 0x52 | 2 => 0x49 | 3 => 0x46 | 4 => 0x47 | 5 => 0x4E | 6 => 0x49 | 7 => 0x52
    | 8 => 2
    | 12 => 24
    | 16 => 2
    | 24 => 1
    | 49 => 1
    | 80 => 192
    | 104 => 128
    | i => if 200 ≤ i ∧ i < 208 then 0xFF else 0
  fits := by decide

theorem hollowMapping_header : hollowMapping.header =
    ⟨ringfireMagic, 2, 24, 2, 1, flagWithArena, 0, 192, 0, 0, 0, 128⟩ := by decide +kernel

theorem hollowMapping_emptyArena : hollowMapping.EmptyArena := by
  have hlen : hollowMapping.len = 256 := rfl
  refine ⟨?_, ?_, ?_, ?_, ?_, ?_, ?_⟩
  · rw [hollowMapping_header, hlen]
    refine ⟨by decide, rfl, rfl, by decide, ⟨1, rfl⟩, rfl, by decide, by decide, ?_, ?_⟩
    · exact fun h => absurd rfl h
    · exact fun _ => ⟨by decide, by decide⟩
  · rw [hollowMapping_header]
    decide
  · rw [hollowMapping_header]
    decide
  · rw [hollowMapping_header]
    decide
  · rw [hollowMapping_header]
  · rw [hollowMapping_header]
    decide +kernel
  · rw [hollowMapping_header]
    decide

/-- The blob of `2 ^ 32 - 1` bytes at `2 ^ 64 - (2 ^ 32 - 1)` passes, and its first byte is read
from in front of the mapping. -/
theorem hollowMapping_not_sound : ¬ hollowMapping.Sound := by
  intro hsound
  obtain ⟨a, hopen, hout⟩ := hollowMapping_emptyArena.exists_not_within
  exact hout (hsound.source a hopen)

end Layout

end Ringfire
