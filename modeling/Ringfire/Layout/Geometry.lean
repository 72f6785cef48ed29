import Mathlib.Order.CompletePartialOrder
import Ringfire.Layout.Header
import Ringfire.Replication.Wire

/-!
# The geometry of a ring on the wire

A source tells its mirrors the layout of its ring in 48 bytes, and a mirror creates a ring with the
same layout. `Geometry::from_header` reads the layout off the source's header, `decode` checks what
arrives, `MirrorRing::create` lays the mirror ring out, and `MirrorRing::adopt` takes it over again
after a restart. `Created` lists the layouts there are: those of `RingProducer`, `BlobProducer`,
`MpmcProducer`, the C API and `MirrorRing::create`.

## Main definitions

* `Geometry.fromHeader`, `Geometry.encode`, `Geometry.decode`, `Geometry.totalLen`
* `Created`: the layout and the length of a ring that one of the creators made
* `Geometry.mirrorLayout`, `adopt`

## Main results

* `Geometry.decode_eq_ok`: which byte strings are accepted
* `Created.exchanged`: the geometry of a created ring is accepted and read back
* `geometry_exchange`: the exchange is faithful and safe
-/

namespace Ringfire

namespace Layout

open Checked LittleEndian

/-- `GEOMETRY_LEN`. -/
def geometryLen : ℕ := 48

/-- `Geometry`. -/
structure Geometry where
  capacity : ℕ
  elementSize : ℕ
  flags : ℕ
  schemaSig : ℕ
  registryCount : ℕ
  slotsOffset : ℕ
  arenaOffset : ℕ
  arenaSize : ℕ
  deriving DecidableEq

namespace Geometry

/-- `from_header`: the sizes and offsets are cut to the width of their fields. -/
def fromHeader (h : RingHeader) (v : RingView) : Geometry where
  capacity := v.capacity
  elementSize := v.slotSize % 2 ^ 32
  flags := h.flags
  schemaSig := h.schemaSig
  registryCount := h.readerRegistryCount
  slotsOffset := v.slotsOffset % 2 ^ 32
  arenaOffset := h.arenaOffset
  arenaSize := h.arenaSize

/-- `payload_len`. -/
def payloadLen (g : Geometry) : ℕ := g.elementSize - 8

/-- `has_arena`. -/
def hasArena (g : Geometry) : Bool := g.arenaOffset ≠ 0

/-- `same_layout`. -/
def sameLayout (g other : Geometry) : Bool :=
  g.capacity = other.capacity ∧ g.elementSize = other.elementSize ∧
    g.schemaSig = other.schemaSig ∧ g.registryCount = other.registryCount ∧
    g.slotsOffset = other.slotsOffset ∧ g.arenaOffset = other.arenaOffset ∧
    g.arenaSize = other.arenaSize

/-- `mirror_flags`. -/
def mirrorFlags (g : Geometry) : ℕ :=
  flagModeSpmc ||| flagPolicyLatestWins ||| flagSparse |||
    (if 0 < g.registryCount then flagWithRegistry else 0) |||
    (if g.hasArena then flagWithArena else 0)

/-- `total_len`, whose sums and products are not checked. -/
def totalLen (g : Geometry) : ℕ :=
  if g.hasArena then (g.arenaOffset + arenaHeaderLen + g.arenaSize) % 2 ^ 64
  else (g.slotsOffset + g.capacity * g.elementSize) % 2 ^ 64

/-- `encode`. -/
def encode (g : Geometry) : List UInt8 :=
  toLe 8 g.capacity ++ toLe 4 g.elementSize ++ toLe 4 g.flags ++ toLe 8 g.schemaSig ++
    toLe 4 g.registryCount ++ toLe 4 g.slotsOffset ++ toLe 8 g.arenaOffset ++ toLe 8 g.arenaSize

/-- The fields that 48 bytes spell. -/
def read (b : List UInt8) : Geometry where
  capacity := ofLe (b.take 8)
  elementSize := ofLe ((b.drop 8).take 4)
  flags := ofLe ((b.drop 12).take 4)
  schemaSig := ofLe ((b.drop 16).take 8)
  registryCount := ofLe ((b.drop 24).take 4)
  slotsOffset := ofLe ((b.drop 28).take 4)
  arenaOffset := ofLe ((b.drop 32).take 8)
  arenaSize := ofLe ((b.drop 40).take 8)

/-- The checks `decode` makes on an arena. -/
def checkArena (g : Geometry) (slotsEnd : ℕ) : Except RingfireError Unit := do
  require (slotsEnd ≤ g.arenaOffset ∧ 64 ∣ g.arenaOffset)
    (.protocol "geometry arena offset is misplaced")
  require (isPowerOfTwo g.arenaSize = true ∧ 64 ≤ g.arenaSize)
    (.protocol "geometry arena size is not a power of two")
  require (blobRefLen ≤ g.payloadLen) (.protocol "geometry arena ring has no blob descriptor")
  require (((add g.arenaOffset arenaHeaderLen).bind fun b => add b g.arenaSize).isSome = true)
    (.protocol "geometry does not fit in memory")

/-- The checks of `decode`. -/
def check (g : Geometry) : Except RingfireError Geometry := do
  require (isPowerOfTwo g.capacity = true) (.protocol "geometry capacity is not a power of two")
  require (8 ≤ g.elementSize ∧ 8 ∣ g.elementSize)
    (.protocol "geometry element size is not a multiple of 8")
  require (ringHeaderLen + g.registryCount * readerSlotLen ≤ g.slotsOffset ∧ 64 ∣ g.slotsOffset)
    (.protocol "geometry slots offset is misplaced")
  match (mul g.capacity g.elementSize).bind fun b => add b g.slotsOffset with
  | none => .error (.protocol "geometry does not fit in memory")
  | some slotsEnd =>
    -- what is not there must have no size
    if g.hasArena then g.checkArena slotsEnd
    else require (g.arenaSize = 0) (.protocol "geometry arena size without an arena")
    return g

/-- `decode`. -/
def decode (b : List UInt8) : Except RingfireError Geometry := (read b).check

/-- Every field fits its width. -/
structure InRange (g : Geometry) : Prop where
  capacity : g.capacity < 256 ^ 8
  elementSize : g.elementSize < 256 ^ 4
  flags : g.flags < 256 ^ 4
  schemaSig : g.schemaSig < 256 ^ 8
  registryCount : g.registryCount < 256 ^ 4
  slotsOffset : g.slotsOffset < 256 ^ 4
  arenaOffset : g.arenaOffset < 256 ^ 8
  arenaSize : g.arenaSize < 256 ^ 8

/-- What `decode` makes sure of. -/
structure Accepted (g : Geometry) : Prop where
  capacity : ∃ k, g.capacity = 2 ^ k
  elementSize : 8 ≤ g.elementSize
  words : 8 ∣ g.elementSize
  slotsOffset : ringHeaderLen + g.registryCount * readerSlotLen ≤ g.slotsOffset
  slotsAligned : 64 ∣ g.slotsOffset
  slotsEnd : g.capacity * g.elementSize + g.slotsOffset < 2 ^ 64
  noArena : g.arenaOffset = 0 → g.arenaSize = 0
  arenaOffset : g.arenaOffset ≠ 0 →
    g.capacity * g.elementSize + g.slotsOffset ≤ g.arenaOffset ∧ 64 ∣ g.arenaOffset
  arenaSize : g.arenaOffset ≠ 0 → (∃ k, g.arenaSize = 2 ^ k) ∧ 64 ≤ g.arenaSize
  descriptor : g.arenaOffset ≠ 0 → blobRefLen ≤ g.payloadLen
  arenaEnd : g.arenaOffset ≠ 0 → g.arenaOffset + arenaHeaderLen + g.arenaSize < 2 ^ 64

variable {g g' : Geometry} {b : List UInt8}

theorem hasArena_iff : g.hasArena = true ↔ g.arenaOffset ≠ 0 := decide_eq_true_iff

/-- **What is encoded is read back.** -/
theorem read_encode (h : g.InRange) : read g.encode = g := by
  have hcapacity : ofLe ((g.encode.drop 0).take 8) = g.capacity :=
    ofLe_field [] _ (by simp only [encode, List.append_assoc, List.nil_append]; rfl) rfl h.capacity
  have helement : ofLe ((g.encode.drop 8).take 4) = g.elementSize :=
    ofLe_field (toLe 8 g.capacity) _ (by simp only [encode, List.append_assoc]; rfl) (by simp)
      h.elementSize
  have hflags : ofLe ((g.encode.drop 12).take 4) = g.flags :=
    ofLe_field (toLe 8 g.capacity ++ toLe 4 g.elementSize) _
      (by simp only [encode, List.append_assoc]; rfl) (by simp) h.flags
  have hschema : ofLe ((g.encode.drop 16).take 8) = g.schemaSig :=
    ofLe_field (toLe 8 g.capacity ++ toLe 4 g.elementSize ++ toLe 4 g.flags) _
      (by simp only [encode, List.append_assoc]; rfl) (by simp) h.schemaSig
  have hregistry : ofLe ((g.encode.drop 24).take 4) = g.registryCount :=
    ofLe_field (toLe 8 g.capacity ++ toLe 4 g.elementSize ++ toLe 4 g.flags ++
      toLe 8 g.schemaSig) _
      (by simp only [encode, List.append_assoc]; rfl) (by simp) h.registryCount
  have hslots : ofLe ((g.encode.drop 28).take 4) = g.slotsOffset :=
    ofLe_field (toLe 8 g.capacity ++ toLe 4 g.elementSize ++ toLe 4 g.flags ++
      toLe 8 g.schemaSig ++ toLe 4 g.registryCount) _
      (by simp only [encode, List.append_assoc]; rfl) (by simp) h.slotsOffset
  have harena : ofLe ((g.encode.drop 32).take 8) = g.arenaOffset :=
    ofLe_field (toLe 8 g.capacity ++ toLe 4 g.elementSize ++ toLe 4 g.flags ++
      toLe 8 g.schemaSig ++ toLe 4 g.registryCount ++ toLe 4 g.slotsOffset) _
      (by simp only [encode, List.append_assoc]; rfl) (by simp) h.arenaOffset
  have hsize : ofLe ((g.encode.drop 40).take 8) = g.arenaSize :=
    ofLe_field (toLe 8 g.capacity ++ toLe 4 g.elementSize ++ toLe 4 g.flags ++
      toLe 8 g.schemaSig ++ toLe 4 g.registryCount ++ toLe 4 g.slotsOffset ++
      toLe 8 g.arenaOffset) [] (by simp only [encode, List.append_assoc, List.append_nil])
      (by simp) h.arenaSize
  rw [List.drop_zero] at hcapacity
  simp only [read, hcapacity, helement, hflags, hschema, hregistry, hslots, harena, hsize]

/-- The checks on an arena. -/
theorem checkArena_eq_ok {slotsEnd : ℕ} {u : Unit} :
    g.checkArena slotsEnd = .ok u ↔
      (slotsEnd ≤ g.arenaOffset ∧ 64 ∣ g.arenaOffset) ∧
      ((∃ k, g.arenaSize = 2 ^ k) ∧ 64 ≤ g.arenaSize) ∧ blobRefLen ≤ g.payloadLen ∧
      g.arenaOffset + arenaHeaderLen + g.arenaSize < 2 ^ 64 := by
  have hend : ((add g.arenaOffset arenaHeaderLen).bind fun b => add b g.arenaSize).isSome = true ↔
      g.arenaOffset + arenaHeaderLen + g.arenaSize < 2 ^ 64 := by
    rw [Option.isSome_iff_exists]
    simp only [add_add_eq_some, exists_and_left, exists_eq', and_true]
  simp only [checkArena, bind_eq_ok, require_eq_ok, isPowerOfTwo_iff, hend, exists_const]

/-- **Which geometries are accepted.** -/
theorem check_eq_ok : g.check = .ok g' ↔ g.Accepted ∧ g' = g := by
  simp only [check, bind_eq_ok, require_eq_ok, isPowerOfTwo_iff, exists_const]
  cases hend : (mul g.capacity g.elementSize).bind fun b => add b g.slotsOffset with
  | none =>
    constructor
    · rintro ⟨-, -, -, ⟨⟩⟩
    · rintro ⟨hg, -⟩
      rw [mul_add_eq_some.mpr ⟨hg.slotsEnd, rfl⟩] at hend
      cases hend
  | some slotsEnd =>
    obtain ⟨hlt, rfl⟩ := mul_add_eq_some.mp hend
    by_cases harena : g.arenaOffset = 0
    · have hhas : ¬ g.hasArena = true := fun hhas => hasArena_iff.mp hhas harena
      simp only [if_neg hhas, bind_eq_ok, require_eq_ok, exists_const]
      constructor
      · rintro ⟨hcap, ⟨hsize, hwords⟩, ⟨hslots, haligned⟩, hnone, ⟨⟩⟩
        exact ⟨⟨hcap, hsize, hwords, hslots, haligned, hlt, fun _ => hnone, fun h => absurd harena h,
          fun h => absurd harena h, fun h => absurd harena h, fun h => absurd harena h⟩, rfl⟩
      · rintro ⟨hg, rfl⟩
        exact ⟨hg.capacity, ⟨hg.elementSize, hg.words⟩, ⟨hg.slotsOffset, hg.slotsAligned⟩,
          hg.noArena harena, rfl⟩
    · have hhas : g.hasArena = true := hasArena_iff.mpr harena
      simp only [if_pos hhas, bind_eq_ok, checkArena_eq_ok, exists_const]
      constructor
      · rintro ⟨hcap, ⟨hsize, hwords⟩, ⟨hslots, haligned⟩, ⟨hoff, hasize, href, hlast⟩, ⟨⟩⟩
        exact ⟨⟨hcap, hsize, hwords, hslots, haligned, hlt, fun h => absurd h harena, fun _ => hoff,
          fun _ => hasize, fun _ => href, fun _ => hlast⟩, rfl⟩
      · rintro ⟨hg, rfl⟩
        exact ⟨hg.capacity, ⟨hg.elementSize, hg.words⟩, ⟨hg.slotsOffset, hg.slotsAligned⟩,
          ⟨hg.arenaOffset harena, hg.arenaSize harena, hg.descriptor harena, hg.arenaEnd harena⟩,
          rfl⟩

end Geometry

/-! ## The layouts there are -/

/-- The size and the alignment of a type. -/
structure TypeLayout where
  size : ℕ
  align : ℕ
  align_pow : ∃ k, align = 2 ^ k

namespace TypeLayout

/-- `align_of::<Slot<T>>()`. -/
def slotAlign (t : TypeLayout) : ℕ := max t.align 8

/-- `size_of::<Slot<T>>()`: the sequence word, and the payload behind it. -/
def slotSize (t : TypeLayout) : ℕ := alignUp (alignUp 8 t.slotAlign + t.size) t.slotAlign

end TypeLayout

/-- `RingProducer::create_with_options`; a lossless ring has readers. -/
def ringLayout (t : TypeLayout) (capacity maxReaders schemaSig : ℕ) (lossless : Bool) :
    RingLayout :=
  let maxReaders := if lossless ∧ maxReaders = 0 then 32 else maxReaders
  { capacity := capacity
    slotSize := t.slotSize
    flags := (if lossless then flagPolicyLosslessBackpressure else flagPolicyLatestWins) |||
      flagModeSpmc ||| if 0 < maxReaders then flagWithRegistry else 0
    schemaSig := schemaSig
    registryOffset := if 0 < maxReaders then ringHeaderLen else 0
    registryCount := maxReaders
    slotsOffset := alignUp (ringHeaderLen + maxReaders * readerSlotLen) (max t.slotAlign 64)
    arenaOffset := 0
    arenaSize := 0 }

/-- `MpmcProducer::create`. -/
def mpmcLayout (t : TypeLayout) (capacity schemaSig : ℕ) : RingLayout where
  capacity := capacity
  slotSize := t.slotSize
  flags := flagPolicyLatestWins ||| flagModeMpmc
  schemaSig := schemaSig
  registryOffset := 0
  registryCount := 0
  slotsOffset := alignUp ringHeaderLen t.slotAlign
  arenaOffset := 0
  arenaSize := 0

/-- `BlobProducer::create_with_options`. -/
def blobLayout (m : SlotLayout) (capacity arenaCapacity maxReaders schemaSig : ℕ) :
    RingLayout :=
  let slotsOffset := alignUp (ringHeaderLen + maxReaders * readerSlotLen) 128
  { capacity := capacity
    slotSize := m.slotSize
    flags := flagPolicyLatestWins ||| flagModeSpmc ||| flagWithArena ||| flagWithRegistry
    schemaSig := schemaSig
    registryOffset := ringHeaderLen
    registryCount := maxReaders
    slotsOffset := slotsOffset
    arenaOffset := alignUp (slotsOffset + capacity * m.slotSize) 128
    arenaSize := arenaCapacity }

/-- `ringfire_producer_create`. -/
def rawLayout (capacity elementSize : ℕ) : RingLayout where
  capacity := capacity
  slotSize := alignUp (8 + elementSize) 8
  flags := flagPolicyLatestWins ||| flagModeSpmc
  schemaSig := 0
  registryOffset := 0
  registryCount := 0
  slotsOffset := ringHeaderLen
  arenaOffset := 0
  arenaSize := 0

/-- `MirrorRing::create`. -/
def Geometry.mirrorLayout (g : Geometry) : RingLayout where
  capacity := g.capacity
  slotSize := g.elementSize
  flags := g.mirrorFlags
  schemaSig := g.schemaSig
  registryOffset := if 0 < g.registryCount then ringHeaderLen else 0
  registryCount := g.registryCount
  slotsOffset := g.slotsOffset
  arenaOffset := g.arenaOffset
  arenaSize := g.arenaSize

/-- Where the slots of a ring without an arena end. -/
def RingLayout.slotsEnd (l : RingLayout) : ℕ := l.slotsOffset + l.capacity * l.slotSize

/-- The layout of a ring and the length of its file, as its creator chose them. -/
inductive Created : RingLayout → ℕ → Prop where
  | ring (t : TypeLayout) (capacity maxReaders schemaSig : ℕ) (lossless : Bool)
      (power : isPowerOfTwo capacity = true) (sig : schemaSig < 2 ^ 64) :
      Created (ringLayout t capacity maxReaders schemaSig lossless)
        (ringLayout t capacity maxReaders schemaSig lossless).slotsEnd
  | mpmc (t : TypeLayout) (capacity schemaSig : ℕ) (power : isPowerOfTwo capacity = true)
      (sig : schemaSig < 2 ^ 64) :
      Created (mpmcLayout t capacity schemaSig) (mpmcLayout t capacity schemaSig).slotsEnd
  | blob (m : SlotLayout) (align : ∃ k, m.align = 2 ^ k)
      (capacity arenaCapacity maxReaders schemaSig : ℕ) (power : isPowerOfTwo capacity = true)
      (arena : isPowerOfTwo arenaCapacity = true ∧ 64 ≤ arenaCapacity)
      (sig : schemaSig < 2 ^ 64) :
      Created (blobLayout m capacity arenaCapacity maxReaders schemaSig)
        ((blobLayout m capacity arenaCapacity maxReaders schemaSig).arenaOffset +
          (arenaHeaderLen + arenaCapacity))
  | raw (capacity elementSize : ℕ) (power : isPowerOfTwo capacity = true)
      (size : elementSize ≠ 0) :
      Created (rawLayout capacity elementSize) (rawLayout capacity elementSize).slotsEnd
  | mirror (b : List UInt8) (g : Geometry) (len : b.length = geometryLen)
      (accepted : Geometry.decode b = .ok g) : Created g.mirrorLayout g.totalLen

/-- The sizes and offsets that are stored or sent in 32 bits fit. -/
structure RingLayout.Fits (l : RingLayout) : Prop where
  slotSize : l.slotSize < 2 ^ 32
  registryCount : l.registryCount < 2 ^ 32
  slotsOffset : l.slotsOffset < 2 ^ 32

/-- The parts of a ring. -/
def RingLayout.regions (l : RingLayout) : List (Set ℕ) :=
  [Set.Ico 0 ringHeaderLen,
    Set.Ico l.registryOffset (l.registryOffset + l.registryCount * readerSlotLen),
    Set.Ico l.slotsOffset (l.slotsOffset + l.capacity * l.slotSize),
    if l.arenaOffset = 0 then ∅
    else Set.Ico l.arenaOffset (l.arenaOffset + arenaHeaderLen + l.arenaSize)]

/-- What all layouts have in common: the parts follow one another and are aligned. -/
structure RingLayout.Sound (l : RingLayout) (total : ℕ) : Prop where
  capacity : ∃ k, l.capacity = 2 ^ k
  slotSize : 8 ≤ l.slotSize
  words : 8 ∣ l.slotSize
  flags : l.flags < 2 ^ 32
  schemaSig : l.schemaSig < 2 ^ 64
  registry : l.registryOffset = ringHeaderLen ∨ l.registryOffset = 0 ∧ l.registryCount = 0
  slotsOffset : ringHeaderLen + l.registryCount * readerSlotLen ≤ l.slotsOffset
  slotsAligned : 64 ∣ l.slotsOffset
  noArena : l.arenaOffset = 0 → l.arenaSize = 0 ∧ l.slotsEnd ≤ total
  arenaOffset : l.arenaOffset ≠ 0 → l.slotsEnd ≤ l.arenaOffset ∧ 64 ∣ l.arenaOffset
  arenaSize : l.arenaOffset ≠ 0 → (∃ k, l.arenaSize = 2 ^ k) ∧ 64 ≤ l.arenaSize
  descriptor : l.arenaOffset ≠ 0 → 8 + blobRefLen ≤ l.slotSize
  arenaEnd : l.arenaOffset ≠ 0 → l.arenaOffset + arenaHeaderLen + l.arenaSize ≤ total

/-! ## Every layout is sound -/

/-- A power of two that is not below another is a multiple of it. -/
theorem pow_dvd_max {a : ℕ} (h : ∃ k, a = 2 ^ k) (j : ℕ) : 2 ^ j ∣ max a (2 ^ j) := by
  obtain ⟨k, rfl⟩ := h
  rcases le_total k j with hle | hle
  · rw [max_eq_right (Nat.pow_le_pow_right (by decide) hle)]
  · rw [max_eq_left (Nat.pow_le_pow_right (by decide) hle)]
    exact pow_dvd_pow 2 hle

namespace TypeLayout

variable (t : TypeLayout)

theorem eight_dvd_slotAlign : 8 ∣ t.slotAlign := pow_dvd_max t.align_pow 3

theorem slotAlign_pos : 0 < t.slotAlign := Nat.lt_of_lt_of_le (by decide) (le_max_right t.align 8)

theorem eight_dvd_slotSize : 8 ∣ t.slotSize :=
  t.eight_dvd_slotAlign.trans (SlotLayout.dvd_alignUp _ _)

theorem eight_le_slotSize : 8 ≤ t.slotSize :=
  calc 8 ≤ alignUp 8 t.slotAlign := SlotLayout.le_alignUp t.slotAlign_pos 8
    _ ≤ alignUp 8 t.slotAlign + t.size := Nat.le_add_right _ _
    _ ≤ t.slotSize := SlotLayout.le_alignUp t.slotAlign_pos _

/-- The slots of a ring without a registry start at a multiple of 64. -/
theorem dvd_alignUp_header : 64 ∣ alignUp ringHeaderLen t.slotAlign := by
  obtain ⟨k, hk⟩ : ∃ k, t.slotAlign = 2 ^ k := by
    obtain ⟨k, hk⟩ := t.align_pow
    rcases le_total t.align 8 with hle | hle
    · exact ⟨3, max_eq_right hle⟩
    · exact ⟨k, (max_eq_left hle).trans hk⟩
  rcases Nat.lt_or_ge k 6 with hlt | hge
  · have hdvd : t.slotAlign ∣ ringHeaderLen := by
      rw [hk]
      exact pow_dvd_pow 2 (by omega : k ≤ 7)
    rw [SlotLayout.alignUp_eq_self t.slotAlign_pos hdvd]
    decide
  · have hdvd : 64 ∣ t.slotAlign := by
      rw [hk]
      exact pow_dvd_pow 2 hge
    exact hdvd.trans (SlotLayout.dvd_alignUp _ _)

end TypeLayout

/-- A ring whose slots end the file. -/
theorem RingLayout.Sound.of_noArena {l : RingLayout} (capacity : ∃ k, l.capacity = 2 ^ k)
    (slotSize : 8 ≤ l.slotSize ∧ 8 ∣ l.slotSize) (flags : l.flags < 2 ^ 32)
    (schemaSig : l.schemaSig < 2 ^ 64)
    (registry : l.registryOffset = ringHeaderLen ∨ l.registryOffset = 0 ∧ l.registryCount = 0)
    (slotsOffset : ringHeaderLen + l.registryCount * readerSlotLen ≤ l.slotsOffset)
    (slotsAligned : 64 ∣ l.slotsOffset) (arena : l.arenaOffset = 0 ∧ l.arenaSize = 0) :
    l.Sound l.slotsEnd where
  capacity := capacity
  slotSize := slotSize.1
  words := slotSize.2
  flags := flags
  schemaSig := schemaSig
  registry := registry
  slotsOffset := slotsOffset
  slotsAligned := slotsAligned
  noArena _ := ⟨arena.2, le_refl _⟩
  arenaOffset h := absurd arena.1 h
  arenaSize h := absurd arena.1 h
  descriptor h := absurd arena.1 h
  arenaEnd h := absurd arena.1 h

namespace Geometry

variable {g : Geometry}

/-- The sum that `total_len` computes does not overflow. -/
theorem Accepted.totalLen_eq (h : g.Accepted) :
    g.totalLen = if g.arenaOffset = 0 then g.slotsOffset + g.capacity * g.elementSize
      else g.arenaOffset + arenaHeaderLen + g.arenaSize := by
  have hend := h.slotsEnd
  unfold totalLen
  by_cases harena : g.arenaOffset = 0
  · have hhas : ¬ g.hasArena = true := fun hhas => hasArena_iff.mp hhas harena
    rw [if_neg hhas, if_pos harena]
    apply Nat.mod_eq_of_lt
    omega
  · have hhas : g.hasArena = true := hasArena_iff.mpr harena
    rw [if_pos hhas, if_neg harena]
    exact Nat.mod_eq_of_lt (h.arenaEnd harena)

theorem mirrorFlags_lt (g : Geometry) : g.mirrorFlags < 2 ^ 32 := by
  unfold mirrorFlags
  split_ifs <;> decide

/-- The ring a mirror creates is laid out as it was told. -/
theorem Accepted.sound (h : g.Accepted) (hsig : g.schemaSig < 2 ^ 64) :
    g.mirrorLayout.Sound g.totalLen where
  capacity := h.capacity
  slotSize := h.elementSize
  words := h.words
  flags := g.mirrorFlags_lt
  schemaSig := hsig
  registry := by
    by_cases hpos : 0 < g.registryCount
    · exact .inl (if_pos hpos)
    · exact .inr ⟨if_neg hpos, Nat.eq_zero_of_not_pos hpos⟩
  slotsOffset := h.slotsOffset
  slotsAligned := h.slotsAligned
  noArena harena := by
    refine ⟨h.noArena harena, ?_⟩
    rw [h.totalLen_eq, if_pos (show g.arenaOffset = 0 from harena)]
    exact le_refl _
  arenaOffset harena := by
    obtain ⟨hle, hdvd⟩ := h.arenaOffset harena
    refine ⟨?_, hdvd⟩
    rw [RingLayout.slotsEnd, Nat.add_comm]
    exact hle
  arenaSize := h.arenaSize
  descriptor harena := by
    have href := h.descriptor harena
    have hsize := h.elementSize
    unfold payloadLen at href
    show 8 + blobRefLen ≤ g.elementSize
    omega
  arenaEnd harena := by
    rw [h.totalLen_eq, if_neg (show g.arenaOffset ≠ 0 from harena)]
    exact le_refl _

theorem read_schemaSig_lt (b : List UInt8) : (read b).schemaSig < 2 ^ 64 := by
  have hlt : (read b).schemaSig < 256 ^ 8 :=
    (ofLe_lt _).trans_le (Nat.pow_le_pow_right (by decide) (List.length_take_le _ _))
  exact hlt

end Geometry

/-- **The layouts of all creators are sound.** -/
theorem Created.sound {l : RingLayout} {total : ℕ} (h : Created l total) : l.Sound total := by
  cases h with
  | ring t capacity maxReaders schemaSig lossless power sig =>
    -- slots aligned to their type and to a cache line, behind a registry that may be empty
    have hpos : 0 < max t.slotAlign 64 := Nat.lt_of_lt_of_le (by decide) (le_max_right _ 64)
    refine .of_noArena (isPowerOfTwo_iff.mp power) ⟨t.eight_le_slotSize, t.eight_dvd_slotSize⟩ ?_
      sig ?_ (SlotLayout.le_alignUp hpos _) ?_ ⟨rfl, rfl⟩
    · simp only [ringLayout]
      split_ifs <;> decide
    · simp only [ringLayout]
      generalize (if lossless = true ∧ maxReaders = 0 then 32 else maxReaders) = n
      by_cases hn : 0 < n
      · exact .inl (if_pos hn)
      · exact .inr ⟨if_neg hn, Nat.eq_zero_of_not_pos hn⟩
    · have hdvd : 64 ∣ max t.slotAlign 64 := by
        rw [TypeLayout.slotAlign, max_assoc]
        exact pow_dvd_max t.align_pow 6
      exact hdvd.trans (SlotLayout.dvd_alignUp _ _)
  | mpmc t capacity schemaSig power sig =>
    -- no registry: the slots follow the header
    refine .of_noArena (isPowerOfTwo_iff.mp power) ⟨t.eight_le_slotSize, t.eight_dvd_slotSize⟩
      (by decide : flagPolicyLatestWins ||| flagModeMpmc < 2 ^ 32) sig (.inr ⟨rfl, rfl⟩) ?_
      t.dvd_alignUp_header ⟨rfl, rfl⟩
    exact SlotLayout.le_alignUp t.slotAlign_pos _
  | raw capacity elementSize power size =>
    refine .of_noArena (isPowerOfTwo_iff.mp power) ⟨?_, SlotLayout.dvd_alignUp _ _⟩
      (by decide : flagPolicyLatestWins ||| flagModeSpmc < 2 ^ 32) (by decide : 0 < 2 ^ 64)
      (.inr ⟨rfl, rfl⟩) (le_refl ringHeaderLen) (by decide : 64 ∣ ringHeaderLen) ⟨rfl, rfl⟩
    calc 8 ≤ 8 + elementSize := Nat.le_add_right _ _
      _ ≤ alignUp (8 + elementSize) 8 := SlotLayout.le_alignUp (by decide) _
  | mirror b g len accepted =>
    -- a mirror has the layout of its source, as `decode` accepted it
    obtain ⟨hg, rfl⟩ := Geometry.check_eq_ok.mp accepted
    exact hg.sound (Geometry.read_schemaSig_lt b)
  | blob m align capacity arenaCapacity maxReaders schemaSig power arena sig =>
    -- registry, slots and arena one behind the other
    obtain ⟨hlow, hhigh⟩ := m.refEnd_le
    have hend : (blobLayout m capacity arenaCapacity maxReaders schemaSig).slotsEnd ≤
        (blobLayout m capacity arenaCapacity maxReaders schemaSig).arenaOffset :=
      SlotLayout.le_alignUp (by decide) _
    have hpacket : 8 ∣ m.packetAlign := pow_dvd_max align 3
    have harena : 64 ∣ (blobLayout m capacity arenaCapacity maxReaders schemaSig).arenaOffset :=
      (by decide : 64 ∣ 128).trans (SlotLayout.dvd_alignUp _ _)
    have hslots : ringHeaderLen + maxReaders * readerSlotLen ≤
        (blobLayout m capacity arenaCapacity maxReaders schemaSig).slotsOffset :=
      SlotLayout.le_alignUp (by decide) _
    exact {
      capacity := isPowerOfTwo_iff.mp power
      slotSize := (Nat.le_add_right 8 blobRefLen).trans (hlow.trans hhigh)
      words := hpacket.trans (SlotLayout.dvd_alignUp _ _)
      flags := (by decide : flagPolicyLatestWins ||| flagModeSpmc ||| flagWithArena |||
        flagWithRegistry < 2 ^ 32)
      schemaSig := sig
      registry := .inl rfl
      slotsOffset := hslots
      slotsAligned := (by decide : 64 ∣ 128).trans (SlotLayout.dvd_alignUp _ _)
      noArena := fun h0 => by
        have hpos : 0 < ringHeaderLen := by decide
        have hle : (blobLayout m capacity arenaCapacity maxReaders schemaSig).slotsOffset ≤
          (blobLayout m capacity arenaCapacity maxReaders schemaSig).slotsEnd := Nat.le_add_right _ _
        omega
      arenaOffset := fun _ => ⟨hend, harena⟩
      arenaSize := fun _ => ⟨isPowerOfTwo_iff.mp arena.1, arena.2⟩
      descriptor := fun _ => hlow.trans hhigh
      arenaEnd := fun _ => (Nat.add_assoc _ arenaHeaderLen arenaCapacity).le }

/-! ## From the layout to the mirror and back -/

/-- The header of a ring that was laid out and published. -/
def RingLayout.header (l : RingLayout) : RingHeader := (RingHeader.initializeFields l).publish

/-- `PayloadArena::init`: the header it writes. -/
def initArena (capacity : ℕ) : Except RingfireError ArenaHeader := do
  require (isPowerOfTwo capacity = true ∧ 64 ≤ capacity) (.invalidCapacity capacity)
  return ⟨capacity, capacity - 1⟩

/-- `PayloadArena::from_ptr`: the header it accepts. -/
def fromPtr (a : ArenaHeader) : Except RingfireError ArenaHeader := do
  require (isPowerOfTwo a.capacity = true ∧ 64 ≤ a.capacity) (.invalidCapacity a.capacity)
  require (a.mask = a.capacity - 1) (.corruptLayout "arena mask does not match its capacity")
  return a

/-- `MirrorRing::create`: the headers it writes. -/
def Geometry.create (g : Geometry) : Except RingfireError (RingHeader × Option ArenaHeader) :=
  if g.hasArena then do
    let arena ← initArena g.arenaSize
    return (g.mirrorLayout.header, some arena)
  else return (g.mirrorLayout.header, none)

/-- What `MirrorRing::adopt` makes of the header of an arena that the ring's header names. -/
def Geometry.adoptArena (g : Geometry) (arena : Option ArenaHeader) : Option Geometry :=
  match arena.map fromPtr with
  | some (.ok a) => if a.capacity = g.arenaSize then some g else none
  | _ => none

/-- `MirrorRing::adopt` once it has mapped the file: the geometry of the ring it takes over, if it
is one. -/
def adopt (h : RingHeader) (arena : Option ArenaHeader) (len : ℕ) : Option Geometry :=
  match validateRing h len none 8 with
  | .error _ => none
  | .ok v =>
    let g := Geometry.fromHeader h v
    if g.hasArena then g.adoptArena arena else some g

namespace RingLayout

variable {l : RingLayout} {total : ℕ}

/-- The slots of a sound layout end within the file, with or without an arena behind them. -/
theorem Sound.slotsEnd_le (h : l.Sound total) : l.slotsEnd ≤ total := by
  by_cases harena : l.arenaOffset = 0
  · exact (h.noArena harena).2
  · calc l.slotsEnd ≤ l.arenaOffset := (h.arenaOffset harena).1
      _ ≤ l.arenaOffset + arenaHeaderLen + l.arenaSize := by omega
      _ ≤ total := h.arenaEnd harena

theorem Sound.header_inRange (h : l.Sound total) (htotal : total < 2 ^ 64) :
    l.header.InRange := by
  have hsize := h.slotSize
  have hcap : l.capacity ≤ l.capacity * l.slotSize := Nat.le_mul_of_pos_right _ (by omega)
  have hend := h.slotsEnd_le
  unfold slotsEnd at hend
  have harenas : l.arenaOffset < 2 ^ 64 ∧ l.arenaSize < 2 ^ 64 := by
    by_cases harena : l.arenaOffset = 0
    · have hnone := (h.noArena harena).1
      omega
    · have hlast := h.arenaEnd harena
      omega
  obtain ⟨hoffset, harena⟩ := harenas
  exact {
    elementSize := Nat.mod_lt _ (by decide)
    capacity := (by omega : l.capacity < 2 ^ 64)
    flags := h.flags
    schemaSig := h.schemaSig
    arenaOffset := hoffset
    arenaSize := harena
    registryOffset := Nat.mod_lt _ (by decide)
    registryCount := Nat.mod_lt _ (by decide)
    slotsOffset := (by omega : l.slotsOffset < 2 ^ 64) }

/-- The header of a sound layout is right. -/
theorem Sound.valid (h : l.Sound total) (hfits : l.Fits) : l.header.Valid total := by
  have hsize : l.header.elementSize = l.slotSize := Nat.mod_eq_of_lt hfits.slotSize
  have hcount : l.header.readerRegistryCount = l.registryCount :=
    Nat.mod_eq_of_lt hfits.registryCount
  have hregistry : l.header.readerRegistryOffset = l.registryOffset := by
    apply Nat.mod_eq_of_lt
    rcases h.registry with heq | ⟨heq, -⟩
    · rw [heq]
      decide
    · rw [heq]
      decide
  have hslots := h.slotsOffset
  have hend := h.slotsEnd_le
  unfold slotsEnd at hend
  refine ⟨?_, rfl, rfl, ?_, h.capacity, rfl, ?_, ?_, fun hne => ?_, fun hne => ?_⟩
  · omega
  · rw [hsize]
    exact h.slotSize
  · exact (Nat.le_add_right _ _).trans hslots
  · rw [hsize]
    exact (Nat.add_comm _ _).trans_le hend
  · rw [hregistry] at hne ⊢
    rw [hcount]
    rcases h.registry with heq | ⟨heq, -⟩
    · rw [heq]
      exact ⟨by decide, by omega⟩
    · exact absurd heq hne
  · obtain ⟨-, hdvd⟩ := h.arenaOffset hne
    have hlast := h.arenaEnd hne
    refine ⟨hdvd, ?_⟩
    show l.arenaSize + l.arenaOffset + arenaHeaderLen ≤ total
    omega

/-- The geometry that the source reads off its header. -/
def geometry (l : RingLayout) : Geometry := .fromHeader l.header l.header.view

theorem geometry_eq (hfits : l.Fits) :
    l.geometry = ⟨l.capacity, l.slotSize, l.flags, l.schemaSig, l.registryCount, l.slotsOffset,
      l.arenaOffset, l.arenaSize⟩ := by
  have hsize : l.slotSize % 2 ^ 32 = l.slotSize := Nat.mod_eq_of_lt hfits.slotSize
  have hcount : l.registryCount % 2 ^ 32 = l.registryCount := Nat.mod_eq_of_lt hfits.registryCount
  have hslots : l.slotsOffset % 2 ^ 32 = l.slotsOffset := Nat.mod_eq_of_lt hfits.slotsOffset
  simp only [geometry, Geometry.fromHeader, header, RingHeader.initializeFields, RingHeader.publish,
    RingHeader.view, hsize, hcount, hslots]

/-- The geometry of a sound layout is accepted. -/
theorem Sound.accepted (h : l.Sound total) (hfits : l.Fits) (htotal : total < 2 ^ 64) :
    l.geometry.Accepted := by
  have hslots : l.slotsEnd = l.capacity * l.slotSize + l.slotsOffset := Nat.add_comm _ _
  rw [geometry_eq hfits]
  refine ⟨h.capacity, h.slotSize, h.words, h.slotsOffset, h.slotsAligned, ?_,
    fun harena => (h.noArena harena).1, fun harena => ?_, h.arenaSize, fun harena => ?_,
    fun harena => (h.arenaEnd harena).trans_lt htotal⟩
  · show l.capacity * l.slotSize + l.slotsOffset < 2 ^ 64
    rw [← hslots]
    exact h.slotsEnd_le.trans_lt htotal
  · rw [← hslots]
    exact h.arenaOffset harena
  · have href := h.descriptor harena
    show blobRefLen ≤ l.slotSize - 8
    omega

/-- The parts of a sound layout are apart and lie within the file. -/
theorem Sound.regions (h : l.Sound total) :
    l.regions.Pairwise Disjoint ∧ ∀ r ∈ l.regions, r ⊆ Set.Iio total := by
  have hslots := h.slotsOffset
  -- the registry lies between the header and the slots, or there is none
  have hregistry : Set.Ico l.registryOffset (l.registryOffset + l.registryCount * readerSlotLen) ⊆
      Set.Ico ringHeaderLen l.slotsOffset := by
    rcases h.registry with heq | ⟨-, hnone⟩
    · rw [heq]
      exact Set.Ico_subset_Ico_right hslots
    · rw [hnone, Nat.zero_mul, Nat.add_zero, Set.Ico_self]
      exact Set.empty_subset _
  -- the arena lies between the slots and the end of the file, or there is none
  have harena : (if l.arenaOffset = 0 then ∅
      else Set.Ico l.arenaOffset (l.arenaOffset + arenaHeaderLen + l.arenaSize)) ⊆
      Set.Ico l.slotsEnd total := by
    split_ifs with hzero
    · exact Set.empty_subset _
    · exact Set.Ico_subset_Ico (h.arenaOffset hzero).1 (h.arenaEnd hzero)
  have hend := h.slotsEnd_le
  have hle : l.slotsOffset ≤ l.slotsEnd := Nat.le_add_right _ _
  have hbetween (a b c d : ℕ) (hbc : b ≤ c) : Disjoint (Set.Ico a b) (Set.Ico c d) :=
    Set.disjoint_left.mpr fun _ hx hy => absurd (hx.2.trans_le (hbc.trans hy.1)) (lt_irrefl _)
  have hwithin (a b : ℕ) (hb : b ≤ total) : Set.Ico a b ⊆ Set.Iio total :=
    fun _ hx => hx.2.trans_le hb
  have hhead : ringHeaderLen ≤ l.slotsOffset := (Nat.le_add_right _ _).trans hslots
  constructor
  · refine .cons ?_ (.cons ?_ (.cons ?_ (.cons (by rintro _ ⟨⟩) .nil)))
    · intro r hr
      simp only [List.mem_cons, List.not_mem_nil, or_false] at hr
      rcases hr with rfl | rfl | rfl
      · exact (hbetween _ _ _ _ (le_refl _)).mono_right hregistry
      · exact hbetween _ _ _ _ hhead
      · exact (hbetween _ _ _ _ (hhead.trans hle)).mono_right harena
    · intro r hr
      simp only [List.mem_cons, List.not_mem_nil, or_false] at hr
      rcases hr with rfl | rfl
      · exact (hbetween _ _ _ _ (le_refl _)).mono_left hregistry
      · exact (hbetween _ _ _ _ hle).mono hregistry harena
    · intro r hr
      rw [List.mem_singleton.mp hr]
      exact (hbetween _ _ _ _ (le_refl _)).mono_right harena
  · intro r hr
    simp only [RingLayout.regions, List.mem_cons, List.not_mem_nil, or_false] at hr
    rcases hr with rfl | rfl | rfl | rfl
    · exact hwithin _ _ (hhead.trans (hle.trans hend))
    · exact hregistry.trans (hwithin _ _ (hle.trans hend))
    · exact hwithin _ _ hend
    · exact harena.trans (hwithin _ _ (le_refl _))

end RingLayout

namespace Geometry

variable {h : RingHeader} {g g' : Geometry}

theorem fromHeader_inRange (hh : h.InRange) : (fromHeader h h.view).InRange where
  capacity := hh.capacity
  elementSize := Nat.mod_lt _ (by decide)
  flags := hh.flags
  schemaSig := hh.schemaSig
  registryCount := hh.registryCount
  slotsOffset := Nat.mod_lt _ (by decide)
  arenaOffset := hh.arenaOffset
  arenaSize := hh.arenaSize

/-- What a mirror makes of a geometry that was sent to it. -/
theorem decode_encode_eq_ok (hg : g.InRange) :
    decode g.encode = .ok g' ↔ g.Accepted ∧ g' = g := by
  rw [decode, read_encode hg, check_eq_ok]

theorem mirrorLayout_fits (hg : g.InRange) : g.mirrorLayout.Fits :=
  ⟨hg.elementSize, hg.registryCount, hg.slotsOffset⟩

theorem totalLen_lt (g : Geometry) : g.totalLen < 2 ^ 64 := by
  unfold totalLen
  split_ifs
  · exact Nat.mod_lt _ (by decide)
  · exact Nat.mod_lt _ (by decide)

/-- The header of the mirror ring passes for the slots that the geometry describes. -/
theorem Accepted.mirror_eq_ok (h : g.Accepted) (hg : g.InRange) {expectedSlotSize : Option ℕ}
    {slotAlign : ℕ} {v : RingView} :
    validateRing g.mirrorLayout.header g.totalLen expectedSlotSize slotAlign = .ok v ↔
      g.mirrorLayout.header.Expected expectedSlotSize slotAlign ∧
        v = g.mirrorLayout.header.view := by
  have hsound := h.sound hg.schemaSig
  rw [validateRing_eq_ok (hsound.header_inRange g.totalLen_lt) g.totalLen_lt]
  exact and_iff_right (hsound.valid (mirrorLayout_fits hg))

/-- The arena that was initialised for an accepted geometry is adopted. -/
theorem Accepted.exists_arena (h : g.Accepted) (hhas : g.hasArena = true) :
    ∃ a, initArena g.arenaSize = .ok a ∧ fromPtr a = .ok a ∧ a.capacity = g.arenaSize := by
  have harena : g.arenaOffset ≠ 0 := hasArena_iff.mp hhas
  have hsize : isPowerOfTwo g.arenaSize = true ∧ 64 ≤ g.arenaSize :=
    (h.arenaSize harena).imp_left isPowerOfTwo_iff.mpr
  refine ⟨⟨g.arenaSize, g.arenaSize - 1⟩, ?_, ?_, rfl⟩
  · simp only [initArena, bind_eq_ok, require_eq_ok, exists_const]
    exact ⟨hsize, rfl⟩
  · simp only [fromPtr, bind_eq_ok, require_eq_ok, exists_const]
    exact ⟨hsize, trivial, rfl⟩

/-- The ring a mirror creates is adopted again, with the same layout. -/
theorem Accepted.adopted (h : g.Accepted) (hg : g.InRange) :
    ∃ arena g', g.create = .ok (g.mirrorLayout.header, arena) ∧
      adopt g.mirrorLayout.header arena g.totalLen = some g' ∧ g'.sameLayout g = true := by
  have hok : validateRing g.mirrorLayout.header g.totalLen none 8 =
      .ok g.mirrorLayout.header.view := by
    refine (h.mirror_eq_ok hg).mpr ⟨⟨by rintro n ⟨⟩, ?_⟩, rfl⟩
    exact (by decide : 8 ∣ 64).trans h.slotsAligned
  have hsame : g.mirrorLayout.geometry.sameLayout g = true := by
    rw [RingLayout.geometry_eq (mirrorLayout_fits hg)]
    simp [sameLayout, mirrorLayout]
  have hadopt (arena : Option ArenaHeader) :
      adopt g.mirrorLayout.header arena g.totalLen =
        if g.hasArena then g.mirrorLayout.geometry.adoptArena arena
        else some g.mirrorLayout.geometry := by
    unfold adopt
    rw [hok]
    rfl
  by_cases hhas : g.hasArena = true
  · obtain ⟨a, hinit, hptr, hcap⟩ := h.exists_arena hhas
    refine ⟨some a, g.mirrorLayout.geometry, ?_, ?_, hsame⟩
    · rw [create, if_pos hhas, hinit]
      rfl
    · rw [hadopt, if_pos hhas, adoptArena, Option.map_some, hptr]
      exact if_pos hcap
  · refine ⟨none, g.mirrorLayout.geometry, if_neg hhas, ?_, hsame⟩
    rw [hadopt, if_neg hhas]

end Geometry

/-- **The exchange of geometries is faithful and safe.** What a source reads off the header of a
ring that was created is accepted and read back. What is accepted is laid out without overflow, in
parts that are apart and lie within the file. And a mirror ring can be read as exactly those slots
that the source ring can be read as, and is adopted again with the same layout. -/
theorem geometry_exchange :
    (∀ l total, Created l total → l.Fits → total ≤ isizeMax →
      ∃ v, validateRing l.header total none 8 = .ok v ∧
        Geometry.decode (Geometry.fromHeader l.header v).encode =
          .ok (.fromHeader l.header v)) ∧
    (∀ b g, b.length = geometryLen → Geometry.decode b = .ok g →
      g.totalLen = (if g.arenaOffset = 0 then g.slotsOffset + g.capacity * g.elementSize
        else g.arenaOffset + arenaHeaderLen + g.arenaSize) ∧
      g.mirrorLayout.regions.Pairwise Disjoint ∧
      ∀ r ∈ g.mirrorLayout.regions, r ⊆ Set.Iio g.totalLen) ∧
    (∀ (h : RingHeader) len v g, h.InRange → len ≤ isizeMax → h.slotsOffset < 2 ^ 32 →
      validateRing h len none 8 = .ok v →
      Geometry.decode (Geometry.fromHeader h v).encode = .ok g →
      (∀ expectedSlotSize slotAlign,
        (∃ v, validateRing h len expectedSlotSize slotAlign = .ok v) ↔
          ∃ v, validateRing g.mirrorLayout.header g.totalLen expectedSlotSize slotAlign =
            .ok v) ∧
      ∃ arena g', g.create = .ok (g.mirrorLayout.header, arena) ∧
        adopt g.mirrorLayout.header arena g.totalLen = some g' ∧ g'.sameLayout g = true) := by
  refine ⟨fun l total hl hfits htotal => ?_, fun b g _ hb => ?_,
    fun h len v g hh hlen hslots hv hg => ?_⟩
  · -- a created ring has a header that passes, and its geometry is encoded without loss
    have hsound := hl.sound
    have hlt : total < 2 ^ 64 := htotal.trans_lt (by decide)
    have hrange := hsound.header_inRange hlt
    refine ⟨l.header.view, (validateRing_eq_ok hrange hlt).mpr
      ⟨hsound.valid hfits, ⟨by rintro n ⟨⟩, ?_⟩, rfl⟩, ?_⟩
    · exact (by decide : 8 ∣ 64).trans hsound.slotsAligned
    · exact (Geometry.decode_encode_eq_ok (Geometry.fromHeader_inRange hrange)).mpr
        ⟨hsound.accepted hfits hlt, rfl⟩
  · obtain ⟨hg, rfl⟩ := Geometry.check_eq_ok.mp hb
    have hsound := hg.sound (Geometry.read_schemaSig_lt b)
    exact ⟨hg.totalLen_eq, hsound.regions⟩
  · have hlt : len < 2 ^ 64 := hlen.trans_lt (by decide)
    obtain ⟨hvalid, -, rfl⟩ := (validateRing_eq_ok hh hlt).mp hv
    have hrange := Geometry.fromHeader_inRange hh
    obtain ⟨hacc, rfl⟩ := (Geometry.decode_encode_eq_ok hrange).mp hg
    refine ⟨fun expectedSlotSize slotAlign => ?_, hacc.adopted hrange⟩
    -- what `validate_ring` asks of a pair only depends on the slot size and the slots' offset
    have hsize : (Geometry.fromHeader h h.view).mirrorLayout.header.elementSize =
        h.elementSize := by
      show h.elementSize % 2 ^ 32 % 2 ^ 32 = h.elementSize
      rw [Nat.mod_mod, Nat.mod_eq_of_lt hh.elementSize]
    have hoffset : (Geometry.fromHeader h h.view).mirrorLayout.header.slotsOffset =
        h.slotsOffset := Nat.mod_eq_of_lt hslots
    have hexpected : h.Expected expectedSlotSize slotAlign ↔
        (Geometry.fromHeader h h.view).mirrorLayout.header.Expected expectedSlotSize
          slotAlign := by
      constructor
      · exact fun he => ⟨by rw [hsize]; exact he.size, by rw [hoffset]; exact he.align⟩
      · rintro ⟨hs, ha⟩
        rw [hsize] at hs
        rw [hoffset] at ha
        exact ⟨hs, ha⟩
    simp only [validateRing_eq_ok hh hlt, hacc.mirror_eq_ok hrange, hexpected, hvalid, true_and]
    exact ⟨fun ⟨_, he, _⟩ => ⟨_, he, rfl⟩, fun ⟨_, he, _⟩ => ⟨_, he, rfl⟩⟩

/-- A `u64`. -/
def wordLayout : TypeLayout := ⟨8, 8, isPowerOfTwo_eight⟩

/-- A ring of two packets with one word of metadata, two readers and an arena of one cache line. -/
def wordPackets : RingLayout := blobLayout ⟨8, 8⟩ 2 64 2 7

/-- Its geometry is sent, laid out and adopted. -/
theorem geometry_exchange_words :
    ∃ v g, validateRing wordPackets.header 512 none 8 = .ok v ∧
      g = .fromHeader wordPackets.header v ∧ Geometry.decode g.encode = .ok g ∧
      g.totalLen = 512 ∧ g.mirrorLayout.regions.Pairwise Disjoint ∧
      (∀ r ∈ g.mirrorLayout.regions, r ⊆ Set.Iio g.totalLen) ∧
      (∃ u, validateRing g.mirrorLayout.header g.totalLen (some 32) 8 = .ok u) ∧
      ∃ arena g', g.create = .ok (g.mirrorLayout.header, arena) ∧
        adopt g.mirrorLayout.header arena g.totalLen = some g' ∧ g'.sameLayout g = true := by
  obtain ⟨hsent, hlaid, hadopted⟩ := geometry_exchange
  obtain ⟨v, hv, hdecode⟩ := hsent wordPackets 512
    (.blob ⟨8, 8⟩ isPowerOfTwo_eight 2 64 2 7 (by decide) (by decide) (by decide))
    ⟨by decide, by decide, by decide⟩ (by decide)
  have hlen : (Geometry.fromHeader wordPackets.header v).encode.length = geometryLen := by
    simp only [Geometry.encode, List.length_append, length_toLe]
    rfl
  obtain ⟨-, hdisjoint, hinside⟩ := hlaid _ _ hlen hdecode
  have hrange : wordPackets.header.InRange :=
    ⟨by decide, by decide, by decide, by decide, by decide, by decide, by decide, by decide,
      by decide⟩
  obtain ⟨hread, hmirror⟩ :=
    hadopted wordPackets.header 512 v _ hrange (by decide) (by decide) hv hdecode
  have hview : validateRing wordPackets.header 512 none 8 = .ok wordPackets.header.view := rfl
  obtain rfl : wordPackets.header.view = v := Except.ok.inj (hview.symm.trans hv)
  exact ⟨_, _, hv, rfl, hdecode, rfl, hdisjoint, hinside, (hread (some 32) 8).mp ⟨_, rfl⟩, hmirror⟩

end Layout

end Ringfire
