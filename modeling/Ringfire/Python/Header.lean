import Ringfire.Layout.Signature

/-!
# The header of a ring, in Python

`_map_ring` checks the header of a ring with integers that do not overflow, and looks at fewer of
its fields than `validate_ring`. `RingProducer.__init__` writes a header field by field. Python has
one size for the slots of a type, whatever the alignment of the type in Rust.

## Main definitions

* `mapRing`, `attach`: the headers that a `RingConsumer` accepts
* `producerHeader`: the header that a `RingProducer` writes

## Main results

* `validateRing_iff_mapRing`: what `validate_ring` checks and `_map_ring` does not
* `slotStride_eq_iff`: when the slots of a type have the size that Python gives them
* `attach_in_file`: no header makes a reader look outside of the file
* `layouts_agree`: when either language reads the rings of the other
-/

namespace Ringfire

namespace Python

open Layout Checked

/-! ## Model -/

/-- The `ValueError`s of a ring file. -/
inductive ValueError where
  | tooSmall (fileSize : ℕ)
  | invalidMagic (got : ℕ)
  | versionMismatch (got : ℕ)
  | capacityNotPowerOfTwo
  | slotsPastEnd
  | elementSizeMismatch (stride needs : ℕ)
  /-- The argument of `RingProducer`. -/
  | capacity (capacity : ℕ)
  deriving DecidableEq, Repr

/-- `_slot_stride`. -/
def slotStride (payloadSize : ℕ) : ℕ := (8 + payloadSize + 7) / 8 * 8

/-- `_map_ring`, for a file of `fileSize` bytes. -/
def mapRing (h : RingHeader) (fileSize : ℕ) : Except ValueError RingView := do
  require (ringHeaderLen ≤ fileSize) (.tooSmall fileSize)
  require (h.magic = ringfireMagic) (.invalidMagic h.magic)
  require (h.version = ringfireVersion) (.versionMismatch h.version)
  require (¬ (h.capacity = 0 ∨ h.capacity &&& (h.capacity - 1) ≠ 0 ∨ h.mask ≠ h.capacity - 1))
    .capacityNotPowerOfTwo
  require (¬ (h.slotsOffset < ringHeaderLen ∨
      fileSize < h.slotsOffset + h.capacity * h.elementSize)) .slotsPastEnd
  return ⟨h.capacity, h.mask, h.elementSize, h.slotsOffset⟩

/-- `RingConsumer.__init__` for a structure of `payloadSize` bytes. -/
def attach (h : RingHeader) (fileSize payloadSize : ℕ) : Except ValueError RingView := do
  let v ← mapRing h fileSize
  require (h.elementSize = slotStride payloadSize)
    (.elementSizeMismatch h.elementSize (slotStride payloadSize))
  return v

/-- The header that `RingProducer.__init__` writes into a file of zeros, its magic last. -/
def producerHeader (capacity payloadSize : ℕ) : RingHeader where
  magic := ringfireMagic
  version := ringfireVersion
  elementSize := slotStride payloadSize % 2 ^ 32
  capacity := capacity
  mask := capacity - 1
  flags := flagModeSpmc ||| flagPolicyLatestWins
  schemaSig := 0
  arenaOffset := 0
  arenaSize := 0
  readerRegistryOffset := 0
  readerRegistryCount := 0
  slotsOffset := ringHeaderLen

/-- The length of its file. -/
def producerLen (capacity payloadSize : ℕ) : ℕ := ringHeaderLen + capacity * slotStride payloadSize

/-- `RingProducer.__init__`. -/
def createRing (capacity payloadSize : ℕ) : Except ValueError (RingHeader × ℕ) := do
  require (isPowerOfTwo capacity = true) (.capacity capacity)
  return (producerHeader capacity payloadSize, producerLen capacity payloadSize)

/-- Where Python puts the payload of a message, and looks for it. -/
def payloadAt (v : RingView) (seq : ℕ) : ℕ := v.slotsOffset + (seq &&& v.mask) * v.slotSize + 8

end Python

/-- Where Rust puts the payload of a message of type `t`, and looks for it. -/
def Layout.TypeLayout.payloadAt (t : TypeLayout) (v : RingView) (seq : ℕ) : ℕ :=
  v.slotsOffset + (seq &&& v.mask) * t.slotSize + alignUp 8 t.slotAlign

namespace Python

open Layout Checked

variable {h : RingHeader} {len payloadSize : ℕ} {v : RingView} {t : TypeLayout}

/-! ## Headers -/

/-- Which headers `_map_ring` accepts. -/
theorem mapRing_eq_ok : mapRing h len = .ok v ↔
    ringHeaderLen ≤ len ∧ h.magic = ringfireMagic ∧ h.version = ringfireVersion ∧
      (∃ k, h.capacity = 2 ^ k) ∧ h.mask = h.capacity - 1 ∧ ringHeaderLen ≤ h.slotsOffset ∧
      h.capacity * h.elementSize + h.slotsOffset ≤ len ∧ v = h.view := by
  have hcapacity : ¬ (h.capacity = 0 ∨ h.capacity &&& (h.capacity - 1) ≠ 0 ∨
      h.mask ≠ h.capacity - 1) ↔ (∃ k, h.capacity = 2 ^ k) ∧ h.mask = h.capacity - 1 := by
    rw [← isPowerOfTwo_iff, isPowerOfTwo, decide_eq_true_eq]
    simp only [not_or, ne_eq, not_not, and_assoc]
  have hslots : ¬ (h.slotsOffset < ringHeaderLen ∨
      len < h.slotsOffset + h.capacity * h.elementSize) ↔ ringHeaderLen ≤ h.slotsOffset ∧
        h.capacity * h.elementSize + h.slotsOffset ≤ len := by
    rw [not_or, Nat.not_lt, Nat.not_lt, Nat.add_comm h.slotsOffset]
  simp only [mapRing, bind_eq_ok, require_eq_ok, exists_const, hcapacity, hslots]
  constructor
  · rintro ⟨h1, h2, h3, ⟨h4, h5⟩, ⟨h6, h7⟩, ⟨⟩⟩
    exact ⟨h1, h2, h3, h4, h5, h6, h7, by rw [h5, RingHeader.view]⟩
  · rintro ⟨h1, h2, h3, h4, h5, h6, h7, rfl⟩
    exact ⟨h1, h2, h3, ⟨h4, h5⟩, ⟨h6, h7⟩, by rw [h5, RingHeader.view]; rfl⟩

theorem attach_eq_ok : attach h len payloadSize = .ok v ↔
    mapRing h len = .ok v ∧ h.elementSize = slotStride payloadSize := by
  simp only [attach, bind_eq_ok, require_eq_ok, exists_const]
  constructor
  · rintro ⟨v', hv, hsize, ⟨⟩⟩
    exact ⟨hv, hsize⟩
  · rintro ⟨hv, hsize⟩
    exact ⟨v, hv, hsize, rfl⟩

/-- **What `validate_ring` checks and `_map_ring` does not**: that a slot has room for its sequence
word, that the slots are aligned, and where the registry and the arena are. -/
theorem validateRing_iff_mapRing (hh : h.InRange) (hlen : len < 2 ^ 64) {slotAlign : ℕ} :
    validateRing h len none slotAlign = .ok v ↔ mapRing h len = .ok v ∧
      8 ≤ h.elementSize ∧ max slotAlign 8 ∣ h.slotsOffset ∧
      (h.readerRegistryOffset ≠ 0 → 64 ∣ h.readerRegistryOffset ∧
        h.readerRegistryOffset + h.readerRegistryCount * readerSlotLen ≤ len) ∧
      (h.arenaOffset ≠ 0 → 64 ∣ h.arenaOffset ∧
        h.arenaSize + h.arenaOffset + arenaHeaderLen ≤ len) := by
  rw [validateRing_eq_ok hh hlen, mapRing_eq_ok]
  constructor
  · rintro ⟨hv, he, rfl⟩
    exact ⟨⟨hv.header, hv.magic, hv.version, hv.capacity, hv.mask, hv.slots, hv.slotsEnd, rfl⟩,
      hv.slotSize, he.align, hv.registry, hv.arena⟩
  · rintro ⟨⟨h1, h2, h3, h4, h5, h6, h7, rfl⟩, hsize, halign, hregistry, harena⟩
    exact ⟨⟨h1, h2, h3, hsize, h4, h5, h6, h7, hregistry, harena⟩, ⟨by rintro _ ⟨⟩, halign⟩, rfl⟩

/-- A slot has room for its word and the payload. -/
theorem le_slotStride (n : ℕ) : 8 + n ≤ slotStride n := by
  unfold slotStride
  omega

/-- **No header makes a reader look outside of the file.** Whatever the header says, once the ring
is attached to, the word and the payload of every sequence number lie between the header and the
end of the file. -/
theorem attach_in_file (hattach : attach h len payloadSize = .ok v) (seq : ℕ) :
    ringHeaderLen + 8 ≤ payloadAt v seq ∧ payloadAt v seq + payloadSize ≤ len := by
  obtain ⟨hmap, hsize⟩ := attach_eq_ok.mp hattach
  obtain ⟨-, -, -, ⟨k, hcap⟩, -, hslots, hend, rfl⟩ := mapRing_eq_ok.mp hmap
  have hindex : seq &&& (h.capacity - 1) < h.capacity := by
    rw [hcap]
    exact Nat.lt_of_le_of_lt Nat.and_le_right (Nat.sub_lt (Nat.two_pow_pos k) Nat.one_pos)
  have hroom := le_slotStride payloadSize
  rw [← hsize] at hroom
  have hlast : ((seq &&& (h.capacity - 1)) + 1) * h.elementSize ≤ h.capacity * h.elementSize :=
    Nat.mul_le_mul_right _ hindex
  rw [Nat.add_mul, Nat.one_mul] at hlast
  simp only [payloadAt, RingHeader.view]
  omega

/-- The ninth message of a ring of four structures of 12 bytes. -/
theorem attach_in_file_four : ∃ v, attach (producerHeader 4 12) 224 12 = .ok v ∧
    ringHeaderLen + 8 ≤ payloadAt v 9 ∧ payloadAt v 9 + 12 ≤ 224 := by
  have hattach : attach (producerHeader 4 12) 224 12 = .ok ⟨4, 3, 24, 128⟩ := rfl
  exact ⟨_, hattach, attach_in_file hattach 9⟩

/-! ## Slots -/

/-- A type that needs no more than the alignment of the word has its payload right behind it. -/
theorem slotAlign_eq_eight (h : t.align ≤ 8) : t.slotAlign = 8 := max_eq_right h

/-- **When the slots of a type have the size that Python gives them.** -/
theorem slotStride_eq_iff (hdvd : t.align ∣ t.size) :
    slotStride t.size = t.slotSize ↔ t.align ≤ 8 := by
  constructor
  · intro heq
    by_contra hlt
    obtain ⟨k, hk⟩ := t.align_pow
    have hk3 : 3 ≤ k := by
      by_contra hsmall
      have hle : (2 : ℕ) ^ k ≤ 2 ^ 2 := Nat.pow_le_pow_right (by decide) (by omega)
      rw [hk] at hlt
      omega
    have halign : t.slotAlign = t.align := max_eq_left (Nat.le_of_not_le hlt)
    have hpos : 0 < t.align := by
      rw [hk]
      exact Nat.two_pow_pos k
    have height : 8 ∣ t.align := hk ▸ pow_dvd_pow 2 hk3
    -- the payload starts at its alignment, and not behind the word
    have hdata : alignUp 8 t.align = t.align := by
      have hone : (8 + t.align - 1) / t.align = 1 := Nat.div_eq_of_lt_le (by omega) (by omega)
      rw [alignUp, hone, Nat.one_mul]
    have hslot : t.slotSize = t.align + t.size := by
      rw [TypeLayout.slotSize, halign, hdata]
      exact SlotLayout.alignUp_eq_self hpos ((Nat.dvd_add_right (dvd_refl _)).mpr hdvd)
    have hstride : slotStride t.size = 8 + t.size := by
      obtain ⟨m, hm⟩ := height.trans hdvd
      unfold slotStride
      omega
    rw [hslot, hstride] at heq
    omega
  · intro hle
    rw [TypeLayout.slotSize, slotAlign_eq_eight hle]
    rfl

/-- The payloads are in one place. -/
theorem payloadAt_eq (hle : t.align ≤ 8) (hsize : v.slotSize = t.slotSize) (seq : ℕ) :
    payloadAt v seq = t.payloadAt v seq := by
  rw [payloadAt, TypeLayout.payloadAt, hsize, slotAlign_eq_eight hle]
  rfl

/-- The header that Python writes is right. -/
theorem createRing_valid {capacity total : ℕ}
    (hcreate : createRing capacity payloadSize = .ok (h, total))
    (hfits : slotStride payloadSize < 2 ^ 32) (htotal : total < 2 ^ 64) :
    h.Valid total ∧ h.InRange ∧ h.elementSize = slotStride payloadSize ∧
      h.slotsOffset = ringHeaderLen ∧ h.schemaSig = 0 := by
  simp only [createRing, bind_eq_ok, require_eq_ok, exists_const] at hcreate
  obtain ⟨hpower, ⟨⟩⟩ := hcreate
  have hsize : slotStride payloadSize % 2 ^ 32 = slotStride payloadSize := Nat.mod_eq_of_lt hfits
  have hroom := le_slotStride payloadSize
  unfold producerLen ringHeaderLen at htotal
  have hcap : capacity ≤ capacity * slotStride payloadSize :=
    Nat.le_mul_of_pos_right _ (by omega)
  refine ⟨?_, ?_, hsize, rfl, rfl⟩
  · refine ⟨Nat.le_add_right _ _, rfl, rfl, ?_, isPowerOfTwo_iff.mp hpower, rfl, le_refl _, ?_,
      fun hne => absurd rfl hne, fun hne => absurd rfl hne⟩
    · exact (Nat.le_add_right 8 _).trans (hroom.trans hsize.ge)
    · change capacity * (slotStride payloadSize % 2 ^ 32) + ringHeaderLen ≤ _
      rw [hsize, Nat.add_comm]
      exact le_refl _
  · exact ⟨Nat.mod_lt _ (by decide), (by omega : capacity < 2 ^ 64),
      (by decide : flagModeSpmc ||| flagPolicyLatestWins < 2 ^ 32),
      (by decide : 0 < 2 ^ 64), (by decide : 0 < 2 ^ 64), (by decide : 0 < 2 ^ 64),
      (by decide : 0 < 2 ^ 32), (by decide : 0 < 2 ^ 32), (by decide : 128 < 2 ^ 64)⟩

/-- **Either language reads the rings of the other** where its type is no more aligned than a
sequence word, and refuses them where it is more. A structure of the size of the Rust type is
attached to a ring that any creator made for that type, and the Rust type, which has
`validate_ring` and `check_schema` to pass, to a ring that Python made for the structure; and then
both have the payload of every message in the same place. -/
theorem layouts_agree (hdvd : t.align ∣ t.size) :
    (∀ l total, Created l total → l.Fits → total < 2 ^ 64 → l.slotSize = t.slotSize →
      ((∃ v, attach l.header total t.size = .ok v) ↔ t.align ≤ 8)) ∧
    (∀ capacity h total, createRing capacity t.size = .ok (h, total) →
      slotStride t.size < 2 ^ 32 → total < 2 ^ 64 → ∀ signature typeName,
      ((∃ v, validateRing h total (some t.slotSize) t.slotAlign = .ok v ∧
        checkSchema h signature typeName = .ok ()) ↔ t.align ≤ 8)) ∧
    (t.align ≤ 8 → ∀ v seq, v.slotSize = t.slotSize → payloadAt v seq = t.payloadAt v seq) := by
  refine ⟨fun l total hc hf htotal hslot => ?_,
    fun capacity h total hcreate hfits htotal signature typeName => ?_,
    fun hle v seq hsize => payloadAt_eq hle hsize seq⟩
  · have hsound := hc.sound
    have hvalid := hsound.valid hf
    have hsize : l.header.elementSize = t.slotSize :=
      (Nat.mod_eq_of_lt hf.slotSize).trans hslot
    rw [← slotStride_eq_iff hdvd]
    constructor
    · rintro ⟨v, hv⟩
      exact (attach_eq_ok.mp hv).2.symm.trans hsize
    · intro heq
      exact ⟨l.header.view, attach_eq_ok.mpr ⟨mapRing_eq_ok.mpr ⟨hvalid.header, hvalid.magic,
        hvalid.version, hvalid.capacity, hvalid.mask, hvalid.slots, hvalid.slotsEnd, rfl⟩,
        hsize.trans heq.symm⟩⟩
  · obtain ⟨hvalid, hrange, hsize, hslots, hsig⟩ := createRing_valid hcreate hfits htotal
    rw [← slotStride_eq_iff hdvd]
    constructor
    · rintro ⟨v, hv, -⟩
      exact hsize.symm.trans (((validateRing_eq_ok hrange htotal).mp hv).2.1.size _ rfl)
    · intro heq
      refine ⟨h.view, (validateRing_eq_ok hrange htotal).mpr ⟨hvalid, ⟨?_, ?_⟩, rfl⟩,
        checkSchema_eq_ok.mpr (.inl hsig)⟩
      · rintro _ ⟨⟩
        exact hsize.trans heq
      · rw [hslots, slotAlign_eq_eight ((slotStride_eq_iff hdvd).mp heq)]
        decide

/-- A `u128`. -/
def wideLayout : TypeLayout := ⟨16, 16, 4, rfl⟩

/-- A structure of one `u64` is attached to a ring of four `u64` with two readers, and a `u64` to a
ring that Python made for it; a `u128` is not. -/
theorem layouts_agree_word :
    (∃ v, attach (ringLayout wordLayout 4 2 7 false).header 320 wordLayout.size = .ok v ∧
      ∀ seq, payloadAt v seq = wordLayout.payloadAt v seq) ∧
    (∃ v, validateRing (producerHeader 4 8) 192 (some wordLayout.slotSize) wordLayout.slotAlign =
        .ok v ∧ checkSchema (producerHeader 4 8) 7 "u64" = .ok ()) ∧
    ¬ ∃ v, validateRing (producerHeader 4 16) 224 (some wideLayout.slotSize) wideLayout.slotAlign =
        .ok v ∧ checkSchema (producerHeader 4 16) 7 "u128" = .ok () := by
  obtain ⟨hpython, hrust, hplace⟩ := layouts_agree (by decide : wordLayout.align ∣ wordLayout.size)
  obtain ⟨-, hwide, -⟩ := layouts_agree (by decide : wideLayout.align ∣ wideLayout.size)
  refine ⟨?_, ?_, fun hv => ?_⟩
  · obtain ⟨v, hv⟩ := (hpython _ _ (.ring wordLayout 4 2 7 false (by decide) (by decide))
      ⟨by decide, by decide, by decide⟩ (by decide) rfl).mpr (by decide)
    refine ⟨v, hv, fun seq => hplace (by decide) v seq ?_⟩
    obtain ⟨hmap, -⟩ := attach_eq_ok.mp hv
    obtain ⟨-, -, -, -, -, -, -, rfl⟩ := mapRing_eq_ok.mp hmap
    rfl
  · exact (hrust 4 (producerHeader 4 8) 192 rfl (by decide) (by decide) 7 "u64").mpr (by decide)
  · have hle := (hwide 4 (producerHeader 4 16) 224 rfl (by decide) (by decide) 7 "u128").mp hv
    exact absurd hle (by decide)

end Python

end Ringfire
