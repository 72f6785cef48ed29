import Ringfire.Layout.Access

/-!
# Where the slots of a validated ring lie

`validate_ring` promises slots that are aligned to `slot_align`. It checks the offset of the first
slot; where the others are depends on the slot size, which is fixed by the slot type of a typed
reader and is whatever the header says for a server, a mirror and the command line.

## Main definitions

* `RingView.slotAddr`, `RingView.SlotsAligned`

## Main results

* `slotsAligned_iff`: which rings that pass have aligned slots
* `Created.slots_aligned`: the rings of the crate have
-/

namespace Ringfire

namespace Layout

/-- The address of slot `i` of a ring mapped at `base`. -/
def RingView.slotAddr (v : RingView) (base i : ℕ) : ℕ := base + v.slotsOffset + i * v.slotSize

/-- `SourceRing::read` and `MirrorRing::slot`: the address of the slot word of message `seq`. -/
def RingView.wordAddr (v : RingView) (base seq : ℕ) : ℕ :=
  base + (v.slotsOffset + (seq &&& v.mask) * v.slotSize)

/-- Every slot is aligned to `slotAlign`. -/
def RingView.SlotsAligned (v : RingView) (base slotAlign : ℕ) : Prop :=
  ∀ i < v.capacity, slotAlign ∣ v.slotAddr base i

/-- The word of a message is that of one of the slots. -/
theorem RingView.SlotsAligned.word {h : RingHeader} {base slotAlign : ℕ}
    (hcap : ∃ k, h.capacity = 2 ^ k) (ha : h.view.SlotsAligned base slotAlign) (seq : ℕ) :
    slotAlign ∣ h.view.wordAddr base seq := by
  have hpos : 0 < h.capacity := by
    obtain ⟨k, hk⟩ := hcap
    exact hk ▸ Nat.two_pow_pos k
  have haddr : h.view.wordAddr base seq = h.view.slotAddr base (seq % h.capacity) := by
    simp only [RingView.wordAddr, RingView.slotAddr, RingHeader.view,
      Cyclic.and_mask_eq_mod hcap, Nat.add_assoc]
  rw [haddr]
  exact ha _ (Nat.mod_lt seq hpos)

/-- With the first slot in place, the others are if there are none or the stride is right. -/
theorem RingView.slotsAligned_iff_of_first {v : RingView} {base slotAlign : ℕ}
    (hcap : ∃ k, v.capacity = 2 ^ k) (hfirst : slotAlign ∣ v.slotsOffset) :
    v.SlotsAligned base slotAlign ↔
      slotAlign ∣ base ∧ (v.capacity = 1 ∨ slotAlign ∣ v.slotSize) := by
  obtain ⟨k, hk⟩ := hcap
  have hpos : 0 < v.capacity := hk ▸ Nat.two_pow_pos k
  constructor
  · intro h
    have hzero : slotAlign ∣ base + v.slotsOffset := by
      have h0 := h 0 hpos
      rwa [slotAddr, Nat.zero_mul, Nat.add_zero] at h0
    refine ⟨(Nat.dvd_add_left hfirst).mp hzero, ?_⟩
    rcases Nat.lt_or_ge 1 v.capacity with hlt | hle
    · right
      have hone := h 1 hlt
      rw [slotAddr, Nat.one_mul] at hone
      exact (Nat.dvd_add_right hzero).mp hone
    · exact Or.inl (by omega)
  · rintro ⟨hbase, hstride⟩ i hi
    refine Nat.dvd_add (Nat.dvd_add hbase hfirst) ?_
    rcases hstride with hone | hdvd
    · obtain rfl : i = 0 := by omega
      rw [Nat.zero_mul]
      exact Nat.dvd_zero slotAlign
    · exact Nat.dvd_mul_left_of_dvd hdvd i

variable {m : Mapping} {v : RingView}

theorem dvd_slotsOffset {expectedSlotSize : Option ℕ} {slotAlign : ℕ}
    (hpow : ∃ k, slotAlign = 2 ^ k)
    (h : validateRing m.header m.len expectedSlotSize slotAlign = .ok v) :
    slotAlign ∣ m.header.slotsOffset := by
  obtain ⟨-, hexpected, -⟩ := (validateRing_eq_ok m.header_inRange m.len_lt).mp h
  obtain ⟨k, rfl⟩ := hpow
  have hdvd : 2 ^ k ∣ max (2 ^ k) 8 := by
    rw [Nat.max_comm]
    exact pow_dvd_max ⟨3, rfl⟩ k
  exact hdvd.trans hexpected.align

/-- **Which rings that pass have aligned slots**: the mapping itself is aligned, and the slot size
is a multiple of the alignment unless there is one slot. A mapping at a multiple of 128 is aligned
to anything up to 128. -/
theorem slotsAligned_iff (m : Mapping) {base slotAlign : ℕ} (hbase : 128 ∣ base)
    (hpow : ∃ k, slotAlign = 2 ^ k) (hmin : 8 ≤ slotAlign) {v : RingView}
    (h : validateRing m.header m.len none slotAlign = .ok v) :
    v.SlotsAligned base slotAlign ↔
      (slotAlign ≤ 128 ∨ slotAlign ∣ base) ∧
        (m.header.capacity = 1 ∨ slotAlign ∣ m.header.elementSize) := by
  have hfirst := dvd_slotsOffset hpow h
  obtain ⟨hvalid, rfl⟩ := Mapping.of_validateRing h
  have hmap : slotAlign ∣ base ↔ slotAlign ≤ 128 ∨ slotAlign ∣ base := by
    constructor
    · exact Or.inr
    · rintro (hle | hdvd)
      · obtain ⟨k, rfl⟩ := hpow
        have hk : k ≤ 7 := (Nat.pow_le_pow_iff_right (by decide : 1 < 2)).mp hle
        exact (pow_dvd_pow 2 hk).trans hbase
      · exact hdvd
  rw [← hmap]
  exact RingView.slotsAligned_iff_of_first hvalid.capacity hfirst

/-- A ring of two slots of `size` bytes at 128. -/
def strideMapping (size : UInt8) : Mapping where
  len := 256
  bytes i :=
    match i with
    | 0 => 0x45 | 1 => 0x52 | 2 => 0x49 | 3 => 0x46 | 4 => 0x47 | 5 => 0x4E | 6 => 0x49 | 7 => 0x52
    | 8 => 2
    | 12 => size
    | 16 => 2
    | 24 => 1
    | 104 => 128
    | _ => 0
  fits := hollowMapping.fits

theorem strideMapping_twentyFour :
    validateRing (strideMapping 24).header (strideMapping 24).len none 8 = .ok ⟨2, 1, 24, 128⟩ := by
  decide +kernel

theorem strideMapping_twelve :
    validateRing (strideMapping 12).header (strideMapping 12).len none 8 = .ok ⟨2, 1, 12, 128⟩ := by
  decide +kernel

theorem slotsAligned_iff_of_stride :
    RingView.SlotsAligned ⟨2, 1, 24, 128⟩ 4096 8 ↔
      (8 ≤ 128 ∨ 8 ∣ 4096) ∧
        ((strideMapping 24).header.capacity = 1 ∨ 8 ∣ (strideMapping 24).header.elementSize) :=
  slotsAligned_iff (strideMapping 24) ⟨32, rfl⟩ ⟨3, rfl⟩ (Nat.le_refl 8) strideMapping_twentyFour

/-- Two slots of 12 bytes pass, and the second one lies at `4096 + 140`. -/
theorem stride_misaligned :
    ∃ (m : Mapping) (v : RingView), validateRing m.header m.len none 8 = .ok v ∧
      128 ∣ 4096 ∧ 1 < v.capacity ∧ ¬ 8 ∣ v.slotAddr 4096 1 ∧ ¬ v.SlotsAligned 4096 8 := by
  refine ⟨strideMapping 12, ⟨2, 1, 12, 128⟩, strideMapping_twelve, ⟨32, rfl⟩, by decide, by decide,
    ?_⟩
  intro h
  exact absurd (h 1 (by decide)) (by decide)

/-! ## Readers that know the slot size -/

/-- A typed reader asks for slots of the size of its slot type, which is a multiple of the
alignment of the type. -/
theorem slotsAligned_of_expected {base slotAlign size : ℕ} (hbase : slotAlign ∣ base)
    (hpow : ∃ k, slotAlign = 2 ^ k) (hsize : slotAlign ∣ size)
    (h : validateRing m.header m.len (some size) slotAlign = .ok v) :
    v.SlotsAligned base slotAlign := by
  have hfirst := dvd_slotsOffset hpow h
  obtain ⟨hvalid, hexpected, rfl⟩ := (validateRing_eq_ok m.header_inRange m.len_lt).mp h
  have hstride : m.header.elementSize = size := hexpected.size size rfl
  have hdvd : slotAlign ∣ m.header.view.slotSize := by
    change slotAlign ∣ m.header.elementSize
    rw [hstride]
    exact hsize
  exact (RingView.slotsAligned_iff_of_first (v := m.header.view) hvalid.capacity hfirst).mpr
    ⟨hbase, Or.inr hdvd⟩

/-- The slot words of a ring that the crate created are aligned, for whoever maps it. -/
theorem Created.slots_aligned {l : RingLayout} {total : ℕ} (h : Created l total) (hfits : l.Fits)
    {base : ℕ} (hbase : 8 ∣ base) (seq : ℕ) : 8 ∣ l.header.view.wordAddr base seq := by
  have hsound := h.sound
  have hsize : l.header.elementSize = l.slotSize := Nat.mod_eq_of_lt hfits.slotSize
  have hwords : 8 ∣ l.header.view.slotSize := by
    change 8 ∣ l.header.elementSize
    rw [hsize]
    exact hsound.words
  have hfirst : 8 ∣ l.header.view.slotsOffset := (by decide : 8 ∣ 64).trans hsound.slotsAligned
  have hall : l.header.view.SlotsAligned base 8 :=
    (RingView.slotsAligned_iff_of_first (v := l.header.view) hsound.capacity hfirst).mpr
      ⟨hbase, Or.inr hwords⟩
  exact hall.word hsound.capacity seq

end Layout

end Ringfire
