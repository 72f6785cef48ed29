import Mathlib.Order.Interval.Finset.Nat
import Ringfire.Ring.Slot

/-!
# Reserving bytes in the payload arena

The arithmetic of `PayloadArena` in `arena.rs`. The arena is a cyclic array of bytes addressed by
a counter `reserved` that only grows: the byte at cumulative position `p` is stored at `p & mask`.
A reservation is rounded up to whole cache lines, and one that would cross the end of the array
starts at the next multiple of the capacity instead, so that a `BlobRef` always names a
contiguous slice.

`reserve` is the function as one caller alone computes it; `place` is the body of its loop, which
the concurrent model shares. The counter is a `u64` in the source and a natural number here.

## Main results

* `place_inBounds`: a reservation does not cross the end of the arena
* `place_dvd`: reservations are made of whole cache lines
* `disjoint_of_window`: two reservations within one arena length of the counter occupy
  disjoint bytes
-/

namespace Ringfire

/-- `u32::MAX`. -/
def u32Max : ℕ := 2 ^ 32 - 1

/-- The errors of the modelled calls. -/
inductive RingfireError where
  | io
  | invalidCapacity (capacity : ℕ)
  | invalidMagic (expected actual : ℕ)
  | versionMismatch (expected actual : ℕ)
  | elementSizeMismatch (expected actual : ℕ)
  | producerAlreadyExists
  | keyOutOfRange (key capacity : ℕ)
  | arenaPayloadTooLarge (len maxCapacity : ℕ)
  | bufferTooSmall (required provided : ℕ)
  | noAvailableReaderSlots
  | noOffsetFileConfigured
  | corruptLayout (what : String)
  | writerStalled (key : ℕ)
  | unsupported (what : String)
  | protocol (what : String)
  deriving DecidableEq, Repr

/-- Descriptor referencing a payload stored in the arena. -/
structure BlobRef where
  offset : ℕ
  len : ℕ
  flags : ℕ
  deriving DecidableEq, Repr

/-- `BlobRef::EMPTY`. -/
def BlobRef.empty : BlobRef := ⟨0, 0, 0⟩

/-- An arena capacity, as `PayloadArena::init` accepts it. -/
structure ArenaCapacity extends Capacity where
  cacheLine : 64 ≤ val

/-- An arena of one cache line. -/
def ArenaCapacity.oneLine : ArenaCapacity := ⟨⟨64, 6, rfl⟩, le_refl 64⟩

/-- An arena of four cache lines. -/
def ArenaCapacity.fourLines : ArenaCapacity := ⟨⟨256, 8, rfl⟩, by decide⟩

namespace PayloadArena

variable (cap : ArenaCapacity)

/-- The longest payload `reserve` accepts. -/
def maxLen : ℕ := Nat.min cap.val u32Max

/-- The length rounded up to whole cache lines: `(len + 63) & !63`. -/
def slotSize (len : ℕ) : ℕ := (len + 63) / 64 * 64

/-- Where a reservation of `len` bytes starts when the counter shows `curr`, and the next value
of the counter. -/
def place (curr len : ℕ) : ℕ × ℕ :=
  if cap.val < (curr &&& (cap.val - 1)) + len then
    -- wrap around: index `0` on the next lap
    ((curr ||| (cap.val - 1)) + 1, (curr ||| (cap.val - 1)) + 1 + slotSize len)
  else (curr, curr + slotSize len)

/-- The lengths `reserve` answers before it looks at the counter. -/
def checkLen (len : ℕ) : Option (Except RingfireError BlobRef) :=
  if len = 0 then some (.ok .empty)
  else if maxLen cap < len then some (.error (.arenaPayloadTooLarge len (maxLen cap)))
  else none

/-- `reserve`, with the counter it leaves. -/
def reserve (reserved len flags : ℕ) : Except RingfireError (BlobRef × ℕ) :=
  match checkLen cap len with
  | some (.ok r) => .ok (r, reserved)
  | some (.error e) => .error e
  | none => .ok (⟨(place cap reserved len).1, len, flags⟩, (place cap reserved len).2)

/-- `is_lapped`: the subtraction saturates. -/
def isLapped (reserved : ℕ) (r : BlobRef) : Bool := cap.val < reserved - r.offset

/-- `is_in_bounds`. -/
def isInBounds (r : BlobRef) : Bool := (r.offset &&& (cap.val - 1)) + r.len ≤ cap.val

/-- The bytes of the arena a descriptor names. -/
def byteRange (r : BlobRef) : Finset ℕ :=
  Finset.Ico (r.offset &&& (cap.val - 1)) ((r.offset &&& (cap.val - 1)) + r.len)

variable {cap}

theorem isLapped_eq_false {reserved : ℕ} {r : BlobRef} :
    isLapped cap reserved r = false ↔ reserved ≤ r.offset + cap.val := by
  simp only [isLapped, decide_eq_false_iff_not, Nat.not_lt]
  omega

theorem isInBounds_iff {r : BlobRef} :
    isInBounds cap r = true ↔ r.offset % cap.val + r.len ≤ cap.val := by
  rw [isInBounds, decide_eq_true_iff, Cyclic.and_mask_eq_mod cap.isPowerOfTwo]

theorem isInBounds_empty : isInBounds cap .empty = true := by
  rw [isInBounds_iff]
  simp [BlobRef.empty]

theorem checkLen_eq_ok {len : ℕ} {r : BlobRef} (h : checkLen cap len = some (.ok r)) :
    len = 0 ∧ r = .empty := by
  unfold checkLen at h
  split_ifs at h with h0 hmax
  · cases h
    exact ⟨h0, rfl⟩
  · cases h

theorem checkLen_eq_none {len : ℕ} :
    checkLen cap len = none ↔ len ≠ 0 ∧ len ≤ maxLen cap := by
  unfold checkLen
  split_ifs with h0 hmax
  · simp [h0]
  · simp [Nat.not_le.mpr hmax]
  · simp [h0, Nat.not_lt.mp hmax]

theorem maxLen_le : maxLen cap ≤ cap.val := Nat.min_le_left _ _

theorem le_slotSize (len : ℕ) : len ≤ slotSize len := by
  unfold slotSize
  omega

theorem dvd_slotSize (len : ℕ) : 64 ∣ slotSize len := Dvd.intro_left _ rfl

theorem place_eq (curr len : ℕ) :
    place cap curr len =
      if cap.val < curr % cap.val + len then
        (cap.val * (curr / cap.val + 1), cap.val * (curr / cap.val + 1) + slotSize len)
      else (curr, curr + slotSize len) := by
  unfold place
  rw [Cyclic.and_mask_eq_mod cap.isPowerOfTwo, Cyclic.or_mask_add_one cap.isPowerOfTwo]

theorem place_snd (curr len : ℕ) :
    (place cap curr len).2 = (place cap curr len).1 + slotSize len := by
  unfold place
  split_ifs <;> rfl

theorem le_place (curr len : ℕ) : curr ≤ (place cap curr len).1 := by
  rw [place_eq]
  split_ifs
  · have hdiv := Nat.div_add_mod curr cap.val
    have hmod := Nat.mod_lt curr cap.pos
    simp only [Nat.mul_add, Nat.mul_one]
    omega
  · exact le_refl _

/-- The capacity is a whole number of cache lines. -/
theorem dvd_capacity (cap : ArenaCapacity) : 64 ∣ cap.val := by
  have hle := cap.cacheLine
  obtain ⟨k, hk⟩ := cap.isPowerOfTwo
  have h64 : (64 : ℕ) = 2 ^ 6 := by decide
  rw [hk, h64] at hle ⊢
  exact Nat.pow_dvd_pow 2 ((Nat.pow_le_pow_iff_right (by decide)).mp hle)

theorem place_dvd {curr : ℕ} (h : 64 ∣ curr) (len : ℕ) :
    64 ∣ (place cap curr len).1 ∧ 64 ∣ (place cap curr len).2 := by
  have hfst : 64 ∣ (place cap curr len).1 := by
    rw [place_eq]
    split_ifs
    · exact (dvd_capacity cap).mul_right _
    · exact h
  refine ⟨hfst, ?_⟩
  rw [place_snd]
  exact Nat.dvd_add hfst (dvd_slotSize len)

/-- **A reservation never crosses the end of the arena.** -/
theorem place_inBounds {len : ℕ} (h : len ≤ cap.val) (curr flags : ℕ) :
    isInBounds cap ⟨(place cap curr len).1, len, flags⟩ = true := by
  rw [isInBounds_iff, place_eq]
  split_ifs with hwrap
  · rw [Nat.mul_mod_right, Nat.zero_add]
    exact h
  · exact Nat.not_lt.mp hwrap

/-- A byte of a contiguous slice is stored at its cumulative position modulo the capacity. -/
theorem index_eq_mod {r : BlobRef} {i : ℕ} (hb : isInBounds cap r = true) (hi : i < r.len) :
    (r.offset &&& (cap.val - 1)) + i = (r.offset + i) % cap.val := by
  rw [isInBounds_iff] at hb
  rw [Cyclic.and_mask_eq_mod cap.isPowerOfTwo, Cyclic.add_mod_of_le (by omega)]

/-- Two slices one behind the other, both within one arena length of the counter, share no
byte. -/
theorem disjoint_of_window {reserved : ℕ} {r r' : BlobRef} (hb : isInBounds cap r = true)
    (hb' : isInBounds cap r' = true) (hle : r.offset + r.len ≤ r'.offset)
    (hend : r'.offset + r'.len ≤ reserved) (hlap : isLapped cap reserved r = false) :
    Disjoint (byteRange cap r) (byteRange cap r') := by
  rw [isLapped_eq_false] at hlap
  rw [Finset.disjoint_left]
  intro x hx hx'
  simp only [byteRange, Finset.mem_Ico] at hx hx'
  obtain ⟨i, rfl⟩ := Nat.exists_eq_add_of_le hx.1
  obtain ⟨j, hj⟩ := Nat.exists_eq_add_of_le hx'.1
  have hi : i < r.len := by omega
  have hj' : j < r'.len := by omega
  rw [index_eq_mod hb hi, index_eq_mod hb' hj'] at hj
  exact Cyclic.mod_ne_of_lt (by omega) (by omega) hj

end PayloadArena

end Ringfire
