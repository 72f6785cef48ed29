import Ringfire.Replication.Wire

/-!
# Where a blob descriptor lies

`BlobConsumer<M>` reads the field `blob_ref` of a `Slot<BlobPacket<M>>`; a server and a mirror do
not know `M` and take the last 16 bytes of the slot. Both are laid out under `repr(C)`: the packet
starts at the first multiple of its alignment behind the slot word, the descriptor at the first
multiple of 8 behind the metadata, and the packet is padded to a multiple of its alignment.

## Main definitions

* `SlotLayout.blobRef`: the descriptor a typed consumer reads
* `SlotLayout.DescriptorLast`: the descriptor is the end of the slot

## Main results

* `SlotLayout.slotSize_eq`: how many bytes of padding follow the descriptor
* `SlotLayout.descriptorLast_iff`: where there are none
-/

namespace Ringfire

open LittleEndian

namespace SlotLayout

/-- The first byte of `blob_ref` within the slot. -/
def refStart (l : SlotLayout) : ℕ := l.dataOffset + l.refOffset

/-- The bytes of `meta`. -/
def metaBytes (l : SlotLayout) (slot : List UInt8) : List UInt8 :=
  (slot.drop l.dataOffset).take l.size

/-- The bytes of `blob_ref`. -/
def refBytes (l : SlotLayout) (slot : List UInt8) : List UInt8 :=
  (slot.drop l.refStart).take blobRefLen

/-- `blob_ref`. -/
def blobRef (l : SlotLayout) (slot : List UInt8) : BlobRef :=
  let b := l.refBytes slot
  ⟨ofLe (b.take 8), ofLe ((b.drop 8).take 4), ofLe ((b.drop 12).take 4)⟩

/-- A slot whose descriptor was rewritten by `MirrorRing::write_blob`. -/
def rewriteSlot (slot : List UInt8) (r : BlobRef) : List UInt8 :=
  slot.take 8 ++ putBlobRef (slot.drop 8) r

/-- The last 16 bytes of a slot are the bytes of `blob_ref`: a server finds the descriptor there,
and what a mirror writes there is what a consumer reads, beside the metadata it had. -/
structure DescriptorLast (l : SlotLayout) : Prop where
  location : l.slotSize - blobRefLen = l.refStart ∧ l.slotSize = l.refEnd
  bytes : ∀ slot, slot.length = l.slotSize → slot.drop (l.slotSize - blobRefLen) = l.refBytes slot
  found : ∀ slot, slot.length = l.slotSize → blobRefAt (slot.drop 8) = l.blobRef slot
  rewritten : ∀ slot r, slot.length = l.slotSize → r.Fits →
    l.blobRef (rewriteSlot slot r) = r ∧ l.metaBytes (rewriteSlot slot r) = l.metaBytes slot

variable {l : SlotLayout}

/-! ## The padding behind the descriptor -/

theorem alignUp_of_le {n align : ℕ} (hpos : 0 < n) (hle : n ≤ align) : alignUp n align = align := by
  have hdiv : (n + align - 1) / align = 1 :=
    Nat.div_eq_of_lt_le (by omega) (by omega)
  rw [alignUp, hdiv, Nat.one_mul]

theorem alignUp_add_of_dvd {m n align : ℕ} (hpos : 0 < align) (h : align ∣ m) :
    alignUp (m + n) align = m + alignUp n align := by
  obtain ⟨k, rfl⟩ := h
  have hdiv : (align * k + n + align - 1) / align = k + (n + align - 1) / align := by
    rw [Nat.add_assoc, Nat.add_sub_assoc (by omega), Nat.mul_add_div hpos]
  rw [alignUp, hdiv, Nat.add_mul, Nat.mul_comm k, alignUp]

/-- Metadata aligned to 32 bytes or more is followed by the descriptor at once, and the descriptor
by padding up to the next multiple of the alignment. -/
theorem slotSize_of_lt (hsize : l.align ∣ l.size) (halign : ∃ k, l.align = 2 ^ k)
    (hlt : 16 < l.align) : l.slotSize = l.refEnd + (l.align - 16) := by
  obtain ⟨k, hk⟩ := halign
  have hfive : 5 ≤ k := by
    by_contra hcon
    have hle : 2 ^ k ≤ 2 ^ 4 := Nat.pow_le_pow_right (by decide) (by omega)
    omega
  have height : 8 ∣ l.align := hk ▸ pow_dvd_pow 2 (show 3 ≤ k by omega)
  have hpacketAlign : l.packetAlign = l.align := max_eq_left (by omega)
  have hdata : l.dataOffset = l.align := by
    rw [dataOffset, hpacketAlign]
    exact alignUp_of_le (by decide) (by omega)
  have href : l.refOffset = l.size := alignUp_eq_self (by decide) (height.trans hsize)
  have hpacket : l.packetSize = l.size + l.align := by
    rw [packetSize, hpacketAlign, href, alignUp_add_of_dvd (by omega) hsize]
    exact congrArg (l.size + ·) (alignUp_of_le (by decide) (by unfold blobRefLen; omega))
  have hslot : l.slotSize = l.dataOffset + l.packetSize := by
    apply alignUp_eq_self (by omega)
    rw [hpacketAlign, hdata, hpacket]
    exact Nat.dvd_add dvd_rfl (Nat.dvd_add hsize dvd_rfl)
  rw [hslot, refEnd, hdata, href, hpacket, blobRefLen]
  omega

/-- **The padding behind the descriptor**: none with metadata aligned to at most 16 bytes. -/
theorem slotSize_eq (hsize : l.align ∣ l.size) (halign : ∃ k, l.align = 2 ^ k) :
    l.slotSize = l.refEnd + (l.align - 16) := by
  rcases Nat.lt_or_ge 16 l.align with hlt | hle
  · exact slotSize_of_lt hsize halign hlt
  · obtain ⟨k, hk⟩ := halign
    have hfour : k ≤ 4 := by
      by_contra hcon
      have hpow : 2 ^ 5 ≤ 2 ^ k := Nat.pow_le_pow_right (by decide) (by omega)
      omega
    have hcases : l.align = 1 ∨ l.align = 2 ∨ l.align = 4 ∨ l.align = 8 ∨ l.align = 16 := by
      have hk' : k = 0 ∨ k = 1 ∨ k = 2 ∨ k = 3 ∨ k = 4 := by omega
      rcases hk' with rfl | rfl | rfl | rfl | rfl <;> simp only [hk] <;> decide
    rw [refEnd_eq hsize hcases]
    omega

/-! ## The descriptor at the end of the slot -/

theorem drop_payload {slot : List UInt8} (hlen : slot.length = l.slotSize) :
    (slot.drop 8).drop ((slot.drop 8).length - blobRefLen) =
      slot.drop (l.slotSize - blobRefLen) := by
  have hle := l.refEnd_le
  rw [List.drop_drop, List.length_drop, hlen]
  congr 1
  omega

/-- Without padding the last 16 bytes are those of the descriptor. -/
theorem refBytes_eq_drop (hend : l.slotSize = l.refEnd) {slot : List UInt8}
    (hlen : slot.length = l.slotSize) :
    slot.drop (l.slotSize - blobRefLen) = l.refBytes slot := by
  have hstart : l.slotSize - blobRefLen = l.refStart := by
    rw [hend, refEnd, refStart]
    omega
  rw [refBytes, hstart, List.take_of_length_le]
  rw [List.length_drop, hlen, ← hstart]
  omega

theorem length_rewriteSlot {slot : List UInt8} (hlen : slot.length = l.slotSize) (r : BlobRef) :
    (rewriteSlot slot r).length = l.slotSize := by
  have hle := l.refEnd_le
  have hdrop : (slot.drop 8).length = l.slotSize - 8 := by rw [List.length_drop, hlen]
  rw [rewriteSlot, List.length_append, List.length_take,
    length_putBlobRef (by rw [hdrop]; omega), hdrop, hlen]
  omega

/-- A rewrite leaves everything in front of the descriptor alone. -/
theorem take_rewriteSlot {slot : List UInt8} (hlen : slot.length = l.slotSize) (r : BlobRef) :
    (rewriteSlot slot r).take (l.slotSize - blobRefLen) = slot.take (l.slotSize - blobRefLen) := by
  have hle := l.refEnd_le
  have hsum : l.slotSize - blobRefLen = 8 + (l.slotSize - 8 - blobRefLen) := by omega
  have hhead : (slot.take 8).length = 8 := by
    rw [List.length_take, hlen]
    omega
  have hdrop : (slot.drop 8).length = l.slotSize - 8 := by rw [List.length_drop, hlen]
  have htail : ((slot.drop 8).take (l.slotSize - 8 - blobRefLen)).length =
      l.slotSize - 8 - blobRefLen := by
    rw [List.length_take, hdrop]
    omega
  calc (rewriteSlot slot r).take (l.slotSize - blobRefLen)
      = slot.take 8 ++ (putBlobRef (slot.drop 8) r).take (l.slotSize - 8 - blobRefLen) := by
        rw [rewriteSlot, hsum]
        nth_rewrite 1 [← hhead]
        rw [List.take_length_add_append]
    _ = slot.take 8 ++ (slot.drop 8).take (l.slotSize - 8 - blobRefLen) := by
        rw [putBlobRef, hdrop]
        nth_rewrite 1 [← htail]
        rw [List.take_left]
    _ = slot.take (l.slotSize - blobRefLen) := by rw [hsum, List.take_add]

/-- A rewrite leaves the metadata alone, wherever the descriptor is. -/
theorem metaBytes_rewriteSlot (hend : l.slotSize = l.refEnd) {slot : List UInt8}
    (hlen : slot.length = l.slotSize) (r : BlobRef) :
    l.metaBytes (rewriteSlot slot r) = l.metaBytes slot := by
  have hmeta : l.dataOffset + l.size ≤ l.slotSize - blobRefLen := by
    have hsize : l.size ≤ l.refOffset := le_alignUp (by decide) _
    rw [hend, refEnd]
    omega
  have hcut : ∀ s : List UInt8, l.metaBytes s =
      ((s.take (l.slotSize - blobRefLen)).drop l.dataOffset).take l.size := by
    intro s
    rw [metaBytes, List.drop_take, List.take_take, Nat.min_eq_left (by omega)]
  rw [hcut, hcut, take_rewriteSlot hlen r]

theorem blobRefAt_drop (hend : l.slotSize = l.refEnd) {slot : List UInt8}
    (hlen : slot.length = l.slotSize) : blobRefAt (slot.drop 8) = l.blobRef slot := by
  rw [blobRefAt, blobRef, drop_payload hlen, refBytes_eq_drop hend hlen]

/-- What a mirror writes at the end of the slot is the descriptor a consumer reads. -/
theorem blobRef_rewriteSlot (hend : l.slotSize = l.refEnd) {slot : List UInt8}
    (hlen : slot.length = l.slotSize) {r : BlobRef} (hr : r.Fits) :
    l.blobRef (rewriteSlot slot r) = r := by
  have hle := l.refEnd_le
  have hhead : (slot.take 8).length = 8 := by
    rw [List.length_take, hlen]
    omega
  rw [← blobRefAt_drop hend (length_rewriteSlot hlen r), rewriteSlot, List.drop_left' hhead]
  exact blobRefAt_putBlobRef hr _

/-! ## Metadata with a larger alignment -/

/-- A slot of `n` bytes that ends with a byte of its own. -/
def tailSlot (n : ℕ) : List UInt8 := List.replicate (n - 1) 0 ++ [1]

theorem drop_tailSlot {n k : ℕ} (h : k < n) : (tailSlot n).drop k = tailSlot (n - k) := by
  rw [tailSlot, List.drop_append_of_le_length (by rw [List.length_replicate]; omega),
    List.drop_replicate, tailSlot, Nat.sub_right_comm]

theorem blobRefAt_tailSlot {n : ℕ} (h : blobRefLen ≤ n) :
    blobRefAt (tailSlot n) = ⟨0, 0, 2 ^ 24⟩ := by
  have hbytes : blobRefBytes ⟨0, 0, 2 ^ 24⟩ = tailSlot blobRefLen := by decide
  have hsplit : tailSlot n = List.replicate (n - blobRefLen) 0 ++ blobRefBytes ⟨0, 0, 2 ^ 24⟩ := by
    rw [hbytes, tailSlot, tailSlot, ← List.append_assoc, List.replicate_append_replicate]
    congr 2
    unfold blobRefLen at h ⊢
    omega
  rw [hsplit]
  exact blobRefAt_append ⟨by decide, by decide, by decide⟩ _

/-- With padding behind the descriptor a server reads padding, and misses the descriptor of some
slot. -/
theorem exists_missed (hsize : l.align ∣ l.size) (halign : ∃ k, l.align = 2 ^ k)
    (hlt : 16 < l.align) :
    ∃ slot : List UInt8, slot.length = l.slotSize ∧ blobRefAt (slot.drop 8) ≠ l.blobRef slot := by
  have hpad := slotSize_eq hsize halign
  have hle := l.refEnd_le
  have hend : l.refEnd = l.refStart + blobRefLen := rfl
  -- all zeros but the last byte, which the descriptor does not reach
  refine ⟨tailSlot l.slotSize, ?_, ?_⟩
  · rw [tailSlot, List.length_append, List.length_replicate, List.length_singleton]
    omega
  · have hfound : blobRefAt ((tailSlot l.slotSize).drop 8) = ⟨0, 0, 2 ^ 24⟩ := by
      rw [drop_tailSlot (by omega)]
      exact blobRefAt_tailSlot (by omega)
    have hread : l.refBytes (tailSlot l.slotSize) = List.replicate blobRefLen 0 := by
      rw [refBytes, drop_tailSlot (by omega), tailSlot,
        List.take_append_of_le_length (by rw [List.length_replicate]; omega),
        List.take_replicate, Nat.min_eq_left (by omega)]
    intro heq
    have hflags := congrArg BlobRef.flags (hfound.symm.trans heq)
    simp only [blobRef, hread, List.drop_replicate, List.take_replicate, ofLe_zeros] at hflags
    omega

/-- **Where the descriptor is the end of the slot**: with metadata aligned to at most 16 bytes. -/
theorem descriptorLast_iff (l : SlotLayout) (hsize : l.align ∣ l.size)
    (halign : ∃ k, l.align = 2 ^ k) : l.DescriptorLast ↔ l.align ≤ 16 := by
  constructor
  · intro h
    by_contra hlt
    obtain ⟨slot, hlen, hne⟩ := exists_missed hsize halign (Nat.lt_of_not_le hlt)
    exact hne (h.found slot hlen)
  · intro hle
    have hend : l.slotSize = l.refEnd := by
      have hpad := slotSize_eq hsize halign
      omega
    refine ⟨⟨?_, hend⟩, ?_, ?_, ?_⟩
    · rw [hend, refEnd, refStart]
      omega
    · intro slot hlen
      exact refBytes_eq_drop hend hlen
    · intro slot hlen
      exact blobRefAt_drop hend hlen
    · intro slot r hlen hr
      exact ⟨blobRef_rewriteSlot hend hlen hr, metaBytes_rewriteSlot hend hlen r⟩

/-- A packet whose metadata is aligned to 16 bytes. -/
theorem descriptorLast_iff_of_sixteen : DescriptorLast ⟨48, 16⟩ ↔ 16 ≤ 16 :=
  descriptorLast_iff ⟨48, 16⟩ ⟨3, rfl⟩ ⟨4, rfl⟩

/-- Metadata of 32 bytes with 32-byte alignment. -/
def wideMetadata : SlotLayout := ⟨32, 32⟩

/-- The slot has 96 bytes, and the descriptor is in the bytes 64 to 80 of it; a server and a mirror
take the bytes 80 to 96. -/
theorem wideMetadata_not_descriptorLast :
    wideMetadata.align ∣ wideMetadata.size ∧ wideMetadata.align = 2 ^ 5 ∧
      wideMetadata.refStart = 64 ∧ wideMetadata.slotSize = 96 ∧
      ¬ wideMetadata.DescriptorLast := by
  refine ⟨dvd_rfl, rfl, by decide, by decide, ?_⟩
  intro h
  exact absurd h.location.2 (by decide)

end SlotLayout

end Ringfire
