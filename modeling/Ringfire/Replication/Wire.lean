import Ringfire.Arena.Reserve
import Ringfire.Foundation.LittleEndian

/-!
# Frames and records on the wire

The byte formats of `replication.rs`: the 16-byte header of a frame, and the record of a message,
which is its slot payload followed, on arena rings, by the bytes of its blob. The last 16 bytes of
the slot payload of an arena ring are the blob descriptor. Records of a `DATA` frame are
consecutive and nothing separates them; the length of a blob is in the descriptor in front of it.

## Main definitions

* `Frame.encode`, `Frame.decode`
* `blobRefAt`, `putBlobRef`: the descriptor at the end of a slot payload
* `dataBytes`: the body of a `DATA` frame

## Main results

* `Frame.decode_encode`, `blobRefAt_putBlobRef`: what is written is read back
* `SlotLayout.refEnd_eq`: the descriptor is at the end of the slot when the metadata is aligned to
  at most 16 bytes
-/

namespace Ringfire

open LittleEndian

/-- The kinds of frames. -/
def kindHello : ℕ := 1
@[inherit_doc kindHello] def kindGeometry : ℕ := 2
@[inherit_doc kindHello] def kindData : ℕ := 3
@[inherit_doc kindHello] def kindGap : ℕ := 4
@[inherit_doc kindHello] def kindHeartbeat : ℕ := 5
@[inherit_doc kindHello] def kindMulticast : ℕ := 7

/-- `FRAME_HEADER_LEN`. -/
def frameHeaderLen : ℕ := 16

/-- `BLOB_REF_LEN`. -/
def blobRefLen : ℕ := 16

/-- The header of a frame. -/
structure Frame where
  kind : ℕ
  flags : ℕ
  count : ℕ
  len : ℕ
  seq : ℕ
  deriving DecidableEq, Repr

namespace Frame

/-- A frame without a body. -/
def control (kind seq : ℕ) : Frame := ⟨kind, 0, 0, 0, seq⟩

/-- The bytes of a header. -/
def encode (f : Frame) : List UInt8 :=
  toLe 1 f.kind ++ toLe 1 f.flags ++ toLe 2 f.count ++ toLe 4 f.len ++ toLe 8 f.seq

/-- The header the first 16 bytes spell. -/
def decode (b : List UInt8) : Frame where
  kind := ofLe (b.take 1)
  flags := ofLe ((b.drop 1).take 1)
  count := ofLe ((b.drop 2).take 2)
  len := ofLe ((b.drop 4).take 4)
  seq := ofLe ((b.drop 8).take 8)

/-- Every field fits its width. -/
structure Fits (f : Frame) : Prop where
  kind : f.kind < 256 ^ 1
  flags : f.flags < 256 ^ 1
  count : f.count < 256 ^ 2
  len : f.len < 256 ^ 4
  seq : f.seq < 256 ^ 8

theorem length_encode (f : Frame) : f.encode.length = frameHeaderLen := by
  simp [encode, frameHeaderLen]

/-- A length that does not fit its field is cut off. -/
theorem encode_len_mod (f : Frame) : { f with len := f.len % 256 ^ 4 }.encode = f.encode := by
  simp only [encode, toLe_mod]

/-- **A header is read back**, whatever follows it. -/
theorem decode_encode {f : Frame} (h : f.Fits) (rest : List UInt8) :
    decode (f.encode ++ rest) = f := by
  have hkind : ofLe (((f.encode ++ rest).drop 0).take 1) = f.kind :=
    ofLe_field [] _ (by simp only [encode, List.append_assoc, List.nil_append]; rfl) rfl h.kind
  have hflags : ofLe (((f.encode ++ rest).drop 1).take 1) = f.flags :=
    ofLe_field (toLe 1 f.kind) _ (by simp only [encode, List.append_assoc]; rfl) (by simp) h.flags
  have hcount : ofLe (((f.encode ++ rest).drop 2).take 2) = f.count :=
    ofLe_field (toLe 1 f.kind ++ toLe 1 f.flags) _
      (by simp only [encode, List.append_assoc]; rfl) (by simp) h.count
  have hlen : ofLe (((f.encode ++ rest).drop 4).take 4) = f.len :=
    ofLe_field (toLe 1 f.kind ++ toLe 1 f.flags ++ toLe 2 f.count) _
      (by simp only [encode, List.append_assoc]; rfl) (by simp) h.len
  have hseq : ofLe (((f.encode ++ rest).drop 8).take 8) = f.seq :=
    ofLe_field (toLe 1 f.kind ++ toLe 1 f.flags ++ toLe 2 f.count ++ toLe 4 f.len) _
      (by simp only [encode, List.append_assoc]; rfl) (by simp) h.seq
  rw [List.drop_zero] at hkind
  simp only [decode, hkind, hflags, hcount, hlen, hseq]

end Frame

/-! ## Blob descriptors -/

/-- `blob_ref_at`: the descriptor at the end of a slot payload. -/
def blobRefAt (payload : List UInt8) : BlobRef :=
  let b := payload.drop (payload.length - blobRefLen)
  ⟨ofLe (b.take 8), ofLe ((b.drop 8).take 4), ofLe ((b.drop 12).take 4)⟩

/-- The bytes of a descriptor. -/
def blobRefBytes (r : BlobRef) : List UInt8 := toLe 8 r.offset ++ toLe 4 r.len ++ toLe 4 r.flags

/-- `put_blob_ref`: replaces the descriptor at the end of a slot payload. -/
def putBlobRef (payload : List UInt8) (r : BlobRef) : List UInt8 :=
  payload.take (payload.length - blobRefLen) ++ blobRefBytes r

/-- What stands before the descriptor: the metadata of the message. -/
def metadata (payload : List UInt8) : List UInt8 := payload.take (payload.length - blobRefLen)

/-- Every field of the descriptor fits its width. -/
structure BlobRef.Fits (r : BlobRef) : Prop where
  offset : r.offset < 256 ^ 8
  len : r.len < 256 ^ 4
  flags : r.flags < 256 ^ 4

theorem length_blobRefBytes (r : BlobRef) : (blobRefBytes r).length = blobRefLen := by
  simp [blobRefBytes, blobRefLen]

theorem blobRefAt_append {r : BlobRef} (h : r.Fits) (front : List UInt8) :
    blobRefAt (front ++ blobRefBytes r) = r := by
  have hdrop : (front ++ blobRefBytes r).drop
      ((front ++ blobRefBytes r).length - blobRefLen) = blobRefBytes r := by
    rw [List.length_append, length_blobRefBytes, Nat.add_sub_cancel, List.drop_left]
  have hoffset : ofLe (((blobRefBytes r).drop 0).take 8) = r.offset :=
    ofLe_field [] _ (by simp only [blobRefBytes, List.append_assoc, List.nil_append]; rfl) rfl
      h.offset
  have hlen : ofLe (((blobRefBytes r).drop 8).take 4) = r.len :=
    ofLe_field (toLe 8 r.offset) _ (by simp only [blobRefBytes, List.append_assoc]; rfl) (by simp)
      h.len
  have hflags : ofLe (((blobRefBytes r).drop 12).take 4) = r.flags :=
    ofLe_field (toLe 8 r.offset ++ toLe 4 r.len) []
      (by simp only [blobRefBytes, List.append_assoc, List.append_nil]) (by simp) h.flags
  rw [List.drop_zero] at hoffset
  simp only [blobRefAt, hdrop, hoffset, hlen, hflags]

theorem metadata_append (r : BlobRef) (front : List UInt8) :
    metadata (front ++ blobRefBytes r) = front := by
  rw [metadata, List.length_append, length_blobRefBytes, Nat.add_sub_cancel, List.take_left]

/-- **A descriptor is read back.** -/
theorem blobRefAt_putBlobRef {r : BlobRef} (h : r.Fits) (payload : List UInt8) :
    blobRefAt (putBlobRef payload r) = r :=
  blobRefAt_append h _

/-- Replacing the descriptor leaves the metadata alone. -/
theorem metadata_putBlobRef (payload : List UInt8) (r : BlobRef) :
    metadata (putBlobRef payload r) = metadata payload :=
  metadata_append r _

theorem length_putBlobRef {payload : List UInt8} (h : blobRefLen ≤ payload.length) (r : BlobRef) :
    (putBlobRef payload r).length = payload.length := by
  rw [putBlobRef, List.length_append, length_blobRefBytes, List.length_take]
  omega

/-- The length and the flags a descriptor spells fit in 32 bits. -/
theorem blobRefAt_lt (payload : List UInt8) :
    (blobRefAt payload).len < 256 ^ 4 ∧ (blobRefAt payload).flags < 256 ^ 4 := by
  constructor
  · refine (ofLe_lt _).trans_le (Nat.pow_le_pow_right (by decide) ?_)
    exact List.length_take_le _ _
  · refine (ofLe_lt _).trans_le (Nat.pow_le_pow_right (by decide) ?_)
    exact List.length_take_le _ _

/-! ## Where the descriptor of a `BlobPacket` lies -/

/-- `n` rounded up to a multiple of `align`. -/
def alignUp (n align : ℕ) : ℕ := (n + align - 1) / align * align

/-- The size and the alignment of the metadata type of a blob channel. -/
structure SlotLayout where
  size : ℕ
  align : ℕ

namespace SlotLayout

/-- The alignment of `BlobPacket<M>` and of its slot: the descriptor and the slot word are aligned
to 8 bytes. -/
def packetAlign (l : SlotLayout) : ℕ := max l.align 8

/-- Where `blob_ref` starts within `BlobPacket<M>`. -/
def refOffset (l : SlotLayout) : ℕ := alignUp l.size 8

/-- `size_of::<BlobPacket<M>>()`. -/
def packetSize (l : SlotLayout) : ℕ := alignUp (l.refOffset + blobRefLen) l.packetAlign

/-- Where the packet starts within its slot. -/
def dataOffset (l : SlotLayout) : ℕ := alignUp 8 l.packetAlign

/-- `size_of::<Slot<BlobPacket<M>>>()`. -/
def slotSize (l : SlotLayout) : ℕ := alignUp (l.dataOffset + l.packetSize) l.packetAlign

/-- The byte after the descriptor within the slot. -/
def refEnd (l : SlotLayout) : ℕ := l.dataOffset + l.refOffset + blobRefLen

theorem alignUp_eq_self {n align : ℕ} (hpos : 0 < align) (h : align ∣ n) : alignUp n align = n := by
  obtain ⟨k, rfl⟩ := h
  unfold alignUp
  have hdiv : (align * k + align - 1) / align = k := by
    rw [Nat.add_sub_assoc hpos, Nat.mul_add_div hpos, Nat.div_eq_of_lt (by omega), Nat.add_zero]
  rw [hdiv, Nat.mul_comm]

theorem dvd_alignUp (n align : ℕ) : align ∣ alignUp n align := Dvd.intro_left _ rfl

theorem le_alignUp {align : ℕ} (hpos : 0 < align) (n : ℕ) : n ≤ alignUp n align := by
  unfold alignUp
  have hdiv := Nat.div_add_mod (n + align - 1) align
  have hmod := Nat.mod_lt (n + align - 1) hpos
  rw [Nat.mul_comm] at hdiv
  omega

/-- The descriptor lies within the slot, behind the slot word. -/
theorem refEnd_le (l : SlotLayout) : 8 + blobRefLen ≤ l.refEnd ∧ l.refEnd ≤ l.slotSize := by
  have hpos : 0 < l.packetAlign := by
    unfold packetAlign
    omega
  have hdata : 8 ≤ l.dataOffset := le_alignUp hpos 8
  have hpacket : l.refOffset + blobRefLen ≤ l.packetSize := le_alignUp hpos _
  have hslot : l.dataOffset + l.packetSize ≤ l.slotSize := le_alignUp hpos _
  unfold refEnd
  constructor <;> omega

/-- **With metadata aligned to at most 16 bytes the slot ends with the descriptor.** The size of a
type is a multiple of its alignment, and the alignment is a power of two. -/
theorem refEnd_eq {l : SlotLayout} (hsize : l.align ∣ l.size)
    (halign : l.align = 1 ∨ l.align = 2 ∨ l.align = 4 ∨ l.align = 8 ∨ l.align = 16) :
    l.refEnd = l.slotSize := by
  have hpacket : l.packetAlign = 8 ∨ (l.packetAlign = 16 ∧ 16 ∣ l.size) := by
    unfold packetAlign
    rcases halign with h | h | h | h | h
    · left; omega
    · left; omega
    · left; omega
    · left; omega
    · right
      exact ⟨by omega, h ▸ hsize⟩
  -- either the descriptor's own alignment rules, or the metadata fills whole 16-byte units
  have href : l.packetAlign ∣ l.refOffset + blobRefLen := by
    rcases hpacket with h | ⟨h, hdvd⟩
    · rw [h]
      exact Nat.dvd_add (dvd_alignUp _ _) (by decide)
    · rw [h, refOffset, alignUp_eq_self (by decide) ((by decide : 8 ∣ 16).trans hdvd)]
      exact Nat.dvd_add hdvd (by decide)
  have hpos : 0 < l.packetAlign := by
    rcases hpacket with h | ⟨h, -⟩ <;> omega
  have hsz : l.packetSize = l.refOffset + blobRefLen := alignUp_eq_self hpos href
  have hslot : l.packetAlign ∣ l.dataOffset + (l.refOffset + blobRefLen) :=
    Nat.dvd_add (dvd_alignUp _ _) href
  rw [slotSize, hsz, alignUp_eq_self hpos hslot, refEnd, Nat.add_assoc]

end SlotLayout

/-! ## Records -/

/-- A message as it travels: its slot payload and the bytes of its blob. -/
structure Record where
  payload : List UInt8
  blob : List UInt8
  deriving DecidableEq, Repr

/-- The bytes of a record. -/
def Record.bytes (r : Record) : List UInt8 := r.payload ++ r.blob

/-- The body of a `DATA` frame: the records of `count` consecutive sequences. -/
def dataBytes (record : ℕ → Record) (seq count : ℕ) : List UInt8 :=
  (List.range' seq count).flatMap fun s => (record s).bytes

/-- `data_frame`: the header of a `DATA` frame. -/
def dataFrame (flags count seq : ℕ) (body : List UInt8) : Frame :=
  ⟨kindData, flags, count, body.length, seq⟩

/-- The header of a `DATA` frame on the wire: every field holds its value as far as it goes. -/
theorem Frame.decode_dataFrame (flags count seq : ℕ) (body rest : List UInt8) :
    decode ((dataFrame flags count seq body).encode ++ rest) =
      ⟨kindData, flags % 256 ^ 1, count % 256 ^ 2, body.length % 256 ^ 4, seq % 256 ^ 8⟩ := by
  have hfits : (Frame.mk kindData (flags % 256 ^ 1) (count % 256 ^ 2) (body.length % 256 ^ 4)
      (seq % 256 ^ 8)).Fits :=
    ⟨(by decide : kindData < 256 ^ 1), Nat.mod_lt _ (by decide), Nat.mod_lt _ (by decide),
      Nat.mod_lt _ (by decide), Nat.mod_lt _ (by decide)⟩
  have henc : (dataFrame flags count seq body).encode =
      (Frame.mk kindData (flags % 256 ^ 1) (count % 256 ^ 2) (body.length % 256 ^ 4)
        (seq % 256 ^ 8)).encode := by
    simp only [dataFrame, encode, toLe_mod]
  rw [henc, decode_encode hfits]

theorem dataBytes_succ (record : ℕ → Record) (seq count : ℕ) :
    dataBytes record seq (count + 1) = (record seq).bytes ++ dataBytes record (seq + 1) count := by
  rw [dataBytes, List.range'_succ, List.flatMap_cons]
  rfl

end Ringfire
