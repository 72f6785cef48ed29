import Ringfire.Replication.Budget
import Ringfire.Replication.UdpDelivery

/-!
# The header of a `DATA` frame

`data_frame` stores the number of records in 16 bits and the length of the body in 32. The loops
that send frames clamp the number of records; what bounds the length is the budget of the frame,
which a single record may exceed, and an arena takes blobs of up to `u32::MAX` bytes.

## Main definitions

* `FrameLoop`: the loops that send `DATA` frames, with one turn of each
* `HeaderExact`: what the header says is what follows
* `FrameLoop.Short`: no call of `collect` starts with too long a record

## Main results

* `FrameLoop.headerExact_iff`: when the header is exact
* `FrameLoop.exact_of_roomy`: it is on a ring whose messages and arena are small
-/

namespace Ringfire

open PayloadArena

variable {w : ℕ}

/-- The length of a frame whose body is too long for its header. -/
def frameLimit : ℕ := frameHeaderLen + 256 ^ 4

/-- The header of a frame says how many records there are and how many bytes follow. -/
structure HeaderExact (wire : List UInt8) (out : List Record) : Prop where
  count : (Frame.decode wire).count = out.length
  len : wire.length = frameHeaderLen + (Frame.decode wire).len

/-- A loop that sends `DATA` frames. -/
inductive FrameLoop where
  | client
  /-- `serve_range`, up to the sequence `last`. -/
  | range (last : ℕ)
  /-- `udp_loop`, with its budget. -/
  | udp (maxBytes : ℕ)

namespace FrameLoop

/-- What a turn of the loop gathers from `cursor` on. -/
def gather (loop : FrameLoop) (batch cursor : ℕ) (rings : RingStates w)
    (later : List (RingStates w)) : Collected × List Record :=
  match loop with
  | .client => rings.collectLingering later cursor (SourceRing.clampBatch batch) tcpFrameBytes
  | .range last =>
    rings.collect cursor (min (SourceRing.clampBatch batch) (last - cursor + 1)) tcpFrameBytes []
  | .udp maxBytes => rings.collectLingering later cursor (SourceRing.clampBatch batch) maxBytes

/-- The frame that it sends, if any. -/
def frame (loop : FrameLoop) (session : UInt8) (batch cursor : ℕ) (rings : RingStates w)
    (later : List (RingStates w)) : Option (List UInt8) :=
  let got := loop.gather batch cursor rings later
  if 0 < got.1.count then
    match loop with
    | .client | .range _ => some (TcpServer.dataWire cursor got.1 got.2)
    -- too long for a datagram
    | .udp _ =>
      if udpMaxPayload < wireLen got.2 then none
      else some (UdpSender.datagram session cursor got.1 got.2)
  else none

end FrameLoop

/-- With the records `got` in the frame, no later call of `collect` starts with a record that makes
the frame too long. -/
def RingStates.ShortLater (cursor maxRecords maxBytes : ℕ) :
    List (RingStates w) → Collected × List Record → Prop
  | [], _ => True
  | rings :: later, got =>
    0 < got.1.count → got.1.full maxRecords maxBytes got.2 = false →
      (∀ r, (rings 0).readRecord (cursor + got.1.count) = .item r →
        wireLen (got.2 ++ [r]) < frameLimit) ∧
      ShortLater cursor maxRecords maxBytes later
        (rings.collectMore cursor maxRecords maxBytes got)

/-- No call of `collect` starts with a record that makes the frame too long. -/
def FrameLoop.Short (loop : FrameLoop) (batch cursor : ℕ) (rings : RingStates w)
    (later : List (RingStates w)) : Prop :=
  let first := ∀ r, (rings 0).readRecord cursor = .item r → wireLen [r] < frameLimit
  match loop with
  | .client =>
    first ∧ RingStates.ShortLater cursor (SourceRing.clampBatch batch) tcpFrameBytes later
      (rings.collect cursor (SourceRing.clampBatch batch) tcpFrameBytes [])
  | .range _ => first
  | .udp _ => True

/-! ## What is gathered -/

namespace RingStates

variable {rings : RingStates w} {later : List (RingStates w)} {cursor maxRecords maxBytes : ℕ}
  {out : List Record}

/-- A call of `collect` counts what it takes. -/
structure Counts (maxRecords : ℕ) (got : Collected × List Record) : Prop where
  count : got.1.count = got.2.length
  le : got.1.count ≤ maxRecords

theorem collect_counts (rings : RingStates w) (cursor maxRecords maxBytes : ℕ) :
    Counts maxRecords (rings.collect cursor maxRecords maxBytes []) := by
  obtain ⟨rs, hout, hcount, hle, -⟩ := collectLoop_keeps rings cursor maxBytes maxRecords 0 []
  rw [Nat.zero_add] at hcount
  rw [List.nil_append] at hout
  unfold collect
  exact ⟨by rw [hcount, hout], hcount.trans_le hle⟩

theorem Counts.more {got : Collected × List Record} (h : Counts maxRecords got) :
    Counts maxRecords (rings.collectMore cursor maxRecords maxBytes got) := by
  obtain ⟨rs, hout, hcount, hle, -⟩ := collectLoop_keeps rings (cursor + got.1.count) maxBytes
    (maxRecords - got.1.count) 0 got.2
  rw [Nat.zero_add] at hcount
  have hmax := h.le
  constructor
  · simp only [collectMore, collect]
    rw [hout, hcount, List.length_append, h.count]
  · simp only [collectMore, collect]
    rw [hcount]
    omega

theorem Counts.lingerLoop {got : Collected × List Record} (h : Counts maxRecords got)
    (later : List (RingStates w)) :
    Counts maxRecords (lingerLoop cursor maxRecords maxBytes later got) := by
  induction later generalizing got with
  | nil => exact h
  | cons rings later ih =>
    rw [RingStates.lingerLoop]
    split_ifs
    · exact h
    · exact ih h.more

theorem collectLingering_counts (rings : RingStates w) (later : List (RingStates w))
    (cursor maxRecords maxBytes : ℕ) :
    Counts maxRecords (rings.collectLingering later cursor maxRecords maxBytes) := by
  have hfirst := collect_counts rings cursor maxRecords maxBytes
  unfold collectLingering
  simp only
  split_ifs
  · exact hfirst
  · exact hfirst.lingerLoop later

/-- A call of `collect` makes a frame too long with its first record or not at all. -/
theorem collect_short_iff (rings : RingStates w) (cursor : ℕ) (hmax : maxBytes < frameLimit)
    (hpos : 0 < maxRecords) (hout : wireLen out < frameLimit) :
    wireLen (rings.collect cursor maxRecords maxBytes out).2 < frameLimit ↔
      ∀ r, (rings 0).readRecord cursor = .item r → wireLen (out ++ [r]) < frameLimit := by
  obtain ⟨left, rfl⟩ := Nat.exists_eq_succ_of_ne_zero hpos.ne'
  rw [collect, collectLoop, Nat.add_zero]
  cases hread : (rings 0).readRecord cursor with
  | pending | overwritten seen | lost => exact iff_of_true hout (by rintro _ ⟨⟩)
  | item r =>
    simp only [collectTurn, Nat.lt_irrefl, false_and, if_false, RawRead.item.injEq, forall_eq']
    split_ifs with hfull
    · exact Iff.rfl
    · -- the others have to fit the budget
      obtain ⟨rs, hrs, -, -, hbytes⟩ := collectLoop_keeps rings cursor maxBytes left 1 (out ++ [r])
      rw [hrs]
      have hshort := Nat.not_le.mp hfull
      exact iff_of_true ((hbytes Nat.one_pos hshort.le).trans_lt hmax) (hshort.trans hmax)

theorem lingerLoop_of_full {got : Collected × List Record} (later : List (RingStates w))
    (h : got.1.full maxRecords maxBytes got.2 = true) :
    lingerLoop cursor maxRecords maxBytes later got = got := by
  cases later with
  | nil => rfl
  | cons rings later => rw [lingerLoop, if_pos h]

/-- The loop of `collect_lingering` keeps the frame short exactly when every call of `collect`
starts with a record that does. -/
theorem lingerLoop_short_iff (hmax : maxBytes < frameLimit) :
    ∀ (later : List (RingStates w)) (got : Collected × List Record), 0 < got.1.count →
      wireLen got.2 < frameLimit →
      (wireLen (lingerLoop cursor maxRecords maxBytes later got).2 < frameLimit ↔
        ShortLater cursor maxRecords maxBytes later got) := by
  -- induction on the calls; a frame that is too long is full and stays as it is
  intro later
  induction later with
  | nil =>
    intro got _ hshort
    exact iff_of_true hshort trivial
  | cons rings later ih =>
    intro got hpos hshort
    cases hfull : got.1.full maxRecords maxBytes got.2 with
    | true =>
      rw [lingerLoop_of_full _ hfull]
      refine iff_of_true hshort fun _ hnot => ?_
      rw [hfull] at hnot
      cases hnot
    | false =>
      have hone := collect_short_iff rings (cursor + got.1.count) hmax
        (Nat.sub_pos_of_lt (SourceRing.room_of_not_full hfull).1) hshort
      rw [lingerLoop, if_neg (by rw [hfull]; exact Bool.false_ne_true)]
      by_cases hfirst : ∀ r, (rings 0).readRecord (cursor + got.1.count) = .item r →
          wireLen (got.2 ++ [r]) < frameLimit
      · rw [ih (rings.collectMore cursor maxRecords maxBytes got) (Nat.add_pos_left hpos _)
          (hone.mpr hfirst)]
        exact ⟨fun h _ _ => ⟨hfirst, h⟩, fun h => (h hpos hfull).2⟩
      · have hlong : ¬ wireLen (rings.collectMore cursor maxRecords maxBytes got).2 < frameLimit :=
          hone.not.mpr hfirst
        rw [lingerLoop_of_full later
          (SourceRing.full_of_long (hmax.trans_le (Nat.not_lt.mp hlong)))]
        exact iff_of_false hlong fun h => hfirst (h hpos hfull).1

/-- The same of `collect_lingering`. -/
theorem collectLingering_short_iff (rings : RingStates w) (later : List (RingStates w))
    (cursor : ℕ) (hmax : maxBytes < frameLimit) (hpos : 0 < maxRecords) :
    wireLen (rings.collectLingering later cursor maxRecords maxBytes).2 < frameLimit ↔
      (∀ r, (rings 0).readRecord cursor = .item r → wireLen [r] < frameLimit) ∧
        ShortLater cursor maxRecords maxBytes later
          (rings.collect cursor maxRecords maxBytes []) := by
  have hempty : wireLen [] < frameLimit := by decide
  have hone := collect_short_iff rings cursor hmax hpos hempty
  simp only [List.nil_append] at hone
  obtain ⟨hcount, -⟩ := collect_counts rings cursor maxRecords maxBytes
  unfold collectLingering
  generalize rings.collect cursor maxRecords maxBytes [] = got at hone hcount ⊢
  rcases Nat.eq_zero_or_pos got.1.count with hzero | hcounted
  · -- nothing was there, and the loop is not entered
    have hnil : got.2 = [] := List.length_eq_zero_iff.mp (hcount.symm.trans hzero)
    simp only [hzero, true_or, if_true]
    have hshort : wireLen got.2 < frameLimit := by
      rw [hnil]
      exact hempty
    refine iff_of_true hshort ⟨hone.mp hshort, ?_⟩
    cases later with
    | nil => trivial
    | cons _ _ => exact fun hlt => absurd hzero hlt.ne'
  · have hloop : (if got.1.count = 0 ∨ got.1.full maxRecords maxBytes got.2 then got
        else lingerLoop cursor maxRecords maxBytes later got) =
        lingerLoop cursor maxRecords maxBytes later got := by
      simp only [hcounted.ne', false_or]
      split_ifs with hfull
      · exact (lingerLoop_of_full later hfull).symm
      · rfl
    simp only
    rw [hloop]
    by_cases hshort : wireLen got.2 < frameLimit
    · rw [lingerLoop_short_iff hmax later got hcounted hshort]
      exact ⟨fun h => ⟨hone.mp hshort, h⟩, fun h => h.2⟩
    · rw [lingerLoop_of_full later
        (SourceRing.full_of_long (hmax.trans_le (Nat.not_lt.mp hshort)))]
      exact iff_of_false hshort fun h => hshort (hone.mpr h.1)

end RingStates

/-! ## The header -/

/-- A header that counts its records is exact when the body is short enough. -/
theorem headerExact_data_iff {flags count seq : ℕ} {out : List Record} (hcount : count = out.length)
    (hle : count < 256 ^ 2) :
    HeaderExact ((dataFrame flags count seq (out.flatMap Record.bytes)).encode ++
      out.flatMap Record.bytes) out ↔ wireLen out < frameLimit := by
  have hdec := Frame.decode_dataFrame flags count seq (out.flatMap Record.bytes)
    (out.flatMap Record.bytes)
  have hlen : ((dataFrame flags count seq (out.flatMap Record.bytes)).encode ++
      out.flatMap Record.bytes).length = wireLen out := by
    rw [List.length_append, Frame.length_encode, wireLen_eq]
  rw [wireLen_eq] at hlen ⊢
  unfold frameLimit
  constructor
  · rintro ⟨-, hexact⟩
    rw [hlen, hdec] at hexact
    have hmod := Nat.mod_lt (out.flatMap Record.bytes).length (by decide : 0 < 256 ^ 4)
    simp only at hexact
    omega
  · intro hshort
    refine ⟨?_, ?_⟩
    · rw [hdec]
      exact (Nat.mod_eq_of_lt hle).trans hcount
    · rw [hlen, hdec]
      exact congrArg _ (Nat.mod_eq_of_lt (Nat.add_lt_add_iff_left.mp hshort)).symm

namespace FrameLoop

variable {rings : RingStates w} {later : List (RingStates w)} {batch cursor : ℕ}

/-- A turn of a loop counts what it gathers, and no more than 16 bits can. -/
theorem gather_counts (loop : FrameLoop) (batch cursor : ℕ) (rings : RingStates w)
    (later : List (RingStates w)) :
    (loop.gather batch cursor rings later).1.count =
        (loop.gather batch cursor rings later).2.length ∧
      (loop.gather batch cursor rings later).1.count < 256 ^ 2 := by
  have hbatch := (TcpServer.clampBatch_bounds batch).2
  cases loop with
  | client | udp maxBytes =>
    obtain ⟨hcount, hle⟩ := RingStates.collectLingering_counts rings later cursor
      (SourceRing.clampBatch batch) _
    exact ⟨hcount, (hle.trans hbatch).trans_lt (by decide)⟩
  | range last =>
    obtain ⟨hcount, hle⟩ := RingStates.collect_counts rings cursor
      (min (SourceRing.clampBatch batch) (last - cursor + 1)) tcpFrameBytes
    exact ⟨hcount, ((hle.trans (Nat.min_le_left _ _)).trans hbatch).trans_lt (by decide)⟩

/-- A turn of a loop over TCP sends an exact header when what it gathers is short enough. -/
theorem tcp_exact_iff {loop : FrameLoop} (htcp : loop = .client ∨ ∃ last, loop = .range last)
    (session : UInt8) :
    (∀ wire, loop.frame session batch cursor rings later = some wire →
        HeaderExact wire (loop.gather batch cursor rings later).2) ↔
      wireLen (loop.gather batch cursor rings later).2 < frameLimit := by
  obtain ⟨hcount, hle⟩ := loop.gather_counts batch cursor rings later
  have hframe : loop.frame session batch cursor rings later =
      if 0 < (loop.gather batch cursor rings later).1.count then
        some (TcpServer.dataWire cursor (loop.gather batch cursor rings later).1
          (loop.gather batch cursor rings later).2)
      else none := by
    rcases htcp with rfl | ⟨last, rfl⟩ <;> rfl
  rw [hframe]
  generalize loop.gather batch cursor rings later = got at hcount hle ⊢
  rcases Nat.eq_zero_or_pos got.1.count with hzero | hpos
  · -- no frame, and nothing gathered
    have hnil : got.2 = [] := List.length_eq_zero_iff.mp (hcount.symm.trans hzero)
    rw [hnil, if_neg (Nat.not_lt.mpr hzero.le)]
    exact iff_of_true (by rintro _ ⟨⟩) (by decide)
  · rw [if_pos hpos]
    simp only [Option.some.injEq, forall_eq', TcpServer.dataWire, if_pos hpos]
    exact headerExact_data_iff hcount hle

/-- A datagram is always short enough. -/
theorem udp_exact (maxBytes : ℕ) (session : UInt8) {wire : List UInt8}
    (h : (FrameLoop.udp maxBytes).frame session batch cursor rings later = some wire) :
    HeaderExact wire ((FrameLoop.udp maxBytes).gather batch cursor rings later).2 := by
  obtain ⟨hcount, hle⟩ := (FrameLoop.udp maxBytes).gather_counts batch cursor rings later
  unfold frame at h
  simp only at h
  split_ifs at h with hpos hlong
  cases h
  refine (headerExact_data_iff hcount hle).mpr ?_
  exact (Nat.not_lt.mp hlong).trans_lt (by decide)

/-- **When the header of a `DATA` frame is exact.** The records are always counted; the length of
the body fits if and only if no call of `collect` starts with a record that takes the frame to
4 GiB. A datagram never gets there. -/
theorem headerExact_iff (loop : FrameLoop) (session : UInt8) (batch cursor : ℕ)
    (rings : RingStates w) (later : List (RingStates w)) :
    (∀ wire, loop.frame session batch cursor rings later = some wire →
        HeaderExact wire (loop.gather batch cursor rings later).2) ↔
      loop.Short batch cursor rings later := by
  have hmax : tcpFrameBytes < frameLimit := by decide
  have hbatch := (TcpServer.clampBatch_bounds batch).1
  cases loop with
  | client =>
    rw [tcp_exact_iff (.inl rfl)]
    exact RingStates.collectLingering_short_iff rings later cursor hmax hbatch
  | range last =>
    rw [tcp_exact_iff (.inr ⟨last, rfl⟩)]
    exact RingStates.collect_short_iff _ _ hmax (Nat.lt_min.mpr ⟨hbatch, Nat.succ_pos _⟩)
      (by decide)
  | udp maxBytes => exact iff_of_true (fun wire h => udp_exact maxBytes session h) trivial

end FrameLoop

/-! ## What a geometry excludes -/

/-- The longest blob of a ring. -/
def SourceRing.maxBlob (ring : SourceRing w) : ℕ :=
  match ring.arena with
  | some arena => PayloadArena.maxLen arena.1
  | none => 0

/-- A descriptor that is in bounds names no more than the arena holds. -/
theorem SourceRing.length_readRecord {ring : SourceRing w} {want : ℕ} {r : Record}
    (h : ring.readRecord want = .item r) : r.bytes.length ≤ w + ring.maxBlob := by
  unfold readRecord at h
  unfold maxBlob
  cases hread : ring.read want with
  | pending | overwritten seen | lost =>
    rw [hread] at h
    cases h
  | item d =>
    have hd : (payloadBytes d).length = w := List.length_ofFn
    rw [hread] at h
    cases harena : ring.arena with
    | none =>
      rw [harena] at h
      cases h
      simp only [Record.bytes, List.append_nil, hd, Nat.add_zero, le_refl]
    | some arena =>
      rw [harena] at h
      simp only [readBlob] at h
      split_ifs at h with hpos hbounds hlapped
      · cases h
        have hlen := (blobRefAt_lt (payloadBytes d)).1
        have hin : isInBounds arena.1 (blobRefAt (payloadBytes d)) = true :=
          Bool.not_eq_false _ |>.mp hbounds
        have hcap := of_decide_eq_true hin
        have hblob : (blobRefAt (payloadBytes d)).len ≤ maxLen arena.1 := by
          refine Nat.le_min.mpr ⟨?_, ?_⟩
          · omega
          · exact Nat.le_pred_of_lt hlen
        simp only [Record.bytes, List.length_append, hd, ArenaMem.viewBlob, List.length_map,
          List.length_range]
        exact Nat.add_le_add_left hblob w
      · cases h
        simp only [Record.bytes, List.append_nil, hd]
        exact Nat.le_add_right w _

/-- A record and its blob fit behind a frame that is not full. -/
def SourceRing.Roomy (ring : SourceRing w) : Prop := w + ring.maxBlob + tcpFrameBytes ≤ 256 ^ 4

theorem SourceRing.Roomy.short {ring : SourceRing w} (h : ring.Roomy) {want : ℕ} {r : Record}
    (hr : ring.readRecord want = .item r) {out : List Record} (hout : wireLen out < tcpFrameBytes) :
    wireLen (out ++ [r]) < frameLimit := by
  have hlen := length_readRecord hr
  have hroom : w + ring.maxBlob + tcpFrameBytes ≤ 256 ^ 4 := h
  rw [wireLen_append]
  unfold frameLimit
  omega

theorem RingStates.shortLater_of_roomy {cursor maxRecords : ℕ} (later : List (RingStates w))
    (h : ∀ rings ∈ later, ∀ k, (rings k).Roomy) (got : Collected × List Record) :
    ShortLater cursor maxRecords tcpFrameBytes later got := by
  induction later generalizing got with
  | nil => trivial
  | cons rings later ih =>
    intro _ hfull
    refine ⟨fun r hr => ?_, ih (fun x hx => h x (List.mem_cons_of_mem rings hx)) _⟩
    exact (h rings List.mem_cons_self 0).short hr (SourceRing.room_of_not_full hfull).2

/-- **On a ring with short messages and a small arena every header is exact.** Messages of 1 GiB
with an arena of 2 GiB are. -/
theorem FrameLoop.exact_of_roomy (loop : FrameLoop) (session : UInt8) (batch cursor : ℕ)
    {rings : RingStates w} {later : List (RingStates w)} (h : ∀ k, (rings k).Roomy)
    (hlater : ∀ x ∈ later, ∀ k, (x k).Roomy) {wire : List UInt8}
    (hwire : loop.frame session batch cursor rings later = some wire) :
    HeaderExact wire (loop.gather batch cursor rings later).2 := by
  have hfirst : ∀ r, (rings 0).readRecord cursor = .item r → wireLen [r] < frameLimit :=
    fun r hr => (h 0).short hr (show wireLen [] < tcpFrameBytes by decide)
  have hmax : tcpFrameBytes < frameLimit := by decide
  have hbatch := (TcpServer.clampBatch_bounds batch).1
  cases loop with
  | client =>
    refine (tcp_exact_iff (.inl rfl) session).mpr ?_ wire hwire
    exact (RingStates.collectLingering_short_iff rings later cursor hmax hbatch).mpr
      ⟨hfirst, RingStates.shortLater_of_roomy later hlater _⟩
  | range last =>
    refine (tcp_exact_iff (.inr ⟨last, rfl⟩) session).mpr ?_ wire hwire
    exact (RingStates.collect_short_iff _ _ hmax (Nat.lt_min.mpr ⟨hbatch, Nat.succ_pos _⟩)
      (by decide)).mpr hfirst
  | udp maxBytes => exact udp_exact maxBytes session hwire

/-! ## A blob of 4 GiB -/

theorem cacheLine_le_fourGib : 64 ≤ 2 ^ 32 := by decide

/-- An arena of 4 GiB. -/
def fourGib : ArenaCapacity := ⟨⟨2 ^ 32, 32, rfl⟩, cacheLine_le_fourGib⟩

/-- The descriptor of the longest blob. -/
def longestRef : BlobRef := ⟨0, u32Max, 0⟩

/-- A ring whose first message has the longest blob. -/
def longestBlob : SourceRing 16 where
  cap := ⟨1, isPowerOfTwo_one⟩
  slots := fun _ => ⟨1, payloadOf 16 (blobRefBytes longestRef)⟩
  writeSeq := 1
  arena := some (fourGib, { ArenaMem.init with reserved := 2 ^ 32 })
  multiProducer := false
  sparse := false

/-- The message is read. -/
theorem longestBlob_read : ∃ blob : List UInt8, blob.length = u32Max ∧
    longestBlob.readRecord 1 = .item ⟨blobRefBytes longestRef, blob⟩ := by
  have hpayload : payloadBytes (payloadOf 16 (blobRefBytes longestRef)) =
      blobRefBytes longestRef := payloadBytes_payloadOf (length_blobRefBytes longestRef)
  have hfits : longestRef.Fits := ⟨by decide, by decide, by decide⟩
  have href : blobRefAt (blobRefBytes longestRef) = longestRef := blobRefAt_append hfits []
  refine ⟨ArenaMem.viewBlob fourGib { ArenaMem.init with reserved := 2 ^ 32 } longestRef, ?_, ?_⟩
  · rw [ArenaMem.viewBlob, List.length_map, List.length_range]
    rfl
  · have hread : longestBlob.read 1 = .item (payloadOf 16 (blobRefBytes longestRef)) := rfl
    have hbounds : ¬ isInBounds fourGib longestRef = false := by decide
    have hlapped : ¬ isLapped fourGib (2 ^ 32) longestRef = true := by decide
    unfold SourceRing.readRecord
    rw [hread]
    simp only [longestBlob, SourceRing.readBlob, hpayload, href]
    rw [if_pos (by decide : 0 < longestRef.len), if_neg hbounds, if_neg hlapped]

/-- **A frame that says it is 15 bytes long.** Its only record is the descriptor and the longest
blob, and every mirror refuses it. -/
theorem longestBlob_truncated : ∃ wire,
    FrameLoop.client.frame 0 256 1 (fun _ => longestBlob) [] = some wire ∧
    wire.length = frameHeaderLen + (2 ^ 32 + 15) ∧ (Frame.decode wire).len = 15 ∧
    frameSizesOk ⟨⟨1, isPowerOfTwo_one⟩, some fourGib, fun _ => le_refl 16⟩
      (Frame.decode wire).count (Frame.decode wire).len = false ∧
    ¬ HeaderExact wire (FrameLoop.client.gather 256 1 (fun _ => longestBlob) []).2 := by
  obtain ⟨blob, hblob, hread⟩ := longestBlob_read
  have hbytes : (Record.bytes ⟨blobRefBytes longestRef, blob⟩).length = 2 ^ 32 + 15 := by
    rw [Record.bytes, List.length_append, length_blobRefBytes, hblob]
    rfl
  have hlong : tcpFrameBytes ≤ wireLen ([] ++ [⟨blobRefBytes longestRef, blob⟩]) := by
    rw [wireLen_append, hbytes]
    decide
  have hgather : FrameLoop.client.gather 256 1 (fun _ => longestBlob) [] =
      (⟨1, none, false⟩, [⟨blobRefBytes longestRef, blob⟩]) := by
    have hcollect : RingStates.collect (fun _ => longestBlob) 1 (SourceRing.clampBatch 256)
        tcpFrameBytes [] = (⟨1, none, false⟩, [⟨blobRefBytes longestRef, blob⟩]) := by
      rw [RingStates.collect, RingStates.collectLoop_const]
      exact SourceRing.collect_of_long (by decide) hread hlong
    simp only [FrameLoop.gather, RingStates.collectLingering, hcollect, RingStates.lingerLoop,
      ite_self]
  obtain ⟨out, hout⟩ : ∃ out : List Record, out = [⟨blobRefBytes longestRef, blob⟩] := ⟨_, rfl⟩
  rw [← hout] at hgather
  have hbody : (out.flatMap Record.bytes).length = 2 ^ 32 + 15 := by
    rw [hout, List.flatMap_singleton, hbytes]
  have hlen : (TcpServer.dataWire 1 ⟨1, none, false⟩ out).length =
      frameHeaderLen + (2 ^ 32 + 15) := by
    rw [TcpServer.dataWire, if_pos Nat.one_pos, List.length_append, Frame.length_encode, hbody]
  have hdec : Frame.decode (TcpServer.dataWire 1 ⟨1, none, false⟩ out) =
      ⟨kindData, 0, 1, 15, 1⟩ := by
    rw [TcpServer.dataWire, if_pos Nat.one_pos, Frame.decode_dataFrame, hbody]
    rfl
  refine ⟨TcpServer.dataWire 1 ⟨1, none, false⟩ out, ?_, hlen, by rw [hdec], by rw [hdec]; decide,
    fun hexact => ?_⟩
  · unfold FrameLoop.frame
    rw [hgather]
    rfl
  · have hsame := hexact.len
    rw [hlen, hdec] at hsame
    exact absurd hsame (by decide)

end Ringfire
