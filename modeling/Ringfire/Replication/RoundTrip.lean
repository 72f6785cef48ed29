import Ringfire.Replication.Collect
import Ringfire.Replication.Mirror
import Ringfire.Replication.Source

/-!
# The round trip of a `DATA` frame

The server gathers the records of consecutive sequences with `collect`, puts the header that
`data_frame` builds in front of them, and the mirror parses the body again with `write_records`.
Nothing in the body marks where a record ends: the mirror reads the length of a blob from the
descriptor at the end of the slot payload in front of it.

`SourceRing.Stores` says what record a message of the source is, and `MirrorRing.Keeps` that the
mirror ring holds a record under its sequence. The second is about the ring right after that record
was written; later records may reserve over its blob.

## Main results

* `SourceRing.collect_eq`: `collect` gathers exactly the records stored
* `writeLoop_keeps`: the loop of `write_records` keeps every record under its sequence
* `data_frame_round_trip`: from the source ring to the mirror ring
-/

namespace Ringfire

open PayloadArena

variable {w : ℕ}

/-! ## From the source to the frame -/

namespace SourceRing

/-- Message `k` of a ring nobody writes is the given record: a message of fixed size, or a packet
whose descriptor names a blob that is still in the arena. -/
inductive Stores (cfg : SourceConfig w) (src : SourceRing w) (k : ℕ) : Record → Prop where
  | plain (noBlob : cfg.blob = none) (arena : src.arena = none) (word : (src.slot k).seq = k) :
      Stores cfg src k ⟨payloadBytes (src.slot k).data, []⟩
  | packet (b : PacketConfig) (mem : ArenaMem UInt8) (p : Packet) (r : BlobRef)
      (blob : cfg.blob = some b) (arena : src.arena = some (b.arena, mem))
      (word : (src.slot k).seq = k) (fits : p.Fits b) (ref : r.Fits) (len : r.len = p.blob.length)
      (data : (src.slot k).data = payloadOf w (p.payload r))
      (whole : p.blob ≠ [] → isInBounds b.arena r = true ∧
        isLapped b.arena mem.reserved r = false ∧ mem.viewBlob b.arena r = p.blob) :
      Stores cfg src k ⟨p.payload r, p.blob⟩

variable {cfg : SourceConfig w} {src : SourceRing w} {k : ℕ} {r : Record}

/-- A stored record is what `read_record` finds. -/
theorem Stores.readRecord (hcfg : cfg.Aligned) (h : src.Stores cfg k r) :
    src.readRecord k = .item r := by
  cases h with
  | plain noBlob arena word =>
    simp only [SourceRing.readRecord, read, word, if_true, arena]
  | packet b mem p r blob arena word fits ref len data whole =>
    obtain ⟨hbytes, href⟩ := Packet.blobRefAt_payload hcfg blob fits ref
    simp only [SourceRing.readRecord, read, word, if_true, arena, data, hbytes, readBlob, href, len]
    by_cases hblob : p.blob = []
    · rw [hblob, List.length_nil, if_neg (Nat.lt_irrefl 0)]
    · obtain ⟨hbounds, hlap, hview⟩ := whole hblob
      rw [if_pos (List.length_pos_iff.mpr hblob), if_neg (by rw [hbounds]; decide),
        if_neg (by rw [hlap]; decide), hview]

/-- A stored record has the layout of the ring. -/
theorem Stores.wellFormed (hcfg : cfg.Aligned) (h : src.Stores cfg k r) :
    r.WellFormed cfg.geometry := by
  cases h with
  | plain noBlob arena word =>
    refine ⟨by simp [payloadBytes], fun _ => rfl, fun acap hacap => ?_⟩
    rw [SourceConfig.geometry_arena, noBlob] at hacap
    cases hacap
  | packet b mem p r blob arena word fits ref len data whole =>
    obtain ⟨hbytes, href⟩ := Packet.blobRefAt_payload hcfg blob fits ref
    refine ⟨?_, ?_, ?_⟩
    · rw [← hbytes]
      exact List.length_ofFn
    · intro hnone
      rw [SourceConfig.geometry_arena, blob] at hnone
      cases hnone
    · intro acap hacap
      rw [SourceConfig.geometry_arena, blob] at hacap
      cases hacap
      refine ⟨by rw [href]; exact len, ?_⟩
      by_cases hblob : p.blob = []
      · rw [hblob]
        exact Nat.zero_le _
      · have hle := isInBounds_iff.mp (whole hblob).1
        have h32 : r.len ≤ u32Max := Nat.le_pred_of_lt ref.len
        rw [len] at hle h32
        exact Nat.le_min.mpr ⟨(Nat.le_add_left _ _).trans hle, h32⟩

/-- What `collect` adds to the frame are the records it read. -/
theorem collectLoop_reads (src : SourceRing w) (cursor maxBytes : ℕ) :
    ∀ (left count : ℕ) (out : List Record),
      ∃ rs, (src.collectLoop cursor maxBytes left count out).2 = out ++ rs ∧
        (src.collectLoop cursor maxBytes left count out).1.count = count + rs.length ∧
        List.Forall₂ (fun k r => src.readRecord k = .item r)
          (List.range' (cursor + count) rs.length) rs := by
  intro left
  induction left with
  | zero =>
    intro count out
    exact ⟨[], (List.append_nil out).symm, rfl, .nil⟩
  | succ left ih =>
    intro count out
    rw [collectLoop]
    cases hread : src.readRecord (cursor + count) with
    | pending => exact ⟨[], (List.append_nil out).symm, rfl, .nil⟩
    | overwritten seen => exact ⟨[], (List.append_nil out).symm, rfl, .nil⟩
    | lost => exact ⟨[], (List.append_nil out).symm, rfl, .nil⟩
    | item r =>
      simp only [collectTurn]
      by_cases hover : 0 < count ∧ maxBytes < wireLen (out ++ [r])
      · -- the record does not fit any more
        rw [if_pos hover]
        exact ⟨[], (List.append_nil out).symm, rfl, .nil⟩
      rw [if_neg hover]
      by_cases hfull : maxBytes ≤ wireLen (out ++ [r])
      · rw [if_pos hfull]
        exact ⟨[r], rfl, rfl, .cons hread .nil⟩
      · rw [if_neg hfull]
        obtain ⟨rs, hout, hcount, hreads⟩ := ih (count + 1) (out ++ [r])
        refine ⟨r :: rs, ?_, ?_, ?_⟩
        · simp only [hout, List.append_assoc, List.singleton_append]
        · simp only [hcount, List.length_cons]
          omega
        · exact .cons hread hreads

/-- Records that were read are those stored there. -/
theorem eq_map_of_reads {record : ℕ → Record} {ks : List ℕ} {rs : List Record}
    (hreads : List.Forall₂ (fun k r => src.readRecord k = .item r) ks rs)
    (hread : ∀ k ∈ ks, src.readRecord k = .item (record k)) : rs = ks.map record := by
  induction hreads with
  | nil => rfl
  | cons hr _ ih =>
    rw [hread _ List.mem_cons_self] at hr
    cases hr
    rw [ih fun k hk => hread k (List.mem_cons_of_mem _ hk)]
    rfl

/-- The records of a frame are those stored. -/
theorem collect_eq {record : ℕ → Record} {cursor n maxRecords maxBytes : ℕ}
    (hread : ∀ k, cursor ≤ k → k < cursor + n → src.readRecord k = .item (record k))
    (hcount : (src.collect cursor maxRecords maxBytes []).1.count = n) :
    (src.collect cursor maxRecords maxBytes []).2 = (List.range' cursor n).map record := by
  obtain ⟨rs, hout, hlen, hreads⟩ := src.collectLoop_reads cursor maxBytes maxRecords 0 []
  rw [Nat.zero_add] at hlen
  rw [Nat.add_zero, ← hlen] at hreads
  rw [collect] at hcount ⊢
  rw [hcount] at hreads
  rw [hout, List.nil_append]
  refine eq_map_of_reads hreads fun k hk => ?_
  rw [List.mem_range'_1] at hk
  exact hread k hk.1 hk.2

/-- As long as the frame has room, `collect` goes on. -/
theorem collectLoop_all {record : ℕ → Record} {cursor maxBytes : ℕ} :
    ∀ (left count : ℕ) (out : List Record),
      (∀ k, cursor + count ≤ k → k < cursor + count + left → src.readRecord k = .item (record k)) →
      wireLen (out ++ (List.range' (cursor + count) left).map record) < maxBytes →
      src.collectLoop cursor maxBytes left count out =
        (⟨count + left, none, false⟩, out ++ (List.range' (cursor + count) left).map record) := by
  intro left
  induction left with
  | zero =>
    intro count out _ _
    rw [collectLoop, List.range'_zero, List.map_nil, List.append_nil, Nat.add_zero]
  | succ left ih =>
    intro count out hread hroom
    have hsplit : out ++ (List.range' (cursor + count) (left + 1)).map record =
        out ++ [record (cursor + count)] ++
          (List.range' (cursor + (count + 1)) left).map record := by
      rw [List.range'_succ, List.map_cons, List.append_assoc, List.singleton_append, Nat.add_assoc]
    rw [hsplit] at hroom ⊢
    have hle : wireLen (out ++ [record (cursor + count)]) < maxBytes := by
      refine lt_of_le_of_lt ?_ hroom
      simp only [wireLen, List.map_append, List.sum_append]
      omega
    rw [collectLoop, hread (cursor + count) (le_refl _) (by omega)]
    simp only [collectTurn]
    rw [if_neg (fun h => absurd h.2 (Nat.not_lt.mpr hle.le)), if_neg (Nat.not_le.mpr hle)]
    simp only
    rw [ih (count + 1) _ (fun k hk hk' => hread k (by omega) (by omega)) hroom]
    simp only [Prod.mk.injEq, Collected.mk.injEq, and_true]
    omega

end SourceRing

/-! ## From the frame to the mirror -/

/-- The mirror ring holds record `r` under `k`: the same slot bytes, or on an arena ring the same
bytes outside the descriptor, a descriptor with the same length and, for a blob that is not empty,
the same flags, and the bytes of the blob where it points. -/
structure MirrorRing.Keeps (g : Geometry w) (ring : MirrorRing w) (k : ℕ) (r : Record) : Prop where
  word : (ring.slots (slotIndex g.cap k)).seq = k
  plain : g.arena = none → payloadBytes (ring.slots (slotIndex g.cap k)).data = r.payload
  metadata : g.arena.isSome = true →
    metadata (payloadBytes (ring.slots (slotIndex g.cap k)).data) = metadata r.payload
  len : g.arena.isSome = true →
    (blobRefAt (payloadBytes (ring.slots (slotIndex g.cap k)).data)).len =
      (blobRefAt r.payload).len
  flags : g.arena.isSome = true → r.blob ≠ [] →
    (blobRefAt (payloadBytes (ring.slots (slotIndex g.cap k)).data)).flags =
      (blobRefAt r.payload).flags
  blob : ∀ acap, g.arena = some acap →
    isInBounds acap (blobRefAt (payloadBytes (ring.slots (slotIndex g.cap k)).data)) = true ∧
    ring.arena.viewBlob acap (blobRefAt (payloadBytes (ring.slots (slotIndex g.cap k)).data)) =
      r.blob

/-- A payload that fits the arena is accepted as long as the counter does not leave `u64`. -/
theorem exists_writeBlob {acap : ArenaCapacity} {m : ArenaMem UInt8} {bytes : List UInt8}
    (hlen : bytes.length ≤ maxLen acap) (hroom : m.reserved + 2 * acap.val ≤ u64Max) (flags : ℕ) :
    ∃ r m', m.writeBlob acap bytes flags = some (.ok r, m') ∧ isInBounds acap r = true ∧
      (bytes ≠ [] → r.flags = flags) ∧ m'.reserved ≤ m.reserved + 2 * acap.val := by
  have hcap := hlen.trans maxLen_le
  by_cases hb : bytes = []
  · subst hb
    exact ⟨.empty, _, rfl, isInBounds_empty, fun h => absurd rfl h, Nat.le_add_right _ _⟩
  have hcheck : checkLen acap bytes.length = none :=
    checkLen_eq_none.mpr ⟨fun h => hb (List.length_eq_zero_iff.mp h), hlen⟩
  have hend : (place acap m.reserved bytes.length).2 ≤ m.reserved + 2 * acap.val := by
    obtain ⟨c, hc⟩ := dvd_capacity acap
    have hslot : slotSize bytes.length ≤ acap.val := by
      unfold slotSize
      omega
    have hdiv := Nat.div_add_mod m.reserved acap.val
    rw [place_eq]
    split_ifs
    · simp only [Nat.mul_add, Nat.mul_one]
      omega
    · simp only
      omega
  rw [ArenaMem.writeBlob, hcheck]
  simp only [if_pos (hend.trans hroom)]
  exact ⟨_, _, rfl, place_inBounds hcap m.reserved flags, fun _ => rfl, hend⟩

variable {g : Geometry w} {record : ℕ → Record}

/-- A record at the write position is written, and the rest of the body is left. -/
theorem writeRecord_keeps {r : Record} (hr : r.WellFormed g) (ring : MirrorRing w) {next s : ℕ}
    (hnext : next ≤ s) (rest : List UInt8)
    (hroom : ∀ acap, g.arena = some acap → ring.arena.reserved + 2 * acap.val ≤ u64Max) :
    ∃ ring', writeRecord g next s (r.bytes ++ rest) ring = some (.ok rest, ring') ∧
      ring'.nextSeq = s + 1 ∧ ring'.Keeps g s r ∧
      ∀ acap, g.arena = some acap →
        ring'.arena.reserved ≤ ring.arena.reserved + 2 * acap.val := by
  obtain ⟨htake, hdrop, hle⟩ := MirrorRing.record_bytes hr rest
  unfold writeRecord
  rw [if_neg (Nat.not_lt.mpr hle), htake, hdrop]
  cases hg : g.arena with
  | none =>
    simp only [hr.plain hg, List.nil_append, if_pos hnext]
    have hno : ∀ {P : Prop}, g.arena.isSome = true → P := by
      intro P h
      rw [hg] at h
      cases h
    refine ⟨_, rfl, rfl, ⟨?_, fun _ => ?_, hno, hno, hno, fun acap h => hno (by rw [h]; rfl)⟩,
      by rintro _ ⟨⟩⟩
    · simp [MirrorRing.write, MirrorRing.store, writeSlot]
    · exact MirrorRing.stored_eq ring g s hr.length
  | some acap =>
    obtain ⟨hlen, hmax⟩ := hr.blob acap hg
    simp only [hlen, List.take_left, List.drop_left, List.length_append]
    rw [if_neg (by omega), if_pos hnext]
    obtain ⟨placed, arena, hw, hbounds, hflags, hres⟩ :=
      exists_writeBlob hmax (hroom acap hg) (blobRefAt r.payload).flags
    -- the descriptor is stored with the new offset
    have hw16 := g.descriptor (by rw [hg]; rfl)
    have hfits := MirrorRing.writeBlob_fits (blobRefAt_lt _).2 hw
    have hput : (putBlobRef r.payload placed).length = w := by
      rw [length_putBlobRef (by rw [hr.length]; exact hw16), hr.length]
    have hstored := MirrorRing.stored_eq ring g s hput
    have href := blobRefAt_putBlobRef hfits r.payload
    simp only [MirrorRing.writeBlob, hw, Option.map_some]
    refine ⟨_, rfl, rfl, ⟨?_, ?_, fun _ => ?_, fun _ => ?_, fun _ hne => ?_, fun acap' hg' => ?_⟩,
      ?_⟩
    · simp [MirrorRing.store, writeSlot]
    · rw [hg]
      rintro ⟨⟩
    · simp only [hstored]
      exact metadata_putBlobRef _ _
    · simp only [hstored, href]
      exact (writeBlob_ok hw).1.trans hlen.symm
    · simp only [hstored, href]
      exact hflags hne
    · rw [hg] at hg'
      cases hg'
      simp only [hstored, href]
      exact ⟨hbounds, viewBlob_writeBlob hw⟩
    · rintro _ ⟨⟩
      exact hres

/-- **The loop of `write_records` keeps every record under its sequence**: after `n` records the
last of them is in place and the rest of the body is left. -/
theorem writeLoop_keeps {next : ℕ} (rest : List UInt8) :
    ∀ (n s : ℕ) (ring : MirrorRing w), next ≤ s →
      (∀ k, s ≤ k → k < s + n → (record k).WellFormed g) →
      (∀ acap, g.arena = some acap → ring.arena.reserved + n * (2 * acap.val) ≤ u64Max) →
      ∃ ring', writeLoop g next n s (dataBytes record s n ++ rest) ring = some (.ok rest, ring') ∧
        (0 < n → ring'.nextSeq = s + n ∧ ring'.Keeps g (s + n - 1) (record (s + n - 1))) := by
  intro n
  induction n with
  | zero =>
    intro s ring _ _ _
    exact ⟨ring, rfl, fun h => absurd h (Nat.lt_irrefl 0)⟩
  | succ n ih =>
    intro s ring hnext hwf hroom
    obtain ⟨ring₁, hone, hseq, hkeeps, hres⟩ := writeRecord_keeps (hwf s (le_refl s) (by omega))
      ring hnext (dataBytes record (s + 1) n ++ rest)
      (fun acap hg => by have := hroom acap hg; rw [Nat.succ_mul] at this; omega)
    obtain ⟨ring', hloop, hlast⟩ := ih (s + 1) ring₁ (by omega)
      (fun k hk hk' => hwf k (by omega) (by omega))
      (fun acap hg => by
        have h₁ := hroom acap hg
        have h₂ := hres acap hg
        rw [Nat.succ_mul] at h₁
        omega)
    refine ⟨ring', ?_, fun _ => ?_⟩
    · rw [dataBytes_succ, List.append_assoc, writeLoop, hone]
      exact hloop
    · -- the last record is in the rest of the body, unless this is the only one
      rcases Nat.eq_zero_or_pos n with rfl | hpos
      · cases hloop
        exact ⟨hseq, hkeeps⟩
      · have hs : s + 1 + n = s + (n + 1) := by omega
        rw [← hs]
        exact hlast hpos

theorem length_dataBytes (record : ℕ → Record) (seq n : ℕ) :
    (dataBytes record seq n).length =
      ((List.range' seq n).map fun k => (record k).bytes.length).sum :=
  List.length_flatMap

/-- The body of a frame is as long as its records. -/
theorem length_dataBytes_le :
    ∀ (n s : ℕ), (∀ k, s ≤ k → k < s + n → (record k).WellFormed g) →
      n * w ≤ (dataBytes record s n).length ∧
      (g.arena = none → (dataBytes record s n).length = n * w) ∧
      ∀ acap, g.arena = some acap →
        (dataBytes record s n).length ≤ n * w + n * acap.val := by
  intro n
  induction n with
  | zero =>
    intro s _
    simp [dataBytes]
  | succ n ih =>
    intro s hwf
    have hr := hwf s (le_refl s) (by omega)
    obtain ⟨hle, hplain, harena⟩ := ih (s + 1) fun k hk hk' => hwf k (by omega) (by omega)
    have hbytes : (dataBytes record s (n + 1)).length =
        w + (record s).blob.length + (dataBytes record (s + 1) n).length := by
      rw [dataBytes_succ, List.length_append, Record.bytes, List.length_append, hr.length]
    rw [hbytes]
    refine ⟨by rw [Nat.succ_mul]; omega, fun hg => ?_, fun acap hg => ?_⟩
    · rw [hplain hg, hr.plain hg, List.length_nil, Nat.succ_mul]
      omega
    · have hblob := (hr.blob acap hg).2.trans maxLen_le
      have hrest := harena acap hg
      rw [Nat.succ_mul, Nat.succ_mul]
      omega

/-- The body of a frame passes `frame_sizes_ok`. -/
theorem frameSizesOk_dataBytes {n s : ℕ} (hpos : 1 ≤ n)
    (hwf : ∀ k, s ≤ k → k < s + n → (record k).WellFormed g)
    (hlen : (dataBytes record s n).length < 2 ^ 32) :
    frameSizesOk g n (dataBytes record s n).length = true := by
  obtain ⟨hle, hplain, harena⟩ := length_dataBytes_le n s hwf
  have hmax : 2 ^ 32 ≤ u64Max := by decide
  unfold frameSizesOk
  rw [if_neg (by omega)]
  cases hg : g.arena with
  | none => simpa using hplain hg
  | some acap =>
    have hupper := harena acap hg
    simp only [decide_eq_true_eq]
    refine ⟨hle, ?_⟩
    omega

/-- **The round trip of a `DATA` frame.** The `n` records stored from the mirror's write position
on are what `collect` puts into the frame; the header is read back; the mirror accepts the sizes
and writes all of them; and each record, right after it was written, is kept under its own
sequence. -/
theorem data_frame_round_trip {cfg : SourceConfig w} (hcfg : cfg.Aligned) {src : SourceRing w}
    {record : ℕ → Record} {cursor n : ℕ} (hpos : 1 ≤ n) (hcount : n ≤ 65535)
    (hseq : cursor + n ≤ u64Max) (hlen : (dataBytes record cursor n).length < 2 ^ 32)
    (hstores : ∀ k, cursor ≤ k → k < cursor + n → src.Stores cfg k (record k)) {m : Mirror w}
    (hnext : m.ring.nextSeq = cursor)
    (hroom : ∀ acap, cfg.geometry.arena = some acap →
      m.ring.arena.reserved + n * (2 * acap.val) ≤ u64Max) (flags : UInt8) :
    (∀ maxRecords maxBytes, (src.collect cursor maxRecords maxBytes []).1.count = n →
      (src.collect cursor maxRecords maxBytes []).2.flatMap Record.bytes =
        dataBytes record cursor n) ∧
    (∀ maxBytes, frameHeaderLen + (dataBytes record cursor n).length < maxBytes →
      (src.collect cursor n maxBytes []).1 = ⟨n, none, false⟩) ∧
    Frame.decode ((dataFrame flags.toNat n cursor (dataBytes record cursor n)).encode ++
      dataBytes record cursor n) =
        ⟨kindData, flags.toNat, n, (dataBytes record cursor n).length, cursor⟩ ∧
    frameSizesOk cfg.geometry n (dataBytes record cursor n).length = true ∧
    (∃ m', m.writeRecords cfg.geometry cursor n (dataBytes record cursor n) = some (.ok (), m') ∧
      m'.ring.nextSeq = cursor + n) ∧
    ∀ i < n, ∃ ring', writeLoop cfg.geometry m.ring.nextSeq (i + 1) cursor
        (dataBytes record cursor n) m.ring =
          some (.ok (dataBytes record (cursor + (i + 1)) (n - (i + 1))), ring') ∧
      ring'.Keeps cfg.geometry (cursor + i) (record (cursor + i)) := by
  -- every stored record is read back, and is one the receiver accepts
  have hread : ∀ k, cursor ≤ k → k < cursor + n → src.readRecord k = .item (record k) :=
    fun k hk hk' => (hstores k hk hk').readRecord hcfg
  have hwf : ∀ k, cursor ≤ k → k < cursor + n → (record k).WellFormed cfg.geometry :=
    fun k hk hk' => (hstores k hk hk').wellFormed hcfg
  refine ⟨fun maxRecords maxBytes hn => ?_, fun maxBytes hmax => ?_, ?_,
    frameSizesOk_dataBytes hpos hwf hlen, ?_, fun i hi => ?_⟩
  · rw [SourceRing.collect_eq hread hn, List.flatMap_map]
    rfl
  · have hroom' : wireLen ([] ++ (List.range' (cursor + 0) n).map record) < maxBytes := by
      rw [List.nil_append, wireLen, List.map_map, Nat.add_zero]
      rw [length_dataBytes] at hmax
      exact hmax
    rw [SourceRing.collect, SourceRing.collectLoop_all n 0 [] (by simpa using hread) hroom',
      Nat.zero_add]
  · have hu : u64Max < 256 ^ 8 := by decide
    refine Frame.decode_encode ⟨?_, flags.toNat_lt, ?_, ?_, ?_⟩ _
    · exact (by decide : kindData < 256 ^ 1)
    · exact (by omega : n < 256 ^ 2)
    · exact hlen
    · exact (by omega : cursor < 256 ^ 8)
  · obtain ⟨ring', hloop, hlast⟩ := writeLoop_keeps [] n cursor m.ring hnext.le hwf hroom
    rw [List.append_nil] at hloop
    simp only [Mirror.writeRecords, MirrorRing.writeRecords, hloop, Option.map_some]
    exact ⟨_, rfl, (hlast hpos).1⟩
  -- the first `i + 1` records, and the bytes of the others left over
  · have hsplit : dataBytes record cursor n = dataBytes record cursor (i + 1) ++
        dataBytes record (cursor + (i + 1)) (n - (i + 1)) := by
      rw [dataBytes, dataBytes, dataBytes, ← List.flatMap_append, List.range'_append_1]
      congr 2
      omega
    obtain ⟨ring', hloop, hlast⟩ := writeLoop_keeps
      (dataBytes record (cursor + (i + 1)) (n - (i + 1))) (i + 1) cursor m.ring hnext.le
      (fun k hk hk' => hwf k hk (by omega))
      (fun acap hg => le_trans (Nat.add_le_add_left (Nat.mul_le_mul_right _ hi) _) (hroom acap hg))
    rw [hsplit]
    exact ⟨ring', hloop, (hlast (Nat.succ_pos i)).2⟩

/-- Packets with two bytes of metadata over an arena of one cache line. -/
def shortPackets : SourceConfig 24 where
  ring := ⟨⟨4, isPowerOfTwo_four⟩, 0, .lossyLatestWins⟩
  blob := some ⟨.oneLine, ⟨2, 1⟩⟩
  width := by rintro _ ⟨⟩; rfl
  lossy := by rintro _ _; rfl

/-- The packets of the example: the second one has no blob. -/
def shortPacket (k : ℕ) : Packet :=
  ⟨[UInt8.ofNat k, 7, 0, 0, 0, 0, 0, 0], [], if k = 1 then [5, 6, 7] else []⟩

/-- The descriptors of the example. -/
def shortRef (k : ℕ) : BlobRef := if k = 1 then ⟨0, 3, 9⟩ else .empty

/-- A source with two packets. -/
def shortSource : SourceRing 24 where
  cap := ⟨4, isPowerOfTwo_four⟩
  slots := fun i => ⟨i, payloadOf 24 ((shortPacket i).payload (shortRef i))⟩
  writeSeq := 2
  arena := some (.oneLine, { (ArenaMem.init : ArenaMem UInt8) with
    reserved := 64, data := fun i => [5, 6, 7].getD i 0 })
  multiProducer := false
  sparse := false

/-- The records of the example. -/
def shortRecord (k : ℕ) : Record := ⟨(shortPacket k).payload (shortRef k), (shortPacket k).blob⟩

theorem shortSource_stores {k : ℕ} (h₁ : 1 ≤ k) (h₂ : k < 3) :
    shortSource.Stores shortPackets k (shortRecord k) := by
  obtain rfl | rfl : k = 1 ∨ k = 2 := by omega
  · exact .packet _ _ (shortPacket 1) (shortRef 1) rfl rfl rfl ⟨rfl, rfl⟩
      ⟨by decide, by decide, by decide⟩ rfl rfl fun _ => ⟨by decide, by decide, by decide⟩
  · exact .packet _ _ (shortPacket 2) (shortRef 2) rfl rfl rfl ⟨rfl, rfl⟩
      ⟨by decide, by decide, by decide⟩ rfl rfl fun h => absurd rfl h

theorem data_frame_round_trip_short :
    ∃ m' : Mirror 24, (⟨.create 24, 0, 0, none, [], []⟩ : Mirror 24).writeRecords
      shortPackets.geometry 1 2 (dataBytes shortRecord 1 2) = some (.ok (), m') ∧
      m'.ring.nextSeq = 3 := by
  have haligned : shortPackets.Aligned :=
    ⟨by rintro _ ⟨⟩; exact one_dvd _, by rintro _ ⟨⟩; exact .inl rfl⟩
  have hstores : ∀ k, 1 ≤ k → k < 1 + 2 → shortSource.Stores shortPackets k (shortRecord k) :=
    fun k => shortSource_stores
  have hlen : (dataBytes shortRecord 1 2).length < 2 ^ 32 := by decide
  have hroom : ∀ acap, shortPackets.geometry.arena = some acap →
      (⟨.create 24, 0, 0, none, [], []⟩ : Mirror 24).ring.arena.reserved +
        2 * (2 * acap.val) ≤ u64Max := by
    rintro _ ⟨⟩
    decide
  exact (data_frame_round_trip haligned (by decide) (by decide) (by decide) hlen hstores rfl hroom
    0).2.2.2.2.1

end Ringfire
