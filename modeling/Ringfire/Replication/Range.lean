import Ringfire.Replication.Atomic
import Ringfire.Replication.Budget
import Ringfire.Replication.RoundTrip
import Ringfire.Replication.TcpDelivery
import Ringfire.Ring.Gate
import Ringfire.Ring.Sequential

/-!
# The answer to a retransmission request

`serve_range` of `replication.rs` on a ring nobody writes. It answers a request for a range with
`DATA` and `GAP` frames, each of which starts where the one before it ended, up to the end of the
range or to the first message that is not published yet.

A frame is judged as the mirror reads it: by the header on the wire and by the records its body
splits into. The header counts the records in 16 bits. `serve_client` clamps its batch accordingly
before it calls `serve_range`, which does not do so itself.

## Main definitions

* `SourceRing.serveRange`: the frames `serve_range` writes
* `Source.Tiles`: the frames pass over every sequence between two, each once and in order

## Main results

* `Source.Inv.rangeLoop_tiles`: the loop passes over what is left of the range
* `serveRange_exact`: the answer, for a batch that the header can count
* `serveRange_uncounted`: a frame of 65536 records counts none
-/

namespace Ringfire

open PayloadArena

variable {ρ : Type} {w : ℕ}

namespace SourceRing

/-- The loop of `serve_range`; `none` while it is still going after `fuel` turns. -/
def rangeLoop (ring : SourceRing w) (last batch : ℕ) : ℕ → ℕ → Option (List Sent)
  | 0, _ => none
  | fuel + 1, cursor =>
    if cursor ≤ last then
      let got := ring.collect cursor (min batch (last - cursor + 1)) tcpFrameBytes []
      -- stops at anything not published yet
      if got.1 = ⟨0, none, false⟩ then some []
      else
        (ring.rangeLoop last batch fuel (ring.answer cursor got).2).map
          ((ring.answer cursor got).1 ++ ·)
    else some []

/-- `serve_range`. -/
def serveRange (ring : SourceRing w) (fuel first last batch : ℕ) : Option (List Sent) :=
  let cursor := max first 1
  let oldest := oldestRetained ring.writeSeq ring.cap.val
  if cursor < oldest then (ring.rangeLoop last batch fuel oldest).map (.gap oldest :: ·)
  else ring.rangeLoop last batch fuel cursor

end SourceRing

/-- The bytes of a frame. -/
def Sent.wire : Sent → List UInt8
  | .data seq records =>
    (dataFrame 0 records.length seq (records.flatMap Record.bytes)).encode ++
      records.flatMap Record.bytes
  | .gap seq => (Frame.control kindGap seq).encode

namespace Source

/-- The ring of a source as its server sees it. -/
def snapshot (cfg : SourceConfig w) (s : Source ρ w) : SourceRing w where
  cap := cfg.ring.cap
  slots := s.sys.mem.slots
  writeSeq := s.sys.mem.writeSeq
  arena := cfg.blob.map fun b => (b.arena, s.arena)
  multiProducer := false
  sparse := false

/-- A `DATA` frame with the records from `p` on: its header says so, its body is these records, they
are what was pushed, none is behind `last`, and the frame keeps to its limits. Its length field is
right unless a single record may be too long for it. -/
structure DataTile (cfg : SourceConfig w) (s : Source ρ w) (batch last p : ℕ) (wire : List UInt8)
    (rs : List Record) : Prop where
  kind : (Frame.decode wire).kind = kindData
  seq : (Frame.decode wire).seq = p
  count : (Frame.decode wire).count = rs.length
  body : splitBody cfg.geometry rs.length (wire.drop frameHeaderLen) = (rs, .ok [])
  records : ∀ i r, rs[i]? = some r → s.Has (p + i) r
  pos : 0 < rs.length
  within : p + rs.length ≤ last + 1
  batch : rs.length ≤ batch
  short : wire.length ≤ tcpFrameBytes ∨ rs.length = 1
  len : cfg.blob = none ∨ w + 8 < 2 ^ 31 →
    wire.length = frameHeaderLen + (Frame.decode wire).len

/-- A `GAP` frame from `p` to `target`: what it passes of the range is gone. -/
structure GapTile (cfg : SourceConfig w) (s : Source ρ w) (last p : ℕ) (wire : List UInt8)
    (target : ℕ) : Prop where
  kind : (Frame.decode wire).kind = kindGap
  seq : (Frame.decode wire).seq = target
  length : wire.length = frameHeaderLen
  lt : p < target
  gone : ∀ k, p ≤ k → k < target → k ≤ last →
    k < oldestRetained s.sys.mem.writeSeq cfg.ring.cap.val ∨ s.Lapped cfg k

/-- The frames pass over the sequences from `p` up to `q`, each once and in order. -/
inductive Tiles (cfg : SourceConfig w) (s : Source ρ w) (batch last : ℕ) :
    ℕ → List (List UInt8) → ℕ → Prop where
  | nil (p : ℕ) : Tiles cfg s batch last p [] p
  | data {p q : ℕ} {wire : List UInt8} {rest : List (List UInt8)} {rs : List Record}
      (frame : s.DataTile cfg batch last p wire rs)
      (next : Tiles cfg s batch last (p + rs.length) rest q) :
      Tiles cfg s batch last p (wire :: rest) q
  | gap {p q target : ℕ} {wire : List UInt8} {rest : List (List UInt8)}
      (frame : s.GapTile cfg last p wire target) (next : Tiles cfg s batch last target rest q) :
      Tiles cfg s batch last p (wire :: rest) q

variable {cfg : SourceConfig w} {s : Source ρ w} {batch last p q q' : ℕ}

theorem Tiles.append {frames frames' : List (List UInt8)} (h : s.Tiles cfg batch last p frames q)
    (h' : s.Tiles cfg batch last q frames' q') :
    s.Tiles cfg batch last p (frames ++ frames') q' := by
  induction h with
  | nil p => exact h'
  | data frame _ ih => exact .data frame (ih h')
  | gap frame _ ih => exact .gap frame (ih h')

/-! ## What a server finds in a ring nobody writes -/

variable {k : ℕ}

/-- Between two calls everything is published. -/
theorem Inv.quiescent (hs : s.Inv cfg) (hidle : s.sys.producer.pc = .idle) :
    Quiescent cfg.ring.cap s.sys.mem s.sys.producer :=
  ⟨hs.sys.ring, hidle, hs.sys.published (by simp only [RingProducer.settled, hidle])⟩

/-- A message that is not published is not there. -/
theorem Inv.readRecord_pending (hs : s.Inv cfg) (hidle : s.sys.producer.pc = .idle)
    (hk : s.sys.mem.writeSeq < k) : (s.snapshot cfg).readRecord k = .pending := by
  have hread : readSlot ((s.snapshot cfg).slot k) k = .pending :=
    (hs.quiescent hidle).readSlot_pending hk
  unfold SourceRing.readRecord
  rw [SourceRing.read_eq, hread]

/-- A retained message is read as it was pushed, unless its blob was reserved over. -/
theorem Inv.readRecord_retained (hs : s.Inv cfg) (hidle : s.sys.producer.pc = .idle)
    (hpos : 1 ≤ k) (hle : k ≤ s.sys.mem.writeSeq)
    (hret : s.sys.mem.writeSeq < k + cfg.ring.cap.val) :
    (∃ r, (s.snapshot cfg).readRecord k = .item r ∧ s.Has k r) ∨
      ((s.snapshot cfg).readRecord k = .lost ∧ s.Lapped cfg k) := by
  have hq := hs.quiescent hidle
  obtain ⟨d, hd, hitem⟩ := hq.readSlot_retained hpos hle hret
  have hread : readSlot ((s.snapshot cfg).slot k) k = .item d := hitem
  have hlt : k < s.seq := hle.trans_lt hs.sys.ring.writeSeq
  unfold SourceRing.readRecord
  rw [SourceRing.read_eq, hread]
  cases hb : cfg.blob with
  | none =>
    left
    refine ⟨⟨payloadBytes d, []⟩, ?_, hpos, hlt, d, hd, ?_⟩
    · simp only [snapshot, hb, Option.map_none]
    · rw [(hs.plain hb).2]
      rfl
  | some b =>
    obtain ⟨blob, hblob⟩ := (hs.blob b hb).exists_blob hd
    obtain ⟨hmem, hlen, -⟩ := (hs.blob b hb).packet k d blob hd hblob
    obtain ⟨hgranted, -, -⟩ := (hs.blob b hb).writer.written _ _ hmem
    have hbounds := ((hs.blob b hb).writer.allocated.placed _ hgranted).1
    have hget : s.blobs.getD (k - 1) [] = blob := by
      rw [List.getD_eq_getElem?_getD, hblob, Option.getD_some]
    simp only [snapshot, hb, Option.map_some, SourceRing.readBlob, hbounds, Bool.true_eq_false,
      if_false]
    by_cases hzero : 0 < (blobRefAt (payloadBytes d)).len
    · rw [if_pos hzero]
      cases hlap : isLapped b.arena s.arena.reserved (blobRefAt (payloadBytes d)) with
      | true => exact .inr ⟨rfl, hlt, b, d, hb, hd, hlap⟩
      | false =>
        left
        refine ⟨_, rfl, hpos, hlt, d, hd, ?_⟩
        rw [(hs.blob b hb).writer.viewBlob hmem hlap, hget]
    · left
      rw [if_neg hzero]
      refine ⟨_, rfl, hpos, hlt, d, hd, ?_⟩
      rw [hget, List.length_eq_zero_iff.mp (by omega : blob.length = 0)]

/-- From the oldest message retained on nothing is found overwritten. -/
theorem Inv.readRecord_cases (hs : s.Inv cfg) (hidle : s.sys.producer.pc = .idle) (hpos : 1 ≤ k)
    (hold : oldestRetained s.sys.mem.writeSeq cfg.ring.cap.val ≤ k) :
    (∃ r, (s.snapshot cfg).readRecord k = .item r ∧ s.Has k r) ∨
      ((s.snapshot cfg).readRecord k = .lost ∧ s.Lapped cfg k) ∨
      ((s.snapshot cfg).readRecord k = .pending ∧ s.sys.mem.writeSeq < k) := by
  rcases Nat.lt_or_ge s.sys.mem.writeSeq k with hlt | hle
  · exact .inr (.inr ⟨hs.readRecord_pending hidle hlt, hlt⟩)
  · rcases hs.readRecord_retained hidle hpos hle ((oldestRetained_le hpos).mp hold) with h | h
    · exact .inl h
    · exact .inr (.inl h)

end Source

/-! ## The frames -/

/-- The header of a `DATA` frame on the wire: its fields hold the number of records and the length
of the body only as far as they go. -/
theorem Sent.decode_data {seq : ℕ} (hseq : seq < 256 ^ 8) (rs : List Record) :
    Frame.decode (Sent.data seq rs).wire =
      ⟨kindData, 0, rs.length % 256 ^ 2, (rs.flatMap Record.bytes).length % 256 ^ 4, seq⟩ := by
  rw [Sent.wire, Frame.decode_dataFrame, Nat.mod_eq_of_lt hseq, Nat.zero_mod]

/-- The records of a frame are cut out of its body again. -/
theorem splitBody_records {g : Geometry w} :
    ∀ rs : List Record, (∀ r ∈ rs, r.WellFormed g) →
      splitBody g rs.length (rs.flatMap Record.bytes) = (rs, .ok []) := by
  intro rs
  induction rs with
  | nil =>
    intro _
    rfl
  | cons r rs ih =>
    intro hwf
    have hr := hwf r List.mem_cons_self
    obtain ⟨htake, hdrop, hle⟩ := MirrorRing.record_bytes hr (rs.flatMap Record.bytes)
    have hblob : frameBlobLen g r.payload = r.blob.length := by
      unfold frameBlobLen
      cases hg : g.arena with
      | none =>
        rw [hr.plain hg]
        rfl
      | some acap => exact (hr.blob acap hg).1
    rw [List.flatMap_cons, List.length_cons, splitBody]
    dsimp only
    rw [htake, hdrop, hblob, if_neg (Nat.not_lt.mpr hle), if_neg, List.drop_left, List.take_left,
      ih fun y hy => hwf y (List.mem_cons_of_mem r hy)]
    rw [List.length_append]
    omega

namespace SourceRing

/-- More turns than the loop takes make no difference. -/
theorem rangeLoop_add {ring : SourceRing w} {last batch : ℕ} {frames : List Sent} (more : ℕ) :
    ∀ {fuel cursor : ℕ}, ring.rangeLoop last batch fuel cursor = some frames →
      ring.rangeLoop last batch (fuel + more) cursor = some frames := by
  intro fuel
  induction fuel generalizing frames with
  | zero =>
    intro cursor h
    cases h
  | succ fuel ih =>
    intro cursor h
    rw [Nat.succ_add, rangeLoop]
    rw [rangeLoop] at h
    dsimp only at h ⊢
    split_ifs at h ⊢ with hlast hstop
    · exact h
    · obtain ⟨rest, hrest, rfl⟩ := Option.map_eq_some_iff.mp h
      rw [ih hrest]
      rfl
    · exact h

/-- Why `collect` stopped before a record. -/
theorem collectLoop_stop (ring : SourceRing w) (cursor maxBytes : ℕ) :
    ∀ (left count : ℕ) (out : List Record),
      (∀ seen, (ring.collectLoop cursor maxBytes left count out).1.lapped = some seen →
        ring.readRecord (cursor + (ring.collectLoop cursor maxBytes left count out).1.count) =
          .overwritten seen) ∧
      ((ring.collectLoop cursor maxBytes left count out).1.lost = true →
        ring.readRecord (cursor + (ring.collectLoop cursor maxBytes left count out).1.count) =
          .lost) := by
  intro left
  induction left with
  | zero =>
    intro count out
    exact ⟨by rintro _ ⟨⟩, by rintro ⟨⟩⟩
  | succ left ih =>
    intro count out
    rw [collectLoop]
    cases hread : ring.readRecord (cursor + count) with
    | pending => exact ⟨by rintro _ ⟨⟩, by rintro ⟨⟩⟩
    | overwritten seen =>
      refine ⟨?_, by rintro ⟨⟩⟩
      rintro _ ⟨⟩
      exact hread
    | lost => exact ⟨by rintro _ ⟨⟩, fun _ => hread⟩
    | item r =>
      simp only [collectTurn]
      by_cases hover : 0 < count ∧ maxBytes < wireLen (out ++ [r])
      · rw [if_pos hover]
        exact ⟨by rintro _ ⟨⟩, by rintro ⟨⟩⟩
      rw [if_neg hover]
      by_cases hfull : maxBytes ≤ wireLen (out ++ [r])
      · rw [if_pos hfull]
        exact ⟨by rintro _ ⟨⟩, by rintro ⟨⟩⟩
      · rw [if_neg hfull]
        exact ih (count + 1) (out ++ [r])

end SourceRing

namespace Source

variable {cfg : SourceConfig w} {s : Source ρ w} {batch last p : ℕ}

/-- The frame `serve_range` writes for the records it has collected. -/
theorem Inv.dataTile (hcfg : cfg.Supported) (hs : s.Inv cfg) {rs : List Record}
    (hrecords : ∀ i r, rs[i]? = some r → s.Has (p + i) r) (hpos : 0 < rs.length)
    (hwithin : p + rs.length ≤ last + 1) (hbatch : rs.length ≤ batch) (hmax : batch ≤ 2 ^ 16 - 1)
    (hshort : wireLen rs ≤ tcpFrameBytes ∨ rs.length = 1) :
    s.DataTile cfg batch last p (Sent.data p rs).wire rs := by
  obtain ⟨body, hbody⟩ : ∃ body, body = rs.flatMap Record.bytes := ⟨_, rfl⟩
  have hwf : ∀ r ∈ rs, r.WellFormed cfg.geometry := by
    intro r hr
    obtain ⟨i, hi⟩ := List.getElem?_of_mem hr
    exact (hrecords i r hi).wellFormed hs
  have hfirst := (hrecords 0 _ (List.getElem?_eq_getElem hpos)).lt
  have hbound := hs.bound
  have hcount : rs.length % 256 ^ 2 = rs.length := Nat.mod_eq_of_lt (by omega)
  have hdecode : Frame.decode (Sent.data p rs).wire =
      ⟨kindData, 0, rs.length, body.length % 256 ^ 4, p⟩ := by
    rw [Sent.decode_data (by omega), hcount, hbody]
  have hlength : (Sent.data p rs).wire.length = frameHeaderLen + body.length := by
    rw [Sent.wire, List.length_append, Frame.length_encode, hbody]
  have hwireLen : wireLen rs = frameHeaderLen + body.length := by rw [wireLen_eq, hbody]
  refine ⟨by rw [hdecode], by rw [hdecode], by rw [hdecode], ?_, hrecords, hpos, hwithin, hbatch,
    by rw [hlength, ← hwireLen]; exact hshort, fun hsmall => ?_⟩
  · rw [Sent.wire, List.drop_left' (Frame.length_encode _)]
    exact splitBody_records rs hwf
  · have hlen : body.length < 256 ^ 4 := by
      have htcp : tcpFrameBytes < 256 ^ 4 := by decide
      rcases hshort with hle | hone
      · omega
      · -- one record: a slot and a blob
        obtain ⟨r, rfl⟩ := List.length_eq_one_iff.mp hone
        have hr := hwf r (List.mem_singleton_self r)
        have hslot := hcfg.slotSize
        rw [List.flatMap_singleton, Record.bytes] at hbody
        rw [hbody, List.length_append, hr.length]
        cases hb : cfg.blob with
        | none =>
          rw [hr.plain (by rw [SourceConfig.geometry_arena, hb]; rfl), List.length_nil]
          omega
        | some b =>
          have hmax := (hr.blob b.arena (by rw [SourceConfig.geometry_arena, hb]; rfl)).2
          have harena := (hmax.trans maxLen_le).trans_lt (hcfg.arena b hb)
          rw [hb] at hsmall
          have hlt := hsmall.resolve_left (by rintro ⟨⟩)
          omega
    rw [hlength, hdecode]
    exact congrArg _ (Nat.mod_eq_of_lt hlen).symm

/-- A `GAP` frame. -/
theorem gapTile {target : ℕ} (hlt : p < target) (hbound : target ≤ 2 ^ 63)
    (hgone : ∀ k, p ≤ k → k < target → k ≤ last →
      k < oldestRetained s.sys.mem.writeSeq cfg.ring.cap.val ∨ s.Lapped cfg k) :
    s.GapTile cfg last p (Sent.gap target).wire target := by
  have hfits : (Frame.control kindGap target).Fits := control_fits (by decide) hbound
  have hdecode : Frame.decode (Sent.gap target).wire = Frame.control kindGap target := by
    rw [Sent.wire, ← List.append_nil (Frame.control kindGap target).encode,
      Frame.decode_encode hfits]
  exact ⟨by rw [hdecode]; rfl, by rw [hdecode]; rfl, Frame.length_encode _, hlt, hgone⟩

/-! ## The loop -/

/-- What is collected from the oldest message retained on: records of the source, as many as may be
and fit, up to one whose blob is gone. -/
structure Gathered (cfg : SourceConfig w) (s : Source ρ w) (cursor limit : ℕ)
    (got : Collected × List Record) : Prop where
  length : got.2.length = got.1.count
  count_le : got.1.count ≤ limit
  short : got.1.count = 0 ∨ WithinBudget limit tcpFrameBytes got.2
  records : ∀ i r, got.2[i]? = some r → s.Has (cursor + i) r
  lapped : got.1.lapped = none
  lost : got.1.lost = true → s.Lapped cfg (cursor + got.1.count)
  found : cursor ≤ s.sys.mem.writeSeq → 0 < got.1.count ∨ got.1.lost = true
  nothing : s.sys.mem.writeSeq < cursor → got.1 = ⟨0, none, false⟩

theorem Inv.collect_gathered (hs : s.Inv cfg) (hidle : s.sys.producer.pc = .idle) {cursor limit : ℕ}
    (hpos : 1 ≤ cursor) (hlimit : 0 < limit)
    (hold : oldestRetained s.sys.mem.writeSeq cfg.ring.cap.val ≤ cursor) :
    s.Gathered cfg cursor limit ((s.snapshot cfg).collect cursor limit tcpFrameBytes []) := by
  have hcases (i : ℕ) := hs.readRecord_cases hidle (hpos.trans (Nat.le_add_right cursor i))
    (hold.trans (Nat.le_add_right cursor i))
  obtain ⟨rs, hout, hcount, hreads⟩ :=
    (s.snapshot cfg).collectLoop_reads cursor tcpFrameBytes limit 0 []
  obtain ⟨rs', hout', -, hle, -⟩ :=
    (s.snapshot cfg).collectLoop_keeps cursor tcpFrameBytes limit 0 []
  obtain ⟨hlapped, hlost⟩ := (s.snapshot cfg).collectLoop_stop cursor tcpFrameBytes limit 0 []
  rw [List.nil_append] at hout hout'
  rw [Nat.zero_add] at hcount
  rw [Nat.add_zero] at hreads
  obtain rfl : rs' = rs := hout'.symm.trans hout
  have hrecords : ∀ i r, rs'[i]? = .some r → s.Has (cursor + i) r := by
    intro i r hi
    obtain ⟨hlt, hget⟩ := List.getElem?_eq_some_iff.mp hi
    have hread := (List.forall₂_iff_get.mp hreads).2 i (by rw [List.length_range']; exact hlt) hlt
    rw [List.get_eq_getElem, List.get_eq_getElem, hget, List.getElem_range', Nat.one_mul] at hread
    rcases hcases i with ⟨r', hitem, hhas⟩ | ⟨hitem, -⟩ | ⟨hitem, -⟩
    · rw [hread] at hitem
      cases hitem
      exact hhas
    · rw [hread] at hitem
      cases hitem
    · rw [hread] at hitem
      cases hitem
  unfold SourceRing.collect
  refine ⟨by rw [hout, hcount], hcount.trans_le hle, ?_, by rw [hout]; exact hrecords, ?_, ?_, ?_,
    ?_⟩
  · rcases hcases 0 with ⟨r, hitem, -⟩ | ⟨hitem, -⟩ | ⟨hitem, -⟩
    · exact .inr (SourceRing.collect_withinBudget tcpFrameBytes hlimit hitem).2
    · exact .inl (SourceRing.collect_eq_nil tcpFrameBytes hlimit
        fun r hr => by rw [Nat.add_zero, hr] at hitem; cases hitem).1
    · exact .inl (SourceRing.collect_eq_nil tcpFrameBytes hlimit
        fun r hr => by rw [Nat.add_zero, hr] at hitem; cases hitem).1
  · -- nothing is found overwritten
    rw [Option.eq_none_iff_forall_ne_some]
    intro seen hseen
    have hread := hlapped seen hseen
    rcases hcases _ with ⟨r, hitem, -⟩ | ⟨hitem, -⟩ | ⟨hitem, -⟩ <;>
    · rw [hread] at hitem
      cases hitem
  · intro hl
    have hread := hlost hl
    rcases hcases _ with ⟨r, hitem, -⟩ | ⟨-, hgone⟩ | ⟨hitem, -⟩
    · rw [hread] at hitem
      cases hitem
    · exact hgone
    · rw [hread] at hitem
      cases hitem
  · intro hws
    rcases hcases 0 with ⟨r, hitem, -⟩ | ⟨hitem, -⟩ | ⟨-, hlt⟩
    · exact .inl (SourceRing.collect_withinBudget tcpFrameBytes hlimit hitem).1.pos
    · right
      obtain ⟨left, rfl⟩ := Nat.exists_eq_succ_of_ne_zero hlimit.ne'
      rw [SourceRing.collectLoop, hitem]
      rfl
    · exact absurd hws (Nat.not_le.mpr hlt)
  · intro hws
    obtain ⟨left, rfl⟩ := Nat.exists_eq_succ_of_ne_zero hlimit.ne'
    rw [SourceRing.collectLoop, hs.readRecord_pending hidle (k := cursor + 0) hws]
    rfl

/-- **A turn of the loop of `serve_range`** passes over some sequences of the range. -/
theorem Gathered.answer_tiles (hcfg : cfg.Supported) (hs : s.Inv cfg) {cursor : ℕ}
    {got : Collected × List Record}
    (hidle : s.sys.producer.pc = .idle) (hbatch : batch ≤ 2 ^ 16 - 1)
    (h : s.Gathered cfg cursor (min batch (last - cursor + 1)) got) (hlast : cursor ≤ last)
    (hws : cursor ≤ s.sys.mem.writeSeq) :
    cursor < ((s.snapshot cfg).answer cursor got).2 ∧
      s.Tiles cfg batch (min last s.sys.mem.writeSeq) cursor
        (((s.snapshot cfg).answer cursor got).1.map Sent.wire)
        ((s.snapshot cfg).answer cursor got).2 := by
  have hcount := h.count_le
  have hlength := h.length
  have hbound := hs.bound
  have hpub := (hs.quiescent hidle).published
  have hseq : s.sys.producer.seq = s.seq := rfl
  -- the records that were collected, if there are any
  have hdata : s.Tiles cfg batch (min last s.sys.mem.writeSeq) cursor
      ((if 0 < got.1.count then [Sent.data cursor got.2] else []).map Sent.wire)
      (cursor + got.1.count) := by
    by_cases hpos : 0 < got.1.count
    · have hend := (h.records (got.2.length - 1) _
        (List.getElem?_eq_getElem (Nat.sub_lt (by omega) Nat.one_pos))).lt
      have hwithin := h.short.resolve_left hpos.ne'
      rw [if_pos hpos, ← hlength]
      exact .data (hs.dataTile hcfg h.records (by omega) (by omega) (by omega) hbatch hwithin.bytes)
        (.nil _)
    · rw [if_neg hpos, Nat.eq_zero_of_not_pos hpos, Nat.add_zero]
      exact .nil _
  unfold SourceRing.answer
  simp only [h.lapped]
  cases hlost : got.1.lost with
  | false =>
    have hpos := (h.found hws).resolve_right (by rw [hlost]; decide)
    rw [if_neg Bool.false_ne_true]
    exact ⟨by omega, hdata⟩
  | true =>
    have hgone := h.lost hlost
    have hlt : cursor + got.1.count < s.seq := hgone.lt
    rw [if_pos rfl, List.map_append]
    refine ⟨by omega, hdata.append (.gap (gapTile (Nat.lt_succ_self _) (by omega) ?_) (.nil _))⟩
    intro k hk hk' _
    obtain rfl : k = cursor + got.1.count := by omega
    exact .inr hgone

/-- **The loop of `serve_range` passes over what is left of the range**, and ends. -/
theorem Inv.rangeLoop_tiles (hcfg : cfg.Supported) (hs : s.Inv cfg)
    (hidle : s.sys.producer.pc = .idle) (hpos : 1 ≤ batch) (hbatch : batch ≤ 2 ^ 16 - 1)
    (last : ℕ) :
    ∀ (fuel cursor : ℕ), s.sys.mem.writeSeq + 1 - cursor < fuel → 1 ≤ cursor →
      oldestRetained s.sys.mem.writeSeq cfg.ring.cap.val ≤ cursor →
      ∃ frames q, (s.snapshot cfg).rangeLoop last batch fuel cursor = some frames ∧
        s.Tiles cfg batch (min last s.sys.mem.writeSeq) cursor (frames.map Sent.wire) q ∧
        min last s.sys.mem.writeSeq < q := by
  -- induction on the turns: each goes on behind the cursor
  intro fuel
  induction fuel with
  | zero =>
    intro cursor hfuel
    exact absurd hfuel (Nat.not_lt_zero _)
  | succ fuel ih =>
    intro cursor hfuel hone hold
    rw [SourceRing.rangeLoop]
    dsimp only
    by_cases hlast : cursor ≤ last
    · rw [if_pos hlast]
      have hlimit : 0 < min batch (last - cursor + 1) := lt_min hpos (Nat.succ_pos _)
      have hgot := hs.collect_gathered hidle hone hlimit hold
      rcases Nat.lt_or_ge s.sys.mem.writeSeq cursor with hlt | hws
      · rw [if_pos (hgot.nothing hlt)]
        exact ⟨[], cursor, rfl, .nil _, (min_le_right _ _).trans_lt hlt⟩
      · obtain ⟨hnext, htiles⟩ := hgot.answer_tiles hcfg hs hidle hbatch hlast hws
        have hgoes : ((s.snapshot cfg).collect cursor (min batch (last - cursor + 1)) tcpFrameBytes
            []).1 ≠ ⟨0, none, false⟩ := by
          intro hnone
          rcases hgot.found hws with hcount | hlost
          · rw [hnone] at hcount
            exact absurd hcount (Nat.lt_irrefl 0)
          · rw [hnone] at hlost
            cases hlost
        rw [if_neg hgoes]
        obtain ⟨frames, q, hloop, hrest, hq⟩ :=
          ih _ (by omega) (hone.trans hnext.le) (hold.trans hnext.le)
        rw [hloop]
        refine ⟨_, q, rfl, ?_, hq⟩
        rw [List.map_append]
        exact htiles.append hrest
    · rw [if_neg hlast]
      exact ⟨[], cursor, rfl, .nil _, (min_le_left _ _).trans_lt (Nat.not_le.mp hlast)⟩

end Source

/-- **The answer to a retransmission request is exact**, for a batch that the header of a frame can
count. On a source nobody writes, with any history, `serve_range` ends, and the frames it wrote pass
over every sequence of the range that is published, each once and in order. -/
theorem serveRange_exact [DecidableEq ρ] {cfg : SourceConfig w} (hcfg : cfg.Supported)
    {s : Source ρ w} (hreach : Transition.Reaches (Source.step cfg) (Source.create ρ cfg) s)
    (hidle : s.sys.producer.pc = .idle) (first last : ℕ) {batch : ℕ} (hpos : 1 ≤ batch)
    (hbatch : batch ≤ 2 ^ 16 - 1) :
    ∃ frames q, (∀ fuel, s.sys.mem.writeSeq + 1 < fuel →
        (s.snapshot cfg).serveRange fuel first last batch = some frames) ∧
      s.Tiles cfg batch (min last s.sys.mem.writeSeq) (max first 1) (frames.map Sent.wire) q ∧
      min last s.sys.mem.writeSeq < q := by
  have hs : s.Inv cfg := hreach.invariant
    (fun h hstep => h.step hcfg.toAligned (Source.step_move hstep)) (.create ρ cfg)
  obtain ⟨oldest, holdest⟩ :
      ∃ oldest, oldest = oldestRetained s.sys.mem.writeSeq cfg.ring.cap.val := ⟨_, rfl⟩
  have hloop (cursor : ℕ) (hone : 1 ≤ cursor) (hold : oldest ≤ cursor) :=
    hs.rangeLoop_tiles hcfg hidle hpos hbatch last (s.sys.mem.writeSeq + 2) cursor (by omega) hone
      (holdest ▸ hold)
  have hmore (fuel : ℕ) (hfuel : s.sys.mem.writeSeq + 1 < fuel) :
      ∃ more, fuel = s.sys.mem.writeSeq + 2 + more := Nat.exists_eq_add_of_le hfuel
  have hbegin : oldestRetained (s.snapshot cfg).writeSeq (s.snapshot cfg).cap.val = oldest :=
    holdest.symm
  unfold SourceRing.serveRange
  dsimp only
  rw [hbegin]
  by_cases hlt : max first 1 < oldest
  · -- the range starts before the oldest message retained
    have hone : 1 ≤ oldest := (Nat.le_max_right first 1).trans hlt.le
    have hbound : oldest ≤ 2 ^ 63 := by
      have hle : oldest ≤ s.sys.mem.writeSeq + 1 := by
        rw [holdest]
        exact (oldestRetained_le (Nat.le_add_left 1 _)).mpr
          (Nat.lt_add_right _ (Nat.lt_succ_self _))
      have hws := hs.sys.ring.writeSeq
      have hseq : s.sys.producer.seq ≤ 2 ^ 63 := hs.bound
      omega
    obtain ⟨frames, q, hframes, htiles, hq⟩ := hloop oldest hone (le_refl _)
    refine ⟨.gap oldest :: frames, q, fun fuel hfuel => ?_, ?_, hq⟩
    · obtain ⟨more, rfl⟩ := hmore fuel hfuel
      rw [if_pos hlt, SourceRing.rangeLoop_add more hframes]
      rfl
    · exact .gap (Source.gapTile hlt hbound fun k _ hk _ => .inl (holdest ▸ hk)) htiles
  · obtain ⟨frames, q, hframes, htiles, hq⟩ :=
      hloop (max first 1) (Nat.le_max_right first 1) (Nat.not_lt.mp hlt)
    refine ⟨frames, q, fun fuel hfuel => ?_, htiles, hq⟩
    obtain ⟨more, rfl⟩ := hmore fuel hfuel
    rw [if_neg hlt, SourceRing.rangeLoop_add more hframes]

/-- Three bytes were pushed into a ring of two: a request for nine from the first is answered by a
`GAP` and a `DATA` frame. -/
theorem serveRange_exact_three : ∃ (s : Source Unit 1) (frames : List Sent) (q : ℕ),
    Transition.Reaches (Source.step twoBytes) (Source.create Unit twoBytes) s ∧
    (s.snapshot twoBytes).serveRange 5 1 9 2 = some frames ∧ frames.length = 2 ∧
    s.Tiles twoBytes 2 3 1 (frames.map Sent.wire) q ∧ 3 < q := by
  obtain ⟨s, hs⟩ : ∃ s, Transition.run (Source.step twoBytes) (Source.create Unit twoBytes)
      (pushByteSource 5 ++ pushByteSource 6 ++ pushByteSource 7) = some s := ⟨_, rfl⟩
  obtain ⟨hidle, hws⟩ : s.sys.producer.pc = .idle ∧ s.sys.mem.writeSeq = 3 := by
    cases hs
    exact ⟨rfl, rfl⟩
  have hlength : ((s.snapshot twoBytes).serveRange 5 1 9 2).map List.length = some 2 := by
    cases hs
    rfl
  obtain ⟨frames, q, hframes, htiles, hq⟩ :=
    serveRange_exact twoBytes_supported ⟨_, hs⟩ hidle 1 9 (show 1 ≤ 2 by decide) (by decide)
  have hmin : min 9 s.sys.mem.writeSeq = 3 := by rw [hws]; rfl
  rw [hmin] at htiles hq
  have hanswer := hframes 5 (by rw [hws]; decide)
  rw [hanswer] at hlength
  exact ⟨s, frames, q, ⟨_, hs⟩, hanswer, Option.some.inj hlength, htiles, hq⟩

/-! ## A batch that the header cannot count -/

/-- What the producer of a ring without blobs does on its own is a run of the source. -/
theorem Source.reaches_of_solo [DecidableEq ρ] {cfg : SourceConfig w} (hplain : cfg.blob = none)
    {s : Source ρ w} {t : Shared w UInt8 × RingProducer w UInt8}
    (h : Transition.Reaches
      (RingProducer.soloStep cfg.ring.cap cfg.ring.maxReaders s.sys.alive)
      (s.sys.mem, s.sys.producer) t) (ht : t.2.seq ≤ 2 ^ 63) :
    Transition.Reaches (Source.step cfg) s
      { s with sys := { s.sys with mem := t.1, producer := t.2 } } := by
  refine h.invariant (P := fun t => t.2.seq ≤ 2 ^ 63 → Transition.Reaches (Source.step cfg) s
    { s with sys := { s.sys with mem := t.1, producer := t.2 } }) ?_ (fun _ => .refl s) ht
  intro t a t' hprior hstep ht'
  obtain ⟨mem, producer⟩ := t'
  have hle := (RingProducer.step_effect hstep).mono.1
  refine (hprior (hle.trans ht')).trans (.single (a := .ring (.producer a)) ?_)
  unfold RingProducer.soloStep at hstep
  simp only [Source.step, hplain, Option.isSome_none, Bool.false_eq_true, false_and, if_false,
    Source.ringStep, System.step, hstep, if_pos ht']

/-- One more message is pushed, without interruption. -/
theorem Source.exists_push [DecidableEq ρ] {cfg : SourceConfig w} (hplain : cfg.blob = none)
    {s : Source ρ w} (hidle : s.sys.producer.pc = .idle)
    (hlossy : s.sys.producer.flowControl = .lossyLatestWins) (hseq : s.seq + 1 ≤ 2 ^ 63)
    (item : Payload w UInt8) :
    ∃ t : Source ρ w, Transition.Reaches (Source.step cfg) s t ∧ t.sys.producer.pc = .idle ∧
      t.sys.producer.flowControl = .lossyLatestWins ∧ t.seq = s.seq + 1 := by
  have hgate : s.sys.producer.gated = false := by simp [RingProducer.gated, hlossy]
  have hseq' : s.sys.producer.seq + 1 ≤ 2 ^ 63 := hseq
  have hcall : RingProducer.soloStep cfg.ring.cap cfg.ring.maxReaders s.sys.alive
      (s.sys.mem, s.sys.producer) (.call (.tryPush item)) =
      some (s.sys.mem, { s.sys.producer with tryResult := some true }.accept [item]) := by
    rw [RingProducer.soloStep_call hidle]
    simp only [RingProducer.start, hgate, Bool.false_eq_true, if_false]
  have hpush := (Transition.Reaches.single hcall).trans
    (RingProducer.push_reaches hidle hgate (hseq'.trans (by decide)) item)
  have hnext : (RingProducer.pushNow cfg.ring.cap s.sys.mem s.sys.producer item).2.2.seq =
      s.sys.producer.seq + 1 :=
    Nat.mod_eq_of_lt (Nat.lt_of_le_of_lt hseq' (by decide))
  exact ⟨_, reaches_of_solo hplain hpush (hnext.trans_le hseq'), hidle, hlossy, hnext⟩

/-- A ring of 65536 messages of eight bytes. -/
def longRing : SourceConfig 8 := .ofRing 8 ⟨⟨2 ^ 16, 16, rfl⟩, 0, .lossyLatestWins⟩

/-- It can be filled. -/
theorem exists_longRing (n : ℕ) (hn : n ≤ 2 ^ 16) :
    ∃ s : Source Empty 8, Transition.Reaches (Source.step longRing) (.create Empty longRing) s ∧
      s.sys.producer.pc = .idle ∧ s.sys.producer.flowControl = .lossyLatestWins ∧
      s.seq = n + 1 := by
  induction n with
  | zero => exact ⟨_, .refl _, rfl, rfl, rfl⟩
  | succ n ih =>
    obtain ⟨s, hs, hidle, hlossy, hseq⟩ := ih (Nat.le_of_succ_le hn)
    obtain ⟨t, ht, hidle', hlossy', hseq'⟩ :=
      Source.exists_push (show longRing.blob = none from rfl) hidle hlossy (by omega) fun _ => 0
    exact ⟨t, hs.trans ht, hidle', hlossy', hseq'.trans (congrArg Nat.succ hseq)⟩

/-- **A frame that counts none of its records.** With a batch of 65536, a request for all messages
of a full ring of 65536 is answered by one frame, whose header says that it holds no record. -/
theorem serveRange_uncounted :
    ∃ (s : Source Empty 8) (rs : List Record),
      Transition.Reaches (Source.step longRing) (.create Empty longRing) s ∧
      s.sys.producer.pc = .idle ∧ s.sys.mem.writeSeq = 2 ^ 16 ∧ rs.length = 2 ^ 16 ∧
      (s.snapshot longRing).serveRange 2 1 (2 ^ 16) (2 ^ 16) = some [.data 1 rs] ∧
      (Frame.decode (Sent.data 1 rs).wire).count = 0 ∧
      ∀ q, ¬ s.Tiles longRing (2 ^ 16) (2 ^ 16) 1 [(Sent.data 1 rs).wire] q := by
  obtain ⟨s, hreach, hidle, -, hseq⟩ := exists_longRing (2 ^ 16) (le_refl _)
  have hs : s.Inv longRing := hreach.invariant
    (fun h hstep => h.step ⟨by rintro _ ⟨⟩, by rintro _ ⟨⟩⟩ (Source.step_move hstep))
    (.create Empty longRing)
  have hws : s.sys.mem.writeSeq = 2 ^ 16 :=
    (hs.quiescent hidle).published.trans (congrArg Nat.pred hseq)
  -- every message is there
  have hhas : ∀ k, 1 ≤ k → k < 1 + 2 ^ 16 → (s.snapshot longRing).readRecord k =
      .item (s.record k) ∧ s.Has k (s.record k) := by
    intro k hk hlt
    rcases hs.readRecord_retained hidle hk (by omega) (show _ < k + 2 ^ 16 by omega) with
      ⟨r, hread, hr⟩ | ⟨-, hlapped⟩
    · rw [s.agrees_record k r hr]
      exact ⟨hread, hr⟩
    · obtain ⟨b, d, ⟨⟩, -⟩ := hlapped.lapped
  obtain ⟨rs, hrs⟩ : ∃ rs, rs = (List.range' 1 (2 ^ 16)).map s.record := ⟨_, rfl⟩
  have hlength : rs.length = 2 ^ 16 := by rw [hrs, List.length_map, List.length_range']
  have hshort : wireLen ([] ++ rs) < tcpFrameBytes := by
    have hbytes : (dataBytes s.record 1 (2 ^ 16)).length = 2 ^ 16 * 8 :=
      (length_dataBytes_le (g := longRing.geometry) (2 ^ 16) 1
        fun k hk hlt => ((hhas k hk hlt).2).wellFormed hs).2.1 rfl
    have hbody : rs.flatMap Record.bytes = dataBytes s.record 1 (2 ^ 16) := by
      rw [hrs, List.flatMap_map]
      rfl
    rw [List.nil_append, wireLen_eq, hbody, hbytes]
    decide
  have hcollect : (s.snapshot longRing).collect 1 (2 ^ 16) tcpFrameBytes [] =
      (⟨2 ^ 16, none, false⟩, rs) := by
    rw [SourceRing.collect, SourceRing.collectLoop_all (2 ^ 16) 0 []
      (fun k hk hlt => (hhas k hk hlt).1) (by rw [← hrs]; exact hshort), ← hrs, Nat.zero_add,
      List.nil_append]
  have hdecode := Sent.decode_data (show 1 < 256 ^ 8 by decide) rs
  have hcount : (Frame.decode (Sent.data 1 rs).wire).count = 0 := by
    rw [hdecode]
    exact congrArg (· % 256 ^ 2) hlength
  refine ⟨s, rs, hreach, hidle, hws, hlength, ?_, hcount, ?_⟩
  · have hold : ¬ max 1 1 < oldestRetained (s.snapshot longRing).writeSeq
        (s.snapshot longRing).cap.val := by
      rw [Nat.not_lt, max_self]
      exact (oldestRetained_le (le_refl 1)).mpr (show s.sys.mem.writeSeq < 1 + 2 ^ 16 by omega)
    have hmin : min (2 ^ 16) (2 ^ 16 - 1 + 1) = 2 ^ 16 := by decide
    unfold SourceRing.serveRange
    dsimp only
    rw [if_neg hold, max_self, SourceRing.rangeLoop, if_pos (by decide), hmin]
    simp only [hcollect]
    rw [if_neg (by decide)]
    rfl
  · intro q htiles
    cases htiles with
    | data frame next =>
      have hpos := frame.pos
      rw [← frame.count, hcount] at hpos
      exact Nat.lt_irrefl 0 hpos
    | gap frame next =>
      have hkind := frame.kind
      rw [hdecode] at hkind
      exact absurd hkind (by decide : kindData ≠ kindGap)

end Ringfire
