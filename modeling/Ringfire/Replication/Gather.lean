import Ringfire.Replication.Collect
import Ringfire.Replication.Source

/-!
# Reading a source that goes on pushing

`read_record` and `collect` of `replication.rs`, one memory access at a time, next to a source that
takes its own steps in between. Both delivery loops and `serve_range` read the source through
`Gather`, which is one call of `collect`, or a later one of `collect_lingering` when `prior` records
were gathered before it. What `collect` makes of a record it has read is `collectTurn`, as on a ring
nobody writes.

## Main definitions

* `RecordPc.step`: one memory access of `read_record`
* `Gather.step`: one memory access of `collect`
* `Source.Has`, `Source.Lapped`: a record of the source, and one that is gone from its arena

## Main results

* `RecordPc.Sound.step`: a record that was read is the one pushed under its sequence
* `Gather.Sound.step`: so are all the records gathered
-/

namespace Ringfire

open PayloadArena

variable {ρ : Type} {w : ℕ}

/-! ## Reading one record -/

/-- Where a thread inside `read_record` stands. -/
inductive RecordPc (w : ℕ) where
  | slot (rd : ReadPc w UInt8)
  | blob (data : Payload w UInt8) (rd : BlobReadPc UInt8)
  | done (r : RawRead Record)

/-- A memory access of a reader of the source: a word of a slot payload, a byte of a blob, or
whatever comes next. -/
inductive ReadLabel (w : ℕ) where
  | word (i : Fin w)
  | byte (i : ℕ)
  | tick

namespace RecordPc

/-- What `read_record` does once the slot was read. -/
def ofSlot (cfg : SourceConfig w) : SlotRead (Payload w UInt8) → RecordPc w
  | .pending => .done .pending
  | .overwritten seen => .done (.overwritten seen)
  | .item d =>
    match cfg.blob with
    | none => .done (.item ⟨payloadBytes d, []⟩)
    | some b =>
      if 0 < (blobRefAt (payloadBytes d)).len then
        -- the bounds are checked before a byte is copied
        if isInBounds b.arena (blobRefAt (payloadBytes d)) = false then .done .lost
        else .blob d (.start (blobRefAt (payloadBytes d)))
      else .done (.item ⟨payloadBytes d, []⟩)

/-- The slot is being read, or was. -/
def afterSlot (cfg : SourceConfig w) : ReadPc w UInt8 → RecordPc w
  | .done r => ofSlot cfg r
  | rd => .slot rd

/-- The blob is being copied, or was. -/
def afterBlob (d : Payload w UInt8) : BlobReadPc UInt8 → RecordPc w
  | .done true _ => .done .lost
  | .done false buf =>
    .done (.item ⟨payloadBytes d, (List.range (blobRefAt (payloadBytes d)).len).map buf⟩)
  | rd => .blob d rd

/-- One memory access of `read_record(want)`. -/
def step (cfg : SourceConfig w) (s : Source ρ w) (want : ℕ) :
    RecordPc w → ReadLabel w → Option (RecordPc w)
  | .slot rd, .word i =>
    (rd.step (s.sys.mem.slots (slotIndex cfg.ring.cap want)) want (some i)).map (afterSlot cfg)
  | .slot rd, .tick =>
    (rd.step (s.sys.mem.slots (slotIndex cfg.ring.cap want)) want none).map (afterSlot cfg)
  -- the bytes of the blob, then whether the arena has lapped it
  | .blob d rd, .byte i =>
    match cfg.blob with
    | some b =>
      (rd.step b.arena s.arena (blobRefAt (payloadBytes d)) (some i)).map (afterBlob d)
    | none => none
  | .blob d rd, .tick =>
    match cfg.blob with
    | some b => (rd.step b.arena s.arena (blobRefAt (payloadBytes d)) none).map (afterBlob d)
    | none => none
  | _, _ => none

end RecordPc

/-! ## Gathering records -/

/-- A call of `collect`: `prior` records were gathered before it, `count` by it, and `out` holds
them all. -/
structure Gather (w : ℕ) where
  first : ℕ
  limit : ℕ
  maxBytes : ℕ
  prior : ℕ
  count : ℕ
  out : List Record
  reading : RecordPc w

/-- A call of `collect`, in progress or at its end. -/
inductive Gathering (w : ℕ) where
  | going (g : Gather w)
  | done (got : Collected) (out : List Record)

namespace Gather

/-- The first `collect` of a frame. -/
def start (first limit maxBytes : ℕ) : Gather w :=
  ⟨first, limit, maxBytes, 0, 0, [], .slot .load⟩

/-- Another `collect` for the same frame, by `collect_lingering`. -/
def again (first limit maxBytes : ℕ) (got : Collected) (out : List Record) : Gather w :=
  ⟨first, limit, maxBytes, got.count, 0, out, .slot .load⟩

/-- The sequence being read. -/
def want (g : Gather w) : ℕ := g.first + (g.prior + g.count)

/-- The end of a turn of the loop of `collect`. -/
def take (g : Gather w) (r : RawRead Record) : Gathering w :=
  match collectTurn g.maxBytes g.count g.out r with
  | .goOn out =>
    if g.prior + (g.count + 1) < g.limit then
      .going { g with count := g.count + 1, out := out, reading := .slot .load }
    else .done ⟨g.prior + (g.count + 1), none, false⟩ out
  | .stop got out => .done ⟨g.prior + got.count, got.lapped, got.lost⟩ out

/-- One memory access of `collect`. -/
def step (cfg : SourceConfig w) (s : Source ρ w) (g : Gather w) (a : ReadLabel w) :
    Option (Gathering w) :=
  match g.reading.step cfg s g.want a with
  | some (.done r) => some (g.take r)
  | some rd => some (.going { g with reading := rd })
  | none => none

end Gather

/-! ## What is read -/

namespace Source

/-- Record `k` was pushed and is stored, and it is `r`. -/
structure Has (s : Source ρ w) (k : ℕ) (r : Record) : Prop where
  one_le : 1 ≤ k
  lt : k < s.seq
  eq : ∃ d, s.message k = some d ∧ r = ⟨payloadBytes d, s.blobs.getD (k - 1) []⟩

/-- Record `k` is stored and its blob has been reserved over. -/
structure Lapped (cfg : SourceConfig w) (s : Source ρ w) (k : ℕ) : Prop where
  lt : k < s.seq
  lapped : ∃ b d, cfg.blob = some b ∧ s.message k = some d ∧
    isLapped b.arena s.arena.reserved (blobRefAt (payloadBytes d)) = true

variable {cfg : SourceConfig w} {s s' : Source ρ w} {k : ℕ} {r : Record}

/-- Every packet has its blob. -/
theorem BlobInv.exists_blob {b : PacketConfig} (h : s.BlobInv b) {d : Payload w UInt8}
    (hd : s.message k = some d) : ∃ blob, s.blobs[k - 1]? = some blob := by
  have hlt := (List.getElem?_eq_some_iff.mp hd).1
  rw [← h.length] at hlt
  exact ⟨_, List.getElem?_eq_getElem hlt⟩

theorem Has.grows (hr : s.Has k r) (h : s.Inv cfg) (h' : s'.Inv cfg) (hg : s.Grows s') :
    s'.Has k r := by
  obtain ⟨d, hd, rfl⟩ := hr.eq
  refine ⟨hr.one_le, hr.lt.trans_le hg.seq, d, hg.view.message k d hd, ?_⟩
  cases hb : cfg.blob with
  | none => rw [(h.plain hb).2, (h'.plain hb).2]
  | some b =>
    obtain ⟨blob, hblob⟩ := (h.blob b hb).exists_blob hd
    obtain ⟨more, hmore⟩ := hg.blobs
    have hlt := (List.getElem?_eq_some_iff.mp hblob).1
    rw [← hmore, List.getD_append _ _ _ _ hlt]

theorem Lapped.grows (hl : s.Lapped cfg k) (hg : s.Grows s') : s'.Lapped cfg k := by
  obtain ⟨b, d, hb, hd, hlap⟩ := hl.lapped
  refine ⟨hl.lt.trans_le hg.seq, b, d, hb, hg.view.message k d hd, ?_⟩
  by_contra hne
  rw [Bool.not_eq_true] at hne
  rw [isLapped_mono hg.reserved hne] at hlap
  cases hlap

end Source

namespace RecordPc

/-- What reading record `want` is worth. -/
def Sound (cfg : SourceConfig w) (s : Source ρ w) (want : ℕ) : RecordPc w → Prop
  | .slot rd => rd.Sound s.message (s.seq - 1) (s.sys.mem.slots (slotIndex cfg.ring.cap want)) want
  | .blob d rd => want < s.seq ∧ s.message want = some d ∧ ∃ b blob, cfg.blob = some b ∧
      s.blobs[want - 1]? = some blob ∧ rd.Sound b.arena s.arena (blobRefAt (payloadBytes d)) blob
  | .done (.item r) => s.Has want r
  | .done (.overwritten seen) => seen = 0 ∨ (1 ≤ seen ∧ seen < s.seq)
  | .done .lost => s.Lapped cfg want
  | .done .pending => True

variable {cfg : SourceConfig w} {s s' : Source ρ w} {want : ℕ} {pc pc' : RecordPc w}

/-- What was read stays right while the source goes on. -/
theorem Sound.grows (h : pc.Sound cfg s want) (hs : s.Inv cfg) (hs' : s'.Inv cfg)
    (hg : s.Grows s') (hwant : want ≠ slotWriting) : pc.Sound cfg s' want := by
  cases pc with
  | slot rd =>
    exact ReadPc.Sound.evolves h hwant (Nat.sub_le_sub_right hg.seq 1)
      (hg.view.message want) (hg.view.slots _)
  | blob d rd =>
    obtain ⟨hlt, hd, b, blob, hb, hblob, hrd⟩ := h
    refine ⟨hlt.trans_le hg.seq, hg.view.message want d hd, b, blob, hb, ?_, hrd.mono hg.reserved⟩
    obtain ⟨more, hmore⟩ := hg.blobs
    rw [← hmore, List.getElem?_append_left (List.getElem?_eq_some_iff.mp hblob).1, hblob]
  | done r =>
    cases r with
    | item r => exact Source.Has.grows h hs hs' hg
    | pending => trivial
    | overwritten seen => exact h.imp_right fun hseen => ⟨hseen.1, hseen.2.trans_le hg.seq⟩
    | lost => exact Source.Lapped.grows h hg

/-- A slot that was read holds the message of its sequence. -/
theorem ofSlot_sound (hs : s.Inv cfg) (hpos : 1 ≤ want) (hwant : want ≠ slotWriting)
    {d : Payload w UInt8} (hword : (s.sys.mem.slots (slotIndex cfg.ring.cap want)).seq = want)
    (hd : s.message want = some d) : (ofSlot cfg (.item d)).Sound cfg s want := by
  have hlt : want < s.seq := by
    rcases (System.view_truthful hs.sys.ring).word (slotIndex cfg.ring.cap want) with h0 | hm | hst
    · exact absurd (hword.symm.trans h0) (by omega)
    · exact absurd (hword.symm.trans hm) hwant
    · exact hword ▸ hst.1.2
  cases hb : cfg.blob with
  | none =>
    simp only [ofSlot, hb]
    exact ⟨hpos, hlt, d, hd, by rw [(hs.plain hb).2]; rfl⟩
  | some b =>
    obtain ⟨blob, hblob⟩ := (hs.blob b hb).exists_blob hd
    obtain ⟨hmem, hlen, -⟩ := (hs.blob b hb).packet want d blob hd hblob
    obtain ⟨hgranted, -, -⟩ := (hs.blob b hb).writer.written _ _ hmem
    have hbounds := ((hs.blob b hb).writer.allocated.placed _ hgranted).1
    simp only [ofSlot, hb, hbounds, Bool.true_eq_false, if_false]
    by_cases hzero : 0 < (blobRefAt (payloadBytes d)).len
    · rw [if_pos hzero]
      exact ⟨hlt, hd, b, blob, hb, hblob, .start s.arena hlen⟩
    · -- an empty blob is not looked up
      rw [if_neg hzero]
      refine ⟨hpos, hlt, d, hd, ?_⟩
      rw [List.getD_eq_getElem?_getD, hblob, Option.getD_some,
        List.length_eq_zero_iff.mp (by omega : blob.length = 0)]

theorem afterSlot_sound {rd : ReadPc w UInt8} (hs : s.Inv cfg) (hpos : 1 ≤ want)
    (hwant : want ≠ slotWriting)
    (h : rd.Sound s.message (s.seq - 1) (s.sys.mem.slots (slotIndex cfg.ring.cap want)) want)
    (hitem : ∀ d, rd = .done (.item d) →
      (s.sys.mem.slots (slotIndex cfg.ring.cap want)).seq = want)
    (hseen : ∀ seen, rd = .done (.overwritten seen) →
      seen = 0 ∨ (1 ≤ seen ∧ seen < s.seq)) : (afterSlot cfg rd).Sound cfg s want := by
  cases rd with
  | load => exact h
  | copy left buf => exact h
  | done r =>
    cases r with
    | item d => exact ofSlot_sound hs hpos hwant (hitem d rfl) (h d rfl)
    | pending => trivial
    | overwritten seen => exact hseen seen rfl

theorem afterBlob_sound {d : Payload w UInt8} {b : PacketConfig} {blob : List UInt8}
    {rd : BlobReadPc UInt8} (hpos : 1 ≤ want) (hlt : want < s.seq) (hd : s.message want = some d)
    (hb : cfg.blob = some b) (hblob : s.blobs[want - 1]? = some blob)
    (hlen : (blobRefAt (payloadBytes d)).len = blob.length)
    (h : rd.Sound b.arena s.arena (blobRefAt (payloadBytes d)) blob)
    (hlap : ∀ buf, rd = .done true buf →
      isLapped b.arena s.arena.reserved (blobRefAt (payloadBytes d)) = true) :
    (afterBlob d rd).Sound cfg s want := by
  cases rd with
  | copy left buf => exact ⟨hlt, hd, b, blob, hb, hblob, h⟩
  | done lapped buf =>
    cases lapped with
    | true => exact ⟨hlt, b, d, hb, hd, hlap buf rfl⟩
    | false =>
      refine ⟨hpos, hlt, d, hd, ?_⟩
      rw [h.eq_bytes hlen, List.getD_eq_getElem?_getD, hblob, Option.getD_some]

/-- The copy of a blob is found lapped only when it is. -/
theorem step_lapped {b : PacketConfig} {r : BlobRef} {rd : BlobReadPc UInt8} {a : Option ℕ}
    {buf : ℕ → UInt8} (h : rd.step b.arena s.arena r a = some (.done true buf)) :
    isLapped b.arena s.arena.reserved r = true := by
  cases rd with
  | copy left buf' =>
    cases a with
    | some i =>
      simp only [BlobReadPc.step] at h
      split_ifs at h
      cases h
    | none =>
      simp only [BlobReadPc.step] at h
      split_ifs at h
      simp only [Option.some.injEq, BlobReadPc.done.injEq] at h
      exact h.1
  | done lapped buf' => cases a <;> cases h

/-- **A record that was read is the one pushed under its sequence.** -/
theorem Sound.step {a : ReadLabel w} (h : pc.Sound cfg s want) (hs : s.Inv cfg) (hpos : 1 ≤ want)
    (hwant : want ≠ slotWriting) (hstep : pc.step cfg s want a = some pc') :
    pc'.Sound cfg s want := by
  -- a load from the slot
  have hslot {rd rd' : ReadPc w UInt8} {x : Option (Fin w)}
      (hrd : rd.Sound s.message (s.seq - 1) (s.sys.mem.slots (slotIndex cfg.ring.cap want)) want)
      (hr : rd.step (s.sys.mem.slots (slotIndex cfg.ring.cap want)) want x = some rd') :
      (afterSlot cfg rd').Sound cfg s want := by
    have hv := System.view_truthful hs.sys.ring
    refine afterSlot_sound hs hpos hwant (hrd.step (fun heq => hv.slot hpos hwant heq) hr) ?_ ?_
    · rintro d rfl
      exact ReadPc.step_item hr
    · rintro seen rfl
      rcases ReadPc.step_overwritten hr with h0 | ⟨rfl, hm⟩
      · exact .inl h0
      · exact hv.word_stored hm
  -- a load from the arena: the blob was written before its packet was published
  have hblob {d : Payload w UInt8} {b : PacketConfig} {rd rd' : BlobReadPc UInt8} {x : Option ℕ}
      (hb : cfg.blob = some b) (hrd : (RecordPc.blob d rd).Sound cfg s want)
      (hr : rd.step b.arena s.arena (blobRefAt (payloadBytes d)) x = some rd') :
      (afterBlob d rd').Sound cfg s want := by
    obtain ⟨hlt, hd, b', blob, hb', hblob, hrd⟩ := hrd
    rw [hb] at hb'
    cases hb'
    have hinv := hs.blob b hb
    obtain ⟨hmem, hlen, -⟩ := hinv.packet want d blob hd hblob
    obtain ⟨hgranted, -, hstored⟩ := hinv.writer.written _ _ hmem
    have hbounds := (hinv.writer.allocated.placed _ hgranted).1
    refine afterBlob_sound hpos hlt hd hb hblob hlen (hrd.step hlen hbounds hstored hr) ?_
    rintro buf rfl
    exact step_lapped hr
  cases pc with
  | slot rd =>
    cases a with
    | word i =>
      obtain ⟨rd', hr, rfl⟩ := Option.map_eq_some_iff.mp hstep
      exact hslot h hr
    | tick =>
      obtain ⟨rd', hr, rfl⟩ := Option.map_eq_some_iff.mp hstep
      exact hslot h hr
    | byte i => cases hstep
  | blob d rd =>
    cases a with
    | word i => cases hstep
    | byte i =>
      simp only [RecordPc.step] at hstep
      split at hstep
      · next b hb =>
        obtain ⟨rd', hr, rfl⟩ := Option.map_eq_some_iff.mp hstep
        exact hblob hb h hr
      · cases hstep
    | tick =>
      simp only [RecordPc.step] at hstep
      split at hstep
      · next b hb =>
        obtain ⟨rd', hr, rfl⟩ := Option.map_eq_some_iff.mp hstep
        exact hblob hb h hr
      · cases hstep
  | done r => cases a <;> cases hstep

end RecordPc

/-! ## What is gathered -/

/-- What a `collect` in progress is worth: the records gathered are those of the source, and they
do not fill the frame. -/
structure Gather.Sound (cfg : SourceConfig w) (s : Source ρ w) (g : Gather w) : Prop where
  one_le : 1 ≤ g.first
  le : g.want ≤ s.seq
  length : g.out.length = g.prior + g.count
  limit : g.prior + g.count < g.limit
  room : wireLen g.out < g.maxBytes
  records : ∀ i r, g.out[i]? = some r → s.Has (g.first + i) r
  reading : g.reading.Sound cfg s g.want

/-- What `collect` returned is worth: without its last record the frame was not full. -/
structure Collected.Sound (cfg : SourceConfig w) (s : Source ρ w) (first limit maxBytes : ℕ)
    (out : List Record) (got : Collected) : Prop where
  one_le : 1 ≤ first
  le : first + got.count ≤ s.seq
  length : out.length = got.count
  limit : got.count ≤ limit
  room : wireLen out.dropLast < maxBytes
  records : ∀ i r, out[i]? = some r → s.Has (first + i) r
  lapped : ∀ seen, got.lapped = some seen → seen = 0 ∨ (1 ≤ seen ∧ seen < s.seq)
  lost : got.lost = true → s.Lapped cfg (first + got.count)

/-- The `collect` from `first` on is in progress, or is at its end. -/
def Gathering.Sound (cfg : SourceConfig w) (s : Source ρ w) (first limit maxBytes : ℕ) :
    Gathering w → Prop
  | .going g => g.first = first ∧ g.limit = limit ∧ g.maxBytes = maxBytes ∧ g.Sound cfg s
  | .done got out => got.Sound cfg s first limit maxBytes out

theorem wireLen_append (out : List Record) (r : Record) :
    wireLen (out ++ [r]) = wireLen out + r.bytes.length := by
  simp only [wireLen, List.map_append, List.sum_append, List.map_cons, List.map_nil,
    List.sum_singleton]
  omega

theorem wireLen_dropLast_le (out : List Record) : wireLen out.dropLast ≤ wireLen out := by
  rcases List.eq_nil_or_concat out with rfl | ⟨front, r, rfl⟩
  · exact le_refl _
  · rw [List.concat_eq_append, List.dropLast_concat, wireLen_append]
    exact Nat.le_add_right _ _

section

variable {cfg : SourceConfig w} {s s' : Source ρ w} {first limit maxBytes : ℕ}

theorem Gather.Sound.start (hpos : 1 ≤ first) (hle : first ≤ s.seq) (hlimit : 0 < limit)
    (hroom : frameHeaderLen < maxBytes) :
    (Gather.start first limit maxBytes : Gather w).Sound cfg s :=
  ⟨hpos, hle, rfl, hlimit, hroom, by rintro _ _ ⟨⟩, trivial⟩

/-- `collect_lingering` goes on when the frame is not full. -/
theorem Gather.Sound.again {got : Collected} {out : List Record}
    (h : got.Sound cfg s first limit maxBytes out)
    (hfull : got.full limit maxBytes out = false) :
    (Gather.again first limit maxBytes got out : Gather w).Sound cfg s := by
  simp only [Collected.full, decide_eq_false_iff_not, not_or, Nat.not_le] at hfull
  exact ⟨h.one_le, h.le, h.length, hfull.1, hfull.2.1, h.records, trivial⟩

theorem Gather.Sound.grows {g : Gather w} (h : g.Sound cfg s) (hs : s.Inv cfg) (hs' : s'.Inv cfg)
    (hg : s.Grows s') : g.Sound cfg s' := by
  have hwant : g.want ≠ slotWriting := by
    have hle := h.le
    have hbound := hs.bound
    unfold slotWriting u64Max
    omega
  exact ⟨h.one_le, h.le.trans hg.seq, h.length, h.limit, h.room,
    fun i r hr => (h.records i r hr).grows hs hs' hg, h.reading.grows hs hs' hg hwant⟩

theorem Collected.Sound.grows {got : Collected} {out : List Record}
    (h : got.Sound cfg s first limit maxBytes out) (hs : s.Inv cfg) (hs' : s'.Inv cfg)
    (hg : s.Grows s') : got.Sound cfg s' first limit maxBytes out :=
  ⟨h.one_le, h.le.trans hg.seq, h.length, h.limit, h.room,
    fun i r hr => (h.records i r hr).grows hs hs' hg,
    fun seen hseen => (h.lapped seen hseen).imp_right fun hk => ⟨hk.1, hk.2.trans_le hg.seq⟩,
    fun hlost => (h.lost hlost).grows hg⟩

/-- One more record. -/
theorem records_append {out : List Record} {r : Record} {n : ℕ} (hlen : out.length = n)
    (h : ∀ i r, out[i]? = some r → s.Has (first + i) r) (hr : s.Has (first + n) r) :
    ∀ i x, (out ++ [r])[i]? = some x → s.Has (first + i) x := by
  intro i x hx
  rcases Nat.lt_or_ge i out.length with hlt | hge
  · rw [List.getElem?_append_left hlt] at hx
    exact h i x hx
  · rw [List.getElem?_append_right hge] at hx
    obtain ⟨hzero, hget⟩ := List.getElem?_eq_some_iff.mp hx
    rw [List.length_singleton] at hzero
    obtain rfl : i = n := by omega
    obtain rfl : r = x := by simpa [hlen] using hx
    exact hr

/-- The end of a turn of the loop of `collect`. -/
theorem Gather.Sound.take {g : Gather w} (h : g.Sound cfg s) {r : RawRead Record}
    (hr : (RecordPc.done r).Sound cfg s g.want) :
    (g.take r).Sound cfg s g.first g.limit g.maxBytes := by
  have hout := (wireLen_dropLast_le g.out).trans_lt h.room
  unfold Gather.take
  cases r with
  -- nothing is added to the frame
  | pending =>
    exact ⟨h.one_le, h.le, h.length, h.limit.le, hout, h.records, by rintro _ ⟨⟩, by rintro ⟨⟩⟩
  | overwritten seen =>
    refine ⟨h.one_le, h.le, h.length, h.limit.le, hout, h.records, ?_, by rintro ⟨⟩⟩
    rintro _ ⟨⟩
    exact hr
  | lost =>
    exact ⟨h.one_le, h.le, h.length, h.limit.le, hout, h.records, by rintro _ ⟨⟩, fun _ => hr⟩
  | item r =>
    -- one more record of the source, in order
    have hrecords := records_append h.length h.records hr
    have hlen : (g.out ++ [r]).length = g.prior + (g.count + 1) := by
      rw [List.length_append, h.length, List.length_singleton, Nat.add_assoc]
    have hle : g.first + (g.prior + (g.count + 1)) ≤ s.seq := by
      have hlt := hr.lt
      unfold Gather.want at hlt
      omega
    have hlimit : g.prior + (g.count + 1) ≤ g.limit := h.limit
    have hlast : wireLen (g.out ++ [r]).dropLast < g.maxBytes := by
      rw [List.dropLast_concat]
      exact h.room
    simp only [collectTurn]
    by_cases hover : 0 < g.count ∧ g.maxBytes < wireLen (g.out ++ [r])
    · -- the record does not fit any more
      rw [if_pos hover]
      exact ⟨h.one_le, h.le, h.length, h.limit.le, hout, h.records, by rintro _ ⟨⟩, by rintro ⟨⟩⟩
    rw [if_neg hover]
    by_cases hfull : g.maxBytes ≤ wireLen (g.out ++ [r])
    · rw [if_pos hfull]
      exact ⟨h.one_le, hle, hlen, hlimit, hlast, hrecords, by rintro _ ⟨⟩, by rintro ⟨⟩⟩
    rw [if_neg hfull]
    simp only
    by_cases hmore : g.prior + (g.count + 1) < g.limit
    · rw [if_pos hmore]
      exact ⟨rfl, rfl, rfl, h.one_le, hle, hlen, hmore, Nat.not_le.mp hfull, hrecords, trivial⟩
    · rw [if_neg hmore]
      exact ⟨h.one_le, hle, hlen, hlimit, hlast, hrecords, by rintro _ ⟨⟩, by rintro ⟨⟩⟩

/-- **The records gathered are those of the source.** -/
theorem Gather.Sound.step {g : Gather w} {x : Gathering w} {a : ReadLabel w} (h : g.Sound cfg s)
    (hs : s.Inv cfg) (hstep : g.step cfg s a = some x) :
    x.Sound cfg s g.first g.limit g.maxBytes := by
  have hpos : 1 ≤ g.want := h.one_le.trans (Nat.le_add_right _ _)
  have hwant : g.want ≠ slotWriting := by
    have hle := h.le
    have hbound := hs.bound
    unfold slotWriting u64Max
    omega
  unfold Gather.step at hstep
  split at hstep
  · next r hr =>
    cases hstep
    exact h.take (h.reading.step hs hpos hwant hr)
  · next rd _ hr =>
    cases hstep
    exact ⟨rfl, rfl, rfl, h.one_le, h.le, h.length, h.limit, h.room, h.records,
      h.reading.step hs hpos hwant hr⟩
  · cases hstep

/-- A `collect` in progress goes on with the frame it was called for. -/
theorem Gathering.Sound.step {g : Gather w} {x : Gathering w} {a : ReadLabel w}
    (h : (Gathering.going g).Sound cfg s first limit maxBytes) (hs : s.Inv cfg)
    (hstep : g.step cfg s a = some x) : x.Sound cfg s first limit maxBytes := by
  obtain ⟨rfl, rfl, rfl, hgather⟩ := h
  exact hgather.step hs hstep

theorem Gathering.Sound.grows {x : Gathering w} (h : x.Sound cfg s first limit maxBytes)
    (hs : s.Inv cfg) (hs' : s'.Inv cfg) (hg : s.Grows s') :
    x.Sound cfg s' first limit maxBytes := by
  cases x with
  | going g =>
    obtain ⟨hfirst, hlimit, hmax, hgather⟩ := h
    exact ⟨hfirst, hlimit, hmax, hgather.grows hs hs' hg⟩
  | done got out => exact Collected.Sound.grows h hs hs' hg

end

end Ringfire
