import Ringfire.Replication.MirrorRing
import Ringfire.Ring.System

/-!
# The source of a replication

A source is a single-producer ring, one memory access at a time: the ring of a `RingProducer`, or
of a `BlobProducer`, whose `push` first writes the blob into the arena and then publishes a packet
with the descriptor of the blob. The local readers of the ring are part of it and do as they like.
`Source.blobs` remembers the blob of every packet, so that `Source.record` is what was pushed under
a sequence.

Sequence numbers stay below `2 ^ 63`, so that no addition of the replication protocol leaves `u64`.

## Main definitions

* `Source.step`: one memory access of the producer or of a local reader
* `Source.record`: the record of a sequence
* `Source.Grows`: what a thread that reads the source may rely on

## Main results

* `Source.Inv.step`: the descriptor in every packet names the bytes pushed with it
* `Source.Inv.grows`: every step of the source is one of its growth
-/

namespace Ringfire

open PayloadArena

/-- How a blob channel was created. -/
structure PacketConfig where
  arena : ArenaCapacity
  layout : SlotLayout

/-- How a source was created; `w` is the length of a slot payload. A blob channel never waits for
its readers. -/
structure SourceConfig (w : ℕ) where
  ring : Config
  blob : Option PacketConfig
  width : ∀ b, blob = some b → w + 8 = b.layout.slotSize
  lossy : ∀ b, blob = some b → ring.flowControl = .lossyLatestWins

/-- A ring without an arena. -/
def SourceConfig.ofRing (w : ℕ) (ring : Config) : SourceConfig w where
  ring := ring
  blob := none
  width := by rintro _ ⟨⟩
  lossy := by rintro _ ⟨⟩

/-- The layout of the ring, which its mirrors share. -/
def SourceConfig.geometry {w : ℕ} (cfg : SourceConfig w) : Geometry w where
  cap := cfg.ring.cap
  arena := cfg.blob.map PacketConfig.arena
  descriptor := by
    intro h
    obtain ⟨b, hb⟩ := Option.isSome_iff_exists.mp (Option.isSome_map ▸ h)
    have hwidth := cfg.width b hb
    have hle := b.layout.refEnd_le
    omega

@[simp] theorem SourceConfig.geometry_arena {w : ℕ} (cfg : SourceConfig w) :
    cfg.geometry.arena = cfg.blob.map PacketConfig.arena := rfl

/-- What `push` of a blob channel was given: the bytes of the slot around the descriptor (the
metadata and the padding) and the blob. -/
structure Packet where
  front : List UInt8
  back : List UInt8
  blob : List UInt8

/-- The bytes of the slot behind its word. -/
def Packet.payload (p : Packet) (r : BlobRef) : List UInt8 := p.front ++ blobRefBytes r ++ p.back

/-- The descriptor stands where the layout puts it. -/
structure Packet.Fits (b : PacketConfig) (p : Packet) : Prop where
  front : p.front.length + 8 + blobRefLen = b.layout.refEnd
  back : p.back.length + b.layout.refEnd = b.layout.slotSize

instance (b : PacketConfig) (p : Packet) : Decidable (p.Fits b) :=
  decidable_of_iff (p.front.length + 8 + blobRefLen = b.layout.refEnd ∧
    p.back.length + b.layout.refEnd = b.layout.slotSize)
    ⟨fun h => ⟨h.1, h.2⟩, fun h => ⟨h.front, h.back⟩⟩

/-- The state of a source. -/
structure Source (ρ : Type) (w : ℕ) where
  sys : System ρ w UInt8
  arena : ArenaMem UInt8
  writer : ArenaWriter UInt8
  /-- The packet whose blob is being written. -/
  stage : Option Packet
  /-- The blobs of the packets pushed so far. -/
  blobs : List (List UInt8)

/-- A step of a source: of its ring, the start of `BlobProducer::push`, a memory access of
`write_blob`, or the start of `publish_packet`. -/
inductive SourceLabel (ρ : Type) (w : ℕ) where
  | ring (a : Label ρ w UInt8)
  | push (p : Packet)
  | writer (a : WriterLabel UInt8)
  | publishPacket

/-- A call of the producer. -/
def Label.isCall {ρ : Type} {w : ℕ} : Label ρ w UInt8 → Bool
  | .producer (.call _) => true
  | _ => false

/-- The start of a call of the arena. -/
def WriterLabel.isCall : WriterLabel UInt8 → Bool
  | .call _ => true
  | _ => false

variable {ρ : Type} {w : ℕ}

namespace Source

/-- A freshly created source. -/
def create (ρ : Type) (cfg : SourceConfig w) : Source ρ w :=
  ⟨.create ρ w cfg.ring, .init, ⟨.idle, none⟩, none, []⟩

/-- Takes a step of the ring unless the sequence numbers are used up. -/
def ringStep [DecidableEq ρ] (cfg : SourceConfig w) (s : Source ρ w) (a : Label ρ w UInt8) :
    Option (Source ρ w) :=
  match s.sys.step cfg.ring a with
  | some sys => if sys.producer.seq ≤ 2 ^ 63 then some { s with sys := sys } else none
  | none => none

/-- Takes a step of the thread that writes into the arena. -/
def writerStep (b : PacketConfig) (s : Source ρ w) (a : WriterLabel UInt8) : Option (Source ρ w) :=
  match s.writer.step b.arena s.arena a with
  | some (arena, writer) => some { s with arena := arena, writer := writer }
  | none => none

/-- One memory access of the source. -/
def step [DecidableEq ρ] (cfg : SourceConfig w) (s : Source ρ w) :
    SourceLabel ρ w → Option (Source ρ w)
  | .ring a =>
    -- the producer of a blob channel pushes nothing but packets
    if cfg.blob.isSome ∧ a.isCall then none else s.ringStep cfg a
  -- `push`: the arena first, and the packet once its reference is known
  | .push p =>
    match cfg.blob, s.stage, s.sys.producer.pc with
    | some b, none, .idle =>
      if p.Fits b then
        (s.writerStep b (.call (.writeBlob p.blob 0))).map ({ · with stage := some p })
      else none
    | _, _, _ => none
  | .writer a =>
    match cfg.blob, s.stage with
    | some b, some _ => if a.isCall then none else s.writerStep b a
    | _, _ => none
  | .publishPacket =>
    match s.stage, s.writer.pc, s.writer.result with
    | some p, .idle, some (.ok r) =>
      (s.ringStep cfg (.producer (.call (.push (payloadOf w (p.payload r)))))).map
        ({ · with stage := none, blobs := s.blobs ++ [p.blob] })
    -- the arena refused the payload, so nothing is published
    | some _, .idle, some (.error _) => some { s with stage := none }
    | _, _, _ => none

/-- The message of a sequence. -/
def message (s : Source ρ w) (k : ℕ) : Option (Payload w UInt8) := s.sys.producer.message k

/-- The record of a sequence. -/
def record (s : Source ρ w) (k : ℕ) : Record :=
  ⟨((s.message k).map payloadBytes).getD [], s.blobs.getD (k - 1) []⟩

/-- The first sequence that is not stored yet. -/
def seq (s : Source ρ w) : ℕ := s.sys.producer.seq

end Source

/-! ## The producer of a blob channel -/

/-- The states of a producer that does not wait for readers. -/
inductive ProducerPc.Ungated : ProducerPc w UInt8 → Prop where
  | idle : Ungated .idle
  | entry (todo : List (Payload w UInt8)) : Ungated (.entry todo)
  | mark (item : Payload w UInt8) (rest : List (Payload w UInt8)) : Ungated (.mark item rest)
  | copy (item : Payload w UInt8) (left : Finset (Fin w)) (rest : List (Payload w UInt8)) :
      Ungated (.copy item left rest)
  | publish : Ungated .publish

/-- A producer that does not wait for readers, inside a `push` or between two. -/
structure RingProducer.Ungated (p : RingProducer w UInt8) : Prop where
  lossy : p.flowControl = .lossyLatestWins
  pc : p.pc.Ungated

namespace RingProducer.Ungated

variable {cap : Capacity} {n : ℕ} {alive : ℕ → Bool} {m m' : Shared w UInt8}
  {p p' : RingProducer w UInt8}

theorem gated_eq (h : p.Ungated) : p.gated = false := by
  simp [RingProducer.gated, h.lossy]

theorem push (h : p.Ungated) {item : Payload w UInt8}
    (hstep : p.step cap n alive m (.call (.push item)) = some (m', p')) :
    p'.Ungated ∧ p'.pushed = p.pushed ++ [item] := by
  cases RingProducer.step_moves hstep with
  | call => exact ⟨⟨h.lossy, .entry [item]⟩, rfl⟩

/-- Outside the start of a call nothing is pushed. -/
theorem step (h : p.Ungated) {a : ProducerLabel w UInt8} (ha : ∀ c, a ≠ .call c)
    (hstep : p.step cap n alive m a = some (m', p')) : p'.Ungated ∧ p'.pushed = p.pushed := by
  have hg := h.gated_eq
  obtain ⟨hlossy, hpc⟩ := h
  cases RingProducer.step_moves hstep with
  | call c => exact absurd rfl (ha c)
  | enter todo =>
    cases todo with
    | nil => exact ⟨⟨hlossy, .publish⟩, rfl⟩
    | cons item rest =>
      simp only [RingProducer.enter, hg, Bool.false_eq_true, false_and, if_false]
      exact ⟨⟨hlossy, .mark _ _⟩, trivial⟩
  | mark => exact ⟨⟨hlossy, .copy _ _ _⟩, rfl⟩
  | word => exact ⟨⟨hlossy, .copy _ _ _⟩, rfl⟩
  | commit => exact ⟨⟨hlossy, .entry _⟩, rfl⟩
  | publish => exact ⟨⟨hlossy, .idle⟩, rfl⟩
  -- a producer that does not wait for readers never scans
  | active k i min pc | inactive k i min pc | gate k i min pc | owned k i min pc
  | unowned k i min pc | load k i min pc | blockPublish k i pc | retry k i min pc
  | condemn k i min pc | spare k i min pc | pruned k i min pc | reclaim k i min c pc =>
    rw [pc] at hpc
    cases hpc

end RingProducer.Ungated

/-! ## The arena of a blob channel -/

/-- A descriptor as `write_blob` returns it for `bytes` and `flags`. An empty blob gets the empty
descriptor, without the flags. -/
structure BlobRef.Names (cap : ArenaCapacity) (bytes : List UInt8) (flags : ℕ) (r : BlobRef) :
    Prop where
  fits : r.Fits
  len : r.len = bytes.length
  max : bytes.length ≤ maxLen cap
  flags : r.flags = if bytes = [] then 0 else flags

/-- The writer is about to store `bytes`, is storing them, or has stored them. -/
def ArenaWriter.Serves (cap : ArenaCapacity) (m : ArenaMem UInt8) (bytes : List UInt8) (flags : ℕ)
    (x : ArenaWriter UInt8) : Prop :=
  match x.pc with
  | .load c | .cas c _ => c = .writeBlob bytes flags ∧ bytes ≠ [] ∧ bytes.length ≤ maxLen cap
  | .copy r bs _ => bs = bytes ∧ r.Names cap bytes flags
  | .idle => ∀ r, x.result = some (.ok r) → (r, bytes) ∈ m.written ∧ r.Names cap bytes flags

section

variable {cap : ArenaCapacity} {m m' : ArenaMem UInt8} {x x' : ArenaWriter UInt8}
  {bytes : List UInt8} {flags : ℕ}

theorem BlobRef.empty_fits : BlobRef.empty.Fits := ⟨by decide, by decide, by decide⟩

theorem ArenaWriter.Serves.start
    (h : x.step cap m (.call (.writeBlob bytes flags)) = some (m', x')) :
    x'.Serves cap m' bytes flags := by
  cases hpc : x.pc with
  | load c | cas c curr | copy r bs left =>
    simp only [ArenaWriter.step, hpc] at h
    cases h
  | idle =>
    simp only [ArenaWriter.step, hpc, ArenaCall.len] at h
    cases hlen : checkLen cap bytes.length with
    | none =>
      rw [hlen] at h
      cases h
      obtain ⟨hpos, hmax⟩ := checkLen_eq_none.mp hlen
      exact ⟨rfl, fun hnil => by rw [hnil] at hpos; exact absurd rfl hpos, hmax⟩
    | some r =>
      rw [hlen] at h
      cases r with
      | error e =>
        cases h
        rintro r ⟨⟩
      | ok r =>
        cases h
        obtain ⟨hzero, rfl⟩ := checkLen_eq_ok hlen
        obtain rfl := List.length_eq_zero_iff.mp hzero
        rintro r ⟨⟩
        exact ⟨List.mem_append_right _ (List.mem_singleton_self _), BlobRef.empty_fits, rfl,
          Nat.zero_le _, rfl⟩

theorem grant_names {c : ArenaCall UInt8} (hc : c = .writeBlob bytes flags)
    (hflags : flags < 256 ^ 4) (hnil : bytes ≠ []) (hlen : bytes.length ≤ maxLen cap) {curr : ℕ}
    (hfits : (place cap curr c.len).2 ≤ u64Max) :
    (grant cap c curr).Names cap bytes flags := by
  subst hc
  have h32 : maxLen cap ≤ u32Max := Nat.min_le_right _ _
  have hu : u32Max = 256 ^ 4 - 1 := by decide
  have hu' : u64Max < 256 ^ 8 := by decide
  refine ⟨⟨?_, ?_, hflags⟩, rfl, hlen, (if_neg hnil).symm⟩
  · rw [place_snd] at hfits
    exact (Nat.le_add_right _ _).trans_lt (hfits.trans_lt hu')
  · simp only [grant, ArenaCall.len]
    omega

theorem ArenaWriter.Serves.step {a : WriterLabel UInt8} (hs : x.Serves cap m bytes flags)
    (hflags : flags < 256 ^ 4) (ha : a.isCall = false) (h : x.step cap m a = some (m', x')) :
    x'.Serves cap m' bytes flags := by
  unfold ArenaWriter.Serves at hs
  cases a with
  | call c => cases ha
  | tick =>
    cases hpc : x.pc with
    | idle =>
      simp only [ArenaWriter.step, hpc] at h
      cases h
    | load c =>
      simp only [ArenaWriter.step, hpc] at h hs
      cases h
      exact hs
    | cas c curr =>
      simp only [ArenaWriter.step, hpc] at h hs
      -- the grant has the length and the flags of the call
      obtain ⟨rfl, hnil, hlen⟩ := hs
      split_ifs at h with hcurr hfits
      · cases h
        exact ⟨rfl, grant_names rfl hflags hnil hlen hfits⟩
      · cases h
        exact ⟨rfl, hnil, hlen⟩
    | copy r bs left =>
      simp only [ArenaWriter.step, hpc] at h hs
      obtain ⟨rfl, hr⟩ := hs
      split_ifs at h
      cases h
      -- the copy is complete, and the result is the reference
      rintro r' ⟨⟩
      exact ⟨List.mem_append_right _ (List.mem_singleton_self _), hr⟩
  | spurious =>
    cases hpc : x.pc with
    | idle | load c | copy r bs left =>
      simp only [ArenaWriter.step, hpc] at h
      cases h
    | cas c curr =>
      simp only [ArenaWriter.step, hpc] at h hs
      cases h
      exact hs
  | byte i =>
    cases hpc : x.pc with
    | idle | load c | cas c curr =>
      simp only [ArenaWriter.step, hpc] at h
      cases h
    | copy r bs left =>
      simp only [ArenaWriter.step, hpc] at h hs
      split at h
      · split_ifs at h
        cases h
        exact hs
      · cases h

end

/-! ## What a thread that reads the source may rely on -/

/-- The readers of a ring see it evolve with every step. -/
theorem System.Inv.evolves [DecidableEq ρ] {cfg : Config} {s s' : System ρ w UInt8}
    {a : Label ρ w UInt8} (h : s.Inv cfg) (hstep : s.step cfg a = some s') :
    s.view.Evolves s'.view := by
  cases System.step_move hstep with
  | producer a mem producer hp next =>
    subst next
    exact System.view_evolves h.ring (RingProducer.step_effect hp)
  | reader r x regs hm next =>
    subst next
    exact .refl s.view
  | die pid next =>
    subst next
    exact .refl s.view

namespace Source

/-- The source moved on: the ring evolved, nothing written into the arena was taken back, and no
packet lost its blob. -/
structure Grows (s s' : Source ρ w) : Prop where
  view : s.sys.view.Evolves s'.sys.view
  seq : s.seq ≤ s'.seq
  reserved : s.arena.reserved ≤ s'.arena.reserved
  written : ∀ x ∈ s.arena.written, x ∈ s'.arena.written
  blobs : s.blobs <+: s'.blobs

theorem Grows.refl (s : Source ρ w) : s.Grows s :=
  ⟨.refl _, le_refl _, le_refl _, fun _ h => h, List.prefix_rfl⟩

/-- What the source promises about its packets. -/
structure BlobInv (b : PacketConfig) (s : Source ρ w) : Prop where
  ungated : s.sys.producer.Ungated
  writer : s.writer.Inv b.arena s.arena
  stage : ∀ p, s.stage = some p → p.Fits b ∧ s.writer.Serves b.arena s.arena p.blob 0
  length : s.blobs.length = s.sys.producer.pushed.length
  packet : ∀ k d blob, s.message k = some d → s.blobs[k - 1]? = some blob →
    (blobRefAt (payloadBytes d), blob) ∈ s.arena.written ∧
      (blobRefAt (payloadBytes d)).len = blob.length ∧ blob.length ≤ maxLen b.arena

/-- The ring is consistent, and the descriptor in every packet names the blob pushed with it. -/
structure Inv (cfg : SourceConfig w) (s : Source ρ w) : Prop where
  sys : s.sys.Inv cfg.ring
  bound : s.seq ≤ 2 ^ 63
  plain : cfg.blob = none → s.stage = none ∧ s.blobs = []
  blob : ∀ b, cfg.blob = some b → s.BlobInv b

end Source

/-- The metadata of a blob channel is aligned to at most 16 bytes, so that the descriptor ends the
slot. -/
structure SourceConfig.Aligned (cfg : SourceConfig w) : Prop where
  size : ∀ b, cfg.blob = some b → b.layout.align ∣ b.layout.size
  align : ∀ b, cfg.blob = some b → b.layout.align = 1 ∨ b.layout.align = 2 ∨ b.layout.align = 4 ∨
    b.layout.align = 8 ∨ b.layout.align = 16

/-- What replication asks of a source: the slot size is a `u32`, the metadata of a blob channel is
aligned to at most 16 bytes, and its arena is smaller than `2 ^ 31` bytes. -/
structure SourceConfig.Supported (cfg : SourceConfig w) : Prop extends cfg.Aligned where
  slotSize : w + 8 < 2 ^ 32
  arena : ∀ b, cfg.blob = some b → b.arena.val < 2 ^ 31

/-- The descriptor of a packet is read back from the end of its slot. -/
theorem Packet.blobRefAt_payload {cfg : SourceConfig w} (hcfg : cfg.Aligned) {b : PacketConfig}
    (hb : cfg.blob = some b) {p : Packet} (hp : p.Fits b) {r : BlobRef} (hr : r.Fits) :
    payloadBytes (payloadOf w (p.payload r)) = p.payload r ∧ blobRefAt (p.payload r) = r := by
  have hend := SlotLayout.refEnd_eq (hcfg.size b hb) (hcfg.align b hb)
  have hfront := hp.front
  have hback := hp.back
  have hwidth := cfg.width b hb
  have hnil : p.back = [] := List.length_eq_zero_iff.mp (by omega)
  constructor
  · apply payloadBytes_payloadOf
    rw [Packet.payload, List.length_append, List.length_append, length_blobRefBytes]
    omega
  · rw [Packet.payload, hnil, List.append_nil]
    exact blobRefAt_append hr p.front

namespace Source

variable [DecidableEq ρ] {cfg : SourceConfig w} {s s' : Source ρ w}

omit [DecidableEq ρ] in
theorem Inv.create (ρ : Type) (cfg : SourceConfig w) : (create ρ cfg).Inv cfg where
  sys := .create ρ w cfg.ring
  bound := (by decide : 1 ≤ 2 ^ 63)
  plain := fun _ => ⟨rfl, rfl⟩
  blob := fun b hb => ⟨⟨cfg.lossy b hb, .idle⟩, .init b.arena, by rintro _ ⟨⟩, rfl, by rintro _ _ _ ⟨⟩⟩

theorem ringStep_eq {a : Label ρ w UInt8} (h : s.ringStep cfg a = some s') :
    ∃ sys, s.sys.step cfg.ring a = some sys ∧ sys.producer.seq ≤ 2 ^ 63 ∧
      s' = { s with sys := sys } := by
  unfold ringStep at h
  split at h
  · next sys hsys =>
    split_ifs at h with hle
    cases h
    exact ⟨sys, hsys, hle, rfl⟩
  · cases h

/-- The steps of a source. -/
inductive Move (cfg : SourceConfig w) (s s' : Source ρ w) : Prop where
  | ring (a : Label ρ w UInt8) (sys : System ρ w UInt8) (step : s.sys.step cfg.ring a = some sys)
      (bound : sys.producer.seq ≤ 2 ^ 63) (call : cfg.blob.isSome = true → a.isCall = false)
      (next : s' = { s with sys := sys })
  | write (b : PacketConfig) (blob : cfg.blob = some b) (arena : ArenaMem UInt8)
      (writer : ArenaWriter UInt8) (stage : Option Packet)
      (effect : ArenaWriter.Effect b.arena s.arena s.writer arena writer)
      (serves : ∀ p, stage = some p →
        (p.Fits b ∧ writer.Serves b.arena arena p.blob 0) ∨
          (s.stage = some p ∧ (s.writer.Serves b.arena s.arena p.blob 0 →
            writer.Serves b.arena arena p.blob 0)))
      (next : s' = { s with arena := arena, writer := writer, stage := stage })
  | publish (p : Packet) (r : BlobRef) (sys : System ρ w UInt8) (stage : s.stage = some p)
      (idle : s.writer.pc = .idle) (result : s.writer.result = some (.ok r))
      (step : s.sys.step cfg.ring (.producer (.call (.push (payloadOf w (p.payload r))))) = some sys)
      (bound : sys.producer.seq ≤ 2 ^ 63)
      (next : s' = { s with sys := sys, stage := none, blobs := s.blobs ++ [p.blob] })
  | refuse (next : s' = { s with stage := none })

theorem step_move {a : SourceLabel ρ w} (h : s.step cfg a = some s') : Move cfg s s' := by
  cases a with
  | ring a =>
    simp only [step] at h
    split_ifs at h with hcall
    obtain ⟨sys, hsys, hle, rfl⟩ := ringStep_eq h
    refine .ring a sys hsys hle (fun hsome => ?_) rfl
    by_contra hne
    exact hcall ⟨hsome, by simpa using hne⟩
  | push p =>
    simp only [step] at h
    split at h
    · next b hb _ _ =>
      split_ifs at h with hfits
      obtain ⟨s₁, hs₁, rfl⟩ := Option.map_eq_some_iff.mp h
      unfold writerStep at hs₁
      split at hs₁
      · next arena writer hw =>
        cases hs₁
        refine .write b hb arena writer (some p) (ArenaWriter.step_effect hw) ?_ rfl
        rintro p' ⟨⟩
        exact .inl ⟨hfits, .start hw⟩
      · cases hs₁
    · cases h
  | writer a =>
    simp only [step] at h
    split at h
    · next b p hb hp =>
      split_ifs at h with hcall
      unfold writerStep at h
      split at h
      · next arena writer hw =>
        cases h
        refine .write b hb arena writer (some p) (ArenaWriter.step_effect hw) ?_ (by rw [← hp])
        rintro p' ⟨⟩
        exact .inr ⟨hp, fun hs => hs.step (by decide) (by simpa using hcall) hw⟩
      · cases h
    · cases h
  | publishPacket =>
    simp only [step] at h
    split at h
    · next p r hp hidle hres =>
      obtain ⟨s₁, hs₁, rfl⟩ := Option.map_eq_some_iff.mp h
      obtain ⟨sys, hsys, hle, rfl⟩ := ringStep_eq hs₁
      exact .publish p r sys hp hidle hres hsys hle rfl
    · cases h
      exact .refuse rfl
    · cases h

/-- Outside the start of a call the producer of a blob channel pushes nothing. -/
theorem ungated_step {cfg : Config} {sys sys' : System ρ w UInt8} {a : Label ρ w UInt8}
    (h : sys.producer.Ungated) (ha : a.isCall = false) (hstep : sys.step cfg a = some sys') :
    sys'.producer.Ungated ∧ sys'.producer.pushed = sys.producer.pushed := by
  by_cases hp : ∃ b, a = .producer b
  · obtain ⟨b, rfl⟩ := hp
    have hb := System.step_producer hstep
    refine h.step ?_ hb
    rintro c rfl
    cases ha
  · rw [(System.step_producer_eq (fun b hb => hp ⟨b, hb⟩) hstep).1]
    exact ⟨h, rfl⟩

theorem seq_le_of_step {cfg : Config} {sys sys' : System ρ w UInt8} {a : Label ρ w UInt8}
    (hstep : sys.step cfg a = some sys') : sys.producer.seq ≤ sys'.producer.seq := by
  by_cases hp : ∃ b, a = .producer b
  · obtain ⟨b, rfl⟩ := hp
    have hb := System.step_producer hstep
    exact (RingProducer.step_effect hb).mono.1
  · rw [(System.step_producer_eq (fun b hb => hp ⟨b, hb⟩) hstep).1]

/-- **Every step of the source is one of its growth.** -/
theorem Inv.grows (h : s.Inv cfg) (hm : Move cfg s s') : s.Grows s' := by
  cases hm with
  | ring a sys step bound call next =>
    subst next
    exact ⟨h.sys.evolves step, seq_le_of_step step, le_refl _, fun _ hx => hx, List.prefix_rfl⟩
  | write b blob arena writer stage effect serves next =>
    subst next
    exact ⟨.refl _, le_refl _, effect.reserved_le, effect.written_subset, List.prefix_rfl⟩
  | publish p r sys stage idle result step bound next =>
    subst next
    exact ⟨h.sys.evolves step, seq_le_of_step step, le_refl _, fun _ hx => hx,
      List.prefix_append _ _⟩
  | refuse next =>
    subst next
    exact ⟨.refl _, le_refl _, le_refl _, fun _ hx => hx, List.prefix_rfl⟩

/-- The ring of a source is a ring like any other, whatever its packets are. -/
theorem Move.sys_inv (hm : Move cfg s s') (h : s.sys.Inv cfg.ring ∧ s.seq ≤ 2 ^ 63) :
    s'.sys.Inv cfg.ring ∧ s'.seq ≤ 2 ^ 63 := by
  cases hm with
  | ring a sys step bound call next =>
    subst next
    exact ⟨h.1.step step, bound⟩
  | write b blob arena writer stage effect serves next =>
    subst next
    exact h
  | publish p r sys stage idle result step bound next =>
    subst next
    exact ⟨h.1.step step, bound⟩
  | refuse next =>
    subst next
    exact h

/-- **The descriptor in every packet names the blob pushed with it.** -/
theorem Inv.step (hcfg : cfg.Aligned) (h : s.Inv cfg) (hm : Move cfg s s') : s'.Inv cfg := by
  cases hm with
  | ring a sys step bound call next =>
    subst next
    refine ⟨h.sys.step step, bound, h.plain, fun b hb => ?_⟩
    have hblob := h.blob b hb
    obtain ⟨hun, hpushed⟩ := ungated_step hblob.ungated (call (by rw [hb]; rfl)) step
    refine ⟨hun, hblob.writer, hblob.stage, by rw [hblob.length, hpushed], fun k d blob hk => ?_⟩
    have hk' : s.message k = some d := by
      unfold message RingProducer.message at hk ⊢
      rw [← hpushed]
      exact hk
    exact hblob.packet k d blob hk'
  | write b blob arena writer stage effect serves next =>
    subst next
    refine ⟨h.sys, h.bound, fun hnone => ?_, fun b' hb' => ?_⟩
    · rw [blob] at hnone
      cases hnone
    rw [blob] at hb'
    cases hb'
    have hblob := h.blob b blob
    refine ⟨hblob.ungated, hblob.writer.step effect, fun p hp => ?_, hblob.length,
      fun k d bytes hk hbytes => ?_⟩
    · rcases serves p hp with hnew | ⟨hold, hkeep⟩
      · exact hnew
      · exact (hblob.stage p hold).imp_right hkeep
    · obtain ⟨hmem, hlen⟩ := hblob.packet k d bytes hk hbytes
      exact ⟨effect.written_subset _ hmem, hlen⟩
  | publish p r sys stage idle result step bound next =>
    subst next
    refine ⟨h.sys.step step, bound, fun hnone => ?_, fun b hb => ?_⟩
    · rw [(h.plain hnone).1] at stage
      cases stage
    · have hblob := h.blob b hb
      -- the writer is idle with its result: the packet names a written blob
      obtain ⟨hfits, hserves⟩ := hblob.stage p stage
      unfold ArenaWriter.Serves at hserves
      rw [idle] at hserves
      obtain ⟨hmem, hr⟩ := hserves r result
      have hprod := System.step_producer step
      obtain ⟨hun, hpushed⟩ := hblob.ungated.push hprod
      obtain ⟨hbytes, href⟩ := Packet.blobRefAt_payload hcfg hb hfits hr.fits
      refine ⟨hun, hblob.writer, by rintro _ ⟨⟩, ?_, fun k d blob hk hblobk => ?_⟩
      · simp only [List.length_append, hpushed, hblob.length]
        rfl
      · -- an earlier packet, or the one just pushed
        unfold message RingProducer.message at hk
        simp only [hpushed] at hk
        simp only at hblobk
        rcases Nat.lt_or_ge (k - 1) s.blobs.length with hlt | hge
        · rw [List.getElem?_append_left hlt] at hblobk
          rw [List.getElem?_append_left (by rw [← hblob.length]; exact hlt)] at hk
          exact hblob.packet k d blob hk hblobk
        · rw [List.getElem?_append_right hge] at hblobk
          rw [List.getElem?_append_right (by rw [← hblob.length]; exact hge), ← hblob.length] at hk
          have hzero : k - 1 - s.blobs.length = 0 := by
            have hlt := (List.getElem?_eq_some_iff.mp hblobk).1
            rw [List.length_singleton] at hlt
            omega
          rw [hzero] at hblobk hk
          cases hblobk
          cases hk
          rw [hbytes, href]
          exact ⟨hmem, hr.len, hr.max⟩
  | refuse next =>
    subst next
    refine ⟨h.sys, h.bound, fun hnone => ⟨rfl, (h.plain hnone).2⟩, fun b hb => ?_⟩
    have hblob := h.blob b hb
    exact ⟨hblob.ungated, hblob.writer, by rintro _ ⟨⟩, hblob.length, hblob.packet⟩

end Source

end Ringfire
