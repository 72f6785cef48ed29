import Ringfire.Arena.Sequential
import Ringfire.Ring.Skip

/-!
# The blob channel

`BlobProducer` and `BlobConsumer` of `blob.rs`: a ring of descriptors in front of a payload arena.
A message lives in two windows at once. Its descriptor is retained while it is among the last
`capacity` published, and its payload while the arena counter is within one arena length of its
offset. The consumer drops a message as soon as either window has passed it.

The producer is taken one call at a time and the consumer reads a channel nobody writes. A push
whose payload the arena refuses returns the error and publishes nothing. The registered cursor of
a consumer is left out: a blob ring is lossy and nothing here reads it.

## Main definitions

* `BlobRing.push`: `push`, or `push_with` with the bytes its closure leaves
* `BlobConsumer.turn`: one turn of the loop of `next_blob`
* `BlobConsumer.drain`: `recv_status` until it returns `Empty`

## Main results

* `BlobRing.Inv.push`: the last `capacity` descriptors are in their slots and every payload is
  intact until it is lapped
-/

namespace Ringfire

open PayloadArena

variable {μ β : Type}

/-- Descriptor stored in each ring slot. -/
structure BlobPacket (μ : Type) where
  info : μ
  blobRef : BlobRef

/-- A slot of the ring of descriptors. -/
structure BlobSlot (μ : Type) where
  seq : ℕ
  data : BlobPacket μ

/-- `read_slot` on a slot of descriptors nobody is writing. -/
def BlobSlot.read (slot : BlobSlot μ) (want : ℕ) : SlotRead (BlobPacket μ) :=
  match readSlotFirst want slot.seq with
  | some r => r
  | none => readSlotSecond want slot.seq slot.data

theorem BlobSlot.read_eq (slot : BlobSlot μ) (want : ℕ) :
    slot.read want =
      if slot.seq = want then .item slot.data
      else if slot.seq = slotWriting ∨ slot.seq < want then .pending
      else .overwritten slot.seq := by
  unfold BlobSlot.read readSlotFirst readSlotSecond
  split_ifs <;> simp_all

/-- The shared memory of a blob channel, and the producer's next sequence. -/
structure BlobRing (μ β : Type) where
  slots : ℕ → BlobSlot μ
  writeSeq : ℕ
  arena : ArenaMem β
  seq : ℕ
  /-- The messages published so far: message `s` is the `s`-th. -/
  sent : List (BlobPacket μ × List β)

/-- The capacities of a blob channel. -/
structure BlobConfig where
  cap : Capacity
  arena : ArenaCapacity

namespace BlobRing

/-- A channel as `create_with_options` leaves it. -/
def create [Inhabited μ] [Inhabited β] : BlobRing μ β :=
  ⟨fun _ => ⟨0, ⟨default, .empty⟩⟩, 0, .init, 1, []⟩

/-- `publish_packet`. -/
def publishPacket (cap : Capacity) (b : BlobRing μ β) (packet : BlobPacket μ) (payload : List β) :
    BlobRing μ β :=
  { b with
    slots := Function.update b.slots (slotIndex cap b.seq) ⟨b.seq, packet⟩
    writeSeq := b.seq
    seq := b.seq + 1
    sent := b.sent ++ [(packet, payload)] }

/-- `push`, with the sequence it returns; `none` when a counter would leave `u64`. -/
def push (cfg : BlobConfig) (b : BlobRing μ β) (info : μ) (payload : List β) :
    Option (Except RingfireError ℕ × BlobRing μ β) :=
  match b.arena.writeBlob cfg.arena payload 0 with
  -- a payload that does not fit takes no sequence
  | some (.error e, arena) => some (.error e, { b with arena := arena })
  | some (.ok r, arena) =>
    if b.seq < u64Max then
      some (.ok b.seq, { b with arena := arena }.publishPacket cfg.cap ⟨info, r⟩ payload)
    else none
  | none => none

/-- A push with its result forgotten. -/
def pushStep (cfg : BlobConfig) (b : BlobRing μ β) (a : μ × List β) : Option (BlobRing μ β) :=
  (b.push cfg a.1 a.2).map Prod.snd

/-- Message `s`: its metadata and its payload. -/
def message (b : BlobRing μ β) (s : ℕ) : Option (μ × List β) :=
  b.sent[s - 1]?.map fun x => (x.1.info, x.2)

end BlobRing

/-! ## The consumer -/

/-- Status returned by `BlobConsumer::recv_status`. -/
inductive BlobRecvStatus where
  | ok (payloadLen : ℕ)
  | empty
  | lapped (skipped payloadLen : ℕ)
  deriving DecidableEq

/-- The consumer's own state. -/
structure BlobConsumer (μ β : Type) extends Account (μ × List β) where
  sparse : Bool
  emptyPolls : ℕ

/-- What a turn of the loop of `next_blob` did. -/
inductive BlobTurn (τ : Type) where
  | item (message : τ)
  | empty
  | skip (n : ℕ)
  | fail (e : RingfireError)

namespace BlobConsumer

/-- `skip_current`. -/
def skipCurrent (c : BlobConsumer μ β) : BlobConsumer μ β :=
  { c with toAccount := c.toAccount.lap (c.cursor + 1) }

/-- One turn of the loop of `next_blob`, with the `check` and the `consume` of `recv_status` on a
buffer of `outLen` bytes. -/
def turn (cfg : BlobConfig) (b : BlobRing μ β) (outLen : ℕ) (c : BlobConsumer μ β) :
    BlobTurn (μ × List β) × BlobConsumer μ β :=
  match (b.slots (slotIndex cfg.cap c.cursor)).read c.cursor with
  | .item packet =>
    -- `check`: out of bounds or reserved over, the message counts as lapped
    if isInBounds cfg.arena packet.blobRef = false ∨
        isLapped cfg.arena b.arena.reserved packet.blobRef = true then
      (.skip 1, c.skipCurrent)
    -- an error of the caller: the cursor stays
    else if outLen < packet.blobRef.len then
      (.fail (.bufferTooSmall packet.blobRef.len outLen), c)
    -- the check after the copy
    else if isLapped cfg.arena b.arena.reserved packet.blobRef = true then (.skip 1, c.skipCurrent)
    else
      let message := (packet.info, b.arena.viewBlob cfg.arena packet.blobRef)
      (.item message, { c with toAccount := c.toAccount.deliver message })
  | .overwritten seen =>
    let r := c.toAccount.skipOverwritten cfg.cap b.writeSeq seen
    if r.1 = 0 then (.empty, c) else (.skip r.1, { c with toAccount := r.2 })
  | .pending =>
    if c.sparse then
      let polls := (c.emptyPolls + 1) % 2 ^ 32
      if polls &&& 63 = 0 then
        let r := c.toAccount.skipHole cfg.cap (fun i => (b.slots i).seq) b.writeSeq
        if 0 < r.1 then (.skip r.1, { c with toAccount := r.2, emptyPolls := polls })
        else (.empty, { c with toAccount := r.2, emptyPolls := polls })
      else (.empty, { c with emptyPolls := polls })
    else (.empty, c)

/-- `next_blob`; `none` when the fuel runs out. -/
def nextBlob (cfg : BlobConfig) (b : BlobRing μ β) (outLen : ℕ) :
    ℕ → BlobConsumer μ β → ℕ →
      Option (Except RingfireError (Option ((μ × List β) × ℕ)) × BlobConsumer μ β)
  | 0, _, _ => none
  | fuel + 1, c, skipped =>
    match c.turn cfg b outLen with
    | (.item message, c') => some (.ok (some (message, skipped)), c')
    | (.empty, c') => some (.ok none, c')
    | (.fail e, c') => some (.error e, c')
    | (.skip n, c') => nextBlob cfg b outLen fuel c' (skipped + n)

/-- `recv_status`, with what it leaves in `meta` and `out`. -/
def recvStatus (cfg : BlobConfig) (b : BlobRing μ β) (outLen fuel : ℕ) (c : BlobConsumer μ β) :
    Option (Except RingfireError (BlobRecvStatus × Option (μ × List β)) × BlobConsumer μ β) :=
  match c.nextBlob cfg b outLen fuel 0 with
  | some (.ok (some (message, 0)), c') =>
    some (.ok (.ok message.2.length, some message), c')
  | some (.ok (some (message, skipped)), c') =>
    some (.ok (.lapped skipped message.2.length, some message), c')
  | some (.ok none, c') => some (.ok (.empty, none), c')
  | some (.error e, c') => some (.error e, c')
  | none => none

/-- Polls with `recv_status` until it returns `Empty`, for at most `rounds` messages; `none` when a
call fails or the bounds do not suffice. -/
def drain (cfg : BlobConfig) (b : BlobRing μ β) (outLen fuel : ℕ) :
    ℕ → BlobConsumer μ β → Option (List (μ × List β) × BlobConsumer μ β)
  | 0, _ => none
  | rounds + 1, c =>
    match c.recvStatus cfg b outLen fuel with
    | some (.ok (_, some message), c') =>
      (drain cfg b outLen fuel rounds c').map fun (ms, c'') => (message :: ms, c'')
    | some (.ok (_, none), c') => some ([], c')
    | some (.error _, _) => none
    | none => none

end BlobConsumer

/-! ## What a push leaves -/

variable {cfg : BlobConfig} {b b' : BlobRing μ β}

namespace BlobRing

/-- The last `capacity` descriptors are in their slots and every payload is intact until it is
lapped. -/
structure Inv (cfg : BlobConfig) (b : BlobRing μ β) : Prop where
  seq : b.seq = b.sent.length + 1
  writeSeq : b.writeSeq = b.sent.length
  fits : b.sent.length < u64Max
  word : ∀ i, (b.slots i).seq ≤ b.sent.length
  retained : ∀ s x, 1 ≤ s → b.sent[s - 1]? = some x → b.sent.length < s + cfg.cap.val →
    b.slots (slotIndex cfg.cap s) = ⟨s, x.1⟩
  arena : (⟨.idle, none⟩ : ArenaWriter β).Inv cfg.arena b.arena
  sent : ∀ x ∈ b.sent, (x.1.blobRef, x.2) ∈ b.arena.written ∧ (x.2 = [] → x.1.blobRef = .empty)

theorem Inv.create [Inhabited μ] [Inhabited β] (cfg : BlobConfig) :
    (create : BlobRing μ β).Inv cfg where
  seq := rfl
  writeSeq := rfl
  fits := show 0 < u64Max by decide
  word := fun _ => Nat.zero_le _
  retained := by rintro s x _ ⟨⟩
  arena := .init cfg.arena
  sent := by rintro x ⟨⟩

theorem Inv.publishPacket (h : b.Inv cfg) {arena : ArenaMem β} {info : μ} {r : BlobRef}
    {payload : List β} (hw : b.arena.writeBlob cfg.arena payload 0 = some (.ok r, arena))
    (hseq : b.seq < u64Max) :
    ({ b with arena := arena }.publishPacket cfg.cap ⟨info, r⟩ payload).Inv cfg := by
  obtain ⟨hlen, hempty, hwritten, -⟩ := writeBlob_ok hw
  have hcap := cfg.cap.pos
  refine ⟨?_, ?_, ?_, fun i => ?_, fun s x hs hx hret => ?_, h.arena.writeBlob hw, fun x hx => ?_⟩
  · simp only [BlobRing.publishPacket, List.length_append, List.length_singleton, h.seq]
  · simp only [BlobRing.publishPacket, List.length_append, List.length_singleton, h.seq]
  · have := h.seq
    simp only [BlobRing.publishPacket, List.length_append, List.length_singleton]
    omega
  · have hword := h.word i
    have hseq' := h.seq
    simp only [BlobRing.publishPacket, List.length_append, List.length_singleton]
    by_cases hi : i = slotIndex cfg.cap b.seq
    · subst hi
      rw [Function.update_self]
      exact hseq'.le
    · rw [Function.update_of_ne hi]
      omega
  · have hseq' := h.seq
    simp only [BlobRing.publishPacket, List.length_append, List.length_singleton] at hx hret ⊢
    by_cases hs' : s = b.seq
    · subst hs'
      rw [hseq', Nat.add_sub_cancel, List.getElem?_concat_length] at hx
      cases hx
      rw [Function.update_self]
    · -- an older retained descriptor is in another slot
      have hlt : s - 1 < b.sent.length := by
        obtain ⟨hlt, -⟩ := List.getElem?_eq_some_iff.mp hx
        rw [List.length_append, List.length_singleton] at hlt
        omega
      rw [List.getElem?_append_left hlt] at hx
      have hne : slotIndex cfg.cap s ≠ slotIndex cfg.cap b.seq :=
        fun heq => hs' (eq_of_slotIndex_eq heq (by omega) (by omega))
      rw [Function.update_of_ne hne]
      exact h.retained s x hs hx (by omega)
  · simp only [BlobRing.publishPacket] at hx ⊢
    rw [hwritten]
    rcases List.mem_append.mp hx with hx | hx
    · exact ⟨List.mem_append_left _ (h.sent x hx).1, (h.sent x hx).2⟩
    · rw [List.mem_singleton.mp hx]
      exact ⟨List.mem_append_right _ (List.mem_singleton_self _), hempty⟩

/-- The messages published by the pushes `hist`: those the arena accepts. -/
def accepted (cfg : BlobConfig) (hist : List (μ × List β)) : List (μ × List β) :=
  hist.filter fun a => a.2.length ≤ maxLen cfg.arena

/-- **A push publishes its message, or fails and changes nothing.** -/
theorem Inv.push (h : b.Inv cfg) {a : μ × List β} (hp : b.pushStep cfg a = some b') :
    b'.Inv cfg ∧ b'.sent.map (fun x => (x.1.info, x.2)) =
      b.sent.map (fun x => (x.1.info, x.2)) ++ accepted cfg [a] := by
  obtain ⟨⟨res, b₁⟩, hpush, rfl⟩ := Option.map_eq_some_iff.mp hp
  simp only [BlobRing.push] at hpush
  split at hpush
  · next e arena hw =>
    cases hpush
    obtain ⟨rfl, hmax, -⟩ := writeBlob_error hw
    refine ⟨h, ?_⟩
    simp [accepted, Nat.not_le.mpr hmax]
  · next r arena hw =>
    split_ifs at hpush with hseq
    cases hpush
    refine ⟨h.publishPacket hw hseq, ?_⟩
    have hmax := (writeBlob_ok hw).2.2.2
    simp [accepted, BlobRing.publishPacket, hmax]
  · cases hpush

/-- Everything published, over a whole history of pushes. -/
theorem Inv.run :
    ∀ {hist : List (μ × List β)} {b b' : BlobRing μ β}, b.Inv cfg →
      Transition.run (pushStep cfg) b hist = some b' →
      b'.Inv cfg ∧ b'.sent.map (fun x => (x.1.info, x.2)) =
        b.sent.map (fun x => (x.1.info, x.2)) ++ accepted cfg hist := by
  intro hist
  induction hist with
  | nil =>
    intro b b' h hrun
    cases hrun
    simpa [accepted] using h
  | cons a hist ih =>
    intro b b' h hrun
    obtain ⟨b₁, hb₁, hrest⟩ := Transition.run_cons_eq_some.mp hrun
    obtain ⟨hinv, hsent⟩ := h.push hb₁
    obtain ⟨hinv', hsent'⟩ := ih hinv hrest
    refine ⟨hinv', ?_⟩
    rw [hsent', hsent, List.append_assoc, accepted, accepted, accepted, ← List.filter_append,
      List.singleton_append]

/-! ## What a read finds -/

theorem Inv.read_retained (h : b.Inv cfg) {s : ℕ} {x : BlobPacket μ × List β} (hs : 1 ≤ s)
    (hx : b.sent[s - 1]? = some x) (hret : b.writeSeq < s + cfg.cap.val) :
    (b.slots (slotIndex cfg.cap s)).read s = .item x.1 := by
  rw [h.writeSeq] at hret
  rw [h.retained s x hs hx hret, BlobSlot.read_eq, if_pos rfl]

theorem Inv.read_overwritten (h : b.Inv cfg) {s : ℕ} (hs : 1 ≤ s)
    (hret : s + cfg.cap.val ≤ b.writeSeq) :
    ∃ seen, seen ≤ b.writeSeq ∧ (b.slots (slotIndex cfg.cap s)).read s = .overwritten seen := by
  have hws := h.writeSeq
  have hfits := h.fits
  have hcap := cfg.cap.pos
  -- the slot shows the last descriptor that went into it
  obtain ⟨l, hidx, hsl, hln, hnl⟩ := exists_last_of_slot cfg.cap (show s ≤ b.writeSeq by omega)
  have hlt : l - 1 < b.sent.length := by omega
  have hslot := h.retained l _ (by omega) (List.getElem?_eq_getElem hlt) (by omega)
  rw [hidx] at hslot
  refine ⟨l, hln, ?_⟩
  rw [BlobSlot.read_eq, hslot]
  simp only
  rw [if_neg (by omega), if_neg]
  rintro (hm | hlt')
  · unfold slotWriting at hm
    omega
  · omega

theorem Inv.read_pending (h : b.Inv cfg) {s : ℕ} (hs : b.writeSeq < s) :
    (b.slots (slotIndex cfg.cap s)).read s = .pending := by
  have hword := h.word (slotIndex cfg.cap s)
  have hws := h.writeSeq
  rw [BlobSlot.read_eq, if_neg (by omega), if_pos (.inr (by omega))]

end BlobRing

end Ringfire
