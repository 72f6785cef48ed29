import Ringfire.Arena.System
import Ringfire.Ring.Hole

/-!
# The memory accesses of a blob consumer

`BlobConsumer::next_blob` of `blob.rs`, cut into its memory accesses, next to writers that go on.
The slot is read as by a `RingConsumer`. Then the descriptor in the packet is checked against the
bounds of the arena and its counter, the bytes it names are copied, and the counter is looked at
again. The closure `check` is part of the call: `some n` refuses blobs longer than `n`, as
`recv_status` does with a buffer of `n` bytes, and `none` takes every blob, as `view` does.

Where the descriptor lies within a packet depends on the packet type, so the reader is given a
function that finds it.

## Main definitions

* `BlobReceiver.step`: one memory access, or the start of a call

## Main results

* `BlobReceiver.step_effect`: a step moves nothing, returns the message at the cursor, or counts
  sequences as lapped
-/

namespace Ringfire

open PayloadArena

/-- Where a blob consumer stands. `skipped` is the local count of `next_blob`. -/
inductive ReceiverPc (w : ℕ) (ω : Type) where
  | idle
  | reading (room : Option ℕ) (skipped : ℕ) (rd : ReadPc w ω)
  | lapCheck (room : Option ℕ) (skipped : ℕ) (packet : Payload w ω)
  | view (room : Option ℕ) (skipped : ℕ) (packet : Payload w ω) (rd : BlobReadPc UInt8)
  | skipLoad (room : Option ℕ) (skipped seen : ℕ)
  | hole (room : Option ℕ) (skipped : ℕ) (pc : HolePc)

/-- A blob consumer. A message returned is a packet with the bytes its descriptor names. -/
structure BlobReceiver (w : ℕ) (ω : Type) extends Account (Payload w ω × List UInt8) where
  sparse : Bool
  emptyPolls : ℕ
  pc : ReceiverPc w ω

/-- A step of a blob consumer: the start of a call, a word of the slot, a byte of the blob, or
whatever comes next. -/
inductive ReceiverLabel (w : ℕ) where
  | call (room : Option ℕ)
  | word (i : Fin w)
  | byte (i : ℕ)
  | tick

/-- The shared memory of a ring with an arena. -/
structure BlobMemory (w : ℕ) (ω : Type) where
  slots : ℕ → Slot w ω
  writeSeq : ℕ
  arena : ArenaMem UInt8

namespace BlobReceiver

variable {w : ℕ} {ω : Type}

/-- A blob consumer at `cursor`. -/
def attach (sparse : Bool) (cursor lappedTotal : ℕ) : BlobReceiver w ω where
  cursor := cursor
  lappedTotal := lappedTotal
  delivered := []
  lapped := []
  jumped := []
  sparse := sparse
  emptyPolls := 0
  pc := .idle

/-- The top of the loop of `next_blob`, after the cursor moved to `target`. -/
def lapTo (c : BlobReceiver w ω) (room : Option ℕ) (skipped target : ℕ) : BlobReceiver w ω :=
  { c with
    toAccount := c.toAccount.lap target
    pc := .reading room (skipped + (target - c.cursor)) .load }

/-- `next_blob` after `read_slot` returned. -/
def afterRead (acap : ArenaCapacity) (ref : Payload w ω → BlobRef) (c : BlobReceiver w ω)
    (room : Option ℕ) (skipped : ℕ) : SlotRead (Payload w ω) → Option (BlobReceiver w ω)
  | .item packet =>
    if c.cursor + 1 ≤ u64Max then
      -- a reference that leads out of the arena is skipped like a lapped one
      if isInBounds acap (ref packet) = false then some (c.lapTo room skipped (c.cursor + 1))
      else some { c with pc := .lapCheck room skipped packet }
    else none
  | .overwritten seen => some { c with pc := .skipLoad room skipped seen }
  | .pending =>
    if c.sparse then
      if (c.emptyPolls + 1) % 2 ^ 32 &&& 63 = 0 then
        some { c with emptyPolls := (c.emptyPolls + 1) % 2 ^ 32, pc := .hole room skipped .load }
      else some { c with emptyPolls := (c.emptyPolls + 1) % 2 ^ 32, pc := .idle }
    else some { c with pc := .idle }

/-- `check(len)`. -/
def accepts (room : Option ℕ) (len : ℕ) : Bool :=
  match room with
  | none => true
  | some n => len ≤ n

/-- `next_blob` after the copy of the blob was looked at again. -/
def afterView (ref : Payload w ω → BlobRef) (c : BlobReceiver w ω) (room : Option ℕ)
    (skipped : ℕ) (packet : Payload w ω) : BlobReadPc UInt8 → BlobReceiver w ω
  | .done true _ => c.lapTo room skipped (c.cursor + 1)
  | .done false buf =>
    { c with
      toAccount := c.toAccount.deliver (packet, (List.range (ref packet).len).map buf)
      pc := .idle }
  | rd => { c with pc := .view room skipped packet rd }

/-- One memory access. -/
def step [Inhabited ω] (cap : Capacity) (acap : ArenaCapacity) (ref : Payload w ω → BlobRef)
    (m : BlobMemory w ω) (c : BlobReceiver w ω) (a : ReceiverLabel w) : Option (BlobReceiver w ω) :=
  match c.pc, a with
  | .idle, .call room => some { c with pc := .reading room 0 .load }
  | .reading room skipped rd, .word i =>
    (rd.step (m.slots (slotIndex cap c.cursor)) c.cursor (some i)).map fun rd' =>
      { c with pc := .reading room skipped rd' }
  | .reading room skipped rd, .tick =>
    match rd.step (m.slots (slotIndex cap c.cursor)) c.cursor none with
    | some (.done r) => c.afterRead acap ref room skipped r
    | some rd' => some { c with pc := .reading room skipped rd' }
    | none => none
  -- the first load of `reserved`, before the copy
  | .lapCheck room skipped packet, .tick =>
    if isLapped acap m.arena.reserved (ref packet) then
      some (c.lapTo room skipped (c.cursor + 1))
    else if accepts room (ref packet).len = false then some { c with pc := .idle }
    else some { c with pc := .view room skipped packet (.start (ref packet)) }
  -- the copy, and `reserved` once more after it
  | .view room skipped packet rd, .byte i =>
    (rd.step acap m.arena (ref packet) (some i)).map (c.afterView ref room skipped packet)
  | .view room skipped packet rd, .tick =>
    (rd.step acap m.arena (ref packet) none).map (c.afterView ref room skipped packet)
  -- `skip_overwritten` returned 0: the call returns without a message
  | .skipLoad room skipped seen, .tick =>
    if c.cursor < oldestRetained (max m.writeSeq seen) cap.val then
      some (c.lapTo room skipped (oldestRetained (max m.writeSeq seen) cap.val))
    else some { c with pc := .idle }
  | .hole room skipped pc, .tick =>
    match pc.step cap (fun i => (m.slots i).seq) m.writeSeq c.cursor with
    | .stay => some { c with pc := .idle }
    | .go pc' => some { c with pc := .hole room skipped pc' }
    | .move next => some (c.lapTo room skipped next)
  | _, _ => none

/-! ## What a step does -/

variable {cap : Capacity} {acap : ArenaCapacity} {ref : Payload w ω → BlobRef} {m : BlobMemory w ω}
  {c c' : BlobReceiver w ω} {a : ReceiverLabel w}

/-- The moves of a blob consumer's step. -/
inductive Effect [Inhabited ω] (cap : Capacity) (acap : ArenaCapacity) (ref : Payload w ω → BlobRef)
    (m : BlobMemory w ω) (c c' : BlobReceiver w ω) (a : ReceiverLabel w) : Prop where
  /-- Nothing is copied and no scan goes on. -/
  | rest (account : c'.toAccount = c.toAccount)
      (pc : c'.pc = .idle ∨ (∃ room skipped, c'.pc = .reading room skipped .load) ∨
        (∃ room skipped seen, c'.pc = .skipLoad room skipped seen) ∨
        ∃ room skipped, c'.pc = .hole room skipped .load)
  | lap (room : Option ℕ) (skipped target : ℕ) (next : c' = c.lapTo room skipped target)
      (lt : c.cursor < target ∨ ∃ room skipped ws examined,
        c.pc = .hole room skipped (.scan ws target examined))
  | read (room : Option ℕ) (skipped : ℕ) (rd rd' : ReadPc w ω) (x : Option (Fin w))
      (pc : c.pc = .reading room skipped rd) (label : ∀ j, x = some j → a = .word j)
      (step : rd.step (m.slots (slotIndex cap c.cursor)) c.cursor x = some rd')
      (next : c' = { c with pc := .reading room skipped rd' })
  | packet (room : Option ℕ) (skipped : ℕ) (rd : ReadPc w ω) (packet : Payload w ω)
      (pc : c.pc = .reading room skipped rd)
      (step : rd.step (m.slots (slotIndex cap c.cursor)) c.cursor none = some (.done (.item packet)))
      (fits : c.cursor + 1 ≤ u64Max)
      (next : c' = { c with pc := .lapCheck room skipped packet })
  | view (room : Option ℕ) (skipped : ℕ) (packet : Payload w ω)
      (pc : c.pc = .lapCheck room skipped packet)
      (next : c' = { c with pc := .view room skipped packet (.start (ref packet)) })
  | copy (room : Option ℕ) (skipped : ℕ) (packet : Payload w ω) (rd rd' : BlobReadPc UInt8)
      (x : Option ℕ) (pc : c.pc = .view room skipped packet rd)
      (step : rd.step acap m.arena (ref packet) x = some rd')
      (next : c' = { c with pc := .view room skipped packet rd' })
  | deliver (room : Option ℕ) (skipped : ℕ) (packet : Payload w ω) (rd : BlobReadPc UInt8)
      (x : Option ℕ) (buf : ℕ → UInt8) (pc : c.pc = .view room skipped packet rd)
      (step : rd.step acap m.arena (ref packet) x = some (.done false buf))
      (next : c' = { c with
        toAccount := c.toAccount.deliver (packet, (List.range (ref packet).len).map buf)
        pc := .idle })
  | scan (room : Option ℕ) (skipped : ℕ) (pc pc' : HolePc) (old : c.pc = .hole room skipped pc)
      (step : pc.step cap (fun i => (m.slots i).seq) m.writeSeq c.cursor = .go pc')
      (next : c' = { c with pc := .hole room skipped pc' })

theorem afterRead_effect [Inhabited ω] {room : Option ℕ} {skipped : ℕ} {rd : ReadPc w ω}
    {r : SlotRead (Payload w ω)} (hpc : c.pc = .reading room skipped rd)
    (hr : rd.step (m.slots (slotIndex cap c.cursor)) c.cursor none = some (.done r))
    (h : c.afterRead acap ref room skipped r = some c') : Effect cap acap ref m c c' a := by
  cases r with
  | item packet =>
    simp only [afterRead] at h
    split_ifs at h with hfits hbounds <;> cases h
    · exact .lap room skipped _ rfl (.inl (Nat.lt_succ_self _))
    · exact .packet room skipped rd packet hpc hr hfits rfl
  | overwritten seen =>
    cases h
    exact .rest rfl (.inr (.inr (.inl ⟨_, _, _, rfl⟩)))
  | pending =>
    simp only [afterRead] at h
    split_ifs at h <;> cases h
    · exact .rest rfl (.inr (.inr (.inr ⟨_, _, rfl⟩)))
    · exact .rest rfl (.inl rfl)
    · exact .rest rfl (.inl rfl)

theorem afterView_effect [Inhabited ω] {room : Option ℕ} {skipped : ℕ} {packet : Payload w ω}
    {rd rd' : BlobReadPc UInt8} {x : Option ℕ} (hpc : c.pc = .view room skipped packet rd)
    (hr : rd.step acap m.arena (ref packet) x = some rd') :
    Effect cap acap ref m c (c.afterView ref room skipped packet rd') a := by
  cases rd' with
  | copy left buf => exact .copy room skipped packet rd _ x hpc hr rfl
  | done lapped buf =>
    cases lapped with
    | true => exact .lap room skipped _ rfl (.inl (Nat.lt_succ_self _))
    | false => exact .deliver room skipped packet rd x buf hpc hr rfl

/-- **What one step does.** -/
theorem step_effect [Inhabited ω] (h : c.step cap acap ref m a = some c') :
    Effect cap acap ref m c c' a := by
  unfold step at h
  split at h
  case h_1 room hpc =>
    cases h
    exact .rest rfl (.inr (.inl ⟨_, _, rfl⟩))
  -- `read_slot` on the descriptor
  case h_2 room skipped rd i hpc =>
    obtain ⟨rd', hr, rfl⟩ := Option.map_eq_some_iff.mp h
    exact .read room skipped rd rd' _ hpc (by rintro j ⟨⟩; rfl) hr rfl
  case h_3 room skipped rd hpc =>
    split at h
    · next r hr => exact afterRead_effect hpc hr h
    · next rd' _ hr =>
      cases h
      exact .read room skipped rd rd' none hpc (by rintro j ⟨⟩) hr rfl
    · cases h
  -- the payload: the check before the copy, the copy, the check after it
  case h_4 room skipped packet hpc =>
    split_ifs at h <;> cases h
    · exact .lap room skipped _ rfl (.inl (Nat.lt_succ_self _))
    · exact .rest rfl (.inl rfl)
    · exact .view room skipped packet hpc rfl
  case h_5 room skipped packet rd i hpc =>
    obtain ⟨rd', hr, rfl⟩ := Option.map_eq_some_iff.mp h
    exact afterView_effect hpc hr
  case h_6 room skipped packet rd hpc =>
    obtain ⟨rd', hr, rfl⟩ := Option.map_eq_some_iff.mp h
    exact afterView_effect hpc hr
  -- `skip_overwritten` and `skip_hole`
  case h_7 room skipped seen hpc =>
    split_ifs at h with hlt <;> cases h
    · exact .lap room skipped _ rfl (.inl hlt)
    · exact .rest rfl (.inl rfl)
  case h_8 room skipped pc hpc =>
    split at h
    · cases h
      exact .rest rfl (.inl rfl)
    · next pc' hgo =>
      cases h
      exact .scan room skipped pc pc' hpc hgo rfl
    · next next hmove =>
      cases h
      obtain ⟨ws, examined, rfl⟩ := HolePc.step_eq_move hmove
      exact .lap room skipped next rfl (.inr ⟨room, skipped, ws, examined, hpc⟩)
  case h_9 => cases h

end BlobReceiver

end Ringfire
