import Ringfire.Arena.Sequential
import Ringfire.Replication.MirrorRing

/-!
# Reading a ring for the wire

`SourceRing` of `replication.rs`, the read-only view of a ring that does not know the element type:
`read`, `read_record`, `collect`, `collect_lingering` and `resync`, and the loop of `serve_client`
that puts `DATA` and `GAP` frames on a TCP connection. Here they are functions of a ring nobody
writes; `collectTurn`, what `collect` does with the outcome of one read, is shared with the model
in which the producer keeps pushing.

How long `collect_lingering` may go on depends on the clock. `rounds` is how often it collects again
before its time is up. The heartbeats of the loop carry no records and are left out.

## Main definitions

* `SourceRing.readRecord`, `SourceRing.collectLingering`
* `SourceRing.serveTurn`, `SourceRing.serve`: the loop of `serve_client`
-/

namespace Ringfire

open PayloadArena

variable {w : ℕ}

/-- `TCP_FRAME_BYTES`. -/
def tcpFrameBytes : ℕ := 2 ^ 20

/-- Outcome of reading one record. -/
inductive RawRead (τ : Type) where
  | item (data : τ)
  | pending
  | overwritten (seen : ℕ)
  | lost
  deriving DecidableEq

/-- What one `collect` gathered. -/
structure Collected where
  count : ℕ
  lapped : Option ℕ
  lost : Bool
  deriving DecidableEq

/-- The length of a frame with the records `out` behind its header. -/
def wireLen (out : List Record) : ℕ :=
  frameHeaderLen + (out.map fun r => r.bytes.length).sum

/-- What a turn of the loop of `collect` does. -/
inductive CollectTurn where
  | stop (got : Collected) (out : List Record)
  | goOn (out : List Record)

/-- A turn of the loop of `collect`, with `count` records gathered so far and the outcome of the
next read. -/
def collectTurn (maxBytes count : ℕ) (out : List Record) : RawRead Record → CollectTurn
  | .item r =>
    -- the first record is taken whatever its length
    if 0 < count ∧ maxBytes < wireLen (out ++ [r]) then .stop ⟨count, none, false⟩ out
    else if maxBytes ≤ wireLen (out ++ [r]) then .stop ⟨count + 1, none, false⟩ (out ++ [r])
    else .goOn (out ++ [r])
  | .pending => .stop ⟨count, none, false⟩ out
  | .overwritten seen => .stop ⟨count, some seen, false⟩ out
  | .lost => .stop ⟨count, none, true⟩ out

/-- The condition `full` of `collect_lingering`. -/
def Collected.full (maxRecords maxBytes : ℕ) (got : Collected) (out : List Record) : Bool :=
  maxRecords ≤ got.count ∨ maxBytes ≤ wireLen out ∨ got.lapped.isSome ∨ got.lost

/-- A ring as its server sees it, with the flags of its header that its consumers look at. -/
structure SourceRing (w : ℕ) where
  cap : Capacity
  slots : ℕ → Slot w UInt8
  writeSeq : ℕ
  arena : Option (ArenaCapacity × ArenaMem UInt8)
  multiProducer : Bool
  sparse : Bool

/-- A frame of the TCP connection, with the records of a `DATA` frame. -/
inductive Sent where
  | data (seq : ℕ) (records : List Record)
  | gap (seq : ℕ)
  deriving DecidableEq

/-- The records of a frame. -/
def Sent.records : Sent → List Record
  | data _ records => records
  | gap _ => []

namespace SourceRing

/-- The slot of message `seq`. -/
def slot (ring : SourceRing w) (seq : ℕ) : Slot w UInt8 := ring.slots (slotIndex ring.cap seq)

/-- `read`. -/
def read (ring : SourceRing w) (want : ℕ) : RawRead (Payload w UInt8) :=
  if (ring.slot want).seq = want then
    -- the slot word is loaded again after the copy
    if (ring.slot want).seq = want then .item (ring.slot want).data
    else .overwritten (if (ring.slot want).seq = slotWriting then 0 else (ring.slot want).seq)
  else if (ring.slot want).seq = slotWriting ∨ (ring.slot want).seq < want then .pending
  else .overwritten (ring.slot want).seq

/-- The blob of a record whose slot payload was read. -/
def readBlob (arena : ArenaCapacity × ArenaMem UInt8) (payload : List UInt8) : RawRead Record :=
  let r := blobRefAt payload
  if 0 < r.len then
    if isInBounds arena.1 r = false then .lost
    else if isLapped arena.1 arena.2.reserved r then .lost
    else .item ⟨payload, arena.2.viewBlob arena.1 r⟩
  else .item ⟨payload, []⟩

/-- `read_record`. -/
def readRecord (ring : SourceRing w) (want : ℕ) : RawRead Record :=
  match ring.read want with
  | .item d =>
    match ring.arena with
    | some arena => readBlob arena (payloadBytes d)
    | none => .item ⟨payloadBytes d, []⟩
  | .pending => .pending
  | .overwritten seen => .overwritten seen
  | .lost => .lost

/-- The loop of `collect`: `left` more records may be gathered. -/
def collectLoop (ring : SourceRing w) (cursor maxBytes : ℕ) :
    ℕ → ℕ → List Record → Collected × List Record
  | 0, count, out => (⟨count, none, false⟩, out)
  | left + 1, count, out =>
    match collectTurn maxBytes count out (ring.readRecord (cursor + count)) with
    | .stop got out' => (got, out')
    | .goOn out' => collectLoop ring cursor maxBytes left (count + 1) out'

/-- `collect`. -/
def collect (ring : SourceRing w) (cursor maxRecords maxBytes : ℕ) (out : List Record) :
    Collected × List Record :=
  ring.collectLoop cursor maxBytes maxRecords 0 out

/-- `resync`. -/
def resync (ring : SourceRing w) (seen : ℕ) : ℕ :=
  oldestRetained (max ring.writeSeq seen) ring.cap.val

/-- The loop of `collect_lingering`. -/
def lingerLoop (ring : SourceRing w) (cursor maxRecords maxBytes : ℕ) :
    ℕ → Collected × List Record → Collected × List Record
  | 0, got => got
  | rounds + 1, got =>
    if got.1.full maxRecords maxBytes got.2 then got
    else
      let more := ring.collect (cursor + got.1.count) (maxRecords - got.1.count) maxBytes got.2
      lingerLoop ring cursor maxRecords maxBytes rounds
        (⟨got.1.count + more.1.count, more.1.lapped, more.1.lost⟩, more.2)

/-- `collect_lingering`. -/
def collectLingering (ring : SourceRing w) (cursor maxRecords maxBytes rounds : ℕ) :
    Collected × List Record :=
  let got := ring.collect cursor maxRecords maxBytes []
  if got.1.count = 0 ∨ got.1.full maxRecords maxBytes got.2 then got
  else ring.lingerLoop cursor maxRecords maxBytes rounds got

/-- `batch.clamp(1, u16::MAX)`. -/
def clampBatch (batch : ℕ) : ℕ := max 1 (min batch (2 ^ 16 - 1))

/-- What the loop of `serve_client` does with what it collected, and where its cursor goes. -/
def answer (ring : SourceRing w) (cursor : ℕ) (got : Collected × List Record) : List Sent × ℕ :=
  let sent := if 0 < got.1.count then [Sent.data cursor got.2] else []
  match got.1.lapped with
  | some seen =>
    -- resynchronize at the oldest message still retained
    if cursor + got.1.count < ring.resync seen then
      (sent ++ [.gap (ring.resync seen)], ring.resync seen)
    else (sent, cursor + got.1.count)
  | none =>
    -- the payload of the next record is gone from the arena
    if got.1.lost then (sent ++ [.gap (cursor + got.1.count + 1)], cursor + got.1.count + 1)
    else (sent, cursor + got.1.count)

/-- A turn of the loop of `serve_client`. -/
def serveTurn (ring : SourceRing w) (batch rounds cursor : ℕ) : List Sent × ℕ :=
  ring.answer cursor (ring.collectLingering cursor (clampBatch batch) tcpFrameBytes rounds)

/-- `n` turns of the loop of `serve_client`; turn `i` lingers for `rounds i` rounds. -/
def serve (ring : SourceRing w) (batch : ℕ) (rounds : ℕ → ℕ) (cursor : ℕ) : ℕ → List Sent × ℕ
  | 0 => ([], cursor)
  | n + 1 =>
    let before := serve ring batch rounds cursor n
    let turn := ring.serveTurn batch (rounds n) before.2
    (before.1 ++ turn.1, turn.2)

theorem read_eq (ring : SourceRing w) (want : ℕ) :
    ring.read want =
      match readSlot (ring.slot want) want with
      | .item d => .item d
      | .pending => .pending
      | .overwritten seen => .overwritten seen := by
  unfold read
  rw [readSlot_eq]
  split_ifs <;> rfl

end SourceRing

end Ringfire
