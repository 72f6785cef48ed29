import Ringfire.Blob.Receiver
import Ringfire.Foundation.Transition
import Ringfire.Replication.Gather
import Ringfire.Replication.Rewrite

/-!
# A mirror whose writer dies

A source, a mirror process that receives its records and writes them into a mirror ring, and the
local readers of that ring, one memory access at a time. The process may die anywhere: with a blob
reserved or half copied, with a slot marked, with a slot stored and not published. The next one
opens the same file and goes on at `write_seq + 1`.

How records travel is left open. `received` holds every record the server has read for this
process, and the process may take any of them that is not below its write position, skip ahead, and
publish whenever it likes; `write_records`, `GAP` frames and the order of a byte stream are
instances. A new process has a new connection, so what it receives was read after its predecessor
died.

Slot payloads are copied by 8-byte words. The reference to a blob is the last two of them.

## Main definitions

* `CrashSystem.step`: one step of the source, the server, the process or a reader
* `CrashSystem.Holds`: the payloads a mirror makes of a record
* `CrashSystem.Undisturbed`: no reader takes the source's blob reference for the mirror's
-/

namespace Ringfire

open PayloadArena

/-! ## Slot payloads by words -/

/-- A payload from its bytes, by 8-byte words. -/
def wordsOf (n : ℕ) (bytes : List UInt8) : Payload n (Payload 8 UInt8) :=
  fun i j => bytes.getD (8 * i + j) 0

/-- The bytes of a payload. -/
def bytesOf {n : ℕ} (d : Payload n (Payload 8 UInt8)) : List UInt8 :=
  List.ofFn fun k : Fin (8 * n) =>
    d ⟨k / 8, by omega⟩ ⟨k % 8, Nat.mod_lt _ (by decide)⟩

/-- The words of the blob reference. -/
def refWords (n : ℕ) : Finset (Fin n) := Finset.univ.filter fun j => n ≤ j + 2

/-- `packet.blob_ref`: the blob reference where the packet type has it. -/
def packetRef {n : ℕ} (b : PacketConfig) (d : Payload n (Payload 8 UInt8)) : BlobRef :=
  blobRefAt ((bytesOf d).take (b.layout.refEnd - 8))

/-! ## The system -/

/-- A source, the process that mirrors it, and the readers of the mirror. -/
structure CrashSystem (ρ κ : Type) (n : ℕ) where
  source : Source ρ (8 * n)
  /-- The record the server is reading for the process. -/
  reading : Option (ℕ × RecordPc (8 * n))
  /-- What the server has read for the process. -/
  received : List (ℕ × Record)
  file : MirrorFile n (Payload 8 UInt8)
  arena : ArenaMem UInt8
  writer : ArenaWriter UInt8
  /-- The record whose blob `write_blob` is placing. -/
  staged : Option (ℕ × Record)
  /-- Where blobs were placed, with the sequences they were placed for. -/
  placed : List (ℕ × BlobRef)
  ring : κ → RingConsumer n (Payload 8 UInt8)
  blob : κ → BlobReceiver n (Payload 8 UInt8)

/-- Who moves. -/
inductive CrashLabel (ρ κ : Type) (n : ℕ) where
  | source (a : SourceLabel ρ (8 * n))
  | fetch (k : ℕ)
  | serve (a : ReadLabel (8 * n))
  | take (i : ℕ)
  | arena (a : WriterLabel UInt8)
  | place
  | word (j : Fin n)
  | tick
  | publish
  | skip (seq : ℕ)
  | crash
  | attachRing (q : κ) (registered : Bool) (cursor lappedTotal : ℕ)
  | ring (q : κ) (a : ConsumerLabel n)
  | attachBlob (q : κ) (cursor lappedTotal : ℕ)
  | blob (q : κ) (a : ReceiverLabel n)

namespace CrashSystem

variable {ρ κ : Type} {n : ℕ}

/-- A fresh source and a fresh mirror ring. -/
def create (ρ κ : Type) (cfg : SourceConfig (8 * n)) : CrashSystem ρ κ n where
  source := .create ρ cfg
  reading := none
  received := []
  file := .create n (Payload 8 UInt8)
  arena := .init
  writer := ⟨.idle, none⟩
  staged := none
  placed := []
  ring := fun _ => .attach false true false 1 0
  blob := fun _ => .attach true 1 0

/-- One memory access of `read_record`; a record that was read is sent. -/
def serve (cfg : SourceConfig (8 * n)) (s : CrashSystem ρ κ n) (a : ReadLabel (8 * n)) :
    Option (CrashSystem ρ κ n) :=
  match s.reading with
  | none => none
  | some (k, pc) =>
    match pc.step cfg s.source k a with
    | some (.done (.item r)) =>
      some { s with reading := none, received := s.received ++ [(k, r)] }
    -- not there, overwritten or lapped: nothing is sent
    | some (.done _) => some { s with reading := none }
    | some pc' => some { s with reading := some (k, pc') }
    | none => none

/-- The process starts to write record `k`: `write`, or the `write_blob` of the arena. -/
def begin (cfg : SourceConfig (8 * n)) (s : CrashSystem ρ κ n) (k : ℕ) (r : Record) :
    Option (CrashSystem ρ κ n) :=
  -- records between `next_seq` and `k` stay holes
  match s.file.start (.skipTo k) with
  | none => none
  | some file =>
    match cfg.blob with
    | none => (file.start (.write (wordsOf n r.payload))).map ({ s with file := · })
    | some b =>
      (s.writer.step b.arena s.arena (.call (.writeBlob r.blob (blobRefAt r.payload).flags))).map
        fun (arena, writer) =>
          { s with file := file, arena := arena, writer := writer, staged := some (k, r) }

/-- The process goes on with a record it has received. -/
def take (cfg : SourceConfig (8 * n)) (s : CrashSystem ρ κ n) (i : ℕ) :
    Option (CrashSystem ρ κ n) :=
  match s.received[i]?, s.file.pc, s.staged with
  | some (k, r), .idle, none => if s.file.nextSeq ≤ k then s.begin cfg k r else none
  | _, _, _ => none

/-- The blob is in the arena: its descriptor goes into the slot. -/
def place (s : CrashSystem ρ κ n) : Option (CrashSystem ρ κ n) :=
  match s.staged, s.writer.pc, s.writer.result with
  | some (k, r), .idle, some (.ok ref) =>
    (s.file.start (.writeBlob (wordsOf n r.payload) (wordsOf n (putBlobRef r.payload ref))
      (refWords n))).map fun file =>
        { s with file := file, staged := none, placed := s.placed ++ [(k, ref)] }
  -- the arena of the mirror refused the blob
  | some _, .idle, some (.error _) => some { s with staged := none }
  | _, _, _ => none

/-- A call of the process between two records. -/
def between (cfg : SourceConfig (8 * n)) (s : CrashSystem ρ κ n)
    (c : FileCall n (Payload 8 UInt8)) : Option (CrashSystem ρ κ n) :=
  match s.staged with
  | none => (s.file.step cfg.ring.cap (.call c)).map ({ s with file := · })
  | some _ => none

/-- The process died and the next one took over. -/
def crash (s : CrashSystem ρ κ n) : CrashSystem ρ κ n :=
  { s with
    reading := none
    received := []
    file := s.file.adopt
    writer := ⟨.idle, none⟩
    staged := none }

/-- The memory a blob consumer sees. -/
def memory (s : CrashSystem ρ κ n) : BlobMemory n (Payload 8 UInt8) :=
  ⟨s.file.slots, s.file.writeSeq, s.arena⟩

/-- One step. -/
def step [DecidableEq ρ] [DecidableEq κ] (cfg : SourceConfig (8 * n)) (s : CrashSystem ρ κ n) :
    CrashLabel ρ κ n → Option (CrashSystem ρ κ n)
  | .source a => (s.source.step cfg a).map ({ s with source := · })
  -- any record, in any order and as often as the network likes
  | .fetch k =>
    if 1 ≤ k ∧ k ≤ s.source.seq then some { s with reading := some (k, .slot .load) } else none
  | .serve a => s.serve cfg a
  | .take i => s.take cfg i
  | .arena a =>
    match cfg.blob, s.staged with
    | some b, some _ =>
      if a.isCall then none
      else (s.writer.step b.arena s.arena a).map fun (arena, writer) =>
        { s with arena := arena, writer := writer }
    | _, _ => none
  | .place => s.place
  | .word j => (s.file.step cfg.ring.cap (.word j)).map ({ s with file := · })
  | .tick => (s.file.step cfg.ring.cap .tick).map ({ s with file := · })
  | .publish => s.between cfg .publish
  | .skip seq => s.between cfg (.skipTo seq)
  -- the process dies between two accesses, and another one adopts the file
  | .crash => some s.crash
  | .attachRing q registered cursor lappedTotal =>
    if 1 ≤ cursor then
      some { s with
        ring := Function.update s.ring q (.attach false true registered cursor lappedTotal) }
    else none
  | .ring q a =>
    match cfg.blob with
    | none =>
      ((s.ring q).step cfg.ring.cap s.file.slots s.file.writeSeq a).map fun (c, _) =>
        { s with ring := Function.update s.ring q c }
    | some _ => none
  | .attachBlob q cursor lappedTotal =>
    if 1 ≤ cursor then
      some { s with blob := Function.update s.blob q (.attach true cursor lappedTotal) }
    else none
  | .blob q a =>
    match cfg.blob with
    | some b =>
      ((s.blob q).step cfg.ring.cap b.arena (packetRef b) s.memory a).map fun c =>
        { s with blob := Function.update s.blob q c }
    | none => none

/-! ## What a mirror makes of a record -/

/-- `d` is a payload the mirror makes of record `k`: the source's, or on a ring with an arena the
source's with the reference to a place where the mirror has put the blob. -/
def Holds (cfg : SourceConfig (8 * n)) (s : CrashSystem ρ κ n) (k : ℕ)
    (d : Payload n (Payload 8 UInt8)) : Prop :=
  ∃ r, s.source.Has k r ∧
    match cfg.blob with
    | none => d = wordsOf n r.payload
    | some _ => ∃ ref, (k, ref) ∈ s.placed ∧ d = wordsOf n (putBlobRef r.payload ref)

/-- A step that is not this: a blob consumer in the middle of copying a descriptor takes a word from
its slot while the slot is being written again under the same sequence, and the word is none of the
mirror's own. It is the source's blob reference, which `write_blob` has copied in and not yet
replaced. -/
def Undisturbed (cfg : SourceConfig (8 * n)) (s : CrashSystem ρ κ n) (a : CrashLabel ρ κ n) :
    Prop :=
  ∀ q j, a = .blob q (.word j) →
    (s.file.slots (slotIndex cfg.ring.cap (s.blob q).cursor)).seq = slotWriting →
    s.file.Newest cfg.ring.cap (s.blob q).cursor →
    GoodWord (s.Holds cfg) (s.blob q).cursor j
      ((s.file.slots (slotIndex cfg.ring.cap (s.blob q).cursor)).data j)

end CrashSystem

end Ringfire
