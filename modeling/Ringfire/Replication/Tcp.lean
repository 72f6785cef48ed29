import Ringfire.Foundation.Transition
import Ringfire.Replication.Handshake
import Ringfire.Replication.RoundTrip

/-!
# Mirroring over TCP

One connection between a source and a mirror without UDP: the loop of `serve_client` reads the
source, one memory access at a time, and puts `DATA`, `GAP` and `HEARTBEAT` frames on a byte stream;
`Mirror::step` takes one frame off it. The producer of the source goes on pushing. A connection may
break at any time and be opened again, from any `MirrorStart`, on the ring file it left.

How long `collect_lingering` goes on and when a heartbeat is due depends on the clock and is part of
the label. `TcpConn.passed` records every sequence the server did not send, with how far the source
had come at that moment.

## Main definitions

* `TcpServer.step`: one step of the loop of `serve_client`
* `Mirror.stepTcp`: `Mirror::step` on one frame
* `TcpSystem.step`: the source, the connection and the mirror
* `TcpSystem.Moves`: the steps, one constructor for each party
-/

namespace Ringfire

open PayloadArena

variable {ρ : Type} {w : ℕ}

/-! ## The server -/

/-- Where the loop of `serve_client` stands. -/
inductive TcpPc (w : ℕ) where
  | collect (g : Gather w)
  | linger (got : Collected) (out : List Record)
  | send (got : Collected) (out : List Record)
  | resync (seen : ℕ)
  | lost
  | idle

/-- A sequence the server went past without sending it: how many messages the source had stored by
then, and how many bytes of its arena it had reserved. -/
structure Passed where
  seq : ℕ
  stored : ℕ
  reserved : ℕ
  deriving DecidableEq

/-- The thread that serves a connection, and what it has put on the stream. -/
structure TcpServer (w : ℕ) where
  cursor : ℕ
  pc : TcpPc w
  wire : List UInt8
  passed : List Passed

/-- A step of the server: a memory access of `collect`, whether there is time left to linger, or
what comes next, with whether a heartbeat is due. -/
inductive ServeLabel (w : ℕ) where
  | read (a : ReadLabel w)
  | linger (more : Bool)
  | next (beat : Bool)

namespace TcpServer

/-- The top of the loop. -/
def loop (batch cursor : ℕ) : TcpPc w :=
  .collect (Gather.start cursor (SourceRing.clampBatch batch) tcpFrameBytes)

/-- A server at the top of its loop. -/
def start (batch cursor : ℕ) : TcpServer w := ⟨cursor, loop batch cursor, [], []⟩

/-- What the server goes past when it moves its cursor to `next`. -/
def pass (s : Source ρ w) (cursor next : ℕ) : List Passed :=
  (List.range' cursor (next - cursor)).map fun k => ⟨k, s.seq, s.arena.reserved⟩

/-- What comes after the frame with the records was written. -/
def afterSend (batch cursor : ℕ) (got : Collected) : TcpPc w :=
  match got.lapped with
  | some seen => .resync seen
  | none => if got.lost then .lost else if got.count = 0 then .idle else loop batch cursor

/-- The frame with the records gathered, if there are any. -/
def dataWire (cursor : ℕ) (got : Collected) (out : List Record) : List UInt8 :=
  if 0 < got.count then
    (dataFrame 0 got.count cursor (out.flatMap Record.bytes)).encode ++ out.flatMap Record.bytes
  else []

/-- One step of the loop of `serve_client`. -/
def step (cfg : SourceConfig w) (batch : ℕ) (s : Source ρ w) (t : TcpServer w) :
    ServeLabel w → Option (TcpServer w)
  | .read a =>
    match t.pc with
    | .collect g =>
      match g.step cfg s a with
      | some (.going g) => some { t with pc := .collect g }
      | some (.done got out) => some { t with pc := .linger got out }
      | none => none
    | _ => none
  | .linger more =>
    match t.pc with
    | .linger got out =>
      -- `collect_lingering` stops on nothing, on a full frame, or when its time is up
      if got.count = 0 ∨ got.full (SourceRing.clampBatch batch) tcpFrameBytes out ∨ more = false then
        some { t with pc := .send got out }
      else
        some { t with
          pc := .collect (Gather.again t.cursor (SourceRing.clampBatch batch) tcpFrameBytes got out) }
    | _ => none
  | .next beat =>
    match t.pc with
    | .send got out =>
      some { t with
        cursor := t.cursor + got.count
        wire := t.wire ++ dataWire t.cursor got out
        pc := afterSend batch (t.cursor + got.count) got }
    -- lapped: `GAP` to the oldest message still retained
    | .resync seen =>
      let target := oldestRetained (max s.sys.mem.writeSeq seen) cfg.ring.cap.val
      if t.cursor < target then
        some { t with
          cursor := target
          wire := t.wire ++ (Frame.control kindGap target).encode
          passed := t.passed ++ pass s t.cursor target
          pc := loop batch target }
      else some { t with pc := loop batch t.cursor }
    -- one payload gone from the arena: `GAP` over that record
    | .lost =>
      some { t with
        cursor := t.cursor + 1
        wire := t.wire ++ (Frame.control kindGap (t.cursor + 1)).encode
        passed := t.passed ++ pass s t.cursor (t.cursor + 1)
        pc := loop batch (t.cursor + 1) }
    | .idle =>
      some { t with
        wire := t.wire ++
          (if beat then (Frame.control kindHeartbeat s.sys.mem.writeSeq).encode else [])
        pc := loop batch t.cursor }
    | _ => none

end TcpServer

/-! ## The mirror -/

namespace Mirror

/-- The write position is moved to the first record of a `DATA` frame: forward over a gap, or into
a fresh ring when the source seems to have started its numbering again. -/
def seek (m : Mirror w) (seq : ℕ) : Mirror w :=
  if seq < m.ring.nextSeq then
    { m with ring := (MirrorRing.create w).skipTo seq, gaps := m.gaps + 1 }
  else if m.ring.nextSeq < seq then { m with ring := m.ring.skipTo seq, gaps := m.gaps + 1 }
  else m

/-- What `step` does with a frame and the bytes that follow it. -/
def handle (g : Geometry w) (m : Mirror w) (f : Frame) (body : List UInt8) :
    Option (Except RingfireError Unit × Mirror w) :=
  if f.kind = kindData then
    -- the stream is in order, so a frame is never kept back
    if frameSizesOk g f.count f.len then (m.seek f.seq).writeRecords g f.seq f.count body
    else some (.error (.protocol "DATA length does not match its record count"), m)
  else if f.kind = kindGap then
    if m.ring.nextSeq < f.seq then
      some (.ok (), { m with ring := m.ring.skipTo f.seq, gaps := m.gaps + 1 })
    else some (.ok (), m)
  else if f.kind = kindHeartbeat then
    some (.ok (), { m with sourceSeq := max m.sourceSeq f.seq })
  else some (.error (.protocol "unexpected frame kind"), m)

/-- The bytes that `step` reads behind a header. -/
def bodyLen (g : Geometry w) (f : Frame) : ℕ :=
  if f.kind = kindData ∧ frameSizesOk g f.count f.len = true then f.len else 0

/-- `step` without UDP, with what it leaves of the stream; `none` while it waits for bytes. -/
def stepTcp (g : Geometry w) (m : Mirror w) (wire : List UInt8) :
    Option ((Except RingfireError Unit × Mirror w) × List UInt8) :=
  let f := Frame.decode (wire.take frameHeaderLen)
  let rest := wire.drop frameHeaderLen
  if wire.length < frameHeaderLen ∨ rest.length < bodyLen g f then none
  else (m.handle g f (rest.take (bodyLen g f))).map fun r => (r, rest.drop (bodyLen g f))

end Mirror

/-! ## The system -/

/-- An open connection. -/
structure TcpConn (w : ℕ) where
  /-- The write position of the ring that was taken over. -/
  adopted : Option ℕ
  /-- `first_seq`. -/
  first : ℕ
  resumed : Bool
  reset : Bool
  server : TcpServer w
  mirror : Mirror w
  /-- The error that ended `run`. -/
  failed : Option RingfireError

/-- A source, and a mirror of it. -/
structure TcpSystem (ρ : Type) (w : ℕ) where
  source : Source ρ w
  /-- The ring file at the path of the mirror while there is no connection. -/
  file : RingFile w
  conn : Option (TcpConn w)

/-- Who moves. -/
inductive TcpLabel (ρ : Type) (w : ℕ) where
  | source (a : SourceLabel ρ w)
  | connect (start : MirrorStart)
  | serve (a : ServeLabel w)
  | receive
  | disconnect

namespace TcpConn

/-- A connection right after `connect`. -/
def opened (cfg : SourceConfig w) (batch writeSeq : ℕ) (start : MirrorStart) (file : RingFile w) :
    TcpConn w :=
  let c := connect cfg.ring.cap writeSeq start file
  { adopted := c.adopted
    first := c.first
    resumed := c.resumed
    reset := c.reset
    server := TcpServer.start batch c.first
    mirror := ⟨c.ring, c.first - 1, 0, none, [], []⟩
    failed := none }

/-- `Mirror::step`, unless an earlier one failed. -/
def receive (g : Geometry w) (c : TcpConn w) : Option (TcpConn w) :=
  match c.failed, c.mirror.stepTcp g c.server.wire with
  | none, some ((res, m), wire) =>
    some { c with
      server := { c.server with wire := wire }
      mirror := m
      failed := match res with
        | .ok _ => none
        | .error e => some e }
  | _, _ => none

end TcpConn

namespace TcpSystem

/-- A fresh source, and whatever is at the path of the mirror. -/
def create (ρ : Type) (cfg : SourceConfig w) (file : RingFile w) : TcpSystem ρ w :=
  ⟨.create ρ cfg, file, none⟩

/-- One step. -/
def step [DecidableEq ρ] (cfg : SourceConfig w) (batch : ℕ) (s : TcpSystem ρ w) :
    TcpLabel ρ w → Option (TcpSystem ρ w)
  | .source a => (s.source.step cfg a).map fun source => { s with source := source }
  | .connect start =>
    match s.conn with
    | none =>
      some { s with conn := some (.opened cfg batch s.source.sys.mem.writeSeq start s.file) }
    | some _ => none
  | .serve a =>
    match s.conn with
    | some c =>
      (c.server.step cfg batch s.source a).map fun server =>
        { s with conn := some { c with server := server } }
    | none => none
  | .receive =>
    match s.conn with
    | some c => (c.receive cfg.geometry).map fun c => { s with conn := some c }
    | none => none
  -- the bytes in flight are lost, the file is what the mirror has written
  | .disconnect =>
    match s.conn with
    | some c => some { s with file := .mirror c.mirror.ring, conn := none }
    | none => none

/-- What a step is, one case for each party that moves. -/
inductive Moves [DecidableEq ρ] (cfg : SourceConfig w) (batch : ℕ) (s : TcpSystem ρ w) :
    TcpLabel ρ w → TcpSystem ρ w → Prop where
  | source (a : SourceLabel ρ w) (source : Source ρ w) (next : s.source.step cfg a = some source) :
      Moves cfg batch s (.source a) { s with source := source }
  | connect (start : MirrorStart) (free : s.conn = none) :
      Moves cfg batch s (.connect start)
        { s with conn := some (.opened cfg batch s.source.sys.mem.writeSeq start s.file) }
  | serve (a : ServeLabel w) (c : TcpConn w) (server : TcpServer w) (conn : s.conn = some c)
      (next : c.server.step cfg batch s.source a = some server) :
      Moves cfg batch s (.serve a) { s with conn := some { c with server := server } }
  | receive (c c' : TcpConn w) (conn : s.conn = some c)
      (next : c.receive cfg.geometry = some c') :
      Moves cfg batch s .receive { s with conn := some c' }
  | disconnect (c : TcpConn w) (conn : s.conn = some c) :
      Moves cfg batch s .disconnect { s with file := .mirror c.mirror.ring, conn := none }

theorem step_moves [DecidableEq ρ] {cfg : SourceConfig w} {batch : ℕ} {s s' : TcpSystem ρ w}
    {a : TcpLabel ρ w} (h : s.step cfg batch a = some s') : Moves cfg batch s a s' := by
  cases a with
  | source a =>
    obtain ⟨source, hsource, rfl⟩ := Option.map_eq_some_iff.mp h
    exact .source a source hsource
  | connect start =>
    simp only [step] at h
    split at h <;> cases h
    next hfree => exact .connect start hfree
  | serve a =>
    simp only [step] at h
    split at h
    · next c hc =>
      obtain ⟨server, hserver, rfl⟩ := Option.map_eq_some_iff.mp h
      exact .serve a c server hc hserver
    · cases h
  | receive =>
    simp only [step] at h
    split at h
    · next c hc =>
      obtain ⟨c', hc', rfl⟩ := Option.map_eq_some_iff.mp h
      exact .receive c c' hc hc'
    · cases h
  | disconnect =>
    simp only [step] at h
    split at h <;> cases h
    next c hc => exact .disconnect c hc

end TcpSystem

end Ringfire
