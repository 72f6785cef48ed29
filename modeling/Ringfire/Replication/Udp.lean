import Ringfire.Replication.Pending
import Ringfire.Replication.Tcp

/-!
# Replication by UDP

A source, the thread of `udp_loop` that sends its records in datagrams, a mirror, and the TCP
connection between the mirror and the thread that answers its `NAK`s with `serve_range`. The source
and both threads take one memory access at a time.

A datagram that was sent may arrive at any time, any number of times, or never, so the network is
the list of all datagrams sent. The TCP connection is a byte stream in one direction and the list
of the `NAK`s in the other. The fault injection of `udp_loop` drops datagrams and delays them, as
the network does.

## Main definitions

* `UdpSender.step`: one step of `udp_loop`
* `RangeServer.step`: one step of `serve_range`
* `UdpSystem.step`: one step of the system
* `UdpSystem.KeepsHeld`, `UdpSystem.Spares`: what must not happen, and when it does not
-/

namespace Ringfire

open PayloadArena

variable {ρ : Type} {w : ℕ}

/-- `UDP_MAX_PAYLOAD`. -/
def udpMaxPayload : ℕ := 65507

/-! ## The sender -/

/-- What becomes of a datagram. -/
inductive SendOutcome where
  | sent
  | dropped
  /-- The host refuses datagrams of this size. -/
  | refused
  deriving DecidableEq

/-- The thread of `udp_loop`. -/
structure UdpSender (w : ℕ) where
  cursor : ℕ
  maxBytes : ℕ
  pc : TcpPc w

/-- A step of `udp_loop`: a memory access of `collect`, whether there is time left to linger, what
becomes of the datagram, or what comes next, with whether a heartbeat is due. -/
inductive SendLabel (w : ℕ) where
  | read (a : ReadLabel w)
  | linger (more : Bool)
  | send (outcome : SendOutcome)
  | next (beat : Bool)

namespace UdpSender

/-- The top of the loop. -/
def loop (batch cursor maxBytes : ℕ) : TcpPc w :=
  .collect (Gather.start cursor (SourceRing.clampBatch batch) maxBytes)

/-- `udp_loop` starts behind what is published. -/
def start (batch mtu writeSeq : ℕ) : UdpSender w :=
  let maxBytes := max mtu (frameHeaderLen + 1)
  ⟨writeSeq + 1, maxBytes, loop batch (writeSeq + 1) maxBytes⟩

/-- What comes after the records were sent. -/
def afterSend (batch cursor maxBytes : ℕ) (got : Collected) : TcpPc w :=
  match got.lapped with
  | some seen => .resync seen
  | none => if got.lost then .lost else if got.count = 0 then .idle else loop batch cursor maxBytes

/-- The datagram with the records gathered. -/
def datagram (session : UInt8) (cursor : ℕ) (got : Collected) (out : List Record) : List UInt8 :=
  (dataFrame session.toNat got.count cursor (out.flatMap Record.bytes)).encode ++
    out.flatMap Record.bytes

/-- `max_bytes` after a datagram. -/
def limit (maxBytes : ℕ) (out : List Record) : SendOutcome → ℕ
  | .refused => max (min maxBytes (wireLen out - 1)) (frameHeaderLen + 1)
  | _ => maxBytes

/-- The records gathered are sent. -/
def send (session : UInt8) (batch : ℕ) (t : UdpSender w) (got : Collected) (out : List Record)
    (outcome : SendOutcome) : UdpSender w × List (List UInt8) :=
  let cursor := t.cursor + got.count
  if 0 < got.count then
    if udpMaxPayload < wireLen out then
      -- too long for a datagram: the mirrors fetch it over TCP
      ({ t with cursor := cursor, pc := loop batch cursor t.maxBytes }, [])
    else
      -- a size the host refuses to send is remembered as the limit
      let maxBytes := limit t.maxBytes out outcome
      (⟨cursor, maxBytes, afterSend batch cursor maxBytes got⟩,
        if outcome = .sent then [datagram session t.cursor got out] else [])
  else ({ t with pc := afterSend batch cursor t.maxBytes got }, [])

/-- One step of `udp_loop`, with the datagrams it sends. -/
def step (cfg : SourceConfig w) (session : UInt8) (batch : ℕ) (s : Source ρ w) (t : UdpSender w) :
    SendLabel w → Option (UdpSender w × List (List UInt8))
  | .read a =>
    match t.pc with
    | .collect g =>
      match g.step cfg s a with
      | some (.going g) => some ({ t with pc := .collect g }, [])
      | some (.done got out) => some ({ t with pc := .linger got out }, [])
      | none => none
    | _ => none
  | .linger more =>
    match t.pc with
    | .linger got out =>
      if got.count = 0 ∨ got.full (SourceRing.clampBatch batch) t.maxBytes out ∨ more = false then
        some ({ t with pc := .send got out }, [])
      else
        some ({ t with
          pc := .collect (Gather.again t.cursor (SourceRing.clampBatch batch) t.maxBytes got out) },
          [])
    | _ => none
  | .send outcome =>
    match t.pc with
    | .send got out => some (t.send session batch got out outcome)
    | _ => none
  | .next beat =>
    match t.pc with
    | .resync seen =>
      -- no `GAP`: the mirrors notice the jump
      let target := oldestRetained (max s.sys.mem.writeSeq seen) cfg.ring.cap.val
      let cursor := if t.cursor < target then target else t.cursor
      some ({ t with cursor := cursor, pc := loop batch cursor t.maxBytes }, [])
    -- no `GAP` either: the mirrors ask and get it over TCP
    | .lost =>
      some ({ t with cursor := t.cursor + 1, pc := loop batch (t.cursor + 1) t.maxBytes }, [])
    -- what this sender has put on the wire, not `write_seq`
    | .idle =>
      some ({ t with pc := loop batch t.cursor t.maxBytes },
        if beat then [(Frame.mk kindHeartbeat session.toNat 0 0 (t.cursor - 1)).encode] else [])
    | _ => none

end UdpSender

/-! ## The answers to a `NAK` -/

/-- Where `serve_range` stands; `last` is the end of the range. -/
inductive RangePc (w : ℕ) where
  | idle
  | oldest (last : ℕ)
  | collect (last : ℕ) (g : Gather w)
  | send (last : ℕ) (got : Collected) (out : List Record)
  | resync (last seen : ℕ)
  | lost (last : ℕ)

/-- The thread that answers the `NAK`s of a mirror. -/
structure RangeServer (w : ℕ) where
  cursor : ℕ
  pc : RangePc w

/-- A step of `serve_range`: a memory access of `collect`, or what comes next. -/
inductive RangeLabel (w : ℕ) where
  | read (a : ReadLabel w)
  | next

namespace RangeServer

/-- `serve_range` is called. -/
def answer (nak : Nak) : RangeServer w := ⟨max nak.first 1, .oldest nak.last⟩

/-- The condition of the loop. -/
def loop (batch cursor last : ℕ) : RangePc w :=
  if cursor ≤ last then
    .collect last (Gather.start cursor (min (SourceRing.clampBatch batch) (last - cursor + 1))
      tcpFrameBytes)
  else .idle

/-- What comes after the frame with the records was written. -/
def afterSend (batch cursor last : ℕ) (got : Collected) : RangePc w :=
  match got.lapped with
  | some seen => .resync last seen
  | none => if got.lost then .lost last else if got.count = 0 then .idle else loop batch cursor last

/-- Goes on at `target`, after a `GAP` if that is further on. -/
def resync (batch last target : ℕ) (t : RangeServer w) : RangeServer w × List UInt8 :=
  if t.cursor < target then
    (⟨target, loop batch target last⟩, (Frame.control kindGap target).encode)
  else (⟨t.cursor, loop batch t.cursor last⟩, [])

/-- One step of `serve_range`, with what it puts on the stream. -/
def step (cfg : SourceConfig w) (batch : ℕ) (s : Source ρ w) (t : RangeServer w) :
    RangeLabel w → Option (RangeServer w × List UInt8)
  | .read a =>
    match t.pc with
    | .collect last g =>
      match g.step cfg s a with
      | some (.going g) => some ({ t with pc := .collect last g }, [])
      | some (.done got out) => some ({ t with pc := .send last got out }, [])
      | none => none
    | _ => none
  | .next =>
    match t.pc with
    -- the range may start before the oldest message retained
    | .oldest last =>
      some (t.resync batch last (oldestRetained s.sys.mem.writeSeq cfg.ring.cap.val))
    | .send last got out =>
      some (⟨t.cursor + got.count, afterSend batch (t.cursor + got.count) last got⟩,
        TcpServer.dataWire t.cursor got out)
    | .resync last seen =>
      some (t.resync batch last (oldestRetained (max s.sys.mem.writeSeq seen) cfg.ring.cap.val))
    | .lost last =>
      some (⟨t.cursor + 1, loop batch (t.cursor + 1) last⟩,
        (Frame.control kindGap (t.cursor + 1)).encode)
    | _ => none

end RangeServer

/-! ## The mirror -/

namespace Mirror

/-- A frame of the TCP connection is handled, with what is left of the stream; `none` while it is
not all there. -/
def stepControl (g : Geometry w) (env : Env) (m : Mirror w) (wire : List UInt8) :
    Option ((Except RingfireError Unit × Mirror w) × List UInt8) :=
  let f := Frame.decode (wire.take frameHeaderLen)
  let rest := wire.drop frameHeaderLen
  if wire.length < frameHeaderLen ∨ rest.length < bodyLen g f then none
  else
    (m.handleControl g env f (rest.take (bodyLen g f))).map fun r => (r, rest.drop (bodyLen g f))

end Mirror

/-! ## The system -/

/-- A mirror and its connection. -/
structure UdpConn (w : ℕ) where
  server : RangeServer w
  /-- What the server has put on the stream and the mirror has not read. -/
  wire : List UInt8
  /-- How many `NAK`s the server has read. -/
  answered : ℕ
  mirror : Mirror w
  /-- The error that ended `run`. -/
  failed : Option RingfireError

/-- A source that sends datagrams, and a mirror of it. -/
structure UdpSystem (ρ : Type) (w : ℕ) where
  source : Source ρ w
  sender : Option (UdpSender w)
  /-- Every datagram that was sent. -/
  datagrams : List (List UInt8)
  /-- The ring file at the path of the mirror before it connects. -/
  file : RingFile w
  conn : Option (UdpConn w)

/-- Who moves. -/
inductive UdpLabel (ρ : Type) (w : ℕ) where
  | source (a : SourceLabel ρ w)
  | listen (mtu : ℕ)
  | send (a : SendLabel w)
  | connect (start : MirrorStart)
  | answer
  | serve (a : RangeLabel w)
  | datagram (env : Env) (i : ℕ)
  | control (env : Env)
  | timeout (env : Env)

namespace UdpConn

/-- A connection right after `connect`. -/
def opened (cfg : SourceConfig w) (writeSeq : ℕ) (start : MirrorStart) (file : RingFile w) :
    UdpConn w :=
  let c := connect cfg.ring.cap writeSeq start file
  ⟨⟨1, .idle⟩, [], 0, ⟨c.ring, c.first - 1, 0, none, [], []⟩, none⟩

/-- The mirror has handled something. -/
def handled (c : UdpConn w) (r : Except RingfireError Unit × Mirror w) (wire : List UInt8) :
    UdpConn w :=
  { c with
    wire := wire
    mirror := r.2
    failed := match r.1 with
      | .ok _ => none
      | .error e => some e }

/-- The server reads the next `NAK`. -/
def answer (c : UdpConn w) : Option (UdpConn w) :=
  match c.server.pc, c.mirror.requested[c.answered]? with
  | .idle, some nak => some { c with server := .answer nak, answered := c.answered + 1 }
  | _, _ => none

/-- The mirror handles a datagram or a timeout, unless an earlier step failed. -/
def receive (g : Geometry w) (session : UInt8) (env : Env) (c : UdpConn w) (a : MirrorInput) :
    Option (UdpConn w) :=
  match c.failed with
  | none => (c.mirror.receive g session env a).map fun r => c.handled r c.wire
  | some _ => none

/-- The mirror handles a frame of the connection, unless an earlier step failed. -/
def control (g : Geometry w) (env : Env) (c : UdpConn w) : Option (UdpConn w) :=
  match c.failed with
  | none => (c.mirror.stepControl g env c.wire).map fun (r, wire) => c.handled r wire
  | some _ => none

/-- The frame at the head of the stream is no `GAP` that leads over a record the mirror keeps
aside. -/
def Spares (c : UdpConn w) : Prop :=
  (Frame.decode (c.wire.take frameHeaderLen)).kind = kindGap →
    ∀ k, c.mirror.Holding k → c.mirror.ring.nextSeq ≤ k →
      (Frame.decode (c.wire.take frameHeaderLen)).seq ≤ k

end UdpConn

namespace UdpSystem

/-- A fresh source, and whatever is at the path of the mirror. -/
def create (ρ : Type) (cfg : SourceConfig w) (file : RingFile w) : UdpSystem ρ w :=
  ⟨.create ρ cfg, none, [], file, none⟩

/-- One step. -/
def step [DecidableEq ρ] (cfg : SourceConfig w) (session : UInt8) (batch : ℕ) (s : UdpSystem ρ w) :
    UdpLabel ρ w → Option (UdpSystem ρ w)
  | .source a => (s.source.step cfg a).map fun source => { s with source := source }
  | .listen mtu =>
    match s.sender with
    | none => some { s with sender := some (.start batch mtu s.source.sys.mem.writeSeq) }
    | some _ => none
  | .send a =>
    match s.sender with
    | some t =>
      (t.step cfg session batch s.source a).map fun (t, sent) =>
        { s with sender := some t, datagrams := s.datagrams ++ sent }
    | none => none
  | .connect start =>
    match s.conn with
    | none => some { s with conn := some (.opened cfg s.source.sys.mem.writeSeq start s.file) }
    | some _ => none
  | .answer => s.conn.bind fun c => c.answer.map fun c => { s with conn := some c }
  | .serve a =>
    match s.conn with
    | some c =>
      (c.server.step cfg batch s.source a).map fun (server, bytes) =>
        { s with conn := some { c with server := server, wire := c.wire ++ bytes } }
    | none => none
  -- a datagram arrives late, twice or never: any one sent so far is handled at any time
  | .datagram env i =>
    match s.conn, s.datagrams[i]? with
    | some c, some bytes =>
      (c.receive cfg.geometry session env (.datagram bytes)).map fun c => { s with conn := some c }
    | _, _ => none
  | .control env =>
    s.conn.bind fun c => (c.control cfg.geometry env).map fun c => { s with conn := some c }
  | .timeout env =>
    s.conn.bind fun c =>
      (c.receive cfg.geometry session env .timeout).map fun c => { s with conn := some c }

/-- A step that loses no record the mirror keeps aside. -/
def KeepsHeld (s s' : UdpSystem ρ w) : Prop :=
  ∀ c c', s.conn = some c → s'.conn = some c' → c.mirror.KeepsHeld c'.mirror

/-- A step that is not this: the mirror handles a `GAP` that leads over a record it keeps aside. -/
def Spares (s : UdpSystem ρ w) (a : UdpLabel ρ w) : Prop :=
  ∀ env c, a = .control env → s.conn = some c → c.Spares

end UdpSystem

end Ringfire
