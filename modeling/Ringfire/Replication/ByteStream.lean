import Ringfire.Foundation.Pipe
import Ringfire.Foundation.Simulation
import Ringfire.Replication.TcpDelivery

/-!
# The bytes between a source and a mirror

A TCP stream does not know where a frame ends. `write_all` hands a frame over in as many pieces as
the socket takes, and `read_full` asks for a header, gets it in as many pieces as there are, with
`WouldBlock` and `Interrupted` in between, looks at it, and asks for the records. Either end can be
gone in the middle of a frame.

The system of this file moves bytes. It is compared with `TcpSystem`, whose stream hands over a
frame at a time.

## Main definitions

* `StreamConn`: a connection, with the bytes that are under way
* `StreamSystem.step`: the source, the connection and the mirror
* `StreamSystem.toTcp`: the same without the pieces

## Main results

* `TcpServer.step_wire`: what the server does next does not depend on what it has written
* `stream_refines`: the pieces make no difference
* `stream_handles`: a whole frame is handled before long, in whatever pieces it comes
-/

namespace Ringfire

open PayloadArena Transition

variable {ρ : Type} {w : ℕ}

/-! ## Model -/

/-- What `Mirror::step` asks `read_full` for. -/
inductive FramePart where
  | header
  | records
  deriving DecidableEq

/-- A connection between sockets. -/
structure StreamConn (w : ℕ) where
  /-- The stream of `conn` is empty: `pipe` has the bytes. -/
  conn : TcpConn w
  pipe : Pipe UInt8
  part : FramePart
  /-- The source has closed its socket, or `write_all` has failed. -/
  closed : Bool

namespace StreamConn

/-- The header, once it was read. -/
def frame (c : StreamConn w) : Frame := Frame.decode (c.pipe.held.take frameHeaderLen)

/-- How many bytes of a frame have been asked for. -/
def want (c : StreamConn w) : ℕ :=
  match c.part with
  | .header => frameHeaderLen
  | .records => frameHeaderLen + c.frame.len

/-- The frame was handled. -/
def handled (c : StreamConn w) (r : Except RingfireError Unit × Mirror w) : StreamConn w :=
  { c with
    conn := { c.conn with
      mirror := r.2
      failed := match r.1 with
        | .ok _ => none
        | .error e => some e }
    pipe := c.pipe.finish
    part := .header }

/-- What `step` does once it has the bytes it asked for. -/
def proceed (g : Geometry w) (c : StreamConn w) : Option (StreamConn w) :=
  match c.part with
  | .header =>
    if c.frame.kind = kindData ∧ frameSizesOk g c.frame.count c.frame.len = true then
      some { c with part := .records }
    else (c.conn.mirror.handle g c.frame []).map c.handled
  | .records =>
    (c.conn.mirror.handle g c.frame (c.pipe.held.drop frameHeaderLen)).map c.handled

/-- A connection right after `connect`. -/
def opened (cfg : SourceConfig w) (batch writeSeq : ℕ) (start : MirrorStart) (file : RingFile w) :
    StreamConn w :=
  ⟨.opened cfg batch writeSeq start file, .empty, .header, false⟩

/-- `serve_client` goes on when `write_all` has returned. -/
def serve (cfg : SourceConfig w) (batch : ℕ) (s : Source ρ w) (c : StreamConn w)
    (a : ServeLabel w) : Option (StreamConn w) :=
  if c.closed = false ∧ c.pipe.unsent = [] then
    (c.conn.server.step cfg batch s a).map fun t =>
      { c with
        conn := { c.conn with server := { t with wire := [] } }
        pipe := c.pipe.post t.wire }
  else none

/-- The connection, with all its bytes on one stream. -/
def toTcp (c : StreamConn w) : TcpConn w :=
  { c.conn with server := { c.conn.server with wire := c.pipe.stream } }

end StreamConn

/-- What the sockets and the two programs do next. -/
inductive ConnLabel (w : ℕ) where
  | serve (a : ServeLabel w)
  /-- The socket takes `n` bytes from `write_all`. -/
  | write (n : ℕ)
  /-- The source closes its socket, or is gone. -/
  | close
  /-- The socket has `n` bytes for `read_full`. -/
  | read (n : ℕ)
  /-- `read_full` is told `WouldBlock` or `Interrupted`. -/
  | retry
  | proceed

/-- `write`, `read` or `proceed`. -/
def ConnLabel.Transfers : ConnLabel w → Prop
  | .write _ | .read _ | .proceed => True
  | _ => False

/-- One step of a connection. -/
def StreamConn.step (cfg : SourceConfig w) (batch : ℕ) (s : Source ρ w) (c : StreamConn w) :
    ConnLabel w → Option (StreamConn w)
  | .serve a => c.serve cfg batch s a
  | .write n =>
    if c.closed = false then (c.pipe.write n).map fun p => { c with pipe := p } else none
  | .close => some { c with closed := true }
  | .read n =>
    if c.conn.failed = none then (c.pipe.read c.want n).map fun p => { c with pipe := p } else none
  | .retry => some c
  | .proceed =>
    if c.conn.failed = none ∧ c.pipe.held.length = c.want then c.proceed cfg.geometry else none

/-- A source, and a mirror of it. -/
structure StreamSystem (ρ : Type) (w : ℕ) where
  source : Source ρ w
  file : RingFile w
  conn : Option (StreamConn w)

/-- Who moves. -/
inductive StreamLabel (ρ : Type) (w : ℕ) where
  | source (a : SourceLabel ρ w)
  | connect (start : MirrorStart)
  | conn (a : ConnLabel w)
  /-- The mirror reads the end of the stream, or a reset, or is gone. -/
  | disconnect

namespace StreamSystem

/-- A fresh source, and whatever is at the path of the mirror. -/
def create (ρ : Type) (cfg : SourceConfig w) (file : RingFile w) : StreamSystem ρ w :=
  ⟨.create ρ cfg, file, none⟩

/-- One step. -/
def step [DecidableEq ρ] (cfg : SourceConfig w) (batch : ℕ) (s : StreamSystem ρ w) :
    StreamLabel ρ w → Option (StreamSystem ρ w)
  | .source a => (s.source.step cfg a).map fun source => { s with source := source }
  | .connect start =>
    match s.conn with
    | none =>
      some { s with conn := some (.opened cfg batch s.source.sys.mem.writeSeq start s.file) }
    | some _ => none
  | .conn a =>
    match s.conn with
    | some c => (c.step cfg batch s.source a).map fun c => { s with conn := some c }
    | none => none
  | .disconnect =>
    match s.conn with
    | some c => some { s with file := .mirror c.conn.mirror.ring, conn := none }
    | none => none

/-- The system, with all the bytes of its connection on one stream. -/
def toTcp (s : StreamSystem ρ w) : TcpSystem ρ w := ⟨s.source, s.file, s.conn.map StreamConn.toTcp⟩

end StreamSystem

/-! ## The server -/

namespace TcpServer

variable {cfg : SourceConfig w} {batch : ℕ} {s : Source ρ w} {t t' : TcpServer w}

/-- **What the server does next, and what it writes, does not depend on what it has written.** -/
theorem step_wire {a : ServeLabel w} (h : t.step cfg batch s a = some t') :
    ∃ more, t'.wire = t.wire ++ more ∧ ∀ wire,
      ({ t with wire := wire } : TcpServer w).step cfg batch s a =
        some { t' with wire := wire ++ more } := by
  obtain ⟨cursor, pc, front, passed⟩ := t
  cases a with
  | read a =>
    cases pc with
    | collect g =>
      simp only [step] at h ⊢
      cases hg : g.step cfg s a with
      | none =>
        rw [hg] at h
        cases h
      | some r =>
        rw [hg] at h
        cases r <;> cases h <;>
          exact ⟨[], (List.append_nil _).symm, fun wire => by rw [List.append_nil]⟩
    | _ => cases h
  | linger more =>
    cases pc with
    | linger got out =>
      simp only [step] at h ⊢
      split_ifs at h ⊢ <;> cases h <;>
        exact ⟨[], (List.append_nil _).symm, fun wire => by rw [List.append_nil]⟩
    | _ => cases h
  | next beat =>
    cases pc with
    | send got out =>
      cases h
      exact ⟨_, rfl, fun wire => rfl⟩
    | resync seen =>
      simp only [step] at h ⊢
      split_ifs at h ⊢ <;> cases h
      · exact ⟨_, rfl, fun wire => rfl⟩
      · exact ⟨[], (List.append_nil _).symm, fun wire => by rw [List.append_nil]⟩
    | lost =>
      cases h
      exact ⟨_, rfl, fun wire => rfl⟩
    | idle =>
      cases h
      exact ⟨_, rfl, fun wire => rfl⟩
    | _ => cases h

end TcpServer

/-! ## One connection -/

/-- A frame that was read whole is the first one on the stream. -/
theorem Mirror.stepTcp_append {g : Geometry w} (m : Mirror w) {held : List UInt8}
    (hlen : held.length = frameHeaderLen + bodyLen g (Frame.decode (held.take frameHeaderLen)))
    (rest : List UInt8) :
    m.stepTcp g (held ++ rest) =
      (m.handle g (Frame.decode (held.take frameHeaderLen)) (held.drop frameHeaderLen)).map
        fun r => (r, rest) := by
  have hle : frameHeaderLen ≤ held.length := by omega
  have htake : (held ++ rest).take frameHeaderLen = held.take frameHeaderLen :=
    List.take_append_of_le_length hle
  have hdrop : (held ++ rest).drop frameHeaderLen = held.drop frameHeaderLen ++ rest :=
    List.drop_append_of_le_length hle
  have hbody : (held.drop frameHeaderLen).length =
      bodyLen g (Frame.decode (held.take frameHeaderLen)) := by
    rw [List.length_drop]
    omega
  unfold stepTcp
  rw [htake, hdrop, if_neg (by rw [List.length_append, List.length_append]; omega),
    List.take_left' hbody, List.drop_left' hbody]

namespace StreamConn

variable {cfg : SourceConfig w} {batch : ℕ} {s : Source ρ w} {g : Geometry w}
  {c c' : StreamConn w}

/-- What holds of the bytes. -/
structure Inv (g : Geometry w) (c : StreamConn w) : Prop where
  wire : c.conn.server.wire = []
  asked : c.pipe.Asked c.want
  records : c.part = .records → frameHeaderLen ≤ c.pipe.held.length ∧ c.frame.kind = kindData ∧
    frameSizesOk g c.frame.count c.frame.len = true

theorem Inv.opened {batch writeSeq : ℕ} {start : MirrorStart} {file : RingFile w} :
    (StreamConn.opened cfg batch writeSeq start file).Inv g :=
  ⟨rfl, Nat.zero_le _, by rintro ⟨⟩⟩

/-- Reading on does not change a header that was read. -/
theorem frame_append {p : Pipe UInt8} (hle : frameHeaderLen ≤ c.pipe.held.length)
    (h : c.pipe.held <+: p.held) : ({ c with pipe := p } : StreamConn w).frame = c.frame := by
  obtain ⟨more, hmore⟩ := h
  simp only [frame, ← hmore, List.take_append_of_le_length hle]

/-- How many bytes are wanted does not change before they are there. -/
theorem Inv.want_read (h : c.Inv g) {p : Pipe UInt8} (hp : c.pipe.held <+: p.held) :
    ({ c with pipe := p } : StreamConn w).want = c.want := by
  cases hpart : c.part with
  | header => simp only [want, hpart]
  | records =>
    have hframe := frame_append (h.records hpart).1 hp
    simp only [want, hpart]
    exact congrArg (fun f => frameHeaderLen + f.len) hframe

theorem Inv.read (h : c.Inv g) {n : ℕ} {p : Pipe UInt8} (hp : c.pipe.read c.want n = some p) :
    ({ c with pipe := p } : StreamConn w).Inv g where
  wire := h.wire
  asked := by
    rw [h.want_read (Pipe.read_held hp)]
    exact .read hp
  records := by
    intro hpart
    have hrecords := h.records hpart
    have hprefix := Pipe.read_held hp
    rw [frame_append hrecords.1 hprefix]
    exact ⟨hrecords.1.trans hprefix.length_le, hrecords.2⟩

theorem Inv.write (h : c.Inv g) {n : ℕ} {p : Pipe UInt8} (hp : c.pipe.write n = some p) :
    ({ c with pipe := p } : StreamConn w).Inv g := by
  have hheld := Pipe.write_held hp
  have hframe : ({ c with pipe := p } : StreamConn w).frame = c.frame := by
    simp only [frame, hheld]
  refine ⟨h.wire, ?_, fun hpart => ?_⟩
  · rw [h.want_read (hheld ▸ List.prefix_refl _), Pipe.Asked, hheld]
    exact h.asked
  · rw [hframe, hheld]
    exact h.records hpart

/-- The bytes of the server come at the end of the stream. -/
theorem Inv.serve (h : c.Inv g) {a : ServeLabel w} (hs : c.serve cfg batch s a = some c') :
    c'.Inv g ∧ ∃ t, c.toTcp.server.step cfg batch s a = some t ∧
      c'.toTcp = { c.toTcp with server := t } := by
  unfold StreamConn.serve at hs
  split_ifs at hs with hidle
  obtain ⟨t, ht, rfl⟩ := Option.map_eq_some_iff.mp hs
  obtain ⟨more, hmore, hstep⟩ := TcpServer.step_wire ht
  rw [h.wire, List.nil_append] at hmore
  subst hmore
  exact ⟨⟨rfl, h.asked, h.records⟩, _, hstep c.pipe.stream, by
    simp only [toTcp, Pipe.post_stream]⟩

/-- A frame that is handled is the one that the mirror takes off the stream. -/
theorem receive_handled {r : Except RingfireError Unit × Mirror w}
    (hfailed : c.conn.failed = none)
    (hlen : c.pipe.held.length = frameHeaderLen + Mirror.bodyLen g c.frame)
    (hr : c.conn.mirror.handle g c.frame (c.pipe.held.drop frameHeaderLen) = some r) :
    c.toTcp.receive g = some (c.handled r).toTcp := by
  have hstep := c.conn.mirror.stepTcp_append hlen c.pipe.finish.stream
  rw [← Pipe.finish_stream] at hstep
  unfold frame at hr
  rw [hr] at hstep
  obtain ⟨res, m⟩ := r
  cases res <;> simp only [TcpConn.receive, toTcp, hfailed, hstep, handled, Option.map_some]

/-- **What `step` does with the bytes it asked for**: it asks for the records, or handles the frame
that the mirror takes off the stream. -/
theorem Inv.proceed (h : c.Inv g) (hfailed : c.conn.failed = none)
    (hlen : c.pipe.held.length = c.want) (hp : c.proceed g = some c') :
    c'.Inv g ∧ (c.part = .header ∧ c' = { c with part := .records } ∨
      c.toTcp.receive g = some c'.toTcp ∧ c'.pipe.held = [] ∧ c'.part = .header ∧
        c'.closed = c.closed) := by
  unfold StreamConn.proceed at hp
  cases hpart : c.part with
  | header =>
    simp only [want, hpart] at hlen
    simp only [hpart] at hp
    split_ifs at hp with hdata
    · cases hp
      refine ⟨⟨h.wire, ?_, fun _ => ⟨hlen.ge, hdata⟩⟩, .inl ⟨rfl, rfl⟩⟩
      exact hlen.le.trans (Nat.le_add_right _ _)
    · obtain ⟨r, hr, rfl⟩ := Option.map_eq_some_iff.mp hp
      refine ⟨⟨h.wire, Nat.zero_le _, by rintro ⟨⟩⟩,
        .inr ⟨receive_handled hfailed ?_ ?_, rfl, rfl, rfl⟩⟩
      · rw [Mirror.bodyLen, if_neg hdata, hlen, Nat.add_zero]
      · rwa [List.drop_eq_nil_of_le hlen.le]
  | records =>
    simp only [want, hpart] at hlen
    simp only [hpart] at hp
    obtain ⟨r, hr, rfl⟩ := Option.map_eq_some_iff.mp hp
    refine ⟨⟨h.wire, Nat.zero_le _, by rintro ⟨⟩⟩,
      .inr ⟨receive_handled hfailed ?_ hr, rfl, rfl, rfl⟩⟩
    rw [Mirror.bodyLen, if_pos (h.records hpart).2, hlen]

/-- A handled frame is what `receive` leaves. -/
theorem Inv.exists_proceed (h : c.Inv g) (hfailed : c.conn.failed = none)
    (hlen : c.pipe.held.length = c.want) (hdata : c.part = .header →
      ¬ (c.frame.kind = kindData ∧ frameSizesOk g c.frame.count c.frame.len = true))
    {r : TcpConn w} (hr : c.toTcp.receive g = some r) :
    ∃ c', c.proceed g = some c' ∧ c'.toTcp = r := by
  have hwhole : c.pipe.held.length = frameHeaderLen + Mirror.bodyLen g c.frame := by
    cases hpart : c.part with
    | header => simp only [hlen, want, hpart, Mirror.bodyLen, if_neg (hdata hpart), Nat.add_zero]
    | records => simp only [hlen, want, hpart, Mirror.bodyLen, if_pos (h.records hpart).2]
  have hstep := c.conn.mirror.stepTcp_append hwhole c.pipe.finish.stream
  rw [← Pipe.finish_stream] at hstep
  cases hh : c.conn.mirror.handle g c.frame (c.pipe.held.drop frameHeaderLen) with
  | none =>
    unfold frame at hh
    rw [hh] at hstep
    simp only [TcpConn.receive, toTcp, hfailed, hstep, Option.map_none] at hr
    cases hr
  | some x =>
    refine ⟨c.handled x, ?_, ?_⟩
    · cases hpart : c.part with
      | header =>
        simp only [want, hpart] at hlen
        rw [List.drop_eq_nil_of_le hlen.le] at hh
        simp only [StreamConn.proceed, hpart, if_neg (hdata hpart), hh, Option.map_some]
      | records => simp only [StreamConn.proceed, hpart, hh, Option.map_some]
    · exact Option.some.inj ((receive_handled hfailed hwhole hh).symm.trans hr)

/-- The bytes of a connection that is not waiting for any. -/
structure Settled (c : StreamConn w) : Prop where
  wire : c.conn.server.wire = []
  unsent : c.pipe.unsent = []
  held : c.pipe.held = []
  part : c.part = .header
  closed : c.closed = false

theorem Settled.inv (h : c.Settled) : c.Inv g where
  wire := h.wire
  asked := by
    rw [Pipe.Asked, h.held]
    exact Nat.zero_le _
  records := by
    rw [h.part]
    rintro ⟨⟩

/-- The stream is the same with other bytes under way. -/
theorem toTcp_pipe {p : Pipe UInt8} (h : p.stream = c.pipe.stream) :
    ({ c with pipe := p } : StreamConn w).toTcp = c.toTcp := by
  simp only [toTcp, h]

/-- `write_all` can return. -/
theorem exists_written (cfg : SourceConfig w) (batch : ℕ) (s : Source ρ w)
    (hclosed : c.closed = false) :
    ∃ p, Reaches (StreamConn.step cfg batch s) c { c with pipe := p } ∧
      p.stream = c.pipe.stream ∧ p.unsent = [] ∧ p.held = c.pipe.held := by
  obtain ⟨p, hp | ⟨n, hp⟩, hunsent, hheld⟩ := c.pipe.exists_written
  · subst hp
    exact ⟨c.pipe, .refl c, rfl, hunsent, hheld⟩
  · refine ⟨p, .single (a := .write n) ?_, Pipe.write_stream hp, hunsent, hheld⟩
    simp only [StreamConn.step, if_pos hclosed, hp, Option.map_some]

/-- The server can go on when `write_all` has returned. -/
theorem exists_serve (hclosed : c.closed = false) (hunsent : c.pipe.unsent = [])
    (hwire : c.conn.server.wire = []) {a : ServeLabel w} {t : TcpServer w}
    (hs : c.toTcp.server.step cfg batch s a = some t) : ∃ c', c.serve cfg batch s a = some c' := by
  obtain ⟨more, -, hstep⟩ := TcpServer.step_wire hs
  have hserver : c.conn.server = { c.toTcp.server with wire := [] } := by
    rw [← hwire]
    rfl
  rw [StreamConn.serve, if_pos ⟨hclosed, hunsent⟩, hserver, hstep []]
  exact ⟨_, rfl⟩

/-- The server does nothing to what the mirror has read. -/
theorem serve_reader {a : ServeLabel w} (h : c.serve cfg batch s a = some c') :
    c'.pipe.held = c.pipe.held ∧ c'.part = c.part ∧ c'.closed = c.closed := by
  unfold StreamConn.serve at h
  split_ifs at h
  obtain ⟨t, -, rfl⟩ := Option.map_eq_some_iff.mp h
  exact ⟨rfl, rfl, rfl⟩

/-- **A step of the server**, with all that it writes taken. -/
theorem Settled.serve (h : c.Settled) {a : ServeLabel w} {t : TcpServer w}
    (hs : c.toTcp.server.step cfg batch s a = some t) :
    ∃ c', Reaches (StreamConn.step cfg batch s) c c' ∧ c'.Settled ∧
      c'.toTcp = { c.toTcp with server := t } := by
  obtain ⟨c₁, hc₁⟩ := exists_serve h.closed h.unsent h.wire hs
  obtain ⟨hinv, t', ht', htcp⟩ := (h.inv (g := cfg.geometry)).serve hc₁
  rw [hs] at ht'
  cases ht'
  obtain ⟨hheld, hpart, hclosed⟩ := serve_reader hc₁
  obtain ⟨p, hp, hstream, hunsent, hkept⟩ :=
    exists_written cfg batch s (hclosed.trans h.closed)
  exact ⟨_, .trans (.single (a := .serve a) hc₁) hp,
    ⟨hinv.wire, hunsent, hkept.trans (hheld.trans h.held), hpart.trans h.part,
      hclosed.trans h.closed⟩, (toTcp_pipe hstream).trans htcp⟩

/-- What `receive` needs is on the stream. -/
theorem le_of_receive {r : TcpConn w} (hr : c.toTcp.receive g = some r) :
    c.conn.failed = none ∧
      frameHeaderLen + Mirror.bodyLen g (Frame.decode (c.pipe.stream.take frameHeaderLen)) ≤
        c.pipe.stream.length := by
  have hfailed : c.conn.failed = none := by
    by_contra hne
    obtain ⟨e, he⟩ := Option.ne_none_iff_exists'.mp hne
    simp only [TcpConn.receive, toTcp, he] at hr
    cases hr
  refine ⟨hfailed, ?_⟩
  by_contra hlt
  have hnone : c.conn.mirror.stepTcp g c.pipe.stream = none := by
    unfold Mirror.stepTcp
    rw [if_pos]
    rw [List.length_drop]
    omega
  simp only [TcpConn.receive, toTcp, hfailed, hnone] at hr
  cases hr

/-- The header that was read is the first one on the stream. -/
theorem frame_eq (h : frameHeaderLen ≤ c.pipe.held.length) :
    c.frame = Frame.decode (c.pipe.stream.take frameHeaderLen) := by
  rw [frame, Pipe.stream, List.append_assoc, List.take_append_of_le_length h]

/-- All that is asked for is on the stream, when there is a whole frame. -/
theorem Inv.want_le (h : c.Inv g) {r : TcpConn w} (hr : c.toTcp.receive g = some r) :
    c.want ≤ c.pipe.stream.length := by
  obtain ⟨-, hle⟩ := le_of_receive hr
  cases hpart : c.part with
  | header =>
    simp only [want, hpart]
    omega
  | records =>
    obtain ⟨hlen, hdata⟩ := h.records hpart
    rw [← frame_eq hlen, Mirror.bodyLen, if_pos hdata] at hle
    simpa only [want, hpart] using hle

/-- How many steps it takes at most to handle what is under way. -/
def effort (c : StreamConn w) : ℕ :=
  c.pipe.lag + match c.part with
    | .header => 1
    | .records => 0

/-- The frame was handled, and nothing was read since. -/
structure Meets (g : Geometry w) (r : TcpConn w) (c : StreamConn w) : Prop where
  inv : c.Inv g
  toTcp : c.toTcp = r
  held : c.pipe.held = []
  part : c.part = .header
  closed : c.closed = false

/-- The frame is on the stream and was not handled. -/
structure Awaits (g : Geometry w) (r : TcpConn w) (c : StreamConn w) : Prop where
  inv : c.Inv g
  receive : c.toTcp.receive g = some r
  closed : c.closed = false

/-- **A piece moved, or a part of the frame read**, brings the mirror closer to having handled the
frame. -/
theorem Awaits.step {r : TcpConn w} (h : c.Awaits cfg.geometry r) {a : ConnLabel w}
    (ha : a.Transfers) (hstep : c.step cfg batch s a = some c') :
    c'.Meets cfg.geometry r ∨ c'.Awaits cfg.geometry r ∧ c'.effort < c.effort := by
  cases a with
  | serve | close | retry => exact ha.elim
  | write n =>
    simp only [StreamConn.step, if_pos h.closed] at hstep
    obtain ⟨p, hp, rfl⟩ := Option.map_eq_some_iff.mp hstep
    refine .inr ⟨⟨h.inv.write hp, ?_, h.closed⟩, Nat.add_lt_add_right (Pipe.write_lag hp) _⟩
    rw [toTcp_pipe (Pipe.write_stream hp)]
    exact h.receive
  | read n =>
    simp only [StreamConn.step] at hstep
    split_ifs at hstep
    obtain ⟨p, hp, rfl⟩ := Option.map_eq_some_iff.mp hstep
    refine .inr ⟨⟨h.inv.read hp, ?_, h.closed⟩, Nat.add_lt_add_right (Pipe.read_lag hp) _⟩
    rw [toTcp_pipe (Pipe.read_stream hp)]
    exact h.receive
  | proceed =>
    simp only [StreamConn.step] at hstep
    split_ifs at hstep with hready
    obtain ⟨hinv, ⟨hpart, rfl⟩ | ⟨hreceive, hheld, hpart, hclosed⟩⟩ :=
      h.inv.proceed hready.1 hready.2 hstep
    · refine .inr ⟨⟨hinv, h.receive, h.closed⟩, ?_⟩
      simp only [effort, hpart]
      exact Nat.lt_succ_self _
    · exact .inl ⟨hinv, Option.some.inj (hreceive.symm.trans h.receive), hheld, hpart,
        hclosed.trans h.closed⟩

/-- **Until the frame was handled, something can be done.** -/
theorem Awaits.exists_step (batch : ℕ) (s : Source ρ w) {r : TcpConn w}
    (h : c.Awaits cfg.geometry r) :
    ∃ a c', a.Transfers ∧ c.step cfg batch s a = some c' := by
  have hfailed := (le_of_receive h.receive).1
  have hwant := h.inv.want_le h.receive
  rcases Nat.lt_or_ge c.pipe.held.length c.want with hlt | hge
  · rcases Pipe.exists_move hlt hwant with hmove | hmove
    · obtain ⟨p, hp⟩ := Option.isSome_iff_exists.mp hmove
      exact ⟨.write 1, _, trivial, by simp only [StreamConn.step, if_pos h.closed, hp]; rfl⟩
    · obtain ⟨p, hp⟩ := Option.isSome_iff_exists.mp hmove
      exact ⟨.read 1, _, trivial, by simp only [StreamConn.step, if_pos hfailed, hp]; rfl⟩
  · have hlen : c.pipe.held.length = c.want := le_antisymm h.inv.asked hge
    have hready : ∃ c', c.proceed cfg.geometry = some c' := by
      by_cases hdata : c.part = .header ∧
          c.frame.kind = kindData ∧ frameSizesOk cfg.geometry c.frame.count c.frame.len = true
      · simp only [StreamConn.proceed, hdata.1, if_pos hdata.2]
        exact ⟨_, rfl⟩
      · obtain ⟨c', hc', -⟩ := h.inv.exists_proceed hfailed hlen
          (fun hpart hd => hdata ⟨hpart, hd⟩) h.receive
        exact ⟨c', hc'⟩
    obtain ⟨c', hc'⟩ := hready
    exact ⟨.proceed, c', trivial, by
      simp only [StreamConn.step, if_pos (And.intro hfailed hlen), hc']⟩

/-- **A frame that is all there can be read and handled.** -/
theorem Settled.receive (batch : ℕ) (s : Source ρ w) (h : c.Settled) {r : TcpConn w}
    (hr : c.toTcp.receive cfg.geometry = some r) :
    ∃ c', Reaches (StreamConn.step cfg batch s) c c' ∧ c'.Settled ∧ c'.toTcp = r := by
  have hstep : ∀ {c : StreamConn w}, c.Awaits cfg.geometry r → ∃ a c',
      c.step cfg batch s a = some c' ∧
        (c'.Meets cfg.geometry r ∨ c'.Awaits cfg.geometry r ∧ c'.effort < c.effort) := by
    intro c hc
    obtain ⟨a, c', ha, hc'⟩ := hc.exists_step batch s
    exact ⟨a, c', hc', hc.step ha hc'⟩
  obtain ⟨c₁, hc₁, hmeets⟩ := reaches_meets hstep ⟨h.inv, hr, h.closed⟩
  obtain ⟨p, hp, hstream, hunsent, hkept⟩ :=
    exists_written cfg batch s hmeets.closed
  exact ⟨_, hc₁.trans hp, ⟨hmeets.inv.wire, hunsent, hkept.trans hmeets.held, hmeets.part,
    hmeets.closed⟩, (toTcp_pipe hstream).trans hmeets.toTcp⟩

end StreamConn

/-! ## The system -/

namespace StreamSystem

variable [DecidableEq ρ] {cfg : SourceConfig w} {batch : ℕ} {s s' : StreamSystem ρ w}

/-- What holds of the bytes of the connection. -/
def Inv (cfg : SourceConfig w) (s : StreamSystem ρ w) : Prop :=
  ∀ c, s.conn = some c → c.Inv cfg.geometry

/-- The connection is not waiting for any bytes. -/
def Settled (s : StreamSystem ρ w) : Prop := ∀ c, s.conn = some c → c.Settled

/-- **A step with pieces** is a step without them, or none at all. -/
theorem Inv.step (h : s.Inv cfg) {a : StreamLabel ρ w} (hstep : s.step cfg batch a = some s') :
    s'.Inv cfg ∧ Reaches (TcpSystem.step cfg batch) s.toTcp s'.toTcp := by
  cases a with
  | source a =>
    obtain ⟨source, hsource, rfl⟩ := Option.map_eq_some_iff.mp hstep
    refine ⟨h, .single (a := .source a) ?_⟩
    simp only [TcpSystem.step, toTcp, hsource, Option.map_some]
  | connect start =>
    simp only [StreamSystem.step] at hstep
    cases hconn : s.conn with
    | some c =>
      rw [hconn] at hstep
      cases hstep
    | none =>
      rw [hconn] at hstep
      cases hstep
      refine ⟨by rintro c ⟨⟩; exact .opened, .single (a := .connect start) ?_⟩
      simp only [TcpSystem.step, toTcp, hconn, Option.map_none, Option.map_some]
      rfl
  | conn a =>
    simp only [StreamSystem.step] at hstep
    cases hconn : s.conn with
    | none =>
      rw [hconn] at hstep
      cases hstep
    | some c =>
      rw [hconn] at hstep
      obtain ⟨c', hc', rfl⟩ := Option.map_eq_some_iff.mp hstep
      have htcp : s.toTcp = ⟨s.source, s.file, some c.toTcp⟩ := by
        rw [toTcp, hconn]
        rfl
      rw [htcp]
      have hc := h c hconn
      -- steps that only move bytes
      have hquiet (hinv : c'.Inv cfg.geometry) (heq : c'.toTcp = c.toTcp) :
          ({ s with conn := some c' } : StreamSystem ρ w).Inv cfg ∧
            Reaches (TcpSystem.step cfg batch) ⟨s.source, s.file, some c.toTcp⟩
              ({ s with conn := some c' } : StreamSystem ρ w).toTcp := by
        refine ⟨by rintro _ ⟨⟩; exact hinv, ?_⟩
        rw [toTcp, Option.map_some, heq]
        exact .refl _
      cases a with
      | serve a =>
        obtain ⟨hinv, t, ht, hto⟩ := hc.serve hc'
        refine ⟨by rintro _ ⟨⟩; exact hinv, .single (a := .serve a) ?_⟩
        simp only [TcpSystem.step, toTcp, ht, hto, Option.map_some]
      | write n =>
        simp only [StreamConn.step] at hc'
        split_ifs at hc'
        obtain ⟨p, hp, rfl⟩ := Option.map_eq_some_iff.mp hc'
        exact hquiet (hc.write hp) (StreamConn.toTcp_pipe (Pipe.write_stream hp))
      | close =>
        cases hc'
        exact hquiet ⟨hc.wire, hc.asked, hc.records⟩ rfl
      | read n =>
        simp only [StreamConn.step] at hc'
        split_ifs at hc'
        obtain ⟨p, hp, rfl⟩ := Option.map_eq_some_iff.mp hc'
        exact hquiet (hc.read hp) (StreamConn.toTcp_pipe (Pipe.read_stream hp))
      | retry =>
        cases hc'
        exact hquiet hc rfl
      | proceed =>
        simp only [StreamConn.step] at hc'
        split_ifs at hc' with hready
        obtain ⟨hinv, ⟨-, rfl⟩ | ⟨hreceive, -⟩⟩ := hc.proceed hready.1 hready.2 hc'
        · exact hquiet hinv rfl
        · refine ⟨by rintro _ ⟨⟩; exact hinv, .single (a := .receive) ?_⟩
          simp only [TcpSystem.step, toTcp, hreceive, Option.map_some]
  | disconnect =>
    simp only [StreamSystem.step] at hstep
    cases hconn : s.conn with
    | none =>
      rw [hconn] at hstep
      cases hstep
    | some c =>
      rw [hconn] at hstep
      cases hstep
      refine ⟨by rintro _ ⟨⟩, .single (a := .disconnect) ?_⟩
      simp only [TcpSystem.step, toTcp, hconn, Option.map_some, Option.map_none]
      rfl

/-- What a connection does alone, the system does. -/
theorem reaches_conn {c c' : StreamConn w} (hconn : s.conn = some c)
    (h : Reaches (StreamConn.step cfg batch s.source) c c') :
    Reaches (StreamSystem.step cfg batch) s { s with conn := some c' } := by
  have hlift : ∃ u, Reaches (StreamSystem.step cfg batch) s u ∧ u = { s with conn := some c' } :=
    reaches_of_simulates (R := fun c u => u = { s with conn := some c })
      (fun {c a c' u} hu hstep => ⟨{ s with conn := some c' }, .single (a := .conn a) (by
        rw [hu]
        simp only [StreamSystem.step, hstep, Option.map_some]), rfl⟩)
      (show s = { s with conn := some c } by rw [← hconn]) h
  obtain ⟨u, hu, rfl⟩ := hlift
  exact hu

omit [DecidableEq ρ] in
theorem toTcp_conn {c : TcpConn w} (h : s.toTcp.conn = some c) :
    ∃ c₀, s.conn = some c₀ ∧ c₀.toTcp = c := Option.map_eq_some_iff.mp h

/-- **A step without pieces** can be taken with pieces. -/
theorem Settled.step (h : s.Settled) {a : TcpLabel ρ w} {t : TcpSystem ρ w}
    (hstep : s.toTcp.step cfg batch a = some t) :
    ∃ s', Reaches (StreamSystem.step cfg batch) s s' ∧ s'.Settled ∧ s'.toTcp = t := by
  cases TcpSystem.step_moves hstep with
  | source a source next =>
    refine ⟨{ s with source := source }, .single (a := .source a) ?_, h, rfl⟩
    have hnext : s.source.step cfg a = some source := next
    simp only [StreamSystem.step, hnext, Option.map_some]
  | connect start free =>
    have hnone : s.conn = none := Option.map_eq_none_iff.mp free
    refine ⟨{ s with conn := some (.opened cfg batch s.source.sys.mem.writeSeq start s.file) },
      .single (a := .connect start) ?_, ?_, rfl⟩
    · simp only [StreamSystem.step, hnone]
    · rintro c ⟨⟩
      exact ⟨rfl, rfl, rfl, rfl, rfl⟩
  | serve a c server conn next =>
    obtain ⟨c₀, hc₀, rfl⟩ := toTcp_conn conn
    obtain ⟨c', hc', hsettled, hto⟩ := (h c₀ hc₀).serve next
    refine ⟨_, reaches_conn hc₀ hc', by rintro _ ⟨⟩; exact hsettled, ?_⟩
    simp only [toTcp, Option.map_some, hto]
  | receive c c' conn next =>
    obtain ⟨c₀, hc₀, rfl⟩ := toTcp_conn conn
    obtain ⟨c₁, hc₁, hsettled, rfl⟩ := (h c₀ hc₀).receive batch s.source next
    exact ⟨_, reaches_conn hc₀ hc₁, by rintro _ ⟨⟩; exact hsettled, rfl⟩
  | disconnect c conn =>
    obtain ⟨c₀, hc₀, rfl⟩ := toTcp_conn conn
    refine ⟨{ s with file := .mirror c₀.conn.mirror.ring, conn := none },
      .single (a := .disconnect) ?_, by rintro _ ⟨⟩, rfl⟩
    simp only [StreamSystem.step, hc₀]

/-- **The pieces make no difference.** What the source, the ring file, the mirror and its errors can
come to when bytes move in pieces of any size, with a reader that asks for them in its own portions
and either end gone at any byte, is what they come to when whole frames move. -/
theorem stream_refines (cfg : SourceConfig w) (batch : ℕ) (file : RingFile w) (t : TcpSystem ρ w) :
    (∃ s, Reaches (step cfg batch) (create ρ cfg file) s ∧ s.toTcp = t) ↔
      Reaches (TcpSystem.step cfg batch) (TcpSystem.create ρ cfg file) t := by
  constructor
  · rintro ⟨s, hs, rfl⟩
    obtain ⟨u, hu, -, rfl⟩ := reaches_of_simulates
      (R := fun s u => s.Inv cfg ∧ s.toTcp = u)
      (fun {s a s' u} hR hstep => by
        obtain ⟨hinv, rfl⟩ := hR
        obtain ⟨hinv', hreach⟩ := hinv.step hstep
        exact ⟨_, hreach, hinv', rfl⟩)
      ⟨by rintro _ ⟨⟩, rfl⟩ hs
    exact hu
  · intro ht
    obtain ⟨s, hs, -, hto⟩ := reaches_of_simulates
      (R := fun u (s : StreamSystem ρ w) => s.Settled ∧ s.toTcp = u)
      (fun {u a u' s} hR hstep => by
        obtain ⟨hsettled, rfl⟩ := hR
        exact hsettled.step hstep)
      (show (create ρ cfg file).Settled ∧ _ from ⟨by rintro _ ⟨⟩, rfl⟩) ht
    exact ⟨s, hs, hto⟩

/-- **A whole frame is handled before long.** From any state there is, while the connection is open
and there is a frame on the stream that the mirror can take off: pieces are moved and asked for only
so often, and there is always another one, until the mirror is as `receive` leaves it. -/
theorem stream_handles {file : RingFile w}
    (hreach : Reaches (step cfg batch) (create ρ cfg file) s) {c : StreamConn w}
    (hc : s.conn = some c) (hopen : c.closed = false) {r : TcpConn w}
    (hr : c.toTcp.receive cfg.geometry = some r) {as : List (ConnLabel w)}
    (has : ∀ a ∈ as, a.Transfers) {c' : StreamConn w}
    (hrun : run (StreamConn.step cfg batch s.source) c as = some c') :
    (∃ before, before <+: as ∧ ∃ u,
      run (StreamConn.step cfg batch s.source) c before = some u ∧ u.toTcp = r) ∨
    (as.length + c'.effort ≤ c.effort ∧
      ∃ a u, a.Transfers ∧ c'.step cfg batch s.source a = some u) := by
  have hinv : s.Inv cfg := hreach.invariant (P := fun s => s.Inv cfg)
    (fun h hstep => (h.step hstep).1) (by rintro _ ⟨⟩)
  rcases run_meets (P := fun c => c.Awaits cfg.geometry r)
      (fun ha hP hstep => hP.step ha hstep) has ⟨hinv c hc, hr, hopen⟩ hrun with
    ⟨before, hbefore, u, hu, hmeets⟩ | ⟨hawaits, hle⟩
  · exact .inl ⟨before, hbefore, u, hu, hmeets.toTcp⟩
  · exact .inr ⟨hle, hawaits.exists_step batch s.source⟩

/-- The header of a frame with one record is written and read in pieces; then the record is asked
for. -/
theorem stream_handles_byte :
    ∃ (s : StreamSystem Unit 1) (c c' : StreamConn 1) (r : TcpConn 1) (as : List (ConnLabel 1)),
      as.length = 5 ∧ c'.part = .records ∧ r.mirror.ring.nextSeq = 2 ∧
      ((∃ before, before <+: as ∧ ∃ u,
          run (StreamConn.step twoBytes 1 s.source) c before = some u ∧ u.toTcp = r) ∨
        (as.length + c'.effort ≤ c.effort ∧
          ∃ a u, a.Transfers ∧ c'.step twoBytes 1 s.source a = some u)) := by
  obtain ⟨s, hs⟩ : ∃ s, run (step twoBytes 1) (create Unit twoBytes .absent)
      (.connect .oldest :: (pushByteSource 5).map .source ++
        [.conn (.serve (.read .tick)), .conn (.serve (.read (.word onlyWord))),
          .conn (.serve (.read .tick)), .conn (.serve (.linger false)),
          .conn (.serve (.next false))]) = some s := ⟨_, rfl⟩
  obtain ⟨c, hc, hopen, r, hr, c', hc', hpart, hnext⟩ : ∃ c, s.conn = some c ∧
      c.closed = false ∧ ∃ r, c.toTcp.receive twoBytes.geometry = some r ∧
      ∃ c', run (StreamConn.step twoBytes 1 s.source) c
        [.write 10, .read 4, .write 6, .read 12, .proceed] = some c' ∧ c'.part = .records ∧
        r.mirror.ring.nextSeq = 2 := by
    cases hs
    exact ⟨_, rfl, rfl, _, rfl, _, rfl, rfl, rfl⟩
  exact ⟨s, c, c', r, _, rfl, hpart, hnext,
    stream_handles ⟨_, hs⟩ hc hopen hr (by simp [ConnLabel.Transfers]) hc'⟩

end StreamSystem

end Ringfire
