import Ringfire.Replication.Tcp

/-!
# The ways out of `Mirror::step`

`Mirror` keeps its ring in an `Option`, and the calls that need the ring panic without it. A step
over TCP that meets a `DATA` frame from below the write position takes the source to have started
its numbering again: it drops the ring, and only then creates the one that takes its place.

A step is modelled with everything that can end it early: the connection that closes or fails inside
a header or a body, the socket, writes that fail, frames that are refused, and `MirrorRing::create`.
How these turn out is part of the `StepInput`. A step that does not return, because it panics or
because it waits for bytes, is `none`.

## Main definitions

* `MirrorState`: a `Mirror` whose ring may be gone
* `MirrorState.step`: `Mirror::step`
* `MirrorState.Usable`: the ring is there

## Main results

* `stepTcp_of_created`: while rings can be created, a step over TCP is `Mirror.stepTcp`
* `stays_usable_iff`: when a mirror is usable after all its steps
-/

namespace Ringfire

variable {w : ℕ}

/-! ## Reads -/

/-- How a read fails: the peer closed or reset the connection (`peer_gone`), or something else went
wrong. -/
inductive ReadError where
  | gone
  | failed
  deriving DecidableEq, Repr

/-- What `step` returns for it. -/
def ReadError.result : ReadError → Except RingfireError Bool
  | .gone => .ok false
  | .failed => .error .io

/-- What the connection holds while a step runs. -/
structure Inbound where
  arrived : List UInt8
  /-- What a read behind these bytes meets; without it the read blocks. -/
  broken : Option ReadError

namespace Inbound

/-- `read_full`, with what it leaves. -/
def readFull (x : Inbound) (n : ℕ) : Option (Except ReadError (List UInt8 × Inbound)) :=
  if n ≤ x.arrived.length then
    some (.ok (x.arrived.take n, { x with arrived := x.arrived.drop n }))
  else x.broken.map .error

/-- The frame whose header comes first. -/
def frame (x : Inbound) : Frame := .decode (x.arrived.take frameHeaderLen)

end Inbound

/-! ## The state -/

/-- A `Mirror`, whose ring may be gone. -/
structure MirrorState (w : ℕ) where
  ring : Option (MirrorRing w)
  sourceSeq : ℕ
  gaps : ℕ
  nak : Option Nak
  pending : List Held
  requested : List Nak

/-- A mirror that owns its ring. -/
def Mirror.state (m : Mirror w) : MirrorState w :=
  ⟨some m.ring, m.sourceSeq, m.gaps, m.nak, m.pending, m.requested⟩

/-- What a step returns, and the mirror after it. -/
abbrev Stepped (w : ℕ) : Type := Option (Except RingfireError Bool × MirrorState w)

namespace MirrorState

/-- The mirror with its ring, for the calls that need one. -/
def mirror (s : MirrorState w) : Option (Mirror w) :=
  s.ring.map fun ring => ⟨ring, s.sourceSeq, s.gaps, s.nak, s.pending, s.requested⟩

/-- `sequence`. -/
def sequence (s : MirrorState w) : Option ℕ := s.ring.map fun ring => ring.nextSeq - 1

/-- The mirror owns a ring, so that the accessors do not panic. -/
structure Usable (s : MirrorState w) : Prop where
  owns : s.ring.isSome = true
  sequence : s.sequence.isSome = true

@[simp] theorem mirror_state (m : Mirror w) : m.state.mirror = some m := rfl

theorem Usable.state (m : Mirror w) : m.state.Usable := ⟨rfl, rfl⟩

theorem usable_iff {s : MirrorState w} : s.Usable ↔ ∃ m : Mirror w, s = m.state := by
  constructor
  · rintro ⟨howns, -⟩
    obtain ⟨ring, hring⟩ := Option.isSome_iff_exists.mp howns
    refine ⟨⟨ring, s.sourceSeq, s.gaps, s.nak, s.pending, s.requested⟩, ?_⟩
    cases s
    cases hring
    rfl
  · rintro ⟨m, rfl⟩
    exact .state m

end MirrorState

/-! ## A step over TCP -/

namespace Mirror

/-- A step that came to its end, or whose last call failed. -/
def finish (r : Option (Except RingfireError Unit × Mirror w)) : Stepped w :=
  r.map fun (res, m) => (res.map fun _ => true, m.state)

/-- The records of a `DATA` frame; `created` is how `MirrorRing::create` ends if it is called. -/
def stepData (g : Geometry w) (m : Mirror w) (created : Except RingfireError Unit) (f : Frame)
    (body : List UInt8) : Stepped w :=
  if f.seq < m.ring.nextSeq then
    match created with
    -- the old ring was dropped already
    | .error e => some (.error e, { m.state with ring := none })
    | .ok _ => finish ((m.seek f.seq).writeRecords g f.seq f.count body)
  else finish ((m.seek f.seq).writeRecords g f.seq f.count body)

end Mirror

namespace MirrorState

/-- What a step does with a header; `rest` is what comes behind it. -/
def stepFrame (g : Geometry w) (s : MirrorState w) (created : Except RingfireError Unit)
    (f : Frame) (rest : Inbound) : Stepped w :=
  if f.kind = kindData then
    if frameSizesOk g f.count f.len then
      match rest.readFull f.len with
      | none => none
      | some (.error e) => some (e.result, s)
      -- from here on `ring` is needed
      | some (.ok (body, _)) => s.mirror.bind fun m => m.stepData g created f body
    else some (.error (.protocol "DATA length does not match its record count"), s)
  else if f.kind = kindGap then s.mirror.bind fun m => Mirror.finish (m.handle g f [])
  else if f.kind = kindHeartbeat then
    some (.ok true, { s with sourceSeq := max s.sourceSeq f.seq })
  else some (.error (.protocol "unexpected frame kind"), s)

/-- `step` without UDP. -/
def stepTcp (g : Geometry w) (s : MirrorState w) (x : Inbound)
    (created : Except RingfireError Unit) : Stepped w :=
  match x.readFull frameHeaderLen with
  | none => none
  | some (.error e) => some (e.result, s)
  | some (.ok (hdr, rest)) => s.stepFrame g created (.decode hdr) rest

end MirrorState

/-! ## A step over UDP -/

/-- `DATAGRAMS_PER_STEP`. -/
def datagramsPerStep : ℕ := 32

/-- What a call finds outside the program, and whether a write that fails says that the peer is
gone. -/
structure Surroundings extends Env where
  gone : Bool

/-- What a `recv` on the socket finds. -/
inductive Received where
  | datagram (env : Surroundings) (bytes : List UInt8)
  | interrupted
  | failed

/-- What a step over UDP finds. -/
structure UdpInput where
  /-- The calls of `recv` up to the one that would block. -/
  received : List Received
  /-- The connection. -/
  control : Inbound
  env : Surroundings
  /-- The outstanding `NAK` has reached `nak_timeout`. -/
  due : Bool
  resend : Surroundings
  /-- A `PUNCH` was due and could not be sent. -/
  punchFails : Bool

namespace Mirror

/-- What a call returned, and how the step goes on if that was not an error. -/
def settle (env : Surroundings) (r : Option (Except RingfireError Unit × Mirror w))
    (next : Mirror w → Stepped w) : Stepped w :=
  match r with
  | none => none
  | some (.ok _, m) => next m
  | some (.error e, m) =>
    some (if e = .io ∧ env.gone = true then .ok false else .error e, m.state)

/-- The loop that drains the socket. -/
def drain (g : Geometry w) (session : UInt8) (next : Mirror w → Stepped w) :
    List Received → Mirror w → Stepped w
  | [], m => next m
  | .datagram env bytes :: rest, m =>
    settle env (m.handleDatagram g session env.toEnv bytes) (drain g session next rest)
  | .interrupted :: rest, m => drain g session next rest m
  | .failed :: _, m => some (.error .io, m.state)

/-- The frame of the connection, if there is one now. -/
def takeControl (g : Geometry w) (x : Inbound) (env : Surroundings) (next : Mirror w → Stepped w)
    (m : Mirror w) : Stepped w :=
  if x.arrived = [] ∧ x.broken = none then next m
  else
    match x.readFull frameHeaderLen with
    | none => none
    | some (.error e) => some (e.result, m.state)
    | some (.ok (hdr, rest)) =>
      let f := Frame.decode hdr
      if f.kind = kindData ∧ frameSizesOk g f.count f.len = true then
        match rest.readFull f.len with
        | none => none
        | some (.error e) => some (e.result, m.state)
        | some (.ok (body, _)) => settle env (m.handleControl g env.toEnv f body) next
      else settle env (m.handleControl g env.toEnv f []) next

/-- The outstanding `NAK` is sent again when it is due. -/
def stepNak (due : Bool) (env : Surroundings) (next : Mirror w → Stepped w) (m : Mirror w) :
    Stepped w :=
  match due, m.nak with
  | true, some nak => settle env (some (m.sendNak env.toEnv nak)) next
  | _, _ => next m

/-- The hole punching, which is the last to fail. -/
def stepPunch (punchFails : Bool) (m : Mirror w) : Stepped w :=
  some (if punchFails then .error .io else .ok true, m.state)

/-- `step_multicast`. -/
def stepMulticast (g : Geometry w) (session : UInt8) (m : Mirror w) (x : UdpInput) : Stepped w :=
  m.drain g session
    (takeControl g x.control x.env (stepNak x.due x.resend (stepPunch x.punchFails)))
    (x.received.take datagramsPerStep)

end Mirror

/-! ## A step -/

/-- What of a `Mirror` never changes. -/
structure MirrorConfig (w : ℕ) where
  geometry : Geometry w
  session : UInt8
  /-- `udp.is_some()`. -/
  udp : Bool

/-- What a step finds outside the program. -/
structure StepInput where
  /-- The connection, in a step without UDP. -/
  stream : Inbound
  /-- How `MirrorRing::create` ends. -/
  created : Except RingfireError Unit
  datagrams : UdpInput

namespace MirrorState

/-- `step`. Only a step over TCP ever drops the ring, so one over UDP has it. -/
def step (cfg : MirrorConfig w) (s : MirrorState w) (x : StepInput) : Stepped w :=
  if cfg.udp then s.mirror.bind fun m => m.stepMulticast cfg.geometry cfg.session x.datagrams
  else s.stepTcp cfg.geometry x.stream x.created

/-- A step with its result forgotten. -/
def next (cfg : MirrorConfig w) (s : MirrorState w) (x : StepInput) : Option (MirrorState w) :=
  (s.step cfg x).map Prod.snd

/-- A whole `DATA` frame from below the write position arrives over TCP, and the ring that is to
take the place of the old one cannot be created. -/
structure Strands (cfg : MirrorConfig w) (s : MirrorState w) (x : StepInput) : Prop where
  tcp : cfg.udp = false
  arrived : frameHeaderLen + x.stream.frame.len ≤ x.stream.arrived.length
  data : x.stream.frame.kind = kindData
  sizes : frameSizesOk cfg.geometry x.stream.frame.count x.stream.frame.len = true
  restarted : ∃ ring, s.ring = some ring ∧ x.stream.frame.seq < ring.nextSeq
  refused : ∃ e, x.created = .error e

end MirrorState

/-! ## Which steps keep the ring -/

/-- Whatever a step returns, the ring is there. -/
def Stepped.Owns (r : Stepped w) : Prop := ∀ res s, r = some (res, s) → s.Usable

namespace Inbound

theorem readFull_of_le {x : Inbound} {n : ℕ} (h : n ≤ x.arrived.length) :
    x.readFull n = some (.ok (x.arrived.take n, { x with arrived := x.arrived.drop n })) :=
  if_pos h

theorem readFull_of_lt {x : Inbound} {n : ℕ} (h : x.arrived.length < n) :
    x.readFull n = x.broken.map .error :=
  if_neg (Nat.not_le.mpr h)

end Inbound

namespace Mirror

variable {g : Geometry w} {session : UInt8} {m : Mirror w}

theorem owns_state (res : Except RingfireError Bool) (m : Mirror w) :
    Stepped.Owns (some (res, m.state)) := by
  rintro _ _ ⟨⟩
  exact .state m

theorem finish_owns (r : Option (Except RingfireError Unit × Mirror w)) : (finish r).Owns := by
  intro res s hr
  obtain ⟨⟨_, m⟩, -, heq⟩ := Option.map_eq_some_iff.mp hr
  cases heq
  exact .state m

section

variable {next : Mirror w → Stepped w} (hnext : ∀ m, (next m).Owns)
include hnext

theorem settle_owns (env : Surroundings) (r : Option (Except RingfireError Unit × Mirror w)) :
    (settle env r next).Owns := by
  unfold settle
  split
  · rintro _ _ ⟨⟩
  · exact hnext _
  · exact owns_state _ _

/-- By induction on what is received; the step goes on from whatever the datagrams left. -/
theorem drain_owns (received : List Received) (m : Mirror w) :
    (drain g session next received m).Owns := by
  induction received generalizing m with
  | nil => exact hnext m
  | cons x rest ih =>
    cases x with
    | datagram env bytes => exact settle_owns ih env _
    | interrupted => exact ih m
    | failed => exact owns_state _ m

theorem takeControl_owns (x : Inbound) (env : Surroundings) (m : Mirror w) :
    (takeControl g x env next m).Owns := by
  unfold takeControl
  split_ifs
  · exact hnext m
  · split
    · rintro _ _ ⟨⟩
    · exact owns_state _ m
    · simp only
      split_ifs
      · split
        · rintro _ _ ⟨⟩
        · exact owns_state _ m
        · exact settle_owns hnext env _
      · exact settle_owns hnext env _

theorem stepNak_owns (due : Bool) (env : Surroundings) (m : Mirror w) :
    (stepNak due env next m).Owns := by
  unfold stepNak
  split
  · exact settle_owns hnext env _
  · exact hnext m

end

/-- No error of a step over UDP costs the ring. -/
theorem stepMulticast_owns (m : Mirror w) (x : UdpInput) :
    (m.stepMulticast g session x).Owns :=
  drain_owns (takeControl_owns (stepNak_owns (fun m => owns_state _ m) x.due x.resend) x.control
    x.env) _ m

end Mirror

namespace MirrorState

variable {g : Geometry w} {cfg : MirrorConfig w} {m : Mirror w} {x : StepInput}
  {res : Except RingfireError Bool} {s s' : MirrorState w}

theorem not_usable_of_ring (h : s.ring = none) : ¬ s.Usable := by
  rintro ⟨howns, -⟩
  rw [h] at howns
  cases howns

/-- The records of a frame cost the ring when it starts over and none can be created. -/
theorem stepData_usable_iff {created : Except RingfireError Unit} {f : Frame} {body : List UInt8}
    (h : m.stepData g created f body = some (res, s)) :
    s.Usable ↔ ¬ (f.seq < m.ring.nextSeq ∧ ∃ e, created = .error e) := by
  unfold Mirror.stepData at h
  split_ifs at h with hlt
  · cases created with
    | error e =>
      cases h
      exact iff_of_false (not_usable_of_ring rfl) (not_not_intro ⟨hlt, e, rfl⟩)
    | ok _ =>
      refine iff_of_true (Mirror.finish_owns _ _ _ h) ?_
      rintro ⟨-, _, ⟨⟩⟩
  · exact iff_of_true (Mirror.finish_owns _ _ _ h) fun hbad => hlt hbad.1

theorem stepTcp_of_le {y : Inbound} {created : Except RingfireError Unit}
    (h : frameHeaderLen ≤ y.arrived.length) :
    s.stepTcp g y created =
      s.stepFrame g created y.frame { y with arrived := y.arrived.drop frameHeaderLen } := by
  unfold stepTcp
  rw [Inbound.readFull_of_le h]
  rfl

/-- A read that fails leaves the mirror as it was. -/
theorem stepTcp_of_lt {y : Inbound} {created : Except RingfireError Unit}
    (h : y.arrived.length < frameHeaderLen) :
    s.stepTcp g y created = y.broken.map fun e => (e.result, s) := by
  unfold stepTcp
  rw [Inbound.readFull_of_lt h]
  cases y.broken <;> rfl

theorem stepFrame_data {f : Frame} {rest : Inbound} {created : Except RingfireError Unit}
    (hdata : f.kind = kindData) (hsizes : frameSizesOk g f.count f.len = true) :
    s.stepFrame g created f rest =
      if f.len ≤ rest.arrived.length then
        s.mirror.bind fun m => m.stepData g created f (rest.arrived.take f.len)
      else rest.broken.map fun e => (e.result, s) := by
  unfold stepFrame
  rw [if_pos hdata, if_pos hsizes]
  split_ifs with hbody
  · rw [Inbound.readFull_of_le hbody]
  · rw [Inbound.readFull_of_lt (Nat.not_le.mp hbody)]
    cases rest.broken <;> rfl

/-- A step that leaves the mirror as it was. -/
theorem usable_of_broken {broken : Option ReadError}
    (h : (broken.map fun e => (e.result, m.state)) = some (res, s)) : s.Usable := by
  obtain ⟨e, -, heq⟩ := Option.map_eq_some_iff.mp h
  cases heq
  exact .state m

/-- What a header does to the ring: every exit but one leaves it there. -/
theorem stepFrame_usable_iff {f : Frame} {rest : Inbound} {created : Except RingfireError Unit}
    (h : m.state.stepFrame g created f rest = some (res, s)) :
    s.Usable ↔ ¬ (f.kind = kindData ∧ frameSizesOk g f.count f.len = true ∧
      f.len ≤ rest.arrived.length ∧ f.seq < m.ring.nextSeq ∧ ∃ e, created = .error e) := by
  by_cases hdata : f.kind = kindData
  · by_cases hsizes : frameSizesOk g f.count f.len = true
    · rw [stepFrame_data hdata hsizes] at h
      split_ifs at h with hbody
      · rw [stepData_usable_iff h, not_iff_not]
        exact ⟨fun hbad => ⟨hdata, hsizes, hbody, hbad⟩, fun hbad => hbad.2.2.2⟩
      · exact iff_of_true (usable_of_broken h) fun hbad => hbody hbad.2.2.1
    · unfold stepFrame at h
      rw [if_pos hdata, if_neg hsizes] at h
      cases h
      exact iff_of_true (.state m) fun hbad => hsizes hbad.2.1
  · refine iff_of_true ?_ fun hbad => hdata hbad.1
    unfold stepFrame at h
    rw [if_neg hdata] at h
    split_ifs at h
    · exact Mirror.finish_owns _ _ _ h
    · cases h
      exact ⟨rfl, rfl⟩
    · cases h
      exact .state m

/-- **What a step over TCP does to the ring.** -/
theorem stepTcp_usable_iff (hudp : cfg.udp = false)
    (h : m.state.stepTcp cfg.geometry x.stream x.created = some (res, s)) :
    s.Usable ↔ ¬ m.state.Strands cfg x := by
  rcases Nat.lt_or_ge x.stream.arrived.length frameHeaderLen with hshort | hhdr
  · rw [stepTcp_of_lt hshort] at h
    refine iff_of_true (usable_of_broken h) fun hbad => ?_
    have := hbad.arrived
    omega
  · rw [stepTcp_of_le hhdr] at h
    rw [stepFrame_usable_iff h, not_iff_not, List.length_drop]
    constructor
    · rintro ⟨hdata, hsizes, hbody, hlt, hcreated⟩
      exact ⟨hudp, by omega, hdata, hsizes, ⟨_, rfl, hlt⟩, hcreated⟩
    · rintro ⟨-, harrived, hdata, hsizes, ⟨_, ⟨⟩, hlt⟩, hcreated⟩
      exact ⟨hdata, hsizes, by omega, hlt, hcreated⟩

/-- **What a step does to the ring.** -/
theorem step_usable_iff (h : m.state.step cfg x = some (res, s)) :
    s.Usable ↔ ¬ m.state.Strands cfg x := by
  unfold step at h
  split_ifs at h with hudp
  · refine iff_of_true (Mirror.stepMulticast_owns m _ _ _ h) fun hbad => ?_
    rw [hbad.tcp] at hudp
    cases hudp
  · exact stepTcp_usable_iff (Bool.eq_false_iff.mpr hudp) h

theorem next_usable_iff (hs : s.Usable) (h : s.next cfg x = some s') :
    s'.Usable ↔ ¬ s.Strands cfg x := by
  obtain ⟨m, rfl⟩ := usable_iff.mp hs
  obtain ⟨⟨res, t⟩, hstep, rfl⟩ := Option.map_eq_some_iff.mp h
  exact step_usable_iff hstep

/-- A step that costs the ring returns the error of `MirrorRing::create`. -/
theorem Strands.step (h : m.state.Strands cfg x) :
    ∃ e, m.state.step cfg x = some (.error e, { m.state with ring := none }) := by
  obtain ⟨htcp, harrived, hdata, hsizes, ⟨_, ⟨⟩, hlt⟩, e, hcreated⟩ := h
  have hbody : x.stream.frame.len ≤ (x.stream.arrived.drop frameHeaderLen).length := by
    rw [List.length_drop]
    omega
  refine ⟨e, ?_⟩
  unfold MirrorState.step
  rw [htcp, if_neg Bool.false_ne_true, stepTcp_of_le (by omega), stepFrame_data hdata hsizes,
    if_pos hbody]
  show m.stepData cfg.geometry x.created x.stream.frame _ = _
  unfold Mirror.stepData
  rw [if_pos hlt, hcreated]

/-- Without a ring, `sequence` panics and so does a step that meets a `GAP`. -/
theorem gap_panics_of_ring (hring : s.ring = none) (hudp : cfg.udp = false)
    (hhdr : frameHeaderLen ≤ x.stream.arrived.length) (hgap : x.stream.frame.kind = kindGap) :
    s.sequence = none ∧ s.step cfg x = none := by
  refine ⟨by rw [sequence, hring]; rfl, ?_⟩
  have hmirror : s.mirror = none := by
    rw [mirror, hring]
    rfl
  unfold MirrorState.step
  rw [hudp, if_neg Bool.false_ne_true, stepTcp_of_le hhdr, stepFrame, hgap,
    if_neg (by decide : ¬ kindGap = kindData), if_pos rfl, hmirror]
  rfl

/-- **When a mirror stays usable.** After every one of its steps it owns a ring, if and only if
none of them starts over without a ring to be had. -/
theorem stays_usable_iff (cfg : MirrorConfig w) (m : Mirror w) {xs : List StepInput}
    {t : MirrorState w} (hr : Transition.run (next cfg) m.state xs = some t) :
    Transition.Always Usable (next cfg) m.state xs ↔
      Transition.Avoids (Strands cfg) (next cfg) m.state xs := by
  have hbad {s s' : MirrorState w} {x : StepInput} (hx : s.Strands cfg x)
      (hs : s.next cfg x = some s') : ¬ s'.Usable := by
    obtain ⟨ring, hring, -⟩ := hx.restarted
    have husable : s.Usable := by
      refine ⟨?_, ?_⟩
      · rw [hring]
        rfl
      · rw [MirrorState.sequence, hring]
        rfl
    exact fun h => (next_usable_iff husable hs).mp h hx
  exact Transition.always_iff_avoids (P := fun _ => True) (G := Usable) (fun _ _ => trivial)
    (fun _ hs hgood hstep => (next_usable_iff hs hstep).mpr hgood) (fun _ => hbad)
    (fun _ hs => hs) trivial (.state m) hr

theorem stepData_of_created (f : Frame) (body : List UInt8) :
    m.stepData g (.ok ()) f body =
      Mirror.finish ((m.seek f.seq).writeRecords g f.seq f.count body) := by
  unfold Mirror.stepData
  split_ifs <;> rfl

/-- **While rings can be created, a step over TCP is `Mirror.stepTcp`**, whatever comes behind the
frame. -/
theorem stepTcp_of_created {wire rest : List UInt8} {broken : Option ReadError}
    {r : Except RingfireError Unit × Mirror w} (h : m.stepTcp g wire = some (r, rest)) :
    m.state.stepTcp g ⟨wire, broken⟩ (.ok ()) = Mirror.finish (some r) := by
  unfold Mirror.stepTcp at h
  simp only at h
  split_ifs at h with hshort
  obtain ⟨hhdr, hbody⟩ := not_or.mp hshort
  obtain ⟨r', hhandle, heq⟩ := Option.map_eq_some_iff.mp h
  cases heq
  rw [stepTcp_of_le (Nat.not_lt.mp hhdr), ← hhandle]
  change m.state.stepFrame g (.ok ()) (.decode (wire.take frameHeaderLen))
    ⟨wire.drop frameHeaderLen, broken⟩ = _
  generalize Frame.decode (wire.take frameHeaderLen) = f at hbody ⊢
  unfold Mirror.handle
  by_cases hdata : f.kind = kindData
  · rw [if_pos hdata]
    by_cases hsizes : frameSizesOk g f.count f.len = true
    · have hlen : Mirror.bodyLen g f = f.len := if_pos ⟨hdata, hsizes⟩
      rw [hlen] at hbody ⊢
      rw [stepFrame_data hdata hsizes, if_pos (Nat.not_lt.mp hbody), if_pos hsizes]
      exact stepData_of_created f _
    · unfold stepFrame
      rw [if_pos hdata, if_neg hsizes, if_neg hsizes]
      rfl
  · rw [if_neg hdata]
    unfold stepFrame
    rw [if_neg hdata]
    split_ifs with hgap hlt hbeat
    -- a `GAP`, ahead or not, then a `HEARTBEAT` and whatever else
    · show Mirror.finish (m.handle g f []) = _
      rw [Mirror.handle, if_neg hdata, if_pos hgap, if_pos hlt]
    · show Mirror.finish (m.handle g f []) = _
      rw [Mirror.handle, if_neg hdata, if_pos hgap, if_neg hlt]
    · rfl
    · rfl

end MirrorState

/-! ## Examples -/

/-- A mirror over TCP of slots that hold descriptors. -/
def bareStream : MirrorConfig 16 := ⟨bareBlobs, 7, false⟩

/-- The mirror has come to record `4`. -/
def fourthMirror : Mirror 16 := ⟨(MirrorRing.create 16).skipTo 5, 4, 0, none, [], []⟩

/-- Record `seq` arrives over TCP. -/
def recordInput (seq : ℕ) (created : Except RingfireError Unit) : StepInput where
  stream := ⟨(dataFrame 0 1 seq (dataBytes countingRecord seq 1)).encode ++
    dataBytes countingRecord seq 1, none⟩
  created := created
  datagrams := ⟨[], ⟨[], none⟩, ⟨⟨true, true⟩, false⟩, false, ⟨⟨true, true⟩, false⟩, false⟩

/-- The mirror goes on with record `5`: it needs no other ring. -/
theorem stays_usable_in_order :
    ∃ t, Transition.run (MirrorState.next bareStream) fourthMirror.state
        [recordInput 5 (.error .io)] = some t ∧
      Transition.Always MirrorState.Usable (MirrorState.next bareStream) fourthMirror.state
        [recordInput 5 (.error .io)] := by
  obtain ⟨t, hr⟩ : ∃ t, Transition.run (MirrorState.next bareStream) fourthMirror.state
      [recordInput 5 (.error .io)] = some t := ⟨_, rfl⟩
  refine ⟨t, hr, (MirrorState.stays_usable_iff bareStream fourthMirror hr).mpr ?_⟩
  obtain ⟨s', hs, -⟩ := Transition.run_cons_eq_some.mp hr
  refine (Transition.avoids_cons hs).mpr ⟨?_, fun pre a post u hsplit => ?_⟩
  · -- the frame is not from below the write position
    rintro ⟨-, -, -, -, ⟨_, ⟨⟩, hlt⟩, -⟩
    exact absurd hlt (by decide)
  · exact absurd hsplit (by simp)

/-- The source starts over with record `1`, and the disk is full. -/
theorem restart_without_ring :
    ∃ t, Transition.run (MirrorState.next bareStream) fourthMirror.state
        [recordInput 1 (.error .io)] = some t ∧ t.sequence = none ∧
      ¬ Transition.Always MirrorState.Usable (MirrorState.next bareStream) fourthMirror.state
        [recordInput 1 (.error .io)] := by
  have hr : Transition.run (MirrorState.next bareStream) fourthMirror.state
      [recordInput 1 (.error .io)] = some { fourthMirror.state with ring := none } := rfl
  refine ⟨_, hr, rfl, fun h => ?_⟩
  exact MirrorState.not_usable_of_ring rfl (h _ [] _ rfl hr)

end Ringfire
