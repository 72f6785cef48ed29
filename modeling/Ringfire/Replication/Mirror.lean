import Mathlib.Logic.Relation
import Ringfire.Foundation.OrderedMap
import Ringfire.Foundation.Transition
import Ringfire.Replication.MirrorRing

/-!
# The UDP mirror

`Mirror` of `replication.rs` in UDP mode: live records arrive in datagrams that may be lost,
repeated or reordered, and a gap is filled over the TCP connection by sending a `NAK` and receiving
`DATA` and `GAP` frames. Records that continue the ring are written at once; records from further on
are kept aside in `pending`, keyed by their first sequence, until the write position reaches them.

A step handles one datagram, one frame of the TCP connection, or the timeout of the outstanding
`NAK`. What a step finds outside the program is in its `Env`: whether the outstanding `NAK` is
younger than `nak_timeout`, and whether writing to the connection succeeds. The counters kept for
statistics only (`frames`, `datagrams`, `naks`, `retransmitted`, `last_nak`) and the hole punching
are left out.

## Main definitions

* `Mirror.handleDatagram`, `Mirror.handleControl`, `Mirror.apply`, `Mirror.afterAdvance`
* `Legit`: what can arrive from one incarnation of the source

## Main results

* `Mirror.Inv.receive`: every step keeps the log of writes right and in order
* `mirror_never_reorders`: the mirror never reorders, duplicates or corrupts
-/

namespace Ringfire

variable {w : ℕ}

/-- `NAK_MAX`. -/
def nakMax : ℕ := 2 ^ 16 - 1

/-- `PENDING_MAX`. -/
def pendingMax : ℕ := 8192

/-- A request for the sequences from `first` to `last`. -/
structure Nak where
  first : ℕ
  last : ℕ
  deriving DecidableEq, Repr

/-- Records kept aside: their first sequence, their number and their bytes. -/
abbrev Held : Type := ℕ × ℕ × List UInt8

/-- The state of a mirror; its geometry and its session do not change. -/
structure Mirror (w : ℕ) where
  ring : MirrorRing w
  sourceSeq : ℕ
  gaps : ℕ
  nak : Option Nak
  pending : List Held
  /-- The requests put on the TCP connection. -/
  requested : List Nak

/-- What a step finds outside the program. -/
structure Env where
  /-- The outstanding `NAK` is younger than `nak_timeout`. -/
  fresh : Bool
  /-- A write to the TCP connection succeeds. -/
  connected : Bool

/-- `frame_sizes_ok`: whether `count` records can be `len` bytes long. -/
def frameSizesOk (g : Geometry w) (count len : ℕ) : Bool :=
  if count = 0 then false
  else
    match g.arena with
    | some acap =>
      count * w ≤ len ∧ len ≤ min (count * w + min (count * acap.val) u64Max) u64Max
    | none => len = count * w

namespace Mirror

/-- `send_nak`. -/
def sendNak (env : Env) (m : Mirror w) (nak : Nak) : Except RingfireError Unit × Mirror w :=
  if env.connected then
    (.ok (), { m with nak := some nak, requested := m.requested ++ [nak] })
  else (.error .io, m)

/-- `request`: makes sure a `NAK` is outstanding. -/
def request (env : Env) (m : Mirror w) (first last : ℕ) : Except RingfireError Unit × Mirror w :=
  let last := min last (first + nakMax - 1)
  match m.nak with
  | some nak =>
    if nak.first = first ∧ last ≤ nak.last ∧ env.fresh = true then (.ok (), m)
    else m.sendNak env ⟨first, last⟩
  | none => m.sendNak env ⟨first, last⟩

/-- Drops a satisfied `NAK`. -/
def clearNak (m : Mirror w) : Mirror w :=
  match m.nak with
  | some nak => if nak.last < m.ring.nextSeq then { m with nak := none } else m
  | none => m

/-- `write_records`. -/
def writeRecords (g : Geometry w) (m : Mirror w) (seq count : ℕ) (bytes : List UInt8) :
    Option (Except RingfireError Unit × Mirror w) :=
  (m.ring.writeRecords g seq count bytes).map fun (res, ring) =>
    match res with
    | .ok _ => (.ok (), { m with ring := ring, sourceSeq := max m.sourceSeq (seq + count - 1) })
    | .error e => (.error e, { m with ring := ring })

/-- What a turn of the loop of `after_advance` does. -/
inductive Turned (w : ℕ) where
  | stop (res : Except RingfireError Unit) (m : Mirror w)
  | goOn (m : Mirror w)

/-- The loop goes on after records were written. -/
def Turned.ofWrite : Except RingfireError Unit × Mirror w → Turned w
  | (.ok _, m) => .goOn m
  | (.error e, m) => .stop (.error e) m

/-- A turn of the loop of `after_advance`: `x` is the first entry of `pending` and `rest` the
others. -/
def advanceOne (g : Geometry w) (env : Env) (m : Mirror w) (x : Held) (rest : List Held) :
    Option (Turned w) :=
  let m := m.clearNak
  -- written already, behind a hole, or the next one to write
  if x.1 + x.2.1 ≤ m.ring.nextSeq then some (.goOn { m with pending := rest })
  else if m.ring.nextSeq < x.1 then
    -- the entry taken out goes back in
    let r := { m with pending := x :: rest }.request env m.ring.nextSeq (x.1 - 1)
    some (.stop r.1 r.2)
  else
    ({ m with pending := rest }.writeRecords g x.1 x.2.1 x.2.2).map Turned.ofWrite

/-- `after_advance`, over the entries of `pending`. -/
def afterAdvance (g : Geometry w) (env : Env) :
    List Held → Mirror w → Option (Except RingfireError Unit × Mirror w)
  | [], m => some (.ok (), m.clearNak)
  | x :: rest, m =>
    match m.advanceOne g env x rest with
    | none => none
    | some (.stop res m') => some (res, m')
    | some (.goOn m') => afterAdvance g env rest m'

/-- Keeps records aside, unless too many are kept already. -/
def hold (m : Mirror w) (seq count : ℕ) (payload : List UInt8) : Mirror w :=
  if m.pending.length < pendingMax then
    { m with pending := OrderedMap.insertNew seq (count, payload) m.pending }
  else m

/-- `apply`. -/
def apply (g : Geometry w) (env : Env) (m : Mirror w) (seq count : ℕ) (payload : List UInt8) :
    Option (Except RingfireError Unit × Mirror w) :=
  -- a duplicate
  if seq + count ≤ m.ring.nextSeq then some (.ok (), m)
  else if m.ring.nextSeq < seq then
    -- a jump: the frame is kept and what is missing is asked for
    some ((m.hold seq count payload).request env m.ring.nextSeq (seq - 1))
  else
    match m.writeRecords g seq count payload with
    | none => none
    | some (.error e, m') => some (.error e, m')
    | some (.ok _, m') => m'.afterAdvance g env m'.pending

/-- `on_source_seq`. -/
def onSourceSeq (env : Env) (m : Mirror w) (seq : ℕ) : Except RingfireError Unit × Mirror w :=
  let m := { m with sourceSeq := max m.sourceSeq seq }
  if m.ring.nextSeq ≤ seq then m.request env m.ring.nextSeq seq else (.ok (), m)

/-- `handle_control`: a frame of the TCP connection and the bytes that follow it. -/
def handleControl (g : Geometry w) (env : Env) (m : Mirror w) (f : Frame) (body : List UInt8) :
    Option (Except RingfireError Unit × Mirror w) :=
  if f.kind = kindData then
    if frameSizesOk g f.count f.len then m.apply g env f.seq f.count (body.take f.len)
    else some (.error (.protocol "DATA length does not match its record count"), m)
  else if f.kind = kindGap then
    -- the source no longer has what was asked for
    if m.ring.nextSeq < f.seq then
      let m := { m with gaps := m.gaps + 1, ring := m.ring.skipTo f.seq }
      m.afterAdvance g env m.pending
    else some (.ok (), m)
  else if f.kind = kindHeartbeat then some (m.onSourceSeq env f.seq)
  else if f.kind = kindMulticast then some (.ok (), m)
  else some (.error (.protocol "unexpected frame kind"), m)

/-- `handle_datagram`. -/
def handleDatagram (g : Geometry w) (session : UInt8) (env : Env) (m : Mirror w)
    (bytes : List UInt8) : Option (Except RingfireError Unit × Mirror w) :=
  if bytes.length < frameHeaderLen then some (.ok (), m)
  else
    let f := Frame.decode (bytes.take frameHeaderLen)
    -- a datagram of an earlier incarnation of the source
    if f.flags ≠ session.toNat then some (.ok (), m)
    else if f.kind = kindData then
      -- a malformed datagram is dropped, a malformed control frame is an error
      if frameSizesOk g f.count f.len = false ∨ bytes.length < frameHeaderLen + f.len then
        some (.ok (), m)
      else m.apply g env f.seq f.count ((bytes.drop frameHeaderLen).take f.len)
    else if f.kind = kindHeartbeat then some (m.onSourceSeq env f.seq)
    else some (.ok (), m)

end Mirror

/-- What a mirror handles. -/
inductive MirrorInput where
  | datagram (bytes : List UInt8)
  | control (f : Frame) (body : List UInt8)
  | timeout

/-- A step of a mirror; `timeout` repeats the outstanding `NAK`. -/
def Mirror.receive (g : Geometry w) (session : UInt8) (env : Env) (m : Mirror w) :
    MirrorInput → Option (Except RingfireError Unit × Mirror w)
  | .datagram bytes => m.handleDatagram g session env bytes
  | .control f body => m.handleControl g env f body
  | .timeout =>
    match m.nak with
    | some nak => some (m.sendNak env nak)
    | none => some (.ok (), m)

/-- A step with its result forgotten. -/
def Mirror.next (g : Geometry w) (session : UInt8) (m : Mirror w) (a : Env × MirrorInput) :
    Option (Mirror w) :=
  (m.receive g session a.1 a.2).map Prod.snd

/-! ## What can arrive -/

/-- The sequences and sizes a frame can carry. -/
structure DataFits (record : ℕ → Record) (first count : ℕ) : Prop where
  seq : first + count ≤ 2 ^ 63
  width : count < 256 ^ 2
  len : (dataBytes record first count).length < 256 ^ 4

/-- What can arrive from one incarnation of the source, whose record `s` is `record s` and whose
session byte is `session`: `DATA` and `HEARTBEAT` datagrams, the `DATA` and `GAP` frames that answer
a `NAK`, and datagrams of other incarnations. -/
inductive Legit (record : ℕ → Record) (session : UInt8) : MirrorInput → Prop where
  | data (seq count : ℕ) (fits : DataFits record seq count) :
      Legit record session (.datagram
        ((dataFrame session.toNat count seq (dataBytes record seq count)).encode ++
          dataBytes record seq count))
  | heartbeat (seq : ℕ) (fits : seq < 2 ^ 63) :
      Legit record session (.datagram (Frame.mk kindHeartbeat session.toNat 0 0 seq).encode)
  | foreign (bytes : List UInt8)
      (other : (Frame.decode (bytes.take frameHeaderLen)).flags ≠ session.toNat) :
      Legit record session (.datagram bytes)
  | resent (seq count : ℕ) (fits : DataFits record seq count) :
      Legit record session
        (.control (dataFrame 0 count seq (dataBytes record seq count)) (dataBytes record seq count))
  | gap (seq : ℕ) (fits : seq < 2 ^ 63) : Legit record session (.control (.control kindGap seq) [])
  | beat (seq : ℕ) (fits : seq < 2 ^ 63) :
      Legit record session (.control (.control kindHeartbeat seq) [])
  | timeout : Legit record session .timeout

/-! ## What a step does -/

namespace Mirror

/-- The moves a step is made of, apart from the jump of a `GAP`. -/
inductive Move (g : Geometry w) (record : ℕ → Record) (m m' : Mirror w) : Prop where
  | keep (ring : m'.ring = m.ring) (pending : m'.pending = m.pending)
  | drop (x : Held) (ring : m'.ring = m.ring) (pending : m.pending = x :: m'.pending)
      (past : x.1 + x.2.1 ≤ m.ring.nextSeq)
  | hold (seq count : ℕ) (ring : m'.ring = m.ring) (ahead : m.ring.nextSeq < seq)
      (pending : m'.pending =
        OrderedMap.insertNew seq (count, dataBytes record seq count) m.pending)
  | write (seq count : ℕ) (start : seq ≤ m.ring.nextSeq)
      (writes : MirrorRing.Writes g record m.ring.nextSeq seq count m.ring m'.ring)
      (pending : m'.pending = m.pending ∨
        ∃ payload, m.pending = (seq, count, payload) :: m'.pending)

/-- Any number of moves. -/
abbrev Moves (g : Geometry w) (record : ℕ → Record) : Mirror w → Mirror w → Prop :=
  Relation.ReflTransGen (Move g record)

/-- The ring is right, and so is everything kept aside. -/
structure Inv (g : Geometry w) (record : ℕ → Record) (m : Mirror w) : Prop where
  ring : m.ring.Inv g record
  held : ∀ x ∈ m.pending, x.2.2 = dataBytes record x.1 x.2.1

variable {g : Geometry w} {record : ℕ → Record} {session : UInt8} {env : Env} {m m' : Mirror w}

theorem Inv.move (h : m.Inv g record) (hm : Move g record m m') : m'.Inv g record := by
  cases hm with
  | keep ring pending => exact ⟨by rw [ring]; exact h.ring, by rw [pending]; exact h.held⟩
  | drop x ring pending past =>
    refine ⟨by rw [ring]; exact h.ring, fun y hy => h.held y ?_⟩
    rw [pending]
    exact List.mem_cons_of_mem x hy
  | hold seq count ring ahead pending =>
    refine ⟨by rw [ring]; exact h.ring, fun y hy => ?_⟩
    rw [pending] at hy
    rcases OrderedMap.mem_insertNew hy with rfl | hy
    · rfl
    · exact h.held y hy
  | write seq count start writes pending =>
    refine ⟨writes.inv, fun y hy => h.held y ?_⟩
    rcases pending with heq | ⟨payload, heq⟩
    · rw [← heq]
      exact hy
    · rw [heq]
      exact List.mem_cons_of_mem _ hy

theorem Inv.moves (h : m.Inv g record) (hm : Moves g record m m') : m'.Inv g record := by
  induction hm with
  | refl => exact h
  | tail _ hstep ih => exact ih.move hstep

/-- Neither the ring nor what is kept aside changes. -/
structure Same (m m' : Mirror w) : Prop where
  ring : m'.ring = m.ring
  pending : m'.pending = m.pending

theorem sendNak_same (m : Mirror w) (nak : Nak) : m.Same (m.sendNak env nak).2 := by
  unfold sendNak
  split_ifs <;> exact ⟨rfl, rfl⟩

theorem request_same {e : Env} (m : Mirror w) (first last : ℕ) :
    m.Same (m.request e first last).2 := by
  unfold request
  simp only
  split
  · split_ifs
    · exact ⟨rfl, rfl⟩
    · exact sendNak_same m _
  · exact sendNak_same m _

theorem clearNak_same (m : Mirror w) : m.Same m.clearNak := by
  unfold clearNak
  split
  · split_ifs <;> exact ⟨rfl, rfl⟩
  · exact ⟨rfl, rfl⟩

theorem onSourceSeq_same (m : Mirror w) (seq : ℕ) : m.Same (m.onSourceSeq env seq).2 := by
  unfold onSourceSeq
  simp only
  split_ifs
  · obtain ⟨hring, hpending⟩ := request_same (e := env)
      { m with sourceSeq := max m.sourceSeq seq } m.ring.nextSeq seq
    exact ⟨hring, hpending⟩
  · exact ⟨rfl, rfl⟩

theorem Same.move (h : m.Same m') : Move g record m m' := .keep h.ring h.pending

/-- A move depends on nothing but the ring and what is kept aside. -/
theorem Same.trans_move {m₁ : Mirror w} (h : m.Same m₁) (hm : Move g record m₁ m') :
    Move g record m m' := by
  obtain ⟨hring, hpending⟩ := h
  cases hm with
  | keep ring pending => exact .keep (ring.trans hring) (pending.trans hpending)
  | drop x ring pending past =>
    exact .drop x (ring.trans hring) (hpending.symm.trans pending) (hring ▸ past)
  | hold seq count ring ahead pending =>
    exact .hold seq count (ring.trans hring) (hring ▸ ahead) (hpending ▸ pending)
  | write seq count start writes pending =>
    exact .write seq count (hring ▸ start) (hring ▸ writes) (hpending ▸ pending)

theorem Same.moves {r : Except RingfireError Unit × Mirror w} {res : Except RingfireError Unit}
    (h : m.Same r.2) (hr : some r = some (res, m')) : Moves g record m m' := by
  cases Option.some_injective _ hr
  exact .single h.move

variable (hwf : ∀ s, (record s).WellFormed g)
include hwf

/-- Writing records of the source that continue the ring. -/
theorem writeRecords_spec (h : m.ring.Inv g record) {seq count : ℕ}
    {res : Except RingfireError Unit} (hseq : seq ≤ m.ring.nextSeq)
    (hw : m.writeRecords g seq count (dataBytes record seq count) = some (res, m')) :
    res = .ok () ∧ m'.pending = m.pending ∧
      MirrorRing.Writes g record m.ring.nextSeq seq count m.ring m'.ring := by
  obtain ⟨⟨res', ring⟩, hring, heq⟩ := Option.map_eq_some_iff.mp hw
  obtain ⟨hwrites, rfl, -⟩ := h.writeRecords (fun k _ _ => hwf k) hseq hring
  cases heq
  exact ⟨rfl, rfl, hwrites⟩

/-- A turn of the loop of `after_advance`: the first entry is dropped, written, or ahead and then
stays. -/
theorem advanceOne_spec (h : m.Inv g record) {x : Held} {rest : List Held}
    (hp : m.pending = x :: rest) {t : Turned w} (hone : m.advanceOne g env x rest = some t) :
    (∃ res m₁, t = .stop res m₁ ∧ m.Same m₁) ∨
      ∃ m₁, t = .goOn m₁ ∧ Move g record m m₁ ∧ m₁.pending = rest := by
  have hsame := clearNak_same m
  unfold advanceOne at hone
  generalize m.clearNak = m₀ at hsame hone
  have h₀ := h.move hsame.move
  have hp₀ : m₀.pending = x :: rest := hsame.pending.trans hp
  have hx := h₀.held x (by rw [hp₀]; exact List.mem_cons_self)
  simp only at hone
  split_ifs at hone with hpast hahead
  · cases hone
    exact .inr ⟨_, rfl, hsame.trans_move (.drop x rfl hp₀ hpast), rfl⟩
  · cases hone
    obtain ⟨hr, hpd⟩ := request_same (e := env) { m₀ with pending := x :: rest }
      m₀.ring.nextSeq (x.1 - 1)
    exact .inl ⟨_, _, rfl, hr.trans hsame.ring, hpd.trans hp.symm⟩
  · -- a record that is right is never refused
    obtain ⟨⟨res, m₁⟩, hwr, heq⟩ := Option.map_eq_some_iff.mp hone
    rw [hx] at hwr
    obtain ⟨rfl, hpd, hwrites⟩ := writeRecords_spec hwf (m := { m₀ with pending := rest })
      h₀.ring (Nat.not_lt.mp hahead) hwr
    cases heq
    exact .inr ⟨m₁, rfl, hsame.trans_move (.write x.1 x.2.1 (Nat.not_lt.mp hahead) hwrites
      (.inr ⟨x.2.2, by rw [hp₀, hpd]⟩)), hpd⟩

/-- `after_advance` drops what is past, writes what continues the ring, and stops at the first entry
that is ahead. -/
theorem afterAdvance_moves :
    ∀ (entries : List Held) {m m' : Mirror w} {res : Except RingfireError Unit},
      m.Inv g record → m.pending = entries → m.afterAdvance g env entries = some (res, m') →
      Moves g record m m' := by
  intro entries
  induction entries with
  | nil =>
    intro m m' res h hp haa
    cases haa
    exact .single (clearNak_same m).move
  | cons x rest ih =>
    intro m m' res h hp haa
    rw [afterAdvance] at haa
    split at haa
    · cases haa
    · next res₁ m₁ hone =>
      cases haa
      rcases advanceOne_spec hwf h hp hone with ⟨_, _, ht, hsame⟩ | ⟨_, ht, -⟩
      · cases ht
        exact .single hsame.move
      · cases ht
    · next m₁ hone =>
      rcases advanceOne_spec hwf h hp hone with ⟨_, _, ht, -⟩ | ⟨_, ht, hmove, hpd⟩
      · cases ht
      · cases ht
        exact .head hmove (ih (h.move hmove) hpd haa)

/-- `apply` on records of the source. -/
theorem apply_moves (h : m.Inv g record) {seq count : ℕ} {res : Except RingfireError Unit}
    (ha : m.apply g env seq count (dataBytes record seq count) = some (res, m')) :
    Moves g record m m' := by
  unfold Mirror.apply at ha
  split_ifs at ha with hpast hahead
  · cases ha
    exact .refl
  · obtain ⟨hring, hpending⟩ := request_same (e := env)
      (m.hold seq count (dataBytes record seq count)) m.ring.nextSeq (seq - 1)
    rw [Option.some_injective _ ha] at hring hpending
    unfold Mirror.hold at hring hpending
    split_ifs at hring hpending
    · exact .single (.hold seq count hring hahead hpending)
    · exact .single (.keep hring hpending)
  · split at ha
    · cases ha
    · next e m₁ hwr =>
      cases (writeRecords_spec hwf h.ring (Nat.not_lt.mp hahead) hwr).1
    · next u m₁ hwr =>
      obtain ⟨-, hpd, hwrites⟩ := writeRecords_spec hwf h.ring (Nat.not_lt.mp hahead) hwr
      have hmove : Move g record m m₁ :=
        .write seq count (Nat.not_lt.mp hahead) hwrites (.inl hpd)
      exact .head hmove (afterAdvance_moves hwf _ (h.move hmove) rfl ha)

omit hwf in
/-- A `DATA` header with its fields in range. -/
theorem dataFrame_fits {seq count flags : ℕ} (h : DataFits record seq count)
    (hflags : flags < 256 ^ 1) :
    (dataFrame flags count seq (dataBytes record seq count)).Fits := by
  refine ⟨?_, hflags, h.width, h.len, ?_⟩
  · exact (by decide : kindData < 256 ^ 1)
  · have hseq := h.seq
    simp only [dataFrame]
    omega

omit hwf in
/-- The body of a `DATA` datagram reaches `apply` unchanged. -/
theorem handleDatagram_data {seq count : ℕ} (hf : DataFits record seq count) :
    m.handleDatagram g session env
      ((dataFrame session.toNat count seq (dataBytes record seq count)).encode ++
        dataBytes record seq count) =
      if frameSizesOk g count (dataBytes record seq count).length = false then some (.ok (), m)
      else m.apply g env seq count (dataBytes record seq count) := by
  have hlen := Frame.length_encode
    (dataFrame session.toNat count seq (dataBytes record seq count))
  have hdec := Frame.decode_encode (dataFrame_fits hf session.toNat_lt) []
  rw [List.append_nil] at hdec
  have hlong : ¬ (frameHeaderLen + (dataBytes record seq count).length < frameHeaderLen) := by
    omega
  unfold Mirror.handleDatagram
  rw [List.take_left' hlen, List.drop_left' hlen, List.length_append, hlen, if_neg hlong]
  simp only [hdec]
  simp only [dataFrame, List.take_length, ne_eq, not_true_eq_false, if_false, if_true,
    Nat.lt_irrefl, or_false]

omit hwf in
/-- A `HEARTBEAT` datagram. -/
theorem handleDatagram_beat {seq : ℕ} (hseq : seq < 2 ^ 63) :
    m.handleDatagram g session env (Frame.mk kindHeartbeat session.toNat 0 0 seq).encode =
      some (m.onSourceSeq env seq) := by
  have hlen := Frame.length_encode ⟨kindHeartbeat, session.toNat, 0, 0, seq⟩
  have hfits : (Frame.mk kindHeartbeat session.toNat 0 0 seq).Fits :=
    ⟨(by decide : kindHeartbeat < 256 ^ 1), session.toNat_lt, (by decide : 0 < 256 ^ 2),
      (by decide : 0 < 256 ^ 4), (by omega : seq < 256 ^ 8)⟩
  have hdec := Frame.decode_encode hfits []
  rw [List.append_nil] at hdec
  unfold Mirror.handleDatagram
  rw [List.take_of_length_le hlen.le, if_neg (by rw [hlen]; exact Nat.lt_irrefl _)]
  simp only [hdec, ne_eq, not_true_eq_false, if_false, if_true]
  rw [if_neg (by decide : ¬ kindHeartbeat = kindData)]

omit hwf in
theorem handleControl_gap (seq : ℕ) (body : List UInt8) :
    m.handleControl g env (.control kindGap seq) body =
      if m.ring.nextSeq < seq then
        { m with gaps := m.gaps + 1, ring := m.ring.skipTo seq }.afterAdvance g env m.pending
      else some (.ok (), m) :=
  rfl

omit hwf in
theorem handleControl_beat (seq : ℕ) (body : List UInt8) :
    m.handleControl g env (.control kindHeartbeat seq) body = some (m.onSourceSeq env seq) :=
  rfl

/-- A step is a chain of moves, with the jump of a `GAP` in front of it if that is what arrived. -/
theorem receive_moves (h : m.Inv g record) {a : MirrorInput} (hl : Legit record session a)
    {res : Except RingfireError Unit} (hr : m.receive g session env a = some (res, m')) :
    Moves g record m m' ∨ ∃ seq, a = .control (.control kindGap seq) [] ∧ m.ring.nextSeq < seq ∧
      Moves g record { m with gaps := m.gaps + 1, ring := m.ring.skipTo seq } m' := by
  cases hl with
  -- datagrams
  | data seq count fits =>
    rw [Mirror.receive, handleDatagram_data fits] at hr
    left
    split_ifs at hr
    · cases hr
      exact .refl
    · exact apply_moves hwf h hr
  | heartbeat seq fits =>
    rw [Mirror.receive, handleDatagram_beat fits] at hr
    exact .inl ((onSourceSeq_same m seq).moves hr)
  | foreign bytes other =>
    simp only [Mirror.receive, Mirror.handleDatagram] at hr
    left
    rw [if_pos other] at hr
    split_ifs at hr
    · cases hr
      exact .refl
    · cases hr
      exact .refl
  -- frames of the TCP connection; only a `GAP` moves the write position without a record
  | resent seq count fits =>
    simp only [Mirror.receive, Mirror.handleControl, dataFrame, List.take_length, if_true] at hr
    left
    split_ifs at hr
    · exact apply_moves hwf h hr
    · cases hr
      exact .refl
  | gap seq fits =>
    rw [Mirror.receive, handleControl_gap] at hr
    by_cases hlt : m.ring.nextSeq < seq
    · rw [if_pos hlt] at hr
      exact .inr ⟨seq, rfl, hlt, afterAdvance_moves hwf _ ⟨h.ring.skipTo seq, h.held⟩ rfl hr⟩
    · rw [if_neg hlt] at hr
      cases hr
      exact .inl .refl
  | beat seq fits =>
    rw [Mirror.receive, handleControl_beat] at hr
    exact .inl ((onSourceSeq_same m seq).moves hr)
  | timeout =>
    simp only [Mirror.receive] at hr
    left
    split at hr
    · next nak hnak => exact (sendNak_same m nak).moves hr
    · cases hr
      exact .refl

/-- **Every step keeps the log of writes right and in order.** -/
theorem Inv.next (h : m.Inv g record) {a : Env × MirrorInput} (hl : Legit record session a.2)
    (hn : m.next g session a = some m') : m'.Inv g record := by
  obtain ⟨⟨res, m₁⟩, hr, rfl⟩ := Option.map_eq_some_iff.mp hn
  rcases receive_moves hwf h hl hr with hmoves | ⟨seq, -, -, hmoves⟩
  · exact h.moves hmoves
  · have hskip : Inv g record { m with gaps := m.gaps + 1, ring := m.ring.skipTo seq } :=
      ⟨h.ring.skipTo seq, h.held⟩
    exact hskip.moves hmoves

end Mirror

/-- A mirror as `connect` leaves it: the ring is fresh or was adopted, whatever it holds, and
nothing was written yet. -/
structure Mirror.Connected (m : Mirror w) : Prop where
  log : m.ring.log = []
  pending : m.pending = []
  granted : m.ring.arena.granted = []
  written : m.ring.arena.written = []
  aligned : 64 ∣ m.ring.arena.reserved

theorem Mirror.Connected.inv {g : Geometry w} {record : ℕ → Record} {m : Mirror w}
    (h : m.Connected) : m.Inv g record := by
  refine ⟨.of_log h.log, ?_⟩
  rw [h.pending]
  rintro _ ⟨⟩

/-- **The UDP mirror never reorders, duplicates or corrupts.** Whatever is lost, repeated, delayed
or reordered among the datagrams of one incarnation of the source, and however the answers to
`NAK`s come in between: every write is at the write position, the sequences written are strictly
increasing, and what is written under `s` is the payload of record `s`. -/
theorem mirror_never_reorders {g : Geometry w} {record : ℕ → Record} {session : UInt8}
    (hwf : ∀ s, (record s).WellFormed g) {m m' : Mirror w} (hm : m.Connected)
    {as : List (Env × MirrorInput)} (has : ∀ a ∈ as, Legit record session a.2)
    (hrun : Transition.run (Mirror.next g session) m as = some m') :
    (∀ x ∈ m'.ring.log, x.seq = x.position ∧ x.Right g record) ∧
      (m'.ring.log.map Written.seq).Pairwise (· < ·) := by
  have hinv : m'.Inv g record := Transition.run_invariant
    (P := fun m => m.Inv g record) (Q := fun a => Legit record session a.2)
    (fun hl h hstep => h.next hwf hl hstep) has hm.inv hrun
  exact ⟨fun x hx => ⟨(hinv.ring.right x hx).position, hinv.ring.right x hx⟩,
    hinv.ring.increasing⟩

/-- Slots that hold a descriptor and nothing else, over an arena of one cache line. -/
def bareBlobs : Geometry 16 := ⟨⟨4, isPowerOfTwo_four⟩, some .oneLine, fun _ => le_refl 16⟩

/-- Record `s` carries the byte `s`. -/
def countingRecord (s : ℕ) : Record := ⟨blobRefBytes ⟨0, 1, 0⟩, [UInt8.ofNat s]⟩

/-- A mirror of a fresh ring. -/
def freshMirror : Mirror 16 := ⟨.create 16, 0, 0, none, [], []⟩

theorem countingRecord_wellFormed (s : ℕ) : (countingRecord s).WellFormed bareBlobs := by
  refine ⟨rfl, by rintro ⟨⟩, ?_⟩
  rintro acap ⟨⟩
  exact ⟨rfl, (by decide : 1 ≤ PayloadArena.maxLen .oneLine)⟩

/-- Datagram `2` arrives first and is kept aside until record `1` was sent again. -/
theorem mirror_never_reorders_swapped :
    ∃ m' : Mirror 16,
      Transition.run (Mirror.next bareBlobs 7) freshMirror
        [(⟨true, true⟩, .datagram ((dataFrame 7 1 2 (dataBytes countingRecord 2 1)).encode ++
            dataBytes countingRecord 2 1)),
          (⟨true, true⟩, .control (dataFrame 0 1 1 (dataBytes countingRecord 1 1))
            (dataBytes countingRecord 1 1))] = some m' ∧
      m'.requested = [⟨1, 1⟩] ∧ m'.ring.log.map Written.seq = [1, 2] ∧
      ∀ x ∈ m'.ring.log, x.Right bareBlobs countingRecord := by
  obtain ⟨m', hrun⟩ : ∃ m' : Mirror 16, Transition.run (Mirror.next bareBlobs 7) freshMirror
      [(⟨true, true⟩, .datagram ((dataFrame 7 1 2 (dataBytes countingRecord 2 1)).encode ++
          dataBytes countingRecord 2 1)),
        (⟨true, true⟩, .control (dataFrame 0 1 1 (dataBytes countingRecord 1 1))
          (dataBytes countingRecord 1 1))] = some m' := ⟨_, rfl⟩
  have hlog : m'.requested = [⟨1, 1⟩] ∧ m'.ring.log.map Written.seq = [1, 2] := by
    cases hrun
    exact ⟨rfl, rfl⟩
  have hlegit : ∀ a ∈ [((⟨true, true⟩ : Env),
      MirrorInput.datagram ((dataFrame 7 1 2 (dataBytes countingRecord 2 1)).encode ++
        dataBytes countingRecord 2 1)),
      (⟨true, true⟩, .control (dataFrame 0 1 1 (dataBytes countingRecord 1 1))
        (dataBytes countingRecord 1 1))], Legit countingRecord 7 a.2 := by
    intro a ha
    rcases List.mem_cons.mp ha with rfl | ha
    · exact .data 2 1 ⟨by decide, by decide, by decide⟩
    · rw [List.mem_singleton.mp ha]
      exact .resent 1 1 ⟨by decide, by decide, by decide⟩
  refine ⟨m', hrun, hlog.1, hlog.2, fun x hx => ?_⟩
  exact ((mirror_never_reorders countingRecord_wellFormed
    ⟨rfl, rfl, rfl, rfl, Nat.dvd_refl 64 |>.mul_right 0⟩ hlegit hrun).1 x hx).2

end Ringfire
