import Ringfire.Layout.Connect

/-!
# The first bytes of a connection

A mirror says `HELLO`: which sequence it wants first, and whether it prefers its records by unicast.
The source answers with a `GEOMETRY`: where it will start, and whether the mirror has to start over.
When the records do not come over the connection, a `MULTICAST` frame follows: a group and a port,
or no group, the port to punch to, and a token. `serve_client` decides which; the mirror only knows
what it reads.

## Main definitions

* `hello`, `readHello`: what the mirror sends, and what the source makes of it
* `chooseDelivery`, `answer`, `greet`: what the source decides and sends
* `readAnswer`: what the mirror makes of it

## Main results

* `readHello_eq_ok`: which mirrors are served
* `readAnswer_answer`: which answers are understood
* `greeting_agrees`: when both ends mean the same
-/

namespace Ringfire

namespace Layout

open Checked LittleEndian

/-! ## Model -/

/-- `HELLO_LEN`. -/
def helloLen : ℕ := 16

/-- `REPLICATION_MAGIC`. -/
def replicationMagic : ℕ := 0x52494E474D495252

/-- `REPLICATION_VERSION`. -/
def replicationVersion : ℕ := 1

/-- The flags of a `HELLO`. -/
def helloUdp : ℕ := 0x01
@[inherit_doc helloUdp] def helloPreferUnicast : ℕ := 0x02

/-- `Ipv4Addr`. -/
structure Ipv4Addr where
  a : UInt8
  b : UInt8
  c : UInt8
  d : UInt8
  deriving DecidableEq

namespace Ipv4Addr

/-- `UNSPECIFIED`. -/
def unspecified : Ipv4Addr := ⟨0, 0, 0, 0⟩

/-- `is_unspecified`. -/
def isUnspecified (i : Ipv4Addr) : Bool := i = unspecified

/-- `is_multicast`. -/
def isMulticast (i : Ipv4Addr) : Bool := 224 ≤ i.a.toNat ∧ i.a.toNat ≤ 239

/-- `octets`. -/
def octets (i : Ipv4Addr) : List UInt8 := [i.a, i.b, i.c, i.d]

end Ipv4Addr

/-- What `MulticastConfig` says to the mirrors. -/
structure MulticastConfig where
  group : Ipv4Addr
  port : UInt16
  mtu : ℕ
  ttl : UInt8
  deriving DecidableEq

/-- `UdpOffer`: what the source is configured to do; unicast is a port and an MTU. -/
structure UdpOffer where
  multicast : Option MulticastConfig
  unicast : Option (UInt16 × ℕ)

/-- How the live records go to a mirror. -/
inductive Delivery where
  | tcp
  | multicast (cfg : MulticastConfig)
  | unicast (port : UInt16) (mtu : ℕ) (token : UInt32)
  deriving DecidableEq

/-- `encode_udp_info`. -/
def encodeUdpInfo (group : Ipv4Addr) (port : UInt16) (mtu : ℕ) (ttl session : UInt8)
    (token : UInt32) : List UInt8 :=
  group.octets ++ toLe 2 port.toNat ++ toLe 2 (min mtu (2 ^ 16 - 1)) ++ [ttl] ++ [session] ++
    toLe 4 token.toNat ++ [0, 0]

/-- `MulticastInfo`. -/
structure MulticastInfo where
  group : Ipv4Addr
  port : UInt16
  session : UInt8
  token : UInt32
  deriving DecidableEq

/-- `MulticastInfo::decode`. -/
def MulticastInfo.decode (b : List UInt8) : Except RingfireError MulticastInfo := do
  let group : Ipv4Addr := ⟨b.getD 0 0, b.getD 1 0, b.getD 2 0, b.getD 3 0⟩
  require (group.isMulticast = true ∨ group.isUnspecified = true)
    (.protocol "MULTICAST group is not a multicast address")
  return ⟨group, .ofNat (ofLe ((b.drop 4).take 2)), b.getD 9 0, .ofNat (ofLe ((b.drop 10).take 4))⟩

/-- The `HELLO` of `MirrorBuilder::connect`. -/
def hello (wanted : ℕ) (preferUnicast : Bool) : List UInt8 :=
  (Frame.mk kindHello 0 0 helloLen wanted).encode ++ toLe 8 replicationMagic ++
    toLe 4 replicationVersion ++
    toLe 1 (helloUdp ||| if preferUnicast then helloPreferUnicast else 0) ++ [0, 0, 0]

/-- The `HELLO` as `serve_client` reads it: the first sequence wanted, the flags, and what follows
on the stream. -/
def readHello (stream : List UInt8) : Except RingfireError ((ℕ × ℕ) × List UInt8) := do
  let (hdr, stream) ← readExact frameHeaderLen stream
  let frame := Frame.decode hdr
  require (frame.kind = kindHello ∧ frame.len = helloLen) (.protocol "expected HELLO")
  let (body, stream) ← readExact helloLen stream
  require (ofLe (body.take 8) = replicationMagic) (.protocol "bad HELLO magic")
  require (ofLe ((body.drop 8).take 4) = replicationVersion)
    (.protocol "unsupported replication protocol version")
  return ((frame.seq, ofLe ((body.drop 12).take 1)), stream)

/-- The choice of `serve_client`; `token` is the one it takes for a unicast mirror. -/
def chooseDelivery (offer : UdpOffer) (flags : ℕ) (token : UInt32) : Delivery :=
  let wantsUdp : Bool := flags &&& helloUdp ≠ 0
  let prefersUnicast : Bool := flags &&& helloPreferUnicast ≠ 0
  let unicast := offer.unicast.filter fun _ =>
    wantsUdp && (prefersUnicast || offer.multicast.isNone)
  match unicast, offer.multicast with
  | some (port, mtu), _ => .unicast port mtu token
  | none, some cfg => .multicast cfg
  | none, none => .tcp

/-- The bytes of the `MULTICAST` frame that go with a choice. -/
def udpInfo (session : UInt8) : Delivery → Option (List UInt8)
  | .tcp => none
  | .multicast cfg => some (encodeUdpInfo cfg.group cfg.port cfg.mtu cfg.ttl session 0)
  | .unicast port mtu token => some (encodeUdpInfo .unspecified port mtu 0 session token)

/-- The `MULTICAST` frame. -/
def multicastFrame (info : List UInt8) : List UInt8 :=
  (Frame.mk kindMulticast 0 0 multicastLen 0).encode ++ info

/-- The flags of a `GEOMETRY`. -/
def geometryFlags (reset : Bool) (d : Delivery) : ℕ :=
  (if reset then geometryReset else 0) ||| if d = .tcp then 0 else geometryMulticast

/-- What `serve_client` writes before the first record. -/
def answer (g : Geometry) (first : ℕ) (reset : Bool) (session : UInt8) (d : Delivery) :
    List UInt8 :=
  (Frame.mk kindGeometry (geometryFlags reset d) 0 geometryLen first).encode ++ g.encode ++
    ((udpInfo session d).map multicastFrame).getD []

/-- What `serve_client` does before the first record: the answer to a `HELLO`, how the records will
go, and where they start. -/
def greet (g : Geometry) (cap : Capacity) (writeSeq : ℕ) (offer : UdpOffer) (session : UInt8)
    (token : UInt32) (stream : List UInt8) : Except RingfireError (List UInt8 × Delivery × ℕ) := do
  let ((wanted, flags), _) ← readHello stream
  let d := chooseDelivery offer flags token
  let (first, reset) := position writeSeq cap wanted
  return (answer g first reset session d, d, first)

/-- How the mirror expects its records. -/
inductive Live where
  | tcp
  | group (group : Ipv4Addr) (port : UInt16) (session : UInt8)
  /-- The source is at `port`, and sends to where it is punched from. -/
  | punch (port : UInt16) (session : UInt8) (token : UInt32)
  deriving DecidableEq

/-- What a mirror knows of the source when `connect` has read its answer. -/
structure Welcome where
  geometry : Geometry
  first : ℕ
  reset : Bool
  live : Live
  deriving DecidableEq

/-- The `MULTICAST` frame as `connect` reads it, and what follows on the stream. -/
def readMulticast (ipv4 : Bool) (stream : List UInt8) :
    Except RingfireError (Live × List UInt8) := do
  let (hdr, stream) ← readExact frameHeaderLen stream
  let frame := Frame.decode hdr
  require (frame.kind = kindMulticast ∧ frame.len = multicastLen) (.protocol "expected MULTICAST")
  let (info, stream) ← readExact multicastLen stream
  let info ← MulticastInfo.decode info
  if info.group.isUnspecified then
    require (ipv4 = true) (.unsupported "unicast delivery needs an IPv4 source")
    return (.punch info.port info.session info.token, stream)
  else return (.group info.group info.port info.session, stream)

/-- The answer of the source as `connect` reads it, from a source with an IPv4 address or not, and
what follows on the stream. -/
def readAnswer (ipv4 : Bool) (stream : List UInt8) :
    Except RingfireError (Welcome × List UInt8) := do
  let (hdr, stream) ← readExact frameHeaderLen stream
  let frame := Frame.decode hdr
  require (frame.kind = kindGeometry ∧ frame.len = geometryLen) (.protocol "expected GEOMETRY")
  let (body, stream) ← readExact geometryLen stream
  let g ← Geometry.decode body
  let reset : Bool := frame.flags &&& geometryReset ≠ 0
  let (live, stream) ←
    if frame.flags &&& geometryMulticast ≠ 0 then readMulticast ipv4 stream else .ok (.tcp, stream)
  return (⟨g, frame.seq, reset, live⟩, stream)

/-- What the source means by its choice. -/
def Delivery.live (session : UInt8) : Delivery → Live
  | .tcp => .tcp
  | .multicast cfg => .group cfg.group cfg.port session
  | .unicast port _ token => .punch port session token

/-- The choice can be told to a mirror: a group is a multicast address, and a source of unicast has
an IPv4 address. -/
def Delivery.Tellable (ipv4 : Bool) : Delivery → Prop
  | .tcp => True
  | .multicast cfg => cfg.group.isMulticast = true
  | .unicast _ _ _ => ipv4 = true

/-! ## What is read back -/

section

variable {g : Geometry} {ipv4 : Bool} {session : UInt8} {d : Delivery}

theorem readExact_append {n : ℕ} {front : List UInt8} (h : front.length = n) (rest : List UInt8) :
    readExact n (front ++ rest) = .ok (front, rest) := by
  rw [readExact_eq_ok, List.length_append, List.take_left' h, List.drop_left' h]
  exact ⟨by omega, rfl, rfl⟩

/-- A header is read back. -/
theorem readExact_encode {f : Frame} (h : f.Fits) (rest : List UInt8) :
    readExact frameHeaderLen (f.encode ++ rest) = .ok (f.encode, rest) ∧
      Frame.decode f.encode = f := by
  refine ⟨readExact_append f.length_encode rest, ?_⟩
  have hdecode := Frame.decode_encode h []
  rwa [List.append_nil] at hdecode

/-- **A `HELLO` is read back**, whatever follows it. -/
theorem readHello_hello {wanted : ℕ} (h : wanted < 2 ^ 64) (preferUnicast : Bool)
    (rest : List UInt8) :
    readHello (hello wanted preferUnicast ++ rest) =
      .ok ((wanted, helloUdp ||| if preferUnicast then helloPreferUnicast else 0), rest) := by
  have hf : (Frame.mk kindHello 0 0 helloLen wanted).Fits :=
    ⟨(by decide : kindHello < 256 ^ 1), (by decide : 0 < 256 ^ 1), (by decide : 0 < 256 ^ 2),
      (by decide : helloLen < 256 ^ 4), h⟩
  generalize hflags : (helloUdp ||| if preferUnicast then helloPreferUnicast else 0) = flags
  have hlt : flags < 256 := by
    subst hflags
    cases preferUnicast <;> decide
  let body := toLe 8 replicationMagic ++ toLe 4 replicationVersion ++ toLe 1 flags ++ [0, 0, 0]
  have hbody : body.length = helloLen := by simp [body, helloLen]
  have hsplit : hello wanted preferUnicast ++ rest =
      (Frame.mk kindHello 0 0 helloLen wanted).encode ++ (body ++ rest) := by
    simp only [hello, hflags, body, List.append_assoc]
  have hmagic : ofLe (body.take 8) = replicationMagic := by
    have hfield : ofLe ((body.drop 0).take 8) = replicationMagic :=
      ofLe_field [] _ (by simp only [body, List.append_assoc, List.nil_append]; rfl) rfl (by decide)
    rwa [List.drop_zero] at hfield
  have hversion : ofLe ((body.drop 8).take 4) = replicationVersion :=
    ofLe_field (toLe 8 replicationMagic) _ (by simp only [body, List.append_assoc]; rfl) (by simp)
      (by decide)
  have hflag : ofLe ((body.drop 12).take 1) = flags :=
    ofLe_field (toLe 8 replicationMagic ++ toLe 4 replicationVersion) _
      (by simp only [body, List.append_assoc]; rfl) (by simp) hlt
  obtain ⟨hread, hdecode⟩ := readExact_encode hf (body ++ rest)
  rw [hsplit]
  simp only [readHello, bind_eq_ok, require_eq_ok, exists_const, Prod.exists]
  refine ⟨_, _, hread, ?_, _, _, readExact_append hbody rest, hmagic, hversion, ?_⟩
  · rw [hdecode]
    exact ⟨rfl, rfl⟩
  · rw [hdecode, hflag]
    rfl

/-- **What a `MULTICAST` frame says is read back**, unless its group is no group. -/
theorem decode_encodeUdpInfo (group : Ipv4Addr) (port : UInt16) (mtu : ℕ) (ttl : UInt8)
    (token : UInt32) : MulticastInfo.decode (encodeUdpInfo group port mtu ttl session token) =
      if group.isMulticast = true ∨ group.isUnspecified = true then .ok ⟨group, port, session, token⟩
      else .error (.protocol "MULTICAST group is not a multicast address") := by
  generalize hb : encodeUdpInfo group port mtu ttl session token = b
  have hport : ofLe ((b.drop 4).take 2) = port.toNat :=
    ofLe_field group.octets _ (by rw [← hb]; simp only [encodeUdpInfo, List.append_assoc]; rfl) rfl
      port.toNat_lt
  have htoken : ofLe ((b.drop 10).take 4) = token.toNat :=
    ofLe_field (group.octets ++ toLe 2 port.toNat ++ toLe 2 (min mtu (2 ^ 16 - 1)) ++ [ttl] ++
      [session]) _ (by rw [← hb]; simp only [encodeUdpInfo, List.append_assoc]; rfl)
      (by simp [Ipv4Addr.octets]) token.toNat_lt
  have hgroup : (⟨b.getD 0 0, b.getD 1 0, b.getD 2 0, b.getD 3 0⟩ : Ipv4Addr) = group := by
    rw [← hb]
    rfl
  have hsession : b.getD 9 0 = session := by
    rw [← hb]
    rfl
  unfold MulticastInfo.decode
  simp only [hgroup, hport, htoken, hsession, require, UInt16.ofNat_toNat, UInt32.ofNat_toNat]
  split_ifs <;> rfl

theorem length_encodeUdpInfo (group : Ipv4Addr) (port : UInt16) (mtu : ℕ) (ttl : UInt8)
    (token : UInt32) : (encodeUdpInfo group port mtu ttl session token).length = multicastLen := by
  simp [encodeUdpInfo, Ipv4Addr.octets, multicastLen]

theorem readMulticast_frame {info : List UInt8} (hlen : info.length = multicastLen)
    (rest : List UInt8) :
    readMulticast ipv4 (multicastFrame info ++ rest) = (do
      let i ← MulticastInfo.decode info
      if i.group.isUnspecified then
        require (ipv4 = true) (.unsupported "unicast delivery needs an IPv4 source")
        return (.punch i.port i.session i.token, rest)
      else return (.group i.group i.port i.session, rest)) := by
  have hf : (Frame.mk kindMulticast 0 0 multicastLen 0).Fits :=
    ⟨(by decide : kindMulticast < 256 ^ 1), (by decide : 0 < 256 ^ 1), (by decide : 0 < 256 ^ 2),
      (by decide : multicastLen < 256 ^ 4), (by decide : 0 < 256 ^ 8)⟩
  obtain ⟨hread, hdecode⟩ := readExact_encode hf (info ++ rest)
  rw [multicastFrame, List.append_assoc, readMulticast, hread]
  simp only [bind, Except.bind, hdecode, readExact_append hlen rest, require, and_self, if_true]

/-- No group is both. -/
theorem Ipv4Addr.isUnspecified_of_isMulticast {i : Ipv4Addr} (h : i.isMulticast = true) :
    i.isUnspecified = false := by
  rw [isUnspecified, decide_eq_false_iff_not]
  rintro rfl
  exact absurd h (by decide)

/-- **What a mirror makes of the `MULTICAST` frame** is what the source means, when it can be
told. -/
theorem readMulticast_udpInfo {info : List UInt8} (h : udpInfo session d = some info)
    (rest : List UInt8) :
    readMulticast ipv4 (multicastFrame info ++ rest) = .ok (d.live session, rest) ↔
      d.Tellable ipv4 := by
  cases d with
  | tcp => cases h
  | multicast cfg =>
    cases h
    rw [readMulticast_frame (length_encodeUdpInfo _ _ _ _ _), decode_encodeUdpInfo]
    by_cases hm : cfg.group.isMulticast = true
    · rw [if_pos (.inl hm)]
      simp only [bind, Except.bind, Ipv4Addr.isUnspecified_of_isMulticast hm, Bool.false_eq_true,
        if_false]
      exact iff_of_true rfl hm
    · refine iff_of_false ?_ hm
      split_ifs with hgroup
      · -- no group: the mirror takes it for unicast
        simp only [bind, Except.bind, hgroup.resolve_left hm, if_true]
        cases ipv4 <;> rintro ⟨⟩
      · rintro ⟨⟩
  | unicast port mtu token =>
    cases h
    rw [readMulticast_frame (length_encodeUdpInfo _ _ _ _ _), decode_encodeUdpInfo, if_pos (.inr rfl)]
    cases ipv4 with
    | false => exact iff_of_false (by rintro ⟨⟩) (by rintro ⟨⟩)
    | true => exact iff_of_true rfl rfl

/-- The flags that a mirror looks at. -/
theorem geometryFlags_spec (reset : Bool) (d : Delivery) :
    geometryFlags reset d < 256 ∧ (geometryFlags reset d &&& geometryReset ≠ 0 ↔ reset = true) ∧
      (geometryFlags reset d &&& geometryMulticast ≠ 0 ↔ d ≠ .tcp) := by
  unfold geometryFlags
  by_cases hd : d = .tcp
  · simp only [ne_eq, hd, not_true_eq_false, iff_false]
    cases reset <;> decide
  · simp only [ne_eq, hd, not_false_eq_true, iff_true]
    cases reset <;> decide

/-- **What a mirror makes of the answer** is what the source means, when it can be told. -/
theorem readAnswer_answer (hg : g.InRange) (hacc : g.Accepted) {first : ℕ} (hfirst : first < 2 ^ 64)
    (reset : Bool) (rest : List UInt8) :
    readAnswer ipv4 (answer g first reset session d ++ rest) =
      .ok (⟨g, first, reset, d.live session⟩, rest) ↔ d.Tellable ipv4 := by
  obtain ⟨hlt, hreset, hmulticast⟩ := geometryFlags_spec reset d
  have hf : (Frame.mk kindGeometry (geometryFlags reset d) 0 geometryLen first).Fits :=
    ⟨(by decide : kindGeometry < 256 ^ 1), hlt, (by decide : 0 < 256 ^ 2),
      (by decide : geometryLen < 256 ^ 4), hfirst⟩
  have hlen : g.encode.length = geometryLen := by simp [Geometry.encode, geometryLen]
  have hdecode : Geometry.decode g.encode = .ok g :=
    (Geometry.decode_encode_eq_ok hg).mpr ⟨hacc, rfl⟩
  generalize htail : ((udpInfo session d).map multicastFrame).getD [] = tail
  obtain ⟨hread, hframe⟩ := readExact_encode hf (g.encode ++ (tail ++ rest))
  rw [answer, htail, List.append_assoc, List.append_assoc, readAnswer, hread]
  simp only [bind, Except.bind, hframe, readExact_append hlen, hdecode, require, and_self, if_true,
    hreset, hmulticast, Bool.decide_eq_true]
  cases hinfo : udpInfo session d with
  | none =>
    have hd : d = .tcp := by
      cases d with
      | tcp => rfl
      | multicast | unicast => cases hinfo
    rw [hinfo] at htail
    subst htail hd
    exact iff_of_true rfl trivial
  | some info =>
    have hd : d ≠ .tcp := by
      rintro rfl
      cases hinfo
    rw [hinfo] at htail
    subst htail
    rw [if_pos hd, ← readMulticast_udpInfo hinfo rest]
    change Except.map _ (readMulticast ipv4 (multicastFrame info ++ rest)) = _ ↔ _
    cases readMulticast ipv4 (multicastFrame info ++ rest) with
    | error e => exact iff_of_false (by rintro ⟨⟩) (by rintro ⟨⟩)
    | ok x =>
      obtain ⟨live, rest'⟩ := x
      simp only [Except.map, Except.ok.injEq, Prod.mk.injEq, Welcome.mk.injEq, true_and]

/-- A mirror that can receive datagrams is given unicast where the source offers it, unless the
source offers multicast as well and the mirror does not prefer unicast. -/
theorem chooseDelivery_eq_unicast {offer : UdpOffer} {token : UInt32} {preferUnicast : Bool} :
    (∃ port mtu, chooseDelivery offer
        (helloUdp ||| if preferUnicast then helloPreferUnicast else 0) token =
          .unicast port mtu token) ↔
      offer.unicast ≠ none ∧ (preferUnicast = true ∨ offer.multicast = none) := by
  obtain ⟨multicast, unicast⟩ := offer
  cases unicast with
  | none => cases multicast <;> simp [chooseDelivery]
  | some u =>
    obtain ⟨port, mtu⟩ := u
    cases multicast with
    | none => cases preferUnicast <;> exact iff_of_true ⟨port, mtu, rfl⟩ (by simp)
    | some cfg =>
      cases preferUnicast with
      | false => exact iff_of_false (by rintro ⟨_, _, ⟨⟩⟩) (by simp)
      | true => exact iff_of_true ⟨port, mtu, rfl⟩ (by simp)

theorem le_position (writeSeq : ℕ) (cap : Capacity) (wanted : ℕ) :
    oldestRetained writeSeq cap.val ≤ (position writeSeq cap wanted).1 := by
  have hold : oldestRetained writeSeq cap.val ≤ writeSeq + 1 := by
    rw [oldestRetained_le (Nat.succ_pos _)]
    have hcap := cap.pos
    omega
  unfold position
  split_ifs
  · exact hold
  · exact le_refl _
  · exact hold
  · exact le_max_right _ _

theorem position_reset {writeSeq wanted : ℕ} {cap : Capacity} (h : wanted ≠ helloOldest) :
    (position writeSeq cap wanted).2 = true ↔ writeSeq + 1 < wanted := by
  unfold position
  split_ifs with hlatest hahead
  · subst hlatest
    simp [helloLatest]
  · simpa using hahead
  · simpa using hahead

/-- What a mirror is answered. -/
theorem greet_hello {wanted writeSeq : ℕ} (hwanted : wanted < 2 ^ 64) (cap : Capacity)
    (offer : UdpOffer) (token : UInt32) (preferUnicast : Bool) (rest : List UInt8) :
    let d := chooseDelivery offer (helloUdp ||| if preferUnicast then helloPreferUnicast else 0) token
    greet g cap writeSeq offer session token (hello wanted preferUnicast ++ rest) =
      .ok (answer g (position writeSeq cap wanted).1 (position writeSeq cap wanted).2 session d, d,
        (position writeSeq cap wanted).1) := by
  rw [greet, readHello_hello hwanted]
  rfl

/-- **Both ends mean the same**, exactly when the choice of the source can be told: whatever the
mirror wants and whatever the source has published and offers, the `HELLO` is accepted, the source
starts at a sequence that it retains or publishes next, and the mirror reads off the answer the
geometry, that sequence, whether to start over, and how the records come. Nothing of the answer is
left on the stream. -/
theorem greeting_agrees (hg : g.InRange) (hacc : g.Accepted) {wanted writeSeq : ℕ}
    (hwanted : wanted < 2 ^ 64) (hseq : writeSeq + 1 < 2 ^ 64) (cap : Capacity) (offer : UdpOffer)
    (session : UInt8) (token : UInt32) (preferUnicast ipv4 : Bool) (rest rest' : List UInt8) :
    ∃ a d first reset,
      greet g cap writeSeq offer session token (hello wanted preferUnicast ++ rest) =
        .ok (a, d, first) ∧
      ((∃ port mtu, d = .unicast port mtu token) ↔
        offer.unicast ≠ none ∧ (preferUnicast = true ∨ offer.multicast = none)) ∧
      (oldestRetained writeSeq cap.val ≤ first ∧ first ≤ writeSeq + 1) ∧
      (wanted ≠ helloOldest → (reset = true ↔ writeSeq + 1 < wanted)) ∧
      (readAnswer ipv4 (a ++ rest') = .ok (⟨g, first, reset, d.live session⟩, rest') ↔
        d.Tellable ipv4) := by
  refine ⟨_, _, _, _, greet_hello hwanted cap offer token preferUnicast rest,
    chooseDelivery_eq_unicast,
    ⟨le_position writeSeq cap wanted, position_le writeSeq cap wanted⟩, position_reset,
    readAnswer_answer hg hacc ?_ _ rest'⟩
  exact (position_le writeSeq cap wanted).trans_lt hseq

end

/-- The geometry of a ring of four `u64` with two readers. -/
def fourWords : Geometry := ⟨4, 16, 17, 7, 2, 256, 0, 0⟩

theorem fourWords_inRange : fourWords.InRange :=
  ⟨by decide, by decide, by decide, by decide, by decide, by decide, by decide, by decide⟩

theorem fourWords_accepted : fourWords.Accepted where
  capacity := ⟨2, rfl⟩
  elementSize := by decide
  words := by decide
  slotsOffset := by decide
  slotsAligned := by decide
  slotsEnd := by decide
  noArena _ := rfl
  arenaOffset h := absurd rfl h
  arenaSize h := absurd rfl h
  descriptor h := absurd rfl h
  arenaEnd h := absurd rfl h

/-- A mirror that wants new messages is given token 1 by a source that offers unicast only. -/
theorem greeting_agrees_unicast : ∃ a d first reset,
    greet fourWords System.oneSlot.cap 5 ⟨none, some (9000, 1400)⟩ 3 1 (hello 0 false ++ []) =
      .ok (a, d, first) ∧ (∃ port mtu, d = .unicast port mtu 1) ∧
      readAnswer true (a ++ []) = .ok (⟨fourWords, first, reset, d.live 3⟩, []) := by
  obtain ⟨a, d, first, reset, hgreet, hchoice, -, -, hagrees⟩ :=
    greeting_agrees fourWords_inRange fourWords_accepted (by decide : 0 < 2 ^ 64)
      (by decide : 5 + 1 < 2 ^ 64) System.oneSlot.cap ⟨none, some (9000, 1400)⟩ 3 1 false true [] []
  obtain ⟨port, mtu, rfl⟩ := hchoice.mpr ⟨by rintro ⟨⟩, .inr rfl⟩
  exact ⟨a, _, first, reset, hgreet, ⟨port, mtu, rfl⟩, hagrees.mpr rfl⟩

end Layout

end Ringfire
