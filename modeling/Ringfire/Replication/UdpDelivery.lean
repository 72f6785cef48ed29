import Ringfire.Replication.TcpDelivery
import Ringfire.Replication.Udp

/-!
# Records kept aside, and the gaps of the source

The datagrams of `udp_loop` and the answers of `serve_range` hold records of the source, so a UDP
mirror never refuses one. What it keeps aside is lost in one case only: `serve_range` answers a
`NAK` with a `GAP`, and the `GAP` leads over records that have arrived by datagram in the meantime.

## Main results

* `UdpSender.Inv.step`, `RangeServer.Inv.step`: what is sent
* `UdpSystem.Inv.step`: what holds of the system
* `UdpSystem.keepsHeld_iff_spares`: when a step loses a record that is kept aside
* `gap_loses_held`: a run that does
-/

namespace Ringfire

open PayloadArena LittleEndian

variable {ρ : Type} {w : ℕ}

/-! ## Records for all sequences -/

/-- The records of the source, continued by blank ones. -/
theorem Source.exists_agrees {cfg : SourceConfig w} {s : Source ρ w} (hs : s.Inv cfg) :
    ∃ record, (∀ k, (record k).WellFormed cfg.geometry) ∧ s.Agrees record := by
  classical
  have hblank : (Record.mk (List.replicate w 0) []).WellFormed cfg.geometry := by
    refine ⟨List.length_replicate, fun _ => rfl, fun _ _ => ⟨?_, Nat.zero_le _⟩⟩
    simp only [blobRefAt, List.drop_replicate, List.take_replicate, ofLe_zeros, List.length_nil]
  refine ⟨fun k => if ∃ r, s.Has k r then s.record k else ⟨List.replicate w 0, []⟩, ?_, ?_⟩
  · intro k
    simp only
    split_ifs with hk
    · obtain ⟨r, hr⟩ := hk
      rw [s.agrees_record k r hr]
      exact hr.wellFormed hs
    · exact hblank
  · intro k r hr
    simp only
    rw [if_pos ⟨r, hr⟩]
    exact s.agrees_record k r hr

/-! ## The datagrams -/

/-- The datagrams of a source: records that fit, or a heartbeat. -/
inductive Source.Sends (s : Source ρ w) (session : UInt8) : List UInt8 → Prop where
  | data (seq : ℕ) (rs : List Record) (pos : 0 < rs.length) (count : rs.length ≤ 65535)
      (room : wireLen rs ≤ udpMaxPayload) (records : ∀ i r, rs[i]? = some r → s.Has (seq + i) r) :
      Sends s session
        ((dataFrame session.toNat rs.length seq (rs.flatMap Record.bytes)).encode ++
          rs.flatMap Record.bytes)
  | beat (seq : ℕ) (lt : seq < 2 ^ 63) :
      Sends s session (Frame.mk kindHeartbeat session.toNat 0 0 seq).encode

section

variable {cfg : SourceConfig w} {s s' : Source ρ w} {session : UInt8} {bytes : List UInt8}

theorem Source.Sends.grows (h : s.Sends session bytes) (hs : s.Inv cfg) (hs' : s'.Inv cfg)
    (hg : s.Grows s') : s'.Sends session bytes := by
  cases h with
  | data seq rs pos count room records =>
    exact .data seq rs pos count room fun i r hr => (records i r hr).grows hs hs' hg
  | beat seq lt => exact .beat seq lt

/-- The last of consecutive records is stored. -/
theorem Source.Has.add_le {seq : ℕ} {rs : List Record} (pos : 0 < rs.length)
    (records : ∀ i r, rs[i]? = some r → s.Has (seq + i) r) : seq + rs.length ≤ s.seq := by
  have hlast := (records (rs.length - 1) _ (List.getElem?_eq_getElem (by omega))).lt
  omega

end

/-! ## The sender -/

/-- What a step of `udp_loop` is, one case for each exit. -/
inductive UdpSender.Moves (cfg : SourceConfig w) (session : UInt8) (batch : ℕ) (s : Source ρ w)
    (t : UdpSender w) : SendLabel w → UdpSender w → List (List UInt8) → Prop where
  | read {g g' : Gather w} (a : ReadLabel w) (pc : t.pc = .collect g)
      (step : g.step cfg s a = some (.going g')) :
      Moves cfg session batch s t (.read a) { t with pc := .collect g' } []
  | gathered {g : Gather w} {got : Collected} {out : List Record} (a : ReadLabel w)
      (pc : t.pc = .collect g) (step : g.step cfg s a = some (.done got out)) :
      Moves cfg session batch s t (.read a) { t with pc := .linger got out } []
  | enough {got : Collected} {out : List Record} (more : Bool) (pc : t.pc = .linger got out) :
      Moves cfg session batch s t (.linger more) { t with pc := .send got out } []
  | again {got : Collected} {out : List Record} (more : Bool) (pc : t.pc = .linger got out)
      (room : got.full (SourceRing.clampBatch batch) t.maxBytes out = false) :
      Moves cfg session batch s t (.linger more)
        { t with
          pc := .collect (Gather.again t.cursor (SourceRing.clampBatch batch) t.maxBytes got out) }
        []
  | send {got : Collected} {out : List Record} (outcome : SendOutcome) (pc : t.pc = .send got out) :
      Moves cfg session batch s t (.send outcome) (t.send session batch got out outcome).1
        (t.send session batch got out outcome).2
  | jump {seen : ℕ} (beat : Bool) (pc : t.pc = .resync seen)
      (lt : t.cursor < oldestRetained (max s.sys.mem.writeSeq seen) cfg.ring.cap.val) :
      Moves cfg session batch s t (.next beat)
        { t with
          cursor := oldestRetained (max s.sys.mem.writeSeq seen) cfg.ring.cap.val
          pc := UdpSender.loop batch
            (oldestRetained (max s.sys.mem.writeSeq seen) cfg.ring.cap.val) t.maxBytes } []
  | stay {seen : ℕ} (beat : Bool) (pc : t.pc = .resync seen) :
      Moves cfg session batch s t (.next beat)
        { t with pc := UdpSender.loop batch t.cursor t.maxBytes } []
  | lost (beat : Bool) (pc : t.pc = .lost) :
      Moves cfg session batch s t (.next beat)
        { t with
          cursor := t.cursor + 1
          pc := UdpSender.loop batch (t.cursor + 1) t.maxBytes } []
  | idle (beat : Bool) (pc : t.pc = .idle) :
      Moves cfg session batch s t (.next beat)
        { t with pc := UdpSender.loop batch t.cursor t.maxBytes }
        (if beat then [(Frame.mk kindHeartbeat session.toNat 0 0 (t.cursor - 1)).encode] else [])

/-- What holds of `udp_loop`. -/
structure UdpSender.Inv (cfg : SourceConfig w) (batch : ℕ) (s : Source ρ w) (t : UdpSender w) :
    Prop where
  one_le : 1 ≤ t.cursor
  le : t.cursor ≤ s.seq
  room : frameHeaderLen < t.maxBytes
  pc : match t.pc with
    | .collect g => (Gathering.going g).Sound cfg s t.cursor (SourceRing.clampBatch batch) t.maxBytes
    | .linger got out => got.Sound cfg s t.cursor (SourceRing.clampBatch batch) t.maxBytes out
    | .send got out => got.Sound cfg s t.cursor (SourceRing.clampBatch batch) t.maxBytes out
    | .resync seen => seen = 0 ∨ (1 ≤ seen ∧ seen < s.seq)
    | .lost => s.Lapped cfg t.cursor
    | .idle => True

namespace UdpSender

variable {cfg : SourceConfig w} {session : UInt8} {batch : ℕ} {s s' : Source ρ w}
  {t t' : UdpSender w}

/-- At the top of the loop. -/
theorem Inv.loop {cursor maxBytes : ℕ} (hpos : 1 ≤ cursor) (hle : cursor ≤ s.seq)
    (hroom : frameHeaderLen < maxBytes) :
    Inv cfg batch s ⟨cursor, maxBytes, UdpSender.loop batch cursor maxBytes⟩ :=
  ⟨hpos, hle, hroom, rfl, rfl, rfl, .start hpos hle (TcpServer.clampBatch_bounds batch).1 hroom⟩

theorem Inv.start (hs : s.Inv cfg) (mtu : ℕ) :
    (start batch mtu s.sys.mem.writeSeq : UdpSender w).Inv cfg batch s :=
  .loop (Nat.succ_pos _) hs.sys.ring.writeSeq (lt_max_of_lt_right (Nat.lt_succ_self _))

theorem Inv.grows (h : t.Inv cfg batch s) (hs : s.Inv cfg) (hs' : s'.Inv cfg) (hg : s.Grows s') :
    t.Inv cfg batch s' := by
  refine ⟨h.one_le, h.le.trans hg.seq, h.room, ?_⟩
  have hpc := h.pc
  split at hpc
  · exact Gathering.Sound.grows hpc hs hs' hg
  · exact Collected.Sound.grows hpc hs hs' hg
  · exact Collected.Sound.grows hpc hs hs' hg
  · exact hpc.imp_right fun hseen => ⟨hseen.1, hseen.2.trans_le hg.seq⟩
  · exact Source.Lapped.grows hpc hg
  · trivial

/-- What was gathered leads on. -/
theorem Inv.afterSend (batch : ℕ) {cursor maxBytes limit : ℕ} {got : Collected} {out : List Record}
    (hpos : 1 ≤ cursor) (hroom : frameHeaderLen < maxBytes)
    (hgot : got.Sound cfg s cursor limit t.maxBytes out) :
    Inv cfg batch s ⟨cursor + got.count, maxBytes,
      UdpSender.afterSend batch (cursor + got.count) maxBytes got⟩ := by
  have hpos' := hpos.trans (Nat.le_add_right cursor got.count)
  refine ⟨hpos', hgot.le, hroom, ?_⟩
  unfold UdpSender.afterSend
  cases hlapped : got.lapped with
  | some seen => exact hgot.lapped seen hlapped
  | none =>
    simp only
    by_cases hlost : got.lost = true
    · rw [if_pos hlost]
      exact hgot.lost hlost
    · rw [if_neg hlost]
      by_cases hzero : got.count = 0
      · rw [if_pos hzero]
        trivial
      · rw [if_neg hzero]
        exact (Inv.loop hpos' hgot.le hroom).pc

theorem lt_limit (h : frameHeaderLen < t.maxBytes) (out : List Record) (outcome : SendOutcome) :
    frameHeaderLen < limit t.maxBytes out outcome := by
  cases outcome with
  | refused => exact lt_max_of_lt_right (Nat.lt_succ_self _)
  | sent => exact h
  | dropped => exact h

/-- The records gathered are sent. -/
theorem Inv.send (session : UInt8) (h : t.Inv cfg batch s) {got : Collected} {out : List Record}
    (hgot : got.Sound cfg s t.cursor (SourceRing.clampBatch batch) t.maxBytes out)
    (outcome : SendOutcome) : (t.send session batch got out outcome).1.Inv cfg batch s ∧
      ∀ bytes ∈ (t.send session batch got out outcome).2, s.Sends session bytes := by
  have hpos' := h.one_le.trans (Nat.le_add_right t.cursor got.count)
  unfold UdpSender.send
  simp only
  split_ifs with hcount hlong hsent
  · exact ⟨.loop hpos' hgot.le h.room, by rintro _ ⟨⟩⟩
  · refine ⟨.afterSend batch h.one_le (lt_limit h.room out outcome) hgot, fun bytes hbytes => ?_⟩
    rw [List.mem_singleton.mp hbytes, datagram, ← hgot.length]
    have hlimit := hgot.limit.trans (TcpServer.clampBatch_bounds batch).2
    have hlen := hgot.length
    exact .data t.cursor out (by omega) (by omega) (Nat.not_lt.mp hlong) hgot.records
  · exact ⟨.afterSend batch h.one_le (lt_limit h.room out outcome) hgot, by rintro _ ⟨⟩⟩
  · refine ⟨?_, by rintro _ ⟨⟩⟩
    have hzero : t.cursor + got.count = t.cursor := by omega
    have hafter := Inv.afterSend batch h.one_le h.room hgot
    rw [hzero] at hafter ⊢
    exact hafter

theorem step_moves {a : SendLabel w} {sent : List (List UInt8)}
    (h : t.step cfg session batch s a = some (t', sent)) :
    Moves cfg session batch s t a t' sent := by
  cases a with
  | read a =>
    cases hp : t.pc with
    | linger | send | resync | lost | idle =>
      simp only [UdpSender.step, hp] at h
      cases h
    | collect g =>
      simp only [UdpSender.step, hp] at h
      split at h
      · next g' hg =>
        cases h
        exact .read a hp hg
      · next got out hg =>
        cases h
        exact .gathered a hp hg
      · cases h
  | linger more =>
    cases hp : t.pc with
    | collect | send | resync | lost | idle =>
      simp only [UdpSender.step, hp] at h
      cases h
    | linger got out =>
      simp only [UdpSender.step, hp] at h
      split_ifs at h with hstop
      · cases h
        exact .enough more hp
      · cases h
        -- the batch so far is not full
        simp only [not_or] at hstop
        exact .again more hp (by simpa using hstop.2.1)
  | send outcome =>
    cases hp : t.pc with
    | collect | linger | resync | lost | idle =>
      simp only [UdpSender.step, hp] at h
      cases h
    | send got out =>
      simp only [UdpSender.step, hp, Option.some.injEq] at h
      have hsend : Moves cfg session batch s t (.send outcome)
          (t.send session batch got out outcome).1 (t.send session batch got out outcome).2 :=
        .send outcome hp
      rw [h] at hsend
      exact hsend
  | next beat =>
    cases hp : t.pc with
    | collect | linger | send =>
      simp only [UdpSender.step, hp] at h
      cases h
    | resync seen =>
      simp only [UdpSender.step, hp] at h
      cases h
      split_ifs with hlt
      · exact .jump beat hp hlt
      · exact .stay beat hp
    | lost =>
      simp only [UdpSender.step, hp] at h
      cases h
      exact .lost beat hp
    | idle =>
      simp only [UdpSender.step, hp] at h
      cases h
      exact .idle beat hp

/-- **`udp_loop` sends records of the source.** -/
theorem Inv.step {a : SendLabel w} {sent : List (List UInt8)} (h : t.Inv cfg batch s)
    (hs : s.Inv cfg) (hstep : t.step cfg session batch s a = some (t', sent)) :
    t'.Inv cfg batch s ∧ ∀ bytes ∈ sent, s.Sends session bytes := by
  have hpc := h.pc
  cases step_moves hstep with
  | read a pc step =>
    rw [pc] at hpc
    have hnext := Gathering.Sound.step hpc hs step
    exact ⟨⟨h.one_le, h.le, h.room, hnext⟩, by rintro _ ⟨⟩⟩
  | gathered a pc step =>
    rw [pc] at hpc
    have hnext := Gathering.Sound.step hpc hs step
    exact ⟨⟨h.one_le, h.le, h.room, hnext⟩, by rintro _ ⟨⟩⟩
  | enough more pc =>
    rw [pc] at hpc
    exact ⟨⟨h.one_le, h.le, h.room, hpc⟩, by rintro _ ⟨⟩⟩
  | again more pc room =>
    -- one more `collect`
    rw [pc] at hpc
    exact ⟨⟨h.one_le, h.le, h.room, rfl, rfl, rfl, .again hpc room⟩, by rintro _ ⟨⟩⟩
  | send outcome pc =>
    rw [pc] at hpc
    exact h.send session hpc outcome
  | jump beat pc lt =>
    rw [pc] at hpc
    exact ⟨.loop (h.one_le.trans lt.le) (TcpServer.resync_le hs hpc) h.room, by rintro _ ⟨⟩⟩
  | stay beat pc => exact ⟨.loop h.one_le h.le h.room, by rintro _ ⟨⟩⟩
  | lost beat pc =>
    rw [pc] at hpc
    have hlap : s.Lapped cfg t.cursor := hpc
    exact ⟨.loop (Nat.succ_pos _) hlap.lt h.room, by rintro _ ⟨⟩⟩
  | idle beat pc =>
    refine ⟨.loop h.one_le h.le h.room, fun bytes hbytes => ?_⟩
    split_ifs at hbytes
    · rw [List.mem_singleton.mp hbytes]
      have hpos := h.one_le
      have hle := h.le
      have hbound := hs.bound
      exact .beat _ (by omega)
    · cases hbytes

end UdpSender

/-! ## The answers to a `NAK` -/

/-- The frames that answer a `NAK`. -/
inductive Source.Answers (s : Source ρ w) : TcpFrame → Prop where
  | data {seq : ℕ} {rs : List Record} (records : DataOf s seq rs) : Answers s (.data seq rs)
  | gap {seq : ℕ} (le : seq ≤ s.seq) : Answers s (.gap seq)

theorem Source.Answers.grows {cfg : SourceConfig w} {s s' : Source ρ w} {f : TcpFrame}
    (h : s.Answers f) (hs : s.Inv cfg) (hs' : s'.Inv cfg) (hg : s.Grows s') : s'.Answers f := by
  cases h with
  | data records => exact .data (records.grows hs hs' hg)
  | gap le => exact .gap (le.trans hg.seq)

/-- What holds of `serve_range`. -/
structure RangeServer.Inv (cfg : SourceConfig w) (s : Source ρ w) (t : RangeServer w) : Prop where
  one_le : 1 ≤ t.cursor
  le : t.cursor ≤ s.seq
  pc : match t.pc with
    | .collect _ g => ∃ limit ≤ 65535, (Gathering.going g).Sound cfg s t.cursor limit tcpFrameBytes
    | .send _ got out => ∃ limit ≤ 65535, got.Sound cfg s t.cursor limit tcpFrameBytes out
    | .resync _ seen => seen = 0 ∨ (1 ≤ seen ∧ seen < s.seq)
    | .lost _ => s.Lapped cfg t.cursor
    | .idle => True
    | .oldest _ => True

/-- What a step of `serve_range` puts on the stream: nothing, or a frame. -/
def Source.Puts (s : Source ρ w) (bytes : List UInt8) : Prop :=
  bytes = [] ∨ ∃ f, s.Answers f ∧ bytes = f.bytes

namespace RangeServer

variable {cfg : SourceConfig w} {batch : ℕ} {s s' : Source ρ w} {t t' : RangeServer w}

theorem Inv.grows (h : t.Inv cfg s) (hs : s.Inv cfg) (hs' : s'.Inv cfg) (hg : s.Grows s') :
    t.Inv cfg s' := by
  refine ⟨h.one_le, h.le.trans hg.seq, ?_⟩
  have hpc := h.pc
  split at hpc
  · obtain ⟨limit, hle, hgather⟩ := hpc
    exact ⟨limit, hle, hgather.grows hs hs' hg⟩
  · obtain ⟨limit, hle, hgot⟩ := hpc
    exact ⟨limit, hle, hgot.grows hs hs' hg⟩
  · exact hpc.imp_right fun hseen => ⟨hseen.1, hseen.2.trans_le hg.seq⟩
  · exact Source.Lapped.grows hpc hg
  · trivial
  · trivial

/-- At the condition of the loop. -/
theorem Inv.loop {cursor : ℕ} (hpos : 1 ≤ cursor) (hle : cursor ≤ s.seq) (last : ℕ) :
    Inv cfg s ⟨cursor, RangeServer.loop batch cursor last⟩ := by
  refine ⟨hpos, hle, ?_⟩
  obtain ⟨hbatch, hbatch'⟩ := TcpServer.clampBatch_bounds batch
  unfold RangeServer.loop
  by_cases hlast : cursor ≤ last
  · rw [if_pos hlast]
    exact ⟨_, (min_le_left _ _).trans hbatch', rfl, rfl, rfl,
      .start hpos hle (lt_min hbatch (Nat.succ_pos _)) (by decide)⟩
  · rw [if_neg hlast]
    trivial

theorem Inv.answer {nak : Nak} (hs : s.Inv cfg) (h : nak.first ≤ s.seq) :
    (answer nak : RangeServer w).Inv cfg s :=
  ⟨le_max_right _ _, max_le h (Nat.one_le_of_lt hs.sys.ring.writeSeq), trivial⟩

/-- The server goes on where the source has records. -/
theorem Inv.resync (h : t.Inv cfg s) (batch last : ℕ) {target : ℕ} (hle : target ≤ s.seq) :
    (t.resync batch last target).1.Inv cfg s ∧ s.Puts (t.resync batch last target).2 := by
  unfold RangeServer.resync
  split_ifs with hlt
  · refine ⟨.loop (h.one_le.trans hlt.le) hle last, .inr ⟨.gap target, .gap hle, ?_⟩⟩
    simp only [TcpFrame.bytes, TcpFrame.header, TcpFrame.body, List.append_nil]
  · exact ⟨.loop h.one_le h.le last, .inl rfl⟩

/-- What was gathered leads on. -/
theorem Inv.afterSend {cursor limit : ℕ} {got : Collected} {out : List Record} (hpos : 1 ≤ cursor)
    (hgot : got.Sound cfg s cursor limit tcpFrameBytes out) (last : ℕ) :
    Inv cfg s ⟨cursor + got.count, RangeServer.afterSend batch (cursor + got.count) last got⟩ := by
  have hpos' := hpos.trans (Nat.le_add_right cursor got.count)
  refine ⟨hpos', hgot.le, ?_⟩
  unfold RangeServer.afterSend
  cases hlapped : got.lapped with
  | some seen => exact hgot.lapped seen hlapped
  | none =>
    simp only
    by_cases hlost : got.lost = true
    · rw [if_pos hlost]
      exact hgot.lost hlost
    · rw [if_neg hlost]
      by_cases hzero : got.count = 0
      · rw [if_pos hzero]
        trivial
      · rw [if_neg hzero]
        exact (Inv.loop hpos' hgot.le last).pc

/-- **`serve_range` sends records of the source and `GAP`s.** -/
theorem Inv.step {a : RangeLabel w} {bytes : List UInt8} (h : t.Inv cfg s) (hs : s.Inv cfg)
    (hstep : t.step cfg batch s a = some (t', bytes)) : t'.Inv cfg s ∧ s.Puts bytes := by
  have hpc := h.pc
  cases a with
  | read a =>
    cases hp : t.pc with
    | idle | oldest | send | resync | lost =>
      simp only [RangeServer.step, hp] at hstep
      cases hstep
    | collect last g =>
      rw [hp] at hpc
      obtain ⟨limit, hle, hgather⟩ := hpc
      simp only [RangeServer.step, hp] at hstep
      split at hstep
      · next g' hg =>
        cases hstep
        exact ⟨⟨h.one_le, h.le, limit, hle, hgather.step hs hg⟩, .inl rfl⟩
      · next got out hg =>
        cases hstep
        exact ⟨⟨h.one_le, h.le, limit, hle, hgather.step hs hg⟩, .inl rfl⟩
      · cases hstep
  | next =>
    cases hp : t.pc with
    | idle | collect =>
      simp only [RangeServer.step, hp] at hstep
      cases hstep
    | oldest last =>
      simp only [RangeServer.step, hp, Option.some.injEq] at hstep
      -- the range starts at the oldest message retained if it was to start before it
      have hle := TcpServer.resync_le hs (.inl rfl)
      rw [Nat.max_zero] at hle
      have hnext := h.resync batch last hle
      rw [hstep] at hnext
      exact hnext
    | send last got out =>
      rw [hp] at hpc
      obtain ⟨limit, hle, hgot⟩ := hpc
      simp only [RangeServer.step, hp] at hstep
      cases hstep
      refine ⟨.afterSend h.one_le hgot last, ?_⟩
      unfold TcpServer.dataWire
      split_ifs with hcount
      · have hlen := hgot.length
        refine .inr ⟨.data t.cursor out, .data ⟨by omega, ?_, hgot.room, hgot.records⟩, ?_⟩
        · exact hlen.le.trans (hgot.limit.trans hle)
        · simp only [TcpFrame.bytes, TcpFrame.header, TcpFrame.body, hlen]
      · exact .inl rfl
    | resync last seen =>
      rw [hp] at hpc
      simp only [RangeServer.step, hp, Option.some.injEq] at hstep
      have hnext := h.resync batch last (TcpServer.resync_le hs hpc)
      rw [hstep] at hnext
      exact hnext
    | lost last =>
      rw [hp] at hpc
      simp only [RangeServer.step, hp] at hstep
      cases hstep
      -- a `GAP` over the one record whose payload is gone
      have hlap : s.Lapped cfg t.cursor := hpc
      refine ⟨.loop (Nat.succ_pos _) hlap.lt last, .inr ⟨.gap (t.cursor + 1), .gap hlap.lt, ?_⟩⟩
      simp only [TcpFrame.bytes, TcpFrame.header, TcpFrame.body, List.append_nil]

end RangeServer

/-! ## The mirror -/

namespace Mirror

variable {cfg : SourceConfig w} {session : UInt8} {s : Source ρ w} {env : Env} {m m' : Mirror w}
  {res : Except RingfireError Unit}

/-- The mirror is right, however the records that are not pushed yet are named. -/
def Right (cfg : SourceConfig w) (s : Source ρ w) (m : Mirror w) : Prop :=
  ∀ record, (∀ k, (record k).WellFormed cfg.geometry) → s.Agrees record →
    m.Inv cfg.geometry record

/-- The mirror got from `m` to `m'` by moves. -/
def Goes (cfg : SourceConfig w) (s : Source ρ w) (m m' : Mirror w) : Prop :=
  ∀ record, (∀ k, (record k).WellFormed cfg.geometry) → s.Agrees record →
    Moves cfg.geometry record m m'

theorem Goes.right (h : m.Goes cfg s m') (hm : m.Right cfg s) : m'.Right cfg s :=
  fun record hwf hrec => (hm record hwf hrec).moves (h record hwf hrec)

theorem Goes.safe (h : m.Goes cfg s m') (hs : s.Inv cfg) (hm : m.Settled) : m.Safe m' := by
  obtain ⟨record, hwf, hrec⟩ := Source.exists_agrees hs
  exact .moves hm (h record hwf hrec)

theorem Goes.of_same (h : m.Same m') : m.Goes cfg s m' := fun _ _ _ => .single h.move

/-- Records of the source are applied. -/
theorem Right.apply (hm : m.Right cfg s) (hs : s.Inv cfg) (hw : m.Within s.seq) {seq : ℕ}
    {rs : List Record} (hpos : 0 < rs.length)
    (hrs : ∀ i r, rs[i]? = some r → s.Has (seq + i) r)
    (ha : m.apply cfg.geometry env seq rs.length (rs.flatMap Record.bytes) = some (res, m')) :
    m.Goes cfg s m' ∧ m'.Within s.seq := by
  constructor
  · intro record hwf hrec
    rw [hrec.flatMap_bytes hrs] at ha
    exact apply_moves hwf (hm record hwf hrec) ha
  · obtain ⟨record, hwf, hrec⟩ := Source.exists_agrees hs
    rw [hrec.flatMap_bytes hrs] at ha
    exact hw.apply hwf (hm record hwf hrec) (Source.Has.add_le hpos hrs) ha

/-- The mirror handles a datagram of the source. -/
theorem Right.datagram (hm : m.Right cfg s) (hs : s.Inv cfg) (hw : m.Within s.seq)
    {bytes : List UInt8} (hbytes : s.Sends session bytes)
    (hr : m.handleDatagram cfg.geometry session env bytes = some (res, m')) :
    m.Goes cfg s m' ∧ m'.Within s.seq := by
  cases hbytes with
  | data seq rs pos count room records =>
    have hle := Source.Has.add_le pos records
    have hbound := hs.bound
    obtain ⟨record, hwf, hrec⟩ := Source.exists_agrees hs
    have hfits : DataFits record seq rs.length := by
      rw [wireLen_eq, hrec.flatMap_bytes records] at room
      unfold udpMaxPayload at room
      refine ⟨by omega, ?_, ?_⟩
      · exact (by omega : rs.length < 256 ^ 2)
      · exact (by omega : (dataBytes record seq rs.length).length < 256 ^ 4)
    have heq : m.handleDatagram cfg.geometry session env
        ((dataFrame session.toNat rs.length seq (dataBytes record seq rs.length)).encode ++
          dataBytes record seq rs.length) = _ := handleDatagram_data hfits
    rw [← hrec.flatMap_bytes records] at heq
    rw [heq] at hr
    split_ifs at hr
    · cases hr
      exact ⟨fun _ _ _ => .refl, hw⟩
    · exact hm.apply hs hw pos records hr
  | beat seq lt =>
    rw [handleDatagram_beat lt] at hr
    have hsame : m.Same (m.onSourceSeq env seq).2 := onSourceSeq_same m seq
    have hwithin : Within s.seq (m.onSourceSeq env seq).2 := hw.onSourceSeq seq
    rw [Option.some_injective _ hr] at hsame hwithin
    exact ⟨.of_same hsame, hwithin⟩

/-- A whole frame is taken off the stream. -/
theorem stepControl_eq (g : Geometry w) (env : Env) (m : Mirror w) {f : Frame} (hf : f.Fits)
    {body : List UInt8} (hbody : bodyLen g f = body.length) (rest : List UInt8) :
    Frame.decode ((f.encode ++ body ++ rest).take frameHeaderLen) = f ∧
      m.stepControl g env (f.encode ++ body ++ rest) =
        (m.handleControl g env f body).map fun r => (r, rest) := by
  have hdec := Frame.decode_encode hf []
  rw [List.append_nil] at hdec
  have hlen := Frame.length_encode f
  have htake : Frame.decode ((f.encode ++ body ++ rest).take frameHeaderLen) = f := by
    rw [List.append_assoc, List.take_left' hlen, hdec]
  refine ⟨htake, ?_⟩
  unfold stepControl
  simp only [List.append_assoc, List.take_left' hlen, List.drop_left' hlen, hdec, hbody,
    List.length_append, List.take_left, List.drop_left, hlen]
  rw [if_neg (by omega)]

/-- The mirror handles a `DATA` frame that answers a `NAK`. A frame whose length does not fit its
field is refused. -/
theorem Right.control_data (hcfg : cfg.Supported) (hm : m.Right cfg s) (hs : s.Inv cfg)
    (hw : m.Within s.seq) {seq : ℕ} {rs : List Record} (hrs : DataOf s seq rs)
    {rest wire : List UInt8}
    (hr : m.stepControl cfg.geometry env ((TcpFrame.data seq rs).bytes ++ rest) =
      some ((res, m'), wire)) :
    (Frame.decode (((TcpFrame.data seq rs).bytes ++ rest).take frameHeaderLen)).kind = kindData ∧
      m.Goes cfg s m' ∧ m'.Within s.seq ∧ (res = .ok () → wire = rest) := by
  rw [TcpFrame.bytes, DataOf.encode_header, TcpFrame.body] at hr ⊢
  have hfits := hrs.fits hs
  rcases hrs.length_cases hcfg hs with hlen | ⟨hone, harena, -, hlong⟩
  -- the length of the body fits its field
  · have hsizes := sizes_of_data hs hrs hlen
    rw [Nat.mod_eq_of_lt (show _ < 256 ^ 4 from hlen)] at hfits hr ⊢
    have hbody : bodyLen cfg.geometry (Frame.mk kindData 0 rs.length
        (rs.flatMap Record.bytes).length seq) = (rs.flatMap Record.bytes).length :=
      if_pos ⟨rfl, hsizes⟩
    obtain ⟨hdec, heq⟩ := stepControl_eq cfg.geometry env m hfits hbody rest
    rw [hdec]
    rw [heq] at hr
    obtain ⟨⟨res₁, m₁⟩, hh, hpair⟩ := Option.map_eq_some_iff.mp hr
    cases hpair
    simp only [handleControl, hsizes, if_true, List.take_length] at hh
    obtain ⟨hgoes, hwithin⟩ := hm.apply hs hw hrs.pos hrs.records hh
    exact ⟨rfl, hgoes, hwithin, fun _ => rfl⟩
  -- a single record of four gigabytes: the length is cut, and the mirror reports the frame
  · have hsizes : frameSizesOk cfg.geometry rs.length
        ((rs.flatMap Record.bytes).length % 256 ^ 4) = false := sizes_of_long hone harena hlong
    have hbody : bodyLen cfg.geometry (Frame.mk kindData 0 rs.length
        ((rs.flatMap Record.bytes).length % 256 ^ 4) seq) = ([] : List UInt8).length :=
      if_neg fun hok => Bool.noConfusion (hsizes.symm.trans hok.2)
    obtain ⟨hdec, heq⟩ := stepControl_eq cfg.geometry env m hfits hbody
      (rs.flatMap Record.bytes ++ rest)
    rw [List.append_nil, ← List.append_assoc] at hdec heq
    rw [hdec]
    rw [heq] at hr
    obtain ⟨⟨res₁, m₁⟩, hh, hpair⟩ := Option.map_eq_some_iff.mp hr
    cases hpair
    rw [handleControl, if_pos rfl] at hh
    simp only [hsizes, Bool.false_eq_true, if_false] at hh
    cases hh
    exact ⟨rfl, fun _ _ _ => .refl, hw, by rintro ⟨⟩⟩

/-- The mirror handles a `GAP`: it stays, or jumps and goes on from there. -/
theorem Right.control_gap (hm : m.Right cfg s) (hs : s.Inv cfg) (hw : m.Within s.seq) {seq : ℕ}
    (hseq : seq ≤ s.seq) {rest wire : List UInt8}
    (hr : m.stepControl cfg.geometry env ((TcpFrame.gap seq).bytes ++ rest) =
      some ((res, m'), wire)) :
    Frame.decode (((TcpFrame.gap seq).bytes ++ rest).take frameHeaderLen) = .control kindGap seq ∧
      wire = rest ∧ m'.Within s.seq ∧
      ((seq ≤ m.ring.nextSeq ∧ m' = m) ∨ (m.ring.nextSeq < seq ∧
        Goes cfg s { m with gaps := m.gaps + 1, ring := m.ring.skipTo seq } m')) := by
  have hfits : (Frame.control kindGap seq).Fits :=
    control_fits (by decide) (hseq.trans hs.bound)
  have hbody : bodyLen cfg.geometry (Frame.control kindGap seq) = ([] : List UInt8).length := rfl
  obtain ⟨hdec, heq⟩ := stepControl_eq cfg.geometry env m hfits hbody rest
  rw [TcpFrame.bytes, TcpFrame.header, TcpFrame.body] at hr ⊢
  rw [heq] at hr
  obtain ⟨⟨res₁, m₁⟩, hh, hpair⟩ := Option.map_eq_some_iff.mp hr
  cases hpair
  rw [handleControl_gap] at hh
  refine ⟨hdec, rfl, ?_⟩
  split_ifs at hh with hlt
  · -- the jump, and then `after_advance`
    have hskip : Within s.seq { m with gaps := m.gaps + 1, ring := m.ring.skipTo seq } := by
      refine ⟨?_, hw.held, hw.nak, hw.requested⟩
      unfold MirrorRing.skipTo
      simp only [if_pos hlt]
      exact hseq
    have hright : Right cfg s { m with gaps := m.gaps + 1, ring := m.ring.skipTo seq } :=
      fun record hwf hrec => ⟨(hm record hwf hrec).ring.skipTo seq, (hm record hwf hrec).held⟩
    obtain ⟨record, hwf, hrec⟩ := Source.exists_agrees hs
    refine ⟨Within.afterAdvance hwf _ hskip (hright record hwf hrec) rfl hh, .inr ⟨hlt, ?_⟩⟩
    intro record hwf hrec
    exact afterAdvance_moves hwf _ (hright record hwf hrec) rfl hh
  · cases hh
    exact ⟨hw, .inl ⟨Nat.not_lt.mp hlt, rfl⟩⟩

end Mirror

/-! ## The connection -/

/-- A stream of answers to `NAK`s. -/
def Source.Streams (s : Source ρ w) (wire : List UInt8) : Prop :=
  ∃ frames : List TcpFrame, wire = frames.flatMap TcpFrame.bytes ∧ ∀ f ∈ frames, s.Answers f

/-- What holds of a connection. -/
structure UdpConn.Inv (cfg : SourceConfig w) (s : Source ρ w) (c : UdpConn w) : Prop where
  server : c.server.Inv cfg s
  right : c.mirror.Right cfg s
  within : c.mirror.Within s.seq
  settled : c.mirror.Settled
  flight : c.failed = none → s.Streams c.wire

namespace UdpConn

variable {cfg : SourceConfig w} {session : UInt8} {batch : ℕ} {s s' : Source ρ w} {c c' : UdpConn w}

theorem Inv.grows (h : c.Inv cfg s) (hs : s.Inv cfg) (hs' : s'.Inv cfg) (hg : s.Grows s') :
    c.Inv cfg s' where
  server := h.server.grows hs hs' hg
  right := fun record hwf hrec => h.right record hwf (hrec.of_grows hs hs' hg)
  within := h.within.mono hg.seq
  settled := h.settled
  flight := by
    intro hfailed
    obtain ⟨frames, hwire, hframes⟩ := h.flight hfailed
    exact ⟨frames, hwire, fun f hf => (hframes f hf).grows hs hs' hg⟩

/-- A new connection. -/
theorem Inv.opened (hs : s.Inv cfg) (start : MirrorStart) {file : RingFile w} (hfile : file.Fits) :
    (opened cfg s.sys.mem.writeSeq start file).Inv cfg s := by
  have hws : s.sys.mem.writeSeq < s.seq := hs.sys.ring.writeSeq
  have hfirst := le_connect_first cfg.ring.cap s.sys.mem.writeSeq start hfile
  have hle := (position_le s.sys.mem.writeSeq cfg.ring.cap (wanted start file)).trans hws
  obtain ⟨hlog, -⟩ := connect_ring cfg.ring.cap s.sys.mem.writeSeq start file
  refine ⟨⟨le_refl 1, Nat.one_le_of_lt hws, trivial⟩, fun record _ _ => ?_, ?_, ?_, fun _ => ?_⟩
  · exact ⟨.of_log hlog, by rintro _ ⟨⟩⟩
  · exact ⟨hfirst.trans hle, by rintro _ ⟨⟩, by rintro _ ⟨⟩, by rintro _ ⟨⟩⟩
  · rintro k ⟨x, ⟨⟩, -⟩
  · exact ⟨[], rfl, by rintro _ ⟨⟩⟩

/-- The server reads a `NAK`. -/
theorem Inv.answer (h : c.Inv cfg s) (hs : s.Inv cfg) (ha : c.answer = some c') :
    c'.Inv cfg s ∧ c'.mirror = c.mirror := by
  unfold UdpConn.answer at ha
  split at ha
  · next nak hpc hnak =>
    cases ha
    have hfirst := h.within.requested nak (List.mem_of_getElem? hnak)
    exact ⟨⟨.answer hs hfirst, h.right, h.within, h.settled, h.flight⟩, rfl⟩
  · cases ha

/-- The server answers. -/
theorem Inv.serve (h : c.Inv cfg s) (hs : s.Inv cfg) {a : RangeLabel w} {server : RangeServer w}
    {bytes : List UInt8} (hstep : c.server.step cfg batch s a = some (server, bytes)) :
    Inv cfg s { c with server := server, wire := c.wire ++ bytes } := by
  obtain ⟨hserver, hputs⟩ := h.server.step hs hstep
  refine ⟨hserver, h.right, h.within, h.settled, fun hfailed => ?_⟩
  obtain ⟨frames, hwire, hframes⟩ := h.flight hfailed
  rcases hputs with rfl | ⟨f, hf, rfl⟩
  · exact ⟨frames, by simp only [hwire, List.append_nil], hframes⟩
  · refine ⟨frames ++ [f], ?_, fun f' hf' => ?_⟩
    · simp only [hwire, List.flatMap_append, List.flatMap_singleton]
    · rcases List.mem_append.mp hf' with hf' | hf'
      · exact hframes f' hf'
      · rw [List.mem_singleton.mp hf']
        exact hf

/-- The mirror has handled something. -/
theorem Inv.handled (h : c.Inv cfg s) {r : Except RingfireError Unit × Mirror w}
    {wire : List UInt8} (hright : r.2.Right cfg s) (hwithin : r.2.Within s.seq)
    (hsettled : r.2.Settled) (hflight : r.1 = .ok () → s.Streams wire) :
    (c.handled r wire).Inv cfg s := by
  refine ⟨h.server, hright, hwithin, hsettled, fun hfailed => ?_⟩
  obtain ⟨res, m⟩ := r
  cases res with
  | ok u => exact hflight rfl
  | error e => cases hfailed

/-- The mirror handles a datagram. -/
theorem Inv.receive (h : c.Inv cfg s) (hs : s.Inv cfg) {env : Env} {a : MirrorInput}
    (ha : (∃ bytes, a = .datagram bytes ∧ s.Sends session bytes) ∨ a = .timeout)
    (hr : c.receive cfg.geometry session env a = some c') :
    c'.Inv cfg s ∧ c.mirror.Safe c'.mirror := by
  unfold UdpConn.receive at hr
  split at hr
  · next hfailed =>
    obtain ⟨⟨res, m⟩, hm, rfl⟩ := Option.map_eq_some_iff.mp hr
    have hgoes : c.mirror.Goes cfg s m ∧ m.Within s.seq := by
      rcases ha with ⟨bytes, rfl, hbytes⟩ | rfl
      · exact h.right.datagram hs h.within hbytes hm
      · simp only [Mirror.receive] at hm
        split at hm
        · next nak hnak =>
          have hsame : c.mirror.Same (c.mirror.sendNak env nak).2 := Mirror.sendNak_same _ _
          have hwithin : Mirror.Within s.seq (c.mirror.sendNak env nak).2 :=
            h.within.sendNak (h.within.nak nak hnak)
          rw [Option.some_injective _ hm] at hsame hwithin
          exact ⟨.of_same hsame, hwithin⟩
        · cases hm
          exact ⟨fun _ _ _ => .refl, h.within⟩
    have hsafe := hgoes.1.safe hs h.settled
    exact ⟨h.handled (hgoes.1.right h.right) hgoes.2 hsafe.settled fun _ => h.flight hfailed, hsafe⟩
  · cases hr

/-- **The mirror handles a frame of the connection.** -/
theorem Inv.control (hcfg : cfg.Supported) (h : c.Inv cfg s) (hs : s.Inv cfg) {env : Env}
    (hr : c.control cfg.geometry env = some c') :
    (c.Spares → c'.Inv cfg s ∧ c.mirror.Safe c'.mirror) ∧
      (¬ c.Spares → ¬ c.mirror.KeepsHeld c'.mirror) := by
  unfold UdpConn.control at hr
  split at hr
  next hfailed =>
    obtain ⟨⟨⟨res, m⟩, wire⟩, hm, rfl⟩ := Option.map_eq_some_iff.mp hr
    obtain ⟨frames, hwire, hframes⟩ := h.flight hfailed
    unfold Spares
    rw [hwire] at hm ⊢
    cases frames with
    | nil => cases hm
    | cons f rest =>
      rw [List.flatMap_cons] at hm ⊢
      have hrest : ∀ f' ∈ rest, s.Answers f' := fun f' hf' => hframes f' (List.mem_cons_of_mem f hf')
      cases hframes f List.mem_cons_self with
      | data records =>
        obtain ⟨hkind, hgoes, hwithin, hleft⟩ := h.right.control_data hcfg hs h.within records hm
        have hsafe := hgoes.safe hs h.settled
        rw [hkind]
        refine ⟨fun _ => ⟨h.handled (hgoes.right h.right) hwithin hsafe.settled fun hok => ?_, hsafe⟩,
          fun hno => absurd (fun hgap => absurd hgap (by decide)) hno⟩
        exact ⟨rest, hleft hok, hrest⟩
      | @gap seq le =>
        obtain ⟨hdec, rfl, hwithin, hcases⟩ := h.right.control_gap hs h.within le hm
        rw [hdec]
        rcases hcases with ⟨hstay, rfl⟩ | ⟨hlt, hgoes⟩
        · -- the source says nothing new
          refine ⟨fun _ => ⟨h.handled h.right h.within h.settled fun _ => ⟨rest, rfl, hrest⟩,
            .refl h.settled⟩, fun hno => absurd (fun _ k _ hk => hstay.trans hk) hno⟩
        · constructor
          · intro hspares
            -- nothing is held below the target, so the skip loses nothing
            have hskip := Mirror.Safe.skip h.settled (hspares rfl)
            have hsafe := hskip.trans (hgoes.safe hs hskip.settled)
            refine ⟨h.handled (hgoes.right ?_) hwithin hsafe.settled fun _ => ⟨rest, rfl, hrest⟩,
              hsafe⟩
            intro record hwf hrec
            exact ⟨(h.right record hwf hrec).ring.skipTo seq, (h.right record hwf hrec).held⟩
          · intro hno
            push Not at hno
            obtain ⟨-, k, hk, hle, hseq⟩ := hno
            -- what was held below the target is thrown away unwritten
            obtain ⟨record, hwf, hrec⟩ := Source.exists_agrees hs
            exact Mirror.not_keepsHeld_of_skip (h.right record hwf hrec) hk hle hseq
              (hgoes record hwf hrec)
  next => cases hr

end UdpConn

/-! ## The system -/

namespace UdpSystem

variable [DecidableEq ρ] {cfg : SourceConfig w} {session : UInt8} {batch : ℕ}
  {s s' : UdpSystem ρ w}

/-- What holds of the system. -/
structure Inv (cfg : SourceConfig w) (session : UInt8) (batch : ℕ) (s : UdpSystem ρ w) : Prop where
  source : s.source.Inv cfg
  sender : ∀ t, s.sender = some t → t.Inv cfg batch s.source
  datagrams : ∀ bytes ∈ s.datagrams, s.source.Sends session bytes
  file : s.file.Fits
  conn : ∀ c, s.conn = some c → c.Inv cfg s.source

omit [DecidableEq ρ] in
/-- A step that leaves the connection alone. -/
theorem KeepsHeld.of_conn_eq (h : s'.conn = s.conn) : s.KeepsHeld s' := by
  intro c c' hc hc'
  rw [h, hc] at hc'
  cases hc'
  exact .refl c.mirror

omit [DecidableEq ρ] in
/-- A step of the connection. -/
theorem KeepsHeld.of_conn {c c' : UdpConn w} (hc : s.conn = some c)
    (hkeeps : c.mirror.KeepsHeld c'.mirror) : s.KeepsHeld { s with conn := some c' } := by
  intro c₁ c₂ hc₁ hc₂
  rw [hc] at hc₁
  cases hc₁
  cases hc₂
  exact hkeeps

omit [DecidableEq ρ] in
theorem Inv.setConn (h : s.Inv cfg session batch) {c : UdpConn w} (hc : c.Inv cfg s.source) :
    Inv cfg session batch { s with conn := some c } := by
  refine { h with conn := ?_ }
  rintro _ ⟨⟩
  exact hc

/-- **A step keeps the invariant and everything that is kept aside exactly when it is no jump over a
record kept aside.** -/
theorem Inv.step (hcfg : cfg.Supported) (h : s.Inv cfg session batch) {a : UdpLabel ρ w}
    (hstep : s.step cfg session batch a = some s') :
    (s.Spares a → s'.Inv cfg session batch ∧ s.KeepsHeld s') ∧
      (¬ s.Spares a → ¬ s.KeepsHeld s') := by
  -- only a frame of the connection can be a `GAP`
  have hother : (∀ env, a ≠ .control env) → s'.Inv cfg session batch ∧ s.KeepsHeld s' →
      (s.Spares a → s'.Inv cfg session batch ∧ s.KeepsHeld s') ∧
        (¬ s.Spares a → ¬ s.KeepsHeld s') := fun hne hnext =>
    ⟨fun _ => hnext, fun hno => absurd (fun env _ ha => absurd ha (hne env)) hno⟩
  cases a with
  | source a =>
    obtain ⟨source, hsrc, rfl⟩ := Option.map_eq_some_iff.mp hstep
    have hmove := Source.step_move hsrc
    have hs' := h.source.step hcfg.toAligned hmove
    have hg := h.source.grows hmove
    exact hother (by rintro _ ⟨⟩) ⟨⟨hs', fun t ht => (h.sender t ht).grows h.source hs' hg,
      fun bytes hb => (h.datagrams bytes hb).grows h.source hs' hg, h.file,
      fun c hc => (h.conn c hc).grows h.source hs' hg⟩, .of_conn_eq rfl⟩
  | listen mtu =>
    simp only [UdpSystem.step] at hstep
    split at hstep
    · cases hstep
      refine hother (by rintro _ ⟨⟩) ⟨{ h with sender := ?_ }, .of_conn_eq rfl⟩
      rintro t ⟨⟩
      exact .start h.source mtu
    · cases hstep
  | send a =>
    simp only [UdpSystem.step] at hstep
    split at hstep
    · next t ht =>
      obtain ⟨⟨t', sent⟩, hsend, rfl⟩ := Option.map_eq_some_iff.mp hstep
      obtain ⟨hinv, hsent⟩ := (h.sender t ht).step h.source hsend
      refine hother (by rintro _ ⟨⟩) ⟨{ h with sender := ?_, datagrams := fun bytes hb => ?_ },
        .of_conn_eq rfl⟩
      · rintro _ ⟨⟩
        exact hinv
      · rcases List.mem_append.mp hb with hb | hb
        · exact h.datagrams bytes hb
        · exact hsent bytes hb
    · cases hstep
  | connect start =>
    simp only [UdpSystem.step] at hstep
    split at hstep
    · next hnone =>
      cases hstep
      refine hother (by rintro _ ⟨⟩) ⟨h.setConn (.opened h.source start h.file), fun c c' hc => ?_⟩
      rw [hnone] at hc
      cases hc
    · cases hstep
  | answer =>
    obtain ⟨c, hc, hans⟩ := Option.bind_eq_some_iff.mp hstep
    obtain ⟨c', hc', rfl⟩ := Option.map_eq_some_iff.mp hans
    obtain ⟨hinv, hmirror⟩ := (h.conn c hc).answer h.source hc'
    refine hother (by rintro _ ⟨⟩) ⟨h.setConn hinv, .of_conn hc ?_⟩
    rw [hmirror]
    exact .refl c.mirror
  | serve a =>
    simp only [UdpSystem.step] at hstep
    split at hstep
    · next c hc =>
      obtain ⟨⟨server, bytes⟩, hserver, rfl⟩ := Option.map_eq_some_iff.mp hstep
      have hinv := (h.conn c hc).serve h.source hserver
      exact hother (by rintro _ ⟨⟩) ⟨h.setConn hinv, .of_conn hc (.refl c.mirror)⟩
    · cases hstep
  | datagram env i =>
    simp only [UdpSystem.step] at hstep
    split at hstep
    · next c bytes hc hbytes =>
      obtain ⟨c', hc', rfl⟩ := Option.map_eq_some_iff.mp hstep
      have hsends := h.datagrams bytes (List.mem_of_getElem? hbytes)
      obtain ⟨hinv, hsafe⟩ := (h.conn c hc).receive h.source (.inl ⟨bytes, rfl, hsends⟩) hc'
      exact hother (by rintro _ ⟨⟩) ⟨h.setConn hinv, .of_conn hc hsafe.keeps⟩
    · cases hstep
  | timeout env =>
    obtain ⟨c, hc, hr⟩ := Option.bind_eq_some_iff.mp hstep
    obtain ⟨c', hc', rfl⟩ := Option.map_eq_some_iff.mp hr
    obtain ⟨hinv, hsafe⟩ := (h.conn c hc).receive h.source (.inr rfl) hc'
    exact hother (by rintro _ ⟨⟩) ⟨h.setConn hinv, .of_conn hc hsafe.keeps⟩
  | control env =>
    obtain ⟨c, hc, hr⟩ := Option.bind_eq_some_iff.mp hstep
    obtain ⟨c', hc', rfl⟩ := Option.map_eq_some_iff.mp hr
    obtain ⟨hspared, hlost⟩ := (h.conn c hc).control hcfg h.source hc'
    constructor
    · intro hspares
      obtain ⟨hinv, hsafe⟩ := hspared (hspares env c rfl hc)
      exact ⟨h.setConn hinv, .of_conn hc hsafe.keeps⟩
    · intro hno hkeeps
      refine hlost (fun hspares => hno fun env' c₁ _ hc₁ => ?_) (hkeeps c c' hc rfl)
      rw [hc] at hc₁
      cases hc₁
      exact hspares

/-- **A record kept aside is lost to a `GAP` exactly when the `GAP` leads over it.** In every run in
which no `GAP` has, whatever is lost, repeated or reordered among the datagrams and however the
source goes on between a `NAK` and its answer: the next step lets every record kept aside stay or
writes it, and moves the write position over none of them, if and only if that step is no `GAP`
that leads over a record kept aside. -/
theorem keepsHeld_iff_spares (hcfg : cfg.Supported) {file : RingFile w} (hfile : file.Fits)
    (h : Transition.ReachesBy Spares (step cfg session batch) (create ρ cfg file) s)
    {a : UdpLabel ρ w} (hstep : s.step cfg session batch a = some s') :
    s.KeepsHeld s' ↔ s.Spares a := by
  have hinv : s.Inv cfg session batch := by
    refine h.invariant (P := fun s => s.Inv cfg session batch)
      (fun hs hok hnext => ((hs.step hcfg hnext).1 hok).1) ?_
    exact ⟨.create ρ cfg, by rintro _ ⟨⟩, by rintro _ ⟨⟩, hfile, by rintro _ ⟨⟩⟩
  obtain ⟨hspared, hlost⟩ := hinv.step hcfg hstep
  exact ⟨fun hkeeps => by_contra fun hno => hlost hno hkeeps, fun hspares => (hspared hspares).2⟩

end UdpSystem

/-- `udp_loop` sends one record. -/
def sendByte : List (UdpLabel Unit 1) :=
  [.send (.read .tick), .send (.read (.word onlyWord)), .send (.read .tick),
    .send (.linger false), .send (.send .sent)]

/-- Two records are pushed and sent. The first datagram is lost, the second one arrives, and the
mirror asks for the first record. -/
def heldByte : List (UdpLabel Unit 1) :=
  [.listen 64, .connect .oldest] ++ (pushByteSource 1).map .source ++ (pushByteSource 2).map .source ++
  sendByte ++ sendByte ++ [.datagram ⟨true, true⟩ 1, .answer]

/-- The record asked for is still there: both are written. -/
theorem keepsHeld_resent : ∃ s s' : UdpSystem Unit 1,
    Transition.ReachesBy UdpSystem.Spares (UdpSystem.step twoBytes 7 1)
      (UdpSystem.create Unit twoBytes .absent) s ∧
    UdpSystem.step twoBytes 7 1 s (.control ⟨true, true⟩) = some s' ∧ s.KeepsHeld s' ∧
    (s.conn.map fun c => c.mirror.pending) = some [(2, 1, [2])] ∧
    (s'.conn.map fun c => c.mirror.ring.log.map Written.seq) = some [1, 2] := by
  obtain ⟨s, hs⟩ : ∃ s, Transition.run (UdpSystem.step twoBytes 7 1)
      (UdpSystem.create Unit twoBytes .absent) (heldByte ++
        [.serve .next, .serve (.read .tick), .serve (.read (.word 0)), .serve (.read .tick),
          .serve .next]) = some s := ⟨_, rfl⟩
  have hreach : Transition.ReachesBy UdpSystem.Spares (UdpSystem.step twoBytes 7 1)
      (UdpSystem.create Unit twoBytes .absent) s := by
    refine .append .refl hs ?_
    rintro a ha v env c rfl
    simp [heldByte, sendByte] at ha
  obtain ⟨s', hs'⟩ : ∃ s', UdpSystem.step twoBytes 7 1 s (.control ⟨true, true⟩) = some s' := by
    cases hs
    exact ⟨_, rfl⟩
  have hspares : s.Spares (.control ⟨true, true⟩) := by
    rintro env c - hc hkind
    cases hs
    cases hc
    cases hkind
  have hheld : (s.conn.map fun c => c.mirror.pending) = some [(2, 1, [2])] := by
    cases hs
    rfl
  have hlog : (s'.conn.map fun c => c.mirror.ring.log.map Written.seq) = some [1, 2] := by
    cases hs
    cases hs'
    rfl
  have hiff := UdpSystem.keepsHeld_iff_spares twoBytes_supported (by rintro _ ⟨⟩) hreach hs'
  exact ⟨s, s', hreach, hs', hiff.mpr hspares, hheld, hlog⟩

/-- **A record that has arrived is lost to a `GAP`.** Two more records are pushed before the `NAK`
for the first one is answered. The ring holds two, so the answer is that the third one is next,
and the second one, which the mirror has, is dropped. -/
theorem gap_loses_held : ∃ (s s' : UdpSystem Unit 1) (c c' : UdpConn 1),
    Transition.Reaches (UdpSystem.step twoBytes 7 1) (UdpSystem.create Unit twoBytes .absent) s ∧
    UdpSystem.step twoBytes 7 1 s (.control ⟨true, true⟩) = some s' ∧
    s.conn = some c ∧ s'.conn = some c' ∧ c.mirror.pending = [(2, 1, [2])] ∧
    c'.mirror.pending = [] ∧ c'.mirror.ring.nextSeq = 3 ∧ c'.mirror.ring.log = [] := by
  obtain ⟨s, s', hs, hs', c, c', hrest⟩ : ∃ s s', Transition.run (UdpSystem.step twoBytes 7 1)
      (UdpSystem.create Unit twoBytes .absent) (heldByte ++ (pushByteSource 3).map .source ++
        (pushByteSource 4).map .source ++ [.serve .next]) = some s ∧
      UdpSystem.step twoBytes 7 1 s (.control ⟨true, true⟩) = some s' ∧
      ∃ c c' : UdpConn 1, s.conn = some c ∧ s'.conn = some c' ∧ c.mirror.pending = [(2, 1, [2])] ∧
        c'.mirror.pending = [] ∧ c'.mirror.ring.nextSeq = 3 ∧ c'.mirror.ring.log = [] :=
    ⟨_, _, rfl, rfl, _, _, rfl, rfl, rfl, rfl, rfl, rfl⟩
  exact ⟨s, s', c, c', ⟨_, hs⟩, hs', hrest⟩

end Ringfire
