import Ringfire.Replication.CrashDelivery
import Ringfire.Replication.UdpDelivery

/-!
# The datagrams of `udp_loop` cover the stream

One cursor, which the loop moves in five ways: a datagram was sent, the records were too long for
one, the host refused it, the reader was lapped, or a payload had left the arena. There is no fault
injection and every datagram is sent once to each destination. A datagram that the host refuses to
send to one destination may have reached others before.

## Main definitions

* `UdpFeed.step`: a source and the thread of `udp_loop`, with all that is sent and every step taken
* `UdpMove.Passes`: a step of the thread that leads over a sequence, and why

## Main results

* `UdpSender.step_exit`, `UdpSender.Inv.sent_or_passes`: what one step sends and what it leads over
* `UdpFeed.covers_stream`: each sequence is sent in one datagram or passed over
* `skipped_intact`: a record is passed over whose slot and blob are all there
-/

namespace Ringfire

open PayloadArena

variable {ρ : Type} {w : ℕ}

/-! ## What a datagram says -/

/-- The datagram holds record `k`. -/
def Carries (bytes : List UInt8) (k : ℕ) : Prop :=
  (Frame.decode bytes).kind = kindData ∧ (Frame.decode bytes).seq ≤ k ∧
    k < (Frame.decode bytes).seq + (Frame.decode bytes).count

/-- The datagram is a heartbeat up to `k`. -/
def Announces (bytes : List UInt8) (k : ℕ) : Prop :=
  (Frame.decode bytes).kind = kindHeartbeat ∧ (Frame.decode bytes).seq = k

/-! ## What becomes of a record -/

/-- Record `k` was stored and its slot holds it no more. -/
def Source.Overwritten (cfg : SourceConfig w) (s : Source ρ w) (k : ℕ) : Prop :=
  k < s.seq ∧ (s.sys.mem.slots (slotIndex cfg.ring.cap k)).seq ≠ k

/-- A step of `udp_loop`, with the source it was taken next to. -/
structure UdpMove (ρ : Type) (w : ℕ) where
  source : Source ρ w
  sender : UdpSender w
  label : SendLabel w
  next : UdpSender w

namespace UdpMove

/-- The frame exceeds what a datagram can carry, or what the host lets it be. -/
def TooLong (m : UdpMove ρ w) : Prop :=
  ∃ got out, m.sender.pc = .send got out ∧
    (udpMaxPayload < wireLen out ∨ m.label = .send .refused)

/-- The step leads over `k`: its frame is too long, its slot was overwritten, or the arena was
reserved over its blob. -/
def Passes (cfg : SourceConfig w) (m : UdpMove ρ w) (k : ℕ) : Prop :=
  m.sender.cursor ≤ k ∧ k < m.next.cursor ∧
    (m.TooLong ∨ m.source.Overwritten cfg k ∨ m.source.Lapped cfg k)

end UdpMove

/-! ## The system -/

/-- A source and the thread that sends its records. -/
structure UdpFeed (ρ : Type) (w : ℕ) where
  source : Source ρ w
  sender : Option (UdpSender w)
  /-- Where the thread started. -/
  start : ℕ
  /-- Every datagram that went out, to one destination at least. -/
  datagrams : List (List UInt8)
  /-- Every step of the thread. -/
  moves : List (UdpMove ρ w)
  /-- The thread has ended with an error. -/
  failed : Bool

/-- Who moves: the source, or the thread. A datagram that is refused, or cannot be sent for another
reason, has `reached` some destination or none. -/
inductive FeedLabel (ρ : Type) (w : ℕ) where
  | source (a : SourceLabel ρ w)
  | listen (mtu : ℕ)
  | send (a : SendLabel w) (reached : Bool)
  | fail (reached : Bool)

namespace UdpSender

/-- The datagram that is sent next. -/
def attempted (session : UInt8) (t : UdpSender w) : List (List UInt8) :=
  match t.pc with
  | .send got out =>
    if 0 < got.count ∧ wireLen out ≤ udpMaxPayload then [datagram session t.cursor got out] else []
  | .idle => [(Frame.mk kindHeartbeat session.toNat 0 0 (t.cursor - 1)).encode]
  | _ => []

/-- What goes out of a datagram that one destination refuses. -/
def partly (session : UInt8) (t : UdpSender w) : SendLabel w → Bool → List (List UInt8)
  | .send .refused, true => t.attempted session
  | _, _ => []

end UdpSender

namespace UdpFeed

/-- A fresh source. -/
def create (ρ : Type) (cfg : SourceConfig w) : UdpFeed ρ w :=
  ⟨.create ρ cfg, none, 0, [], [], false⟩

/-- One step. -/
def step [DecidableEq ρ] (cfg : SourceConfig w) (session : UInt8) (batch : ℕ) (s : UdpFeed ρ w) :
    FeedLabel ρ w → Option (UdpFeed ρ w)
  | .source a => (s.source.step cfg a).map fun source => { s with source := source }
  | .listen mtu =>
    match s.sender with
    | none => some { s with
        sender := some (.start batch mtu s.source.sys.mem.writeSeq)
        start := s.source.sys.mem.writeSeq + 1 }
    | some _ => none
  -- no fault injection
  | .send (.send .dropped) _ => none
  | .send a reached =>
    match s.sender, s.failed with
    | some t, false =>
      (t.step cfg session batch s.source a).map fun (t', sent) =>
        { s with
          sender := some t'
          datagrams := s.datagrams ++ (sent ++ t.partly session a reached)
          moves := s.moves ++ [⟨s.source, t, a, t'⟩] }
    | _, _ => none
  | .fail reached =>
    match s.sender, s.failed with
    | some t, false => some { s with
        datagrams := s.datagrams ++ if reached then t.attempted session else []
        failed := true }
    | _, _ => none

/-- The datagrams cover the stream. -/
structure Covered (cfg : SourceConfig w) (s : UdpFeed ρ w) : Prop where
  /-- The datagrams with records have disjoint ranges, in order. -/
  increasing : s.datagrams.Pairwise fun a b => ∀ k l, Carries a k → Carries b l → k < l
  /-- What a heartbeat announces is not sent after it. -/
  announced : s.datagrams.Pairwise fun a b => ∀ k l, Announces a k → Carries b l → k < l
  /-- Every sequence is sent in one datagram, or passed over. -/
  covers : ∀ t, s.sender = some t → ∀ k, s.start ≤ k → k < t.cursor →
    (∃! i : ℕ, ∃ bytes, s.datagrams[i]? = some bytes ∧ Carries bytes k) ∨
      ∃ m ∈ s.moves, m.Passes cfg k

end UdpFeed

/-! ## The datagrams -/

section

variable {session : UInt8} {cursor k : ℕ} {got : Collected} {out : List Record}

theorem carries_datagram (hcursor : cursor < 256 ^ 8) (hcount : got.count < 256 ^ 2) :
    Carries (UdpSender.datagram session cursor got out) k ↔
      cursor ≤ k ∧ k < cursor + got.count := by
  unfold Carries UdpSender.datagram
  rw [Frame.decode_dataFrame, Nat.mod_eq_of_lt hcursor, Nat.mod_eq_of_lt hcount]
  exact and_iff_right rfl

theorem not_announces_datagram : ¬ Announces (UdpSender.datagram session cursor got out) k := by
  unfold Announces UdpSender.datagram
  rw [Frame.decode_dataFrame]
  exact fun h => absurd h.1 (show kindData ≠ kindHeartbeat by decide)

/-- A heartbeat is read back. -/
theorem decode_beat (hcursor : cursor < 256 ^ 8) :
    Frame.decode (Frame.mk kindHeartbeat session.toNat 0 0 cursor).encode =
      ⟨kindHeartbeat, session.toNat, 0, 0, cursor⟩ := by
  have hfits : (Frame.mk kindHeartbeat session.toNat 0 0 cursor).Fits :=
    ⟨show kindHeartbeat < 256 ^ 1 by decide, session.toNat_lt, show 0 < 256 ^ 2 by decide,
      show 0 < 256 ^ 4 by decide, hcursor⟩
  have h := Frame.decode_encode hfits []
  rwa [List.append_nil] at h

theorem not_carries_beat (hcursor : cursor < 256 ^ 8) :
    ¬ Carries (Frame.mk kindHeartbeat session.toNat 0 0 cursor).encode k := by
  unfold Carries
  rw [decode_beat hcursor]
  exact fun h => absurd h.1 (show kindHeartbeat ≠ kindData by decide)

theorem announces_beat (hcursor : cursor < 256 ^ 8) :
    Announces (Frame.mk kindHeartbeat session.toNat 0 0 cursor).encode k ↔ cursor = k := by
  unfold Announces
  rw [decode_beat hcursor]
  exact and_iff_right rfl

end

/-! ## What is overwritten -/

/-- A sequence that `resync` leads over has left its slot. -/
theorem Source.Inv.overwritten {cfg : SourceConfig w} {s : Source ρ w} (hs : s.Inv cfg) {k : ℕ}
    (hpos : 1 ≤ k) (hk : k + cfg.ring.cap.val < s.seq) : s.Overwritten cfg k := by
  refine ⟨by omega, fun hword => ?_⟩
  have hle : s.seq ≤ k + cfg.ring.cap.val := hs.sys.ring.le_add_of_word hpos hword
  omega

/-! ## The exits of the loop -/

namespace UdpSender

variable {cfg : SourceConfig w} {session : UInt8} {batch : ℕ} {s : Source ρ w} {t t' : UdpSender w}
  {a : SendLabel w} {sent : List (List UInt8)}

/-- Where a step leaves the cursor, and what it sends. -/
inductive Exit (cfg : SourceConfig w) (session : UInt8) (s : Source ρ w) (t : UdpSender w) :
    SendLabel w → ℕ → List (List UInt8) → Prop where
  | stays (a : SendLabel w) (quiet : ∀ reached, t.partly session a reached = []) :
      Exit cfg session s t a t.cursor []
  | beat (due : Bool) (pc : t.pc = .idle) :
      Exit cfg session s t (.next due) t.cursor (if due then t.attempted session else [])
  | frame {got : Collected} {out : List Record} (outcome : SendOutcome) (pc : t.pc = .send got out)
      (pos : 0 < got.count) :
      Exit cfg session s t (.send outcome) (t.cursor + got.count)
        (if outcome = .sent then t.attempted session else [])
  | lapped {seen : ℕ} (due : Bool) (pc : t.pc = .resync seen)
      (lt : t.cursor < oldestRetained (max s.sys.mem.writeSeq seen) cfg.ring.cap.val) :
      Exit cfg session s t (.next due)
        (oldestRetained (max s.sys.mem.writeSeq seen) cfg.ring.cap.val) []
  | lost (due : Bool) (pc : t.pc = .lost) : Exit cfg session s t (.next due) (t.cursor + 1) []

/-- Nothing is gathered, so nothing is attempted. -/
theorem attempted_eq_nil {got : Collected} {out : List Record} (hp : t.pc = .send got out)
    (hcount : ¬ (0 < got.count ∧ wireLen out ≤ udpMaxPayload)) : t.attempted session = [] := by
  unfold attempted
  rw [hp]
  exact if_neg hcount

theorem partly_eq_nil (h : t.attempted session = []) (a : SendLabel w) (reached : Bool) :
    t.partly session a reached = [] := by
  unfold partly
  split
  · exact h
  · rfl

/-- The records gathered are sent, or not. -/
theorem exit_send {got : Collected} {out : List Record} (hp : t.pc = .send got out)
    (outcome : SendOutcome) :
    Exit cfg session s t (.send outcome) (t.send session batch got out outcome).1.cursor
      (t.send session batch got out outcome).2 := by
  unfold UdpSender.send
  simp only
  by_cases hcount : 0 < got.count
  · rw [if_pos hcount]
    have hframe : Exit cfg session s t (.send outcome) (t.cursor + got.count)
        (if outcome = .sent then t.attempted session else []) := .frame outcome hp hcount
    by_cases hlong : udpMaxPayload < wireLen out
    · rw [if_pos hlong]
      rw [attempted_eq_nil hp (by omega), ite_self] at hframe
      exact hframe
    · rw [if_neg hlong]
      have hatt : t.attempted session = [datagram session t.cursor got out] := by
        unfold attempted
        rw [hp]
        exact if_pos ⟨hcount, Nat.not_lt.mp hlong⟩
      rw [hatt] at hframe
      exact hframe
  · rw [if_neg hcount]
    exact .stays _ (partly_eq_nil (attempted_eq_nil hp fun h => hcount h.1) _)

/-- **Every step leaves the loop by one of its exits.** -/
theorem step_exit (hstep : t.step cfg session batch s a = some (t', sent)) :
    Exit cfg session s t a t'.cursor sent := by
  cases step_moves hstep with
  | read | gathered | enough | again | stay => exact .stays _ fun _ => rfl
  | send outcome pc => exact exit_send pc outcome
  | jump due pc lt => exact .lapped due pc lt
  | lost due pc => exact .lost due pc
  | idle due pc =>
    have hbeat : Exit cfg session s t (.next due) t.cursor
        (if due then t.attempted session else []) := .beat due pc
    unfold attempted at hbeat
    rw [pc] at hbeat
    exact hbeat

/-- What is attempted holds the records gathered, or announces the sequence before them. -/
theorem Inv.attempted (h : t.Inv cfg batch s) (hs : s.Inv cfg) {bytes : List UInt8}
    (hb : bytes ∈ t.attempted session) :
    (∃ got out, t.pc = .send got out ∧ (∀ k, ¬ Announces bytes k) ∧
      ∀ k, Carries bytes k ↔ t.cursor ≤ k ∧ k < t.cursor + got.count) ∨
    (t.pc = .idle ∧ (∀ k, ¬ Carries bytes k) ∧ ∀ k, Announces bytes k ↔ t.cursor - 1 = k) := by
  have hle := h.le
  have hbound := hs.bound
  have hpc := h.pc
  cases hp : t.pc with
  | collect | linger | resync | lost =>
    unfold UdpSender.attempted at hb
    rw [hp] at hb
    cases hb
  | send got out =>
    rw [hp] at hpc
    have hgot : got.Sound cfg s t.cursor (SourceRing.clampBatch batch) t.maxBytes out := hpc
    have hcount := hgot.limit.trans (TcpServer.clampBatch_bounds batch).2
    unfold UdpSender.attempted at hb
    rw [hp] at hb
    simp only at hb
    split_ifs at hb
    · rw [List.mem_singleton.mp hb]
      exact .inl ⟨got, out, rfl, fun _ => not_announces_datagram,
        fun _ => carries_datagram (by omega) (by omega)⟩
    · cases hb
  | idle =>
    unfold UdpSender.attempted at hb
    rw [hp] at hb
    rw [List.mem_singleton.mp hb]
    exact .inr ⟨rfl, fun _ => not_carries_beat (by omega), fun _ => announces_beat (by omega)⟩

theorem Inv.le_of_attempted (h : t.Inv cfg batch s) (hs : s.Inv cfg) {bytes : List UInt8}
    (hb : bytes ∈ t.attempted session) {k : ℕ} (hk : Carries bytes k) : t.cursor ≤ k := by
  rcases h.attempted hs hb with ⟨got, out, -, -, hcarries⟩ | ⟨-, hnone, -⟩
  · exact ((hcarries k).mp hk).1
  · exact absurd hk (hnone k)

theorem length_attempted_le (session : UInt8) (t : UdpSender w) :
    (t.attempted session).length ≤ 1 := by
  unfold UdpSender.attempted
  split
  · split_ifs
    · exact le_refl 1
    · exact Nat.zero_le 1
  · exact le_refl 1
  · exact Nat.zero_le 1

/-- Only what is attempted goes out. -/
theorem Exit.sublist {cursor : ℕ} (hx : Exit cfg session s t a cursor sent) (reached : Bool) :
    (sent ++ t.partly session a reached).Sublist (t.attempted session) := by
  cases hx with
  | stays a quiet =>
    rw [quiet reached]
    exact List.nil_sublist _
  | beat due pc =>
    rw [show t.partly session (.next due) reached = [] from rfl, List.append_nil]
    split_ifs
    · exact List.Sublist.refl _
    · exact List.nil_sublist _
  | frame outcome pc pos =>
    cases outcome with
    | sent => exact (List.append_nil _).symm ▸ List.Sublist.refl _
    | dropped => exact List.nil_sublist _
    | refused =>
      cases reached with
      | true => exact List.Sublist.refl _
      | false => exact List.nil_sublist _
  | lapped due pc lt => exact List.nil_sublist _
  | lost due pc => exact List.nil_sublist _

/-- What goes out says nothing beyond where the cursor is left. -/
theorem Inv.said_lt (h : t.Inv cfg batch s) (hs : s.Inv cfg) {cursor : ℕ}
    (hx : Exit cfg session s t a cursor sent) (reached : Bool) {bytes : List UInt8}
    (hb : bytes ∈ sent ++ t.partly session a reached) {k : ℕ}
    (hk : Carries bytes k ∨ Announces bytes k) : k < cursor := by
  have hpos := h.one_le
  have hatt := h.attempted hs ((hx.sublist reached).subset hb)
  cases hx with
  | stays a quiet =>
    rw [quiet reached] at hb
    cases hb
  | beat due pc =>
    rcases hatt with ⟨got, out, hp, -⟩ | ⟨-, hnone, hannounces⟩
    · rw [pc] at hp
      cases hp
    · rcases hk with hk | hk
      · exact absurd hk (hnone k)
      · have hlast := (hannounces k).mp hk
        omega
  | frame outcome pc pos =>
    rcases hatt with ⟨got, out, hp, hnone, hcarries⟩ | ⟨hp, -⟩
    · rw [pc] at hp
      cases hp
      rcases hk with hk | hk
      · exact ((hcarries k).mp hk).2
      · exact absurd hk (hnone k)
    · rw [pc] at hp
      cases hp
  | lapped due pc lt => cases hb
  | lost due pc => cases hb

/-- **A sequence that the cursor leads over is sent, or passed over.** -/
theorem Inv.sent_or_passes (h : t.Inv cfg batch s) (hs : s.Inv cfg) (ha : a ≠ .send .dropped)
    (hx : Exit cfg session s t a t'.cursor sent) {k : ℕ} (hk : t.cursor ≤ k) (hk' : k < t'.cursor) :
    (∃ bytes ∈ sent, Carries bytes k) ∨ (UdpMove.mk s t a t').Passes cfg k := by
  have hpos := h.one_le
  have hpc := h.pc
  -- the reason is all that differs
  have hpass (hwhy : (UdpMove.mk s t a t').TooLong ∨ s.Overwritten cfg k ∨ s.Lapped cfg k) :
      (UdpMove.mk s t a t').Passes cfg k := ⟨hk, hk', hwhy⟩
  generalize hc : t'.cursor = cursor at hx hk'
  cases hx with
  | stays a quiet => omega
  | beat due pc => omega
  | @frame got out outcome pc pos =>
    by_cases hlong : udpMaxPayload < wireLen out
    · exact .inr (hpass (.inl ⟨got, out, pc, .inl hlong⟩))
    cases outcome with
    | dropped => exact absurd rfl ha
    | refused => exact .inr (hpass (.inl ⟨got, out, pc, .inr rfl⟩))
    | sent =>
      have hb : datagram session t.cursor got out ∈ t.attempted session := by
        unfold UdpSender.attempted
        rw [pc]
        simp only
        rw [if_pos ⟨pos, Nat.not_lt.mp hlong⟩]
        exact List.mem_singleton_self _
      rcases h.attempted hs hb with ⟨got', out', hp, -, hcarries⟩ | ⟨hp, -⟩
      · rw [pc] at hp
        cases hp
        exact .inl ⟨_, hb, (hcarries k).mpr ⟨hk, hk'⟩⟩
      · rw [pc] at hp
        cases hp
  | lapped due pc lt =>
    rw [pc] at hpc
    have hgone := TcpServer.gone_of_resync hs (hpos.trans hk) hpc hk'
    exact .inr (hpass (.inr (.inl (hs.overwritten (hpos.trans hk) hgone))))
  | lost due pc =>
    rw [pc] at hpc
    have hlap : s.Lapped cfg t.cursor := hpc
    obtain rfl : k = t.cursor := by omega
    exact .inr (hpass (.inr (.inr hlap)))

theorem Exit.le {cursor : ℕ} (hx : Exit cfg session s t a cursor sent) : t.cursor ≤ cursor := by
  cases hx with
  | stays | beat => exact le_refl _
  | frame => exact Nat.le_add_right _ _
  | lapped due pc lt => exact lt.le
  | lost => exact Nat.le_succ _

end UdpSender

/-! ## The stream -/

namespace UdpFeed

variable [DecidableEq ρ] {cfg : SourceConfig w} {session : UInt8} {batch : ℕ} {s s' : UdpFeed ρ w}

/-- What one datagram says lies below the records of a later one. -/
def Before (a b : List UInt8) : Prop :=
  ∀ k l, Carries a k ∨ Announces a k → Carries b l → k < l

/-- What holds of the system. -/
structure Inv (cfg : SourceConfig w) (batch : ℕ) (s : UdpFeed ρ w) : Prop where
  source : s.source.Inv cfg
  sender : ∀ t, s.sender = some t → t.Inv cfg batch s.source
  unsent : s.sender = none → s.datagrams = []
  ordered : s.datagrams.Pairwise Before
  /-- Until the thread ends, what was sent lies below its cursor. -/
  below : s.failed = false → ∀ t, s.sender = some t → ∀ bytes ∈ s.datagrams, ∀ k,
    Carries bytes k ∨ Announces bytes k → k < t.cursor
  covers : ∀ t, s.sender = some t → ∀ k, s.start ≤ k → k < t.cursor →
    (∃ bytes ∈ s.datagrams, Carries bytes k) ∨ ∃ m ∈ s.moves, m.Passes cfg k

omit [DecidableEq ρ] in
theorem Inv.create (ρ : Type) (cfg : SourceConfig w) (batch : ℕ) :
    (create ρ cfg).Inv cfg batch where
  source := .create ρ cfg
  sender := by rintro _ ⟨⟩
  unsent := fun _ => rfl
  ordered := .nil
  below := by rintro _ _ ⟨⟩
  covers := by rintro _ ⟨⟩

omit [DecidableEq ρ] in
/-- Datagrams of the present cursor come after all earlier ones. -/
theorem Inv.ordered_append (h : s.Inv cfg batch) (hfailed : s.failed = false) {t : UdpSender w}
    (ht : s.sender = some t) {said : List (List UInt8)}
    (hsaid : said.Sublist (t.attempted session)) : (s.datagrams ++ said).Pairwise Before := by
  have hone : said.Pairwise Before := by
    have hlen := hsaid.length_le.trans (UdpSender.length_attempted_le session t)
    match said, hlen with
    | [], _ => exact .nil
    | [b], _ => exact List.pairwise_singleton _ b
  refine List.pairwise_append.mpr ⟨h.ordered, hone, fun a ha b hb k l hk hl => ?_⟩
  have hlt : k < t.cursor := h.below hfailed t ht a ha k hk
  exact hlt.trans_le ((h.sender t ht).le_of_attempted h.source (hsaid.subset hb) hl)

omit [DecidableEq ρ] in
/-- The thread takes a step. -/
theorem Inv.send (h : s.Inv cfg batch) (hfailed : s.failed = false) {t t' : UdpSender w}
    (ht : s.sender = some t) {a : SendLabel w} (ha : a ≠ .send .dropped) {reached : Bool}
    {sent : List (List UInt8)} (hstep : t.step cfg session batch s.source a = some (t', sent)) :
    Inv cfg batch { s with
      sender := some t'
      datagrams := s.datagrams ++ (sent ++ t.partly session a reached)
      moves := s.moves ++ [⟨s.source, t, a, t'⟩] } := by
  have hinv := h.sender t ht
  have hx : UdpSender.Exit cfg session s.source t a t'.cursor sent := UdpSender.step_exit hstep
  refine ⟨h.source, ?_, by rintro ⟨⟩, h.ordered_append hfailed ht (hx.sublist reached), ?_, ?_⟩
  · rintro _ ⟨⟩
    exact (hinv.step h.source hstep).1
  · rintro - _ ⟨⟩ bytes hb k hk
    rcases List.mem_append.mp hb with hb | hb
    · exact (h.below hfailed t ht bytes hb k hk).trans_le hx.le
    · exact hinv.said_lt h.source hx reached hb hk
  · rintro _ ⟨⟩ k hk hk'
    rcases Nat.lt_or_ge k t.cursor with hlt | hge
    · -- it was dealt with before
      refine (h.covers t ht k hk hlt).imp ?_ ?_
      · rintro ⟨bytes, hb, hcarries⟩
        exact ⟨bytes, List.mem_append_left _ hb, hcarries⟩
      · rintro ⟨m, hm, hpasses⟩
        exact ⟨m, List.mem_append_left _ hm, hpasses⟩
    · refine (hinv.sent_or_passes h.source ha hx hge hk').imp ?_ ?_
      · rintro ⟨bytes, hb, hcarries⟩
        exact ⟨bytes, List.mem_append_right _ (List.mem_append_left _ hb), hcarries⟩
      · intro hpasses
        exact ⟨_, List.mem_append_right _ (List.mem_singleton_self _), hpasses⟩

/-- **A step keeps what was sent in order and covered.** -/
theorem Inv.step (hcfg : cfg.Aligned) (h : s.Inv cfg batch) {a : FeedLabel ρ w}
    (hstep : s.step cfg session batch a = some s') : s'.Inv cfg batch := by
  cases a with
  | source a =>
    obtain ⟨source, hsrc, rfl⟩ := Option.map_eq_some_iff.mp hstep
    have hmove := Source.step_move hsrc
    have hs' := h.source.step hcfg hmove
    exact { h with
      source := hs'
      sender := fun t ht => (h.sender t ht).grows h.source hs' (h.source.grows hmove) }
  | listen mtu =>
    simp only [UdpFeed.step] at hstep
    split at hstep
    · next hnone =>
      cases hstep
      have hnil := h.unsent hnone
      refine ⟨h.source, ?_, by rintro ⟨⟩, h.ordered, ?_, ?_⟩
      · rintro _ ⟨⟩
        exact .start h.source mtu
      · rintro - _ ⟨⟩ bytes hb
        rw [hnil] at hb
        cases hb
      · -- nothing lies before the start
        rintro _ ⟨⟩ k hk hk'
        exact absurd hk' (Nat.not_lt.mpr hk)
    · cases hstep
  | send a reached =>
    by_cases ha : a = .send .dropped
    · rw [ha] at hstep
      cases hstep
    · simp only [UdpFeed.step] at hstep
      split at hstep
      · next t ht hfailed =>
        obtain ⟨⟨t', sent⟩, hsend, rfl⟩ := Option.map_eq_some_iff.mp hstep
        exact h.send hfailed ht ha hsend
      · cases hstep
  | fail reached =>
    simp only [UdpFeed.step] at hstep
    split at hstep
    · next t ht hfailed =>
      cases hstep
      have hsaid : (if reached then t.attempted session else []).Sublist (t.attempted session) := by
        split_ifs
        · exact List.Sublist.refl _
        · exact List.nil_sublist _
      refine ⟨h.source, h.sender, ?_, h.ordered_append hfailed ht hsaid, by rintro ⟨⟩, ?_⟩
      · intro hnone
        rw [ht] at hnone
        cases hnone
      · intro t' ht' k hk hk'
        refine (h.covers t' ht' k hk hk').imp_left ?_
        rintro ⟨bytes, hb, hcarries⟩
        exact ⟨bytes, List.mem_append_left _ hb, hcarries⟩
    · cases hstep

omit [DecidableEq ρ] in
/-- At most one datagram holds a record. -/
theorem Inv.existsUnique (h : s.Inv cfg batch) {k : ℕ}
    (hk : ∃ bytes ∈ s.datagrams, Carries bytes k) :
    ∃! i : ℕ, ∃ bytes, s.datagrams[i]? = some bytes ∧ Carries bytes k := by
  have hlt {i j : ℕ} (hij : i < j) {a b : List UInt8} (ha : s.datagrams[i]? = some a)
      (hb : s.datagrams[j]? = some b) (hak : Carries a k) : ¬ Carries b k := by
    obtain ⟨hi, rfl⟩ := List.getElem?_eq_some_iff.mp ha
    obtain ⟨hj, rfl⟩ := List.getElem?_eq_some_iff.mp hb
    intro hbk
    exact lt_irrefl k (List.pairwise_iff_getElem.mp h.ordered i j hi hj hij k k (.inl hak) hbk)
  obtain ⟨bytes, hb, hcarries⟩ := hk
  obtain ⟨i, hi⟩ := List.mem_iff_getElem?.mp hb
  refine ⟨i, ⟨bytes, hi, hcarries⟩, ?_⟩
  rintro j ⟨other, hj, hother⟩
  rcases Nat.lt_trichotomy j i with hji | hji | hij
  · exact absurd hcarries (hlt hji hj hi hother)
  · exact hji
  · exact absurd hother (hlt hij hi hj hcarries)

/-- **The datagrams cover the stream.** In every run of a source and `udp_loop`, whatever is pushed
in between and whichever datagrams the host refuses: the ranges sent are disjoint and in order, a
heartbeat announces nothing that is sent after it, and every sequence from the start up to the
cursor was sent in exactly one datagram or passed over, because its frame was too long, its slot had
been overwritten, or the arena had been reserved over its blob. -/
theorem covers_stream (hcfg : cfg.Aligned)
    (h : Transition.Reaches (step cfg session batch) (create ρ cfg) s) : s.Covered cfg := by
  have hinv : s.Inv cfg batch :=
    h.invariant (P := fun s => s.Inv cfg batch) (fun hs hnext => hs.step hcfg hnext)
      (.create ρ cfg batch)
  refine ⟨hinv.ordered.imp fun hab k l hk hl => hab k l (.inl hk) hl,
    hinv.ordered.imp fun hab k l hk hl => hab k l (.inr hk) hl, fun t ht k hk hk' => ?_⟩
  exact (hinv.covers t ht k hk hk').imp_left hinv.existsUnique

end UdpFeed

/-- `udp_loop` reads one byte and sends it, or is refused. -/
def sendOne (outcome : SendOutcome) : List (FeedLabel Unit 1) :=
  [.send (.read .tick) false, .send (.read (.word onlyWord)) false, .send (.read .tick) false,
    .send (.linger false) false, .send (.send outcome) false]

/-- Two records are pushed. The first one is sent, the second one is refused, and a heartbeat
follows. -/
theorem covers_stream_refused : ∃ s : UdpFeed Unit 1,
    Transition.Reaches (UdpFeed.step twoBytes 7 1) (UdpFeed.create Unit twoBytes) s ∧
    s.Covered twoBytes ∧ s.datagrams.length = 2 ∧ s.sender.map UdpSender.cursor = some 3 := by
  obtain ⟨s, hs, hlength, hcursor⟩ : ∃ s : UdpFeed Unit 1,
      Transition.run (UdpFeed.step twoBytes 7 1) (UdpFeed.create Unit twoBytes)
        ([.listen 64] ++ (pushByteSource 1).map .source ++ (pushByteSource 2).map .source ++
          sendOne .sent ++ sendOne .refused ++
          [.send (.read .tick) false, .send (.linger false) false, .send (.send .sent) false,
            .send (.next true) false]) = some s ∧
      s.datagrams.length = 2 ∧ s.sender.map UdpSender.cursor = some 3 := ⟨_, rfl, rfl, rfl⟩
  exact ⟨s, ⟨_, hs⟩, UdpFeed.covers_stream twoBytes_supported.toAligned ⟨_, hs⟩, hlength, hcursor⟩

/-! ## A record that is passed over and all there -/

/-- A ring of eight descriptors with an arena of four cache lines. -/
def eightPackets : SourceConfig (8 * 2) where
  ring := ⟨⟨8, isPowerOfTwo_eight⟩, 0, .lossyLatestWins⟩
  blob := twoPackets.blob
  width := twoPackets.width
  lossy := fun _ _ => rfl

/-- `push` of a blob. -/
def pushBlob (blob : List UInt8) : List (SourceLabel Unit (8 * 2)) :=
  List.flatten [
    [.push ⟨[], [], blob⟩, .writer .tick, .writer .tick],
    (List.range blob.length).map fun i => .writer (.byte i),
    [.writer .tick, .publishPacket, .ring (.producer .tick), .ring (.producer .tick)],
    (List.finRange 16).map fun i => .ring (.producer (.word i)),
    [.ring (.producer .tick), .ring (.producer .tick), .ring (.producer .tick)]]

/-- `udp_loop` reads a record, finds it lapped and goes on behind it. -/
def passBlob : List (SendLabel (8 * 2)) :=
  List.flatten [
    [.read .tick],
    (List.finRange 16).map fun i => .read (.word i),
    [.read .tick, .read (.byte 0), .read .tick, .linger false, .send .sent, .next false]]

/-- The fourth blob is in the last line of the arena. The eighth one does not fit behind the
seventh, so the last line is left out and it starts at the first line again. -/
def skipLine : List (FeedLabel Unit (8 * 2)) :=
  (pushBlob [0] ++ pushBlob [0] ++ pushBlob [0]).map .source ++ [.listen 64] ++
  (pushBlob [7] ++ pushBlob [0] ++ pushBlob [0] ++ pushBlob [0] ++
    pushBlob (List.replicate 65 0)).map .source ++
  passBlob.map fun a => .send a false

set_option maxRecDepth 4000 in
/-- **A record is passed over although nothing of it was overwritten.** The sender has gone beyond
the fourth record, no datagram was sent and none was too long, the slot still holds the record, and
its blob is the one that was pushed. -/
theorem skipped_intact : ∃ (s : UdpFeed Unit (8 * 2)) (t : UdpSender (8 * 2))
    (d : Payload (8 * 2) UInt8),
    Transition.Reaches (UdpFeed.step eightPackets 7 1) (UdpFeed.create Unit eightPackets) s ∧
    s.sender = some t ∧ s.start ≤ 4 ∧ 4 < t.cursor ∧ s.datagrams = [] ∧
    (∀ m ∈ s.moves, 4 < m.next.cursor → ¬ m.TooLong) ∧ ¬ s.source.Overwritten eightPackets 4 ∧
    s.source.message 4 = some d ∧ s.source.blobs[3]? = some [7] ∧
    s.source.arena.viewBlob .fourLines (blobRefAt (payloadBytes d)) = [7] := by
  obtain ⟨s, t, d, last, hs, ht, hstart, hcursor, hnone, hlast, hlost, hstays, hword, hd, hblob,
      hview⟩ : ∃ (s : UdpFeed Unit (8 * 2)) (t : UdpSender (8 * 2)) (d : Payload (8 * 2) UInt8)
        (last : UdpMove Unit (8 * 2)),
      Transition.run (UdpFeed.step eightPackets 7 1) (UdpFeed.create Unit eightPackets) skipLine =
        some s ∧
      s.sender = some t ∧ s.start = 4 ∧ t.cursor = 5 ∧ s.datagrams = [] ∧
      s.moves.getLast? = some last ∧ last.sender.pc = .lost ∧
      (s.moves.dropLast.map fun m => m.next.cursor) = List.replicate 22 4 ∧
      (s.source.sys.mem.slots (slotIndex eightPackets.ring.cap 4)).seq = 4 ∧
      s.source.message 4 = some d ∧ s.source.blobs[3]? = some [7] ∧
      s.source.arena.viewBlob .fourLines (blobRefAt (payloadBytes d)) = [7] :=
    ⟨_, _, _, _, rfl, rfl, rfl, rfl, rfl, rfl, rfl, rfl, rfl, rfl, rfl, rfl⟩
  refine ⟨s, t, d, ⟨_, hs⟩, ht, hstart.le, by omega, hnone, ?_, fun h => h.2 hword, hd, hblob,
    hview⟩
  rintro m hm hlt ⟨got, out, hp, -⟩
  rw [← List.dropLast_append_getLast? last hlast] at hm
  rcases List.mem_append.mp hm with hm | hm
  · -- all steps but the last one stay at the record
    have hmem : m.next.cursor ∈ s.moves.dropLast.map fun m => m.next.cursor :=
      List.mem_map.mpr ⟨m, hm, rfl⟩
    rw [hstays] at hmem
    have hfour := List.eq_of_mem_replicate hmem
    omega
  · rw [List.mem_singleton.mp hm, hlost] at hp
    cases hp

end Ringfire
