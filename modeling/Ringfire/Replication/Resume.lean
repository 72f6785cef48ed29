import Ringfire.Replication.TcpDelivery

/-!
# Resuming a mirror

What `MirrorStart::Resume` comes to. A mirror asks for the sequence behind the last one it has
published, and the source judges that against its own `write_seq`. But the source also streams
messages that are stored and not published yet, so a mirror can be ahead of a `write_seq` that is
about to follow; the source then takes it for a mirror of another ring.

## Main definitions

* `TcpSystem.Published`: a resume finds everything the mirror holds published
* `Source.Retains`: the slot of a sequence still holds it

## Main results

* `TcpSystem.resume_keeps_ring`: as long as resumes find that, no mirror starts over
* `resume_continues`: where a resumed mirror starts
-/

namespace Ringfire

variable {ρ : Type} {w : ℕ}

/-! ## The same source -/

namespace TcpConn

/-- A connection that took over a ring kept it, and the source starts at its write position or
above. -/
def Kept (c : TcpConn w) : Prop :=
  ∀ next, c.adopted = some next → c.reset = false ∧ c.resumed = true ∧ next ≤ c.first

variable {cfg : SourceConfig w} {batch writeSeq : ℕ} {c c' : TcpConn w}

/-- What was agreed on in the beginning stays. -/
theorem Kept.receive {g : Geometry w} (h : c.Kept) (hr : c.receive g = some c') : c'.Kept := by
  obtain ⟨_, _, _, _, _, rfl⟩ := receive_eq hr
  exact h

theorem opened_kept {start : MirrorStart} {file : RingFile w} (hfile : file.Fits)
    (hother : ∀ n, file ≠ .other n)
    (hpub : start = .resume → ∀ ring, file = .mirror ring → ring.writeSeq ≤ writeSeq) :
    (opened cfg batch writeSeq start file).Kept := by
  intro next hnext
  simp only [opened, connect] at hnext
  split_ifs at hnext with hstart
  subst hstart
  cases file with
  | absent => cases hnext
  | other n => exact absurd rfl (hother n)
  | mirror ring =>
    cases hnext
    have hreset : (connect cfg.ring.cap writeSeq .resume (.mirror ring)).reset = false := by
      rw [Bool.eq_false_iff, ne_eq, connect_reset_iff hfile]
      exact Nat.not_lt.mpr (hpub rfl ring rfl)
    obtain ⟨hring, hresumed⟩ := connect_of_not_reset hreset
    refine ⟨hreset, hresumed, ?_⟩
    have hle := le_connect_first cfg.ring.cap writeSeq .resume hfile
    rw [hring] at hle
    exact hle

end TcpConn

namespace TcpSystem

variable [DecidableEq ρ] {cfg : SourceConfig w} {batch : ℕ} {s s' : TcpSystem ρ w}

/-- A resume finds that the source has published everything the mirror has. -/
def Published (s : TcpSystem ρ w) (a : TcpLabel ρ w) : Prop :=
  a = .connect .resume → ∀ ring, s.file = .mirror ring → ring.writeSeq ≤ s.source.sys.mem.writeSeq

/-- No ring of another layout is at the path of the mirror. -/
theorem file_ne_other {a : TcpLabel ρ w} (h : ∀ n, s.file ≠ .other n)
    (hstep : s.step cfg batch a = some s') : ∀ n, s'.file ≠ .other n := by
  cases step_moves hstep with
  | source | connect | serve | receive => exact h
  | disconnect => rintro n ⟨⟩

/-- Every connection keeps the ring it took over, if a resume finds everything published. -/
theorem kept_step {a : TcpLabel ρ w} (hfits : s.file.Fits) (hother : ∀ n, s.file ≠ .other n)
    (h : ∀ c, s.conn = some c → c.Kept) (hok : s.Published a)
    (hstep : s.step cfg batch a = some s') : ∀ c, s'.conn = some c → c.Kept := by
  cases step_moves hstep with
  | source => exact h
  | connect start =>
    rintro c ⟨⟩
    exact TcpConn.opened_kept hfits hother fun hstart => hok (hstart ▸ rfl)
  | serve a c server conn =>
    rintro c' ⟨⟩
    exact h c conn
  | receive c c' conn next =>
    rintro c'' ⟨⟩
    exact (h c conn).receive next
  | disconnect => rintro c ⟨⟩

/-- The system from the first connection on, with a mirror that never was ahead of what is
stored. -/
theorem create_inv (ρ : Type) (cfg : SourceConfig w) (batch : ℕ) :
    (create ρ cfg .absent).Inv cfg batch 1 :=
  ⟨.create ρ cfg, by rintro _ ⟨⟩, by rintro _ ⟨⟩⟩

/-- **Resuming against the same source.** In a run in which every resume finds that the source has
published everything the mirror has, no connection starts over and none starts below the write
position of the ring it took over. A resume that finds less starts over, and it comes between the
stores of the producer into its slots and its store of `write_seq`. -/
theorem resume_keeps_ring (hcfg : cfg.Supported) :
    (∀ s, Transition.ReachesBy Published (step cfg batch) (create ρ cfg .absent) s →
      ∀ c, s.conn = some c → c.Kept) ∧
    ∀ s, Transition.Reaches (step cfg batch) (create ρ cfg .absent) s → s.conn = none →
      ∀ ring, s.file = .mirror ring → ¬ ring.writeSeq ≤ s.source.sys.mem.writeSeq →
      (∃ s' c, s.step cfg batch (.connect .resume) = some s' ∧ s'.conn = some c ∧
        c.reset = true) ∧ s.source.sys.mem.writeSeq + 1 < s.source.seq := by
  constructor
  · intro s hreach
    have hinv : s.Inv cfg batch 1 ∧ (∀ n, s.file ≠ .other n) ∧ ∀ c, s.conn = some c → c.Kept := by
      refine hreach.invariant (P := fun s => s.Inv cfg batch 1 ∧ (∀ n, s.file ≠ .other n) ∧
        ∀ c, s.conn = some c → c.Kept) ?_
        ⟨create_inv ρ cfg batch, by rintro n ⟨⟩, by rintro _ ⟨⟩⟩
      rintro s a s' ⟨hs, hother, hkept⟩ hok hstep
      exact ⟨hs.step hcfg (by decide) hstep, file_ne_other hother hstep,
        kept_step (hs.fits (by decide)) hother hkept hok hstep⟩
    exact hinv.2.2
  -- published by the mirror, but not yet by the source: `connect` starts over
  · intro s hreach hconn ring hfile hahead
    have hinv : s.Inv cfg batch 1 := hreach.invariant (P := fun s => s.Inv cfg batch 1)
      (fun hs hstep => hs.step hcfg (by decide) hstep) (create_inv ρ cfg batch)
    have hfits : (RingFile.mirror ring).Fits := hfile ▸ hinv.fits (by decide)
    rw [Nat.not_le] at hahead
    constructor
    · refine ⟨{ s with conn := some (.opened cfg batch s.source.sys.mem.writeSeq .resume s.file) },
        _, ?_, rfl, ?_⟩
      · simp only [step, hconn]
      · rw [hfile]
        exact (connect_reset_iff hfits).mpr hahead
    · have hnext : ring.writeSeq + 1 ≤ max 1 s.source.seq :=
        hinv.file _ (by rw [hfile]; rfl)
      omega

end TcpSystem

/-- A byte was mirrored, the connection broke, and the mirror resumes: it waits for the second
byte. -/
theorem resume_keeps_ring_second : ∃ (s : TcpSystem Unit 1) (c : TcpConn 1),
    Transition.ReachesBy TcpSystem.Published (TcpSystem.step twoBytes 1)
      (TcpSystem.create Unit twoBytes .absent) s ∧
    s.conn = some c ∧ c.adopted = some 2 ∧ c.reset = false ∧ c.resumed = true ∧ 2 ≤ c.first := by
  obtain ⟨s, hs⟩ : ∃ s, Transition.run (TcpSystem.step twoBytes 1)
      (TcpSystem.create Unit twoBytes .absent)
      (.connect .oldest :: pushByte 5 ++ mirrorByte ++ [.disconnect]) = some s := ⟨_, rfl⟩
  obtain ⟨s', hs'⟩ : ∃ s', s.step twoBytes 1 (.connect .resume) = some s' := by
    cases hs
    exact ⟨_, rfl⟩
  obtain ⟨c, hc⟩ : ∃ c, s'.conn = some c := by
    cases hs
    cases hs'
    exact ⟨_, rfl⟩
  have hadopted : c.adopted = some 2 := by
    cases hs
    cases hs'
    cases hc
    rfl
  have hpub : s.Published (.connect .resume) := by
    intro _ ring hring
    cases hs
    cases hring
    decide
  have hreach : Transition.ReachesBy TcpSystem.Published (TcpSystem.step twoBytes 1)
      (TcpSystem.create Unit twoBytes .absent) s := by
    refine .append .refl hs ?_
    rintro _ ha v rfl
    exact absurd ha (by simp [pushByte, pushByteSource, mirrorByte])
  have hreach' := hreach.tail hpub hs'
  have hkept := (TcpSystem.resume_keeps_ring twoBytes_supported).1 s' hreach' c hc 2 hadopted
  exact ⟨s', c, hreach', hc, hadopted, hkept⟩

/-- `push_batch` of two bytes, interrupted before it stores `write_seq`. -/
def storeBytesOnly (b b' : UInt8) : List (TcpLabel Unit 1) :=
  [.source (.ring (.producer (.call (.pushBatch [fun _ => b, fun _ => b'])))),
    .source (.ring (.producer .tick)), .source (.ring (.producer .tick)),
    .source (.ring (.producer (.word onlyWord))), .source (.ring (.producer .tick)),
    .source (.ring (.producer .tick)), .source (.ring (.producer .tick)),
    .source (.ring (.producer (.word onlyWord))), .source (.ring (.producer .tick))]

/-- The server streams two bytes of a batch before `write_seq` is stored, the connection breaks, and
the mirror resumes: it is told to start over, from the first byte. -/
theorem resume_starts_over : ∃ (s : TcpSystem Unit 1) (c : TcpConn 1),
    Transition.Reaches (TcpSystem.step twoBytes 1) (TcpSystem.create Unit twoBytes .absent) s ∧
    s.conn = some c ∧ c.adopted = some 3 ∧ c.reset = true ∧ c.first < 3 := by
  obtain ⟨s, hs⟩ : ∃ s, Transition.run (TcpSystem.step twoBytes 1)
      (TcpSystem.create Unit twoBytes .absent)
      (.connect .oldest :: storeBytesOnly 5 6 ++ mirrorByte ++ mirrorByte ++
        [.disconnect, .connect .resume]) = some s := ⟨_, rfl⟩
  obtain ⟨c, hc⟩ : ∃ c, s.conn = some c := by
    cases hs
    exact ⟨_, rfl⟩
  refine ⟨s, c, ⟨_, hs⟩, hc, ?_⟩
  cases hs
  cases hc
  exact ⟨rfl, rfl, by decide⟩

/-! ## What a resumed mirror leaves out -/

namespace Source

/-- The slot of message `k` still holds it. -/
def Retains (cfg : SourceConfig w) (s : Source ρ w) (k : ℕ) : Prop :=
  1 ≤ k ∧ (s.sys.mem.slots (slotIndex cfg.ring.cap k)).seq = k

variable {cfg : SourceConfig w} {s : Source ρ w} {k : ℕ}

/-- A message that is retained is less than a ring behind. -/
theorem Retains.lt_add (hs : s.sys.Inv cfg.ring) (h : s.Retains cfg k) :
    s.sys.mem.writeSeq < k + cfg.ring.cap.val :=
  hs.ring.writeSeq.trans_le (hs.ring.le_add_of_word h.1 h.2)

end Source

/-- **Where a resumed mirror starts.** Without a ring at its path it starts at or below everything
the source retains. A ring that is not ahead of the source is kept, and continued behind its last
sequence or at the oldest message retained, so that nothing beyond that sequence is left out. -/
theorem resume_continues [DecidableEq ρ] {cfg : SourceConfig w} {s : Source ρ w}
    (hreach : Transition.Reaches (Source.step cfg) (Source.create ρ cfg) s) {k : ℕ}
    (hk : s.Retains cfg k) :
    (connect cfg.ring.cap s.sys.mem.writeSeq .resume (.absent : RingFile w)).first ≤ k ∧
    ∀ ring : MirrorRing w, ring.writeSeq ≤ s.sys.mem.writeSeq →
      (connect cfg.ring.cap s.sys.mem.writeSeq .resume (.mirror ring)).resumed = true ∧
      (connect cfg.ring.cap s.sys.mem.writeSeq .resume (.mirror ring)).ring = ring.adopt ∧
      (ring.writeSeq < k →
        (connect cfg.ring.cap s.sys.mem.writeSeq .resume (.mirror ring)).first ≤ k) := by
  obtain ⟨hs, hbound⟩ : s.sys.Inv cfg.ring ∧ s.seq ≤ 2 ^ 63 :=
    hreach.invariant (P := fun s => s.sys.Inv cfg.ring ∧ s.seq ≤ 2 ^ 63)
      (fun h hstep => (Source.step_move hstep).sys_inv h)
      ⟨.create ρ w cfg.ring, (by decide : 1 ≤ 2 ^ 63)⟩
  -- what is retained is never below the oldest sequence the source starts at
  have hold : oldestRetained s.sys.mem.writeSeq cfg.ring.cap.val ≤ k :=
    (oldestRetained_le hk.1).mpr (hk.lt_add hs)
  refine ⟨hold, fun ring hle => ?_⟩
  -- the sequences of the source are far from those with a meaning of their own
  have hlt : ring.writeSeq + 1 < helloOldest := by
    have hseq : s.sys.mem.writeSeq < s.seq := hs.ring.writeSeq
    have hhello : 2 ^ 63 + 1 < helloOldest := by decide
    omega
  have hfits : (RingFile.mirror ring).Fits := by
    rintro _ ⟨⟩
    exact hlt
  have hreset : (connect cfg.ring.cap s.sys.mem.writeSeq .resume (.mirror ring)).reset = false := by
    rw [Bool.eq_false_iff, ne_eq, connect_reset_iff hfits]
    exact Nat.not_lt.mpr hle
  obtain ⟨hring, hresumed⟩ := connect_of_not_reset hreset
  refine ⟨hresumed, hring, fun hbeyond => ?_⟩
  have hpos : 1 ≤ ring.adopt.nextSeq := Nat.succ_pos _
  have hfirst : (connect cfg.ring.cap s.sys.mem.writeSeq .resume (.mirror ring)).first =
      (position s.sys.mem.writeSeq cfg.ring.cap ring.adopt.nextSeq).1 := rfl
  rw [hfirst, position_eq hpos hlt, if_neg (by simp only [MirrorRing.adopt]; omega)]
  exact max_le hbeyond hold

/-- A mirror that has published nothing resumes below the byte that is retained. -/
theorem resume_continues_first : ∃ s : Source Unit 1,
    Transition.Reaches (Source.step twoBytes) (Source.create Unit twoBytes) s ∧
    s.Retains twoBytes 1 ∧
    (connect twoBytes.ring.cap s.sys.mem.writeSeq .resume (.mirror (.create 1))).first ≤ 1 := by
  obtain ⟨s, hs⟩ : ∃ s, Transition.run (Source.step twoBytes) (Source.create Unit twoBytes)
      (pushByteSource 5) = some s := ⟨_, rfl⟩
  have hk : s.Retains twoBytes 1 := by
    cases hs
    exact ⟨le_refl 1, rfl⟩
  have h := resume_continues ⟨_, hs⟩ hk
  exact ⟨s, ⟨_, hs⟩, hk, (h.2 (.create 1) (Nat.zero_le _)).2.2 Nat.zero_lt_one⟩

/-- A mirror that started at the latest byte, behind the first one, resumes: the source still
retains the first byte, the mirror does not hold it, and what is sent starts behind it. -/
theorem resume_leaves_out : ∃ (s : TcpSystem Unit 1) (c : TcpConn 1),
    Transition.Reaches (TcpSystem.step twoBytes 1) (TcpSystem.create Unit twoBytes .absent) s ∧
    s.conn = some c ∧ c.resumed = true ∧ s.source.Retains twoBytes 1 ∧
    (c.mirror.ring.slots (slotIndex twoBytes.ring.cap 1)).seq ≠ 1 ∧ 1 < c.first := by
  obtain ⟨s, hs⟩ : ∃ s, Transition.run (TcpSystem.step twoBytes 1)
      (TcpSystem.create Unit twoBytes .absent)
      (pushByte 5 ++ .connect .latest :: pushByte 6 ++ mirrorByte ++
        [.disconnect, .connect .resume]) = some s := ⟨_, rfl⟩
  obtain ⟨c, hc⟩ : ∃ c, s.conn = some c := by
    cases hs
    exact ⟨_, rfl⟩
  refine ⟨s, c, ⟨_, hs⟩, hc, ?_⟩
  cases hs
  cases hc
  exact ⟨rfl, ⟨le_refl 1, rfl⟩, by decide, by decide⟩

end Ringfire
