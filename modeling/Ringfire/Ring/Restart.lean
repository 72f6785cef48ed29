import Ringfire.Ring.Checkpoint
import Ringfire.Ring.Sequential

/-!
# A checkpoint and a later ring

The offset file of a consumer outlives the ring it was committed for: a producer that starts again
creates a new ring at the same path, and numbers its messages from `1`. `attach_with_options` moves
a checkpoint forward that lies in front of the oldest message left; one that lies behind the newest
message is taken as it is.

## Main definitions

* `Account.InReach`: the consumer is not ahead of the messages, and gets the next one

## Main results

* `attach_inReach_iff`: when a consumer that attaches is in reach
-/

namespace Ringfire

variable {w : ℕ} {ω : Type}

/-- The consumer stands at most one message behind the newest one, and draining a ring without
holes, once one more message is pushed, ends with that message. -/
structure Account.InReach (cap : Capacity) (writeSeq : ℕ) (a : Account (Payload w ω)) : Prop where
  cursor : a.cursor ≤ writeSeq + 1
  next : ∀ (m : Shared w ω) (p : RingProducer w ω) (c : RingConsumer w ω) (fuel rounds : ℕ),
    Quiescent cap m p → m.writeSeq = writeSeq + 1 → c.Plain → c.toAccount = a → 2 ≤ fuel →
    writeSeq + 2 < rounds →
    ∃ d ds c', p.message (writeSeq + 1) = some d ∧
      c.drain cap m.slots m.writeSeq fuel rounds = some (ds ++ [d], c')

/-- The sequence that was stored is not behind the newest message, and where none was, neither is
the sequence the start mode names. -/
structure OffsetCheckpoint.Within (cp : OffsetCheckpoint) (mode : ConsumerStartMode)
    (writeSeq : ℕ) : Prop where
  saved : cp.slot.offsetSeq ≤ writeSeq
  mode : cp.slot.offsetSeq = 0 → ∀ seq, mode = .sequence seq → seq ≤ writeSeq + 1

theorem oldestRetained_le_succ (cap : Capacity) (writeSeq : ℕ) :
    oldestRetained writeSeq cap.val ≤ writeSeq + 1 := by
  have hpos := cap.pos
  unfold oldestRetained
  split_ifs <;> omega

/-! ## The next message -/

/-- A consumer that is not ahead gets the newest message last. -/
theorem RingConsumer.drain_newest {cap : Capacity} {m : Shared w ω} {p : RingProducer w ω}
    {c : RingConsumer w ω} {n fuel rounds : ℕ} (h : Quiescent cap m p) (hn : m.writeSeq = n + 1)
    (hc : c.Plain) (hpos : 1 ≤ c.cursor) (hle : c.cursor ≤ n + 1) (hfuel : 2 ≤ fuel)
    (hrounds : n + 2 < rounds) :
    ∃ d ds c', p.message (n + 1) = some d ∧
      c.drain cap m.slots m.writeSeq fuel rounds = some (ds ++ [d], c') := by
  obtain ⟨fuel, rfl⟩ : ∃ k, fuel = k + 2 := ⟨fuel - 2, by omega⟩
  obtain ⟨c', hdrain⟩ := drain_quiescent fuel h hc hpos
    (show m.writeSeq + 1 < rounds + c.cursor by omega) (by omega)
  have hlen := h.length_eq
  have holdest := oldestRetained_le_succ cap n
  have hcap := cap.pos
  have hfirst : max c.cursor (oldestRetained m.writeSeq cap.val) ≤ n + 1 := by
    rw [hn, oldestRetained_eq_max]
    omega
  have hlast : n < p.pushed.length := by omega
  have hsplit : p.pushed = p.pushed.take n ++ [p.pushed[n]] := by
    rw [List.take_append_getElem, List.take_of_length_le (by omega)]
  refine ⟨p.pushed[n], (p.pushed.take n).drop
    (max c.cursor (oldestRetained m.writeSeq cap.val) - 1), c', ?_, ?_⟩
  · exact List.getElem?_eq_getElem hlast
  · rw [hdrain]
    nth_rewrite 1 [hsplit]
    rw [List.drop_append_of_le_length]
    rw [List.length_take]
    omega

/-- A consumer that is ahead gets nothing. -/
theorem RingConsumer.drain_ahead {cap : Capacity} {m : Shared w ω} {p : RingProducer w ω}
    {c : RingConsumer w ω} (fuel rounds : ℕ) (h : Quiescent cap m p) (hc : c.Plain)
    (hlt : m.writeSeq < c.cursor) :
    c.drain cap m.slots m.writeSeq (fuel + 1) (rounds + 1) = some ([], c) := by
  rw [drain, recvStatus_empty fuel h hc hlt]

/-- What is in reach is a matter of the cursor. -/
theorem Account.inReach_iff {cap : Capacity} {writeSeq : ℕ} {a : Account (Payload w ω)}
    (hpos : 1 ≤ a.cursor) : a.InReach cap writeSeq ↔ a.cursor ≤ writeSeq + 1 := by
  constructor
  · exact fun h => h.cursor
  · intro hle
    refine ⟨hle, ?_⟩
    rintro m p c fuel rounds hq hn hc rfl hfuel hrounds
    exact RingConsumer.drain_newest hq hn hc hpos hle hfuel hrounds

/-! ## Where a consumer attaches -/

/-- Where a start position leads, once the last look at `write_seq` has moved the consumer on. -/
theorem resolveStart_le_iff {cap : Capacity} {writeSeq later : ℕ} (h : writeSeq ≤ later)
    (pos : StartPosition) :
    (resolveStart cap writeSeq pos).1 ≤ later + 1 ↔
      match pos with
      | .sequence seq => seq ≤ later + 1
      | .checkpoint saved => saved ≤ later
      | _ => True := by
  have holdest := oldestRetained_le_succ cap writeSeq
  cases pos with
  | latest =>
    simp only [resolveStart, iff_true]
    omega
  | head =>
    simp only [resolveStart, iff_true]
    omega
  | oldest =>
    simp only [resolveStart, iff_true]
    omega
  | sequence seq =>
    simp only [resolveStart]
    split_ifs <;> omega
  | checkpoint saved =>
    simp only [resolveStart]
    split_ifs <;> omega

theorem startPosition_le_iff {cap : Capacity} {writeSeq later : ℕ} (h : writeSeq ≤ later)
    (mode : ConsumerStartMode) (cp : OffsetCheckpoint) :
    (resolveStart cap writeSeq (startPosition mode cp)).1 ≤ later + 1 ↔ cp.Within mode later := by
  rw [resolveStart_le_iff h]
  rcases Nat.eq_zero_or_pos cp.slot.offsetSeq with hzero | hpos
  · have hload : startPosition mode cp = mode.position := by
      rw [startPosition, OffsetCheckpoint.load, if_pos hzero]
    rw [hload]
    cases mode with
    | latest | head | oldest =>
      simp only [ConsumerStartMode.position, true_iff]
      exact ⟨by omega, by rintro _ _ ⟨⟩⟩
    | sequence seq =>
      simp only [ConsumerStartMode.position]
      constructor
      · intro hle
        refine ⟨by omega, ?_⟩
        rintro _ _ ⟨⟩
        exact hle
      · exact fun hw => hw.mode hzero seq rfl
  · have hload : startPosition mode cp = .checkpoint cp.slot.offsetSeq := by
      rw [startPosition, OffsetCheckpoint.load, if_neg (by omega)]
    rw [hload]
    constructor
    · exact fun hle => ⟨hle, fun h0 => absurd h0 (by omega)⟩
    · exact fun hw => hw.saved

/-- **A consumer that attaches with an offset file is in reach of the next message exactly when the
sequence that was stored is.** `write_seq` was loaded, and loaded again behind the registration;
whatever ring the sequence was committed for, it is compared with the one at the path now. -/
theorem attach_inReach_iff {cap : Capacity} {writeSeq : ℕ} {mode : ConsumerStartMode}
    {file : OffsetFile} {reg : Registration} {cp : OffsetCheckpoint} {a : Account (Payload w ω)}
    (hgrows : writeSeq ≤ reg.writeSeq writeSeq)
    (hattach : attachWithOptions cap writeSeq mode (some file) reg = .ok (some cp, a)) :
    a.InReach cap (reg.writeSeq writeSeq) ↔ cp.Within mode (reg.writeSeq writeSeq) := by
  have hreg : reg ≠ .refused := by
    rintro rfl
    simp only [attachWithOptions, register] at hattach
    split at hattach <;> cases hattach
  simp only [attachWithOptions] at hattach
  split at hattach
  · next cp' hopen =>
    have hstart := oldestRetained_le_resolveStart cap writeSeq (startPosition mode cp')
    obtain ⟨a', ha', hcursor, -⟩ := register_start (τ := Payload w ω)
      (resolveStart cap writeSeq (startPosition mode cp')).2 hreg hstart
    rw [ha'] at hattach
    cases hattach
    have hpos := one_le_resolveStart cap writeSeq (startPosition mode cp)
    have holdest := oldestRetained_le_succ cap (reg.writeSeq writeSeq)
    rw [Account.inReach_iff (by omega), hcursor, ← @startPosition_le_iff cap _ _ hgrows]
    omega
  · cases hattach

/-- Five messages were processed, and the ring at the path holds five or more. -/
theorem attach_inReach_seventh :
    ∃ a : Account (Payload 1 ℕ), attachWithOptions System.oneSlot.cap 7 .latest
        (some (.full (newOffset.save 5).slot)) .without = .ok (some (newOffset.save 5), a) ∧
      (a.InReach System.oneSlot.cap 7 ↔ (newOffset.save 5).Within .latest 7) := by
  have hattach : attachWithOptions (τ := Payload 1 ℕ) System.oneSlot.cap 7 .latest
      (some (.full (newOffset.save 5).slot)) .without =
        .ok (some (newOffset.save 5), .start (7, 1)) := rfl
  exact ⟨_, hattach, attach_inReach_iff (Nat.le_refl 7) hattach⟩

/-- **A ring that starts again.** A consumer committed behind message `5`; the producer is started
again, and the ring at the path is empty when the consumer comes back. It waits for message `6`, and
the next message pushed finds it waiting. -/
theorem restart_strands :
    ∃ (cp : OffsetCheckpoint) (a : Account (Payload 1 ℕ)) (s : System Unit 1 ℕ),
      commitOffset (some newOffset) false 6 = .ok (cp, none) ∧
      attachWithOptions System.oneSlot.cap 0 .latest (some (.full cp.slot)) .without =
        .ok (some cp, a) ∧
      a.cursor = 6 ∧ ¬ a.InReach System.oneSlot.cap 0 ∧
      Transition.Reaches (System.step System.oneSlot) (System.create Unit 1 System.oneSlot) s ∧
      s.mem.writeSeq = 1 ∧
      (RingConsumer.attach false false false a.cursor a.lappedTotal).drain System.oneSlot.cap
        s.mem.slots s.mem.writeSeq 2 3 =
        some ([], RingConsumer.attach false false false a.cursor a.lappedTotal) := by
  obtain ⟨s, hs⟩ : ∃ s : System Unit 1 ℕ, Transition.run (System.step System.oneSlot)
      (System.create Unit 1 System.oneSlot)
      [.producer (.call (.push fun _ => 7)), .producer .tick, .producer .tick,
        .producer (.word 0), .producer .tick, .producer .tick, .producer .tick] = some s :=
    ⟨_, rfl⟩
  refine ⟨newOffset.save 5, _, s, rfl, rfl, rfl, ?_, ⟨_, hs⟩, ?_, ?_⟩
  · intro h
    exact absurd h.cursor (by decide)
  · cases hs
    rfl
  · cases hs
    rfl

end Ringfire
