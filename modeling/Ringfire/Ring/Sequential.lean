import Ringfire.Ring.Skip
import Ringfire.Ring.System

/-!
# The consumer on a quiescent ring

`next_item` and `recv_status` as functions of a memory nobody writes. The loop of `next_item`
runs on fuel; one turn of it (`RingConsumer.turn`) is shared by everything that talks about the
loop. Against a single-producer ring two turns are always enough, and the results are those of a
plain list of messages.

## Main definitions

* `RingConsumer.turn`: one turn of the loop of `next_item`
* `RingConsumer.recvStatus`: `recv_status`
* `RingConsumer.drain`: `recv_status` until it returns `Empty`

## Main results

* `recvStatus_quiescent`: `recv_status` on a quiescent single-producer ring
* `sequential_spec`: with `drain`, the sequential specification of the ring
-/

namespace Ringfire

variable {w : ℕ} {ω : Type}

/-- What a turn of the loop of `next_item` did. -/
inductive Turn (τ : Type) where
  | item (data : τ)
  | empty
  | skip (n : ℕ)
  deriving DecidableEq

namespace RingConsumer

/-- `skip_overwritten(seen)`. -/
def skipOverwrittenNow (cap : Capacity) (writeSeq : ℕ) (c : RingConsumer w ω) (seen : ℕ) :
    ℕ × RingConsumer w ω :=
  let r := c.toAccount.skipOverwritten cap writeSeq seen
  (r.1, { c with toAccount := r.2 })

/-- `skip_hole`. -/
def skipHole (cap : Capacity) (slots : ℕ → Slot w ω) (writeSeq : ℕ) (c : RingConsumer w ω) :
    ℕ × RingConsumer w ω :=
  let r := c.toAccount.skipHole cap (fun i => (slots i).seq) writeSeq
  (r.1, { c with toAccount := r.2 })

/-- One turn of the loop of `next_item`. -/
def turn (cap : Capacity) (slots : ℕ → Slot w ω) (writeSeq : ℕ) (c : RingConsumer w ω) :
    Turn (Payload w ω) × RingConsumer w ω :=
  match readSlot (slots (slotIndex cap c.cursor)) c.cursor with
  | .item data => (.item data, { c with toAccount := c.toAccount.deliver data })
  | .overwritten seen =>
    if (c.skipOverwrittenNow cap writeSeq seen).1 = 0 then (.empty, c)
    else (.skip (c.skipOverwrittenNow cap writeSeq seen).1,
      (c.skipOverwrittenNow cap writeSeq seen).2)
  | .pending =>
    if c.multiProducer then
      if c.cursor + cap.val ≤ writeSeq then
        (.skip (c.skipOverwrittenNow cap writeSeq 0).1, (c.skipOverwrittenNow cap writeSeq 0).2)
      else (.empty, c)
    else if c.sparse then
      if (c.emptyPolls + 1) % 2 ^ 32 &&& 63 = 0 then
        let r := { c with emptyPolls := (c.emptyPolls + 1) % 2 ^ 32 }.skipHole cap slots writeSeq
        if 0 < r.1 then (.skip r.1, r.2) else (.empty, r.2)
      else (.empty, { c with emptyPolls := (c.emptyPolls + 1) % 2 ^ 32 })
    else (.empty, c)

/-- `next_item`; `none` when the fuel runs out. -/
def nextItem (cap : Capacity) (slots : ℕ → Slot w ω) (writeSeq : ℕ) :
    ℕ → RingConsumer w ω → ℕ → Option (Option (Payload w ω) × ℕ × RingConsumer w ω)
  | 0, _, _ => none
  | fuel + 1, c, skipped =>
    match c.turn cap slots writeSeq with
    | (.item data, c') => some (some data, skipped, c')
    | (.empty, c') => some (none, skipped, c')
    | (.skip n, c') => nextItem cap slots writeSeq fuel c' (skipped + n)

/-- `recv_status`. -/
def recvStatus (cap : Capacity) (slots : ℕ → Slot w ω) (writeSeq fuel : ℕ) (c : RingConsumer w ω) :
    Option (RecvStatus (Payload w ω) × RingConsumer w ω) :=
  match c.nextItem cap slots writeSeq fuel 0 with
  | some (some data, skipped, c') => some (statusOf skipped data, c')
  | some (none, _, c') => some (.empty, c')
  | none => none

/-- Polls with `recv_status` until it returns `Empty`, for at most `rounds` messages. -/
def drain (cap : Capacity) (slots : ℕ → Slot w ω) (writeSeq fuel : ℕ) :
    ℕ → RingConsumer w ω → Option (List (Payload w ω) × RingConsumer w ω)
  | 0, _ => none
  | rounds + 1, c =>
    match c.recvStatus cap slots writeSeq fuel with
    | some (.empty, c') => some ([], c')
    | some (.ok data, c') | some (.lapped _ data, c') =>
      (drain cap slots writeSeq fuel rounds c').map fun (ds, c'') => (data :: ds, c'')
    | none => none

end RingConsumer

/-! ## Reading a quiescent single-producer ring -/

section

variable {cap : Capacity} {m : Shared w ω} {p : RingProducer w ω} {k : ℕ}

/-- No message is being pushed: the slots hold the last `capacity` messages and everything
written is published. -/
structure Quiescent (cap : Capacity) (m : Shared w ω) (p : RingProducer w ω) : Prop where
  ring : Consistent cap m p
  idle : p.pc = .idle
  published : m.writeSeq = p.seq - 1

namespace Quiescent

theorem length_eq (h : Quiescent cap m p) : p.pushed.length = m.writeSeq := by
  obtain ⟨stored, hlen, hpushed⟩ := h.ring.pushed
  have htodo : p.todo = [] := by simp only [RingProducer.todo, h.idle]
  have hpub := h.published
  rw [hpushed, htodo, List.append_nil]
  omega

theorem readSlot_retained (h : Quiescent cap m p) (hk : 1 ≤ k) (hle : k ≤ m.writeSeq)
    (hret : m.writeSeq < k + cap.val) :
    ∃ d, p.message k = some d ∧ readSlot (m.slots (slotIndex cap k)) k = .item d := by
  have hpub := h.published
  have hpos := h.ring.one_le
  obtain ⟨hseq, hmsg⟩ := h.ring.slot_eq hk (by omega) (by omega)
    fun _ => by simp only [RingProducer.writing, h.idle]
  refine ⟨_, hmsg, ?_⟩
  rw [readSlot_eq, if_pos hseq]

theorem readSlot_overwritten (h : Quiescent cap m p) (hk : 1 ≤ k)
    (hret : k + cap.val ≤ m.writeSeq) :
    ∃ seen, seen ≤ m.writeSeq ∧ readSlot (m.slots (slotIndex cap k)) k = .overwritten seen := by
  have hpub := h.published
  have hpos := h.ring.one_le
  have hfits := h.ring.fits
  have hcap := cap.pos
  -- the slot shows the last message that went into it
  obtain ⟨l, hidx, hkl, hln, hnl⟩ := exists_last_of_slot cap (show k ≤ m.writeSeq by omega)
  have hseq := h.ring.retained l (by omega) (by omega) (by omega)
    fun _ => by simp only [RingProducer.writing, h.idle]
  rw [hidx] at hseq
  refine ⟨l, hln, ?_⟩
  rw [readSlot_eq, hseq, if_neg (by omega), if_neg]
  rintro (hm | hlt)
  · unfold slotWriting at hm
    omega
  · omega

theorem readSlot_pending (h : Quiescent cap m p) (hk : m.writeSeq < k) :
    readSlot (m.slots (slotIndex cap k)) k = .pending := by
  have hpub := h.published
  rw [readSlot_eq]
  rcases h.ring.word (slotIndex cap k) with h0 | hm | hh
  · rw [if_neg (by omega), if_pos (.inr (by omega))]
  · exact absurd (by simp only [RingProducer.writing, h.idle]) (h.ring.unmarked _ hm).1
  · have hstored := hh.lt
    rw [if_neg (by omega), if_pos (.inr (by omega))]

end Quiescent

theorem oldestRetained_eq_max (n capacity : ℕ) :
    oldestRetained n capacity = max 1 (n + 1 - capacity) := by
  unfold oldestRetained
  split <;> omega

variable {c : RingConsumer w ω} (fuel : ℕ)

namespace RingConsumer

/-- A single-producer ring without holes: a stale slot is simply not written yet. -/
structure Plain (c : RingConsumer w ω) : Prop where
  single : c.multiProducer = false
  dense : c.sparse = false

theorem nextItem_item {slots : ℕ → Slot w ω} {writeSeq skipped : ℕ} {data : Payload w ω}
    (h : readSlot (slots (slotIndex cap c.cursor)) c.cursor = .item data) :
    c.nextItem cap slots writeSeq (fuel + 1) skipped =
      some (some data, skipped, { c with toAccount := c.toAccount.deliver data }) := by
  simp only [nextItem, turn, h]

theorem recvStatus_retained (h : Quiescent cap m p) (hpos : 1 ≤ c.cursor)
    (hle : c.cursor ≤ m.writeSeq) (hret : m.writeSeq < c.cursor + cap.val) :
    ∃ d, p.message c.cursor = some d ∧ c.recvStatus cap m.slots m.writeSeq (fuel + 1) =
      some (.ok d, { c with toAccount := c.toAccount.deliver d }) := by
  obtain ⟨d, hmsg, hread⟩ := h.readSlot_retained hpos hle hret
  refine ⟨d, hmsg, ?_⟩
  rw [recvStatus, nextItem_item fuel hread]
  rfl

theorem recvStatus_lapped (h : Quiescent cap m p) (hpos : 1 ≤ c.cursor)
    (hret : c.cursor + cap.val ≤ m.writeSeq) :
    ∃ d, p.message (oldestRetained m.writeSeq cap.val) = some d ∧
      c.recvStatus cap m.slots m.writeSeq (fuel + 2) =
        some (.lapped (oldestRetained m.writeSeq cap.val - c.cursor) d,
          { c with toAccount :=
            (c.toAccount.lap (oldestRetained m.writeSeq cap.val)).deliver d }) := by
  have hlt := (lt_oldestRetained hpos).mpr hret
  have hcap := cap.pos
  have holdest : oldestRetained m.writeSeq cap.val + cap.val = m.writeSeq + 1 := by
    unfold oldestRetained
    rw [if_pos (by omega)]
    omega
  obtain ⟨seen, hseen, hread⟩ := h.readSlot_overwritten hpos hret
  -- the second turn finds the oldest retained message in its slot
  obtain ⟨d, hmsg, hread'⟩ := h.readSlot_retained
    (one_le_oldestRetained m.writeSeq cap.val) (by omega) (by omega)
  refine ⟨d, hmsg, ?_⟩
  have hskip : c.skipOverwrittenNow cap m.writeSeq seen =
      (oldestRetained m.writeSeq cap.val - c.cursor,
        { c with toAccount := c.toAccount.lap (oldestRetained m.writeSeq cap.val) }) := by
    rw [skipOverwrittenNow, Account.skipOverwritten, max_eq_left hseen, if_pos hlt]
  have hturn : c.turn cap m.slots m.writeSeq =
      (.skip (oldestRetained m.writeSeq cap.val - c.cursor),
        { c with toAccount := c.toAccount.lap (oldestRetained m.writeSeq cap.val) }) := by
    rw [turn, hread]
    simp only [hskip]
    rw [if_neg (by omega)]
  rw [recvStatus, nextItem, hturn]
  simp only
  rw [nextItem_item fuel hread']
  simp only [statusOf, Nat.zero_add]
  rw [if_pos (by omega)]

theorem recvStatus_empty (h : Quiescent cap m p) (hc : c.Plain) (hlt : m.writeSeq < c.cursor) :
    c.recvStatus cap m.slots m.writeSeq (fuel + 1) = some (.empty, c) := by
  have hturn : c.turn cap m.slots m.writeSeq = (.empty, c) := by
    rw [turn, h.readSlot_pending hlt]
    simp only [hc.single, hc.dense, Bool.false_eq_true, if_false]
  rw [recvStatus, nextItem, hturn]

/-- Draining from a retained position returns the messages from there on. -/
theorem drain_retained (h : Quiescent cap m p) :
    ∀ (rounds : ℕ) {c : RingConsumer w ω}, c.Plain → 1 ≤ c.cursor →
      m.writeSeq < c.cursor + cap.val → m.writeSeq + 1 < rounds + c.cursor → 0 < rounds →
      ∃ c', c.drain cap m.slots m.writeSeq (fuel + 1) rounds =
        some (p.pushed.drop (c.cursor - 1), c') := by
  intro rounds
  induction rounds with
  | zero =>
    intro c _ _ _ _ hpos
    exact absurd hpos (Nat.lt_irrefl 0)
  | succ rounds ih =>
    intro c hc hpos hret hrounds _
    rw [drain]
    rcases Nat.lt_or_ge m.writeSeq c.cursor with hlt | hle
    · refine ⟨c, ?_⟩
      rw [recvStatus_empty fuel h hc hlt, List.drop_of_length_le]
      rw [h.length_eq]
      omega
    · obtain ⟨d, hmsg, hrecv⟩ := recvStatus_retained fuel h hpos hle hret
      -- the rest is drained from the next sequence
      obtain ⟨c', hrest⟩ := ih (c := { c with toAccount := c.toAccount.deliver d })
        ⟨hc.single, hc.dense⟩ (Nat.succ_pos _)
        (show m.writeSeq < c.cursor + 1 + cap.val by omega)
        (show m.writeSeq + 1 < rounds + (c.cursor + 1) by omega) (by omega)
      refine ⟨c', ?_⟩
      obtain ⟨hlt, hget⟩ := List.getElem?_eq_some_iff.mp hmsg
      rw [hrecv]
      simp only [hrest, Option.map_some]
      rw [List.drop_eq_getElem_cons hlt, hget]
      have hcur : c.cursor - 1 + 1 = c.cursor + 1 - 1 := by omega
      rw [hcur]
      rfl

/-- **Draining returns exactly the retained messages from the cursor on, in order.** -/
theorem drain_quiescent (h : Quiescent cap m p) {rounds : ℕ} (hc : c.Plain) (hpos : 1 ≤ c.cursor)
    (hrounds : m.writeSeq + 1 < rounds + c.cursor) (hr : 0 < rounds) :
    ∃ c', c.drain cap m.slots m.writeSeq (fuel + 2) rounds =
      some (p.pushed.drop (max c.cursor (oldestRetained m.writeSeq cap.val) - 1), c') := by
  rcases Nat.lt_or_ge c.cursor (oldestRetained m.writeSeq cap.val) with hlt | hge
  · have hlap := (lt_oldestRetained hpos).mp hlt
    have hcap := cap.pos
    have hfirst := one_le_oldestRetained m.writeSeq cap.val
    have hret := (oldestRetained_le hfirst).mp (le_refl _)
    obtain ⟨left, rfl⟩ : ∃ left, rounds = left + 1 := ⟨rounds - 1, by omega⟩
    obtain ⟨d, hmsg, hrecv⟩ := recvStatus_lapped fuel h hpos hlap
    obtain ⟨hin, hget⟩ := List.getElem?_eq_some_iff.mp hmsg
    -- after the skip the consumer stands just past the oldest retained message
    obtain ⟨c', hrest⟩ := drain_retained (fuel + 1) h left
      (c := { c with toAccount :=
        (c.toAccount.lap (oldestRetained m.writeSeq cap.val)).deliver d })
      ⟨hc.single, hc.dense⟩ (Nat.succ_pos _)
      (show m.writeSeq < oldestRetained m.writeSeq cap.val + 1 + cap.val by omega)
      (show m.writeSeq + 1 < left + (oldestRetained m.writeSeq cap.val + 1) by omega) (by omega)
    refine ⟨c', ?_⟩
    rw [drain, hrecv]
    simp only [hrest, Option.map_some]
    rw [max_eq_right hlt.le, List.drop_eq_getElem_cons hin, hget]
    have hcur : oldestRetained m.writeSeq cap.val - 1 + 1 =
        oldestRetained m.writeSeq cap.val + 1 - 1 := by omega
    rw [hcur]
    rfl
  · rw [max_eq_left hge]
    exact drain_retained (fuel + 1) h rounds hc hpos ((oldestRetained_le hpos).mp hge) hrounds hr

end RingConsumer

end

/-- **The sequential specification of the broadcast ring.** Once no push is in progress, with `n`
messages pushed and `oldest = max 1 (n - capacity + 1)`, a consumer at cursor `c` is told that it
was lapped up to `oldest`, or gets message `c`, or finds the ring empty; draining returns the
messages from `max c oldest` to `n`. -/
theorem sequential_spec {ρ : Type} [DecidableEq ρ] [Inhabited ω] {cfg : Config}
    {s : System ρ w ω}
    (hs : Transition.Reaches (System.step cfg) (System.create ρ w cfg) s)
    (hidle : s.producer.pc = .idle) {c : RingConsumer w ω} (hc : c.Plain) (hpos : 1 ≤ c.cursor)
    {n oldest : ℕ} (hn : s.producer.pushed.length = n)
    (holdest : oldest = max 1 (n + 1 - cfg.cap.val)) {fuel : ℕ} (hfuel : 2 ≤ fuel) :
    (c.cursor < oldest → ∃ d c', s.producer.pushed[oldest - 1]? = some d ∧
      c.recvStatus cfg.cap s.mem.slots s.mem.writeSeq fuel =
        some (.lapped (oldest - c.cursor) d, c') ∧
      c'.cursor = oldest + 1 ∧ c'.lappedTotal = c.lappedTotal + (oldest - c.cursor)) ∧
    (oldest ≤ c.cursor → c.cursor ≤ n → ∃ d c', s.producer.pushed[c.cursor - 1]? = some d ∧
      c.recvStatus cfg.cap s.mem.slots s.mem.writeSeq fuel = some (.ok d, c') ∧
      c'.cursor = c.cursor + 1 ∧ c'.lappedTotal = c.lappedTotal) ∧
    (n < c.cursor →
      c.recvStatus cfg.cap s.mem.slots s.mem.writeSeq fuel = some (.empty, c)) ∧
    (∀ rounds, n + 1 < rounds + c.cursor → 0 < rounds → ∃ c',
      c.drain cfg.cap s.mem.slots s.mem.writeSeq fuel rounds =
        some (s.producer.pushed.drop (max c.cursor oldest - 1), c')) := by
  have hinv := System.Inv.reaches hs
  -- the last call has published, so `write_seq` counts the messages
  have hq : Quiescent cfg.cap s.mem s.producer :=
    ⟨hinv.ring, hidle, hinv.published (by simp only [RingProducer.settled, hidle])⟩
  have hws : s.mem.writeSeq = n := by rw [← hn, hq.length_eq]
  have hold : oldestRetained n cfg.cap.val = oldest := by rw [oldestRetained_eq_max, holdest]
  obtain ⟨fuel, rfl⟩ : ∃ k, fuel = k + 2 := ⟨fuel - 2, by omega⟩
  refine ⟨fun hlt => ?_, fun hge hle => ?_, fun hlt => ?_, fun rounds hrounds hr => ?_⟩
  · rw [← hold, lt_oldestRetained hpos, ← hws] at hlt
    obtain ⟨d, hmsg, hrecv⟩ := RingConsumer.recvStatus_lapped fuel hq hpos hlt
    rw [hws, hold] at hmsg hrecv
    exact ⟨d, _, hmsg, by rw [hws]; exact hrecv, rfl, rfl⟩
  · rw [← hold, oldestRetained_le hpos, ← hws] at hge
    obtain ⟨d, hmsg, hrecv⟩ :=
      RingConsumer.recvStatus_retained (fuel + 1) hq hpos (hws ▸ hle) hge
    exact ⟨d, _, hmsg, hrecv, rfl, rfl⟩
  · exact RingConsumer.recvStatus_empty (fuel + 1) hq hc (hws ▸ hlt)
  · rw [← hws] at hrounds
    obtain ⟨c', hdrain⟩ := RingConsumer.drain_quiescent fuel hq hc hpos hrounds hr
    rw [hws, hold] at hdrain
    exact ⟨c', by rw [hws]; exact hdrain⟩

/-- Two messages pushed through a one-slot ring, read from the start. -/
theorem sequential_spec_lapped :
    ∃ (s : System Unit 1 ℕ) (c c' : RingConsumer 1 ℕ) (d : Payload 1 ℕ),
      Transition.Reaches (System.step System.oneSlot) (System.create Unit 1 System.oneSlot) s ∧
      s.producer.pushed.length = 2 ∧ c.cursor = 1 ∧
      c.recvStatus System.oneSlot.cap s.mem.slots s.mem.writeSeq 2 = some (.lapped 1 d, c') ∧
      d 0 = 8 := by
  obtain ⟨s, hs⟩ : ∃ s : System Unit 1 ℕ, Transition.run (System.step System.oneSlot)
      (System.create Unit 1 System.oneSlot)
      [.producer (.call (.pushBatch [fun _ => 7, fun _ => 8])), .producer .tick, .producer .tick,
        .producer (.word 0), .producer .tick, .producer .tick, .producer .tick,
        .producer (.word 0), .producer .tick, .producer .tick, .producer .tick] = some s :=
    ⟨_, rfl⟩
  have hidle : s.producer.pc = .idle := by
    cases hs
    rfl
  have hlen : s.producer.pushed.length = 2 := by
    cases hs
    rfl
  obtain ⟨d, c', hd, hrecv, -, -⟩ := (sequential_spec ⟨_, hs⟩ hidle
    (c := RingConsumer.attach false false false 1 0) ⟨rfl, rfl⟩ (le_refl 1) hlen rfl
    (le_refl 2)).1 (by decide)
  refine ⟨s, _, c', d, ⟨_, hs⟩, hlen, rfl, hrecv, ?_⟩
  cases hs
  cases hd
  rfl

end Ringfire
