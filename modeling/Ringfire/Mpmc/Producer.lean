import Ringfire.Ring.Slot

/-!
# Several producers

`MpmcProducer::push` of `mpmc.rs`, cut into its memory accesses: claim a ticket, wait for the slot
to show the previous lap, own the slot by compare-and-swap, store the payload words, store the
ticket, raise `write_seq`. A producer that finds a later lap drops its message; past the deadline
it takes over a slot left at an older lap, and drops its message if the slot is still being
written. The clock is not modelled: the label of a step says whether the deadline has passed.

## Main definitions

* `MpmcPc.step`: one memory access of `push`

## Main results

* `MpmcPc.step_effect`: what one access does to the slots and to the tickets
-/

namespace Ringfire

variable {w : ℕ} {ω : Type}

/-- The memory of the ring, and what was written so far: the message of each claimed ticket, the
tickets stored in their slots, and the last one stored in each slot. -/
structure MpmcShared (w : ℕ) (ω : Type) where
  slots : ℕ → Slot w ω
  writeSeq : ℕ
  claimSeq : ℕ
  items : ℕ → Option (Payload w ω)
  stored : List ℕ
  top : ℕ → ℕ

/-- A freshly created ring. -/
def MpmcShared.create (data : Payload w ω) : MpmcShared w ω :=
  ⟨fun _ => ⟨0, data⟩, 0, 1, fun _ => none, [], fun _ => 0⟩

/-- Where a thread inside `push` stands. -/
inductive MpmcPc (w : ℕ) (ω : Type) where
  | idle
  | load (seq : ℕ) (item : Payload w ω) (stalled : Bool)
  | cas (seq : ℕ) (item : Payload w ω) (stalled : Bool) (cur : ℕ)
  | copy (seq : ℕ) (item : Payload w ω) (left : Finset (Fin w))
  | publish (seq : ℕ)

/-- A step of a producer: the start of `push`, a payload word, or whatever comes next, with the
deadline passed or not. -/
inductive MpmcLabel (w : ℕ) (ω : Type) where
  | push (item : Payload w ω)
  | word (i : Fin w)
  | tick (expired : Bool)

namespace MpmcPc

/-- One more turn of the wait loop after `cur` was seen in the slot. -/
def spin (seq : ℕ) (item : Payload w ω) (stalled : Bool) (cur : ℕ) (expired : Bool) : MpmcPc w ω :=
  if expired then
    -- past the deadline a slot mid-write is given up, an older lap may be taken over
    if cur = slotWriting then .idle else .load seq item true
  else .load seq item stalled

/-- One memory access of `push`. -/
def step (cap : Capacity) (m : MpmcShared w ω) :
    MpmcPc w ω → MpmcLabel w ω → Option (MpmcShared w ω × MpmcPc w ω)
  | .idle, .push item =>
    -- `claim_seq.fetch_add`: the ticket belongs to this message from here on
    if m.claimSeq + 1 ≤ u64Max then
      some ({ m with
        claimSeq := m.claimSeq + 1
        items := Function.update m.items m.claimSeq (some item) }, .load m.claimSeq item false)
    else none
  | .load seq item stalled, .tick expired =>
    -- a later lap already owns the slot: the message is dropped
    if (m.slots (slotIndex cap seq)).seq ≠ slotWriting ∧ seq < (m.slots (slotIndex cap seq)).seq then
      some (m, .idle)
    else if (m.slots (slotIndex cap seq)).seq = seq - cap.val ∨
        (stalled ∧ (m.slots (slotIndex cap seq)).seq ≠ slotWriting) then
      some (m, .cas seq item stalled (m.slots (slotIndex cap seq)).seq)
    else some (m, spin seq item stalled (m.slots (slotIndex cap seq)).seq expired)
  -- only the winner of the compare and swap writes, so payloads never interleave
  | .cas seq item stalled cur, .tick expired =>
    if (m.slots (slotIndex cap seq)).seq = cur then
      some ({ m with slots := storeSeq m.slots (slotIndex cap seq) slotWriting },
        .copy seq item Finset.univ)
    else some (m, spin seq item stalled cur expired)
  | .copy seq item left, .word i =>
    if i ∈ left then
      some ({ m with slots := storeWord m.slots (slotIndex cap seq) i (item i) },
        .copy seq item (left.erase i))
    else none
  | .copy seq _ left, .tick _ =>
    if left = ∅ then
      some ({ m with
        slots := storeSeq m.slots (slotIndex cap seq) seq
        stored := m.stored ++ [seq]
        top := Function.update m.top (slotIndex cap seq) seq }, .publish seq)
    else none
  -- `write_seq.fetch_max`: producers publish in any order
  | .publish seq, .tick _ => some ({ m with writeSeq := max m.writeSeq seq }, .idle)
  | _, _ => none

/-- The ticket of a message that is not stored yet. -/
def ticket : MpmcPc w ω → Option ℕ
  | .load seq _ _ | .cas seq _ _ _ | .copy seq _ _ => some seq
  | _ => none

/-- The slot a producer owns. -/
def owns (cap : Capacity) : MpmcPc w ω → Option ℕ
  | .copy seq _ _ => some (slotIndex cap seq)
  | _ => none

/-- The effects a producer's step can have. -/
inductive Effect (cap : Capacity) (m : MpmcShared w ω) :
    MpmcPc w ω → MpmcShared w ω → MpmcPc w ω → Prop where
  | claim (item : Payload w ω) (fits : m.claimSeq + 1 ≤ u64Max) :
      Effect cap m .idle { m with
        claimSeq := m.claimSeq + 1
        items := Function.update m.items m.claimSeq (some item) } (.load m.claimSeq item false)
  | drop (pc : MpmcPc w ω) (waiting : pc.owns cap = none) : Effect cap m pc m .idle
  | wait (seq : ℕ) (item : Payload w ω) (stalled stalled' : Bool) :
      Effect cap m (.load seq item stalled) m (.load seq item stalled')
  | see (seq : ℕ) (item : Payload w ω) (stalled : Bool) (cur : ℕ)
      (seen : (m.slots (slotIndex cap seq)).seq = cur)
      (old : cur = seq - cap.val ∨ (cur ≠ slotWriting ∧ cur ≤ seq)) :
      Effect cap m (.load seq item stalled) m (.cas seq item stalled cur)
  | miss (seq : ℕ) (item : Payload w ω) (stalled stalled' : Bool) (cur : ℕ) :
      Effect cap m (.cas seq item stalled cur) m (.load seq item stalled')
  | own (seq : ℕ) (item : Payload w ω) (stalled : Bool)
      (cur : ℕ) (seen : (m.slots (slotIndex cap seq)).seq = cur) :
      Effect cap m (.cas seq item stalled cur)
        { m with slots := storeSeq m.slots (slotIndex cap seq) slotWriting }
        (.copy seq item Finset.univ)
  | word (seq : ℕ) (item : Payload w ω) (left : Finset (Fin w)) (i : Fin w) (mem : i ∈ left) :
      Effect cap m (.copy seq item left)
        { m with slots := storeWord m.slots (slotIndex cap seq) i (item i) }
        (.copy seq item (left.erase i))
  | commit (seq : ℕ) (item : Payload w ω) :
      Effect cap m (.copy seq item ∅)
        { m with
          slots := storeSeq m.slots (slotIndex cap seq) seq
          stored := m.stored ++ [seq]
          top := Function.update m.top (slotIndex cap seq) seq } (.publish seq)
  | publish (seq : ℕ) : Effect cap m (.publish seq) { m with writeSeq := max m.writeSeq seq } .idle

/-- What one access does to the slots and to the tickets. -/
theorem step_effect {cap : Capacity} {m m' : MpmcShared w ω} {pc pc' : MpmcPc w ω}
    {a : MpmcLabel w ω} (h : pc.step cap m a = some (m', pc')) : Effect cap m pc m' pc' := by
  unfold step at h
  split at h
  case h_1 item =>
    split_ifs at h with hfits
    cases h
    exact .claim item hfits
  -- the wait for the slot: drop, try to own it, or go round again
  case h_2 seq item stalled expired =>
    split_ifs at h with hlate hold <;> cases h
    · exact .drop _ rfl
    · refine .see seq item stalled _ rfl (hold.imp_right fun hs => ⟨hs.2, ?_⟩)
      exact Nat.not_lt.mp fun hlt => hlate ⟨hs.2, hlt⟩
    · unfold spin
      split_ifs
      · exact .drop _ rfl
      · exact .wait seq item stalled true
      · exact .wait seq item stalled stalled
  case h_3 seq item stalled cur expired =>
    split_ifs at h with hcur <;> cases h
    · exact .own seq item stalled cur hcur
    · unfold spin
      split_ifs
      · exact .drop _ rfl
      · exact .miss seq item stalled true cur
      · exact .miss seq item stalled stalled cur
  -- the owner writes, stores the sequence and publishes
  case h_4 seq item left i =>
    split_ifs at h with hi
    cases h
    exact .word seq item left i hi
  case h_5 seq item left _ =>
    split_ifs at h with hl
    cases h
    subst hl
    exact .commit seq item
  case h_6 seq _ =>
    cases h
    exact .publish seq
  case h_7 => cases h

end MpmcPc

end Ringfire
