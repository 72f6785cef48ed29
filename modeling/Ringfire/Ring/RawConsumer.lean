import Ringfire.Foundation.Checked
import Ringfire.Foundation.Turns
import Ringfire.Ring.Sequential

/-!
# The reader of the C interface

`RingConsumerRaw` of `ffi.rs` has a receive loop of its own. It differs from `next_item` in one
branch: on a ring with several producers a slot can stay unpublished, and once the writers are a
full ring ahead `next_item` skips it; `next_into` waits for it. Both loops run here on a memory
that nobody writes, with the additions of 64-bit numbers as a build computes them. The lapped
counts are natural numbers.

## Main definitions

* `RingConsumer.loopTurn`: one turn of `next_item`
* `RingConsumerRaw.turn`: one turn of `next_into`
* `Agree`: the two readers do the same
* `NoStall`: the branch is not taken

## Main results

* `agree_iff`: when the two readers do the same
-/

namespace Ringfire

open Turns

variable {w : ℕ} {ω : Type}

/-- How a build adds 64-bit numbers: with a check that panics, or modulo `2 ^ 64`. -/
inductive Build where
  | checks
  | wraps

/-- The sum, unless the check fails. -/
def Build.add : Build → ℕ → ℕ → Option ℕ
  | .checks, a, b => Checked.add a b
  | .wraps, a, b => some ((a + b) % 2 ^ 64)

theorem Build.add_of_lt {build : Build} {a b : ℕ} (h : a + b < 2 ^ 64) :
    build.add a b = some (a + b) := by
  cases build with
  | checks => exact if_pos h
  | wraps => exact congrArg some (Nat.mod_eq_of_lt h)

/-- How a receive call ends. -/
inductive Outcome (τ σ : Type) where
  | panicked
  | returned (item : Option τ) (reader : σ)

/-- `RingConsumerRaw`: a reader of the C interface. -/
structure RingConsumerRaw where
  cursor : ℕ
  lappedTotal : ℕ

namespace RingConsumerRaw

/-- `skip_overwritten(seen)`: whether it moved the cursor. -/
def skipOverwritten (cap : Capacity) (writeSeq : ℕ) (c : RingConsumerRaw) (seen : ℕ) :
    Bool × RingConsumerRaw :=
  let oldest := oldestRetained (max writeSeq seen) cap.val
  if c.cursor < oldest then (true, ⟨oldest, c.lappedTotal + (oldest - c.cursor)⟩) else (false, c)

/-- One turn of the loop of `next_into`. Nobody writes, so the second load of the slot word shows
what the first one showed. -/
def turn (build : Build) (cap : Capacity) (slots : ℕ → Slot w ω) (writeSeq : ℕ)
    (c : RingConsumerRaw) : Step (Outcome (Payload w ω) RingConsumerRaw) RingConsumerRaw :=
  let slot := slots (slotIndex cap c.cursor)
  if slot.seq = c.cursor then
    match build.add c.cursor 1 with
    | some next => .stop (.returned (some slot.data) { c with cursor := next })
    | none => .stop .panicked
  else if slot.seq = slotWriting ∨ slot.seq < c.cursor then .stop (.returned none c)
  else if (c.skipOverwritten cap writeSeq slot.seq).1 then
    .next (c.skipOverwritten cap writeSeq slot.seq).2
  else .stop (.returned none c)

end RingConsumerRaw

namespace RingConsumer

/-- What a turn of the loop means for the loop. -/
def ofTurn : Turn (Payload w ω) × RingConsumer w ω →
    Step (Outcome (Payload w ω) (RingConsumer w ω)) (RingConsumer w ω)
  | (.item data, c) => .stop (.returned (some data) c)
  | (.empty, c) => .stop (.returned none c)
  | (.skip _, c) => .next c

/-- One turn of the loop of `next_item`, with the two additions that can overflow. -/
def loopTurn (build : Build) (cap : Capacity) (slots : ℕ → Slot w ω) (writeSeq : ℕ)
    (c : RingConsumer w ω) :
    Step (Outcome (Payload w ω) (RingConsumer w ω)) (RingConsumer w ω) :=
  match readSlot (slots (slotIndex cap c.cursor)) c.cursor with
  | .item data =>
    match build.add c.cursor 1 with
    | some next =>
      .stop (.returned (some data)
        { c with toAccount := { c.toAccount.deliver data with cursor := next } })
    | none => .stop .panicked
  | .overwritten _ => ofTurn (c.turn cap slots writeSeq)
  | .pending =>
    if c.multiProducer then
      match build.add c.cursor cap.val with
      | some ahead =>
        if ahead ≤ writeSeq then .next (c.skipOverwrittenNow cap writeSeq 0).2
        else .stop (.returned none c)
      | none => .stop .panicked
    else ofTurn (c.turn cap slots writeSeq)

/-- Where no addition overflows, the turn is the one of `next_item` on natural numbers. -/
theorem loopTurn_eq {build : Build} {cap : Capacity} {slots : ℕ → Slot w ω} {writeSeq : ℕ}
    {c : RingConsumer w ω} (hone : build.add c.cursor 1 = some (c.cursor + 1))
    (hcap : build.add c.cursor cap.val = some (c.cursor + cap.val)) :
    c.loopTurn build cap slots writeSeq = ofTurn (c.turn cap slots writeSeq) := by
  unfold loopTurn turn
  cases readSlot (slots (slotIndex cap c.cursor)) c.cursor with
  | item data =>
    rw [hone]
    rfl
  | overwritten seen => rfl
  | pending =>
    simp only [hcap]
    split_ifs <;> rfl

/-- The slot of sequence `s` is not published, and the writers are a full ring ahead of it, or the
addition that would tell overflows. -/
def Stalls (build : Build) (cap : Capacity) (slots : ℕ → Slot w ω) (writeSeq : ℕ)
    (c : RingConsumer w ω) (s : ℕ) : Prop :=
  c.multiProducer = true ∧ readSlot (slots (slotIndex cap s)) s = .pending ∧
    ∀ ahead, build.add s cap.val = some ahead → ahead ≤ writeSeq

/-- The branch of a stalled slot is not taken: neither where the reader stands, nor where it gets
to from a slot that was overwritten. -/
structure NoStall (build : Build) (cap : Capacity) (slots : ℕ → Slot w ω) (writeSeq : ℕ)
    (c : RingConsumer w ω) : Prop where
  here : ¬ c.Stalls build cap slots writeSeq c.cursor
  skipped : ∀ seen, readSlot (slots (slotIndex cap c.cursor)) c.cursor = .overwritten seen →
    c.cursor < oldestRetained (max writeSeq seen) cap.val →
    ¬ c.Stalls build cap slots writeSeq (oldestRetained (max writeSeq seen) cap.val)

end RingConsumer

/-- The two outcomes are the same: the same message or none, the same cursor, and the lapped counts
grew by the same number. -/
def Outcome.Same {τ : Type} (c₀ : RingConsumer w ω) (r₀ : RingConsumerRaw) :
    Outcome τ (RingConsumer w ω) → Outcome τ RingConsumerRaw → Prop
  | .panicked, .panicked => True
  | .returned item c, .returned item' r =>
    item = item' ∧ c.cursor = r.cursor ∧
      ∃ n, c.lappedTotal = c₀.lappedTotal + n ∧ r.lappedTotal = r₀.lappedTotal + n
  | _, _ => False

/-- **The two readers do the same**: both loops end, with the same outcome. -/
def Agree (build : Build) (cap : Capacity) (slots : ℕ → Slot w ω) (writeSeq : ℕ)
    (c : RingConsumer w ω) (r : RingConsumerRaw) : Prop :=
  ∃ o o', Ends (RingConsumer.loopTurn build cap slots writeSeq) c o ∧
    Ends (RingConsumerRaw.turn build cap slots writeSeq) r o' ∧ o.Same c r o'

section

variable {build : Build} {cap : Capacity} {slots : ℕ → Slot w ω} {writeSeq seen : ℕ}
  {c c' : RingConsumer w ω} {r : RingConsumerRaw}

/-! ## The turns of the two readers -/

/-- The C reader decides as `read_slot` does. -/
theorem RingConsumerRaw.turn_eq :
    r.turn build cap slots writeSeq =
      match readSlot (slots (slotIndex cap r.cursor)) r.cursor with
      | .item data =>
        match build.add r.cursor 1 with
        | some next => .stop (.returned (some data) { r with cursor := next })
        | none => .stop .panicked
      | .pending => .stop (.returned none r)
      | .overwritten seen =>
        if r.cursor < oldestRetained (max writeSeq seen) cap.val then
          .next ⟨oldestRetained (max writeSeq seen) cap.val,
            r.lappedTotal + (oldestRetained (max writeSeq seen) cap.val - r.cursor)⟩
        else .stop (.returned none r) := by
  rw [turn, readSlot_eq]
  by_cases hitem : (slots (slotIndex cap r.cursor)).seq = r.cursor
  · simp only [if_pos hitem]
  by_cases hpending : (slots (slotIndex cap r.cursor)).seq = slotWriting ∨
      (slots (slotIndex cap r.cursor)).seq < r.cursor
  · simp only [if_neg hitem, if_pos hpending]
  simp only [if_neg hitem, if_neg hpending]
  by_cases hlt : r.cursor <
      oldestRetained (max writeSeq (slots (slotIndex cap r.cursor)).seq) cap.val
  · simp only [skipOverwritten, if_pos hlt, if_true]
  · simp only [skipOverwritten, if_neg hlt, Bool.false_eq_true, if_false]

namespace RingConsumer

theorem skipOverwrittenNow_of_lt
    (h : c.cursor < oldestRetained (max writeSeq seen) cap.val) :
    c.skipOverwrittenNow cap writeSeq seen =
      (oldestRetained (max writeSeq seen) cap.val - c.cursor,
        { c with toAccount := c.toAccount.lap (oldestRetained (max writeSeq seen) cap.val) }) := by
  rw [skipOverwrittenNow, Account.skipOverwritten, if_pos h]

theorem skipOverwrittenNow_of_not_lt
    (h : ¬ c.cursor < oldestRetained (max writeSeq seen) cap.val) :
    c.skipOverwrittenNow cap writeSeq seen = (0, c) := by
  rw [skipOverwrittenNow, Account.skipOverwritten, if_neg h]

/-- The message was overwritten. -/
theorem loopTurn_overwritten
    (hread : readSlot (slots (slotIndex cap c.cursor)) c.cursor = .overwritten seen) :
    c.loopTurn build cap slots writeSeq =
      if c.cursor < oldestRetained (max writeSeq seen) cap.val then
        .next { c with
          toAccount := c.toAccount.lap (oldestRetained (max writeSeq seen) cap.val) }
      else .stop (.returned none c) := by
  rw [loopTurn, hread]
  simp only [turn, hread]
  split_ifs with hzero hlt hlt
  · rw [skipOverwrittenNow_of_lt hlt] at hzero
    simp only at hzero
    omega
  · rfl
  · rw [skipOverwrittenNow_of_lt hlt]
    rfl
  · rw [skipOverwrittenNow_of_not_lt hlt] at hzero
    exact absurd rfl hzero

/-- The slot is not published, and not stalled either. -/
theorem loopTurn_pending (hsparse : c.sparse = false)
    (hread : readSlot (slots (slotIndex cap c.cursor)) c.cursor = .pending)
    (hstall : ¬ c.Stalls build cap slots writeSeq c.cursor) :
    c.loopTurn build cap slots writeSeq = .stop (.returned none c) := by
  rw [loopTurn, hread]
  simp only [turn, hread]
  cases hmulti : c.multiProducer with
  | false =>
    simp only [hsparse, Bool.false_eq_true, if_false]
    rfl
  | true =>
    simp only [if_true]
    -- the addition succeeds, and shows that the writers are not a full ring ahead
    cases hadd : build.add c.cursor cap.val with
    | none =>
      refine absurd ⟨hmulti, hread, ?_⟩ hstall
      intro ahead h
      rw [hadd] at h
      cases h
    | some ahead =>
      have hlt : ¬ ahead ≤ writeSeq := by
        intro hle
        refine hstall ⟨hmulti, hread, ?_⟩
        intro ahead' h
        rw [hadd] at h
        cases h
        exact hle
      simp only [if_neg hlt]

/-- What a turn that goes on does. -/
theorem loopTurn_next (hsparse : c.sparse = false) (h : c.loopTurn build cap slots writeSeq = .next c') :
    (c.Stalls build cap slots writeSeq c.cursor ∧
      c' = (c.skipOverwrittenNow cap writeSeq 0).2) ∨
    ∃ seen, readSlot (slots (slotIndex cap c.cursor)) c.cursor = .overwritten seen ∧
      c.cursor < oldestRetained (max writeSeq seen) cap.val ∧
      c' = { c with
        toAccount := c.toAccount.lap (oldestRetained (max writeSeq seen) cap.val) } := by
  cases hread : readSlot (slots (slotIndex cap c.cursor)) c.cursor with
  | item data =>
    rw [loopTurn, hread] at h
    simp only at h
    split at h <;> cases h
  | overwritten seen =>
    rw [loopTurn_overwritten hread] at h
    split_ifs at h with hlt
    cases h
    exact .inr ⟨seen, rfl, hlt, rfl⟩
  | pending =>
    left
    by_cases hstall : c.Stalls build cap slots writeSeq c.cursor
    · refine ⟨hstall, ?_⟩
      rw [loopTurn, hread] at h
      simp only [hstall.1, if_true] at h
      split at h
      · split_ifs at h
        cases h
        rfl
      · cases h
    · rw [loopTurn_pending hsparse hread hstall] at h
      cases h

/-- What a turn returns that finds nothing. -/
theorem loopTurn_stop_none (hsparse : c.sparse = false)
    (h : c.loopTurn build cap slots writeSeq = .stop (.returned none c')) : c' = c := by
  cases hread : readSlot (slots (slotIndex cap c.cursor)) c.cursor with
  | item data =>
    rw [loopTurn, hread] at h
    simp only at h
    split at h <;> cases h
  | overwritten seen =>
    rw [loopTurn_overwritten hread] at h
    split_ifs at h
    cases h
    rfl
  | pending =>
    by_cases hstall : c.Stalls build cap slots writeSeq c.cursor
    · rw [loopTurn, hread] at h
      simp only [hstall.1, if_true] at h
      split at h
      · split_ifs at h
        cases h
        rfl
      · cases h
    · rw [loopTurn_pending hsparse hread hstall] at h
      cases h
      rfl

/-! ## A stalled slot -/

theorem le_skipOverwrittenNow :
    c.cursor ≤ (c.skipOverwrittenNow cap writeSeq seen).2.cursor := by
  by_cases h : c.cursor < oldestRetained (max writeSeq seen) cap.val
  · rw [skipOverwrittenNow_of_lt h]
    exact h.le
  · rw [skipOverwrittenNow_of_not_lt h]

/-- The cursor does not go back. -/
theorem le_of_ends_none (hsparse : c.sparse = false)
    (h : Ends (loopTurn build cap slots writeSeq) c (.returned none c')) :
    c.cursor ≤ c'.cursor := by
  have hind := h.induct (P := fun c o => c.sparse = false →
      ∀ c', o = Outcome.returned none c' → c.cursor ≤ c'.cursor) ?_ ?_
  · exact hind hsparse c' rfl
  · rintro c o hturn hsparse c' rfl
    rw [loopTurn_stop_none hsparse hturn]
  · intro c c₁ o hturn ih hsparse c' ho
    rcases loopTurn_next hsparse hturn with ⟨-, rfl⟩ | ⟨seen, -, hlt, rfl⟩
    · have hrest := ih hsparse c' ho
      exact le_skipOverwrittenNow.trans hrest
    · exact hlt.le.trans (ih hsparse c' ho)

/-- At a stalled slot the reader does not stay: it panics, finds a message or moves on. -/
theorem Stalls.ends (hstall : c.Stalls build cap slots writeSeq c.cursor)
    (hsparse : c.sparse = false)
    (h : Ends (loopTurn build cap slots writeSeq) c (.returned none c')) :
    c.cursor < c'.cursor := by
  cases hturn : c.loopTurn build cap slots writeSeq with
  | stop o =>
    exfalso
    obtain rfl := (ends_of_stop hturn).mp h
    rw [loopTurn, hstall.2.1] at hturn
    simp only [hstall.1, if_true] at hturn
    split at hturn
    · next ahead hadd =>
      rw [if_pos (hstall.2.2 ahead hadd)] at hturn
      cases hturn
    · cases hturn
  | next c₁ =>
    rcases loopTurn_next hsparse hturn with ⟨-, rfl⟩ | ⟨seen, hread, -, -⟩
    · by_cases hlt : c.cursor < oldestRetained (max writeSeq 0) cap.val
      · rw [skipOverwrittenNow_of_lt hlt] at hturn
        have hend := (ends_of_next hturn).mp h
        have hle := le_of_ends_none (c := { c with
          toAccount := c.toAccount.lap (oldestRetained (max writeSeq 0) cap.val) }) hsparse hend
        exact Nat.lt_of_lt_of_le hlt hle
      · -- nothing to skip: the loop goes round for ever
        rw [skipOverwrittenNow_of_not_lt hlt] at hturn
        exact absurd h (not_ends_of_fixed hturn)
    · rw [hstall.2.1] at hread
      cases hread

/-! ## Readers that do not meet a stalled slot -/

/-- The word of a slot that was overwritten is a sequence. -/
theorem seen_lt_slotWriting {s : ℕ} (hword : ∀ i, (slots i).seq < 2 ^ 64)
    (hread : readSlot (slots (slotIndex cap s)) s = .overwritten seen) : seen < slotWriting := by
  rw [readSlot_eq] at hread
  split_ifs at hread with hitem hpending
  cases hread
  have hlt := hword (slotIndex cap s)
  have hne := (not_or.mp hpending).1
  unfold slotWriting u64Max at hne ⊢
  omega

/-- A skip to what a slot shows, beyond the window of `write_seq`, does not lead to a stalled
slot. -/
theorem not_stalls_of_seen {s : ℕ} (hs : oldestRetained writeSeq cap.val ≤ s)
    (hlt : s < oldestRetained (max writeSeq seen) cap.val) (hseen : seen < slotWriting) :
    ¬ c.Stalls build cap slots writeSeq (oldestRetained (max writeSeq seen) cap.val) := by
  rintro ⟨-, -, hahead⟩
  have hone := one_le_oldestRetained writeSeq cap.val
  have hbeyond : writeSeq < seen := by
    by_contra hcon
    rw [max_eq_left (Nat.not_lt.mp hcon)] at hlt
    omega
  have hsum : oldestRetained (max writeSeq seen) cap.val + cap.val = seen + 1 := by
    rw [max_eq_right hbeyond.le] at hlt ⊢
    unfold oldestRetained at hlt ⊢
    split_ifs at hlt ⊢ <;> omega
  have hadd : build.add (oldestRetained (max writeSeq seen) cap.val) cap.val =
      some (seen + 1) := by
    rw [← hsum]
    apply Build.add_of_lt
    rw [hsum]
    unfold slotWriting u64Max at hseen
    omega
  have hle := hahead _ hadd
  omega

theorem NoStall.skip (h : c.NoStall build cap slots writeSeq)
    (hword : ∀ i, (slots i).seq < 2 ^ 64)
    (hread : readSlot (slots (slotIndex cap c.cursor)) c.cursor = .overwritten seen)
    (hlt : c.cursor < oldestRetained (max writeSeq seen) cap.val) :
    ({ c with toAccount := c.toAccount.lap (oldestRetained (max writeSeq seen) cap.val) } :
      RingConsumer w ω).NoStall build cap slots writeSeq := by
  refine ⟨h.skipped seen hread hlt, ?_⟩
  intro seen' hread' hlt'
  exact not_stalls_of_seen (oldestRetained_mono (le_max_left _ _) cap.val) hlt'
    (seen_lt_slotWriting hword hread')

/-- While `write_seq` is not the largest word, what counts is the slot the reader stands at. -/
theorem noStall_iff (hmax : writeSeq < u64Max) (hword : ∀ i, (slots i).seq < 2 ^ 64)
    (hpos : 1 ≤ c.cursor) :
    c.NoStall build cap slots writeSeq ↔ ¬ c.Stalls build cap slots writeSeq c.cursor := by
  constructor
  · exact fun h => h.here
  · intro h
    refine ⟨h, ?_⟩
    rintro seen hread hlt ⟨-, -, hahead⟩
    have hseen := seen_lt_slotWriting hword hread
    have hsum : oldestRetained (max writeSeq seen) cap.val + cap.val = max writeSeq seen + 1 := by
      unfold oldestRetained at hlt ⊢
      split_ifs at hlt ⊢ <;> omega
    have hle := hahead _ (Build.add_of_lt (by
      rw [hsum]
      unfold slotWriting u64Max at *
      omega))
    omega

end RingConsumer

/-- What the two readers have in common between two turns. -/
structure Matched (build : Build) (cap : Capacity) (slots : ℕ → Slot w ω) (writeSeq : ℕ)
    (c₀ : RingConsumer w ω) (r₀ : RingConsumerRaw) (c : RingConsumer w ω) (r : RingConsumerRaw) :
    Prop where
  dense : c.sparse = false
  noStall : c.NoStall build cap slots writeSeq
  cursor : c.cursor = r.cursor
  lapped : ∃ n, c.lappedTotal = c₀.lappedTotal + n ∧ r.lappedTotal = r₀.lappedTotal + n

/-- One turn of either reader. -/
theorem Matched.lockstep (hword : ∀ i, (slots i).seq < 2 ^ 64) {c₀ : RingConsumer w ω}
    {r₀ : RingConsumerRaw} (h : Matched build cap slots writeSeq c₀ r₀ c r) :
    Lockstep (Matched build cap slots writeSeq c₀ r₀) (Outcome.Same c₀ r₀)
      (c.loopTurn build cap slots writeSeq) (r.turn build cap slots writeSeq) := by
  rw [RingConsumerRaw.turn_eq, ← h.cursor]
  cases hread : readSlot (slots (slotIndex cap c.cursor)) c.cursor with
  | item data =>
    rw [RingConsumer.loopTurn, hread]
    cases build.add c.cursor 1 with
    | none => exact trivial
    | some next => exact ⟨rfl, rfl, h.lapped⟩
  | pending =>
    rw [RingConsumer.loopTurn_pending h.dense hread h.noStall.here]
    exact ⟨rfl, h.cursor, h.lapped⟩
  | overwritten seen =>
    rw [RingConsumer.loopTurn_overwritten hread]
    simp only
    split_ifs with hlt
    · obtain ⟨n, hc, hr⟩ := h.lapped
      refine ⟨h.dense, h.noStall.skip hword hread hlt, rfl,
        n + (oldestRetained (max writeSeq seen) cap.val - c.cursor), ?_, ?_⟩
      · rw [← Nat.add_assoc, ← hc]
        rfl
      · rw [← Nat.add_assoc, ← hr]
    · exact ⟨rfl, h.cursor, h.lapped⟩

/-- **The readers do the same as long as they do not meet a stalled slot.** -/
theorem agree_of_noStall (hword : ∀ i, (slots i).seq < 2 ^ 64) (hws : writeSeq < 2 ^ 64)
    (hsparse : c.sparse = false) (hcursor : c.cursor = r.cursor)
    (h : c.NoStall build cap slots writeSeq) : Agree build cap slots writeSeq c r := by
  refine exists_ends_of_lockstep (R := Matched build cap slots writeSeq c r)
    (fun c => 2 ^ 64 - c.cursor) ?_ ?_ ⟨hsparse, h, hcursor, 0, rfl, rfl⟩
  · intro s t hst
    exact hst.lockstep hword
  · intro s t s' hst hturn
    rcases RingConsumer.loopTurn_next hst.dense hturn with ⟨hstall, -⟩ | ⟨seen, hread, hlt, rfl⟩
    · exact absurd hstall hst.noStall.here
    · have hseen := RingConsumer.seen_lt_slotWriting hword hread
      have hbound : oldestRetained (max writeSeq seen) cap.val < 2 ^ 64 := by
        have hcap := cap.pos
        unfold slotWriting u64Max at hseen
        unfold oldestRetained
        split_ifs <;> omega
      change 2 ^ 64 - oldestRetained (max writeSeq seen) cap.val < 2 ^ 64 - s.cursor
      omega

/-- A stalled slot tells the readers apart: the C reader stays where it is. -/
theorem not_same_of_stalls {c₀ : RingConsumer w ω} {r₀ : RingConsumerRaw}
    (hsparse : c.sparse = false) (hcursor : c.cursor = r.cursor)
    (hstall : c.Stalls build cap slots writeSeq c.cursor)
    {o : Outcome (Payload w ω) (RingConsumer w ω)} {o' : Outcome (Payload w ω) RingConsumerRaw}
    (ho : Ends (RingConsumer.loopTurn build cap slots writeSeq) c o)
    (ho' : Ends (RingConsumerRaw.turn build cap slots writeSeq) r o') : ¬ o.Same c₀ r₀ o' := by
  have hturn : r.turn build cap slots writeSeq = .stop (.returned none r) := by
    rw [RingConsumerRaw.turn_eq, ← hcursor, hstall.2.1]
  obtain rfl := (ends_of_stop hturn).mp ho'
  intro hsame
  cases o with
  | panicked => exact hsame
  | returned item c' =>
    obtain ⟨rfl, hcur, -⟩ := hsame
    have hlt := hstall.ends hsparse ho
    omega

/-- **When the reader of the C interface does what the Rust reader does**: on rings without holes,
exactly when neither comes to a stalled slot. -/
theorem agree_iff (hword : ∀ i, (slots i).seq < 2 ^ 64) (hws : writeSeq < 2 ^ 64)
    (hsparse : c.sparse = false) (hcursor : c.cursor = r.cursor) :
    Agree build cap slots writeSeq c r ↔ c.NoStall build cap slots writeSeq := by
  constructor
  · rintro ⟨o, o', ho, ho', hsame⟩
    refine ⟨?_, ?_⟩
    · intro hstall
      exact not_same_of_stalls hsparse hcursor hstall ho ho' hsame
    · intro seen hread hlt hstall
      -- both readers skip to the stalled slot
      have hturn := @RingConsumer.loopTurn_overwritten _ _ build cap slots writeSeq _ _ hread
      rw [if_pos hlt] at hturn
      have hraw := @RingConsumerRaw.turn_eq _ _ build cap slots writeSeq r
      rw [← hcursor, hread] at hraw
      simp only [if_pos hlt] at hraw
      exact not_same_of_stalls (c := { c with
        toAccount := c.toAccount.lap (oldestRetained (max writeSeq seen) cap.val) }) hsparse rfl
        hstall ((ends_of_next hturn).mp ho) ((ends_of_next hraw).mp ho') hsame
  · exact agree_of_noStall hword hws hsparse hcursor

end

/-- The slots of a ring with several producers: the producer with ticket `2` died while it wrote,
ticket `6` was given up at the slot it left behind, and `write_seq` is `7`. -/
def stalledSlots : ℕ → Slot 1 ℕ
  | 0 => ⟨4, fun _ => 40⟩
  | 1 => ⟨5, fun _ => 50⟩
  | 2 => ⟨slotWriting, fun _ => 0⟩
  | 3 => ⟨7, fun _ => 70⟩
  | _ => ⟨0, fun _ => 0⟩

theorem stalledSlots_lt (i : ℕ) : (stalledSlots i).seq < 2 ^ 64 := by
  match i with
  | 0 | 1 | 2 | 3 => decide
  | _ + 4 => exact (by decide : 0 < 2 ^ 64)

/-- A ring of four slots. -/
def stalledCap : Capacity := ⟨4, isPowerOfTwo_four⟩

/-- A reader of a ring with several producers. -/
def stalledReader (cursor : ℕ) : RingConsumer 1 ℕ := .attach true false false cursor 0

/-- Behind the slot of the dead producer the two readers do the same. -/
theorem agree_iff_at_four :
    Agree .checks stalledCap stalledSlots 7 (stalledReader 4) ⟨4, 0⟩ ↔
      (stalledReader 4).NoStall .checks stalledCap stalledSlots 7 :=
  agree_iff stalledSlots_lt (by decide) rfl rfl

/-- **The C reader waits for ever.** From cursor `2` the Rust reader skips two messages and returns
message `4`; the C reader finds nothing. -/
theorem stalled_disagree :
    Ends (RingConsumer.loopTurn .checks stalledCap stalledSlots 7) (stalledReader 2)
        (.returned (some fun _ => 40)
          { stalledReader 2 with
            toAccount := ((stalledReader 2).toAccount.lap 4).deliver fun _ => 40 }) ∧
      Ends (RingConsumerRaw.turn .checks stalledCap stalledSlots 7) ⟨2, 0⟩
        (.returned none ⟨2, 0⟩) ∧
      ¬ Agree .checks stalledCap stalledSlots 7 (stalledReader 2) ⟨2, 0⟩ := by
  have hrust : Ends (RingConsumer.loopTurn .checks stalledCap stalledSlots 7) (stalledReader 2)
      (.returned (some fun _ => 40)
        { stalledReader 2 with
          toAccount := ((stalledReader 2).toAccount.lap 4).deliver fun _ => 40 }) := ⟨2, rfl⟩
  have hraw : Ends (RingConsumerRaw.turn .checks stalledCap stalledSlots 7) ⟨2, 0⟩
      (.returned none ⟨2, 0⟩) := ⟨1, rfl⟩
  refine ⟨hrust, hraw, ?_⟩
  rintro ⟨o, o', ho, ho', hsame⟩
  rw [hrust.unique ho, hraw.unique ho'] at hsame
  cases hsame.1

end Ringfire
