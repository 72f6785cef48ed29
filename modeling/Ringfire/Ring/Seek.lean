import Ringfire.Ring.Blocking

/-!
# Seeking

`RingConsumer::seek` next to the calls of `RingConsumer.step`: one load of `write_seq`, the new
cursor, which may lie behind the old one, and the store to the registry.

## Main definitions

* `RingConsumer.seekTo`: `seek` once `write_seq` is loaded
* `SeekingConsumer.step`: one memory access of a consumer that may also seek

## Main results

* `SeekingConsumer.step_synced`: a registered consumer's cursor moves only until it is stored
-/

namespace Ringfire

variable {w : ℕ} {ω : Type}

/-- `seek(target)` once `write_seq` is loaded. -/
def RingConsumer.seekTo (cap : Capacity) (writeSeq : ℕ) (c : RingConsumer w ω) (target : ℕ) :
    RingConsumer w ω :=
  let oldest := oldestRetained writeSeq cap.val
  let target := max target 1
  if target < oldest then
    { c with cursor := oldest, lappedTotal := c.lappedTotal + (oldest - target) }.settle none
  else { c with cursor := target }.settle none

/-- A consumer that may also seek; `seeking` is the target of a `seek` that has not loaded
`write_seq` yet. -/
structure SeekingConsumer (w : ℕ) (ω : Type) where
  reader : RingConsumer w ω
  seeking : Option ℕ

/-- A step of such a consumer. -/
inductive SeekLabel (w : ℕ) where
  | seek (target : ℕ)
  | reader (a : ConsumerLabel w)

namespace SeekingConsumer

/-- One memory access; the second component is the value stored in the registry slot. -/
def step [Inhabited ω] (cap : Capacity) (slots : ℕ → Slot w ω) (writeSeq : ℕ)
    (c : SeekingConsumer w ω) (a : SeekLabel w) : Option (SeekingConsumer w ω × Option ℕ) :=
  match c.seeking, a with
  | none, .seek target =>
    match c.reader.pc with
    | .idle => some ({ c with seeking := some target }, none)
    | _ => none
  | none, .reader a =>
    (c.reader.step cap slots writeSeq a).map fun (reader, stored) => (⟨reader, none⟩, stored)
  | some target, .reader .tick => some (⟨c.reader.seekTo cap writeSeq target, none⟩, none)
  | some _, _ => none

/-- No call is in progress. -/
def idle (c : SeekingConsumer w ω) : Prop := c.reader.pc = .idle ∧ c.seeking = none

variable {cap : Capacity} {slots : ℕ → Slot w ω} {writeSeq : ℕ} {c c' : SeekingConsumer w ω}
  {a : SeekLabel w} {stored : Option ℕ}

theorem seekTo_registered (c : RingConsumer w ω) (target : ℕ) :
    (c.seekTo cap writeSeq target).registered = c.registered := by
  unfold RingConsumer.seekTo
  dsimp only
  split_ifs <;> rfl

/-- A registered consumer has its new cursor to store. -/
theorem seekTo_synced {c : RingConsumer w ω} (hreg : c.registered = true) (target : ℕ) :
    (c.seekTo cap writeSeq target).synced = false := by
  unfold RingConsumer.seekTo
  dsimp only
  split_ifs
  · exact RingConsumer.settle_synced hreg none
  · exact RingConsumer.settle_synced hreg none

theorem step_registered [Inhabited ω] (h : c.step cap slots writeSeq a = some (c', stored)) :
    c'.reader.registered = c.reader.registered := by
  unfold step at h
  split at h
  · split at h
    · cases h
      rfl
    · cases h
  · obtain ⟨⟨reader, st⟩, hr, he⟩ := Option.map_eq_some_iff.mp h
    cases he
    exact congrArg (fun m => m.2.2) (RingConsumer.step_mode hr)
  · cases h
    exact seekTo_registered _ _
  · cases h

/-- **The cursor moves only until it is stored.** -/
theorem step_synced [Inhabited ω] (hreg : c.reader.registered = true)
    (h : c.step cap slots writeSeq a = some (c', stored)) (hs : c'.reader.synced = true) :
    c'.reader.cursor = c.reader.cursor ∧
      (stored = some c.reader.cursor ∨ (stored = none ∧ c.reader.synced = true)) := by
  unfold step at h
  split at h
  · split at h
    · cases h
      exact ⟨rfl, .inr ⟨rfl, hs⟩⟩
    · cases h
  · obtain ⟨⟨reader, st⟩, hr, he⟩ := Option.map_eq_some_iff.mp h
    cases he
    exact RingConsumer.step_synced hreg hr hs
  · cases h
    rw [seekTo_synced hreg] at hs
    cases hs
  · cases h

end SeekingConsumer

end Ringfire
