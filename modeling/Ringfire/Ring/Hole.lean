import Ringfire.Ring.Consumer

/-!
# The loads of `skip_hole`

`skip_hole` of a sparse ring, cut into its loads: `write_seq`, the slot of the cursor, and then one
slot word after the other from the oldest retained sequence on. The function is written twice in
the source, with the same text, for `RingConsumer` and for `BlobConsumer`, so the machine here
knows only the cursor. It keeps the words the scan saw.

## Main definitions

* `HolePc.step`: one load of `skip_hole`

## Main results

* `HolePc.Scanned.step`: every sequence the scan passed was not in its slot when it was looked at
* `RingConsumer.step_hole`: these are the steps of a `RingConsumer` inside `skip_hole`
-/

namespace Ringfire

/-- Where a reader inside `skip_hole` stands. `examined` is the words the scan has seen, each with
the sequence it looked for. -/
inductive HolePc where
  | load
  | seen (writeSeq : ℕ)
  | scan (writeSeq next : ℕ) (examined : List (ℕ × ℕ))

/-- What a load of `skip_hole` leads to: it returns without a move, goes on, or moves the cursor. -/
inductive HoleTurn where
  | stay
  | go (pc : HolePc)
  | move (next : ℕ)

namespace HolePc

/-- One load of `skip_hole` by a reader at `cursor`. -/
def step (cap : Capacity) (word : ℕ → ℕ) (writeSeq cursor : ℕ) : HolePc → HoleTurn
  | .load => if writeSeq < cursor then .stay else .go (.seen writeSeq)
  | .seen ws =>
    if word (slotIndex cap cursor) = slotWriting ∨ cursor ≤ word (slotIndex cap cursor) then .stay
    else .go (.scan ws (max (oldestRetained ws cap.val) (cursor + 1)) [])
  | .scan ws next examined =>
    if next ≤ ws ∧ word (slotIndex cap next) ≠ next then
      .go (.scan ws (next + 1) (examined ++ [(next, word (slotIndex cap next))]))
    else .move next

/-- What the scan knows: it is past the cursor and not beyond `write_seq`, and of the retained
sequences it passed none was in its slot. -/
def Scanned (cap : Capacity) (cursor : ℕ) : HolePc → Prop
  | .load => True
  | .seen ws => cursor ≤ ws
  | .scan ws next examined => cursor ≤ ws ∧ cursor < next ∧ next ≤ ws + 1 ∧
      ∀ k, cursor < k → ws < k + cap.val → k < next → ∃ word, (k, word) ∈ examined ∧ word ≠ k

variable {cap : Capacity} {word : ℕ → ℕ} {writeSeq cursor : ℕ} {pc pc' : HolePc}

theorem Scanned.step (h : pc.Scanned cap cursor)
    (hstep : pc.step cap word writeSeq cursor = .go pc') : pc'.Scanned cap cursor := by
  cases pc with
  | load =>
    simp only [HolePc.step] at hstep
    split_ifs at hstep with hws
    cases hstep
    exact Nat.not_lt.mp hws
  | seen ws =>
    simp only [HolePc.step] at hstep
    split_ifs at hstep
    cases hstep
    have hcap := cap.pos
    have hle : oldestRetained ws cap.val ≤ ws + 1 :=
      (oldestRetained_le (Nat.succ_pos ws)).mpr (by omega)
    refine ⟨h, by omega, max_le hle (Nat.succ_le_succ h), fun k hk hret hlt => ?_⟩
    -- the scan starts at the oldest retained sequence
    have hold := (oldestRetained_le (by omega : 1 ≤ k)).mpr hret
    omega
  | scan ws next examined =>
    obtain ⟨hws, hnext, hle, hpassed⟩ := h
    simp only [HolePc.step] at hstep
    split_ifs at hstep with hgo
    cases hstep
    refine ⟨hws, by omega, Nat.succ_le_succ hgo.1, fun k hk hret hlt => ?_⟩
    rcases Nat.lt_or_eq_of_le (Nat.lt_succ_iff.mp hlt) with hlt' | rfl
    · obtain ⟨x, hx, hne⟩ := hpassed k hk hret hlt'
      exact ⟨x, List.mem_append_left _ hx, hne⟩
    · exact ⟨_, List.mem_append_right _ List.mem_cons_self, hgo.2⟩

/-- The cursor moves only at the end of a scan. -/
theorem step_eq_move {next : ℕ} (h : pc.step cap word writeSeq cursor = .move next) :
    ∃ ws examined, pc = .scan ws next examined := by
  cases pc with
  | load =>
    simp only [HolePc.step] at h
    split_ifs at h
  | seen ws =>
    simp only [HolePc.step] at h
    split_ifs at h
  | scan ws next' examined =>
    simp only [HolePc.step] at h
    split_ifs at h
    cases h
    exact ⟨ws, examined, rfl⟩

end HolePc

namespace RingConsumer

variable {w : ℕ} {ω : Type}

/-- The program counter of a `RingConsumer` inside `skip_hole`. -/
def holePc (call : Receive) (skipped : ℕ) : HolePc → ConsumerPc w ω
  | .load => .holeLoad call skipped
  | .seen ws => .holeSeen call skipped ws
  | .scan ws next _ => .holeScan call skipped ws next

/-- **A `RingConsumer` inside `skip_hole` takes the steps of `skip_hole`.** -/
theorem step_hole [Inhabited ω] {cap : Capacity} {slots : ℕ → Slot w ω} {writeSeq : ℕ}
    {c : RingConsumer w ω} {call : Receive} {skipped : ℕ} {pc : HolePc}
    (h : c.pc = holePc call skipped pc) :
    c.step cap slots writeSeq .tick =
      match pc.step cap (fun i => (slots i).seq) writeSeq c.cursor with
      | .stay => some (c.giveUp call, none)
      | .go pc' => some ({ c with pc := holePc call skipped pc' }, none)
      | .move next => some (c.skipTo next (some (call, skipped + (next - c.cursor))), none) := by
  cases pc with
  | load =>
    simp only [holePc] at h
    simp only [step, h, HolePc.step]
    split_ifs <;> rfl
  | seen ws =>
    simp only [holePc] at h
    simp only [step, h, HolePc.step]
    split_ifs <;> rfl
  | scan ws next examined =>
    simp only [holePc] at h
    simp only [step, h, HolePc.step]
    split_ifs <;> rfl

end RingConsumer

end Ringfire
