import Ringfire.Ring.Consumer

/-!
# What a reader may rely on

A reader does not care how the producers of a ring agree on who writes. It relies on this much:
a slot word that is neither `0` nor `slotWriting` names a message that was stored, with that
message's payload beside it; `write_seq` is `0` or names a stored message; and between two looks
a slot either did not change, is marked, or shows a sequence never stored in it before. `View`
is the memory together with what was stored so far, `Truthful` and `Evolves` are the two halves
of that contract, and `RingConsumer.PcSound` is what a consumer in the middle of a call knows
under it.

## Main results

* `RingConsumer.PcSound.step`, `RingConsumer.PcSound.evolves`: a consumer's knowledge survives
  its own steps and those of the producers
* `RingConsumer.Effect.message`: a message returned is the one pushed under the cursor
* `RingConsumer.Effect.lapped`: a sequence is counted as lapped only when a message a full ring
  later has been stored
-/

namespace Ringfire

variable {w : ℕ} {ω : Type}

/-- The memory a reader sees, and what was stored so far: the sequences, the largest one stored
in each slot, and the messages. -/
structure View (w : ℕ) (ω : Type) where
  slots : ℕ → Slot w ω
  writeSeq : ℕ
  stored : ℕ → Prop
  top : ℕ → ℕ
  message : ℕ → Option (Payload w ω)

namespace View

/-- The slot words and `write_seq` name stored messages. -/
structure Truthful (v : View w ω) : Prop where
  writeSeq : v.writeSeq = 0 ∨ v.stored v.writeSeq
  word : ∀ i, (v.slots i).seq = 0 ∨ (v.slots i).seq = slotWriting ∨
    (v.stored (v.slots i).seq ∧ (v.slots i).seq ≤ v.top i ∧
      v.message (v.slots i).seq = some (v.slots i).data)

/-- What the producers' steps may do. -/
structure Evolves (v v' : View w ω) : Prop where
  stored : ∀ k, v.stored k → v'.stored k
  top : ∀ i, v.top i ≤ v'.top i
  message : ∀ k d, v.message k = some d → v'.message k = some d
  slots : ∀ i, VersionedCell.Evolves slotWriting (v.top i) (v.slots i).seq (v.slots i).data
    (v'.slots i).seq (v'.slots i).data

variable {v v' : View w ω}

theorem Evolves.refl (v : View w ω) : v.Evolves v :=
  ⟨fun _ h => h, fun _ => le_refl _, fun _ _ h => h, fun _ => .refl _ _ _⟩

theorem Evolves.trans {v'' : View w ω} (h : v.Evolves v') (h' : v'.Evolves v'') : v.Evolves v'' :=
  ⟨fun k hk => h'.stored k (h.stored k hk), fun i => (h.top i).trans (h'.top i),
    fun k d hd => h'.message k d (h.message k d hd), fun i => (h.slots i).trans (h.top i) (h'.slots i)⟩

theorem Truthful.slot (h : v.Truthful) {i want : ℕ} (hpos : 1 ≤ want) (hwant : want ≠ slotWriting)
    (heq : (v.slots i).seq = want) :
    want ≤ v.top i ∧ v.message want = some (v.slots i).data := by
  rcases h.word i with h0 | hm | ⟨-, htop, hmsg⟩
  · omega
  · exact absurd (heq.symm.trans hm) hwant
  · exact heq ▸ ⟨htop, hmsg⟩

theorem Truthful.word_stored (h : v.Truthful) {i : ℕ} (hm : (v.slots i).seq ≠ slotWriting) :
    (v.slots i).seq = 0 ∨ v.stored (v.slots i).seq :=
  (h.word i).imp_right fun hw => (hw.resolve_left hm).1

end View

namespace RingConsumer

variable {cap : Capacity} {v v' : View w ω} {c c' : RingConsumer w ω}

/-- What a consumer in the middle of a call knows. -/
def PcSound (cap : Capacity) (v : View w ω) (c : RingConsumer w ω) : Prop :=
  match c.pc with
  | .reading _ _ rd => c.cursor ≠ slotWriting →
      rd.Sound v.message (v.top (slotIndex cap c.cursor)) (v.slots (slotIndex cap c.cursor)) c.cursor
  | .skipLoad _ _ _ seen => seen = 0 ∨ v.stored seen
  | .holeLoad _ _ | .holeSeen _ _ _ | .holeScan _ _ _ _ => c.sparse = true
  | _ => True

theorem PcSound.evolves (h : c.PcSound cap v) (he : v.Evolves v') : c.PcSound cap v' := by
  unfold PcSound at *
  split at h
  · exact fun hc => (h hc).evolves hc (he.top _) (he.message _) (he.slots _)
  · exact h.imp_right (he.stored _)
  · exact h
  · exact h
  · exact h
  · exact h

/-- A sequence is counted as lapped only when a message a full ring later has been stored. -/
theorem Effect.lapped {site : SkipSite} {call : Receive} {skipped seen s : ℕ} (hv : v.Truthful)
    (hpos : 1 ≤ c.cursor) (h : c.PcSound cap v) (hpc : c.pc = .skipLoad site call skipped seen)
    (hs : c.cursor ≤ s) (hlt : s < oldestRetained (max v.writeSeq seen) cap.val) :
    ∃ k, s + cap.val ≤ k ∧ v.stored k := by
  unfold PcSound at h
  rw [hpc] at h
  have hle := (lt_oldestRetained (hpos.trans hs)).mp hlt
  refine ⟨max v.writeSeq seen, hle, ?_⟩
  rcases max_choice v.writeSeq seen with hmax | hmax
  · rw [hmax] at hle ⊢
    exact hv.writeSeq.resolve_left (by omega)
  · rw [hmax] at hle ⊢
    exact h.resolve_left (by omega)

/-- A consumer at a slot has nothing to know yet. -/
theorem pcSound_of_atSlot (h : c.pc.AtSlot) : c.PcSound cap v := by
  unfold PcSound
  generalize c.pc = pc at h ⊢
  cases h with
  | idle | register => trivial
  | load => exact fun _ => trivial

theorem start_pcSound (h : c.PcSound cap v) (call : ConsumerCall) :
    (c.start call).PcSound cap v := by
  unfold start
  split
  · exact fun _ => trivial
  · exact h
  · exact fun _ => trivial
  · trivial
  · trivial

theorem afterRead_pcSound {call : Receive} {skipped : ℕ} {r : SlotRead (Payload w ω)}
    (hseen : ∀ seen, r = .overwritten seen → seen = 0 ∨ v.stored seen)
    (h : c.afterRead call skipped r = some c') : c'.PcSound cap v := by
  rcases afterRead_atSlot h with hslot | ⟨seen, hr, hpc⟩ | hpc | ⟨hpc, hsparse⟩
  · exact pcSound_of_atSlot hslot
  · simp only [PcSound, hpc]
    exact hseen seen hr
  · simp only [PcSound, hpc]
  · simp only [PcSound, hpc]
    exact hsparse

end RingConsumer

/-- The sequence an overwritten slot reports is `0` or the slot word. -/
theorem ReadPc.step_overwritten [Inhabited ω] {slot : Slot w ω} {want seen : ℕ} {rd : ReadPc w ω}
    {a : Option (Fin w)} (h : rd.step slot want a = some (.done (.overwritten seen))) :
    seen = 0 ∨ (seen = slot.seq ∧ slot.seq ≠ slotWriting) := by
  cases rd with
  | load =>
    cases a with
    | some i => cases h
    | none =>
      simp only [ReadPc.step, readSlotFirst] at h
      split_ifs at h with heq hp <;> cases h
      exact .inr ⟨rfl, fun hm => hp (.inl hm)⟩
  | copy left buf =>
    cases a with
    | some i =>
      simp only [ReadPc.step] at h
      split_ifs at h
      cases h
    | none =>
      simp only [ReadPc.step, readSlotSecond] at h
      split_ifs at h with _ _ hm <;> cases h
      · exact .inl rfl
      · exact .inr ⟨rfl, hm⟩
  | done r => cases a <;> cases h

namespace RingConsumer

variable {cap : Capacity} {v : View w ω} {c c' : RingConsumer w ω} [Inhabited ω]

/-- **A consumer's knowledge survives its own steps.** -/
theorem PcSound.step {a : ConsumerLabel w} {stored : Option ℕ} (hv : v.Truthful)
    (hpos : 1 ≤ c.cursor) (h : c.PcSound cap v)
    (hstep : c.step cap v.slots v.writeSeq a = some (c', stored)) : c'.PcSound cap v := by
  have hread {call : Receive} {skipped : ℕ} {rd rd' : ReadPc w ω} {x : Option (Fin w)}
      (hpc : c.pc = .reading call skipped rd)
      (hr : rd.step (v.slots (slotIndex cap c.cursor)) c.cursor x = some rd') :
      RingConsumer.PcSound cap v { c with pc := .reading call skipped rd' } := by
    intro hc
    unfold PcSound at h
    rw [hpc] at h
    exact (h hc).step (fun heq => hv.slot hpos hc heq) hr
  cases RingConsumer.step_moves hstep with
  | call call => exact start_pcSound h call
  | word call skipped rd rd' i hpc hr => exact hread hpc hr
  | load call skipped rd rd' hpc hr => exact hread hpc hr
  | done call skipped rd r _ hpc hr hc =>
    refine afterRead_pcSound (fun seen hs => ?_) hc
    subst hs
    rcases ReadPc.step_overwritten hr with h0 | ⟨rfl, hm⟩
    · exact .inl h0
    · exact hv.word_stored hm
  | skip site call skipped seen =>
    exact pcSound_of_atSlot (skipOverwritten_atSlot cap _ c site call skipped seen)
  | stale => exact .inl rfl
  | giveUp call => exact pcSound_of_atSlot (giveUp_atSlot c call)
  | hole call skipped hpc | scan call skipped ws hpc | scanNext call skipped ws next hpc =>
    unfold PcSound at h
    rw [hpc] at h
    exact h
  | found => exact pcSound_of_atSlot (settle_atSlot _ _)
  | register resume => exact pcSound_of_atSlot (resumePc_atSlot resume)
  | jump => exact pcSound_of_atSlot (jumpTo_atSlot c _)

/-- A message returned is the one pushed under the cursor. -/
theorem Effect.message {call : Receive} {skipped : ℕ} {rd : ReadPc w ω} {data : Payload w ω}
    (hv : v.Truthful) (hpos : 1 ≤ c.cursor) (hc : c.cursor ≠ slotWriting) (h : c.PcSound cap v)
    (hpc : c.pc = .reading call skipped rd)
    (hr : rd.step (v.slots (slotIndex cap c.cursor)) c.cursor none = some (.done (.item data))) :
    v.message c.cursor = some data := by
  unfold PcSound at h
  rw [hpc] at h
  exact (h hc).step (fun heq => hv.slot hpos hc heq) hr data rfl

/-- What holds of a consumer on a ring without holes, between any two of its steps. -/
structure Inv (cap : Capacity) (v : View w ω) (c : RingConsumer w ω) : Prop where
  one_le : 1 ≤ c.cursor
  dense : c.sparse = false
  pc : c.PcSound cap v
  delivered : ∀ k d, (k, d) ∈ c.delivered → v.message k = some d

omit [Inhabited ω] in
theorem Inv.attach {multiProducer registered : Bool} {cursor lappedTotal : ℕ} (h : 1 ≤ cursor) :
    (RingConsumer.attach multiProducer false registered cursor lappedTotal).Inv cap v where
  one_le := h
  dense := rfl
  pc := by
    unfold PcSound RingConsumer.attach
    cases registered with
    | true => exact .inl rfl
    | false => trivial
  delivered := by
    intro k d hmem
    cases hmem

omit [Inhabited ω] in
theorem Inv.evolves {v' : View w ω} (h : c.Inv cap v) (he : v.Evolves v') : c.Inv cap v' :=
  ⟨h.one_le, h.dense, h.pc.evolves he,
    fun k d hmem => he.message k d (h.delivered k d hmem)⟩

/-- **The accounting step.** A step of a consumer returns the right message, counts as lapped only
what was overwritten, and jumps only when asked to. -/
theorem Inv.advance {a : ConsumerLabel w} {stored : Option ℕ} (hv : v.Truthful)
    (h : c.Inv cap v) (hstep : c.step cap v.slots v.writeSeq a = some (c', stored)) :
    ∃ D L J, c.toAccount.Advance c'.toAccount D L J ∧
      (∀ k d, (k, d) ∈ D → v.message k = some d) ∧
      (∀ s ∈ L, ∃ k, s + cap.val ≤ k ∧ v.stored k) ∧
      (J ≠ [] → c.jumping = true) := by
  cases step_effect hstep with
  | stay account =>
    rw [account]
    exact ⟨[], [], [], .refl _, by simp, by simp, by simp⟩
  | deliver call skipped rd data pc read fits account =>
    rw [account]
    refine ⟨_, _, _, .deliver _ data, ?_, by simp, by simp⟩
    intro k d hmem
    obtain ⟨rfl, rfl⟩ := Prod.mk.inj (List.mem_singleton.mp hmem)
    exact Effect.message hv h.one_le (Nat.ne_of_lt fits) h.pc pc read
  | lap site call skipped seen pc lt account =>
    rw [account]
    refine ⟨_, _, _, .lap _ lt.le, by simp, fun s hs => ?_, by simp⟩
    rw [List.mem_range'_1] at hs
    exact Effect.lapped hv h.one_le h.pc pc hs.1 (by omega)
  | hole call skipped ws next pc =>
    have hp := h.pc
    unfold PcSound at hp
    rw [pc, h.dense] at hp
    cases hp
  | jump target pc lt account =>
    rw [account]
    exact ⟨_, _, _, .jump _ lt.le, by simp, by simp, fun _ => pc⟩

theorem Inv.step {a : ConsumerLabel w} {stored : Option ℕ} (hv : v.Truthful)
    (h : c.Inv cap v) (hstep : c.step cap v.slots v.writeSeq a = some (c', stored)) :
    c'.Inv cap v := by
  obtain ⟨D, L, J, hadv, hD, -, -⟩ := h.advance hv hstep
  refine ⟨h.one_le.trans hadv.le, ?_, h.pc.step hv h.one_le hstep, fun k d hmem => ?_⟩
  · have hmode := step_mode hstep
    simp only [mode, Prod.mk.injEq] at hmode
    rw [hmode.2.1, h.dense]
  · rw [hadv.delivered, List.mem_append] at hmem
    exact hmem.elim (h.delivered k d) (hD k d)

end RingConsumer

end Ringfire
