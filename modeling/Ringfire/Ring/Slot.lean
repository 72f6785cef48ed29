import Ringfire.Foundation.Cyclic
import Ringfire.Foundation.VersionedCell

/-!
# Slots of the ring

The slot array of `header.rs` and the two functions of `spmc.rs` that touch a slot: `write_slot`
and `read_slot`. A slot word is `0` (unwritten), `slotWriting` (being overwritten) or the
sequence number of the message in the slot. Payloads are functions on their words, since both
sides copy them word by word.

`readSlot` reads a slot nobody is writing. `ReadPc` is the same function cut into its memory
accesses: load the word, copy the payload words in any order, load the word again. The two
decisions in between (`readSlotFirst`, `readSlotSecond`) are shared.

Sequence numbers are `u64` in the source and natural numbers here; an addition that would leave
`u64` is a panic there, and a step that is not enabled here.

## Main results

* `slotIndex_eq_mod`: masking by `capacity - 1` is reduction modulo the capacity
* `lt_oldestRetained`: a sequence is older than the oldest retained one exactly when a full ring
  of later messages exists
-/

namespace Ringfire

/-- `u64::MAX`. -/
def u64Max : ℕ := 2 ^ 64 - 1

/-- `SLOT_WRITING`: the word of a slot whose payload is being overwritten. -/
def slotWriting : ℕ := u64Max

theorem slotWriting_pos : 0 < slotWriting := by decide

/-- A ring capacity, as `create_with_options` accepts it. -/
structure Capacity where
  val : ℕ
  isPowerOfTwo : ∃ k, val = 2 ^ k

theorem Capacity.pos (cap : Capacity) : 0 < cap.val := by
  obtain ⟨k, hk⟩ := cap.isPowerOfTwo
  rw [hk]
  exact Nat.two_pow_pos k

theorem isPowerOfTwo_one : ∃ k, 1 = 2 ^ k := ⟨0, rfl⟩

theorem isPowerOfTwo_two : ∃ k, 2 = 2 ^ k := ⟨1, rfl⟩

theorem isPowerOfTwo_four : ∃ k, 4 = 2 ^ k := ⟨2, rfl⟩

theorem isPowerOfTwo_eight : ∃ k, 8 = 2 ^ k := ⟨3, rfl⟩

/-- Index of the slot of message `seq`: `seq & mask`. -/
def slotIndex (cap : Capacity) (seq : ℕ) : ℕ := seq &&& (cap.val - 1)

theorem slotIndex_eq_mod (cap : Capacity) (seq : ℕ) : slotIndex cap seq = seq % cap.val :=
  Cyclic.and_mask_eq_mod cap.isPowerOfTwo seq

theorem eq_of_slotIndex_eq {cap : Capacity} {a b : ℕ} (h : slotIndex cap a = slotIndex cap b)
    (hab : a ≤ b) (hlt : b < a + cap.val) : a = b := by
  rw [slotIndex_eq_mod, slotIndex_eq_mod] at h
  exact Cyclic.eq_of_mod_eq h hab hlt

theorem add_capacity_le {cap : Capacity} {a b : ℕ} (h : slotIndex cap a = slotIndex cap b)
    (hlt : a < b) : a + cap.val ≤ b := by
  rw [slotIndex_eq_mod, slotIndex_eq_mod] at h
  exact Cyclic.add_le_of_mod_eq h hlt

theorem slotIndex_add_capacity (cap : Capacity) (a : ℕ) :
    slotIndex cap (a + cap.val) = slotIndex cap a := by
  rw [slotIndex_eq_mod, slotIndex_eq_mod, Nat.add_mod_right]

/-- The last sequence up to `n` in the slot of `a`. -/
theorem exists_last_of_slot (cap : Capacity) {a n : ℕ} (h : a ≤ n) :
    ∃ k, slotIndex cap k = slotIndex cap a ∧ a ≤ k ∧ k ≤ n ∧ n < k + cap.val := by
  obtain ⟨k, hmod, hk⟩ := Cyclic.exists_last cap.pos h
  refine ⟨k, ?_, hk⟩
  rw [slotIndex_eq_mod, slotIndex_eq_mod, hmod]

/-- `oldest_retained`: the oldest sequence retained when `writeSeq` is the newest message. -/
def oldestRetained (writeSeq capacity : ℕ) : ℕ :=
  if capacity ≤ writeSeq then writeSeq - capacity + 1 else 1

theorem one_le_oldestRetained (writeSeq capacity : ℕ) : 1 ≤ oldestRetained writeSeq capacity := by
  unfold oldestRetained
  split <;> omega

theorem oldestRetained_mono {m n : ℕ} (h : m ≤ n) (capacity : ℕ) :
    oldestRetained m capacity ≤ oldestRetained n capacity := by
  unfold oldestRetained
  split_ifs <;> omega

theorem lt_oldestRetained {s writeSeq capacity : ℕ} (hs : 1 ≤ s) :
    s < oldestRetained writeSeq capacity ↔ s + capacity ≤ writeSeq := by
  unfold oldestRetained
  split <;> omega

theorem oldestRetained_le {s writeSeq capacity : ℕ} (hs : 1 ≤ s) :
    oldestRetained writeSeq capacity ≤ s ↔ writeSeq < s + capacity := by
  rw [← Nat.not_lt, lt_oldestRetained hs, Nat.not_le]

/-- A payload of `w` words. -/
abbrev Payload (w : ℕ) (ω : Type) : Type := Fin w → ω

/-- The word of a payload that has one. -/
def onlyWord : Fin 1 := ⟨0, Nat.zero_lt_one⟩

/-- The first of two words, or of two threads. -/
def firstOfTwo : Fin 2 := ⟨0, Nat.zero_lt_two⟩

/-- The second of two words, or of two threads. -/
def secondOfTwo : Fin 2 := ⟨1, Nat.one_lt_two⟩

/-- A slot of the ring. -/
structure Slot (w : ℕ) (ω : Type) where
  seq : ℕ
  data : Payload w ω

/-- Outcome of reading one slot. -/
inductive SlotRead (τ : Type) where
  | item (data : τ)
  | pending
  | overwritten (seen : ℕ)
  deriving DecidableEq

variable {w : ℕ} {ω : Type}

/-- What the first load decides; `none` goes on to copy the payload. -/
def readSlotFirst {τ : Type} (want s1 : ℕ) : Option (SlotRead τ) :=
  -- the mark and every older lap mean the message is not there yet
  if s1 = want then none
  else if s1 = slotWriting ∨ s1 < want then some .pending
  else some (.overwritten s1)

/-- What the second load decides about the copy `data`. -/
def readSlotSecond {τ : Type} (want s2 : ℕ) (data : τ) : SlotRead τ :=
  if s2 = want then .item data
  -- a writer took the slot during the copy; the mark says nothing about which message it writes
  else .overwritten (if s2 = slotWriting then 0 else s2)

/-- `read_slot` on a slot nobody is writing. -/
def readSlot (slot : Slot w ω) (want : ℕ) : SlotRead (Payload w ω) :=
  match readSlotFirst want slot.seq with
  | some r => r
  | none => readSlotSecond want slot.seq slot.data

theorem readSlot_eq (slot : Slot w ω) (want : ℕ) :
    readSlot slot want =
      if slot.seq = want then .item slot.data
      else if slot.seq = slotWriting ∨ slot.seq < want then .pending
      else .overwritten slot.seq := by
  unfold readSlot readSlotFirst readSlotSecond
  split_ifs <;> simp_all

/-- `write_slot` run to its end: the payload replaced, then the sequence published. -/
def writeSlot (slots : ℕ → Slot w ω) (i seq : ℕ) (item : Payload w ω) : ℕ → Slot w ω :=
  Function.update slots i ⟨seq, item⟩

/-! ## The memory accesses of `write_slot` -/

/-- Stores the word of slot `i`. -/
def storeSeq (slots : ℕ → Slot w ω) (i seq : ℕ) : ℕ → Slot w ω :=
  Function.update slots i { slots i with seq := seq }

/-- Stores word `j` of the payload of slot `i`. -/
def storeWord (slots : ℕ → Slot w ω) (i : ℕ) (j : Fin w) (x : ω) : ℕ → Slot w ω :=
  Function.update slots i { slots i with data := Function.update (slots i).data j x }

@[simp] theorem storeSeq_self (slots : ℕ → Slot w ω) (i seq : ℕ) :
    storeSeq slots i seq i = ⟨seq, (slots i).data⟩ := by
  simp [storeSeq]

@[simp] theorem storeSeq_of_ne (slots : ℕ → Slot w ω) {i j : ℕ} (seq : ℕ) (h : j ≠ i) :
    storeSeq slots i seq j = slots j := by
  simp [storeSeq, h]

@[simp] theorem storeWord_self (slots : ℕ → Slot w ω) (i : ℕ) (j : Fin w) (x : ω) :
    storeWord slots i j x i = ⟨(slots i).seq, Function.update (slots i).data j x⟩ := by
  simp [storeWord]

@[simp] theorem storeWord_of_ne (slots : ℕ → Slot w ω) {i k : ℕ} (j : Fin w) (x : ω)
    (h : k ≠ i) : storeWord slots i j x k = slots k := by
  simp [storeWord, h]

/-- A store to a sequence word leaves the payloads. -/
theorem storeSeq_data (slots : ℕ → Slot w ω) (i seq k : ℕ) :
    (storeSeq slots i seq k).data = (slots k).data := by
  rcases eq_or_ne k i with rfl | hne
  · rw [storeSeq_self]
  · rw [storeSeq_of_ne _ _ hne]

/-- A store to a payload word leaves the sequence words. -/
theorem storeWord_seq (slots : ℕ → Slot w ω) (i : ℕ) (j : Fin w) (x : ω) (k : ℕ) :
    (storeWord slots i j x k).seq = (slots k).seq := by
  rcases eq_or_ne k i with rfl | hne
  · rw [storeWord_self]
  · rw [storeWord_of_ne _ _ _ hne]

/-! ## The memory accesses of `read_slot` -/

/-- Where a thread inside `read_slot` stands. -/
inductive ReadPc (w : ℕ) (ω : Type) where
  | load
  | copy (left : Finset (Fin w)) (buf : Payload w ω)
  | done (r : SlotRead (Payload w ω))

/-- One memory access of `read_slot(want)`: `some i` copies payload word `i`, `none` loads the
slot word. -/
def ReadPc.step [Inhabited ω] (slot : Slot w ω) (want : ℕ) :
    ReadPc w ω → Option (Fin w) → Option (ReadPc w ω)
  | .load, none =>
    match readSlotFirst want slot.seq with
    | some r => some (.done r)
    | none => some (.copy Finset.univ fun _ => default)
  | .copy left buf, some i =>
    if i ∈ left then some (.copy (left.erase i) (Function.update buf i (slot.data i))) else none
  | .copy left buf, none =>
    if left = ∅ then some (.done (readSlotSecond want slot.seq buf)) else none
  | _, _ => none

/-- A message is returned when the second load shows the word that is wanted. -/
theorem ReadPc.step_item [Inhabited ω] {slot : Slot w ω} {want : ℕ} {rd : ReadPc w ω}
    {a : Option (Fin w)} {d : Payload w ω} (h : rd.step slot want a = some (.done (.item d))) :
    slot.seq = want := by
  cases rd with
  | load =>
    cases a with
    | some i => cases h
    | none =>
      simp only [ReadPc.step, readSlotFirst] at h
      split_ifs at h <;> cases h
  | copy left buf =>
    cases a with
    | some i =>
      simp only [ReadPc.step] at h
      split_ifs at h
      cases h
    | none =>
      simp only [ReadPc.step, readSlotSecond] at h
      split_ifs at h with _ heq
      · exact heq
      · cases h
      · cases h
  | done r => cases a <;> cases h

/-- What holds of a thread inside `read_slot(want)` on a slot: no version above `top` was stored
in the slot before, and `msg` gives the messages. -/
def ReadPc.Sound (msg : ℕ → Option (Payload w ω)) (top : ℕ) (slot : Slot w ω) (want : ℕ) :
    ReadPc w ω → Prop
  | .load => True
  | .copy left buf => VersionedCell.Tracks top want slot.seq slot.data buf left
  | .done r => ∀ d, r = .item d → msg want = some d

theorem ReadPc.Sound.step [Inhabited ω] {msg : ℕ → Option (Payload w ω)} {top want : ℕ}
    {slot : Slot w ω} {rd rd' : ReadPc w ω} {a : Option (Fin w)} (h : rd.Sound msg top slot want)
    (htrue : slot.seq = want → want ≤ top ∧ msg want = some slot.data)
    (hstep : rd.step slot want a = some rd') : rd'.Sound msg top slot want := by
  cases rd with
  | load =>
    cases a with
    | some i => cases hstep
    | none =>
      simp only [ReadPc.step, readSlotFirst] at hstep
      split_ifs at hstep with heq hp <;> cases hstep
      -- the first load saw `want`: from here on the copy tracks that version
      · have hs := VersionedCell.Tracks.start slot.data (fun _ => default) (htrue heq).1
        rw [← heq] at hs ⊢
        exact hs
      · rintro d ⟨⟩
      · rintro d ⟨⟩
  | copy left buf =>
    cases a with
    | some i =>
      simp only [ReadPc.step] at hstep
      split_ifs at hstep
      cases hstep
      exact VersionedCell.Tracks.copy h i
    | none =>
      simp only [ReadPc.step] at hstep
      split_ifs at hstep with hl
      cases hstep
      subst hl
      intro d hd
      unfold readSlotSecond at hd
      split_ifs at hd with heq
      cases hd
      -- the second load saw `want` again, so every word is of that version
      rw [VersionedCell.Tracks.eq_of_complete h heq]
      exact (htrue heq).2
  | done r => cases a <;> cases hstep

/-- What a thread inside `read_slot` knows survives the steps of the writers. -/
theorem ReadPc.Sound.evolves {msg msg' : ℕ → Option (Payload w ω)} {top top' want : ℕ}
    {slot slot' : Slot w ω} {rd : ReadPc w ω} (h : rd.Sound msg top slot want)
    (hwant : want ≠ slotWriting) (htop : top ≤ top')
    (hmsg : ∀ d, msg want = some d → msg' want = some d)
    (he : VersionedCell.Evolves slotWriting top slot.seq slot.data slot'.seq slot'.data) :
    rd.Sound msg' top' slot' want := by
  cases rd with
  | load => trivial
  | copy left buf => exact VersionedCell.Tracks.evolves h hwant htop he
  | done r => exact fun d hd => hmsg d (h d hd)

end Ringfire
