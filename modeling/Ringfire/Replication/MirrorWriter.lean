import Ringfire.Ring.Slot

/-!
# The writer of a mirror ring

`MirrorRing` of `replication.rs`, cut into its memory accesses. `write` marks the slot of
`next_seq`, copies the payload words in any order and stores the sequence. `write_blob` does the
same once the blob is placed, and stores the words of the blob reference a second time: the copy
brings the source's reference, `put_blob_ref` the mirror's. `publish` stores `write_seq`, and
`skip_to` only moves the write position of the process.

A writer that dies leaves the slots and `write_seq` as they are. `adopt` opens the file again and
goes on at `write_seq + 1`, whatever the slots hold.

## Main definitions

* `MirrorFile.step`: one memory access of the writer, or the start of a call
* `MirrorFile.adopt`: a writer died and another one took over

## Main results

* `MirrorFile.Move.of_step`: what a step of the writer does
* `MirrorFile.Inv.step`, `MirrorFile.Inv.adopt`: what holds of the slots, whoever died
* `MirrorFile.Ordered.step`: as long as no writer dies, a slot never falls back
-/

namespace Ringfire

variable {w : ℕ} {ω : Type}

/-- A record on its way into a slot: its words as they came from the source, the words `ref` that
are stored a second time, and what is stored there. -/
structure SlotWrite (w : ℕ) (ω : Type) where
  payload : Payload w ω
  placed : Payload w ω
  ref : Finset (Fin w)

/-- The calls of the writer, `write` and `write_blob` for the record `next_seq`. In `write_blob`
the blob is in the arena already. -/
inductive FileCall (w : ℕ) (ω : Type) where
  | write (payload : Payload w ω)
  | writeBlob (descriptor placed : Payload w ω) (ref : Finset (Fin w))
  | publish
  | skipTo (seq : ℕ)

/-- Where the writer stands. `left` is the words still to copy, `ref` those still to store a second
time. -/
inductive FilePc (w : ℕ) (ω : Type) where
  | idle
  | marking (job : SlotWrite w ω)
  | copying (job : SlotWrite w ω) (left ref : Finset (Fin w))

/-- The record being written. -/
def FilePc.job : FilePc w ω → Option (SlotWrite w ω)
  | .idle => none
  | .marking job | .copying job _ _ => some job

/-- A writer's step: the start of a call, a payload word, or whatever comes next. -/
inductive FileLabel (w : ℕ) (ω : Type) where
  | call (c : FileCall w ω)
  | word (j : Fin w)
  | tick

/-- The file of a mirror ring and the process that writes it. -/
structure MirrorFile (w : ℕ) (ω : Type) where
  slots : ℕ → Slot w ω
  writeSeq : ℕ
  nextSeq : ℕ
  pc : FilePc w ω
  /-- The sequences whose slots were marked for them, in that order. -/
  written : List ℕ

namespace MirrorFile

/-- A fresh mirror ring. -/
def create (w : ℕ) (ω : Type) [Inhabited ω] : MirrorFile w ω :=
  ⟨fun _ => ⟨0, fun _ => default⟩, 0, 1, .idle, []⟩

/-- The start of a call. Only `publish` reaches the shared memory at once. -/
def start (s : MirrorFile w ω) : FileCall w ω → Option (MirrorFile w ω)
  | .write payload =>
    if s.nextSeq < u64Max then some { s with pc := .marking ⟨payload, payload, ∅⟩ } else none
  | .writeBlob descriptor placed ref =>
    if s.nextSeq < u64Max then some { s with pc := .marking ⟨descriptor, placed, ref⟩ } else none
  | .publish => some { s with writeSeq := s.nextSeq - 1 }
  | .skipTo seq =>
    if seq ≤ u64Max then some (if s.nextSeq < seq then { s with nextSeq := seq } else s) else none

/-- One memory access of the writer. -/
def step (cap : Capacity) (s : MirrorFile w ω) (a : FileLabel w ω) : Option (MirrorFile w ω) :=
  match s.pc, a with
  | .idle, .call c => s.start c
  | .marking job, .tick =>
    some { s with
      slots := storeSeq s.slots (slotIndex cap s.nextSeq) slotWriting
      pc := .copying job Finset.univ job.ref
      written := s.written ++ [s.nextSeq] }
  | .copying job left ref, .word j =>
    if j ∈ left then
      some { s with
        slots := storeWord s.slots (slotIndex cap s.nextSeq) j (job.payload j)
        pc := .copying job (left.erase j) ref }
    -- `write_blob`: the descriptor is copied first, then its reference is replaced
    else if left = ∅ ∧ j ∈ ref then
      some { s with
        slots := storeWord s.slots (slotIndex cap s.nextSeq) j (job.placed j)
        pc := .copying job left (ref.erase j) }
    else none
  | .copying _ left ref, .tick =>
    if left = ∅ ∧ ref = ∅ then
      some { s with
        slots := storeSeq s.slots (slotIndex cap s.nextSeq) s.nextSeq
        pc := .idle
        nextSeq := s.nextSeq + 1 }
    else none
  | _, _ => none

/-- The writer died and `adopt` opened the file for the next one. -/
def adopt (s : MirrorFile w ω) : MirrorFile w ω :=
  { s with pc := .idle, nextSeq := s.writeSeq + 1 }

/-- The slot of `next_seq` is marked. -/
def storing (s : MirrorFile w ω) : Bool :=
  match s.pc with
  | .copying _ _ _ => true
  | _ => false

/-! ## What a step does -/

/-- The moves a writer's step can make. -/
inductive Move (cap : Capacity) (s s' : MirrorFile w ω) : Prop where
  | begin (job : SlotWrite w ω) (fits : s.nextSeq < u64Max) (idle : s.pc = .idle)
      (eq : s' = { s with pc := .marking job })
  | publish (idle : s.pc = .idle) (eq : s' = { s with writeSeq := s.nextSeq - 1 })
  | skip (seq : ℕ) (fits : seq ≤ u64Max) (le : s.nextSeq ≤ seq) (idle : s.pc = .idle)
      (eq : s' = { s with nextSeq := seq })
  | mark (job : SlotWrite w ω) (pc : s.pc = .marking job)
      (eq : s' = { s with
        slots := storeSeq s.slots (slotIndex cap s.nextSeq) slotWriting
        pc := .copying job Finset.univ job.ref
        written := s.written ++ [s.nextSeq] })
  | word (job : SlotWrite w ω) (left ref left' ref' : Finset (Fin w)) (j : Fin w) (x : ω)
      (pc : s.pc = .copying job left ref)
      (stored : (j ∈ left ∧ x = job.payload j ∧ left' = left.erase j ∧ ref' = ref) ∨
        (left = ∅ ∧ j ∈ ref ∧ x = job.placed j ∧ left' = left ∧ ref' = ref.erase j))
      (eq : s' = { s with
        slots := storeWord s.slots (slotIndex cap s.nextSeq) j x
        pc := .copying job left' ref' })
  | store (job : SlotWrite w ω) (pc : s.pc = .copying job ∅ ∅)
      (eq : s' = { s with
        slots := storeSeq s.slots (slotIndex cap s.nextSeq) s.nextSeq
        pc := .idle
        nextSeq := s.nextSeq + 1 })

variable {cap : Capacity} {s s' : MirrorFile w ω}

theorem Move.of_start {c : FileCall w ω} (hidle : s.pc = .idle) (hfits : s.nextSeq ≤ u64Max)
    (h : s.start c = some s') : Move cap s s' := by
  cases c with
  | write payload =>
    simp only [start] at h
    split_ifs at h with hlt
    cases h
    exact .begin _ hlt hidle rfl
  | writeBlob descriptor placed ref =>
    simp only [start] at h
    split_ifs at h with hlt
    cases h
    exact .begin _ hlt hidle rfl
  | publish =>
    cases h
    exact .publish hidle rfl
  | skipTo seq =>
    simp only [start] at h
    split_ifs at h with hseq hlt
    · cases h
      exact .skip seq hseq hlt.le hidle rfl
    · cases h
      exact .skip s.nextSeq hfits (le_refl _) hidle rfl

/-- **What a step of the writer does.** -/
theorem Move.of_step {a : FileLabel w ω} (hfits : s.nextSeq ≤ u64Max)
    (h : s.step cap a = some s') : Move cap s s' := by
  unfold step at h
  split at h
  · next hpc => exact .of_start hpc hfits h
  · next job hpc =>
    cases h
    exact .mark job hpc rfl
  · next job left ref j hpc =>
    split_ifs at h with hleft href
    · cases h
      exact .word job left ref _ _ j _ hpc (.inl ⟨hleft, rfl, rfl, rfl⟩) rfl
    · cases h
      exact .word job left ref _ _ j _ hpc (.inr ⟨href.1, href.2, rfl, rfl, rfl⟩) rfl
  · next job left ref hpc =>
    split_ifs at h with hdone
    cases h
    obtain ⟨rfl, rfl⟩ := hdone
    exact .store job hpc rfl
  · cases h

/-! ## What holds of the slots -/

/-- A slot word is `0`, the marker, or a sequence written into this slot; the slot of a write in
progress is marked. -/
structure Inv (cap : Capacity) (s : MirrorFile w ω) : Prop where
  fits : s.nextSeq ≤ u64Max
  room : s.pc ≠ .idle → s.nextSeq < u64Max
  published : s.writeSeq < s.nextSeq
  word : ∀ i, (s.slots i).seq = 0 ∨ (s.slots i).seq = slotWriting ∨
    ((s.slots i).seq ∈ s.written ∧ slotIndex cap (s.slots i).seq = i)
  marked : s.storing = true →
    (s.slots (slotIndex cap s.nextSeq)).seq = slotWriting ∧ s.nextSeq ∈ s.written

theorem Inv.create [Inhabited ω] (cap : Capacity) : (MirrorFile.create w ω).Inv cap :=
  ⟨show 1 ≤ u64Max by decide, fun h => absurd rfl h, Nat.zero_lt_one, fun _ => .inl rfl, by rintro ⟨⟩⟩

/-- **A step of the writer keeps the invariant.** -/
theorem Inv.step (h : s.Inv cap) (hmove : Move cap s s') : s'.Inv cap := by
  have hfits := h.fits
  have hpub := h.published
  cases hmove with
  | begin job fits idle eq =>
    subst eq
    exact ⟨hfits, fun _ => fits, hpub, h.word, by rintro ⟨⟩⟩
  | publish idle eq =>
    subst eq
    exact ⟨hfits, h.room, show s.nextSeq - 1 < s.nextSeq by omega, h.word, h.marked⟩
  | skip seq fits le idle eq =>
    subst eq
    -- the slots keep what they hold, the sequences skipped are holes
    refine ⟨fits, fun hpc => absurd idle hpc, hpub.trans_le le, h.word, fun hst => ?_⟩
    simp only [storing, idle] at hst
    cases hst
  | mark job pc eq =>
    subst eq
    refine ⟨hfits, fun _ => h.room (by rw [pc]; rintro ⟨⟩), hpub, fun i => ?_, fun _ => ?_⟩
    · simp only
      rcases eq_or_ne i (slotIndex cap s.nextSeq) with rfl | hi
      · rw [storeSeq_self]
        exact .inr (.inl rfl)
      · rw [storeSeq_of_ne _ _ hi]
        exact (h.word i).imp_right (Or.imp_right (And.imp_left (List.mem_append_left _)))
    · simp only
      rw [storeSeq_self]
      exact ⟨rfl, List.mem_append_right _ List.mem_cons_self⟩
  | word job left ref left' ref' j x pc stored eq =>
    subst eq
    have hmark := h.marked (by simp only [storing, pc])
    refine ⟨hfits, fun _ => h.room (by rw [pc]; rintro ⟨⟩), hpub, fun i => ?_, fun _ => ?_⟩
    · simp only
      rw [storeWord_seq]
      exact h.word i
    · simp only
      rw [storeWord_seq]
      exact hmark
  | store job pc eq =>
    subst eq
    -- the slot shows the sequence again, and the next one is due
    have hmark := h.marked (by simp only [storing, pc])
    have hroom := h.room (by rw [pc]; rintro ⟨⟩)
    refine ⟨hroom, fun hpc => absurd rfl hpc, Nat.lt_succ_of_lt hpub, fun i => ?_, by rintro ⟨⟩⟩
    simp only
    rcases eq_or_ne i (slotIndex cap s.nextSeq) with rfl | hi
    · rw [storeSeq_self]
      exact .inr (.inr ⟨hmark.2, rfl⟩)
    · rw [storeSeq_of_ne _ _ hi]
      exact h.word i

/-- **Nor does it matter where the writer died.** -/
theorem Inv.adopt (h : s.Inv cap) : s.adopt.Inv cap :=
  ⟨h.published.trans_le h.fits, fun hpc => absurd rfl hpc, Nat.lt_succ_self _, h.word, by rintro ⟨⟩⟩

/-! ## A writer that does not die -/

/-- Everything written is below the write position, apart from the write in progress, and no slot
shows less than what was written into it last. -/
structure Ordered (cap : Capacity) (s : MirrorFile w ω) : Prop where
  below : ∀ k ∈ s.written, k < s.nextSeq ∨ (k = s.nextSeq ∧ s.storing = true)
  shown : ∀ k ∈ s.written, (s.slots (slotIndex cap k)).seq = slotWriting ∨
    k ≤ (s.slots (slotIndex cap k)).seq

theorem Ordered.create [Inhabited ω] (cap : Capacity) : (MirrorFile.create w ω).Ordered cap :=
  ⟨fun _ hk => absurd hk List.not_mem_nil, fun _ hk => absurd hk List.not_mem_nil⟩

/-- While the writer is between two calls, everything written is below the write position. -/
theorem Ordered.lt_of_idle (h : s.Ordered cap) (hidle : s.pc = .idle) {k : ℕ} (hk : k ∈ s.written) :
    k < s.nextSeq := by
  rcases h.below k hk with hlt | ⟨-, hst⟩
  · exact hlt
  · simp only [storing, hidle] at hst
    cases hst

theorem Ordered.step (h : s.Ordered cap) (hmove : Move cap s s') : s'.Ordered cap := by
  cases hmove with
  | begin job fits idle eq =>
    subst eq
    exact ⟨fun k hk => .inl (h.lt_of_idle idle hk), h.shown⟩
  | publish idle eq =>
    subst eq
    exact ⟨h.below, h.shown⟩
  | skip seq fits le idle eq =>
    subst eq
    exact ⟨fun k hk => .inl ((h.lt_of_idle idle hk).trans_le le), h.shown⟩
  | mark job pc eq =>
    subst eq
    refine ⟨fun k hk => ?_, fun k hk => ?_⟩
    · rcases List.mem_append.mp hk with hk | hk
      · exact .inl ((h.below k hk).resolve_right (by simp [storing, pc]))
      · exact .inr ⟨List.mem_singleton.mp hk, rfl⟩
    · simp only
      rcases eq_or_ne (slotIndex cap k) (slotIndex cap s.nextSeq) with hi | hi
      · rw [hi, storeSeq_self]
        exact .inl rfl
      · rw [storeSeq_of_ne _ _ hi]
        rcases List.mem_append.mp hk with hk | hk
        · exact h.shown k hk
        · exact absurd (by rw [List.mem_singleton.mp hk]) hi
  | word job left ref left' ref' j x pc stored eq =>
    subst eq
    refine ⟨fun k hk => ?_, fun k hk => ?_⟩
    · exact (h.below k hk).imp_right (And.imp_right fun _ => rfl)
    · simp only
      rw [storeWord_seq]
      exact h.shown k hk
  | store job pc eq =>
    subst eq
    -- the sequence stored is the largest one written so far
    have hle : ∀ k ∈ s.written, k ≤ s.nextSeq := fun k hk =>
      (h.below k hk).elim le_of_lt fun hk => hk.1.le
    refine ⟨fun k hk => .inl (Nat.lt_succ_of_le (hle k hk)), fun k hk => ?_⟩
    simp only
    rcases eq_or_ne (slotIndex cap k) (slotIndex cap s.nextSeq) with hi | hi
    · rw [hi, storeSeq_self]
      exact .inr (hle k hk)
    · rw [storeSeq_of_ne _ _ hi]
      exact h.shown k hk

/-- The write position only moves up, and what is newly written is written there. -/
theorem Move.grows (h : Move cap s s') : s.nextSeq ≤ s'.nextSeq ∧
    ∀ k ∈ s'.written, k ∈ s.written ∨ (k = s.nextSeq ∧ ∃ job, s.pc.job = some job) := by
  cases h with
  | begin job fits idle eq =>
    subst eq
    exact ⟨le_refl _, fun k hk => .inl hk⟩
  | publish idle eq =>
    subst eq
    exact ⟨le_refl _, fun k hk => .inl hk⟩
  | skip seq fits le idle eq =>
    subst eq
    exact ⟨le, fun k hk => .inl hk⟩
  | mark job pc eq =>
    subst eq
    refine ⟨le_refl _, fun k hk => (List.mem_append.mp hk).imp_right fun hk => ?_⟩
    exact ⟨List.mem_singleton.mp hk, job, by rw [pc]; rfl⟩
  | word job left ref left' ref' j x pc stored eq =>
    subst eq
    exact ⟨le_refl _, fun k hk => .inl hk⟩
  | store job pc eq =>
    subst eq
    exact ⟨Nat.le_succ _, fun k hk => .inl hk⟩

/-- What the writer is writing it had begun, unless it begins it now. -/
theorem Move.job (h : Move cap s s') {job : SlotWrite w ω} (hjob : s'.pc.job = some job) :
    s'.nextSeq = s.nextSeq ∧ (s'.pc = .marking job ∨ s.pc.job = some job) := by
  cases h with
  | begin job₁ fits idle eq =>
    subst eq
    cases hjob
    exact ⟨rfl, .inl rfl⟩
  | publish idle eq =>
    subst eq
    exact ⟨rfl, .inr hjob⟩
  | skip seq fits le idle eq =>
    subst eq
    rw [idle] at hjob
    cases hjob
  | mark job₁ pc eq =>
    subst eq
    cases hjob
    exact ⟨rfl, .inr (by rw [pc]; rfl)⟩
  | word job₁ left ref left' ref' j x pc stored eq =>
    subst eq
    cases hjob
    exact ⟨rfl, .inr (by rw [pc]; rfl)⟩
  | store job₁ pc eq =>
    subst eq
    cases hjob

/-- A writer begins a record between two calls. -/
theorem Move.idle_of_marking (h : Move cap s s') {job : SlotWrite w ω} (hjob : s'.pc = .marking job) :
    s.pc = .idle := by
  cases h with
  | begin _ _ idle | publish idle | skip _ _ _ idle => exact idle
  | mark _ _ eq | word _ _ _ _ _ _ _ _ _ eq | store _ _ eq =>
    subst eq
    cases hjob

end MirrorFile

end Ringfire
