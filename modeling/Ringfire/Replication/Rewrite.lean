import Ringfire.Blob.Receiver
import Ringfire.Replication.MirrorWriter

/-!
# Slots that are written again

A writer that takes over a mirror ring goes on at `write_seq + 1`, so it may write a sequence its
predecessor had stored already. A reader between its two loads of the slot word cannot tell: both
show the sequence it wants. What saves it is that the record written again is the same record.

`Content good` says that a slot which shows `k` holds a payload that is `good` for `k`, and that a
slot never goes back to an earlier sequence. A reader that copies a slot while it is written again
may then mix words of several good payloads (`ReadPc.Picks`), and nothing else, as long as it takes
no word that a writer is about to replace. When nothing is stored twice there is no such word
(`ReadPc.Kept`).

## Main results

* `MirrorFile.Content.step`, `MirrorFile.Content.adopt`: the slots hold good payloads
* `ReadPc.Picks.step`: so does what a reader copied, word by word
* `ReadPc.Kept.evolves`: a slot that is written again holds good words all the time
* `RingConsumer.Faithful.step`, `BlobReceiver.Faithful.step`: consumers return good payloads, in
  order
-/

namespace Ringfire

variable {w : ℕ} {ω : Type} {cap : Capacity} {good good' : ℕ → Payload w ω → Prop}

/-- A record on its way into the slot of `k`: in the end it is good, and the words that are stored
once are right from the start. -/
structure SlotWrite.For (good : ℕ → Payload w ω → Prop) (k : ℕ) (job : SlotWrite w ω) : Prop where
  good : good k job.placed
  same : ∀ j, j ∉ job.ref → job.payload j = job.placed j

namespace MirrorFile

variable {s s' : MirrorFile w ω} {k : ℕ}

/-- No sequence above `k` was written into its slot. -/
def Newest (cap : Capacity) (s : MirrorFile w ω) (k : ℕ) : Prop :=
  ∀ j ∈ s.written, slotIndex cap j = slotIndex cap k → j ≤ k

theorem Newest.of_subset (h : s'.Newest cap k) (hsub : ∀ j ∈ s.written, j ∈ s'.written) :
    s.Newest cap k :=
  fun j hj => h j (hsub j hj)

/-- The slots hold good payloads and never go back. -/
structure Content (cap : Capacity) (good : ℕ → Payload w ω → Prop) (s : MirrorFile w ω) :
    Prop where
  inv : s.Inv cap
  blank : ∀ i, (s.slots i).seq = 0 → ∀ k ∈ s.written, slotIndex cap k ≠ i
  shown : ∀ i, (s.slots i).seq ≠ 0 → (s.slots i).seq ≠ slotWriting →
    s.Newest cap (s.slots i).seq ∧ good (s.slots i).seq (s.slots i).data
  marking : ∀ job, s.pc = .marking job → job.For good s.nextSeq ∧ s.Newest cap s.nextSeq
  copying : ∀ job left ref, s.pc = .copying job left ref →
    job.For good s.nextSeq ∧ s.Newest cap s.nextSeq ∧ (left = ∅ ∨ ref = job.ref) ∧
      ∀ j, j ∉ left → j ∉ ref → (s.slots (slotIndex cap s.nextSeq)).data j = job.placed j

theorem Content.create [Inhabited ω] (cap : Capacity) (good : ℕ → Payload w ω → Prop) :
    (MirrorFile.create w ω).Content cap good where
  inv := .create cap
  blank := fun _ _ _ hk => absurd hk List.not_mem_nil
  shown := fun _ h => absurd rfl h
  marking := by rintro job ⟨⟩
  copying := by rintro job left ref ⟨⟩

theorem SlotWrite.For.mono {job : SlotWrite w ω} (h : job.For good k)
    (hgood : ∀ d, good k d → good' k d) : job.For good' k :=
  ⟨hgood _ h.good, h.same⟩

/-- What is good stays good. -/
theorem Content.mono (h : s.Content cap good) (hgood : ∀ k d, good k d → good' k d) :
    s.Content cap good' where
  inv := h.inv
  blank := h.blank
  shown := fun i h0 hm => (h.shown i h0 hm).imp_right (hgood _ _)
  marking := fun job hpc => (h.marking job hpc).imp_left (SlotWrite.For.mono · (hgood _))
  copying := by
    intro job left ref hpc
    obtain ⟨hjob, hrest⟩ := h.copying job left ref hpc
    exact ⟨SlotWrite.For.mono hjob (hgood _), hrest⟩

/-- A sequence that a slot shows is written there. -/
theorem Content.written_of_shown (h : s.Content cap good) {i : ℕ} (h0 : (s.slots i).seq ≠ 0)
    (hm : (s.slots i).seq ≠ slotWriting) :
    (s.slots i).seq ∈ s.written ∧ slotIndex cap (s.slots i).seq = i :=
  ((h.inv.word i).resolve_left h0).resolve_left hm

/-- The slot of a sequence that was written shows it or a later one, unless it is marked. -/
theorem Content.eq_of_newest (h : s.Content cap good) (hk : k ∈ s.written) (hnew : s.Newest cap k)
    (hm : (s.slots (slotIndex cap k)).seq ≠ slotWriting) : (s.slots (slotIndex cap k)).seq = k := by
  have h0 : (s.slots (slotIndex cap k)).seq ≠ 0 := fun h0 => h.blank _ h0 k hk rfl
  obtain ⟨hwritten, hidx⟩ := h.written_of_shown h0 hm
  exact le_antisymm (hnew _ hwritten hidx) ((h.shown _ h0 hm).1 k hk hidx.symm)

theorem Content.idle_step (h : s.Content cap good) (hinv : s'.Inv cap) (hslots : s'.slots = s.slots)
    (hwritten : s'.written = s.written) (hidle : s'.pc = .idle) : s'.Content cap good where
  inv := hinv
  blank := by
    rw [hslots, hwritten]
    exact h.blank
  shown := by
    unfold Newest
    rw [hslots, hwritten]
    exact h.shown
  marking := by
    rw [hidle]
    rintro job ⟨⟩
  copying := by
    rw [hidle]
    rintro job left ref ⟨⟩

/-- **A step of the writer keeps the slots good**, when every record it begins is the right one. -/
theorem Content.step (h : s.Content cap good) (hmove : Move cap s s')
    (hbegin : ∀ job, s'.pc = .marking job → job.For good s.nextSeq ∧ s.Newest cap s.nextSeq) :
    s'.Content cap good := by
  have hinv := h.inv.step hmove
  cases hmove with
  | begin job fits idle eq =>
    subst eq
    refine ⟨hinv, h.blank, h.shown, fun job' hpc => ?_, by rintro _ _ _ ⟨⟩⟩
    exact hbegin job' hpc
  | publish idle eq =>
    subst eq
    exact h.idle_step hinv rfl rfl idle
  | skip seq fits le idle eq =>
    subst eq
    exact h.idle_step hinv rfl rfl idle
  | mark job pc eq =>
    subst eq
    obtain ⟨hjob, hnew⟩ := h.marking job pc
    -- no other slot is touched, and the sequence marked is no later one of another slot
    refine ⟨hinv, fun i h0 k hk => ?_, fun i h0 hm => ?_, by rintro _ ⟨⟩, ?_⟩
    · simp only at h0
      rcases eq_or_ne i (slotIndex cap s.nextSeq) with rfl | hi
      · rw [storeSeq_self] at h0
        exact absurd h0 slotWriting_pos.ne'
      · rw [storeSeq_of_ne _ _ hi] at h0
        rcases List.mem_append.mp hk with hk | hk
        · exact h.blank i h0 k hk
        · rw [List.mem_singleton.mp hk]
          exact hi.symm
    · simp only at h0 hm ⊢
      rcases eq_or_ne i (slotIndex cap s.nextSeq) with rfl | hi
      · rw [storeSeq_self] at hm
        exact absurd rfl hm
      · rw [storeSeq_of_ne _ _ hi] at h0 hm ⊢
        obtain ⟨hnew', hgood⟩ := h.shown i h0 hm
        refine ⟨fun j hj hidx => ?_, hgood⟩
        rcases List.mem_append.mp hj with hj | hj
        · exact hnew' j hj hidx
        · rw [List.mem_singleton.mp hj, (h.written_of_shown h0 hm).2] at hidx
          exact absurd hidx.symm hi
    · rintro job' left ref ⟨⟩
      refine ⟨hjob, fun j hj hidx => ?_, .inr rfl, fun j hj => absurd (Finset.mem_univ j) hj⟩
      rcases List.mem_append.mp hj with hj | hj
      · exact hnew j hj hidx
      · rw [List.mem_singleton.mp hj]
  | word job left ref left' ref' j x pc stored eq =>
    subst eq
    obtain ⟨hjob, hnew, hphase, hdata⟩ := h.copying job left ref pc
    have hmark := (h.inv.marked (by simp only [storing, pc])).1
    refine ⟨hinv, fun i h0 k hk => ?_, fun i h0 hm => ?_, by rintro _ ⟨⟩, ?_⟩
    · simp only at h0
      rw [storeWord_seq] at h0
      exact h.blank i h0 k hk
    · simp only at h0 hm ⊢
      rcases eq_or_ne i (slotIndex cap s.nextSeq) with rfl | hi
      · rw [storeWord_self] at hm
        exact absurd hmark hm
      · rw [storeWord_of_ne _ _ _ hi] at h0 hm ⊢
        exact h.shown i h0 hm
    · rintro job' left₁ ref₁ ⟨⟩
      simp only [storeWord_self]
      rcases stored with ⟨hj, rfl, rfl, rfl⟩ | ⟨rfl, hj, rfl, rfl, rfl⟩
      · -- the first copy: what is not stored a second time is right now
        have href := hphase.resolve_left (Finset.ne_empty_of_mem hj)
        refine ⟨hjob, hnew, .inr href, fun i hi hr => ?_⟩
        rcases eq_or_ne i j with rfl | hne
        · rw [Function.update_self]
          exact hjob.same i (href ▸ hr)
        · rw [Function.update_of_ne hne]
          exact hdata i (fun hmem => hi (Finset.mem_erase.mpr ⟨hne, hmem⟩)) hr
      · refine ⟨hjob, hnew, .inl rfl, fun i hi hr => ?_⟩
        rcases eq_or_ne i j with rfl | hne
        · rw [Function.update_self]
        · rw [Function.update_of_ne hne]
          exact hdata i hi fun hmem => hr (Finset.mem_erase.mpr ⟨hne, hmem⟩)
  | store job pc eq =>
    subst eq
    obtain ⟨hjob, hnew, -, hdata⟩ := h.copying job ∅ ∅ pc
    have hwhole : (s.slots (slotIndex cap s.nextSeq)).data = job.placed :=
      funext fun j => hdata j (Finset.notMem_empty j) (Finset.notMem_empty j)
    refine ⟨hinv, fun i h0 k hk => ?_, fun i h0 hm => ?_, by rintro _ ⟨⟩, by rintro _ _ _ ⟨⟩⟩
    · simp only at h0
      rcases eq_or_ne i (slotIndex cap s.nextSeq) with rfl | hi
      · rw [storeSeq_self] at h0
        have hpub := h.inv.published
        simp only at h0
        omega
      · rw [storeSeq_of_ne _ _ hi] at h0
        exact h.blank i h0 k hk
    · simp only at h0 hm ⊢
      rcases eq_or_ne i (slotIndex cap s.nextSeq) with rfl | hi
      · rw [storeSeq_self]
        refine ⟨hnew, ?_⟩
        simp only [hwhole]
        exact hjob.good
      · rw [storeSeq_of_ne _ _ hi] at h0 hm ⊢
        exact h.shown i h0 hm

/-- **So does the death of a writer**, wherever it stood. -/
theorem Content.adopt (h : s.Content cap good) : s.adopt.Content cap good :=
  h.idle_step h.inv.adopt rfl rfl rfl

/-- Nothing that was written is forgotten. -/
theorem Move.written_subset (h : Move cap s s') : ∀ k ∈ s.written, k ∈ s'.written := by
  intro k hk
  cases h with
  | mark job pc eq =>
    subst eq
    exact List.mem_append_left _ hk
  | begin _ _ _ eq => subst eq; exact hk
  | publish _ eq => subst eq; exact hk
  | skip _ _ _ _ eq => subst eq; exact hk
  | word _ _ _ _ _ _ _ _ _ eq => subst eq; exact hk
  | store _ _ eq => subst eq; exact hk

end MirrorFile

/-! ## Readers -/

/-- The word is one of a payload that is good for `k`. -/
def GoodWord (good : ℕ → Payload w ω → Prop) (k : ℕ) (j : Fin w) (x : ω) : Prop :=
  ∃ d, good k d ∧ x = d j

/-- A payload made of words of good payloads is good. -/
def Mixes (good : ℕ → Payload w ω → Prop) : Prop :=
  ∀ k d, (∃ d', good k d') → (∀ j, GoodWord good k j (d j)) → good k d

namespace ReadPc

variable {s s' : MirrorFile w ω} {want : ℕ} {rd rd' : ReadPc w ω}

/-- What a reader of sequence `want` copied is good, word by word, unless a later sequence has been
written into the slot. -/
def Picks (cap : Capacity) (good : ℕ → Payload w ω → Prop) (s : MirrorFile w ω) (want : ℕ) :
    ReadPc w ω → Prop
  | .copy left buf => want ∈ s.written ∧
      (s.Newest cap want → ∀ j, j ∉ left → GoodWord good want j (buf j))
  | .done (.item d) => (∃ d', good want d') ∧ ∀ j, GoodWord good want j (d j)
  | _ => True

/-- What a reader copied stays good while the writers go on. -/
theorem Picks.evolves (h : rd.Picks cap good s want)
    (hsub : ∀ k ∈ s.written, k ∈ s'.written) (hgood : ∀ k d, good k d → good' k d) :
    rd.Picks cap good' s' want := by
  have hword : ∀ j x, GoodWord good want j x → GoodWord good' want j x := by
    rintro j x ⟨d, hd, rfl⟩
    exact ⟨d, hgood want d hd, rfl⟩
  cases rd with
  | load => trivial
  | copy left buf =>
    obtain ⟨hmem, hcopied⟩ := h
    exact ⟨hsub want hmem, fun hnew j hj => hword j _ (hcopied (hnew.of_subset hsub) j hj)⟩
  | done r =>
    cases r with
    | item d =>
      obtain ⟨⟨d', hd'⟩, hwords⟩ := h
      exact ⟨⟨d', hgood want d' hd'⟩, fun j => hword j _ (hwords j)⟩
    | pending => trivial
    | overwritten seen => trivial

/-- **A reader that takes only good words from a marked slot has only good words.** -/
theorem Picks.step [Inhabited ω] {a : Option (Fin w)} (h : rd.Picks cap good s want)
    (hs : s.Content cap good) (hpos : 1 ≤ want) (hwant : want ≠ slotWriting)
    (hmarked : ∀ left buf j, rd = .copy left buf → a = some j →
      (s.slots (slotIndex cap want)).seq = slotWriting → s.Newest cap want →
      GoodWord good want j ((s.slots (slotIndex cap want)).data j))
    (hstep : rd.step (s.slots (slotIndex cap want)) want a = some rd') :
    rd'.Picks cap good s want := by
  -- a slot that shows the sequence holds a good payload and nothing later
  have hshown : (s.slots (slotIndex cap want)).seq = want →
      want ∈ s.written ∧ s.Newest cap want ∧ good want (s.slots (slotIndex cap want)).data := by
    intro heq
    have h0 : (s.slots (slotIndex cap want)).seq ≠ 0 := by omega
    have hm : (s.slots (slotIndex cap want)).seq ≠ slotWriting := by
      rw [heq]
      exact hwant
    have hwritten := (hs.written_of_shown h0 hm).1
    have hgood := hs.shown _ h0 hm
    rw [heq] at hwritten hgood
    exact ⟨hwritten, hgood⟩
  cases rd with
  | load =>
    cases a with
    | some j => cases hstep
    | none =>
      simp only [ReadPc.step, readSlotFirst] at hstep
      split_ifs at hstep with heq <;> cases hstep
      · exact ⟨(hshown heq).1, fun _ j hj => absurd (Finset.mem_univ j) hj⟩
      · trivial
      · trivial
  | copy left buf =>
    obtain ⟨hmem, hcopied⟩ := h
    cases a with
    | some j =>
      simp only [ReadPc.step] at hstep
      split_ifs at hstep
      cases hstep
      refine ⟨hmem, fun hnew i hi => ?_⟩
      rcases eq_or_ne i j with rfl | hne
      · rw [Function.update_self]
        by_cases hm : (s.slots (slotIndex cap want)).seq = slotWriting
        · exact hmarked left buf i rfl rfl hm hnew
        · exact ⟨_, (hshown (hs.eq_of_newest hmem hnew hm)).2.2, rfl⟩
      · rw [Function.update_of_ne hne]
        exact hcopied hnew i fun hin => hi (Finset.mem_erase.mpr ⟨hne, hin⟩)
    | none =>
      simp only [ReadPc.step] at hstep
      split_ifs at hstep with hleft
      cases hstep
      subst hleft
      unfold readSlotSecond
      split_ifs with heq
      · exact ⟨⟨_, (hshown heq).2.2⟩, fun j => hcopied (hshown heq).2.1 j (Finset.notMem_empty j)⟩
      · trivial
      · trivial
  | done r => cases a <;> cases hstep

/-- While a reader copies the slot of `want`, the slot holds good words, unless a later sequence has
been written there. -/
def Kept (cap : Capacity) (good : ℕ → Payload w ω → Prop) (s : MirrorFile w ω) (want : ℕ) :
    ReadPc w ω → Prop
  | .copy _ _ => s.Newest cap want →
      ∀ j, GoodWord good want j ((s.slots (slotIndex cap want)).data j)
  | _ => True

/-- A copy starts with a slot that shows the sequence, and the reader's own steps change nothing. -/
theorem Kept.step [Inhabited ω] {a : Option (Fin w)} (h : rd.Kept cap good s want)
    (hs : s.Content cap good) (hpos : 1 ≤ want) (hwant : want ≠ slotWriting)
    (hstep : rd.step (s.slots (slotIndex cap want)) want a = some rd') :
    rd'.Kept cap good s want := by
  cases rd with
  | load =>
    cases a with
    | some j => cases hstep
    | none =>
      simp only [ReadPc.step, readSlotFirst] at hstep
      split_ifs at hstep with heq <;> cases hstep
      · intro _ j
        have hgood := (hs.shown (slotIndex cap want) (by omega) (by rw [heq]; exact hwant)).2
        rw [heq] at hgood
        exact ⟨_, hgood, rfl⟩
      · trivial
      · trivial
  | copy left buf =>
    cases a with
    | some j =>
      simp only [ReadPc.step] at hstep
      split_ifs at hstep
      cases hstep
      exact h
    | none =>
      simp only [ReadPc.step] at hstep
      split_ifs at hstep
      cases hstep
      trivial
  | done r => cases a <;> cases hstep

/-- **A slot that is written again holds good words all the time**, when no word is stored twice. -/
theorem Kept.evolves (h : rd.Kept cap good s want) (hpick : rd.Picks cap good s want)
    (hs : s.Content cap good) (hmove : MirrorFile.Move cap s s')
    (honce : ∀ job left ref, s.pc = .copying job left ref → job.ref = ∅) :
    rd.Kept cap good s' want := by
  cases rd with
  | load => trivial
  | done r => trivial
  | copy left buf =>
    intro hnew' i
    have hnew := hnew'.of_subset hmove.written_subset
    have hkept := h hnew i
    cases hmove with
    | begin job fits idle eq => subst eq; exact hkept
    | publish idle eq => subst eq; exact hkept
    | skip seq fits le idle eq => subst eq; exact hkept
    | mark job pc eq =>
      subst eq
      simp only
      rw [storeSeq_data]
      exact hkept
    | store job pc eq =>
      subst eq
      simp only
      rw [storeSeq_data]
      exact hkept
    | word job left' ref left₁ ref₁ j x pc stored eq =>
      subst eq
      simp only
      rcases eq_or_ne (slotIndex cap want) (slotIndex cap s.nextSeq) with hidx | hidx
      · rw [hidx, storeWord_self, ← hidx]
        simp only
        rcases eq_or_ne i j with rfl | hne
        · -- the sequence being written is the one the reader wants
          obtain ⟨hjob, hnewest, -, -⟩ := hs.copying job left' ref pc
          have hmem := (hs.inv.marked (by simp only [MirrorFile.storing, pc])).2
          have heq : want = s.nextSeq :=
            le_antisymm (hnewest want hpick.1 hidx) (hnew _ hmem hidx.symm)
          rw [Function.update_self, heq]
          refine ⟨job.placed, hjob.good, ?_⟩
          rcases stored with ⟨-, rfl, -⟩ | ⟨-, -, rfl, -⟩
          · exact hjob.same i (by rw [honce job left' ref pc]; exact Finset.notMem_empty i)
          · rfl
        · rw [Function.update_of_ne hne]
          exact hkept
      · rw [storeWord_of_ne _ _ _ hidx]
        exact hkept

theorem Kept.mono (h : rd.Kept cap good s want) (hgood : ∀ k d, good k d → good' k d) :
    rd.Kept cap good' s want := by
  cases rd with
  | load => trivial
  | done r => trivial
  | copy left buf =>
    intro hnew j
    obtain ⟨d, hd, heq⟩ := h hnew j
    exact ⟨d, hgood want d hd, heq⟩

/-- A writer's death leaves the slots alone. -/
theorem Kept.adopt (h : rd.Kept cap good s want) : rd.Kept cap good s.adopt want := by
  cases rd with
  | load => trivial
  | done r => trivial
  | copy left buf => exact h

end ReadPc

/-! ## Consumers of a ring whose records are stored once -/

namespace RingConsumer

variable {s s' : MirrorFile w ω} {c c' : RingConsumer w ω}

/-- A consumer has returned good payloads, in order, and what it is copying is good. -/
structure Faithful (cap : Capacity) (good : ℕ → Payload w ω → Prop) (s : MirrorFile w ω)
    (c : RingConsumer w ω) : Prop where
  one_le : 1 ≤ c.cursor
  ordered : c.toAccount.Ordered
  right : ∀ x ∈ c.delivered, good x.1 x.2
  reading : ∀ call skipped rd, c.pc = .reading call skipped rd → c.cursor ≠ slotWriting →
    rd.Picks cap good s c.cursor ∧ rd.Kept cap good s c.cursor
  scan : ∀ call skipped ws next, c.pc = .holeScan call skipped ws next → c.cursor < next

theorem Faithful.attach {multiProducer sparse registered : Bool} {cursor lappedTotal : ℕ}
    (h : 1 ≤ cursor) :
    (RingConsumer.attach multiProducer sparse registered cursor lappedTotal).Faithful cap good s where
  one_le := h
  ordered := .nil rfl
  right := by rintro x ⟨⟩
  reading := by
    intro call skipped rd hpc
    unfold RingConsumer.attach at hpc
    cases registered <;> cases hpc
  scan := by
    intro call skipped ws next hpc
    unfold RingConsumer.attach at hpc
    cases registered <;> cases hpc

/-- The writers go on. -/
theorem Faithful.evolves (h : c.Faithful cap good s)
    (hsub : ∀ k ∈ s.written, k ∈ s'.written) (hgood : ∀ k d, good k d → good' k d)
    (hkept : ∀ (rd : ReadPc w ω) want, rd.Picks cap good s want → rd.Kept cap good s want →
      rd.Kept cap good' s' want) : c.Faithful cap good' s' where
  one_le := h.one_le
  ordered := h.ordered
  right := fun x hx => hgood _ _ (h.right x hx)
  reading := by
    intro call skipped rd hpc hc
    obtain ⟨hpicks, hk⟩ := h.reading call skipped rd hpc hc
    exact ⟨hpicks.evolves hsub hgood, hkept rd _ hpicks hk⟩
  scan := h.scan

/-- A reader of a good slot takes good words. -/
theorem Faithful.read [Inhabited ω] (h : c.Faithful cap good s) (hs : s.Content cap good)
    {call : Receive} {skipped : ℕ} {rd rd' : ReadPc w ω} {x : Option (Fin w)}
    (hpc : c.pc = .reading call skipped rd) (hc : c.cursor ≠ slotWriting)
    (hr : rd.step (s.slots (slotIndex cap c.cursor)) c.cursor x = some rd') :
    rd'.Picks cap good s c.cursor ∧ rd'.Kept cap good s c.cursor := by
  obtain ⟨hpicks, hkept⟩ := h.reading call skipped rd hpc hc
  refine ⟨hpicks.step hs h.one_le hc (fun left buf j hcopy _ _ hnew => ?_) hr,
    hkept.step hs h.one_le hc hr⟩
  subst hcopy
  exact hkept hnew j

/-- **A step of a consumer returns a good payload.** -/
theorem Faithful.step [Inhabited ω] (h : c.Faithful cap good s) (hs : s.Content cap good)
    (hmix : Mixes good) {a : ConsumerLabel w} {stored : Option ℕ}
    (hstep : c.step cap s.slots s.writeSeq a = some (c', stored)) : c'.Faithful cap good s := by
  -- what the step delivers: words good for the cursor, so a good payload
  obtain ⟨D, L, J, hadv, hD⟩ : ∃ D L J, c.toAccount.Advance c'.toAccount D L J ∧
      ∀ x ∈ D, good x.1 x.2 := by
    cases step_effect hstep with
    | stay account =>
      rw [account]
      exact ⟨[], [], [], .refl _, by rintro x ⟨⟩⟩
    | deliver call skipped rd data pc read fits account =>
      rw [account]
      refine ⟨_, _, _, .deliver _ data, fun x hx => ?_⟩
      rw [List.mem_singleton.mp hx]
      obtain ⟨hknown, hwords⟩ := (h.read hs pc (Nat.ne_of_lt fits) read).1
      exact hmix _ _ hknown hwords
    | lap site call skipped seen pc lt account =>
      rw [account]
      exact ⟨_, _, _, .lap _ lt.le, by rintro x ⟨⟩⟩
    | hole call skipped ws next pc account =>
      rw [account]
      exact ⟨_, _, _, .lap _ (h.scan call skipped ws next pc).le, by rintro x ⟨⟩⟩
    | jump target pc lt account =>
      rw [account]
      exact ⟨_, _, _, .jump _ lt.le, by rintro x ⟨⟩⟩
  have hpc := step_leads hstep
  refine ⟨h.one_le.trans hadv.le, hadv.ordered h.ordered, fun x hx => ?_, ?_, ?_⟩
  · rw [hadv.delivered] at hx
    rcases List.mem_append.mp hx with hx | hx
    · exact h.right x hx
    · exact hD x hx
  · intro call skipped rd hrd hc
    cases hpc with
    | clear pc' =>
      rw [hrd] at pc'
      cases rd with
      | load => exact ⟨trivial, trivial⟩
      | copy left buf => exact pc'.elim
      | done r => exact pc'.elim
    | read call₁ skipped₁ rd₁ rd' x pc pc' step cursor =>
      rw [hrd] at pc'
      cases pc'
      rw [cursor] at hc ⊢
      exact h.read hs pc hc step
    | scan _ _ _ _ pc' =>
      rw [hrd] at pc'
      cases pc'
  · intro call skipped ws next hscan
    cases hpc with
    | clear pc' =>
      rw [hscan] at pc'
      exact pc'.elim
    | read _ _ _ _ _ _ pc' =>
      rw [hscan] at pc'
      cases pc'
    | scan call₁ skipped₁ ws₁ next₁ pc' cursor lt =>
      rw [hscan] at pc'
      cases pc'
      rw [cursor]
      rcases lt with hlt | ⟨prior, hprior, hlt⟩
      · exact hlt
      · exact (h.scan call skipped ws prior hprior).trans hlt

end RingConsumer

/-! ## Blob consumers -/

/-- What the descriptors of the good payloads name: `blob k` holds of the blob of record `k`, and it
is in the arena until it is lapped. -/
structure Named (acap : ArenaCapacity) (ref : Payload w ω → BlobRef)
    (good : ℕ → Payload w ω → Prop) (blob : ℕ → List UInt8 → Prop) (m : ArenaMem UInt8) :
    Prop where
  only : ∀ k bytes bytes', blob k bytes → blob k bytes' → bytes = bytes'
  named : ∀ k d, good k d → ∃ bytes, blob k bytes ∧ (ref d).len = bytes.length ∧
    PayloadArena.isInBounds acap (ref d) = true ∧
      (PayloadArena.isLapped acap m.reserved (ref d) = false → Stored acap m (ref d) bytes ∅)

namespace BlobReceiver

variable {acap : ArenaCapacity} {ref : Payload w ω → BlobRef} {blob blob' : ℕ → List UInt8 → Prop}
  {s s' : MirrorFile w ω} {m m' : ArenaMem UInt8} {c c' : BlobReceiver w ω}

/-- What a blob consumer knows where it stands. -/
def Knows (cap : Capacity) (acap : ArenaCapacity) (ref : Payload w ω → BlobRef)
    (good : ℕ → Payload w ω → Prop) (blob : ℕ → List UInt8 → Prop) (s : MirrorFile w ω)
    (m : ArenaMem UInt8) (cursor : ℕ) : ReceiverPc w ω → Prop
  | .reading _ _ rd => cursor ≠ slotWriting → rd.Picks cap good s cursor
  | .lapCheck _ _ packet => good cursor packet
  | .view _ _ packet rd => good cursor packet ∧ ∃ bytes, blob cursor bytes ∧
      (ref packet).len = bytes.length ∧ rd.Sound acap m (ref packet) bytes
  | .hole _ _ pc => pc.Scanned cap cursor
  | _ => True

/-- A blob consumer has returned good packets with the right blobs, in order. -/
structure Faithful (cap : Capacity) (acap : ArenaCapacity) (ref : Payload w ω → BlobRef)
    (good : ℕ → Payload w ω → Prop) (blob : ℕ → List UInt8 → Prop) (s : MirrorFile w ω)
    (m : ArenaMem UInt8) (c : BlobReceiver w ω) : Prop where
  one_le : 1 ≤ c.cursor
  ordered : c.toAccount.Ordered
  right : ∀ x ∈ c.delivered, good x.1 x.2.1 ∧ blob x.1 x.2.2
  pc : Knows cap acap ref good blob s m c.cursor c.pc

theorem Faithful.attach {sparse : Bool} {cursor lappedTotal : ℕ} (h : 1 ≤ cursor) :
    (BlobReceiver.attach sparse cursor lappedTotal).Faithful cap acap ref good blob s m :=
  ⟨h, .nil rfl, by rintro x ⟨⟩, trivial⟩

/-- The writers go on. -/
theorem Faithful.evolves (h : c.Faithful cap acap ref good blob s m)
    (hsub : ∀ k ∈ s.written, k ∈ s'.written) (hgood : ∀ k d, good k d → good' k d)
    (hblob : ∀ k bytes, blob k bytes → blob' k bytes) (hle : m.reserved ≤ m'.reserved) :
    c.Faithful cap acap ref good' blob' s' m' := by
  refine ⟨h.one_le, h.ordered,
    fun x hx => (h.right x hx).imp (hgood _ _) (hblob _ _), ?_⟩
  have hpc := h.pc
  unfold Knows at hpc ⊢
  split at hpc
  · exact fun hc => (hpc hc).evolves hsub hgood
  · exact hgood _ _ hpc
  · obtain ⟨hpacket, bytes, hbytes, hlen, hsound⟩ := hpc
    exact ⟨hgood _ _ hpacket, bytes, hblob _ _ hbytes, hlen, hsound.mono hle⟩
  · exact hpc
  · trivial

/-- A step that moves the cursor up without returning a message. -/
theorem Faithful.lapTo (h : c.Faithful cap acap ref good blob s m) {room : Option ℕ}
    {skipped target : ℕ} (hlt : c.cursor < target) :
    (c.lapTo room skipped target).Faithful cap acap ref good blob s m := by
  have hadv := Account.Advance.lap c.toAccount hlt.le
  exact ⟨h.one_le.trans hlt.le, hadv.ordered h.ordered, h.right, fun _ => trivial⟩

/-- **A step of a blob consumer returns a good packet with the right blob**, when it takes only good
words from a marked slot. -/
theorem Faithful.step [Inhabited ω] (h : c.Faithful cap acap ref good blob s m)
    (hs : s.Content cap good) (hmix : Mixes good) (hnamed : Named acap ref good blob m)
    {a : ReceiverLabel w}
    (hmarked : ∀ j, a = .word j → (s.slots (slotIndex cap c.cursor)).seq = slotWriting →
      s.Newest cap c.cursor → GoodWord good c.cursor j ((s.slots (slotIndex cap c.cursor)).data j))
    (hstep : c.step cap acap ref ⟨s.slots, s.writeSeq, m⟩ a = some c') :
    c'.Faithful cap acap ref good blob s m := by
  have hpc := h.pc
  cases step_effect hstep with
  | rest account pc =>
    refine ⟨by rw [account]; exact h.one_le, by rw [account]; exact h.ordered,
      by rw [account]; exact h.right, ?_⟩
    rcases pc with pc | ⟨room, skipped, pc⟩ | ⟨room, skipped, seen, pc⟩ | ⟨room, skipped, pc⟩
    · rw [pc]
      trivial
    · rw [pc]
      exact fun _ => trivial
    · rw [pc]
      trivial
    · rw [pc]
      trivial
  | lap room skipped target next lt =>
    rw [next]
    apply h.lapTo
    rcases lt with hlt | ⟨room, skipped, ws, examined, pc⟩
    · exact hlt
    · rw [pc] at hpc
      exact hpc.2.1
  | read room skipped rd rd' x pc label step next =>
    rw [pc] at hpc
    rw [next]
    refine ⟨h.one_le, h.ordered, h.right, fun hc => ?_⟩
    exact (hpc hc).step hs h.one_le hc (fun left buf j _ hx => hmarked j (label j hx)) step
  | packet room skipped rd packet pc step fits next =>
    rw [pc] at hpc
    rw [next]
    have hc : c.cursor ≠ slotWriting := Nat.ne_of_lt fits
    -- the last load does not copy anything
    have hpicks := (hpc hc).step hs h.one_le hc (by rintro _ _ _ _ ⟨⟩) step
    exact ⟨h.one_le, h.ordered, h.right, hmix _ _ hpicks.1 hpicks.2⟩
  | view room skipped packet pc next =>
    rw [pc] at hpc
    rw [next]
    obtain ⟨bytes, hbytes, hlen, -, -⟩ := hnamed.named _ _ hpc
    exact ⟨h.one_le, h.ordered, h.right, hpc, bytes, hbytes, hlen, .start m hlen⟩
  | copy room skipped packet rd rd' x pc step next =>
    rw [pc] at hpc
    rw [next]
    obtain ⟨hpacket, bytes, hbytes, hlen, hsound⟩ := hpc
    obtain ⟨bytes', hbytes', -, hbounds, hstored⟩ := hnamed.named _ _ hpacket
    obtain rfl := hnamed.only _ _ _ hbytes hbytes'
    exact ⟨h.one_le, h.ordered, h.right, hpacket, bytes, hbytes, hlen,
      hsound.step hlen hbounds hstored step⟩
  | deliver room skipped packet rd x buf pc step next =>
    rw [pc] at hpc
    rw [next]
    obtain ⟨hpacket, bytes, hbytes, hlen, hsound⟩ := hpc
    obtain ⟨bytes', hbytes', -, hbounds, hstored⟩ := hnamed.named _ _ hpacket
    obtain rfl := hnamed.only _ _ _ hbytes hbytes'
    have hcopy := (hsound.step hlen hbounds hstored step).eq_bytes hlen
    have hadv := Account.Advance.deliver c.toAccount (packet, (List.range (ref packet).len).map buf)
    refine ⟨Nat.succ_pos _, hadv.ordered h.ordered, fun y hy => ?_, trivial⟩
    rw [hadv.delivered] at hy
    rcases List.mem_append.mp hy with hy | hy
    · exact h.right y hy
    · rw [List.mem_singleton.mp hy]
      simp only [hcopy]
      exact ⟨hpacket, hbytes⟩
  | scan room skipped pc pc' old step next =>
    rw [old] at hpc
    rw [next]
    exact ⟨h.one_le, h.ordered, h.right, hpc.step step⟩

end BlobReceiver

end Ringfire
