import Ringfire.Ring.Producer

/-!
# What the slots of a single-producer ring say

With one producer, a slot word that is neither `0` nor `slotWriting` is a sequence the producer
has stored, the payload beside it is that message, and the last `capacity` messages are all in
their slots, except the one whose slot is being overwritten; no other slot is marked. This holds
between any two memory accesses of the producer.

## Main definitions

* `Consistent`: the statement above, for the memory and the producer
* `RingProducer.message`: the message of a sequence

## Main results

* `Consistent.step`: every memory access of the producer preserves it
* `Consistent.evolves`: as seen from one slot, an access changes nothing or stores a new version
-/

namespace Ringfire

variable {w : ℕ} {ω : Type} {cap : Capacity}

/-- The message of sequence `k`: the `k`-th pushed. -/
def RingProducer.message (p : RingProducer w ω) (k : ℕ) : Option (Payload w ω) := p.pushed[k - 1]?

/-- The slot holds a message the producer has stored. -/
structure Holds (cap : Capacity) (p : RingProducer w ω) (i : ℕ) (slot : Slot w ω) : Prop where
  one_le : 1 ≤ slot.seq
  lt : slot.seq < p.seq
  index : slotIndex cap slot.seq = i
  message : p.message slot.seq = some slot.data

/-- The slots and `write_seq` tell the truth about the messages of the producer. -/
structure Consistent (cap : Capacity) (m : Shared w ω) (p : RingProducer w ω) : Prop where
  one_le : 1 ≤ p.seq
  fits : p.seq ≤ u64Max
  writeSeq : m.writeSeq < p.seq
  pushed : ∃ stored, stored.length + 1 = p.seq ∧ p.pushed = stored ++ p.todo
  word : ∀ i, (m.slots i).seq = 0 ∨ (m.slots i).seq = slotWriting ∨ Holds cap p i (m.slots i)
  retained : ∀ k, 1 ≤ k → k < p.seq → p.seq ≤ k + cap.val →
    (p.seq = k + cap.val → p.writing = none) → (m.slots (slotIndex cap k)).seq = k
  marked : ∀ item left, p.writing = some (item, left) →
    (m.slots (slotIndex cap p.seq)).seq = slotWriting ∧
      ∀ j ∉ left, (m.slots (slotIndex cap p.seq)).data j = item j
  unmarked : ∀ i, (m.slots i).seq = slotWriting → p.writing ≠ none ∧ i = slotIndex cap p.seq

variable {m m' : Shared w ω} {p p' : RingProducer w ω}

theorem RingProducer.message_append {k : ℕ} {d : Payload w ω} {items : List (Payload w ω)}
    (hp : p'.pushed = p.pushed ++ items) (h : p.message k = some d) : p'.message k = some d := by
  unfold RingProducer.message at *
  rw [hp, List.getElem?_append_left (List.getElem?_eq_some_iff.mp h).1, h]

theorem Holds.mono {i : ℕ} {slot : Slot w ω} {items : List (Payload w ω)}
    (h : Holds cap p i slot) (hseq : p.seq ≤ p'.seq) (hp : p'.pushed = p.pushed ++ items) :
    Holds cap p' i slot :=
  ⟨h.one_le, h.lt.trans_le hseq, h.index, RingProducer.message_append hp h.message⟩

namespace Consistent

/-- The slots of a freshly created ring. -/
theorem create (flowControl : FlowControl) (regs : ℕ → ReaderSlot) (data : Payload w ω) :
    Consistent cap ⟨fun _ => ⟨0, data⟩, 0, regs⟩ (.create w ω flowControl) where
  one_le := le_refl 1
  fits := show 1 ≤ u64Max by decide
  writeSeq := Nat.zero_lt_one
  pushed := ⟨[], rfl, rfl⟩
  word := fun _ => .inl rfl
  retained := fun k hk hlt => absurd hlt (Nat.not_lt.mpr hk)
  marked := by rintro item left ⟨⟩
  unmarked := fun _ h => absurd h slotWriting_pos.ne

/-- The registry has no part in it. -/
theorem setRegs (h : Consistent cap m p) (regs : ℕ → ReaderSlot) :
    Consistent cap { m with regs := regs } p :=
  ⟨h.one_le, h.fits, h.writeSeq, h.pushed, h.word, h.retained, h.marked, h.unmarked⟩

/-- The message being stored is the next of the pushed ones. -/
theorem message_seq (h : Consistent cap m p) {item : Payload w ω} {rest : List (Payload w ω)}
    (htodo : p.todo = item :: rest) : p.message p.seq = some item := by
  obtain ⟨stored, hlen, hpushed⟩ := h.pushed
  rw [RingProducer.message, hpushed, htodo, ← hlen, Nat.add_sub_cancel,
    List.getElem?_append_right (le_refl _), Nat.sub_self, List.getElem?_cons_zero]

/-- A retained message is in its slot, complete. -/
theorem slot_eq (h : Consistent cap m p) {k : ℕ} (hk : 1 ≤ k) (hlt : k < p.seq)
    (hle : p.seq ≤ k + cap.val) (hw : p.seq = k + cap.val → p.writing = none) :
    (m.slots (slotIndex cap k)).seq = k ∧
      p.message k = some (m.slots (slotIndex cap k)).data := by
  have hseq := h.retained k hk hlt hle hw
  refine ⟨hseq, ?_⟩
  rcases h.word (slotIndex cap k) with h0 | hm | hh
  · omega
  · have := h.fits
    unfold slotWriting at hm
    omega
  · have hmsg := hh.message
    rwa [hseq] at hmsg

/-- A slot that shows a message is less than a ring behind. -/
theorem le_add_of_word (h : Consistent cap m p) {k : ℕ} (hk : 1 ≤ k)
    (hword : (m.slots (slotIndex cap k)).seq = k) : p.seq ≤ k + cap.val := by
  by_contra hgt
  have hfits := h.fits
  -- the latest message of the slot is another one
  obtain ⟨q, hidx, hle, hlt, hq⟩ := exists_last_of_slot cap (show k + cap.val ≤ p.seq - 1 by omega)
  rw [slotIndex_add_capacity] at hidx
  by_cases hlast : p.seq = q + cap.val ∧ p.writing ≠ none
  · -- or it is about to be
    obtain ⟨hseq, hwriting⟩ := hlast
    obtain ⟨⟨item, left⟩, hw⟩ := Option.ne_none_iff_exists'.mp hwriting
    have hidx' : slotIndex cap p.seq = slotIndex cap k := by
      rw [← hidx, hseq, slotIndex_eq_mod, slotIndex_eq_mod, Nat.add_mod_right]
    have hmark := (h.marked item left hw).1
    rw [hidx', hword] at hmark
    unfold slotWriting at hmark
    omega
  · have hslot := h.retained q (by omega) (by omega) (by omega) fun hseq => by
      by_contra hw
      exact hlast ⟨hseq, hw⟩
    rw [hidx, hword] at hslot
    omega

/-- A message between the retained ones and the next one is not in the slot of the next one. -/
theorem slotIndex_ne {k seq : ℕ} (hlt : k < seq) (hle : seq < k + cap.val) :
    slotIndex cap k ≠ slotIndex cap seq :=
  fun heq => absurd (eq_of_slotIndex_eq heq hlt.le hle) hlt.ne

theorem quiet (h : Consistent cap m p) (hslots : m'.slots = m.slots)
    (hws : m'.writeSeq < p.seq) (hq : RingProducer.Quiet p p') : Consistent cap m' p' := by
  obtain ⟨items, hpushed, htodo⟩ := hq.accepted
  refine ⟨hq.seq ▸ h.one_le, hq.seq ▸ h.fits, hq.seq ▸ hws, ?_, fun i => ?_, ?_, ?_,
    fun i hi => ?_⟩
  · obtain ⟨stored, hlen, hst⟩ := h.pushed
    exact ⟨stored, hlen.trans hq.seq.symm, by rw [hpushed, htodo, hst, List.append_assoc]⟩
  · rw [hslots]
    exact (h.word i).imp_right (Or.imp_right fun hh => hh.mono hq.seq.ge hpushed)
  · rw [hslots, hq.seq]
    exact fun k hk hlt hle _ => h.retained k hk hlt hle fun _ => hq.idle
  · rw [hq.idle']
    rintro item left ⟨⟩
  · rw [hslots] at hi
    exact absurd hq.idle (h.unmarked i hi).1

/-- The slot of the next message is marked; no other slot changes. -/
theorem mark (h : Consistent cap m p) {item : Payload w ω} {left : Finset (Fin w)}
    (hmark : (m'.slots (slotIndex cap p.seq)).seq = slotWriting)
    (hcopied : ∀ j ∉ left, (m'.slots (slotIndex cap p.seq)).data j = item j)
    (hother : ∀ i, i ≠ slotIndex cap p.seq → m'.slots i = m.slots i)
    (hws : m'.writeSeq = m.writeSeq) (hseq : p'.seq = p.seq) (hpushed : p'.pushed = p.pushed)
    (hwriting : p'.writing = some (item, left)) (htodo : p'.todo = p.todo) :
    Consistent cap m' p' := by
  refine ⟨hseq ▸ h.one_le, hseq ▸ h.fits, by rw [hws, hseq]; exact h.writeSeq, ?_,
    fun i => ?_, fun k hk hlt hle hw => ?_, fun it l hw => ?_, fun i hi => ?_⟩
  · rw [hseq, hpushed, htodo]
    exact h.pushed
  · rcases eq_or_ne i (slotIndex cap p.seq) with rfl | hne
    · exact .inr (.inl hmark)
    · rw [hother i hne]
      exact (h.word i).imp_right (Or.imp_right fun hh =>
        hh.mono hseq.ge (hpushed.trans (List.append_nil _).symm))
  · rw [hwriting] at hw
    rw [hseq] at hlt hle hw
    -- the message a full ring back is the one being overwritten, the others stay
    have hlt' : p.seq < k + cap.val := lt_of_le_of_ne hle fun he => by cases hw he
    rw [hother _ (slotIndex_ne hlt hlt')]
    exact h.retained k hk hlt hle fun he => absurd he hlt'.ne
  · rw [hwriting] at hw
    cases hw
    rw [hseq]
    exact ⟨hmark, hcopied⟩
  · rw [hwriting, hseq]
    refine ⟨Option.some_ne_none _, ?_⟩
    by_contra hne
    rw [hother i hne] at hi
    exact hne (h.unmarked i hi).2

theorem commit (h : Consistent cap m p) {item : Payload w ω} (hfits : p.seq + 1 ≤ u64Max)
    (hslots : m'.slots = storeSeq m.slots (slotIndex cap p.seq) p.seq)
    (hws : m'.writeSeq = m.writeSeq) (hseq : p'.seq = p.seq + 1) (hpushed : p'.pushed = p.pushed)
    (hwriting : p.writing = some (item, ∅)) (hidle : p'.writing = none)
    (htodo : p.todo = item :: p'.todo) : Consistent cap m' p' := by
  obtain ⟨-, hcopied⟩ := h.marked item ∅ hwriting
  -- every word was copied before the sequence is stored
  have hdata : (m.slots (slotIndex cap p.seq)).data = item :=
    funext fun j => hcopied j (Finset.notMem_empty j)
  have hpushed' : p'.pushed = p.pushed ++ [] := hpushed.trans (List.append_nil _).symm
  have hlt_succ : p.seq < p'.seq := by omega
  refine ⟨by omega, hseq ▸ hfits, by rw [hws]; exact h.writeSeq.trans hlt_succ, ?_,
    fun i => ?_, fun k hk hlt hle _ => ?_, ?_, fun i hi => ?_⟩
  · obtain ⟨stored, hlen, hst⟩ := h.pushed
    refine ⟨stored ++ [item], by simp [hlen, hseq], ?_⟩
    rw [hpushed, hst, htodo, List.append_assoc, List.singleton_append]
  · rw [hslots]
    rcases eq_or_ne i (slotIndex cap p.seq) with rfl | hne
    · rw [storeSeq_self]
      exact .inr (.inr ⟨h.one_le, hlt_succ, rfl,
        by rw [hdata]; exact RingProducer.message_append hpushed' (h.message_seq htodo)⟩)
    · rw [storeSeq_of_ne _ _ hne]
      exact (h.word i).imp_right (Or.imp_right fun hh => hh.mono hlt_succ.le hpushed')
  · rw [hslots]
    rcases eq_or_ne k p.seq with rfl | hne
    · rw [storeSeq_self]
    · have hlt' : k < p.seq := by omega
      have hle' : p.seq < k + cap.val := by omega
      rw [storeSeq_of_ne _ _ (slotIndex_ne hlt' hle')]
      exact h.retained k hk hlt' hle'.le fun he => absurd he hle'.ne
  · rw [hidle]
    rintro it l ⟨⟩
  · rw [hslots] at hi
    rcases eq_or_ne i (slotIndex cap p.seq) with rfl | hne
    · rw [storeSeq_self] at hi
      exact absurd hi (show p.seq < slotWriting from hfits).ne
    · rw [storeSeq_of_ne _ _ hne] at hi
      exact absurd (h.unmarked i hi).2 hne

/-- **Every memory access of the producer keeps the slots truthful.** -/
theorem step (h : Consistent cap m p) (he : RingProducer.Effect cap m p m' p') :
    Consistent cap m' p' := by
  cases he with
  | quiet slots writeSeq hq => exact h.quiet slots (writeSeq ▸ h.writeSeq) hq
  | publish slots writeSeq hq =>
    have hpos := h.one_le
    exact h.quiet slots (by omega) hq
  | mark item rest slots writeSeq seq pushed idle writing' todo todo' =>
    refine h.mark ?_ ?_ ?_ writeSeq seq pushed writing' (todo'.trans todo.symm)
    · rw [slots, storeSeq_self]
    · exact fun j hj => absurd (Finset.mem_univ j) hj
    · exact fun i hne => by rw [slots, storeSeq_of_ne _ _ hne]
  | word item left j slots writeSeq seq pushed writing writing' todo' =>
    obtain ⟨hmark, hcopied⟩ := h.marked item left writing
    refine h.mark ?_ ?_ ?_ writeSeq seq pushed writing' todo'
    · rw [slots, storeWord_self, hmark]
    · intro i hi
      rw [slots, storeWord_self]
      rcases eq_or_ne i j with rfl | hne
      · simp only [Function.update_self]
      · simp only [Function.update_of_ne hne]
        exact hcopied i fun hmem => hi (Finset.mem_erase.mpr ⟨hne, hmem⟩)
    · exact fun i hne => by rw [slots, storeWord_of_ne _ _ _ hne]
  | commit item fits slots writeSeq seq pushed writing idle' todo =>
    exact h.commit fits slots writeSeq seq pushed writing idle' todo

/-- Seen from one slot, an access of the producer changes nothing, marks the slot, or stores a
sequence above every earlier one. -/
theorem evolves (h : Consistent cap m p) (he : RingProducer.Effect cap m p m' p') (i : ℕ) :
    VersionedCell.Evolves slotWriting (p.seq - 1) (m.slots i).seq (m.slots i).data
      (m'.slots i).seq (m'.slots i).data := by
  have hpos := h.one_le
  rcases eq_or_ne i (slotIndex cap p.seq) with rfl | hne
  · cases he with
    | quiet slots | publish slots => rw [slots]; exact .refl _ _ _
    | mark item rest slots => exact fun hm => absurd (by rw [slots, storeSeq_self]) hm
    | word item left j slots _ _ _ writing =>
      refine fun hm => absurd ?_ hm
      rw [slots, storeWord_self]
      exact (h.marked item left writing).1
    | commit item fits slots =>
      rw [slots, storeSeq_self]
      exact fun _ => .inr (by simp only; omega)
  · cases he with
    | quiet slots | publish slots => rw [slots]; exact .refl _ _ _
    | mark item rest slots => rw [slots, storeSeq_of_ne _ _ hne]; exact .refl _ _ _
    | word item left j slots => rw [slots, storeWord_of_ne _ _ _ hne]; exact .refl _ _ _
    | commit item fits slots => rw [slots, storeSeq_of_ne _ _ hne]; exact .refl _ _ _

end Consistent

/-- `seq` never decreases and the messages already pushed stay. -/
theorem RingProducer.Effect.mono
    (he : Effect cap m p m' p') : p.seq ≤ p'.seq ∧ ∃ items, p'.pushed = p.pushed ++ items := by
  cases he with
  | quiet _ _ hq | publish _ _ hq =>
    obtain ⟨items, hpushed, -⟩ := hq.accepted
    exact ⟨hq.seq.ge, items, hpushed⟩
  | mark _ _ _ _ seq pushed | word _ _ _ _ _ seq pushed =>
    exact ⟨seq.ge, [], pushed.trans (List.append_nil _).symm⟩
  | commit _ _ _ _ seq pushed => exact ⟨by omega, [], pushed.trans (List.append_nil _).symm⟩

/-! ## Between two calls everything is published -/

namespace RingProducer

/-- The producer has written nothing since it last published. -/
def settled (p : RingProducer w ω) : Bool :=
  match p.pc with
  | .idle => true
  | .scanActive (.tryPush _) _ _ | .scanPid (.tryPush _) _ _ | .scanCursor (.tryPush _) _ _ => true
  | .scanActive (.tryPushAgain _) _ _ | .scanPid (.tryPushAgain _) _ _
  | .scanCursor (.tryPushAgain _) _ _ => true
  | .pruneLoad (.tryPush _) _ _ | .pruneReclaim (.tryPush _) _ _ _ => true
  | _ => false

theorem enter_settled (n : ℕ) (p : RingProducer w ω) (todo : List (Payload w ω)) :
    (p.enter n todo).settled = false := by
  cases todo with
  | nil => rfl
  | cons item rest =>
    simp only [enter]
    split_ifs <;> rfl

theorem gate_settled (cap : Capacity) {p : RingProducer w ω} {k : GateReturn (Payload w ω)}
    {i : ℕ} {min : Option ℕ} (hpc : p.pc = .scanActive k i min)
    (h : (p.gate cap min k).settled = true) : p.settled = true := by
  cases k with
  | headroom item rest =>
    simp only [gate] at h
    split_ifs at h <;> cases h
  | retry item rest spins =>
    simp only [gate] at h
    split_ifs at h <;> cases h
  | tryPush item | tryPushAgain item => simp only [settled, hpc]

theorem pruned_settled {p : RingProducer w ω} {k : PruneReturn (Payload w ω)} {i n : ℕ}
    (hpc : p.pc = .pruneLoad k i n) (h : (p.pruned n k).settled = true) : p.settled = true := by
  cases k with
  | retry item rest spins => cases h
  | tryPush item => simp only [settled, hpc]

/-- What was written is published before the call returns. -/
theorem step_settled {n : ℕ} {alive : ℕ → Bool} {a : ProducerLabel w ω}
    (h : p.step cap n alive m a = some (m', p'))
    (hp : p.settled = true → m.writeSeq = p.seq - 1) (hp' : p'.settled = true) :
    m'.writeSeq = p'.seq - 1 := by
  cases step_moves h with
  | call c hpc =>
    rw [(start_quiet c hpc).seq]
    exact hp (by simp only [settled, hpc])
  | enter todo hpc =>
    rw [enter_settled] at hp'
    cases hp'
  | gate k i min hpc =>
    rw [(gate_quiet cap hpc).seq]
    exact hp (gate_settled cap hpc hp')
  | pruned k i c hpc =>
    rw [(pruned_quiet hpc).seq]
    exact hp (pruned_settled hpc hp')
  | retry item rest spins hpc =>
    unfold retry at hp'
    split_ifs at hp' <;> cases hp'
  | active k i min hpc | inactive k i min hpc | owned k i min hpc | unowned k i min hpc
  | load k i min hpc | condemn k i c hpc | spare k i c hpc | reclaim k i pid c hpc =>
    exact hp (by cases k <;> simp_all [settled])
  | blockPublish | mark | word | commit => cases hp'
  | publish => rfl

end RingProducer

end Ringfire
