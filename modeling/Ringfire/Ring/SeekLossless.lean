import Ringfire.Ring.SeekSystem

/-!
# Seeking on a lossless ring

The producer writes below `gate_limit`, and computes that limit from cursors it has seen earlier.
A reader that moves back by `seek` stores a smaller cursor, which the producer does not look at
before it reaches its limit. What the reader goes back to is safe when the limit, and what a scan
in progress will make of it, is within a ring of the new cursor; otherwise the producer may write
over it without another look at the registry.

## Main definitions

* `SeekSystem.HeldBack`: the producer does not write over the message at a cursor before it looks
  at the registry again
* `SeekSystem.SeekReturned`: a reader's `seek` has run from its call to its return

## Main results

* `SeekSystem.seek_honoured`: after a `seek` that finds the producer held back the reader receives
  every message from its cursor on, in order, and nothing counts as lapped
* `SeekSystem.seek_overwritten`: after one that does not, the message can be gone
-/

namespace Ringfire

variable {ρ κ : Type} {w : ℕ} {ω : Type}

namespace SeekSystem

/-- The producer is at most a ring ahead of `cursor`, and neither its limit nor the one that a scan
in progress will compute lets it write over the message there. `i` is the registry slot of the
reader; a scan that has not passed it yet will take the cursor in. -/
structure HeldBack (cap : Capacity) (p : RingProducer w ω) (i cursor : ℕ) : Prop where
  seq : p.seq ≤ cursor + cap.val
  limit : p.gateLimit ≤ cursor + cap.val
  scan : ∀ j min, p.scanPos = some (j, min) → i < j →
    RingProducer.limit cap p.seq min ≤ cursor + cap.val

/-- Under this label reader `r` at most receives: it does not position itself anew and is not
dropped. -/
def Receives (r : ρ) (a : SeekSystemLabel ρ κ w ω) : Prop :=
  (∀ target, a ≠ .client r (.seek target)) ∧ a ≠ .client r (.reader (.call .jumpToLatest)) ∧
    a ≠ .client r (.reader (.call .jumpToOldest)) ∧ a ≠ .drop r

/-- `seek(target)` of reader `r` has run from its call in `u` to its return in `s`. -/
def SeekReturned [DecidableEq ρ] [DecidableEq κ] [Inhabited ω] (cfg : Config) (r : ρ) (target : ℕ)
    (u s : SeekSystem ρ κ w ω) : Prop :=
  ∃ as, Transition.run (step cfg) u (.client r (.seek target) :: as) = some s ∧
    (∀ a ∈ as, ∀ b, a = .client r b → b = .reader .tick) ∧ ∃ x, s.clients r = some x ∧ x.idle

section Producer

variable {cap : Capacity} {n : ℕ} {alive : ℕ → Bool} {m m' : Shared w ω}
  {p p' : RingProducer w ω} {a : ProducerLabel w ω} {i pid cursor : ℕ}

/-- A cursor loaded later does not raise the limit. -/
theorem limit_minSeq_le (cap : Capacity) (seq : ℕ) (min : Option ℕ) (cursor : ℕ) :
    RingProducer.limit cap seq (some (RingProducer.minSeq min cursor)) ≤
      RingProducer.limit cap seq min := by
  cases min with
  | none => exact Nat.min_le_right _ _
  | some m =>
    have hle : RingProducer.minSeq (some m) cursor ≤ m := Nat.min_le_left m cursor
    exact min_le_min_right _ (Nat.add_le_add_right hle _)

/-- **The producer stays held back** by a cursor in an active slot. -/
theorem HeldBack.step (h : HeldBack cap p i cursor) (hi : i < n) (hslot : m.regs i = ⟨pid, 1, cursor⟩)
    (hpid : pid ≠ 0) (hopen : p.writes = true → p.seq < p.gateLimit ∨ n = 0)
    (hstep : p.step cap n alive m a = some (m', p')) : HeldBack cap p' i cursor := by
  have hlim := h.limit
  cases RingProducer.step_gateEffect hstep with
  | other pos pos' limit seq write =>
    refine ⟨?_, limit ▸ h.limit, fun j min hpos hlt => ?_⟩
    · rcases seq with hsame | ⟨hnext, hw⟩
      · exact hsame ▸ h.seq
      · -- a message is stored only below the limit
        have hlt := (hopen hw).resolve_right (Nat.ne_zero_of_lt hi)
        omega
    · rcases pos' with hnone | hzero
      · cases hnone.symm.trans hpos
      · cases hzero.symm.trans hpos
        exact absurd hlt (Nat.not_lt_zero i)
  | stay pos limit seq idle' pc =>
    refine ⟨seq ▸ h.seq, limit ▸ h.limit, fun j min hpos hlt => ?_⟩
    rw [seq]
    exact h.scan j min (pos ▸ hpos) hlt
  | skip j min pos pos' pc absent limit seq idle' =>
    refine ⟨seq ▸ h.seq, limit ▸ h.limit, fun j' min' hpos hlt => ?_⟩
    cases pos'.symm.trans hpos
    rw [seq]
    rcases Nat.lt_succ_iff_lt_or_eq.mp hlt with hlt | rfl
    · exact h.scan j min pos hlt
    · -- the slot of the cursor is not passed over
      rw [hslot] at absent
      exact absent.elim (absurd rfl) (fun h0 => absurd h0 hpid)
  | load k j min pc tick pos' limit seq idle' =>
    refine ⟨seq ▸ h.seq, limit ▸ h.limit, fun j' min' hpos hlt => ?_⟩
    have hpos₀ : p.scanPos = some (j, min) := by simp only [RingProducer.scanPos, pc]
    cases pos'.symm.trans hpos
    rw [seq]
    rcases Nat.lt_succ_iff_lt_or_eq.mp hlt with hlt | rfl
    · exact (limit_minSeq_le cap p.seq min _).trans (h.scan j min hpos₀ hlt)
    · rw [hslot]
      exact RingProducer.limit_le ⟨_, rfl, RingProducer.minSeq_le_right min cursor⟩
  | gate k j min pc tick last pos' limit seq write =>
    have hpos₀ : p.scanPos = some (j, min) := by simp only [RingProducer.scanPos, pc]
    refine ⟨seq ▸ h.seq, ?_, fun j' min' hpos => ?_⟩
    · rw [limit]
      exact h.scan j min hpos₀ (hi.trans_le last)
    · cases pos'.symm.trans hpos

theorem HeldBack.mono {cursor' : ℕ} (h : HeldBack cap p i cursor) (hle : cursor ≤ cursor') :
    HeldBack cap p i cursor' := by
  have hadd : cursor + cap.val ≤ cursor' + cap.val := Nat.add_le_add_right hle _
  exact ⟨h.seq.trans hadd, h.limit.trans hadd, fun j min hpos hlt =>
    (h.scan j min hpos hlt).trans hadd⟩

/-- The slot of the next message a held back reader wants is not taken by another one: once it
shows that message it does so after every step of the producer. -/
theorem word_step {want : ℕ} (h : Consistent cap m p) (hheld : HeldBack cap p' i cursor)
    (hi : n ≠ 0) (hopen : p.writes = true → p.seq < p.gateLimit ∨ n = 0)
    (hopen' : p'.writes = true → p'.seq < p'.gateLimit ∨ n = 0)
    (hheld₀ : HeldBack cap p i cursor) (hle : cursor ≤ want) (hseq : want ≤ p.seq) (hpos : 1 ≤ want)
    (hword : (m.slots (slotIndex cap want)).seq = want) (he : RingProducer.Effect cap m p m' p') :
    (m'.slots (slotIndex cap want)).seq = want := by
  have hlim := hheld.limit
  have hlim₀ := hheld₀.limit
  cases he with
  | quiet slots | publish slots =>
    rw [slots]
    exact hword
  | word item left j slots =>
    rw [slots, storeWord_seq]
    exact hword
  | mark item rest slots writeSeq seq pushed idle writing' =>
    rw [slots]
    rcases eq_or_ne (slotIndex cap want) (slotIndex cap p.seq) with heq | hne
    · have hw : p'.writes = true :=
        writes_of_writing (by rw [writing']; exact Option.some_ne_none _)
      have hlt := (hopen' hw).resolve_right hi
      have hwant : want = p.seq := eq_of_slotIndex_eq heq hseq (by omega)
      -- only the mark itself can be the word of a message that is not stored yet
      rcases h.word (slotIndex cap want) with h0 | hm | hh
      · omega
      · rw [heq, storeSeq_self]
        exact hm.symm.trans hword
      · have hlt' := hh.lt
        omega
    · rw [storeSeq_of_ne _ _ hne]
      exact hword
  | commit item fits slots writeSeq seq pushed writing =>
    rw [slots]
    rcases eq_or_ne (slotIndex cap want) (slotIndex cap p.seq) with heq | hne
    · have hw : p.writes = true :=
        writes_of_writing (by rw [writing]; exact Option.some_ne_none _)
      have hlt := (hopen hw).resolve_right hi
      have hwant : want = p.seq := eq_of_slotIndex_eq heq hseq (by omega)
      rw [heq, storeSeq_self]
      exact hwant.symm
    · rw [storeSeq_of_ne _ _ hne]
      exact hword

end Producer

/-! ## The reader -/

section Reader

variable {cap : Capacity} {slots : ℕ → Slot w ω} {writeSeq : ℕ} {c c' : RingConsumer w ω}

/-- The reader is between two calls, stores its cursor at the end of one, or reads with nothing
skipped. -/
def Calm (c : RingConsumer w ω) : Prop :=
  match c.pc with
  | .idle | .register none | .reading _ 0 _ => True
  | _ => False

/-- The slot of the cursor shows what is being copied. -/
def Copies (cap : Capacity) (slots : ℕ → Slot w ω) (c : RingConsumer w ω) : Prop :=
  ∀ call skipped left buf, c.pc = .reading call skipped (.copy left buf) →
    (slots (slotIndex cap c.cursor)).seq = c.cursor

theorem Calm.skipped_eq_zero {call : Receive} {skipped : ℕ} {rd : ReadPc w ω} (h : Calm c)
    (hpc : c.pc = .reading call skipped rd) : skipped = 0 := by
  unfold Calm at h
  rw [hpc] at h
  cases skipped with
  | zero => rfl
  | succ k => exact h.elim

theorem settle_calm (c : RingConsumer w ω) : Calm (c.settle none) := by
  unfold Calm RingConsumer.settle
  cases c.registered with
  | true => trivial
  | false => trivial

theorem settle_copies (c : RingConsumer w ω) : Copies cap slots (c.settle none) := by
  intro call skipped left buf hpc
  unfold RingConsumer.settle at hpc
  cases hreg : c.registered with
  | true => simp only [hreg, if_true] at hpc; cases hpc
  | false => simp only [hreg, Bool.false_eq_true, if_false] at hpc; cases hpc

theorem giveUp_calm (cap : Capacity) (slots : ℕ → Slot w ω) (c : RingConsumer w ω)
    (call : Receive) :
    Calm (c.giveUp call) ∧ Copies cap slots (c.giveUp call) := by
  unfold RingConsumer.giveUp
  split
  · exact ⟨trivial, by rintro _ _ _ _ ⟨⟩⟩
  · exact ⟨trivial, by rintro _ _ _ _ ⟨⟩⟩
  · exact ⟨settle_calm c, settle_copies c⟩

theorem deliver_calm (cap : Capacity) (slots : ℕ → Slot w ω) (c : RingConsumer w ω)
    (data : Payload w ω) (call : Receive) :
    Calm (c.deliver 0 data call) ∧ Copies cap slots (c.deliver 0 data call) ∧
      (c.deliver 0 data call).toAccount = c.toAccount.deliver data := by
  unfold RingConsumer.deliver
  split
  · exact ⟨settle_calm _, settle_copies _, rfl⟩
  · split_ifs
    · exact ⟨settle_calm _, settle_copies _, rfl⟩
    · exact ⟨trivial, by rintro _ _ _ _ ⟨⟩, rfl⟩

/-- **A reader that finds no newer message in its slot is not lapped**: it delivers the message at
its cursor, or does not move. -/
theorem calm_step [Inhabited ω] {a : ConsumerLabel w} {stored : Option ℕ} (hcalm : Calm c)
    (hcopies : Copies cap slots c) (hmulti : c.multiProducer = false) (hdense : c.sparse = false)
    (hnewer : (slots (slotIndex cap c.cursor)).seq = slotWriting ∨
      (slots (slotIndex cap c.cursor)).seq ≤ c.cursor)
    (hlatest : a ≠ .call .jumpToLatest) (holdest : a ≠ .call .jumpToOldest)
    (hstep : c.step cap slots writeSeq a = some (c', stored)) :
    Calm c' ∧ Copies cap slots c' ∧ (c'.toAccount = c.toAccount ∨
      ∃ d, (slots (slotIndex cap c.cursor)).seq = c.cursor ∧ c.cursor + 1 ≤ u64Max ∧
        c'.toAccount = c.toAccount.deliver d) := by
  have hread := hcalm
  unfold Calm at hcalm
  cases RingConsumer.step_moves hstep with
  | call call hpc =>
    cases call with
    | recvStatus => exact ⟨trivial, by rintro _ _ _ _ ⟨⟩, .inl rfl⟩
    | recvBatch room =>
      cases room with
      | zero =>
        refine ⟨?_, fun _ _ _ _ hpc' => ?_, .inl rfl⟩
        · simp only [RingConsumer.start, Calm, hpc]
        · simp only [RingConsumer.start, hpc] at hpc'
          cases hpc'
      | succ room => exact ⟨trivial, by rintro _ _ _ _ ⟨⟩, .inl rfl⟩
    | jumpToLatest => exact absurd rfl hlatest
    | jumpToOldest => exact absurd rfl holdest
  | word call skipped rd rd' i hpc hr =>
    obtain rfl := hread.skipped_eq_zero hpc
    refine ⟨trivial, fun _ _ _ _ hpc' => ?_, .inl rfl⟩
    cases hpc'
    -- only a copy goes on to a copy with a word
    cases rd with
    | load => cases hr
    | copy left buf => exact hcopies _ _ _ _ hpc
    | done r => cases hr
  | load call skipped rd rd' hpc hr =>
    obtain rfl := hread.skipped_eq_zero hpc
    refine ⟨trivial, fun _ _ _ _ hpc' => ?_, .inl rfl⟩
    cases hpc'
    cases rd with
    | load =>
      simp only [ReadPc.step, readSlotFirst] at hr
      split_ifs at hr with heq
      · exact heq
      · cases hr
      · cases hr
    | copy left buf => exact hcopies _ _ _ _ hpc
    | done r => cases hr
  | done call skipped rd r _ hpc hr hc =>
    obtain rfl := hread.skipped_eq_zero hpc
    cases r with
    | item data =>
      simp only [RingConsumer.afterRead] at hc
      split_ifs at hc with hfits
      cases hc
      obtain ⟨hcalm', hcopies', haccount⟩ := deliver_calm cap slots c data call
      refine ⟨hcalm', hcopies', .inr ⟨data, ?_, hfits, haccount⟩⟩
      cases rd with
      | load =>
        simp only [ReadPc.step, readSlotFirst] at hr
        split_ifs at hr <;> cases hr
      | copy left buf => exact hcopies _ _ _ _ hpc
      | done r => cases hr
    | pending =>
      simp only [RingConsumer.afterRead, hmulti, hdense, Bool.false_eq_true, if_false] at hc
      cases hc
      obtain ⟨hcalm', hcopies'⟩ := giveUp_calm cap slots c call
      exact ⟨hcalm', hcopies', .inl (RingConsumer.giveUp_account c call)⟩
    | overwritten seen =>
      -- the first load saw no newer message, the second one the message copied
      exfalso
      cases rd with
      | load =>
        simp only [ReadPc.step, readSlotFirst] at hr
        split_ifs at hr with heq hold
        · cases hr
        · cases hr
        · omega
      | copy left buf =>
        have hword := hcopies _ _ _ _ hpc
        simp only [ReadPc.step, readSlotSecond, hword, if_true] at hr
        split_ifs at hr
        cases hr
      | done r => cases hr
  | register resume hpc =>
    rw [hpc] at hcalm
    cases resume with
    | none => exact ⟨trivial, by rintro _ _ _ _ ⟨⟩, .inl rfl⟩
    | some x => exact hcalm.elim
  | skip _ _ _ _ hpc | stale _ _ hpc | hole _ _ hpc | scan _ _ _ hpc | scanNext _ _ _ _ hpc
  | found _ _ _ _ hpc =>
    rw [hpc] at hcalm
    exact hcalm.elim
  | giveUp _ _ hpc =>
    rcases hpc with hpc | hpc | ⟨ws, hpc⟩ <;> (rw [hpc] at hcalm; exact hcalm.elim)
  | jump _ hpc => rcases hpc with hpc | hpc <;> (rw [hpc] at hcalm; exact hcalm.elim)

end Reader

/-! ## After the seek -/

/-- Reader `r` since it was the consumer `c₀` and between two calls: it has received every message
from its cursor on, and the producer is held back by the cursor `p` it stored last. -/
structure Resumed (cfg : Config) (s : SeekSystem ρ κ w ω) (r : ρ) (pid i : ℕ)
    (c₀ c : RingConsumer w ω) (p : ℕ) : Prop where
  client : s.clients r = some ⟨c, none⟩
  handle : s.registry.handles r = .live pid i p
  stored : p ≤ c.cursor
  published : c.cursor ≤ s.producer.seq
  lapped : c.lappedTotal = c₀.lappedTotal
  delivered : ∃ D, c.delivered = c₀.delivered ++ D ∧
    D.map Prod.fst = List.range' c₀.cursor D.length ∧ c.cursor = c₀.cursor + D.length
  calm : Calm c
  held : s.registry.alive pid = true → HeldBack cfg.cap s.producer i p
  copies : s.registry.alive pid = true → Copies cfg.cap s.slots c

section

variable [DecidableEq ρ] [DecidableEq κ] [Inhabited ω] {cfg : Config} {s s' : SeekSystem ρ κ w ω}
  {a : SeekSystemLabel ρ κ w ω} {r : ρ} {pid i p : ℕ} {c₀ c : RingConsumer w ω}

omit [DecidableEq ρ] [DecidableEq κ] [Inhabited ω] in
/-- What an owned slot that is active says. -/
theorem Inv.slot (h : s.Inv cfg) (hlive : s.registry.handles r = .live pid i p)
    (halive : s.registry.alive pid = true) :
    i < cfg.maxReaders ∧ s.mem.regs i = ⟨pid, 1, p⟩ ∧ pid ≠ 0 := by
  obtain ⟨hi, hslot⟩ := h.registry.live hlive halive
  refine ⟨hi, hslot, ?_⟩
  rintro rfl
  cases h.registry.zero.symm.trans halive

omit [DecidableEq ρ] [DecidableEq κ] [Inhabited ω] in
/-- The producer goes on. -/
theorem Resumed.producer (hcfg : cfg.flowControl = .losslessBackpressure) (hinv : s.Inv cfg)
    (h : Resumed cfg s r pid i c₀ c p) {b : ProducerLabel w ω} {m : Shared w ω}
    {q : RingProducer w ω}
    (hq : s.producer.step cfg.cap cfg.maxReaders s.registry.alive s.mem b = some (m, q)) :
    Resumed cfg (s.setProducer m q) r pid i c₀ c p := by
  have hopen := hinv.openGate hcfg
  have hopen' := openGate_step hq (hinv.flow.trans hcfg) hopen
  have he := RingProducer.step_effect hq
  have hheld (halive : s.registry.alive pid = true) : HeldBack cfg.cap q i p := by
    obtain ⟨hi, hslot, hpid⟩ := hinv.slot h.handle halive
    exact (h.held halive).step hi hslot hpid hopen hq
  refine ⟨h.client, h.handle, h.stored, h.published.trans he.mono.1, h.lapped, h.delivered,
    h.calm, hheld, fun halive call skipped left buf hpc => ?_⟩
  obtain ⟨hi, -⟩ := hinv.slot h.handle halive
  exact word_step hinv.ring (hheld halive) (Nat.ne_zero_of_lt hi) hopen hopen' (h.held halive)
    h.stored h.published (hinv.clients r _ h.client).reader.one_le
    (h.copies halive call skipped left buf hpc) he

omit [DecidableEq κ] in
/-- The reader goes on. -/
theorem Resumed.reader (hinv : s.Inv cfg) (h : Resumed cfg s r pid i c₀ c p)
    (hacts : s.registry.acts r = true) {b : ConsumerLabel w} {c' : RingConsumer w ω}
    {stored : Option ℕ} (hlatest : b ≠ .call .jumpToLatest) (holdest : b ≠ .call .jumpToOldest)
    (hstep : c.step cfg.cap s.slots s.writeSeq b = some (c', stored)) :
    Resumed cfg (s.setClient r (s.registry.store r stored) (some ⟨c', none⟩)) r pid i c₀ c'
      (stored.getD p) := by
  have halive : s.registry.alive pid = true := by
    unfold Registry.acts at hacts
    rw [h.handle] at hacts
    exact hacts
  obtain ⟨-, hsingle, -, hreader⟩ := hinv.clients r _ h.client
  have hheld := h.held halive
  have hpos : 1 ≤ c.cursor := hreader.one_le
  -- a message a full ring later is not written before the cursor moves
  have hnewer : (s.slots (slotIndex cfg.cap c.cursor)).seq = slotWriting ∨
      (s.slots (slotIndex cfg.cap c.cursor)).seq ≤ c.cursor := by
    rcases hinv.ring.word (slotIndex cfg.cap c.cursor) with h0 | hm | hh
    · exact .inr (h0.le.trans (Nat.zero_le _))
    · exact .inl hm
    · right
      by_contra hgt
      rw [Nat.not_le] at hgt
      have hseq := hheld.seq
      have hstored := h.stored
      have hlt : (s.mem.slots (slotIndex cfg.cap c.cursor)).seq < c.cursor + cfg.cap.val :=
        hh.lt.trans_le (hseq.trans (Nat.add_le_add_right hstored _))
      exact hgt.ne (eq_of_slotIndex_eq hh.index.symm hgt.le hlt)
  obtain ⟨hcalm, hcopies, hmove⟩ := calm_step h.calm (h.copies halive) hsingle hreader.dense hnewer
    hlatest holdest hstep
  have hle : c.cursor ≤ c'.cursor := by
    rcases hmove with heq | ⟨d, -, -, heq⟩
    · rw [heq]
    · rw [heq]
      exact Nat.le_succ _
  have hstored : p ≤ stored.getD p ∧ stored.getD p ≤ c'.cursor := by
    rcases (RingConsumer.step_effect hstep).stored_eq with rfl | rfl
    · exact ⟨le_rfl, h.stored.trans hle⟩
    · exact ⟨h.stored, hle⟩
  obtain ⟨D, hD, hrange, hcursor⟩ := h.delivered
  refine ⟨Function.update_self .., Registry.store_handles h.handle, hstored.2, ?_, ?_, ?_, hcalm,
    fun _ => hheld.mono hstored.1, fun _ => hcopies⟩
  · rcases hmove with heq | ⟨d, hword, hfits, heq⟩
    · rw [heq]
      exact h.published
    · -- what was delivered had been stored
      rw [heq]
      rcases hinv.ring.word (slotIndex cfg.cap c.cursor) with h0 | hm | hh
      · exact absurd (hword.symm.trans h0) (by omega)
      · have hmax : c.cursor = slotWriting := hword.symm.trans hm
        unfold slotWriting at hmax
        omega
      · have hlt : (s.slots (slotIndex cfg.cap c.cursor)).seq < s.producer.seq := hh.lt
        rw [hword] at hlt
        exact hlt
  · rcases hmove with heq | ⟨d, -, -, heq⟩ <;> (rw [heq]; exact h.lapped)
  · rcases hmove with heq | ⟨d, -, -, heq⟩
    · rw [heq]
      exact ⟨D, hD, hrange, hcursor⟩
    · rw [heq]
      refine ⟨D ++ [(c.cursor, d)], ?_, ?_, ?_⟩
      · rw [Account.deliver, hD, List.append_assoc]
      · rw [List.map_append, hrange, List.length_append, List.length_singleton,
          ← List.range'_append_1, hcursor]
        rfl
      · rw [List.length_append, List.length_singleton, ← Nat.add_assoc, ← hcursor]
        rfl

omit [DecidableEq ρ] [DecidableEq κ] [Inhabited ω] in
/-- Something else moved, and the reader's process may have died. -/
theorem Resumed.frame (h : Resumed cfg s r pid i c₀ c p) (hclient : s'.clients r = s.clients r)
    (hhandle : s'.registry.handles r = .live pid i p) (hproducer : s'.producer = s.producer)
    (hslots : s'.slots = s.slots)
    (halive : s'.registry.alive pid = true → s.registry.alive pid = true) :
    Resumed cfg s' r pid i c₀ c p :=
  ⟨hclient.trans h.client, hhandle, h.stored, hproducer ▸ h.published, h.lapped, h.delivered,
    h.calm, fun hs => hproducer ▸ h.held (halive hs), fun hs => hslots ▸ h.copies (halive hs)⟩

/-- **Every step keeps a resumed reader going.** -/
theorem Resumed.step (hcfg : cfg.flowControl = .losslessBackpressure) (hinv : s.Inv cfg)
    (h : Resumed cfg s r pid i c₀ c p) (ha : Receives r a) (hstep : s.step cfg a = some s') :
    ∃ c' p', Resumed cfg s' r pid i c₀ c' p' := by
  obtain ⟨hseek, hlatest, holdest, hdrop⟩ := ha
  cases a with
  | producer b =>
    obtain ⟨⟨m, q⟩, hq, rfl⟩ := Option.map_eq_some_iff.mp hstep
    exact ⟨c, p, h.producer hcfg hinv hq⟩
  | registry b =>
    simp only [SeekSystem.step] at hstep
    split_ifs at hstep with hothers
    obtain ⟨g, hg, rfl⟩ := Option.map_eq_some_iff.mp hstep
    refine ⟨c, p, h.frame rfl (Registry.step_live hothers hg h.handle) rfl rfl fun hs => ?_⟩
    by_contra hdead
    rw [Bool.not_eq_true] at hdead
    cases (Registry.step_dead hg hdead).symm.trans hs
  | attach r' lappedTotal =>
    simp only [SeekSystem.step] at hstep
    split at hstep
    · next hnone hlive =>
      split_ifs at hstep
      cases hstep
      have hne : r ≠ r' := by
        rintro rfl
        cases h.client.symm.trans hnone
      exact ⟨c, p, h.frame (Function.update_of_ne hne _ _) h.handle rfl rfl id⟩
    · cases hstep
  | client r' b =>
    simp only [SeekSystem.step] at hstep
    split at hstep
    · next x hx =>
      split_ifs at hstep with hacts
      obtain ⟨⟨x', stored⟩, hx', rfl⟩ := Option.map_eq_some_iff.mp hstep
      rcases eq_or_ne r r' with rfl | hne
      · cases h.client.symm.trans hx
        cases b with
        | seek target => exact absurd rfl (hseek target)
        | reader b =>
          obtain ⟨⟨c', st⟩, hc', he⟩ := Option.map_eq_some_iff.mp hx'
          cases he
          refine ⟨c', _, h.reader hinv hacts ?_ ?_ hc'⟩
          · rintro rfl
            exact hlatest rfl
          · rintro rfl
            exact holdest rfl
      · refine ⟨c, p, h.frame (Function.update_of_ne hne _ _)
          ((Registry.store_handles_of_ne hne).trans h.handle) rfl rfl fun hs => ?_⟩
        rwa [setClient, Registry.store_alive] at hs
    · cases hstep
  | drop r' =>
    obtain ⟨g, hg, rfl⟩ := Option.map_eq_some_iff.mp hstep
    have hne : r ≠ r' := by
      rintro rfl
      exact hdrop rfl
    have hframe : g.handles r = s.registry.handles r ∧ g.alive = s.registry.alive := by
      simp only [Registry.step] at hg
      split_ifs at hg
      obtain ⟨⟨x, regs⟩, -, rfl⟩ := Option.map_eq_some_iff.mp hg
      exact ⟨Function.update_of_ne hne _ _, rfl⟩
    refine ⟨c, p, h.frame (Function.update_of_ne hne _ _) (hframe.1.trans h.handle) rfl rfl
      fun hs => ?_⟩
    rw [← hframe.2]
    exact hs

/-- **A seek is honoured when it finds the producer held back.** Reader `r` calls `seek(target)`
in a reachable state, and in the state in which the call returns the producer is held back by the
new cursor. From then on, however the producer and everybody else goes on, the reader receives the
messages from its cursor on, one after the other and none but these, and nothing counts as lapped,
until it positions itself anew. -/
theorem seek_honoured (hcfg : cfg.flowControl = .losslessBackpressure) {alive : ℕ → Bool}
    {u : SeekSystem ρ κ w ω} (hu : Transition.Reaches (step cfg) (create ρ κ w cfg alive) u)
    {target : ℕ} (hseek : SeekReturned cfg r target u s) {x : SeekingConsumer w ω}
    (hx : s.clients r = some x) (hlive : s.registry.handles r = .live pid i p)
    (hpublished : x.reader.cursor ≤ s.writeSeq)
    (hheld : HeldBack cfg.cap s.producer i x.reader.cursor)
    {as : List (SeekSystemLabel ρ κ w ω)} (has : ∀ a ∈ as, Receives r a)
    (hrun : Transition.run (step cfg) s as = some s') :
    ∃ x' D, s'.clients r = some x' ∧ x'.reader.delivered = x.reader.delivered ++ D ∧
      D.map Prod.fst = List.range' x.reader.cursor D.length ∧
      (∀ k d, (k, d) ∈ D → s'.producer.pushed[k - 1]? = some d) ∧
      x'.reader.lappedTotal = x.reader.lappedTotal := by
  obtain ⟨bs, hbs, -, y, hy, hidle⟩ := hseek
  cases hx.symm.trans hy
  have hinv : s.Inv cfg := .reaches (hu.trans ⟨_, hbs⟩)
  obtain ⟨c, seeking⟩ := x
  obtain ⟨hpc, hnone⟩ := hidle
  dsimp only at hpc hnone hpublished hheld
  subst hnone
  -- between two calls the registered cursor is the reader's
  have hp : c.cursor = p := by
    obtain ⟨-, -, ⟨pid', i', p', hlive', hsync⟩, -⟩ := hinv.clients r _ hx
    cases hlive.symm.trans hlive'
    exact hsync (by simp only [RingConsumer.synced, hpc])
  have hstart : Resumed cfg s r pid i c c p := by
    refine ⟨hx, hlive, hp.ge, hpublished.trans hinv.ring.writeSeq.le, rfl,
      ⟨[], (List.append_nil _).symm, rfl, rfl⟩, ?_, fun _ => hp ▸ hheld, fun _ => ?_⟩
    · simp only [Calm, hpc]
    · intro call skipped left buf hpc'
      cases hpc.symm.trans hpc'
  obtain ⟨hinv', c', p', hend⟩ := Transition.run_invariant
    (P := fun t => t.Inv cfg ∧ ∃ c' p', Resumed cfg t r pid i c c' p') (Q := Receives r)
    (fun ha ht hstep => ⟨ht.1.step hstep, by
      obtain ⟨hi, c', p', hc'⟩ := ht
      exact hc'.step hcfg hi ha hstep⟩) has ⟨hinv, c, p, hstart⟩ hrun
  obtain ⟨D, hD, hrange, -⟩ := hend.delivered
  refine ⟨_, D, hend.client, hD, hrange, fun k d hmem => ?_, hend.lapped⟩
  apply (hinv'.clients r _ hend.client).reader.delivered k d
  rw [hD]
  exact List.mem_append_right _ hmem

end

/-! ## Two seeks -/

/-- A lossless ring of four slots and one registered reader. -/
def fourSlots : Config := ⟨⟨4, isPowerOfTwo_four⟩, 1, .losslessBackpressure⟩

/-- `push(fun _ => x)` with `gate` memory accesses before the message is written. -/
def pushes (gate x : ℕ) : List (SeekSystemLabel Unit Unit 1 ℕ) :=
  .producer (.call (.push fun _ => x)) :: List.replicate gate (.producer .tick) ++
    .producer (.word onlyWord) :: List.replicate 3 (.producer .tick)

/-- Four messages are pushed, and a reader attaches at message `4`. -/
def joins : List (SeekSystemLabel Unit Unit 1 ℕ) :=
  pushes 4 1 ++ pushes 2 2 ++ pushes 4 3 ++ pushes 2 4 ++
    .registry (.handle () (.register 1 4)) :: List.replicate 7 (.registry (.handle () .tick)) ++
    [.attach () 0, .client () (.reader .tick)]

/-- `seek(2)`. -/
def seeksTwo : List (SeekSystemLabel Unit Unit 1 ℕ) :=
  [.client () (.seek 2), .client () (.reader .tick), .client () (.reader .tick)]

/-- `recv_status`, which copies a message after `loads` memory accesses. -/
def receives (loads : ℕ) : List (SeekSystemLabel Unit Unit 1 ℕ) :=
  .client () (.reader (.call .recvStatus)) :: List.replicate loads (.client () (.reader .tick)) ++
    [.client () (.reader (.word onlyWord)), .client () (.reader .tick), .client () (.reader .tick)]

theorem seekReturned_two {u s : SeekSystem Unit Unit 1 ℕ} {x : SeekingConsumer 1 ℕ}
    (hrun : Transition.run (step fourSlots) u seeksTwo = some s) (hx : s.clients () = some x)
    (hidle : x.idle) : SeekReturned fourSlots () 2 u s := by
  refine ⟨_, hrun, fun a ha b hb => ?_, x, hx, hidle⟩
  simp only [List.mem_cons, List.not_mem_nil, or_false, or_self] at ha
  subst ha
  cases hb
  rfl

theorem receives_of_mem {a : SeekSystemLabel Unit Unit 1 ℕ} {gate x loads : ℕ}
    (ha : a ∈ pushes gate x ++ receives loads) : Receives () a := by
  simp only [pushes, receives, List.mem_append, List.mem_cons, List.mem_replicate,
    List.not_mem_nil, or_false] at ha
  rcases ha with ((rfl | ⟨-, rfl⟩) | rfl | ⟨-, rfl⟩) | (rfl | ⟨-, rfl⟩) | rfl | rfl | rfl <;>
    exact ⟨by rintro _ ⟨⟩, by rintro ⟨⟩, by rintro ⟨⟩, by rintro ⟨⟩⟩

/-- The limit is `5` when the reader goes back to message `2`: the next push looks at the registry
again, and the reader receives message `2`. -/
theorem seek_honoured_two :
    ∃ (u s s' : SeekSystem Unit Unit 1 ℕ) (x x' : SeekingConsumer 1 ℕ)
      (D : List (ℕ × Payload 1 ℕ)),
      SeekReturned fourSlots () 2 u s ∧ s.clients () = some x ∧ x.reader.cursor = 2 ∧
      Transition.run (step fourSlots) s (pushes 6 5 ++ receives 1) = some s' ∧
      s'.clients () = some x' ∧ x'.reader.cursor = 3 ∧
      x'.reader.delivered = x.reader.delivered ++ D ∧ D.map Prod.fst = List.range' 2 D.length ∧
      x'.reader.lappedTotal = x.reader.lappedTotal := by
  obtain ⟨u, s, s', x, x', hu, hs, hs', hx, hx', hidle, hcursor, hcursor', hws, hseq, hlimit,
      hscan, hlive⟩ :
      ∃ (u s s' : SeekSystem Unit Unit 1 ℕ) (x x' : SeekingConsumer 1 ℕ),
        Transition.run (step fourSlots) (create Unit Unit 1 fourSlots fun _ => true) joins =
          some u ∧
        Transition.run (step fourSlots) u seeksTwo = some s ∧
        Transition.run (step fourSlots) s (pushes 6 5 ++ receives 1) = some s' ∧
        s.clients () = some x ∧ s'.clients () = some x' ∧ x.idle ∧ x.reader.cursor = 2 ∧
        x'.reader.cursor = 3 ∧ s.writeSeq = 4 ∧ s.producer.seq = 5 ∧ s.producer.gateLimit = 5 ∧
        s.producer.scanPos = none ∧ s.registry.handles () = .live 1 0 2 :=
    ⟨_, _, _, _, _, rfl, rfl, rfl, rfl, rfl, ⟨rfl, rfl⟩, rfl, rfl, rfl, rfl, rfl, rfl, rfl⟩
  have hheld : HeldBack fourSlots.cap s.producer 0 x.reader.cursor := by
    refine ⟨?_, ?_, fun j min hpos => ?_⟩
    · rw [hseq, hcursor]
      decide
    · rw [hlimit, hcursor]
      decide
    · cases hscan.symm.trans hpos
  have hseek := seekReturned_two hs hx hidle
  obtain ⟨y, D, hy, hD, hrange, -, hlapped⟩ := seek_honoured rfl ⟨_, hu⟩ hseek hx hlive
    (by rw [hcursor, hws]; decide) hheld (fun a ha => receives_of_mem ha) hs'
  cases hx'.symm.trans hy
  rw [hcursor] at hrange
  exact ⟨u, s, s', x, x', D, hseek, hx, hcursor, hs', hx', hcursor', hD, hrange, hlapped⟩

/-- **A seek that is not honoured.** After the fifth message the limit is `7`. The reader goes back
to message `2`, which is retained; the producer writes message `6` over it without a look at the
registry, and the reader is told that it was lapped. -/
theorem seek_overwritten :
    ∃ (u s s' : SeekSystem Unit Unit 1 ℕ) (x x' : SeekingConsumer 1 ℕ) (d : Payload 1 ℕ),
      Transition.Reaches (step fourSlots) (create Unit Unit 1 fourSlots fun _ => true) u ∧
      SeekReturned fourSlots () 2 u s ∧ s.clients () = some x ∧ x.reader.cursor = 2 ∧
      x.reader.cursor ≤ s.writeSeq ∧
      Transition.run (step fourSlots) s (pushes 2 6 ++ receives 4) = some s' ∧
      (∀ a ∈ pushes 2 6 ++ receives 4, Receives () a) ∧ s'.clients () = some x' ∧
      x.reader.delivered = [] ∧ x'.reader.delivered = [(3, d)] ∧
      x.reader.lappedTotal = 0 ∧ x'.reader.lappedTotal = 1 ∧
      x'.reader.returned = [.lapped 1 d] := by
  obtain ⟨u, s, s', x, x', d, hu, hs, hs', hx, hx', hidle, hcursor, hws, hD, hD', hl, hl', hret⟩ :
      ∃ (u s s' : SeekSystem Unit Unit 1 ℕ) (x x' : SeekingConsumer 1 ℕ) (d : Payload 1 ℕ),
        Transition.run (step fourSlots) (create Unit Unit 1 fourSlots fun _ => true)
          (joins ++ pushes 6 5) = some u ∧
        Transition.run (step fourSlots) u seeksTwo = some s ∧
        Transition.run (step fourSlots) s (pushes 2 6 ++ receives 4) = some s' ∧
        s.clients () = some x ∧ s'.clients () = some x' ∧ x.idle ∧ x.reader.cursor = 2 ∧
        s.writeSeq = 5 ∧ x.reader.delivered = [] ∧ x'.reader.delivered = [(3, d)] ∧
        x.reader.lappedTotal = 0 ∧ x'.reader.lappedTotal = 1 ∧
        x'.reader.returned = [.lapped 1 d] :=
    ⟨_, _, _, _, _, _, rfl, rfl, rfl, rfl, rfl, ⟨rfl, rfl⟩, rfl, rfl, rfl, rfl, rfl, rfl, rfl⟩
  refine ⟨u, s, s', x, x', d, ⟨_, hu⟩, seekReturned_two hs hx hidle, hx, hcursor, ?_, hs',
    fun a ha => receives_of_mem ha, hx', hD, hD', hl, hl', hret⟩
  rw [hcursor, hws]
  decide

end SeekSystem

end Ringfire
