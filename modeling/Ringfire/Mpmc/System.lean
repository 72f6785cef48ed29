import Ringfire.Foundation.Transition
import Ringfire.Mpmc.Producer
import Ringfire.Ring.View

/-!
# The multi-producer ring as a system

Any number of producers running `MpmcProducer::push` and any number of broadcast readers
(`RingConsumer`), each taking one memory access at a time in any order. A producer may stop for
ever at any point: a run need not schedule it again. These rings have no reader registry.

## Main definitions

* `MpmcSystem.step`: one memory access of one thread
* `MpmcSystem.view`: what the readers see

## Main results

* `MpmcSystem.Inv.reaches`: in every reachable state a slot has at most one owner, no ticket is
  held twice, and the slot words are truthful
* `MpmcSystem.Inv.lapped`: a slot that went past a ticket was claimed again a full ring later
-/

namespace Ringfire

/-- A broadcast reader of a multi-producer ring. -/
inductive MpmcReader (w : ℕ) (ω : Type) where
  | absent
  | opening (start : StartPosition)
  | attached (c : RingConsumer w ω)

/-- The producers, the readers and the memory they share. -/
structure MpmcSystem (π ρ : Type) (w : ℕ) (ω : Type) where
  mem : MpmcShared w ω
  producers : π → MpmcPc w ω
  readers : ρ → MpmcReader w ω

/-- Who moves. -/
inductive MpmcSystemLabel (π ρ : Type) (w : ℕ) (ω : Type) where
  | producer (p : π) (a : MpmcLabel w ω)
  | attach (r : ρ) (start : StartPosition)
  | reader (r : ρ) (a : ConsumerLabel w)

variable {π ρ : Type} {w : ℕ} {ω : Type}

/-- One memory access of a reader. -/
def MpmcReader.step [Inhabited ω] (cap : Capacity) (m : MpmcShared w ω) :
    MpmcReader w ω → ConsumerLabel w → Option (MpmcReader w ω)
  | opening start, .tick =>
    if (resolveStart cap m.writeSeq start).1 ≤ u64Max then
      some (attached (RingConsumer.attach true false false (resolveStart cap m.writeSeq start).1
        (resolveStart cap m.writeSeq start).2))
    else none
  | attached c, a => (c.step cap m.slots m.writeSeq a).map fun (c', _) => attached c'
  | _, _ => none

namespace MpmcSystem

/-- A freshly created ring, idle producers and no reader. -/
def create [Inhabited ω] (π ρ : Type) (w : ℕ) : MpmcSystem π ρ w ω where
  mem := .create fun _ => default
  producers := fun _ => .idle
  readers := fun _ => .absent

/-- One memory access of one thread. -/
def step [DecidableEq π] [DecidableEq ρ] [Inhabited ω] (cap : Capacity)
    (s : MpmcSystem π ρ w ω) : MpmcSystemLabel π ρ w ω → Option (MpmcSystem π ρ w ω)
  | .producer p a =>
    match (s.producers p).step cap s.mem a with
    | some (mem, pc) => some { s with mem := mem, producers := Function.update s.producers p pc }
    | none => none
  | .attach r start =>
    match s.readers r with
    | .absent => some { s with readers := Function.update s.readers r (.opening start) }
    | _ => none
  | .reader r a =>
    match (s.readers r).step cap s.mem a with
    | some x => some { s with readers := Function.update s.readers r x }
    | none => none

end MpmcSystem

/-- What the readers see: the memory, and what was stored so far. -/
def MpmcShared.view (m : MpmcShared w ω) : View w ω where
  slots := m.slots
  writeSeq := m.writeSeq
  stored k := k ∈ m.stored
  top := m.top
  message := m.items

/-! ## The invariant -/

/-- Ticket `seq` was claimed for `item`, which is not stored yet. -/
structure Ticket (m : MpmcShared w ω) (seq : ℕ) (item : Payload w ω) : Prop where
  one_le : 1 ≤ seq
  lt : seq < m.claimSeq
  fresh : seq ∉ m.stored
  item : m.items seq = some item

/-- What holds of the memory. -/
structure MpmcShared.Inv (cap : Capacity) (m : MpmcShared w ω) : Prop where
  one_le : 1 ≤ m.claimSeq
  fits : m.claimSeq ≤ u64Max
  unclaimed : ∀ k, m.claimSeq ≤ k → m.items k = none
  stored : ∀ k ∈ m.stored, 1 ≤ k ∧ k < m.claimSeq
  writeSeq : m.writeSeq = 0 ∨ m.writeSeq ∈ m.stored
  word : ∀ i, (m.slots i).seq ≠ slotWriting → (m.slots i).seq = m.top i ∧
    ((m.slots i).seq = 0 ∨ ((m.slots i).seq ∈ m.stored ∧ slotIndex cap (m.slots i).seq = i ∧
      m.items (m.slots i).seq = some (m.slots i).data))

/-- What holds of a producer. -/
def MpmcPc.Inv (cap : Capacity) (m : MpmcShared w ω) : MpmcPc w ω → Prop
  | .idle => True
  | .load seq item _ => Ticket m seq item
  | .cas seq item _ cur => Ticket m seq item ∧ cur ≠ slotWriting ∧ cur ≤ seq
  | .copy seq item left => Ticket m seq item ∧
      (m.slots (slotIndex cap seq)).seq = slotWriting ∧ m.top (slotIndex cap seq) < seq ∧
      ∀ j ∉ left, (m.slots (slotIndex cap seq)).data j = item j
  | .publish seq => seq ∈ m.stored

/-- Two producers hold different tickets and own different slots. -/
structure MpmcPc.Apart (cap : Capacity) (p q : MpmcPc w ω) : Prop where
  ticket : ∀ k, p.ticket = some k → q.ticket ≠ some k
  owns : ∀ i, p.owns cap = some i → q.owns cap ≠ some i

theorem MpmcPc.Apart.symm {cap : Capacity} {p q : MpmcPc w ω} (h : Apart cap p q) :
    Apart cap q p :=
  ⟨fun k hq hp => h.ticket k hp hq, fun i hq hp => h.owns i hp hq⟩

variable {cap : Capacity} {m m' : MpmcShared w ω} {pc pc' q : MpmcPc w ω}

theorem MpmcShared.Inv.truthful (h : m.Inv cap) : m.view.Truthful where
  writeSeq := h.writeSeq
  word i := by
    by_cases hm : (m.slots i).seq = slotWriting
    · exact .inr (.inl hm)
    · obtain ⟨htop, h0 | ⟨hst, -, hit⟩⟩ := h.word i hm
      · exact .inl h0
      · exact .inr (.inr ⟨hst, htop.le, hit⟩)

theorem Ticket.ne_slotWriting {seq : ℕ} {item : Payload w ω} (h : Ticket m seq item)
    (hm : m.Inv cap) : seq < slotWriting :=
  h.lt.trans_le hm.fits

/-- The slot a producer is about to own shows an older ticket than its own. -/
theorem Ticket.top_lt {seq cur : ℕ} {item : Payload w ω} (h : Ticket m seq item) (hm : m.Inv cap)
    (hcur : cur ≠ slotWriting) (hle : cur ≤ seq) (hseen : (m.slots (slotIndex cap seq)).seq = cur) :
    m.top (slotIndex cap seq) < seq := by
  obtain ⟨htop, hword⟩ := hm.word (slotIndex cap seq) (hseen ▸ hcur)
  rw [← htop, hseen]
  refine lt_of_le_of_ne hle fun heq => ?_
  rcases hword with h0 | ⟨hst, -, -⟩
  · have := h.one_le
    omega
  · rw [hseen, heq] at hst
    exact h.fresh hst

namespace MpmcPc.Effect

/-- A producer's step keeps the memory's invariant. -/
theorem mem_inv (he : Effect cap m pc m' pc') (hm : m.Inv cap) (hpc : pc.Inv cap m) :
    m'.Inv cap := by
  cases he with
  | claim item fits =>
    refine ⟨Nat.le_succ_of_le hm.one_le, fits, fun k hk => ?_, fun k hk => ?_, hm.writeSeq,
      fun i hi => ?_⟩
    -- the ticket just taken is the only one that changed
    · have hlt : m.claimSeq < k := hk
      simp only [Function.update_of_ne hlt.ne']
      exact hm.unclaimed k hlt.le
    · exact ⟨(hm.stored k hk).1, (hm.stored k hk).2.trans (Nat.lt_succ_self _)⟩
    · refine (hm.word i hi).imp_right (Or.imp_right fun hw => ⟨hw.1, hw.2.1, ?_⟩)
      simp only
      rw [Function.update_of_ne (hm.stored _ hw.1).2.ne]
      exact hw.2.2
  | drop | wait | see | miss => exact hm
  | own seq item stalled cur seen =>
    refine ⟨hm.one_le, hm.fits, hm.unclaimed, hm.stored, hm.writeSeq, fun i hi => ?_⟩
    rcases eq_or_ne i (slotIndex cap seq) with rfl | hne
    · simp only [storeSeq_self, ne_eq, not_true_eq_false] at hi
    · simp only [storeSeq_of_ne _ _ hne] at hi ⊢
      exact hm.word i hi
  | word seq item left j mem =>
    refine ⟨hm.one_le, hm.fits, hm.unclaimed, hm.stored, hm.writeSeq, fun i hi => ?_⟩
    rcases eq_or_ne i (slotIndex cap seq) with rfl | hne
    · simp only [storeWord_self] at hi
      exact absurd hpc.2.1 hi
    · simp only [storeWord_of_ne _ _ _ hne] at hi ⊢
      exact hm.word i hi
  | commit seq item =>
    obtain ⟨htk, -, -, hcopied⟩ := hpc
    refine ⟨hm.one_le, hm.fits, hm.unclaimed, fun k hk => ?_, ?_, fun i hi => ?_⟩
    · rcases List.mem_append.mp hk with hk | hk
      · exact hm.stored k hk
      · rw [List.mem_singleton.mp hk]
        exact ⟨htk.one_le, htk.lt⟩
    · exact hm.writeSeq.imp_right (List.mem_append_left _)
    · rcases eq_or_ne i (slotIndex cap seq) with rfl | hne
      -- the last word was copied before
      · have hdata : (m.slots (slotIndex cap seq)).data = item :=
          funext fun j => hcopied j (Finset.notMem_empty j)
        simp only [storeSeq_self, Function.update_self, hdata]
        exact ⟨trivial, .inr ⟨List.mem_append_right _ (List.mem_singleton_self _), trivial, htk.item⟩⟩
      · simp only [storeSeq_of_ne _ _ hne, Function.update_of_ne hne] at hi ⊢
        exact (hm.word i hi).imp_right
          (Or.imp_right fun hw => ⟨List.mem_append_left _ hw.1, hw.2⟩)
  | publish seq =>
    refine ⟨hm.one_le, hm.fits, hm.unclaimed, hm.stored, ?_, hm.word⟩
    simp only
    rcases max_choice m.writeSeq seq with hmax | hmax
    · rw [hmax]
      exact hm.writeSeq
    · rw [hmax]
      exact .inr hpc

/-- A producer's step keeps its own invariant. -/
theorem pc_inv (he : Effect cap m pc m' pc') (hm : m.Inv cap) (hpc : pc.Inv cap m) :
    pc'.Inv cap m' := by
  cases he with
  | claim item fits =>
    -- nothing was stored under a ticket that nobody had
    refine ⟨hm.one_le, Nat.lt_succ_self _, fun hst => ?_, Function.update_self _ _ _⟩
    exact absurd (hm.stored _ hst).2 (Nat.lt_irrefl _)
  | drop => trivial
  | wait => exact hpc
  | see seq item stalled cur seen old =>
    have hlt := hpc.ne_slotWriting hm
    refine ⟨hpc, ?_⟩
    rcases old with rfl | hold
    · exact ⟨by omega, Nat.sub_le _ _⟩
    · exact hold
  | miss => exact hpc.1
  | own seq item stalled cur seen =>
    obtain ⟨htk, hcur, hle⟩ := hpc
    -- a lap that was in the slot is an older one
    refine ⟨⟨htk.one_le, htk.lt, htk.fresh, htk.item⟩, ?_, htk.top_lt hm hcur hle seen, ?_⟩
    · simp only [storeSeq_self]
    · exact fun j hj => absurd (Finset.mem_univ j) hj
  | word seq item left j mem =>
    obtain ⟨htk, hmark, htop, hcopied⟩ := hpc
    refine ⟨⟨htk.one_le, htk.lt, htk.fresh, htk.item⟩, ?_, htop, fun i hi => ?_⟩
    · simp only [storeWord_self, hmark]
    · simp only [storeWord_self]
      rcases eq_or_ne i j with rfl | hne
      · simp only [Function.update_self]
      · simp only [Function.update_of_ne hne]
        exact hcopied i fun hmem => hi (Finset.mem_erase.mpr ⟨hne, hmem⟩)
  | commit seq item => exact List.mem_append_right _ (List.mem_singleton_self _)
  | publish => trivial

/-- A change confined to one slot leaves a producer that owns another slot alone. -/
theorem inv_of_slot_eq (hclaim : m'.claimSeq = m.claimSeq) (hstored : m'.stored = m.stored)
    (hitems : m'.items = m.items) (htop : m'.top = m.top)
    (hslots : ∀ i, q.owns cap = some i → m'.slots i = m.slots i) (hq : q.Inv cap m) :
    q.Inv cap m' := by
  have htk {seq : ℕ} {item : Payload w ω} (h : Ticket m seq item) : Ticket m' seq item :=
    ⟨h.one_le, hclaim ▸ h.lt, hstored ▸ h.fresh, hitems ▸ h.item⟩
  cases q with
  | idle => trivial
  | load => exact htk hq
  | cas => exact ⟨htk hq.1, hq.2⟩
  | copy seq item left =>
    refine ⟨htk hq.1, ?_⟩
    rw [hslots _ rfl, htop]
    exact hq.2
  | publish seq =>
    change seq ∈ m'.stored
    rw [hstored]
    exact hq

/-- A producer's step keeps the invariant of the others. -/
theorem frame (he : Effect cap m pc m' pc') (hpc : pc.Inv cap m) (hq : q.Inv cap m)
    (hapart : Apart cap pc q) : q.Inv cap m' := by
  cases he with
  | claim x fits =>
    have htk {seq : ℕ} {item : Payload w ω} (h : Ticket m seq item) :
        Ticket { m with
          claimSeq := m.claimSeq + 1
          items := Function.update m.items m.claimSeq (some x) } seq item :=
      ⟨h.one_le, h.lt.trans (Nat.lt_succ_self _), h.fresh,
        (Function.update_of_ne h.lt.ne _ _).trans h.item⟩
    cases q with
    | idle => trivial
    | load => exact htk hq
    | cas => exact ⟨htk hq.1, hq.2⟩
    | copy => exact ⟨htk hq.1, hq.2⟩
    | publish => exact hq
  | drop | wait | see | miss => exact hq
  | own seq item stalled cur seen =>
    refine inv_of_slot_eq (m := m) rfl rfl rfl rfl (fun i hi => storeSeq_of_ne _ _ ?_) hq
    rintro rfl
    cases q with
    | copy seq' item' left' =>
      -- the slot was not being written, so nobody else owns it
      have hmark := hq.2.1
      rw [Option.some.inj hi, seen] at hmark
      exact hpc.2.1 hmark
    | idle | load | cas | publish => cases hi
  | word seq item left j mem =>
    refine inv_of_slot_eq (m := m) rfl rfl rfl rfl (fun i hi => storeWord_of_ne _ _ _ ?_) hq
    rintro rfl
    exact hapart.owns _ rfl hi
  | commit seq item =>
    have htk {k : ℕ} {x : Payload w ω} (hne : q.ticket = some k) (h : Ticket m k x) :
        Ticket { m with
          slots := storeSeq m.slots (slotIndex cap seq) seq
          stored := m.stored ++ [seq]
          top := Function.update m.top (slotIndex cap seq) seq } k x := by
      refine ⟨h.one_le, h.lt, fun hmem => ?_, h.item⟩
      rcases List.mem_append.mp hmem with hmem | hmem
      · exact h.fresh hmem
      · rw [List.mem_singleton.mp hmem] at hne
        exact hapart.ticket seq rfl hne
    cases q with
    | idle => trivial
    | load => exact htk rfl hq
    | cas => exact ⟨htk rfl hq.1, hq.2⟩
    | copy seq' item' left' =>
      have hne : slotIndex cap seq' ≠ slotIndex cap seq :=
        fun heq => hapart.owns _ rfl (congrArg some heq)
      refine ⟨htk rfl hq.1, ?_⟩
      simp only [storeSeq_of_ne _ _ hne, Function.update_of_ne hne]
      exact hq.2
    | publish => exact List.mem_append_left _ hq
  | publish seq => exact inv_of_slot_eq (m := m) rfl rfl rfl rfl (fun _ _ => rfl) hq

/-- After a producer's step it still holds its own ticket and owns its own slot. -/
theorem apart (he : Effect cap m pc m' pc') (hpc : pc.Inv cap m) (hq : q.Inv cap m)
    (hapart : Apart cap pc q) : Apart cap pc' q := by
  cases he with
  | claim x fits =>
    refine ⟨fun k hk hk' => ?_, by rintro i ⟨⟩⟩
    cases hk
    cases q with
    | idle | publish => cases hk'
    | load => cases hk'; exact absurd hq.lt (Nat.lt_irrefl _)
    | cas => cases hk'; exact absurd hq.1.lt (Nat.lt_irrefl _)
    | copy => cases hk'; exact absurd hq.1.lt (Nat.lt_irrefl _)
  | drop => exact ⟨by rintro k ⟨⟩, by rintro i ⟨⟩⟩
  | wait | see | miss => exact ⟨hapart.ticket, by rintro i ⟨⟩⟩
  | own seq item stalled cur seen =>
    refine ⟨hapart.ticket, fun i hi hi' => ?_⟩
    cases hi
    -- the slot was not marked, so nobody else is writing to it
    cases q with
    | copy seq' item' left' =>
      rw [owns, Option.some.injEq] at hi'
      have hmark := hq.2.1
      rw [hi'] at hmark
      exact hpc.2.1 (seen ▸ hmark)
    | idle | load | cas | publish => cases hi'
  | word => exact ⟨hapart.ticket, hapart.owns⟩
  | commit => exact ⟨by rintro k ⟨⟩, by rintro i ⟨⟩⟩
  | publish => exact ⟨by rintro k ⟨⟩, by rintro i ⟨⟩⟩

/-- Seen from one slot, a producer's step changes nothing, marks the slot, or stores a ticket
above every earlier one. -/
theorem evolves (he : Effect cap m pc m' pc') (hm : m.Inv cap) (hpc : pc.Inv cap m) :
    m.view.Evolves m'.view := by
  cases he with
  | claim x fits =>
    refine ⟨fun k hk => hk, fun _ => le_refl _, fun k d hd => ?_, fun _ => .refl _ _ _⟩
    -- a ticket gets its message once
    have hne : k ≠ m.claimSeq := by
      rintro rfl
      exact Option.some_ne_none d (hd.symm.trans (hm.unclaimed _ (le_refl _)))
    exact (Function.update_of_ne hne _ _).trans hd
  | drop | wait | see | miss =>
    exact ⟨fun k hk => hk, fun _ => le_refl _, fun _ _ hd => hd, fun _ => .refl _ _ _⟩
  | own seq item stalled cur seen =>
    refine ⟨fun k hk => hk, fun _ => le_refl _, fun _ _ hd => hd, fun i => ?_⟩
    rcases eq_or_ne i (slotIndex cap seq) with rfl | hne
    · exact fun hmk => absurd (by simp only [MpmcShared.view, storeSeq_self]) hmk
    · simp only [MpmcShared.view, storeSeq_of_ne _ _ hne]
      exact .refl _ _ _
  | word seq item left j mem =>
    refine ⟨fun k hk => hk, fun _ => le_refl _, fun _ _ hd => hd, fun i => ?_⟩
    rcases eq_or_ne i (slotIndex cap seq) with rfl | hne
    · exact fun hmk => absurd (by simp only [MpmcShared.view, storeWord_self, hpc.2.1]) hmk
    · simp only [MpmcShared.view, storeWord_of_ne _ _ _ hne]
      exact .refl _ _ _
  | commit seq item =>
    -- versions of a slot only grow
    obtain ⟨-, -, htop, -⟩ := hpc
    refine ⟨fun k hk => List.mem_append_left _ hk, fun i => ?_, fun _ _ hd => hd, fun i => ?_⟩
    · rcases eq_or_ne i (slotIndex cap seq) with rfl | hne
      · simp only [MpmcShared.view, Function.update_self]
        exact htop.le
      · simp only [MpmcShared.view, Function.update_of_ne hne, le_refl]
    · rcases eq_or_ne i (slotIndex cap seq) with rfl | hne
      · simp only [MpmcShared.view, storeSeq_self]
        exact fun _ => .inr htop
      · simp only [MpmcShared.view, storeSeq_of_ne _ _ hne]
        exact .refl _ _ _
  | publish seq =>
    exact ⟨fun k hk => hk, fun _ => le_refl _, fun _ _ hd => hd, fun _ => .refl _ _ _⟩

/-- The slots marked after a producer's step: its own one, and those marked before. -/
theorem marked {i : ℕ} (he : Effect cap m pc m' pc') (hm : m.Inv cap) (hpc : pc.Inv cap m)
    (hi : (m'.slots i).seq = slotWriting) :
    pc'.owns cap = some i ∨ ((m.slots i).seq = slotWriting ∧ pc.owns cap ≠ some i) := by
  cases he with
  | drop _ waiting => exact .inr ⟨hi, by rw [waiting]; exact Option.some_ne_none i ∘ Eq.symm⟩
  | claim | wait | see | miss | publish => exact .inr ⟨hi, by rintro ⟨⟩⟩
  | own seq item stalled cur seen =>
    rcases eq_or_ne i (slotIndex cap seq) with rfl | hne
    · exact .inl rfl
    · simp only [storeSeq_of_ne _ _ hne] at hi
      exact .inr ⟨hi, by rintro ⟨⟩⟩
  | word seq item left j mem =>
    rcases eq_or_ne i (slotIndex cap seq) with rfl | hne
    · exact .inl rfl
    · simp only [storeWord_of_ne _ _ _ hne] at hi
      exact .inr ⟨hi, fun ho => hne (Option.some.inj ho).symm⟩
  | commit seq item =>
    rcases eq_or_ne i (slotIndex cap seq) with rfl | hne
    · simp only [storeSeq_self] at hi
      exact absurd hi (hpc.1.ne_slotWriting hm).ne
    · simp only [storeSeq_of_ne _ _ hne] at hi
      exact .inr ⟨hi, fun ho => hne (Option.some.inj ho).symm⟩

/-- Tickets are never taken back. -/
theorem claimSeq_le (he : Effect cap m pc m' pc') : m.claimSeq ≤ m'.claimSeq := by
  cases he with
  | claim => exact Nat.le_succ _
  | drop | wait | see | miss | own | word | commit | publish => exact le_refl _

end MpmcPc.Effect

/-- What holds of a reader. -/
def MpmcReader.Inv (cap : Capacity) (v : View w ω) : MpmcReader w ω → Prop
  | .attached c => c.Inv cap v
  | _ => True

theorem MpmcReader.Inv.step [Inhabited ω] {x x' : MpmcReader w ω} {a : ConsumerLabel w}
    (hm : m.Inv cap) (h : x.Inv cap m.view) (hstep : x.step cap m a = some x') :
    x'.Inv cap m.view := by
  unfold MpmcReader.step at hstep
  split at hstep
  · split_ifs at hstep
    cases hstep
    exact .attach (one_le_resolveStart cap m.writeSeq _)
  · obtain ⟨⟨c', stored⟩, hc, he⟩ := Option.map_eq_some_iff.mp hstep
    cases he
    exact RingConsumer.Inv.step hm.truthful h hc
  · cases hstep

namespace MpmcSystem

/-- The slots are truthful, each slot has at most one owner, no ticket is held twice, and every
reader's knowledge is right. -/
structure Inv (cap : Capacity) (s : MpmcSystem π ρ w ω) : Prop where
  mem : s.mem.Inv cap
  producers : ∀ p, (s.producers p).Inv cap s.mem
  apart : ∀ p q, p ≠ q → (s.producers p).Apart cap (s.producers q)
  readers : ∀ r, (s.readers r).Inv cap s.mem.view

variable {s s' : MpmcSystem π ρ w ω} [DecidableEq π] [DecidableEq ρ] [Inhabited ω]

omit [DecidableEq ρ] [Inhabited ω] in
theorem Inv.producer {p : π} {a : MpmcLabel w ω} {mem : MpmcShared w ω} {pc : MpmcPc w ω}
    (h : s.Inv cap) (hstep : (s.producers p).step cap s.mem a = some (mem, pc)) :
    Inv cap { s with mem := mem, producers := Function.update s.producers p pc } := by
  have he := MpmcPc.step_effect hstep
  have hp := h.producers p
  have hfar {q : π} (hq : q ≠ p) : pc.Apart cap (s.producers q) :=
    he.apart hp (h.producers q) (h.apart p q hq.symm)
  refine ⟨he.mem_inv h.mem hp, fun q => ?_, fun q q' hne => ?_, fun r => ?_⟩
  · rcases eq_or_ne q p with rfl | hq
    · simp only [Function.update_self]
      exact he.pc_inv h.mem hp
    · simp only [Function.update_of_ne hq]
      exact he.frame hp (h.producers q) (h.apart p q hq.symm)
  · rcases eq_or_ne q p with rfl | hq
    · simp only [Function.update_self, Function.update_of_ne hne.symm]
      exact hfar hne.symm
    · rcases eq_or_ne q' p with rfl | hq'
      · simp only [Function.update_self, Function.update_of_ne hq]
        exact (hfar hq).symm
      · simp only [Function.update_of_ne hq, Function.update_of_ne hq']
        exact h.apart q q' hne
  · have hr := h.readers r
    cases hx : s.readers r with
    | attached c =>
      rw [hx] at hr
      exact RingConsumer.Inv.evolves hr (he.evolves h.mem hp)
    | absent | opening => trivial

theorem Inv.step {a : MpmcSystemLabel π ρ w ω} (h : s.Inv cap)
    (hstep : s.step cap a = some s') : s'.Inv cap := by
  cases a with
  | producer p a =>
    simp only [MpmcSystem.step] at hstep
    split at hstep <;> cases hstep
    next mem pc hp => exact h.producer hp
  | attach r start =>
    simp only [MpmcSystem.step] at hstep
    split at hstep <;> cases hstep
    refine ⟨h.mem, h.producers, h.apart, fun r' => ?_⟩
    rcases eq_or_ne r' r with rfl | hne
    · simp only [Function.update_self]
      trivial
    · simp only [Function.update_of_ne hne]
      exact h.readers r'
  | reader r a =>
    simp only [MpmcSystem.step] at hstep
    split at hstep <;> cases hstep
    next x hx =>
      refine ⟨h.mem, h.producers, h.apart, fun r' => ?_⟩
      rcases eq_or_ne r' r with rfl | hne
      · simp only [Function.update_self]
        exact (h.readers r').step h.mem hx
      · simp only [Function.update_of_ne hne]
        exact h.readers r'

omit [DecidableEq π] [DecidableEq ρ] in
theorem Inv.create (π ρ : Type) (w : ℕ) : (create (ω := ω) π ρ w).Inv cap where
  mem := by
    refine ⟨le_refl 1, show 1 ≤ u64Max by decide, fun _ _ => rfl, ?_, .inl rfl, ?_⟩
    · intro k hk
      cases hk
    · exact fun i _ => ⟨rfl, .inl rfl⟩
  producers _ := trivial
  apart _ _ _ := ⟨by rintro k ⟨⟩, by rintro i ⟨⟩⟩
  readers _ := trivial

/-- **The invariant holds in every reachable state.** -/
theorem Inv.reaches
    (h : Transition.Reaches (MpmcSystem.step cap) (MpmcSystem.create π ρ w) s) : s.Inv cap :=
  h.invariant (fun hs hstep => hs.step hstep) (Inv.create π ρ w)

/-- A step is a producer's, or leaves the memory and the producers alone. -/
theorem step_cases {a : MpmcSystemLabel π ρ w ω} (hstep : s.step cap a = some s') :
    (∃ p pc, (s.producers p).Effect cap s.mem s'.mem pc ∧
      s'.producers = Function.update s.producers p pc) ∨
    (s'.mem = s.mem ∧ s'.producers = s.producers) := by
  cases a with
  | producer p a =>
    simp only [MpmcSystem.step] at hstep
    split at hstep <;> cases hstep
    next mem pc hp => exact .inl ⟨p, pc, MpmcPc.step_effect hp, rfl⟩
  | attach r start =>
    simp only [MpmcSystem.step] at hstep
    split at hstep <;> cases hstep
    exact .inr ⟨rfl, rfl⟩
  | reader r a =>
    simp only [MpmcSystem.step] at hstep
    split at hstep <;> cases hstep
    exact .inr ⟨rfl, rfl⟩

/-- What the threads that only read see of a step. -/
theorem Inv.evolves {a : MpmcSystemLabel π ρ w ω} (h : s.Inv cap)
    (hstep : s.step cap a = some s') :
    s.mem.view.Evolves s'.mem.view ∧ s.mem.claimSeq ≤ s'.mem.claimSeq := by
  obtain ⟨p, pc, he, -⟩ | ⟨hmem, -⟩ := step_cases hstep
  · exact ⟨he.evolves h.mem (h.producers p), he.claimSeq_le⟩
  · rw [hmem]
    exact ⟨.refl _, le_refl _⟩

/-- A marked slot has an owner. -/
def Marked (cap : Capacity) (s : MpmcSystem π ρ w ω) : Prop :=
  ∀ i, (s.mem.slots i).seq = slotWriting → ∃ p, (s.producers p).owns cap = some i

theorem Marked.step {a : MpmcSystemLabel π ρ w ω} (h : s.Marked cap) (hinv : s.Inv cap)
    (hstep : s.step cap a = some s') : s'.Marked cap := by
  intro i hi
  obtain ⟨p, pc, he, hprod⟩ | ⟨hmem, hprod⟩ := step_cases hstep
  · rw [hprod]
    rcases he.marked hinv.mem (hinv.producers p) hi with hown | ⟨hold, hnot⟩
    · exact ⟨p, by rw [Function.update_self]; exact hown⟩
    · obtain ⟨q, hq⟩ := h i hold
      have hne : q ≠ p := by
        rintro rfl
        exact hnot hq
      exact ⟨q, by rw [Function.update_of_ne hne]; exact hq⟩
  · rw [hprod]
    rw [hmem] at hi
    exact h i hi

omit [DecidableEq π] [DecidableEq ρ] in
theorem Marked.create (π ρ : Type) (w : ℕ) : (create (ω := ω) π ρ w).Marked cap :=
  fun _ hi => absurd hi slotWriting_pos.ne

omit [DecidableEq π] [DecidableEq ρ] [Inhabited ω] in
/-- A slot that went past a ticket was claimed again: the ticket a full ring later is out. -/
theorem Inv.lapped {t : ℕ} (h : s.Inv cap) (hmark : s.Marked cap) (ht : 1 ≤ t)
    (htop : t ≤ s.mem.top (slotIndex cap t)) (hne : (s.mem.slots (slotIndex cap t)).seq ≠ t) :
    t + cap.val < s.mem.claimSeq := by
  by_cases hm : (s.mem.slots (slotIndex cap t)).seq = slotWriting
  · -- the owner's ticket is above every one stored in the slot
    obtain ⟨p, hp⟩ := hmark _ hm
    have hinv := h.producers p
    cases hpc : s.producers p with
    | idle | load | cas | publish =>
      rw [hpc] at hp
      cases hp
    | copy seq item left =>
      rw [hpc] at hp hinv
      obtain ⟨htk, -, hlt, -⟩ := hinv
      have hslot : slotIndex cap seq = slotIndex cap t := Option.some.inj hp
      rw [hslot] at hlt
      exact (add_capacity_le hslot.symm (htop.trans_lt hlt)).trans_lt htk.lt
  · obtain ⟨hw, hcase⟩ := h.mem.word _ hm
    have hgt : t < (s.mem.slots (slotIndex cap t)).seq := by omega
    rcases hcase with h0 | ⟨hst, hslot, -⟩
    · omega
    · exact (add_capacity_le hslot.symm hgt).trans_lt (h.mem.stored _ hst).2

end MpmcSystem

end Ringfire
