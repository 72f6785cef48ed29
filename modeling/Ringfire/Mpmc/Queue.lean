import Mathlib.Algebra.BigOperators.Group.Finset.Basic
import Mathlib.Algebra.Order.BigOperators.Group.Finset
import Ringfire.Mpmc.Ticket

/-!
# Competing consumers

`MpmcQueueConsumer::try_recv` of `mpmc.rs`, cut into its memory accesses: read the ticket kept
from an earlier call, load `read_seq` and `claim_seq`, then skip everything more than a ring
behind the producers with one compare-and-swap, or take the next ticket with another. Both are
computed from loads that may be stale by the time they run.

Beside what the source keeps, a consumer remembers which tickets it delivered and which it
counted as dropped.

## Main definitions

* `QueueConsumer.step`: one memory access of `try_recv`
* `QueueSystem.step`: producers and competing consumers, one access at a time

## Main results

* `QueueConsumer.step_effect`: what one access does to the tickets
* `QueueSystem.queue_conserves`: every ticket handed out by `read_seq` is delivered once, dropped
  once or pending at one consumer
-/

namespace Ringfire

variable {π ρ κ : Type} {w : ℕ} {ω : Type}

/-- Where a thread inside `try_recv` stands. -/
inductive QueuePc (w : ℕ) (ω : Type) where
  | idle
  | ticket (t : ℕ) (rd : TicketPc w ω)
  | loadRead
  | loadClaim (readSeq : ℕ)
  | skip (readSeq floor : ℕ)
  | take (readSeq : ℕ)

/-- A competing consumer, with the tickets it delivered and those it counted as dropped. -/
structure QueueConsumer (w : ℕ) (ω : Type) where
  pending : Option ℕ
  dropped : ℕ
  pc : QueuePc w ω
  delivered : List (ℕ × Payload w ω)
  lost : List ℕ

/-- A step of a consumer: the start of `try_recv`, or its next access. -/
inductive QueueLabel (w : ℕ) where
  | tryRecv
  | access (a : Option (Fin w))

namespace QueueConsumer

/-- `attach`. -/
def attach : QueueConsumer w ω := ⟨none, 0, .idle, [], []⟩

/-- The top of the loop of `try_recv`. -/
def restart (c : QueueConsumer w ω) : QueueConsumer w ω :=
  match c.pending with
  | some t => { c with pc := .ticket t .load }
  | none => { c with pc := .loadRead }

/-- What `try_recv` makes of the outcome of `read_ticket`. -/
def settle (c : QueueConsumer w ω) (t : ℕ) : TicketRead (Payload w ω) → QueueConsumer w ω
  | .ready item => { c with pending := none, pc := .idle, delivered := c.delivered ++ [(t, item)] }
  | .notYet => { c with pc := .idle }
  | .lost =>
    { c with pending := none, dropped := c.dropped + 1, pc := .loadRead, lost := c.lost ++ [t] }

/-- One memory access of `try_recv`; returns `read_seq` and the consumer. -/
def step [Inhabited ω] (cap : Capacity) (m : MpmcShared w ω) (readSeq : ℕ)
    (c : QueueConsumer w ω) (a : QueueLabel w) : Option (ℕ × QueueConsumer w ω) :=
  match c.pc, a with
  | .idle, .tryRecv => some (readSeq, c.restart)
  | .ticket t rd, .access a =>
    match rd.step cap m t a with
    | some (.done r) => some (readSeq, c.settle t r)
    | some rd' => some (readSeq, { c with pc := .ticket t rd' })
    | none => none
  | .loadRead, .access none => some (readSeq, { c with pc := .loadClaim readSeq })
  | .loadClaim r, .access none =>
    -- empty, a ring behind the producers, or a ticket to take
    if m.claimSeq ≤ r then some (readSeq, { c with pc := .idle })
    else if r < m.claimSeq - cap.val then
      some (readSeq, { c with pc := .skip r (m.claimSeq - cap.val) })
    else some (readSeq, { c with pc := .take r })
  -- both compare and swaps restart the loop when another consumer was faster
  | .skip r floor, .access none =>
    if readSeq = r then
      some (floor, restart { c with
        dropped := c.dropped + (floor - r)
        lost := c.lost ++ List.range' r (floor - r) })
    else some (readSeq, c.restart)
  | .take r, .access none =>
    if readSeq = r then some (r + 1, restart { c with pending := some r })
    else some (readSeq, c.restart)
  | _, _ => none

/-- What holds of a consumer in the middle of `try_recv`. -/
def PcSound (cap : Capacity) (m : MpmcShared w ω) (c : QueueConsumer w ω) : Prop :=
  match c.pc with
  | .idle => True
  | .ticket t rd => c.pending = some t ∧ rd.Sound cap m t
  | .loadRead | .loadClaim _ => c.pending = none
  | .skip r floor => c.pending = none ∧ r < floor ∧ floor + cap.val ≤ m.claimSeq
  | .take r => c.pending = none ∧ r < m.claimSeq

/-- The tickets a consumer took from `read_seq`. -/
def taken (c : QueueConsumer w ω) : List ℕ :=
  c.delivered.map Prod.fst ++ c.lost ++ c.pending.toList

/-- The effects a consumer's step can have. -/
inductive Effect (cap : Capacity) (m : MpmcShared w ω) (readSeq : ℕ) (c : QueueConsumer w ω) :
    ℕ → QueueConsumer w ω → Prop where
  | move (pc : QueuePc w ω) (sound : PcSound cap m { c with pc := pc }) :
      Effect cap m readSeq c readSeq { c with pc := pc }
  | deliver (t : ℕ) (item : Payload w ω) (pending : c.pending = some t)
      (pushed : m.items t = some item) :
      Effect cap m readSeq c readSeq
        { c with pending := none, pc := .idle, delivered := c.delivered ++ [(t, item)] }
  | drop (t : ℕ) (pending : c.pending = some t) (lapped : t + cap.val < m.claimSeq) :
      Effect cap m readSeq c readSeq
        { c with pending := none, dropped := c.dropped + 1, pc := .loadRead, lost := c.lost ++ [t] }
  | skip (floor : ℕ) (pending : c.pending = none) (lt : readSeq < floor)
      (lapped : floor + cap.val ≤ m.claimSeq) :
      Effect cap m readSeq c floor
        { c with
          dropped := c.dropped + (floor - readSeq)
          pc := .loadRead
          lost := c.lost ++ List.range' readSeq (floor - readSeq) }
  | take (pending : c.pending = none) (lt : readSeq < m.claimSeq) :
      Effect cap m readSeq c (readSeq + 1)
        { c with pending := some readSeq, pc := .ticket readSeq .load }

variable {cap : Capacity} {m m' : MpmcShared w ω} {readSeq readSeq' : ℕ} {c c' : QueueConsumer w ω}

theorem PcSound.evolves (h : c.PcSound cap m) (hpending : ∀ t, c.pending = some t → t ≠ slotWriting)
    (he : m.view.Evolves m'.view) (hclaim : m.claimSeq ≤ m'.claimSeq) : c.PcSound cap m' := by
  unfold PcSound at *
  split at h
  · trivial
  · exact ⟨h.1, h.2.evolves (hpending _ h.1) he hclaim⟩
  · exact h
  · exact h
  · exact ⟨h.1, h.2.1, h.2.2.trans hclaim⟩
  · exact ⟨h.1, h.2.trans_le hclaim⟩

theorem restart_of_none (h : c.pending = none) : c.restart = { c with pc := .loadRead } := by
  unfold restart
  rw [h]

/-- At the top of the loop a consumer knows nothing. -/
theorem restart_effect (c : QueueConsumer w ω) : Effect cap m readSeq c readSeq c.restart := by
  unfold restart
  split
  next t ht => exact .move _ ⟨ht, trivial⟩
  next hn => exact .move _ hn

/-- What one access of `try_recv` does to the tickets. -/
theorem step_effect [Inhabited ω] {s : MpmcSystem π ρ w ω} {a : QueueLabel w}
    (hs : s.Inv cap) (hmark : s.Marked cap) (h : c.PcSound cap s.mem)
    (hpending : ∀ t, c.pending = some t → 1 ≤ t ∧ t ≠ slotWriting)
    (hstep : c.step cap s.mem readSeq a = some (readSeq', c')) :
    Effect cap s.mem readSeq c readSeq' c' := by
  unfold PcSound at h
  unfold QueueConsumer.step at hstep
  split at hstep
  case h_1 =>
    cases hstep
    exact restart_effect c
  -- `read_ticket`: only its end changes anything
  case h_2 t rd a hpc =>
    rw [hpc] at h
    obtain ⟨ht, hrd⟩ := h
    obtain ⟨hpos, hne⟩ := hpending t ht
    have hsound {rd' : TicketPc w ω} (hr : rd.step cap s.mem t a = some rd') :
        rd'.Sound cap s.mem t := hs.ticket_step hmark hpos hne hrd hr
    split at hstep
    · next r hr =>
      cases hstep
      cases r with
      | ready item => exact .deliver t item ht ((hsound hr).1 item rfl)
      | notYet => exact .move .idle trivial
      | lost => exact .drop t ht ((hsound hr).2 rfl)
    · next rd' _ hr =>
      cases hstep
      exact .move _ ⟨ht, hsound hr⟩
    · cases hstep
  -- the two loads that choose between returning, skipping and taking a ticket
  case h_3 hpc =>
    rw [hpc] at h
    cases hstep
    exact .move _ h
  case h_4 r hpc =>
    rw [hpc] at h
    split_ifs at hstep with hempty hfloor <;> cases hstep
    · exact .move .idle trivial
    · exact .move _ ⟨h, hfloor, by omega⟩
    · exact .move _ ⟨h, Nat.not_le.mp hempty⟩
  -- the compare and swaps on `read_seq`
  case h_5 r floor hpc =>
    rw [hpc] at h
    split_ifs at hstep with heq <;> cases hstep
    · subst heq
      rw [restart_of_none]
      · exact .skip _ h.1 h.2.1 h.2.2
      · exact h.1
    · exact restart_effect c
  case h_6 r hpc =>
    rw [hpc] at h
    split_ifs at hstep with heq <;> cases hstep
    · subst heq
      exact .take h.1 h.2
    · exact restart_effect c
  case h_7 => cases hstep

theorem Effect.pcSound (he : Effect cap m readSeq c readSeq' c') : c'.PcSound cap m := by
  cases he with
  | move pc sound => exact sound
  | deliver => trivial
  | drop => rfl
  | skip _ pending => exact pending
  | take => exact ⟨rfl, trivial⟩

/-- What holds of a consumer's tickets: they came from `read_seq`, none is there twice, the
delivered ones are strictly increasing and below the pending one, and a dropped one was lapped. -/
structure Inv (cap : Capacity) (m : MpmcShared w ω) (readSeq : ℕ) (c : QueueConsumer w ω) :
    Prop where
  taken : ∀ t ∈ c.taken, 1 ≤ t ∧ t < readSeq ∧ t < m.claimSeq
  nodup : c.taken.Nodup
  increasing : (c.delivered.map Prod.fst ++ c.pending.toList).Pairwise (· < ·)
  pushed : ∀ p ∈ c.delivered, m.items p.1 = some p.2
  lapped : ∀ t ∈ c.lost, t + cap.val < m.claimSeq
  dropped : c.dropped = c.lost.length

theorem Inv.attach : (attach : QueueConsumer w ω).Inv cap m readSeq :=
  ⟨by rintro t ⟨⟩, List.nodup_nil, .nil, by rintro p ⟨⟩, by rintro t ⟨⟩, rfl⟩

theorem Inv.mono (h : c.Inv cap m readSeq) (hread : readSeq ≤ readSeq')
    (hclaim : m.claimSeq ≤ m'.claimSeq) (hitems : ∀ k d, m.items k = some d → m'.items k = some d) :
    c.Inv cap m' readSeq' where
  taken t ht :=
    have ⟨hpos, hlt, hcl⟩ := h.taken t ht
    ⟨hpos, hlt.trans_le hread, hcl.trans_le hclaim⟩
  nodup := h.nodup
  increasing := h.increasing
  pushed p hp := hitems _ _ (h.pushed p hp)
  lapped t ht := (h.lapped t ht).trans_le hclaim
  dropped := h.dropped

theorem Inv.pending_mem {t : ℕ} (ht : c.pending = some t) : t ∈ c.taken := by
  unfold QueueConsumer.taken
  rw [ht]
  exact List.mem_append_right _ (List.mem_singleton_self t)

/-- The tickets after a step are those before, up to order, and the ones taken in it. -/
theorem Effect.taken_perm (he : Effect cap m readSeq c readSeq' c') :
    c'.taken.Perm (c.taken ++ List.range' readSeq (readSeq' - readSeq)) := by
  cases he with
  | move => simp [QueueConsumer.taken]
  | deliver t item pending =>
    simp only [QueueConsumer.taken, pending, List.map_append, List.map_cons, List.map_nil,
      Option.toList_some, Option.toList_none, List.append_nil, Nat.sub_self, List.range'_zero]
    rw [List.append_assoc, List.append_assoc]
    exact List.perm_append_comm.append_left _
  | drop t pending => simp [QueueConsumer.taken, pending]
  | skip floor pending => simp [QueueConsumer.taken, pending]
  | take pending => simp [QueueConsumer.taken, pending]

theorem Effect.readSeq_le (he : Effect cap m readSeq c readSeq' c') : readSeq ≤ readSeq' := by
  cases he with
  | move | deliver | drop => exact le_refl _
  | skip floor _ lt => exact lt.le
  | take => exact Nat.le_succ _

theorem Effect.readSeq_le_claimSeq (he : Effect cap m readSeq c readSeq' c')
    (h : readSeq ≤ m.claimSeq) : readSeq' ≤ m.claimSeq := by
  cases he with
  | move | deliver | drop => exact h
  | skip floor _ _ lapped => omega
  | take _ lt => exact lt

/-- A step keeps what holds of the tickets. -/
theorem Inv.effect (h : c.Inv cap m readSeq) (hpos : 1 ≤ readSeq) (hclaim : readSeq ≤ m.claimSeq)
    (he : Effect cap m readSeq c readSeq' c') : c'.Inv cap m readSeq' := by
  -- the tickets taken by the step are new ones, whatever became of them
  have htaken : ∀ t ∈ c'.taken, 1 ≤ t ∧ t < readSeq' ∧ t < m.claimSeq := by
    intro t ht
    have hle := he.readSeq_le
    have hclaim' := he.readSeq_le_claimSeq hclaim
    rcases List.mem_append.mp (he.taken_perm.mem_iff.mp ht) with ht | ht
    · obtain ⟨hpos, hlt, hcl⟩ := h.taken t ht
      exact ⟨hpos, hlt.trans_le hle, hcl⟩
    · obtain ⟨hge, hlt⟩ := List.mem_range'_1.mp ht
      omega
  have hnodup : c'.taken.Nodup := by
    rw [he.taken_perm.nodup_iff, List.nodup_append]
    refine ⟨h.nodup, List.nodup_range', fun t ht u hu heq => ?_⟩
    have hlt := (h.taken t ht).2.1
    have hge := (List.mem_range'_1.mp hu).1
    omega
  have hinc := h.increasing
  cases he with
  | move => exact ⟨htaken, hnodup, h.increasing, h.pushed, h.lapped, h.dropped⟩
  | deliver t item pending pushed =>
    rw [pending] at hinc
    refine ⟨htaken, hnodup, by simpa using hinc, fun p hp => ?_, h.lapped, h.dropped⟩
    rcases List.mem_append.mp hp with hp | hp
    · exact h.pushed p hp
    · rw [List.mem_singleton.mp hp]
      exact pushed
  | drop t pending lapped =>
    refine ⟨htaken, hnodup, ?_, h.pushed, fun u hu => ?_, ?_⟩
    · simpa using (List.pairwise_append.mp hinc).1
    · rcases List.mem_append.mp hu with hu | hu
      · exact h.lapped u hu
      · rw [List.mem_singleton.mp hu]
        exact lapped
    · simp only [h.dropped, List.length_append, List.length_singleton]
  | skip floor pending lt lapped =>
    refine ⟨htaken, hnodup, h.increasing, h.pushed, fun u hu => ?_, ?_⟩
    · rcases List.mem_append.mp hu with hu | hu
      · exact h.lapped u hu
      · have := (List.mem_range'_1.mp hu).2
        omega
    · simp only [h.dropped, List.length_append, List.length_range']
  | take pending lt =>
    refine ⟨htaken, hnodup, ?_, h.pushed, h.lapped, h.dropped⟩
    rw [pending] at hinc
    refine List.pairwise_append.mpr ⟨(List.pairwise_append.mp hinc).1, List.pairwise_singleton _ _, ?_⟩
    intro t ht u hu
    rw [List.mem_singleton.mp hu]
    exact (h.taken t (List.mem_append_left _ (List.mem_append_left _ ht))).2.1

end QueueConsumer

/-! ## The system -/

/-- The multi-producer ring, `read_seq`, and the consumers that compete for its messages. -/
structure QueueSystem (π ρ κ : Type) (w : ℕ) (ω : Type) where
  ring : MpmcSystem π ρ w ω
  readSeq : ℕ
  consumers : κ → QueueConsumer w ω

/-- Who moves. -/
inductive QueueSystemLabel (π ρ κ : Type) (w : ℕ) (ω : Type) where
  | ring (a : MpmcSystemLabel π ρ w ω)
  | consumer (k : κ) (a : QueueLabel w)

namespace QueueSystem

variable [DecidableEq π] [DecidableEq ρ] [DecidableEq κ] [Inhabited ω]

/-- A freshly created ring and consumers that took nothing yet. -/
def create (π ρ κ : Type) (w : ℕ) : QueueSystem π ρ κ w ω where
  ring := .create π ρ w
  readSeq := 1
  consumers := fun _ => .attach

/-- One memory access of one thread. -/
def step (cap : Capacity) (s : QueueSystem π ρ κ w ω) :
    QueueSystemLabel π ρ κ w ω → Option (QueueSystem π ρ κ w ω)
  | .ring a => (s.ring.step cap a).map fun ring => { s with ring := ring }
  | .consumer k a =>
    ((s.consumers k).step cap s.ring.mem s.readSeq a).map fun (readSeq, c) =>
      { s with readSeq := readSeq, consumers := Function.update s.consumers k c }

/-- Every ticket below `read_seq` is with exactly one consumer. -/
structure Inv [Fintype κ] (cap : Capacity) (s : QueueSystem π ρ κ w ω) : Prop where
  ring : s.ring.Inv cap
  marked : s.ring.Marked cap
  one_le : 1 ≤ s.readSeq
  claimed : s.readSeq ≤ s.ring.mem.claimSeq
  sound : ∀ k, (s.consumers k).PcSound cap s.ring.mem
  consumers : ∀ k, (s.consumers k).Inv cap s.ring.mem s.readSeq
  disjoint : ∀ j k, j ≠ k → ∀ t ∈ (s.consumers j).taken, t ∉ (s.consumers k).taken
  total : s.readSeq = 1 + ∑ k, (s.consumers k).taken.length

variable [Fintype κ] {cap : Capacity} {s s' : QueueSystem π ρ κ w ω}

omit [DecidableEq π] [DecidableEq ρ] [DecidableEq κ] in
theorem Inv.create (π ρ κ : Type) (w : ℕ) [Fintype κ] : (create (ω := ω) π ρ κ w).Inv cap where
  ring := .create π ρ w
  marked := .create π ρ w
  one_le := le_refl 1
  claimed := le_refl 1
  sound _ := trivial
  consumers _ := .attach
  disjoint := by
    rintro j k - t ⟨⟩
  total := by
    simp [QueueSystem.create, QueueConsumer.taken, QueueConsumer.attach]

omit [DecidableEq κ] in
/-- The producers' steps leave the consumers' tickets alone. -/
theorem Inv.ring_step {a : MpmcSystemLabel π ρ w ω} {ring : MpmcSystem π ρ w ω} (h : s.Inv cap)
    (hring : s.ring.step cap a = some ring) : Inv cap { s with ring := ring } := by
  obtain ⟨he, hclaim⟩ := h.ring.evolves hring
  refine ⟨h.ring.step hring, h.marked.step h.ring hring, h.one_le, h.claimed.trans hclaim,
    fun k => (h.sound k).evolves (fun t ht => ?_) he hclaim,
    fun k => (h.consumers k).mono (le_refl _) hclaim he.message, h.disjoint, h.total⟩
  have hlt := ((h.consumers k).taken t (QueueConsumer.Inv.pending_mem ht)).2.2
  exact (hlt.trans_le h.ring.mem.fits).ne

omit [DecidableEq π] [DecidableEq ρ] in
/-- A consumer's step moves tickets between its own lists and takes new ones from `read_seq`. -/
theorem Inv.consumer_step {k : κ} {a : QueueLabel w} {readSeq : ℕ} {c : QueueConsumer w ω}
    (h : s.Inv cap) (hc : (s.consumers k).step cap s.ring.mem s.readSeq a = some (readSeq, c)) :
    Inv cap { s with readSeq := readSeq, consumers := Function.update s.consumers k c } := by
  have he := QueueConsumer.step_effect h.ring h.marked (h.sound k) (fun t ht => by
    obtain ⟨hpos, -, hlt⟩ := (h.consumers k).taken t (QueueConsumer.Inv.pending_mem ht)
    exact ⟨hpos, (hlt.trans_le h.ring.mem.fits).ne⟩) hc
  -- a ticket taken in this step was with no consumer before
  have hfresh {j : κ} (hj : j ≠ k) : ∀ t ∈ c.taken, t ∉ (s.consumers j).taken := by
    intro t ht htj
    rcases List.mem_append.mp (he.taken_perm.mem_iff.mp ht) with hold | hnew
    · exact h.disjoint k j hj.symm t hold htj
    · have hge := (List.mem_range'_1.mp hnew).1
      have hlt := ((h.consumers j).taken t htj).2.1
      omega
  refine ⟨h.ring, h.marked, h.one_le.trans he.readSeq_le, he.readSeq_le_claimSeq h.claimed,
    fun j => ?_, fun j => ?_, fun i j hij t hti htj => ?_, ?_⟩
  · by_cases hj : j = k
    · subst hj
      simp only [Function.update_self]
      exact he.pcSound
    · simp only [Function.update_of_ne hj]
      exact h.sound j
  · by_cases hj : j = k
    · subst hj
      simp only [Function.update_self]
      exact (h.consumers j).effect h.one_le h.claimed he
    · simp only [Function.update_of_ne hj]
      exact (h.consumers j).mono he.readSeq_le (le_refl _) fun _ _ hd => hd
  · by_cases hi : i = k
    · subst hi
      simp only [Function.update_self, Function.update_of_ne hij.symm] at hti htj
      exact hfresh hij.symm t hti htj
    · by_cases hj : j = k
      · subst hj
        simp only [Function.update_self, Function.update_of_ne hi] at hti htj
        exact hfresh hi t htj hti
      · simp only [Function.update_of_ne hi, Function.update_of_ne hj] at hti htj
        exact h.disjoint i j hij t hti htj
  · have hlen := he.taken_perm.length_eq
    rw [List.length_append, List.length_range'] at hlen
    have hsum : ∑ j, (Function.update s.consumers k c j).taken.length =
        (∑ j, (s.consumers j).taken.length) + (readSeq - s.readSeq) := by
      rw [← Finset.add_sum_erase _ _ (Finset.mem_univ k),
        ← Finset.add_sum_erase _ (fun j => (s.consumers j).taken.length) (Finset.mem_univ k)]
      simp only [Function.update_self, hlen]
      rw [Finset.sum_congr rfl fun j hj => by
        rw [Function.update_of_ne (Finset.ne_of_mem_erase hj)]]
      omega
    have htotal := h.total
    have hle := he.readSeq_le
    simp only [hsum]
    omega

theorem Inv.step {a : QueueSystemLabel π ρ κ w ω} (h : s.Inv cap) (hstep : s.step cap a = some s') :
    s'.Inv cap := by
  cases a with
  | ring a =>
    obtain ⟨ring, hring, rfl⟩ := Option.map_eq_some_iff.mp hstep
    exact h.ring_step hring
  | consumer k a =>
    obtain ⟨⟨readSeq, c⟩, hc, rfl⟩ := Option.map_eq_some_iff.mp hstep
    exact h.consumer_step hc

/-- **Conservation.** In every reachable state, `read_seq` has moved by the messages delivered,
the tickets counted as dropped and the tickets pending; a ticket is delivered to one consumer only
and not dropped as well; each consumer delivers its tickets in increasing order, with the payload
pushed under each; and a ticket is dropped only when the one a full ring later has been claimed. -/
theorem queue_conserves
    (h : Transition.Reaches (QueueSystem.step cap) (QueueSystem.create π ρ κ w) s) :
    s.readSeq - (QueueSystem.create (ω := ω) π ρ κ w).readSeq =
      ∑ k, ((s.consumers k).delivered.length + (s.consumers k).dropped +
        (s.consumers k).pending.toList.length) ∧
    (∀ j k t, t ∈ (s.consumers j).delivered.map Prod.fst →
      t ∈ (s.consumers k).delivered.map Prod.fst → j = k) ∧
    (∀ j k t, t ∈ (s.consumers j).delivered.map Prod.fst → t ∉ (s.consumers k).lost) ∧
    (∀ k, ((s.consumers k).delivered.map Prod.fst).Pairwise (· < ·) ∧
      (∀ p ∈ (s.consumers k).delivered, s.ring.mem.items p.1 = some p.2) ∧
      (s.consumers k).dropped = (s.consumers k).lost.length) ∧
    (∀ k, ∀ t ∈ (s.consumers k).lost, t + cap.val < s.ring.mem.claimSeq) := by
  have hs : s.Inv cap := h.invariant (fun hs hstep => hs.step hstep) (Inv.create π ρ κ w)
  -- every ticket is with one consumer: delivered, lost or pending
  have hdelivered {k : κ} {t : ℕ} (ht : t ∈ (s.consumers k).delivered.map Prod.fst) :
      t ∈ (s.consumers k).taken :=
    List.mem_append_left _ (List.mem_append_left _ ht)
  refine ⟨?_, fun j k t hj hk => ?_, fun j k t hj hk => ?_, fun k =>
    ⟨?_, (hs.consumers k).pushed, (hs.consumers k).dropped⟩, fun k => (hs.consumers k).lapped⟩
  · have htotal := hs.total
    have hone : (QueueSystem.create (ω := ω) π ρ κ w).readSeq = 1 := rfl
    have hsum : ∑ k, (s.consumers k).taken.length =
        ∑ k, ((s.consumers k).delivered.length + (s.consumers k).dropped +
          (s.consumers k).pending.toList.length) := by
      refine Finset.sum_congr rfl fun k _ => ?_
      simp only [QueueConsumer.taken, List.length_append, List.length_map, (hs.consumers k).dropped]
    omega
  · by_contra hne
    exact hs.disjoint j k hne t (hdelivered hj) (hdelivered hk)
  · by_cases hjk : j = k
    · -- within one consumer the tickets are all different
      subst hjk
      have hnodup := List.nodup_append.mp (List.nodup_append.mp (hs.consumers j).nodup).1
      exact hnodup.2.2 t hj t hk rfl
    · exact hs.disjoint j k hjk t (hdelivered hj)
        (List.mem_append_left _ (List.mem_append_right _ hk))
  · exact (List.pairwise_append.mp (hs.consumers k).increasing).1

section Runs

/-- A producer pushes one message. -/
private def pushOne (x : UInt8) : List (QueueSystemLabel Unit Empty (Fin 2) 1 UInt8) :=
  [.ring (.producer () (.push fun _ => x)), .ring (.producer () (.tick false)),
    .ring (.producer () (.tick false)), .ring (.producer () (.word onlyWord)),
    .ring (.producer () (.tick false)), .ring (.producer () (.tick false))]

/-- Three messages through a ring of one slot; then a consumer skips two and receives the third. -/
private def skipTwo : List (QueueSystemLabel Unit Empty (Fin 2) 1 UInt8) :=
  pushOne 5 ++ pushOne 6 ++ pushOne 7 ++
    [.tryRecv, .access none, .access none, .access none, .access none, .access none, .access none,
      .access none, .access (some onlyWord), .access none].map (.consumer firstOfTwo)

theorem queue_conserves_skipTwo : ∃ s : QueueSystem Unit Empty (Fin 2) 1 UInt8,
    Transition.Reaches (QueueSystem.step ⟨1, 0, rfl⟩) (QueueSystem.create _ _ _ _) s ∧
    (s.consumers 0).delivered.map Prod.fst = [3] ∧ (s.consumers 0).lost = [1, 2] ∧
    s.readSeq - 1 = ∑ k, ((s.consumers k).delivered.length + (s.consumers k).dropped +
      (s.consumers k).pending.toList.length) := by
  obtain ⟨s, hs⟩ : ∃ s, Transition.run (QueueSystem.step ⟨1, 0, rfl⟩)
    (QueueSystem.create _ _ _ _) skipTwo = some s := ⟨_, rfl⟩
  refine ⟨s, ⟨_, hs⟩, ?_, ?_, (queue_conserves ⟨_, hs⟩).1⟩
  · cases hs
    rfl
  · cases hs
    rfl

end Runs

end QueueSystem

end Ringfire
