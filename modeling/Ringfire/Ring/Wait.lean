import Ringfire.Foundation.Tally
import Ringfire.Foundation.Transition
import Ringfire.Ring.Slot

/-!
# Sleeping and waking

`FutexWait::wait` and `wake_futex` of `wait.rs`, cut into their memory accesses. A consumer that
found nothing loads `futex_word`, registers in `waiting_consumers`, looks at `write_seq` once more
and asks the kernel to sleep; the kernel compares `futex_word` with the value loaded before and
sleeps in one step. A producer stores `write_seq`, then looks at `waiting_consumers`, and if
somebody is registered moves `futex_word` on and wakes everybody.

Accesses are sequentially consistent, which is what the consumer's `membarrier` is for. A sleep
may end at any moment (the timeout, a signal); nothing below relies on it. There are always fewer
threads than the `i32::MAX` that `wake_futex` passes to the kernel.

## Main definitions

* `WaitSystem.step`: producers that publish and wake, consumers that wait
* `WaitSystem.Timely`: `futex_word` does not come round between a consumer's load and its sleep

## Main results

* `WaitSystem.Inv.step`: every step preserves the invariant of the protocol
* `WaitSystem.no_lost_wakeup`: nobody sleeps for a message that is published, unless a producer is
  about to wake him
-/

namespace Ringfire

variable {π κ : Type}

/-- Where a producer stands between its store of `write_seq` and the end of `wake_futex`. -/
inductive WakePc where
  | idle
  | check
  | bump
  | wake
  deriving DecidableEq

/-- Where a consumer inside `wait(cursor)` stands. `wakes` is how often `futex_word` had moved
when the consumer loaded `futexVal` from it. -/
inductive WaitPc where
  | idle
  | check (cursor : ℕ)
  | loadWord (cursor : ℕ)
  | register (cursor futexVal wakes : ℕ)
  | recheck (cursor futexVal wakes : ℕ)
  | futexWait (cursor futexVal wakes : ℕ)
  | asleep (cursor : ℕ)
  | unregister
  deriving DecidableEq

/-- The wait strategy of a consumer. -/
structure FutexWait where
  spins : ℕ
  spinLimit : ℕ
  pc : WaitPc

/-- The words of the header that the protocol uses, with the number of times `futex_word` moved,
and the threads. -/
structure WaitSystem (π κ : Type) where
  writeSeq : ℕ
  futexWord : ℕ
  waitingConsumers : ℕ
  wakes : ℕ
  producers : π → WakePc
  consumers : κ → FutexWait

/-- A consumer's step: the start of `wait`, `reset`, or whatever comes next. -/
inductive WaitLabel where
  | wait (cursor : ℕ)
  | reset
  | tick

/-- Who moves. A producer's `store` is the store of `write_seq` that a publication ends with. -/
inductive WaitSystemLabel (π κ : Type) where
  | store (p : π) (seq : ℕ)
  | wake (p : π)
  | consumer (k : κ) (a : WaitLabel)

/-- The consumer is between its `fetch_add` and its `fetch_sub` on `waiting_consumers`. -/
def WaitPc.registered : WaitPc → Bool
  | .recheck _ _ _ | .futexWait _ _ _ | .asleep _ | .unregister => true
  | _ => false

/-- The cursor a consumer inside `wait` waits for. -/
def WaitPc.target : WaitPc → Option ℕ
  | .check cursor | .loadWord cursor | .register cursor _ _ | .recheck cursor _ _
  | .futexWait cursor _ _ | .asleep cursor => some cursor
  | .idle | .unregister => none

/-- The kernel wakes the consumer. -/
def FutexWait.woken (c : FutexWait) : FutexWait :=
  match c.pc with
  | .asleep _ => { c with pc := .unregister }
  | _ => c

theorem FutexWait.woken_cases (c : FutexWait) :
    (∃ cursor, c.pc = .asleep cursor ∧ c.woken.pc = .unregister) ∨
    ((∀ cursor, c.pc ≠ .asleep cursor) ∧ c.woken = c) := by
  unfold FutexWait.woken
  split
  · next cursor hc => exact .inl ⟨cursor, hc, rfl⟩
  · next hc => exact .inr ⟨hc, rfl⟩

namespace WaitSystem

/-- Idle producers, and consumers that wait with the given spin limits. -/
def create (π : Type) (writeSeq : ℕ) (spinLimit : κ → ℕ) : WaitSystem π κ where
  writeSeq := writeSeq
  futexWord := 0
  waitingConsumers := 0
  wakes := 0
  producers := fun _ => .idle
  consumers := fun k => ⟨0, spinLimit k, .idle⟩

variable [DecidableEq π] [DecidableEq κ]

/-- Consumer `k` becomes `c`. -/
def put (s : WaitSystem π κ) (k : κ) (c : FutexWait) : WaitSystem π κ :=
  { s with consumers := Function.update s.consumers k c }

/-- Consumer `k` goes on at `pc`. -/
def goto (s : WaitSystem π κ) (k : κ) (pc : WaitPc) : WaitSystem π κ :=
  s.put k { s.consumers k with pc := pc }

/-- One memory access of `wait`. -/
def consumerStep (s : WaitSystem π κ) (k : κ) (a : WaitLabel) : Option (WaitSystem π κ) :=
  match (s.consumers k).pc, a with
  | .idle, .wait cursor =>
    if (s.consumers k).spins < (s.consumers k).spinLimit then
      some (s.put k { s.consumers k with spins := (s.consumers k).spins + 1 })
    else some (s.goto k (.check cursor))
  | .idle, .reset => some (s.put k { s.consumers k with spins := 0 })
  -- the fast check before sleeping
  | .check cursor, .tick =>
    if cursor ≤ s.writeSeq then some (s.goto k .idle) else some (s.goto k (.loadWord cursor))
  | .loadWord cursor, .tick => some (s.goto k (.register cursor s.futexWord s.wakes))
  -- from here on a producer that checks `waiting_consumers` sees this consumer
  | .register cursor futexVal wakes, .tick =>
    if s.waitingConsumers + 1 < 2 ^ 32 then
      some { s.goto k (.recheck cursor futexVal wakes) with
        waitingConsumers := s.waitingConsumers + 1 }
    else none
  -- a message published before the registration is seen here
  | .recheck cursor futexVal wakes, .tick =>
    if cursor ≤ s.writeSeq then some (s.goto k .unregister)
    else some (s.goto k (.futexWait cursor futexVal wakes))
  -- the kernel compares and sleeps in one step
  | .futexWait cursor futexVal _, .tick =>
    if s.futexWord = futexVal then some (s.goto k (.asleep cursor))
    else some (s.goto k .unregister)
  -- the timeout, or a wakeup without a reason
  | .asleep _, .tick => some (s.goto k .unregister)
  | .unregister, .tick =>
    some { s.goto k .idle with waitingConsumers := s.waitingConsumers - 1 }
  | _, _ => none

/-- One memory access of `wake_futex`. -/
def wakeStep (s : WaitSystem π κ) (p : π) : Option (WaitSystem π κ) :=
  match s.producers p with
  | .idle => none
  -- after the store to `write_seq`; without a waiting consumer nothing is woken
  | .check =>
    if 0 < s.waitingConsumers then
      some { s with producers := Function.update s.producers p .bump }
    else some { s with producers := Function.update s.producers p .idle }
  | .bump =>
    some { s with
      futexWord := (s.futexWord + 1) % 2 ^ 32
      wakes := s.wakes + 1
      producers := Function.update s.producers p .wake }
  | .wake =>
    some { s with
      producers := Function.update s.producers p .idle
      consumers := fun k => (s.consumers k).woken }

/-- One memory access of one thread. -/
def step (s : WaitSystem π κ) : WaitSystemLabel π κ → Option (WaitSystem π κ)
  | .store p seq =>
    if s.producers p = .idle then
      some { s with writeSeq := seq, producers := Function.update s.producers p .check }
    else none
  | .wake p => s.wakeStep p
  | .consumer k a => s.consumerStep k a

omit [DecidableEq π] [DecidableEq κ] in
/-- A consumer about to sleep loaded `futex_word` fewer than `2^32` wakes ago. -/
def Timely (s : WaitSystem π κ) : WaitSystemLabel π κ → Prop
  | .consumer k _ => ∀ cursor futexVal wakes,
      (s.consumers k).pc = .futexWait cursor futexVal wakes → s.wakes < wakes + 2 ^ 32
  | _ => True

/-! ## What a step leaves alone -/

section

variable {s s' : WaitSystem π κ} {k : κ}

omit [DecidableEq π] in
/-- A consumer's step changes that consumer and `waiting_consumers`, and what it waits for is
settled by the call. -/
theorem consumerStep_eq {a : WaitLabel} (hstep : s.consumerStep k a = some s') :
    ∃ c waiting, s' = { s.put k c with waitingConsumers := waiting } ∧
      ∀ cursor, c.pc.target = some cursor →
        (s.consumers k).pc.target = some cursor ∨ a = .wait cursor := by
  unfold WaitSystem.consumerStep at hstep
  split at hstep
  case h_1 cursor hpc =>
    split_ifs at hstep <;> cases hstep
    · exact ⟨_, _, rfl, fun _ hc => .inl hc⟩
    · exact ⟨_, _, rfl, fun _ hc => .inr (by cases hc; rfl)⟩
  case h_2 hpc =>
    cases hstep
    exact ⟨_, _, rfl, fun _ hc => .inl hc⟩
  case h_3 cursor hpc =>
    split_ifs at hstep <;> cases hstep
    · exact ⟨_, _, rfl, fun _ hc => by cases hc⟩
    · exact ⟨_, _, rfl, fun _ hc => .inl (by rw [hpc]; exact hc)⟩
  case h_4 cursor hpc =>
    cases hstep
    exact ⟨_, _, rfl, fun _ hc => .inl (by rw [hpc]; exact hc)⟩
  case h_5 cursor futexVal wakes hpc =>
    split_ifs at hstep
    cases hstep
    exact ⟨_, _, rfl, fun _ hc => .inl (by rw [hpc]; exact hc)⟩
  case h_6 cursor futexVal wakes hpc =>
    split_ifs at hstep <;> cases hstep
    · exact ⟨_, _, rfl, fun _ hc => by cases hc⟩
    · exact ⟨_, _, rfl, fun _ hc => .inl (by rw [hpc]; exact hc)⟩
  case h_7 cursor futexVal wakes hpc =>
    split_ifs at hstep <;> cases hstep
    · exact ⟨_, _, rfl, fun _ hc => .inl (by rw [hpc]; exact hc)⟩
    · exact ⟨_, _, rfl, fun _ hc => by cases hc⟩
  case h_8 | h_9 =>
    cases hstep
    exact ⟨_, _, rfl, fun _ hc => by cases hc⟩
  case h_10 => cases hstep

omit [DecidableEq κ] in
/-- A wake leaves `write_seq` alone and lets nobody wait for anything else. -/
theorem wakeStep_eq {p : π} (hstep : s.wakeStep p = some s') :
    s'.writeSeq = s.writeSeq ∧ ∀ k cursor, (s'.consumers k).pc.target = some cursor →
      (s.consumers k).pc.target = some cursor := by
  unfold WaitSystem.wakeStep at hstep
  split at hstep
  · cases hstep
  · split_ifs at hstep <;> cases hstep
    · exact ⟨rfl, fun _ _ hc => hc⟩
    · exact ⟨rfl, fun _ _ hc => hc⟩
  · cases hstep
    exact ⟨rfl, fun _ _ hc => hc⟩
  · cases hstep
    refine ⟨rfl, fun k cursor hc => ?_⟩
    simp only at hc
    obtain ⟨_, -, hw⟩ | ⟨-, hw⟩ := (s.consumers k).woken_cases
    · rw [hw] at hc
      cases hc
    · rwa [hw] at hc

end

/-! ## The invariant -/

omit [DecidableEq π] [DecidableEq κ] in
/-- What holds of a consumer at `pc`. One that is about to sleep although its message is published
will find `futex_word` moved, unless the producer that published it has not moved it yet. -/
def Covered (s : WaitSystem π κ) : WaitPc → Prop
  | .register _ futexVal wakes | .recheck _ futexVal wakes =>
      futexVal = wakes % 2 ^ 32 ∧ wakes ≤ s.wakes
  | .futexWait cursor futexVal wakes => (futexVal = wakes % 2 ^ 32 ∧ wakes ≤ s.wakes) ∧
      (cursor ≤ s.writeSeq →
        wakes < s.wakes ∨ ∃ p, s.producers p = .check ∨ s.producers p = .bump)
  | .asleep cursor => cursor ≤ s.writeSeq → ∃ p, s.producers p ≠ .idle
  | _ => True

omit [DecidableEq π] [DecidableEq κ] in
/-- The number of consumers between their `fetch_add` and their `fetch_sub`. -/
def registrations [Fintype κ] (s : WaitSystem π κ) : ℕ :=
  (Finset.univ.filter fun k => (s.consumers k).pc.registered = true).card

omit [DecidableEq π] [DecidableEq κ] in
/-- The protocol's invariant. -/
structure Inv [Fintype κ] (s : WaitSystem π κ) : Prop where
  word : s.futexWord = s.wakes % 2 ^ 32
  count : s.waitingConsumers = s.registrations
  covered : ∀ k, s.Covered (s.consumers k).pc

variable [Fintype κ] {s s' : WaitSystem π κ} {k : κ}

omit [DecidableEq π] in
/-- A consumer moves on to a point where the invariant covers it. -/
theorem Inv.put {c : FutexWait} {waiting : ℕ} (h : s.Inv) (hc : s.Covered c.pc)
    (hw : waiting + (s.consumers k).pc.registered.toNat =
      s.waitingConsumers + c.pc.registered.toNat) :
    Inv { s.put k c with waitingConsumers := waiting } := by
  refine ⟨h.word, ?_, fun j => ?_⟩
  · have hcount := h.count
    have hupd : (s.put k c).registrations + (s.consumers k).pc.registered.toNat =
        s.registrations + c.pc.registered.toNat :=
      Tally.card_update s.consumers k c fun c => c.pc.registered
    change waiting = (s.put k c).registrations
    omega
  · by_cases hj : j = k
    · subst hj
      simp only [WaitSystem.put, Function.update_self]
      exact hc
    · simp only [WaitSystem.put, Function.update_of_ne hj]
      exact h.covered j

omit [DecidableEq π] in
/-- The same for a consumer that neither registers nor unregisters. -/
theorem Inv.goto {pc : WaitPc} (h : s.Inv) (hc : s.Covered pc)
    (hr : pc.registered = (s.consumers k).pc.registered) : (s.goto k pc).Inv := by
  refine h.put (c := { s.consumers k with pc := pc }) hc ?_
  rw [hr]

omit [DecidableEq π] in
/-- A consumer's step keeps the invariant. -/
theorem Inv.consumerStep {a : WaitLabel} (h : s.Inv) (htimely : s.Timely (.consumer k a))
    (hstep : s.consumerStep k a = some s') : s'.Inv := by
  have hk := h.covered k
  unfold WaitSystem.consumerStep at hstep
  split at hstep
  -- spinning, and the fast check: nobody has to wake this consumer yet
  case h_1 cursor hpc =>
    split_ifs at hstep <;> cases hstep
    · exact h.put (c := { s.consumers k with spins := _ }) hk rfl
    · exact h.goto trivial (by rw [hpc]; rfl)
  case h_2 hpc =>
    cases hstep
    exact h.put (c := { s.consumers k with spins := 0 }) hk rfl
  case h_3 cursor hpc =>
    split_ifs at hstep <;> cases hstep
    · exact h.goto trivial (by rw [hpc]; rfl)
    · exact h.goto trivial (by rw [hpc]; rfl)
  -- from the load of `futex_word` on every wake is noticed
  case h_4 cursor hpc =>
    cases hstep
    exact h.goto ⟨h.word, le_refl _⟩ (by rw [hpc]; rfl)
  case h_5 cursor futexVal wakes hpc =>
    rw [hpc] at hk
    split_ifs at hstep
    cases hstep
    refine h.put (c := { s.consumers k with pc := .recheck cursor futexVal wakes }) hk ?_
    rw [hpc]
    rfl
  -- the message is not there, so whoever publishes it will see the registration
  case h_6 cursor futexVal wakes hpc =>
    rw [hpc] at hk
    split_ifs at hstep with hle <;> cases hstep
    · exact h.goto trivial (by rw [hpc]; rfl)
    · exact h.goto ⟨hk, fun hle' => absurd hle' hle⟩ (by rw [hpc]; rfl)
  case h_7 cursor futexVal wakes hpc =>
    rw [hpc] at hk
    split_ifs at hstep with heq <;> cases hstep
    · -- `futex_word` did not move, so whoever published the message has not moved it yet
      refine h.goto (fun hle => ?_) (by rw [hpc]; rfl)
      have hlt := htimely cursor futexVal wakes hpc
      obtain ⟨⟨hval, hle'⟩, hpub⟩ := hk
      rw [h.word, hval] at heq
      have hsame := Cyclic.eq_of_mod_eq heq.symm hle' hlt
      rcases hpub hle with hmoved | ⟨p, hp | hp⟩
      · omega
      · exact ⟨p, by rw [hp]; exact WakePc.noConfusion⟩
      · exact ⟨p, by rw [hp]; exact WakePc.noConfusion⟩
    · exact h.goto trivial (by rw [hpc]; rfl)
  -- on the way out
  case h_8 cursor hpc =>
    cases hstep
    exact h.goto trivial (by rw [hpc]; rfl)
  case h_9 hpc =>
    cases hstep
    refine h.put (c := { s.consumers k with pc := .idle }) trivial ?_
    have hpos : 1 ≤ s.registrations :=
      Finset.card_pos.mpr ⟨k, Finset.mem_filter.mpr ⟨Finset.mem_univ k, by rw [hpc]; rfl⟩⟩
    rw [h.count, hpc]
    exact Nat.sub_add_cancel hpos
  case h_10 => cases hstep

omit [DecidableEq π] [DecidableEq κ] in
/-- While somebody is inside the registered part of `wait`, `waiting_consumers` is not zero. -/
theorem Inv.waiting_pos (h : s.Inv) (hk : (s.consumers k).pc.registered = true) :
    0 < s.waitingConsumers := by
  rw [h.count]
  exact Finset.card_pos.mpr ⟨k, Finset.mem_filter.mpr ⟨Finset.mem_univ k, hk⟩⟩

omit [DecidableEq π] [DecidableEq κ] [Fintype κ] in
/-- A producer that stored `write_seq` covers every consumer. -/
theorem Covered.store {s : WaitSystem π κ} {pc : WaitPc} {producers : π → WakePc} {seq : ℕ} {p : π}
    (h : s.Covered pc) (hp : producers p = .check) :
    Covered { s with writeSeq := seq, producers := producers } pc := by
  cases pc with
  | register | recheck => exact h
  | futexWait cursor futexVal wakes => exact ⟨h.1, fun _ => .inr ⟨p, .inl hp⟩⟩
  | asleep cursor => exact fun _ => ⟨p, by simp only [hp]; exact WakePc.noConfusion⟩
  | idle | check | loadWord | unregister => trivial

omit [DecidableEq π] [DecidableEq κ] [Fintype κ] in
/-- What covers a consumer while a producer goes through `wake_futex`: the producers that have
not moved `futex_word` yet move it, and those that are not idle stay so while somebody sleeps. -/
theorem Covered.mono {pc : WaitPc} (h : s.Covered pc) (hseq : s'.writeSeq = s.writeSeq)
    (hwakes : s.wakes ≤ s'.wakes)
    (hbump : (∃ p, s.producers p = .check ∨ s.producers p = .bump) →
      s.wakes < s'.wakes ∨ ∃ p, s'.producers p = .check ∨ s'.producers p = .bump)
    (hbusy : ∀ cursor, pc = .asleep cursor → (∃ p, s.producers p ≠ .idle) →
      ∃ p, s'.producers p ≠ .idle) : s'.Covered pc := by
  cases pc with
  | register | recheck => exact ⟨h.1, h.2.trans hwakes⟩
  | futexWait cursor futexVal wakes =>
    refine ⟨⟨h.1.1, h.1.2.trans hwakes⟩, fun hle => ?_⟩
    rcases h.2 (hseq ▸ hle) with hlt | hp
    · exact .inl (hlt.trans_le hwakes)
    · exact (hbump hp).imp_left h.1.2.trans_lt
  | asleep cursor => exact fun hle => hbusy cursor rfl (h (hseq ▸ hle))
  | idle | check | loadWord | unregister => trivial

omit [DecidableEq κ] in
/-- A producer's step inside `wake_futex` keeps the invariant. -/
theorem Inv.wakeStep {p : π} (h : s.Inv) (hstep : s.wakeStep p = some s') : s'.Inv := by
  unfold WaitSystem.wakeStep at hstep
  split at hstep
  · cases hstep
  · next hp =>
    split_ifs at hstep with hpos <;> cases hstep
    · refine ⟨h.word, h.count, fun k => (h.covered k).mono rfl (le_refl _) (fun _ => ?_) ?_⟩
      · exact .inr ⟨p, .inr (Function.update_self _ _ _)⟩
      · exact fun _ _ _ => ⟨p, by simp only [Function.update_self]; exact WakePc.noConfusion⟩
    · -- nobody is registered, so nobody needs this producer
      refine ⟨h.word, h.count, fun k => ?_⟩
      have hk := h.covered k
      have hnot : (s.consumers k).pc.registered ≠ true := fun hr => hpos (h.waiting_pos hr)
      simp only
      cases hpc : (s.consumers k).pc with
      | register =>
        rw [hpc] at hk
        exact hk
      | recheck | futexWait | asleep => exact absurd (by rw [hpc]; rfl) hnot
      | idle | check | loadWord | unregister => trivial
  · next hp =>
    -- the word moves on, so a consumer that read the old one does not sleep
    cases hstep
    refine ⟨?_, h.count, fun k => (h.covered k).mono rfl (Nat.le_succ _) (fun _ => ?_) ?_⟩
    · simp only [h.word, Nat.mod_add_mod]
    · exact .inl (Nat.lt_succ_self _)
    · exact fun _ _ _ => ⟨p, by simp only [Function.update_self]; exact WakePc.noConfusion⟩
  · next hp =>
    cases hstep
    -- whoever is woken stays registered until it runs
    have hreg (c : FutexWait) : c.woken.pc.registered = c.pc.registered := by
      obtain ⟨cursor, hc, hw⟩ | ⟨-, hw⟩ := c.woken_cases
      · rw [hc, hw]
        rfl
      · rw [hw]
    refine ⟨h.word, ?_, fun k => ?_⟩
    · simp only [registrations, hreg]
      exact h.count
    · simp only
      obtain ⟨cursor, hc, hw⟩ | ⟨hawake, hw⟩ := (s.consumers k).woken_cases
      · rw [hw]
        trivial
      · rw [hw]
        refine (h.covered k).mono rfl (le_refl _) ?_ fun cursor hc => absurd hc (hawake cursor)
        rintro ⟨q, hq⟩
        have hne : q ≠ p := by
          rintro rfl
          rw [hp] at hq
          rcases hq with hq | hq <;> cases hq
        exact .inr ⟨q, by simpa only [Function.update_of_ne hne] using hq⟩

theorem Inv.step {a : WaitSystemLabel π κ} (h : s.Inv) (ht : s.Timely a)
    (hstep : s.step a = some s') : s'.Inv := by
  cases a with
  | store p seq =>
    simp only [WaitSystem.step] at hstep
    split_ifs at hstep
    cases hstep
    exact ⟨h.word, h.count, fun k => (h.covered k).store (Function.update_self p _ _)⟩
  | wake p => exact h.wakeStep hstep
  | consumer k a => exact h.consumerStep ht hstep

omit [DecidableEq π] [DecidableEq κ] in
theorem Inv.create (π : Type) (writeSeq : ℕ) (spinLimit : κ → ℕ) :
    (create π writeSeq spinLimit).Inv := by
  refine ⟨rfl, ?_, fun _ => trivial⟩
  simp [registrations, WaitSystem.create, WaitPc.registered]

/-- **No lost wake-up.** In every state reached by timely steps, a consumer asleep for a cursor
that `write_seq` has reached is about to be woken: some producer is between its store of
`write_seq` and the end of its `wake_futex`. And `waiting_consumers` is the number of consumers
between their `fetch_add` and their `fetch_sub`. -/
theorem no_lost_wakeup {writeSeq : ℕ} {spinLimit : κ → ℕ}
    (h : Transition.ReachesBy Timely step (create π writeSeq spinLimit) s) :
    (∀ k cursor, (s.consumers k).pc = .asleep cursor → cursor ≤ s.writeSeq →
      ∃ p, s.producers p ≠ .idle) ∧
    s.waitingConsumers = s.registrations := by
  have hs : s.Inv := h.invariant (fun hs ht hstep => hs.step ht hstep) (Inv.create π _ _)
  refine ⟨fun k cursor hk => ?_, hs.count⟩
  have hcovered := hs.covered k
  rw [hk] at hcovered
  exact hcovered

/-- A consumer goes to sleep for message `1`, and the producer publishes it. -/
theorem no_lost_wakeup_first : ∃ s : WaitSystem Unit (Fin 2),
    Transition.ReachesBy Timely step (create Unit 0 fun _ => 0) s ∧
    (s.consumers 0).pc = .asleep 1 ∧ 1 ≤ s.writeSeq ∧ s.waitingConsumers = 1 ∧
    (∃ p, s.producers p ≠ .idle) ∧ s.waitingConsumers = s.registrations := by
  have hfew (n : ℕ) : 0 < n + 2 ^ 32 := Nat.add_pos_right n (Nat.two_pow_pos 32)
  have hrun : Transition.ReachesBy Timely step (create Unit 0 fun _ : Fin 2 => 0) _ :=
    .tail (a := .store () 1)
      (.tail (a := .consumer 0 .tick)
        (.tail (a := .consumer 0 .tick)
          (.tail (a := .consumer 0 .tick)
            (.tail (a := .consumer 0 .tick)
              (.tail (a := .consumer 0 .tick)
                (.tail (a := .consumer 0 (.wait 1)) .refl (fun _ _ n _ => hfew n) rfl)
                (fun _ _ n _ => hfew n) rfl)
              (fun _ _ n _ => hfew n) rfl)
            (fun _ _ n _ => hfew n) rfl)
          (fun _ _ n _ => hfew n) rfl)
        (fun _ _ n _ => hfew n) rfl)
      trivial rfl
  have hpub := no_lost_wakeup hrun
  exact ⟨_, hrun, rfl, le_refl 1, rfl, hpub.1 0 1 rfl (le_refl 1), hpub.2⟩

end WaitSystem

end Ringfire
